import CorpusIndex.Proofs.VectorMap

/-!
# Vector maps under edits

An edit is one call on a vector map with any arguments, and a call that fails leaves the map as it was.
Every run of edits from an empty map lists a vector id once and for one document, so that the deletion of
a document takes out the vector ids listed for it and nothing else.
-/
namespace CorpusIndex.VectorMap

variable {m m' : VectorMap} {n : Node} {vectorId : Option String} {id doc v old new : String}
  {vs : List String} {f : Failure}

/-! ### Listings and embeddings -/

/-- The vector ids of a document, in the order they are listed. -/
def listed (m : VectorMap) (doc : String) : List String := m.documents.getD doc []

theorem listed_eq (m : VectorMap) (doc : String) : m.listed doc = (m.documents.get? doc).getD [] := rfl

theorem listed_add (h : m.add n vectorId = .ok (m', v)) (hv : m.nodes.get? v = none) (doc : String) :
    m'.listed doc = m.listed doc ++ if n.document = some doc then [v] else [] := by
  obtain ⟨rfl, _⟩ := add_eq_ok h
  unfold add at h
  simp only [hv] at h
  cases h
  cases hdoc : n.document with
  | none => simp [listed_eq]
  | some d =>
      simp only [listed_eq, SortedMap.update, SortedMap.getD_eq, Option.some.injEq]
      by_cases hd : d = doc
      · simp [hd]
      · simp [SortedMap.get?_insert_of_ne _ _ (Ne.symm hd), hd]

theorem listed_rebind (h : m.rebind old new = .ok m') (hne : old ≠ new) (doc : String) :
    m'.listed doc = (m.listed doc).map fun v => if v = old then new else v := by
  unfold rebind at h
  rw [if_neg hne] at h
  split at h
  next => cases h
  next => cases h
  next =>
    cases h
    rw [listed_eq, listed_eq, SortedMap.get?_mapValues]
    cases m.documents.get? doc <;> rfl

theorem embeddings_rebind (h : m.rebind old new = .ok m') (hne : old ≠ new) :
    m'.embeddings = m.embeddings.map fun e => (if e.1 = old then new else e.1, e.2) := by
  unfold rebind at h
  rw [if_neg hne] at h
  split at h
  next => cases h
  next => cases h
  next =>
    cases h
    rfl

/-! ### What a deletion takes out -/

/-- `m'` is `m` without the entry of `doc`, which lists `vs`, and without all that is kept under a vector
id of `vs`. -/
structure FansOut (m : VectorMap) (doc : String) (vs : List String) (m' : VectorMap) : Prop where
  entry : m.documents.get? doc = some vs
  nodes : ∀ v, m'.nodes.get? v = if v ∈ vs then none else m.nodes.get? v
  documents : ∀ d, m'.documents.get? d = if d = doc then none else m.documents.get? d
  embeddings : m'.embeddings = m.embeddings.filter fun e => e.1 ∉ vs
  rest : m'.id = m.id ∧ m'.summary = m.summary ∧ m'.backend = m.backend

theorem fansOut_of_deleteDocument (h : m.deleteDocument doc = .ok (m', vs)) : m.FansOut doc vs m' := by
  unfold deleteDocument at h
  cases hdoc : m.documents.get? doc with
  | none => simp [hdoc] at h
  | some us =>
      simp only [hdoc, Except.ok.injEq, Prod.mk.injEq] at h
      obtain ⟨rfl, rfl⟩ := h
      refine ⟨hdoc, fun v => ?_, fun d => ?_, ?_, rfl, rfl, rfl⟩
      · apply Option.ext
        intro id
        rw [SortedMap.get?_foldl_erase]
        by_cases hv : v ∈ us <;> simp [hv]
      · by_cases hd : d = doc
        · simp [hd]
        · simp [SortedMap.get?_erase_of_ne _ hd, hd]
      · exact List.filter_congr fun e _ => by simp

/-- The map a deletion leaves is determined by what it keeps. -/
theorem FansOut.unique {m₁ m₂ : VectorMap} {vs₁ vs₂ : List String} (h₁ : m.FansOut doc vs₁ m₁)
    (h₂ : m.FansOut doc vs₂ m₂) : m₁ = m₂ ∧ vs₁ = vs₂ := by
  have hvs : vs₁ = vs₂ := Option.some.inj (h₁.entry.symm.trans h₂.entry)
  subst hvs
  have hnodes : m₁.nodes = m₂.nodes := SortedMap.ext_get? fun v => by rw [h₁.nodes, h₂.nodes]
  have hdocuments : m₁.documents = m₂.documents :=
    SortedMap.ext_get? fun d => by rw [h₁.documents, h₂.documents]
  have hembeddings : m₁.embeddings = m₂.embeddings := h₁.embeddings.trans h₂.embeddings.symm
  obtain ⟨hid₁, hsummary₁, hbackend₁⟩ := h₁.rest
  obtain ⟨hid₂, hsummary₂, hbackend₂⟩ := h₂.rest
  cases m₁
  cases m₂
  simp_all

/-- A deletion succeeds for a document that has an entry, and takes out what is listed there. -/
theorem deleteDocument_eq_ok_iff : m.deleteDocument doc = .ok (m', vs) ↔ m.FansOut doc vs m' := by
  refine ⟨fansOut_of_deleteDocument, fun h => ?_⟩
  obtain ⟨m'', hdel⟩ : ∃ m'', m.deleteDocument doc = .ok (m'', vs) := by
    unfold deleteDocument
    rw [h.entry]
    exact ⟨_, rfl⟩
  rw [hdel, ((fansOut_of_deleteDocument hdel).unique h).1]

/-! ### Edits -/

/-- One call asked of a vector map. -/
inductive Edit where
  | add (n : Node) (vectorId : Option String)
  | embed (v : String) (e : Embedding)
  | rebind (old new : String)
  | deleteDocument (doc : String)

/-- The new map, if the call gives one. -/
def Edit.call (m : VectorMap) : Edit → Except Failure VectorMap
  | .add n vectorId => (·.1) <$> m.add n vectorId
  | .embed v e => .ok (m.embed v e)
  | .rebind old new => m.rebind old new
  | .deleteDocument doc => (·.1) <$> m.deleteDocument doc

/-- The map an edit leaves: the old one, if the call fails. -/
def Edit.run (m : VectorMap) (e : Edit) : VectorMap :=
  match e.call m with
  | .ok m' => m'
  | .error _ => m

/-- The map after edits one after another, those that fail included. -/
def after (m : VectorMap) (edits : List Edit) : VectorMap := edits.foldl Edit.run m

/-- Why a call is refused. -/
inductive Refuses (m : VectorMap) : Edit → Failure → Prop
  | taken {n : Node} {vectorId : Option String} {holder : String} :
      m.nodes.get? (vectorId.getD n.id) = some holder → holder ≠ n.id →
        m.Refuses (.add n vectorId) (.repeated (.vectorId (vectorId.getD n.id) holder))
  | bound {old new holder : String} : old ≠ new → m.nodes.get? new = some holder →
      m.Refuses (.rebind old new) (.repeated (.vectorId new holder))
  | unbound {old new : String} : old ≠ new → m.nodes.get? new = none → m.nodes.get? old = none →
      m.Refuses (.rebind old new) (.absent (.vectorId old m.id))
  | unlisted {doc : String} : m.documents.get? doc = none →
      m.Refuses (.deleteDocument doc) (.absent (.document doc (.vectors m.id)))

variable {e : Edit}

theorem add_eq_error : m.add n vectorId = .error f ↔ m.Refuses (.add n vectorId) f := by
  constructor
  · intro h
    unfold add at h
    cases hv : m.nodes.get? (vectorId.getD n.id) with
    | none => simp [hv] at h
    | some holder =>
        simp only [hv] at h
        split at h
        next => cases h
        next hne =>
          cases h
          exact .taken hv hne
  · intro h
    unfold add
    cases h with
    | taken hv hne => simp only [hv, if_neg hne]

theorem rebind_eq_error : m.rebind old new = .error f ↔ m.Refuses (.rebind old new) f := by
  constructor
  · intro h
    unfold rebind at h
    split at h
    next => cases h
    next hne =>
      split at h
      next hnew =>
        cases h
        exact .bound hne hnew
      next hnew hold =>
        cases h
        exact .unbound hne hnew hold
      next => cases h
  · intro h
    unfold rebind
    cases h with
    | bound hne hnew => simp only [if_neg hne, hnew]
    | unbound hne hnew hold => simp only [if_neg hne, hnew, hold]

theorem deleteDocument_eq_error :
    m.deleteDocument doc = .error f ↔ m.Refuses (.deleteDocument doc) f := by
  constructor
  · intro h
    unfold deleteDocument at h
    cases hdoc : m.documents.get? doc with
    | some us => simp [hdoc] at h
    | none =>
        simp only [hdoc] at h
        cases h
        exact .unlisted hdoc
  · intro h
    unfold deleteDocument
    cases h with
    | unlisted hdoc => simp only [hdoc]

/-- A call fails exactly where the map refuses it, with the reason it has. -/
theorem call_eq_error : e.call m = .error f ↔ m.Refuses e f := by
  cases e with
  | add n vectorId => exact map_eq_error.trans add_eq_error
  | embed v d =>
      constructor
      · intro h
        cases h
      · intro h
        cases h
  | rebind old new => exact rebind_eq_error
  | deleteDocument doc => exact map_eq_error.trans deleteDocument_eq_error

theorem run_of_refuses (h : m.Refuses e f) : e.run m = m := by
  rw [Edit.run, call_eq_error.mpr h]

/-- What an edit can do: nothing, or what its operation does where that succeeds. -/
theorem run_cases (m : VectorMap) (e : Edit) : e.run m = m ∨
    (∃ n vectorId v, e = .add n vectorId ∧ m.add n vectorId = .ok (e.run m, v)) ∨
    (∃ v d, e = .embed v d ∧ e.run m = m.embed v d) ∨
    (∃ old new, e = .rebind old new ∧ m.rebind old new = .ok (e.run m)) ∨
    ∃ doc vs, e = .deleteDocument doc ∧ m.deleteDocument doc = .ok (e.run m, vs) := by
  unfold Edit.run
  cases hcall : e.call m with
  | error f => exact .inl rfl
  | ok m' =>
      cases e with
      | add n vectorId =>
          obtain ⟨r, hadd, rfl⟩ := map_eq_ok.mp hcall
          exact .inr (.inl ⟨n, vectorId, r.2, rfl, hadd⟩)
      | embed v d =>
          cases hcall
          exact .inr (.inr (.inl ⟨v, d, rfl, rfl⟩))
      | rebind old new => exact .inr (.inr (.inr (.inl ⟨old, new, rfl, hcall⟩)))
      | deleteDocument doc =>
          obtain ⟨r, hdel, rfl⟩ := map_eq_ok.mp hcall
          exact .inr (.inr (.inr (.inr ⟨doc, r.2, rfl, hdel⟩)))

/-- What edits make, the operations make. -/
theorem Built.run (h : m.Built) (e : Edit) : (e.run m).Built := by
  rcases run_cases m e with hsame | ⟨n, vectorId, v, _, hadd⟩ | ⟨v, d, _, hembed⟩ |
    ⟨old, new, _, hrebind⟩ | ⟨doc, vs, _, hdel⟩
  · rwa [hsame]
  · exact h.add hadd
  · rw [hembed]
    exact h.embed v d
  · exact h.rebind hrebind
  · exact h.deleteDocument hdel

theorem Built.after (h : m.Built) (edits : List Edit) : (m.after edits).Built := by
  induction edits generalizing m with
  | nil => exact h
  | cons e edits ih => exact ih (h.run e)

/-! ### Each vector id listed once -/

/-- Listed vector ids are mapped, and each is listed once and for one document. -/
structure ListsOnce (m : VectorMap) : Prop extends m.Filed where
  once : ∀ doc, (m.listed doc).Nodup

namespace ListsOnce

theorem empty (id : String) (summary : Option String) (backend : Backend) :
    ({ id, summary, backend } : VectorMap).ListsOnce where
  toFiled := .empty id summary backend
  once _ := List.nodup_nil

theorem add (hm : m.ListsOnce) (h : m.add n vectorId = .ok (m', v)) : m'.ListsOnce where
  toFiled := hm.toFiled.add h
  once doc := by
    obtain ⟨_, _, ⟨_, rfl⟩ | ⟨hv, _, _⟩⟩ := add_eq_ok h
    · exact hm.once doc
    · have hnew : v ∉ m.listed doc := by
        intro hin
        obtain ⟨id, hid⟩ := hm.mapped doc v hin
        cases hid.symm.trans hv
      rw [listed_add h hv]
      split
      · exact (List.nodup_cons.mpr ⟨hnew, hm.once doc⟩).perm (List.perm_append_singleton v _).symm
      · rw [List.append_nil]
        exact hm.once doc

theorem embed (hm : m.ListsOnce) (v : String) (d : Embedding) : (m.embed v d).ListsOnce where
  toFiled := hm.toFiled.embed
  once := hm.once

theorem rebind (hm : m.ListsOnce) (h : m.rebind old new = .ok m') : m'.ListsOnce where
  toFiled := hm.toFiled.rebind h
  once doc := by
    obtain ⟨_, rfl⟩ | ⟨_, hne, hnew, _⟩ := rebind_eq_ok h
    · exact hm.once doc
    · -- `new` is not mapped, so it is not listed and no two ids get the same name
      have hfree (u : String) (hu : u ∈ m.listed doc) : u ≠ new := by
        rintro rfl
        obtain ⟨id, hid⟩ := hm.mapped doc u hu
        cases hid.symm.trans hnew
      rw [listed_rebind h hne]
      refine (hm.once doc).map_on fun u hu w hw heq => ?_
      have hu := hfree u hu
      have hw := hfree w hw
      grind

theorem deleteDocument (hm : m.ListsOnce) (h : m.deleteDocument doc = .ok (m', vs)) : m'.ListsOnce where
  toFiled := hm.toFiled.deleteDocument h
  once d := by
    rw [listed_eq, (fansOut_of_deleteDocument h).documents]
    split
    · exact List.nodup_nil
    · exact hm.once d

end ListsOnce

/-- The operations keep the listings free of repetitions. -/
theorem Built.listsOnce (h : m.Built) : m.ListsOnce := by
  induction h with
  | empty id summary backend => exact .empty id summary backend
  | add _ h hm => exact hm.add h
  | embed v d _ hm => exact hm.embed v d
  | rebind _ h hm => exact hm.rebind h
  | deleteDocument _ h hm => exact hm.deleteDocument h

/-- After any edits of an empty map the check passes and the listings repeat nothing. A further call fails
exactly where the map refuses it, and then the map is what it was. A deletion succeeds exactly for a
document with an entry, and it takes out the entry and what is kept under the vector ids listed there. -/
theorem edits_list_once (id : String) (summary : Option String) (backend : Backend) (edits : List Edit) :
    (after { id, summary, backend } edits).validate = .ok () ∧
    (after { id, summary, backend } edits).ListsOnce ∧
    (∀ e f, e.call (after { id, summary, backend } edits) = .error f ↔
      (after { id, summary, backend } edits).Refuses e f) ∧
    (∀ e f, (after { id, summary, backend } edits).Refuses e f →
      after { id, summary, backend } (edits ++ [e]) = after { id, summary, backend } edits) ∧
    ∀ doc vs m', (after { id, summary, backend } edits).deleteDocument doc = .ok (m', vs) ↔
      (after { id, summary, backend } edits).FansOut doc vs m' := by
  have hlists := ((Built.empty id summary backend).after edits).listsOnce
  refine ⟨hlists.validate, hlists, fun e f => call_eq_error, fun e f h => ?_, fun doc vs m' => ?_⟩
  · rw [after, List.foldl_append]
    exact run_of_refuses h
  · exact deleteDocument_eq_ok_iff

/-- Two vectors of a node, the second one moved to another vector id after its embedding came. -/
def twoVectors : List Edit :=
  [.add { id := "a", text := "", document := some "d" } (some "v"),
    .add { id := "a", text := "", document := some "d" } (some "w"),
    .add { id := "b", text := "", document := some "e" } none,
    .embed "w" [2], .embed "b" [1], .embed "v" [0], .rebind "w" "x"]

/-- Another node under a vector id in use is refused, and the deletion of the document takes out both
vectors. The embedding between theirs stays. -/
theorem edits_list_once_twoVectors :
    (VectorMap.Edit.add { id := "c", text := "" } (some "v")).call (after { id := "m" } twoVectors) =
      .error (.repeated (.vectorId "v" "a")) ∧
    after { id := "m" } (twoVectors ++ [.add { id := "c", text := "" } (some "v")]) =
      after { id := "m" } twoVectors ∧
    ∃ m', (after { id := "m" } twoVectors).FansOut "d" ["v", "x"] m' ∧
      m'.nodes.toList = [("b", "b")] ∧ m'.embeddings = [("b", [1])] := by
  obtain ⟨_, _, hfails, hkeeps, hdel⟩ := edits_list_once "m" none .simple twoVectors
  have hrefuses : (after { id := "m" } twoVectors).Refuses (.add { id := "c", text := "" } (some "v"))
      (.repeated (.vectorId "v" "a")) := .taken (by decide) (by decide)
  exact ⟨(hfails _ _).mpr hrefuses, hkeeps _ _ hrefuses, _, (hdel "d" ["v", "x"] _).mp rfl, rfl, rfl⟩

end CorpusIndex.VectorMap
