import CorpusIndex.Proofs.Embedding.Ranking
import CorpusIndex.Proofs.Vectors.Format
import CorpusIndex.Proofs.Vectors.Mirror

/-!
# Searches of a store that has a history

An id that is added again keeps its place in a store, and one that comes back after its document was deleted
goes to the end. So the entries stand in the order in which their ids came to stay (`Kept`), which every step of
a run preserves, reading back what the run has written included. A search ranks by score and then by this
order.
-/
namespace CorpusIndex.VectorStore

variable {s s' : VectorStore} {e d : VectorEntry} {es : List VectorEntry} {a b doc id path : String}

/-! ### Histories -/

/-- What changed a store. -/
inductive Event where
  | added (e : VectorEntry)
  | dropped (doc : String)

/-- When an id came, and the document it was last added with. -/
structure Stay where
  since : ℕ
  document : Option String

/-- The stay of an id after a history, the latest event of which comes first. -/
def stay? (id : String) : List Event → Option Stay
  | [] => none
  | .added e :: past =>
    if e.id = id then some ⟨((stay? id past).map (·.since)).getD past.length, e.document⟩ else stay? id past
  | .dropped doc :: past => (stay? id past).filter fun stay => stay.document != some doc

variable {past : List Event} {stay : Stay}

/-- Both ids are there, and `a` has been for longer. -/
def Elder (past : List Event) (a b : String) : Prop :=
  ∃ s t, stay? a past = some s ∧ stay? b past = some t ∧ s.since < t.since

theorem since_lt_length (h : stay? id past = some stay) : stay.since < past.length := by
  induction past generalizing stay with
  | nil => cases h
  | cons event past ih =>
      cases event with
      | added e =>
          rw [stay?] at h
          split at h
          next =>
            cases h
            cases hbefore : stay? id past with
            | none => exact Nat.lt_succ_self _
            | some before =>
                have hlt := ih hbefore
                exact Nat.lt_succ_of_lt hlt
          next => exact Nat.lt_succ_of_lt (ih h)
      | dropped doc => exact Nat.lt_succ_of_lt (ih (Option.filter_eq_some_iff.mp h).1)

/-- An id that is added again has been there since before. -/
theorem stay?_added (h : stay? id past = some stay) (e : VectorEntry) :
    ∃ document, stay? id (.added e :: past) = some ⟨stay.since, document⟩ := by
  rw [stay?]
  split
  next => exact ⟨e.document, by rw [h]; rfl⟩
  next => exact ⟨stay.document, h⟩

theorem Elder.ne (h : Elder past a b) : a ≠ b := by
  rintro rfl
  obtain ⟨s, t, hs, ht, hlt⟩ := h
  cases hs.symm.trans ht
  exact Nat.lt_irrefl _ hlt

theorem Elder.added (h : Elder past a b) (e : VectorEntry) : Elder (.added e :: past) a b := by
  obtain ⟨s, t, hs, ht, hlt⟩ := h
  obtain ⟨_, hs⟩ := stay?_added hs e
  obtain ⟨_, ht⟩ := stay?_added ht e
  exact ⟨_, _, hs, ht, hlt⟩

/-- An id that was not there comes after all others. -/
theorem elder_new (ha : stay? a past = some stay) (hnew : stay? e.id past = none) :
    Elder (.added e :: past) a e.id := by
  have hlt := since_lt_length ha
  obtain ⟨_, ha⟩ := stay?_added ha e
  refine ⟨_, ⟨past.length, e.document⟩, ha, ?_, hlt⟩
  rw [stay?, if_pos rfl, hnew]
  rfl

/-! ### What a history leaves -/

/-- The entries are those whose ids stay, in the order they came. -/
structure Kept (s : VectorStore) (past : List Event) : Prop where
  stays : ∀ e ∈ s.entries, ∃ stay, stay? e.id past = some stay ∧ stay.document = e.document
  present : ∀ id stay, stay? id past = some stay → id ∈ s.entries.map (·.id)
  ordered : (s.entries.map (·.id)).Pairwise (Elder past)
  fits : ∀ e ∈ s.entries, e.embedding.length = s.dimension

theorem ids_putEntry (e : VectorEntry) (es : List VectorEntry) : (putEntry e es).map (·.id) =
    if e.id ∈ es.map (·.id) then es.map (·.id) else es.map (·.id) ++ [e.id] := by
  induction es with
  | nil => rfl
  | cons d es ih =>
      rw [putEntry]
      split
      next heq => simp [heq]
      next hne =>
        have hother : e.id ≠ d.id := fun h => hne h.symm
        rw [List.map_cons, ih]
        by_cases hin : e.id ∈ es.map (·.id)
        · have hin' : e.id ∈ (d :: es).map (·.id) := List.mem_cons_of_mem _ hin
          rw [if_pos hin, if_pos hin', List.map_cons]
        · have hout : e.id ∉ (d :: es).map (·.id) := List.not_mem_cons_of_ne_of_not_mem hother hin
          rw [if_neg hin, if_neg hout, List.map_cons, List.cons_append]

/-- An entry gives its place to a new one of its id. -/
theorem mem_putEntry_of_nodup (hnd : (es.map (·.id)).Nodup) (h : d ∈ putEntry e es) :
    d = e ∨ d ∈ es ∧ d.id ≠ e.id := by
  induction es with
  | nil => exact .inl (List.mem_singleton.mp h)
  | cons c es ih =>
      obtain ⟨hc, hnd⟩ := List.nodup_cons.mp hnd
      rw [putEntry] at h
      split at h
      next heq =>
        refine (List.mem_cons.mp h).imp_right fun h => ⟨List.mem_cons_of_mem _ h, ?_⟩
        exact heq ▸ ne_of_mem_of_not_mem (List.mem_map_of_mem h) hc
      next hne =>
        rcases List.mem_cons.mp h with rfl | h
        · exact .inr ⟨List.mem_cons_self, hne⟩
        · exact (ih hnd h).imp_right fun h => ⟨List.mem_cons_of_mem _ h.1, h.2⟩

theorem dimension_add {ids : List String} (h : s.add es = .ok (s', ids)) : s'.dimension = s.dimension := by
  unfold add at h
  split at h
  next => cases h
  next =>
    cases h
    rfl

namespace Kept

theorem empty (dimension : ℕ) : Kept ⟨dimension, []⟩ [] :=
  ⟨by simp, fun _ _ h => (by cases h), .nil, by simp⟩

theorem nodup (h : Kept s past) : (s.entries.map (·.id)).Nodup := h.ordered.imp Elder.ne

theorem put (h : Kept s past) (he : e.embedding.length = s.dimension) :
    Kept { s with entries := putEntry e s.entries } (.added e :: past) := by
  refine ⟨fun d hd => ?_, fun id stay hstay => ?_, ?_, fun d hd => ?_⟩
  · rcases mem_putEntry_of_nodup h.nodup hd with rfl | ⟨hd, hne⟩
    · exact ⟨_, by rw [stay?, if_pos rfl], rfl⟩
    · rw [stay?, if_neg hne.symm]
      exact h.stays d hd
  · rw [VectorMap.mem_ids_putEntry]
    rw [stay?] at hstay
    split at hstay
    next hid => exact .inl hid.symm
    next => exact .inr (h.present id stay hstay)
  · have hbefore := h.ordered.imp fun hab => hab.added e
    rw [ids_putEntry]
    split
    next => exact hbefore
    next hnew =>
      have hnone : stay? e.id past = none := by
        by_contra hstays
        obtain ⟨stay, hstay⟩ := Option.ne_none_iff_exists'.mp hstays
        exact hnew (h.present _ _ hstay)
      refine List.pairwise_append.mpr ⟨hbefore, List.pairwise_singleton _ _, ?_⟩
      rintro a ha b hb
      obtain rfl := List.mem_singleton.mp hb
      obtain ⟨d, hd, rfl⟩ := List.mem_map.mp ha
      obtain ⟨stay, hstay, _⟩ := h.stays d hd
      exact elder_new hstay hnone
  · rcases VectorMap.mem_putEntry hd with rfl | hd
    · exact he
    · exact h.fits d hd

theorem putAll (h : Kept s past) (hes : ∀ e ∈ es, e.embedding.length = s.dimension) :
    Kept { s with entries := es.foldl (fun own e => putEntry e own) s.entries }
      (es.foldl (fun past e => .added e :: past) past) := by
  induction es generalizing s past with
  | nil => exact h
  | cons e es ih =>
      exact ih (h.put (hes e List.mem_cons_self)) fun d hd => hes d (List.mem_cons_of_mem _ hd)

/-- Entries of the right dimension are added one after another. -/
theorem add {ids : List String} (h : Kept s past) (hadd : s.add es = .ok (s', ids)) :
    Kept s' (es.foldl (fun past e => .added e :: past) past) := by
  unfold VectorStore.add at hadd
  split at hadd
  next => cases hadd
  next hnone =>
    cases hadd
    refine h.putAll fun e he => ?_
    simpa using List.find?_eq_none.mp (Option.map_eq_none_iff.mp hnone) e he

/-- The ids of a document leave, and the others keep their places. -/
theorem delete (h : Kept s past) (doc : String) : Kept (s.delete doc) (.dropped doc :: past) := by
  have hstays (e : VectorEntry) (he : e ∈ (s.delete doc).entries) : ∃ stay,
      stay? e.id past = some stay ∧ stay? e.id (.dropped doc :: past) = some stay ∧
        stay.document = e.document := by
    obtain ⟨he, hdoc⟩ := List.mem_filter.mp he
    obtain ⟨stay, hstay, hsame⟩ := h.stays e he
    exact ⟨stay, hstay, by rw [stay?, hstay, Option.filter_some, hsame, if_pos hdoc], hsame⟩
  refine ⟨fun e he => ?_, fun id stay hstay => ?_, ?_, fun e he => ?_⟩
  · obtain ⟨stay, _, hstay, hsame⟩ := hstays e he
    exact ⟨stay, hstay, hsame⟩
  · obtain ⟨hstay, hdoc⟩ := Option.filter_eq_some_iff.mp hstay
    obtain ⟨e, he, rfl⟩ := List.mem_map.mp (h.present id stay hstay)
    obtain ⟨stay', hstay', hsame⟩ := h.stays e he
    cases hstay.symm.trans hstay'
    exact List.mem_map_of_mem (List.mem_filter.mpr ⟨he, hsame ▸ hdoc⟩)
  · have hsub : ((s.delete doc).entries.map (·.id)).Sublist (s.entries.map (·.id)) :=
      List.Sublist.map _ List.filter_sublist
    refine (h.ordered.sublist hsub).imp_of_mem fun {a b} ha hb hab => ?_
    obtain ⟨d, hd, rfl⟩ := List.mem_map.mp ha
    obtain ⟨e, he, rfl⟩ := List.mem_map.mp hb
    obtain ⟨s, t, hs, ht, hlt⟩ := hab
    obtain ⟨stay, hstay, hstay', _⟩ := hstays d hd
    obtain ⟨stay₂, hstay₂, hstay₂', _⟩ := hstays e he
    cases hs.symm.trans hstay
    cases ht.symm.trans hstay₂
    exact ⟨_, _, hstay', hstay₂', hlt⟩
  · exact h.fits e (List.mem_filter.mp he).1

theorem load (h : Kept s past) (hread : Reread s s')
    (hfits : ∀ e ∈ s'.entries, e.embedding.length = s'.dimension) : Kept s' past := by
  have hids : s'.entries.map (·.id) = s.entries.map (·.id) := by
    simpa [label, Function.comp_def] using congrArg (List.map Prod.fst) hread.labels
  refine ⟨fun e' he' => ?_, hids ▸ h.present, hids ▸ h.ordered, hfits⟩
  have hlabel : label e' ∈ s.entries.map label := hread.labels ▸ List.mem_map_of_mem he'
  obtain ⟨e, he, heq⟩ := List.mem_map.mp hlabel
  obtain ⟨hid, hdocument⟩ := Prod.mk.inj heq
  rw [← hid, ← hdocument]
  exact h.stays e he

end Kept

/-! ### Runs -/

/-- What is done to a store. -/
inductive Operation where
  | add (entries : List VectorEntry)
  | delete (doc : String)
  | persist
  /-- Read back what was persisted at the given place in the sequence. -/
  | load (place : ℕ)

/-- A store with its history, and what was persisted, each text with the history of the store it tells of. -/
structure Session where
  store : VectorStore
  past : List Event := []
  saved : List (String × List Event) := []

namespace Session

/-- What is refused or cannot be read leaves everything as it is. -/
def step (x : Session) : Operation → Session
  | .add entries =>
    match x.store.add entries with
    | .ok (store, _) => { x with store, past := entries.foldl (fun past e => .added e :: past) x.past }
    | .error _ => x
  | .delete doc => { x with store := x.store.delete doc, past := .dropped doc :: x.past }
  | .persist => { x with saved := x.saved ++ [(x.store.toJson.compact, x.past)] }
  | .load place =>
    match x.saved[place]? with
    | none => x
    | some (text, past) =>
      match VectorStore.load fileName (.ok text) with
      | .ok store => { x with store, past }
      | .error _ => x

/-- Operations on an empty store. -/
def run (dimension : ℕ) (ops : List Operation) : Session := ops.foldl step { store := ⟨dimension, []⟩ }

/-- The store has its dimension and is what its history leaves, and so was every store that was persisted. -/
structure Sound (dimension : ℕ) (x : Session) : Prop where
  sized : x.store.dimension = dimension
  kept : Kept x.store x.past
  saved : ∀ text past, (text, past) ∈ x.saved →
    ∃ s : VectorStore, text = s.toJson.compact ∧ s.dimension = dimension ∧ Kept s past

theorem Sound.step {dimension : ℕ} {x : Session} (h : x.Sound dimension) (op : Operation) :
    (x.step op).Sound dimension := by
  cases op with
  | add entries =>
      rw [Session.step]
      split
      next hadd => exact ⟨dimension_add hadd ▸ h.sized, h.kept.add hadd, h.saved⟩
      next => exact h
  | delete doc => exact ⟨h.sized, h.kept.delete doc, h.saved⟩
  | persist =>
      refine ⟨h.sized, h.kept, fun text past hin => ?_⟩
      rcases List.mem_append.mp hin with hin | hin
      · exact h.saved text past hin
      · cases List.mem_singleton.mp hin
        exact ⟨x.store, rfl, h.sized, h.kept⟩
  | load place =>
      rw [Session.step]
      split
      next => exact h
      next text past hplace =>
        split
        next store hload =>
          obtain ⟨s, rfl, hdimension, hkept⟩ := h.saved text past (List.mem_of_getElem? hplace)
          obtain ⟨hread, hfits⟩ := reread_of_load hload
          exact ⟨hread.dimension.trans hdimension, hkept.load hread hfits, h.saved⟩
        next => exact h

theorem run_sound (dimension : ℕ) (ops : List Operation) : (run dimension ops).Sound dimension := by
  refine List.foldlRecOn ops step ⟨rfl, Kept.empty dimension, ?_⟩ fun x hx op _ => hx.step op
  simp

end Session

/-! ### Searches -/

/-- The entries that pass a filter. -/
def matching (s : VectorStore) (filter : Option MetadataFilter) : List VectorEntry :=
  s.entries.filter fun e => filter.all (·.accepts e.metadata)

/-- What a search may find of an entry. -/
def found (v : Embedding) (e : VectorEntry) : String × Float32 := (e.id, cosine v e.embedding)

theorem query_eq {v : Embedding} (hv : v.length = s.dimension) (most : ℕ) (filter : Option MetadataFilter) :
    s.query v most filter = .ok ((byScore ((s.matching filter).map (found v))).take most) := by
  rw [query, if_neg (not_not.mpr hv)]
  dsimp only
  rw [nearest_none, List.map_map]
  rfl

/-- `x` has the higher score, or an equal one and an id that has been there for longer. -/
structure Outranks (past : List Event) (x y : String × Float32) : Prop where
  score : y.2 ≤ x.2
  tie : x.2 ≤ y.2 → Elder past x.1 y.1

/-- The hits are the best of the entries, as many as are wanted, and come best first. -/
structure Ranks (past : List Event) (v : Embedding) (most : ℕ) (entries : List VectorEntry)
    (hits : List (String × Float32)) : Prop where
  length : hits.length = min most entries.length
  distinct : (hits.map (·.1)).Nodup
  found : ∀ x ∈ hits, ∃ e ∈ entries, x = found v e
  ordered : hits.Pairwise (Outranks past)
  best : ∀ e ∈ entries, e.id ∉ hits.map (·.1) → ∀ x ∈ hits, Outranks past x (VectorStore.found v e)

/-- The first of all entries in order. -/
theorem ranks_take {v : Embedding} {entries : List VectorEntry} {ranked : List (String × Float32)}
    (hnd : (entries.map (·.id)).Nodup) (hperm : ranked.Perm (entries.map (found v)))
    (hordered : ranked.Pairwise (Outranks past)) (most : ℕ) :
    Ranks past v most entries (ranked.take most) := by
  have hids : (ranked.map (·.1)).Perm (entries.map (·.id)) := by
    have hmap := hperm.map Prod.fst
    rwa [List.map_map] at hmap
  have hsplit := List.pairwise_append.mp ((List.take_append_drop most ranked).symm ▸ hordered)
  refine ⟨?_, ?_, fun x hx => ?_, hsplit.1, fun e he hout x hx => ?_⟩
  · rw [List.length_take, hperm.length_eq, List.length_map]
  · exact (hids.nodup_iff.mpr hnd).sublist ((List.take_sublist ..).map _)
  · obtain ⟨e, he, heq⟩ := List.mem_map.mp (hperm.mem_iff.mp (List.mem_of_mem_take hx))
    exact ⟨e, he, heq.symm⟩
  · have hin : found v e ∈ ranked.take most ++ ranked.drop most := by
      rw [List.take_append_drop]
      exact hperm.mem_iff.mpr (List.mem_map_of_mem he)
    have hnot : found v e ∉ ranked.take most := fun h => hout (List.mem_map_of_mem (f := (·.1)) h)
    exact hsplit.2.2 x hx _ ((List.mem_append.mp hin).resolve_left hnot)

/-- The matching entries come in the order of the store. -/
theorem ids_matching_sublist (s : VectorStore) (filter : Option MetadataFilter) :
    ((s.matching filter).map (·.id)).Sublist (s.entries.map (·.id)) :=
  List.Sublist.map _ List.filter_sublist

namespace Kept

/-- Matching entries sorted by score are in order by score and then by age. -/
theorem outranks (h : Kept s past) {v : Embedding} {filter : Option MetadataFilter}
    (hnan : ∀ e ∈ s.matching filter, (cosine v e.embedding).isNaN = false) :
    (byScore ((s.matching filter).map (found v))).Pairwise (Outranks past) := by
  have hage : ((s.matching filter).map (found v)).Pairwise fun x y => Elder past x.1 y.1 :=
    List.pairwise_map.mpr (List.pairwise_map.mp (h.ordered.sublist (s.ids_matching_sublist filter)))
  refine (byScore_then (fun x hx => ?_) hage).imp fun hxy => ⟨hxy.1, hxy.2⟩
  obtain ⟨e, he, rfl⟩ := List.mem_map.mp hx
  exact hnan e he

theorem query (h : Kept s past) {v : Embedding} (most : ℕ) {filter : Option MetadataFilter}
    (hv : v.length = s.dimension) (hnan : ∀ e ∈ s.matching filter, (cosine v e.embedding).isNaN = false) :
    ∃ hits, s.query v most filter = .ok hits ∧ Ranks past v most (s.matching filter) hits := by
  have hnd := h.nodup.sublist (s.ids_matching_sublist filter)
  exact ⟨_, query_eq hv most filter, ranks_take hnd (byScore_perm _) (h.outranks hnan) most⟩

end Kept

/-- A store after any run, from which what was refused is left out and in which what was persisted was read back
at will. Its ids are distinct and its vectors have the dimension it was made for. A search along a vector of this
dimension, by which every matching entry has a score, finds as many matching entries as are wanted; they come in
descending order of their scores, and entries of equal scores in the order in which their ids came to stay. No
entry that is left out precedes one that is found. -/
theorem searches_rank_by_score_then_age (dimension : ℕ) (ops : List Operation) :
    ((Session.run dimension ops).store.entries.map (·.id)).Nodup ∧
    (∀ e ∈ (Session.run dimension ops).store.entries, e.embedding.length = dimension) ∧
    ∀ v most filter, v.length = dimension →
      (∀ e ∈ (Session.run dimension ops).store.matching filter, (cosine v e.embedding).isNaN = false) →
      ∃ hits, (Session.run dimension ops).store.query v most filter = .ok hits ∧
        Ranks (Session.run dimension ops).past v most ((Session.run dimension ops).store.matching filter) hits := by
  obtain ⟨hdimension, hkept, _⟩ := Session.run_sound dimension ops
  refine ⟨hkept.nodup, fun e he => (hkept.fits e he).trans hdimension, fun v most filter hv hnan => ?_⟩
  exact hkept.query most (hv.trans hdimension.symm) hnan

def ofDocument (id doc : String) (embedding : Embedding) : VectorEntry := { id, embedding, document := some doc }

/-- An entry of two numbers is refused. The first two are read back, `a` leaves with its document, and then both
ids are added, of which `b` has been there for longer. -/
def comings : List Operation :=
  [.add [ofDocument "a" "A" [1], ofDocument "b" "B" [1]], .add [ofDocument "c" "C" [1, 1]], .persist,
    .delete "B", .load 0, .delete "A", .add [ofDocument "a" "A" [1], ofDocument "b" "B" [2]]]

/-- Both entries have the same score, and `b` alone is found. -/
theorem searches_rank_by_score_then_age_comings :
    (∀ e ∈ (Session.run 1 comings).store.matching none, (cosine [1] e.embedding).isNaN = false) ∧
      ((Session.run 1 comings).store.matching none).map (found [1]) = [("b", 1), ("a", 1)] ∧
      (Session.run 1 comings).store.query [1] 1 none = .ok [("b", 1)] ∧
      Ranks (Session.run 1 comings).past [1] 1 ((Session.run 1 comings).store.matching none) [("b", 1)] := by
  have hstore : (Session.run 1 comings).store = ⟨1, [ofDocument "b" "B" [2], ofDocument "a" "A" [1]]⟩ := by
    decide +kernel
  have hscored : ((Session.run 1 comings).store.matching none).map (found [1]) = [("b", 1), ("a", 1)] := by
    rw [hstore]
    decide +kernel
  have hnan : ∀ e ∈ (Session.run 1 comings).store.matching none, (cosine [1] e.embedding).isNaN = false := by
    rw [hstore]
    decide +kernel
  have hlength : ([1] : Embedding).length = (Session.run 1 comings).store.dimension := by rw [hstore]; rfl
  have hsorted : byScore [("b", (1 : Float32)), ("a", 1)] = [("b", 1), ("a", 1)] :=
    byScore_eq_self (by simp; decide)
  have hfound : (Session.run 1 comings).store.query [1] 1 none = .ok [("b", 1)] := by
    rw [query_eq hlength, hscored, hsorted]
    rfl
  obtain ⟨hits, hquery, hranks⟩ := (searches_rank_by_score_then_age 1 comings).2.2 [1] 1 none rfl hnan
  cases hquery.symm.trans hfound
  exact ⟨hnan, hscored, hfound, hranks⟩

end CorpusIndex.VectorStore
