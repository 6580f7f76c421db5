import CorpusIndex.Index.VectorMap
import CorpusIndex.Proofs.Except
import CorpusIndex.Proofs.SortedMap

/-!
# Vector maps and their documents

Each operation of a vector map is described by the vector ids it maps and by those it lists for a
document. In a map made by these operations every listed id is mapped and listed for one document only.
-/
namespace CorpusIndex.VectorMap

/-- The vector id `v` is listed for the document. -/
def Lists (m : VectorMap) (doc v : String) : Prop := v ∈ m.documents.getD doc []

/-- Listed vector ids are mapped, and none is listed for two documents. -/
structure Filed (m : VectorMap) : Prop where
  mapped : ∀ doc v, m.Lists doc v → ∃ id, m.nodes.get? v = some id
  single : ∀ doc doc' v, m.Lists doc v → m.Lists doc' v → doc = doc'

variable {m m' : VectorMap} {n : Node} {vectorId : Option String} {id doc doc' v w old new : String}
  {vs : List String} {e : Embedding}

/-! ### What the operations do -/

theorem nodeOf_eq_ok : m.nodeOf v = .ok id ↔ m.nodes.get? v = some id := by
  unfold nodeOf
  cases m.nodes.get? v <;> simp

/-- Adding a node changes nothing if its vector id is mapped to it already. -/
theorem add_eq_ok (h : m.add n vectorId = .ok (m', v)) :
    v = vectorId.getD n.id ∧ m'.embeddings = m.embeddings ∧
      ((m.nodes.get? v = some n.id ∧ m' = m) ∨
        (m.nodes.get? v = none ∧ m'.nodes = m.nodes.insert v n.id ∧
          ∀ doc w, m'.Lists doc w ↔ m.Lists doc w ∨ (n.document = some doc ∧ w = v))) := by
  unfold add at h
  cases hv : m.nodes.get? (vectorId.getD n.id) with
  | some holder =>
      simp only [hv] at h
      split at h
      next hold =>
        cases h
        exact ⟨rfl, rfl, .inl ⟨by rw [hv, hold], rfl⟩⟩
      next => cases h
  | none =>
      simp only [hv, Except.ok.injEq, Prod.mk.injEq] at h
      obtain ⟨rfl, rfl⟩ := h
      refine ⟨rfl, rfl, .inr ⟨hv, rfl, fun doc w => ?_⟩⟩
      unfold Lists
      cases hdoc : n.document with
      | none => simp
      | some d =>
          simp only [SortedMap.update, SortedMap.getD_eq, Option.some.injEq]
          by_cases hd : doc = d
          · simp [hd]
          · rw [SortedMap.get?_insert_of_ne _ _ hd]
            simp [Ne.symm hd]

/-- A vector id is rebound to one that is not mapped yet. -/
theorem rebind_eq_ok (h : m.rebind old new = .ok m') : (old = new ∧ m' = m) ∨
    ∃ id, old ≠ new ∧ m.nodes.get? new = none ∧ m.nodes.get? old = some id ∧
      m'.nodes = (m.nodes.erase old).insert new id ∧
      ∀ doc w, m'.Lists doc w ↔ ∃ v, m.Lists doc v ∧ w = if v = old then new else v := by
  unfold rebind at h
  split at h
  next heq =>
    cases h
    exact .inl ⟨heq, rfl⟩
  next hne =>
    split at h
    next => cases h
    next => cases h
    next id hnew hold =>
      cases h
      refine .inr ⟨id, hne, hnew, hold, rfl, fun doc w => ?_⟩
      unfold Lists
      rw [SortedMap.getD_eq, SortedMap.getD_eq, SortedMap.get?_mapValues]
      cases m.documents.get? doc <;> simp [eq_comm]

/-- A document's vector ids leave the map, its listing and the embeddings. -/
theorem deleteDocument_eq_ok (h : m.deleteDocument doc = .ok (m', vs)) :
    (∀ v, v ∈ vs ↔ m.Lists doc v) ∧
      (∀ v id, m'.nodes.get? v = some id ↔ ¬ m.Lists doc v ∧ m.nodes.get? v = some id) ∧
      (∀ doc' v, m'.Lists doc' v ↔ doc' ≠ doc ∧ m.Lists doc' v) ∧
      m'.embeddings = m.embeddings.filter (fun e => !vs.contains e.1) := by
  unfold deleteDocument at h
  cases hdoc : m.documents.get? doc with
  | none => simp [hdoc] at h
  | some us =>
      simp only [hdoc, Except.ok.injEq, Prod.mk.injEq] at h
      obtain ⟨rfl, rfl⟩ := h
      have hlists (v : String) : v ∈ us ↔ m.Lists doc v := by
        simp [Lists, SortedMap.getD_eq, hdoc]
      refine ⟨hlists, fun v id => ?_, fun doc' v => ?_, rfl⟩
      · rw [SortedMap.get?_foldl_erase, hlists]
      · unfold Lists
        rw [SortedMap.getD_eq, SortedMap.getD_eq]
        by_cases hd : doc' = doc
        · simp [hd]
        · simp [SortedMap.get?_erase_of_ne _ hd, hd]

theorem deleteDocument_error {f : Failure} (h : m.deleteDocument doc = .error f) :
    f = .absent (.document doc (.vectors m.id)) ∧ ∀ v, ¬ m.Lists doc v := by
  unfold deleteDocument at h
  cases hdoc : m.documents.get? doc with
  | some us => simp [hdoc] at h
  | none =>
      simp only [hdoc, Except.error.injEq] at h
      exact ⟨h.symm, fun v => by simp [Lists, SortedMap.getD_eq, hdoc]⟩

theorem backend_add (h : m.add n vectorId = .ok (m', v)) : m'.backend = m.backend := by
  unfold add at h
  cases hv : m.nodes.get? (vectorId.getD n.id) with
  | some holder =>
      simp only [hv] at h
      split at h <;> cases h
      rfl
  | none =>
      simp only [hv] at h
      cases h
      rfl

theorem backend_deleteDocument (h : m.deleteDocument doc = .ok (m', vs)) : m'.backend = m.backend := by
  unfold deleteDocument at h
  split at h <;> cases h
  rfl

/-! ### Listed ids are mapped -/

namespace Filed

theorem empty (id : String) (summary : Option String) (backend : Backend) :
    ({ id, summary, backend } : VectorMap).Filed := by
  have hnone (doc v : String) : ¬ ({ id, summary, backend } : VectorMap).Lists doc v := by
    simp [Lists, SortedMap.getD_eq]
  exact ⟨fun doc v h => (hnone doc v h).elim, fun doc doc' v h => (hnone doc v h).elim⟩

theorem add (hm : m.Filed) (h : m.add n vectorId = .ok (m', v)) : m'.Filed := by
  obtain ⟨_, _, ⟨_, rfl⟩ | ⟨hv, hnodes, hlists⟩⟩ := add_eq_ok h
  · exact hm
  · have hnew (doc : String) : ¬ m.Lists doc v := by
      intro hl
      obtain ⟨id, hid⟩ := hm.mapped doc v hl
      cases hid.symm.trans hv
    refine ⟨fun doc w hw => ?_, fun doc doc' w hw hw' => ?_⟩
    · rw [hnodes]
      rcases (hlists doc w).mp hw with hw | ⟨_, rfl⟩
      · obtain ⟨id, hid⟩ := hm.mapped doc w hw
        refine ⟨id, SortedMap.get?_insert_eq_some.mpr (.inr ⟨?_, hid⟩)⟩
        rintro rfl
        exact hnew doc hw
      · exact ⟨n.id, SortedMap.get?_insert_self ..⟩
    · rcases (hlists doc w).mp hw with hw | ⟨hdoc, rfl⟩ <;>
        rcases (hlists doc' w).mp hw' with hw' | ⟨hdoc', hwv⟩
      · exact hm.single doc doc' w hw hw'
      · exact (hnew doc (hwv ▸ hw)).elim
      · exact (hnew doc' hw').elim
      · exact Option.some.inj (hdoc.symm.trans hdoc')

theorem embed (hm : m.Filed) : (m.embed v e).Filed := ⟨hm.mapped, hm.single⟩

theorem rebind (hm : m.Filed) (h : m.rebind old new = .ok m') : m'.Filed := by
  obtain ⟨_, rfl⟩ | ⟨id, hne, hnew, hold, hnodes, hlists⟩ := rebind_eq_ok h
  · exact hm
  · have hfree (doc : String) : ¬ m.Lists doc new := by
      intro hl
      obtain ⟨i, hi⟩ := hm.mapped doc new hl
      cases hi.symm.trans hnew
    -- only `old` is renamed, and nothing was called `new` before
    have hback {u u' : String} {doc doc' : String} (hu : m.Lists doc u) (hu' : m.Lists doc' u')
        (heq : (if u = old then new else u) = if u' = old then new else u') : u = u' := by
      split at heq <;> split at heq
      next h1 h2 => rw [h1, h2]
      next => exact (hfree doc' (heq ▸ hu')).elim
      next => exact (hfree doc (heq ▸ hu)).elim
      next => exact heq
    refine ⟨fun doc w hw => ?_, fun doc doc' w hw hw' => ?_⟩
    · obtain ⟨u, hu, rfl⟩ := (hlists doc w).mp hw
      rw [hnodes]
      split
      next => exact ⟨id, SortedMap.get?_insert_self ..⟩
      next hu' =>
        obtain ⟨i, hi⟩ := hm.mapped doc u hu
        refine ⟨i, SortedMap.get?_insert_eq_some.mpr (.inr ⟨?_, ?_⟩)⟩
        · rintro rfl
          exact hfree doc hu
        · exact SortedMap.get?_erase_eq_some.mpr ⟨hu', hi⟩
    · obtain ⟨u, hu, rfl⟩ := (hlists doc w).mp hw
      obtain ⟨u', hu', heq⟩ := (hlists doc' _).mp hw'
      cases hback hu hu' heq
      exact hm.single doc doc' u hu hu'

theorem deleteDocument (hm : m.Filed) (h : m.deleteDocument doc = .ok (m', vs)) : m'.Filed := by
  obtain ⟨_, hnodes, hlists, _⟩ := deleteDocument_eq_ok h
  refine ⟨fun d v hv => ?_, fun d d' v hv hv' => ?_⟩
  · obtain ⟨hd, hv⟩ := (hlists d v).mp hv
    obtain ⟨id, hid⟩ := hm.mapped d v hv
    exact ⟨id, (hnodes v id).mpr ⟨fun hl => hd (hm.single d doc v hv hl), hid⟩⟩
  · exact hm.single d d' v ((hlists d v).mp hv).2 ((hlists d' v).mp hv').2

/-- A map whose listed ids are mapped passes the check. -/
theorem validate (hm : m.Filed) : m.validate = .ok () := by
  rw [VectorMap.validate, forM_eq_ok_iff]
  rintro ⟨doc, vs⟩ hvs
  have hget : m.documents.get? doc = some vs := SortedMap.get?_eq_some_iff.mpr hvs
  have hall : vs.find? (fun v => !m.nodes.contains v) = none := by
    rw [List.find?_eq_none]
    intro v hv
    have hmapped : m.nodes.contains v = true :=
      SortedMap.contains_iff.mpr (hm.mapped doc v (by simpa [Lists, SortedMap.getD_eq, hget] using hv))
    simp [hmapped]
  simp only [hall]

end Filed

/-- A map made by its operations from an empty one. -/
inductive Built : VectorMap → Prop
  | empty (id : String) (summary : Option String) (backend : Backend) : Built { id, summary, backend }
  | add {m m' : VectorMap} {n : Node} {vectorId : Option String} {v : String} :
      Built m → m.add n vectorId = .ok (m', v) → Built m'
  | embed {m : VectorMap} (v : String) (e : Embedding) : Built m → Built (m.embed v e)
  | rebind {m m' : VectorMap} {old new : String} : Built m → m.rebind old new = .ok m' → Built m'
  | deleteDocument {m m' : VectorMap} {doc : String} {vs : List String} :
      Built m → m.deleteDocument doc = .ok (m', vs) → Built m'

theorem Built.filed (h : m.Built) : m.Filed := by
  induction h with
  | empty id summary backend => exact .empty id summary backend
  | add _ h hm => exact hm.add h
  | embed v e _ hm => exact hm.embed
  | rebind _ h hm => exact hm.rebind h
  | deleteDocument _ h hm => exact hm.deleteDocument h

end CorpusIndex.VectorMap
