import CorpusIndex.NodeStore
import CorpusIndex.Proofs.Except
import CorpusIndex.Proofs.SortedMap

/-!
# Looking at stores of nodes

Every operation of a store is described by what it does to lookups. `Keyed` says that a node is stored
under its own id, which the operations keep and the deletion of a document relies on.
-/
namespace CorpusIndex.NodeStore

/-- Every node is stored under its own id. -/
def Keyed (s : NodeStore) : Prop := ∀ id n, s.nodes.get? id = some n → n.id = id

variable {s t : NodeStore} {id doc : String} {n m : Node} {ids : List String} {batch : List Node}

theorem node_eq_ok : s.node id = .ok n ↔ s.nodes.get? id = some n := by
  unfold node
  cases s.nodes.get? id <;> simp

theorem resolve_eq_ok : s.resolve id = .ok n ↔ s.nodes.get? id = some n := by
  unfold resolve
  cases s.nodes.get? id <;> simp

theorem contains_iff : s.contains id = true ↔ ∃ n, s.nodes.get? id = some n := SortedMap.contains_iff

/-! ### Ids of a document -/

/-- Among ids that all resolve, those of a document's nodes. -/
theorem mem_ownedIds (doc : String) {ns : List (String × Node)}
    (h : ids.mapM (fun id => do return (id, ← s.resolve id)) = .ok ns) :
    (∀ id ∈ ids, ∃ n, s.nodes.get? id = some n) ∧
      ∀ id, id ∈ (ns.filter (fun n => n.2.document == some doc)).map (·.1) ↔
        id ∈ ids ∧ ∃ n, s.nodes.get? id = some n ∧ n.document = some doc := by
  induction ids generalizing ns with
  | nil =>
      cases pure_eq_ok.mp h
      simp
  | cons i ids ih =>
      rw [List.mapM_cons, bind_eq_ok] at h
      obtain ⟨x, hx, h⟩ := h
      obtain ⟨xs, hxs, h⟩ := bind_eq_ok.mp h
      obtain ⟨m, hm, hx⟩ := bind_eq_ok.mp hx
      cases pure_eq_ok.mp hx
      cases pure_eq_ok.mp h
      rw [resolve_eq_ok] at hm
      obtain ⟨hall, hmem⟩ := ih hxs
      refine ⟨fun j hj => ?_, fun j => ?_⟩
      · rcases List.mem_cons.mp hj with rfl | hj
        · exact ⟨m, hm⟩
        · exact hall j hj
      · have hi : (∃ n, s.nodes.get? i = some n ∧ n.document = some doc) ↔ m.document = some doc := by
          simp [hm]
        by_cases hdoc : m.document = some doc
        · rw [List.filter_cons_of_pos (by simpa using hdoc), List.map_cons, List.mem_cons, hmem,
            List.mem_cons]
          refine ⟨?_, fun ⟨hj, hn⟩ => hj.imp_right fun hj => ⟨hj, hn⟩⟩
          rintro (rfl | ⟨hj, hn⟩)
          · exact ⟨.inl rfl, hi.mpr hdoc⟩
          · exact ⟨.inr hj, hn⟩
        · rw [List.filter_cons_of_neg (by simpa using hdoc), hmem, List.mem_cons]
          refine and_congr_left fun hn => (or_iff_right ?_).symm
          rintro rfl
          exact hdoc (hi.mp hn)

theorem resolvePairs_of_stored (ids : List String) (h : ∀ id ∈ ids, ∃ n, s.nodes.get? id = some n) :
    ∃ ns, ids.mapM (fun id => do return (id, ← s.resolve id)) = .ok ns := by
  refine ⟨_, mapM_eq_ok (g := fun id => (id, (s.nodes.get? id).getD default)) fun id hid => ?_⟩
  obtain ⟨n, hn⟩ := h id hid
  rw [resolve_eq_ok.mpr hn, hn]
  rfl

theorem mem_ofDocument : n ∈ s.ofDocument doc ↔
    (∃ id, s.nodes.get? id = some n) ∧ n.document = some doc := by
  rw [ofDocument, List.mem_filter, beq_iff_eq]
  exact and_congr_left fun _ => SortedMap.mem_values

/-- A deletion leaves exactly the nodes of other documents. -/
theorem deleteDocument_eq_ok (k : s.Keyed) (h : s.deleteDocument doc = .ok (t, ids)) :
    ∀ id n, t.nodes.get? id = some n ↔ s.nodes.get? id = some n ∧ n.document ≠ some doc := by
  simp only [deleteDocument] at h
  split at h
  · cases h
  · cases h
    intro id n
    rw [SortedMap.get?_foldl_erase, List.mem_map, and_comm]
    refine and_congr_right fun hn => not_congr ⟨?_, fun hdoc => ?_⟩
    · rintro ⟨m, hm, rfl⟩
      obtain ⟨⟨i, hi⟩, hdoc⟩ := mem_ofDocument.mp hm
      cases k i m hi
      cases hi.symm.trans hn
      exact hdoc
    · exact ⟨n, mem_ofDocument.mpr ⟨⟨id, hn⟩, hdoc⟩, k id n hn⟩

theorem deleteDocument_of_mem (hn : s.nodes.get? id = some n) (hdoc : n.document = some doc) :
    ∃ t ids, s.deleteDocument doc = .ok (t, ids) := by
  simp only [deleteDocument]
  split
  next hnil =>
    have hm : n ∈ s.ofDocument doc := mem_ofDocument.mpr ⟨⟨id, hn⟩, hdoc⟩
    simp only [List.isEmpty_iff, List.map_eq_nil_iff] at hnil
    simp [hnil] at hm
  next => exact ⟨_, _, rfl⟩

/-! ### Entering and leaving -/

theorem erase_eq_ok (h : s.erase id = .ok (t, n)) : t = ⟨s.nodes.erase id⟩ := by
  obtain ⟨m, _, h⟩ := bind_eq_ok.mp h
  cases pure_eq_ok.mp h
  rfl

theorem refusal?_eq_none {replace : Bool} {seen : List String} :
    s.refusal? replace seen batch = none ↔ (batch.map (·.id)).Nodup ∧
      ∀ n ∈ batch, n.id ∉ seen ∧ (replace = false → s.contains n.id = false) := by
  induction batch generalizing seen with
  | nil => simp [refusal?]
  | cons m batch ih =>
      unfold refusal?
      by_cases hseen : m.id ∈ seen
      · simp [hseen]
      · by_cases hstored : replace = false ∧ s.contains m.id = true
        · simp [hseen, hstored]
        · have hnew : replace = false → s.contains m.id = false := by
            intro hr
            cases hc : s.contains m.id with
            | true => exact (hstored ⟨hr, hc⟩).elim
            | false => rfl
          have hgo : (!replace && s.contains m.id) = false := by
            cases replace <;> simp_all
          simp only [List.contains_eq_mem, hseen, decide_false, Bool.false_eq_true, if_false, hgo, ih,
            List.map_cons, List.nodup_cons, List.mem_map, List.mem_cons, not_or, forall_eq_or_imp]
          constructor
          · rintro ⟨hnd, hall⟩
            refine ⟨⟨?_, hnd⟩, ⟨not_false, hnew⟩, fun x hx => ⟨(hall x hx).1.2, (hall x hx).2⟩⟩
            rintro ⟨x, hx, he⟩
            exact (hall x hx).1.1 he
          · rintro ⟨⟨hm, hnd⟩, -, hall⟩
            exact ⟨hnd, fun x hx => ⟨⟨fun he => hm ⟨x, hx, he⟩, (hall x hx).1⟩, (hall x hx).2⟩⟩

theorem nodes_foldl_put :
    (batch.foldl put s).nodes = batch.foldl (fun m n => m.insert n.id n) s.nodes := by
  induction batch generalizing s with
  | nil => rfl
  | cons n batch ih => exact ih

/-- Nodes put into a store one after another, each once. -/
theorem get?_foldl_put (hnd : (batch.map (·.id)).Nodup) : (batch.foldl put s).nodes.get? id = some n ↔
    (n ∈ batch ∧ n.id = id) ∨ (id ∉ batch.map (·.id) ∧ s.nodes.get? id = some n) := by
  rw [nodes_foldl_put, SortedMap.get?_foldl_insert Node.id (fun n => n) hnd]
  refine or_congr_left ⟨?_, fun ⟨hn, hid⟩ => ⟨n, hn, hid, rfl⟩⟩
  rintro ⟨m, hm, hid, rfl⟩
  exact ⟨hm, hid⟩

theorem contains_insert {i : String} {m : Node} :
    (⟨s.nodes.insert i m⟩ : NodeStore).contains id = true ↔ id = i ∨ s.contains id = true := by
  simp only [contains_iff, SortedMap.get?_insert_eq_some]
  constructor
  · rintro ⟨n, ⟨rfl, _⟩ | ⟨_, hn⟩⟩
    · exact .inl rfl
    · exact .inr ⟨n, hn⟩
  · intro hid
    by_cases hi : id = i
    · exact ⟨m, .inl ⟨hi, rfl⟩⟩
    · obtain ⟨n, hn⟩ := hid.resolve_left hi
      exact ⟨n, .inr ⟨hi, hn⟩⟩

theorem contains_foldl_put (hnd : (batch.map (·.id)).Nodup) :
    (batch.foldl put s).contains id = true ↔ id ∈ batch.map (·.id) ∨ s.contains id = true := by
  simp only [contains_iff, get?_foldl_put hnd]
  constructor
  · rintro ⟨n, ⟨hn, rfl⟩ | ⟨_, hn⟩⟩
    · exact .inl (List.mem_map_of_mem hn)
    · exact .inr ⟨n, hn⟩
  · intro hid
    by_cases hin : id ∈ batch.map (·.id)
    · obtain ⟨n, hn, rfl⟩ := List.mem_map.mp hin
      exact ⟨n, .inl ⟨hn, rfl⟩⟩
    · obtain ⟨n, hn⟩ := hid.resolve_left hin
      exact ⟨n, .inr ⟨hin, hn⟩⟩

theorem add_eq_ok {replace : Bool} (h : s.add batch replace = .ok t) :
    (batch.map (·.id)).Nodup ∧ (replace = false → ∀ n ∈ batch, s.contains n.id = false) ∧
      t = batch.foldl put s := by
  unfold add at h
  cases hr : s.refusal? replace [] batch with
  | some r => simp [hr] at h
  | none =>
      rw [hr] at h
      cases h
      obtain ⟨hnd, hall⟩ := refusal?_eq_none.mp hr
      exact ⟨hnd, fun hf n hn => (hall n hn).2 hf, rfl⟩

theorem add_of_fresh (hnd : (batch.map (·.id)).Nodup) (hnew : ∀ n ∈ batch, s.contains n.id = false) :
    s.add batch false = .ok (batch.foldl put s) := by
  unfold add
  rw [refusal?_eq_none.mpr ⟨hnd, fun n hn => ⟨List.not_mem_nil, fun _ => hnew n hn⟩⟩]

theorem refusal?_of_new {seen : List String} {r : Repeated} (hnew : ∀ n ∈ batch, s.contains n.id = false)
    (h : s.refusal? false seen batch = some r) : ∃ n ∈ batch, r = .nodeInBatch n.id := by
  induction batch generalizing seen with
  | nil => cases h
  | cons m batch ih =>
      unfold refusal? at h
      split at h
      next =>
        cases h
        exact ⟨m, List.mem_cons_self, rfl⟩
      next =>
        rw [hnew m List.mem_cons_self] at h
        obtain ⟨n, hn, hr⟩ := ih (fun n hn => hnew n (List.mem_cons_of_mem m hn)) h
        exact ⟨n, List.mem_cons_of_mem m hn, hr⟩

/-- New nodes are refused for the id of one of them, where two have the same. -/
theorem add_of_repeated (hrep : ¬ (batch.map (·.id)).Nodup) (hnew : ∀ n ∈ batch, s.contains n.id = false) :
    ∃ n ∈ batch, s.add batch false = .error (.repeated (.nodeInBatch n.id)) := by
  cases hr : s.refusal? false [] batch with
  | none => exact absurd (refusal?_eq_none.mp hr).1 hrep
  | some r =>
      obtain ⟨n, hn, rfl⟩ := refusal?_of_new hnew hr
      exact ⟨n, hn, by rw [add, hr]⟩

/-! ### Nodes under their own ids -/

theorem keyed_empty : ({} : NodeStore).Keyed := by simp [Keyed]

theorem Keyed.put (k : s.Keyed) : (s.put n).Keyed := by
  intro id m hm
  rcases SortedMap.get?_insert_eq_some.mp hm with ⟨rfl, rfl⟩ | ⟨_, hm⟩
  · rfl
  · exact k id m hm

theorem Keyed.foldl_put (k : s.Keyed) : (batch.foldl NodeStore.put s).Keyed := by
  induction batch generalizing s with
  | nil => exact k
  | cons m batch ih => exact ih k.put

/-- A store with no other nodes than `s` has each under its id. -/
theorem Keyed.of_subset (k : s.Keyed)
    (h : ∀ id n, t.nodes.get? id = some n → s.nodes.get? id = some n) : t.Keyed :=
  fun id n hn => k id n (h id n hn)

theorem Keyed.update {f : Node → Node} (k : s.Keyed) (hf : ∀ n, (f n).id = n.id)
    (h : s.update id f = .ok t) : t.Keyed := by
  obtain ⟨n, hn, h⟩ := bind_eq_ok.mp h
  cases pure_eq_ok.mp h
  intro i m hm
  rcases SortedMap.get?_insert_eq_some.mp hm with ⟨rfl, rfl⟩ | ⟨_, hm⟩
  · rw [hf]
    exact k i n (node_eq_ok.mp hn)
  · exact k i m hm

/-- A store made by its operations from the empty one. -/
inductive Built : NodeStore → Prop
  | empty : Built {}
  | add {s t : NodeStore} {batch : List Node} {replace : Bool} :
      Built s → s.add batch replace = .ok t → Built t
  | setText {s t : NodeStore} {id text : String} : Built s → s.setText id text = .ok t → Built t
  | setEmbedding {s t : NodeStore} {id : String} {e : Embedding} :
      Built s → s.setEmbedding id e = .ok t → Built t
  | erase {s t : NodeStore} {id : String} {n : Node} : Built s → s.erase id = .ok (t, n) → Built t
  | deleteDocument {s t : NodeStore} {doc : String} {ids : List String} :
      Built s → s.deleteDocument doc = .ok (t, ids) → Built t

theorem Built.keyed (h : s.Built) : s.Keyed := by
  induction h with
  | empty => exact keyed_empty
  | add _ h k =>
      obtain ⟨_, _, rfl⟩ := add_eq_ok h
      exact k.foldl_put
  | @setText _ _ _ text _ h k => exact k.update (f := fun n => { n with text }) (fun _ => rfl) h
  | @setEmbedding _ _ _ e _ h k =>
      exact k.update (f := fun n => { n with embedding := some e }) (fun _ => rfl) h
  | erase _ h k =>
      cases erase_eq_ok h
      exact k.of_subset fun i m hm => (SortedMap.get?_erase_eq_some.mp hm).2
  | deleteDocument _ h k => exact k.of_subset fun i m hm => ((deleteDocument_eq_ok k h i m).mp hm).1

end CorpusIndex.NodeStore
