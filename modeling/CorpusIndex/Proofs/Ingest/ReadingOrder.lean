import CorpusIndex.Proofs.Ingest.Chunks
import CorpusIndex.Proofs.NodeStore
import Mathlib.Data.List.Induction
import Mathlib.Data.List.Perm.Subperm

/-!
# Reading order

The chunks of a document are threaded: each links to the one before it and to the one after it. A store
finds its nodes by id and knows nothing of their order, so it walks the links. Where the nodes of a document
are threaded, the walk along next links gives them in order, and the steps back along previous links count
the nodes before.
-/
namespace CorpusIndex

/-- Nodes of different ids, each linked to its neighbours in the list. -/
structure Threaded (ns : List Node) : Prop where
  nodup : (ns.map (·.id)).Nodup
  next : ∀ before n after, ns = before ++ n :: after → n.next? = after.head?.map (·.id)
  previous : ∀ before n after, ns = before ++ n :: after → n.previous? = before.getLast?.map (·.id)

/-- The nodes before and after a node of a thread have other ids. -/
theorem Threaded.ne_of_mem {ns before after : List Node} {n m : Node} (t : Threaded ns)
    (hns : ns = before ++ n :: after) (hm : m ∈ before ++ after) : m.id ≠ n.id := by
  have hnd := hns ▸ t.nodup
  rw [List.map_append, List.map_cons, List.nodup_middle, ← List.map_append] at hnd
  intro heq
  exact (List.nodup_cons.mp hnd).1 (heq ▸ List.mem_map_of_mem hm)

namespace NodeStore

variable {s : NodeStore} {ns : List Node} {doc : String}

/-- The store holds exactly these nodes for the document. -/
def HoldsFor (s : NodeStore) (doc : String) (ns : List Node) : Prop := ∀ n, n ∈ s.ofDocument doc ↔ n ∈ ns

/-- The nodes of a document under their ids. -/
def members (s : NodeStore) (doc : String) : SortedMap String Node :=
  .ofList ((s.ofDocument doc).map fun n => (n.id, n))

/-- Nodes that stand under their own ids have different ids. -/
theorem nodup_values {m : SortedMap String Node} (h : ∀ id n, m.get? id = some n → n.id = id) :
    (m.values.map (·.id)).Nodup := by
  have hkeys : m.values.map (·.id) = m.keys := by
    rw [SortedMap.values, SortedMap.keys, List.map_map]
    exact List.map_congr_left fun e he => h e.1 e.2 (SortedMap.get?_eq_some_iff.mpr he)
  rw [hkeys]
  exact m.keys_nodup

theorem get?_members (k : s.Keyed) (h : s.HoldsFor doc ns) {id : String} {n : Node} :
    (s.members doc).get? id = some n ↔ n ∈ ns ∧ n.id = id := by
  have hkeys : (((s.ofDocument doc).map fun n => (n.id, n)).map (·.1)).Nodup := by
    rw [List.map_map]
    exact (nodup_values k).sublist (List.filter_sublist.map _)
  rw [members, SortedMap.get?_ofList hkeys, List.mem_map]
  constructor
  · rintro ⟨m, hm, heq⟩
    obtain ⟨rfl, rfl⟩ := Prod.mk.inj heq
    exact ⟨(h m).mp hm, rfl⟩
  · rintro ⟨hn, rfl⟩
    exact ⟨n, (h n).mpr hn, rfl⟩

theorem mem_members (k : s.Keyed) (h : s.HoldsFor doc ns) {n : Node} :
    n ∈ (s.members doc).values ↔ n ∈ ns := by
  rw [SortedMap.mem_values]
  constructor
  · rintro ⟨id, hn⟩
    exact ((get?_members k h).mp hn).1
  · exact fun hn => ⟨n.id, (get?_members k h).mpr ⟨hn, rfl⟩⟩

/-- As many keys as there are nodes. -/
theorem length_le_size {m : SortedMap String Node} (hnd : (ns.map (·.id)).Nodup)
    (h : ∀ n ∈ ns, m.get? n.id = some n) : ns.length ≤ m.size := by
  have hsub : ns.map (·.id) ⊆ m.keys := by
    intro id hid
    obtain ⟨n, hn, rfl⟩ := List.mem_map.mp hid
    exact SortedMap.mem_keys.mpr ⟨n, h n hn⟩
  have hle := (List.subperm_of_subset hnd hsub).length_le
  simpa [SortedMap.keys, SortedMap.size] using hle

theorem not_contains_add {seen : SortedSet String} {i j : String} (hne : i ≠ j)
    (h : seen.contains i = false) : (seen.add j).contains i = false := by
  rw [← Bool.not_eq_true, SortedSet.contains_iff_mem] at h ⊢
  rw [SortedSet.mem_add, not_or]
  exact ⟨hne, h⟩

/-! ### Along the links -/

/-- The walk along next links from a node of a thread gives what is left of the thread. -/
theorem chain_eq {m : SortedMap String Node} (t : Threaded ns)
    (hm : ∀ id n, m.get? id = some n ↔ n ∈ ns ∧ n.id = id) (before rest : List Node)
    (hns : ns = before ++ rest) (fuel : ℕ) (hfuel : rest.length < fuel) (placed : SortedSet String)
    (hplaced : ∀ n ∈ rest, placed.contains n.id = false) :
    chain m fuel placed rest.head? = rest := by
  induction rest generalizing before fuel placed with
  | nil => cases fuel <;> rfl
  | cons n rest ih =>
      obtain ⟨fuel, rfl⟩ := Nat.exists_eq_add_one_of_ne_zero (Nat.ne_zero_of_lt hfuel)
      have hnext : n.next?.bind m.get? = rest.head? := by
        rw [t.next before n rest hns]
        cases rest with
        | nil => rfl
        | cons n' rest => exact (hm n'.id n').mpr ⟨by simp [hns], rfl⟩
      rw [List.head?_cons, chain, hplaced n List.mem_cons_self, hnext]
      refine congrArg (n :: ·) (ih (before ++ [n]) (by simp [hns]) fuel (by simpa using hfuel) _ ?_)
      intro n' hn'
      have hne : n'.id ≠ n.id := t.ne_of_mem hns (List.mem_append_right before hn')
      exact not_contains_add hne (hplaced n' (List.mem_cons_of_mem n hn'))

/-- The steps back from a node of a thread lead through all nodes before it. -/
theorem stepsBack_eq (t : Threaded ns) (hs : ∀ n ∈ ns, s.nodes.get? n.id = some n) (start : String)
    (before : List Node) (n : Node) (after : List Node) (hns : ns = before ++ n :: after) (fuel : ℕ)
    (hfuel : before.length < fuel) (visited : SortedSet String)
    (hvisited : ∀ m ∈ before ++ [n], visited.contains m.id = false) :
    s.stepsBack start fuel visited n = .ok before.length := by
  induction before using List.reverseRecOn generalizing n after fuel visited with
  | nil =>
      obtain ⟨fuel, rfl⟩ := Nat.exists_eq_add_one_of_ne_zero (Nat.ne_zero_of_lt hfuel)
      have hprevious : n.previous? = none := t.previous [] n after hns
      simp only [stepsBack, hprevious]
      rfl
  | append_singleton before p ih =>
      obtain ⟨fuel, rfl⟩ := Nat.exists_eq_add_one_of_ne_zero (Nat.ne_zero_of_lt hfuel)
      have hprevious : n.previous? = some p.id := by
        rw [t.previous (before ++ [p]) n after hns, List.getLast?_concat]
        rfl
      have hp : s.nodes.get? p.id = some p := hs p (by simp [hns])
      have hn : visited.contains n.id = false := hvisited n (by simp)
      have hback : s.stepsBack start fuel (visited.add n.id) p = .ok before.length := by
        refine ih p (n :: after) (by simp [hns]) fuel (by simpa using hfuel) _ fun m hm => ?_
        have hne : m.id ≠ n.id := t.ne_of_mem hns (List.mem_append_left after hm)
        exact not_contains_add hne (hvisited m (List.mem_append_left _ hm))
      simp only [stepsBack, hprevious, hn, hp, hback, List.length_append]
      rfl

/-! ### The nodes of a document -/

/-- The only node of a thread that links to none of its nodes as the one before is the first. -/
theorem heads_eq (k : s.Keyed) (t : Threaded ns) (h : s.HoldsFor doc ns) :
    (s.members doc).values.filter (fun n => n.previous?.all fun p => !(s.members doc).contains p) =
      ns.head?.toList := by
  have hnodup : ((s.members doc).values.filter
      fun n => n.previous?.all fun p => !(s.members doc).contains p).Nodup :=
    (List.Nodup.of_map _ (nodup_values fun id n hn => ((get?_members k h).mp hn).2)).filter _
  have hmem (n : Node) : n ∈ (s.members doc).values.filter
      (fun n => n.previous?.all fun p => !(s.members doc).contains p) ↔ ns.head? = some n := by
    rw [List.mem_filter, mem_members k h]
    constructor
    · rintro ⟨hn, hhead⟩
      obtain ⟨before, after, rfl⟩ := List.append_of_mem hn
      rw [t.previous before n after rfl] at hhead
      cases hlast : before.getLast? with
      | none =>
          rw [List.getLast?_eq_none_iff.mp hlast]
          rfl
      | some p =>
          -- the node before is stored, so this one is no head
          have hp : (s.members doc).contains p.id = true :=
            SortedMap.contains_iff.mpr ⟨p, (get?_members k h).mpr
              ⟨List.mem_append_left _ (List.mem_of_getLast? hlast), rfl⟩⟩
          simp [hlast, hp] at hhead
    · intro hhead
      obtain ⟨rest, rfl⟩ := List.head?_eq_some_iff.mp hhead
      refine ⟨List.mem_cons_self, ?_⟩
      rw [t.previous [] n rest rfl]
      rfl
  cases hns : ns.head? with
  | none =>
      refine List.eq_nil_iff_forall_not_mem.mpr fun n hn => ?_
      cases hns.symm.trans ((hmem n).mp hn)
  | some n =>
      refine List.perm_singleton.mp ((List.perm_ext_iff_of_nodup hnodup (List.nodup_singleton n)).mpr ?_)
      intro x
      rw [hmem, hns, List.mem_singleton, Option.some.injEq, eq_comm]

/-- The chains of a document's nodes, and after them the nodes they do not reach. -/
theorem chunksOf_of_chained (s : NodeStore) (doc : String) (chained : List Node)
    (h : ((s.members doc).values.filter
        fun n => n.previous?.all fun p => !(s.members doc).contains p).foldl
      (fun (out : List Node) head => out ++ chain (s.members doc) ((s.members doc).size + 1)
        (.ofElems (out.map (·.id))) (some head)) [] = chained) :
    s.chunksOf doc = chained ++ (s.members doc).values.filter
      fun n => !(SortedSet.ofElems (chained.map (·.id))).contains n.id := by
  subst h
  rfl

theorem chunksOf_eq (k : s.Keyed) (t : Threaded ns) (h : s.HoldsFor doc ns) : s.chunksOf doc = ns := by
  have hsize : ns.length ≤ (s.members doc).size :=
    length_le_size t.nodup fun n hn => (get?_members k h).mpr ⟨hn, rfl⟩
  have hchain : chain (s.members doc) ((s.members doc).size + 1) (.ofElems []) ns.head? = ns :=
    chain_eq t (fun id n => get?_members k h) [] ns rfl _ (by omega) _ fun n _ => rfl
  have hrest : (s.members doc).values.filter
      (fun n => !(SortedSet.ofElems (ns.map (·.id))).contains n.id) = [] := by
    rw [List.filter_eq_nil_iff]
    intro n hn
    have hin : n.id ∈ SortedSet.ofElems (ns.map (·.id)) :=
      SortedSet.mem_ofElems.mpr (List.mem_map_of_mem ((mem_members k h).mp hn))
    rw [SortedSet.contains_iff_mem.mpr hin]
    exact Bool.false_ne_true
  have hchained := chunksOf_of_chained s doc ns (by
    rw [heads_eq k t h]
    cases ns with
    | nil => rfl
    | cons n rest => exact hchain)
  rw [hchained, hrest, List.append_nil]

/-- The place of a node in the thread of its document. -/
theorem chainPosition_eq (t : Threaded ns) (hs : ∀ n ∈ ns, s.nodes.get? n.id = some n) {i : ℕ}
    {n : Node} (hn : ns[i]? = some n) : s.chainPosition n.id = .ok i := by
  obtain ⟨hi, hget⟩ := List.getElem?_eq_some_iff.mp hn
  have hns : ns = ns.take i ++ n :: ns.drop (i + 1) := by
    rw [← hget, List.getElem_cons_drop, List.take_append_drop]
  have hlength : (ns.take i).length = i := by
    rw [List.length_take]
    omega
  have hsize : ns.length ≤ s.size := length_le_size t.nodup hs
  have hsteps := stepsBack_eq t hs n.id (ns.take i) n (ns.drop (i + 1)) hns (s.size + 2) (by omega) ∅
    fun m _ => rfl
  have hnode : s.node n.id = .ok n := node_eq_ok.mpr (hs n (List.mem_of_getElem? hn))
  rw [chainPosition, hnode, ok_bind, hsteps, hlength]

end NodeStore

/-! ### The chunks of documents -/

namespace Chunker

variable {c : Chunker} {docs : List Document} {d : Document} {n i : ℕ} {text : String}

theorem chunkNode_document : (chunkNode d n i text).document = some d.id := by
  unfold chunkNode Node.setLink
  split <;> split <;> rfl

theorem document_of_mem_nodesOf {m : Node} (h : m ∈ c.nodesOf d) : m.document = some d.id := by
  obtain ⟨t, _, rfl⟩ := List.mem_map.mp h
  exact chunkNode_document

theorem chunkNode_previous : (chunkNode d n i text).previous? =
    if i = 0 then none else some (chunkId d.id (i - 1)) := by
  unfold chunkNode Node.setLink
  split <;> split <;> rfl

theorem chunkNode_next : (chunkNode d n i text).next? =
    if i + 1 < n then some (chunkId d.id (i + 1)) else none := by
  unfold chunkNode Node.setLink
  split <;> split <;> rfl

theorem getElem?_nodesOf (c : Chunker) (d : Document) (i : ℕ) : (c.nodesOf d)[i]? =
    (c.chunkText d.text.toList)[i]?.map fun t =>
      chunkNode d (c.nodesOf d).length i (String.ofList t) := by
  simp [nodesOf, Function.comp_def]

/-- The chunk at a place is linked as a chunk with that number. -/
theorem links_getElem?_nodesOf {m : Node} (h : (c.nodesOf d)[i]? = some m) : m.id = chunkId d.id i ∧
    m.previous? = (if i = 0 then none else some (chunkId d.id (i - 1))) ∧
      m.next? = if i + 1 < (c.nodesOf d).length then some (chunkId d.id (i + 1)) else none := by
  rw [getElem?_nodesOf] at h
  obtain ⟨t, _, rfl⟩ := Option.map_eq_some_iff.mp h
  exact ⟨(chunkNode_id ..).1, chunkNode_previous, chunkNode_next⟩

theorem id_getElem?_nodesOf (c : Chunker) (d : Document) (i : ℕ) :
    (c.nodesOf d)[i]?.map (·.id) = if i < (c.nodesOf d).length then some (chunkId d.id i) else none := by
  split
  next hi =>
    rw [List.getElem?_eq_getElem hi, Option.map_some]
    exact congrArg some (links_getElem?_nodesOf (List.getElem?_eq_getElem hi)).1
  next hi =>
    rw [List.getElem?_eq_none (by omega)]
    rfl

/-- The chunks of a document follow each other. -/
theorem threaded_nodesOf (c : Chunker) (d : Document) : Threaded (c.nodesOf d) where
  nodup := by
    have hids : (c.chunkIds [d]).Nodup := nodup_chunkIds (List.nodup_singleton _)
    rw [← nodesOfAll_ids] at hids
    simpa [nodesOfAll] using hids
  next before n after hns := by
    have hn : (c.nodesOf d)[before.length]? = some n := by simp [hns]
    have hafter : after.head? = (c.nodesOf d)[before.length + 1]? := by
      rw [hns, List.getElem?_append_right (by omega), List.head?_eq_getElem?]
      simp
    rw [(links_getElem?_nodesOf hn).2.2, hafter, id_getElem?_nodesOf]
  previous before n after hns := by
    have hn : (c.nodesOf d)[before.length]? = some n := by simp [hns]
    rw [(links_getElem?_nodesOf hn).2.1]
    split
    next hzero =>
      rw [List.length_eq_zero_iff.mp hzero]
      rfl
    next hpos =>
      have hlast : before.getLast? = (c.nodesOf d)[before.length - 1]? := by
        rw [hns, List.getElem?_append_left (by omega), List.getLast?_eq_getElem?]
      have hlength : before.length - 1 < (c.nodesOf d).length := by
        rw [hns, List.length_append]
        omega
      rw [hlast, id_getElem?_nodesOf, if_pos hlength]

/-- The chunks of documents with different ids have different ids, a store takes them all, and it gives
back the chunks of each document in the order of its text, at the places they have there. -/
theorem stored_chunks_keep_reading_order (c : Chunker) (docs : List Document)
    (h : (docs.map (·.id)).Nodup) : ((c.nodesOfAll docs).map (·.id)).Nodup ∧
      ∃ s, ({} : NodeStore).add (c.nodesOfAll docs) false = .ok s ∧
        ∀ d ∈ docs, s.chunksOf d.id = c.nodesOf d ∧
          ∀ i n, (c.nodesOf d)[i]? = some n → s.chainPosition n.id = .ok i := by
  have hnodup : ((c.nodesOfAll docs).map (·.id)).Nodup := nodesOfAll_ids c docs ▸ nodup_chunkIds h
  have hget (id : String) (n : Node) :
      ((c.nodesOfAll docs).foldl NodeStore.put {}).nodes.get? id = some n ↔
        n ∈ c.nodesOfAll docs ∧ n.id = id := by
    rw [NodeStore.get?_foldl_put hnodup]
    simp
  refine ⟨hnodup, _, NodeStore.add_of_fresh hnodup fun _ _ => rfl, fun d hd => ?_⟩
  have hholds : ((c.nodesOfAll docs).foldl NodeStore.put {}).HoldsFor d.id (c.nodesOf d) := by
    intro n
    rw [NodeStore.mem_ofDocument]
    constructor
    · rintro ⟨⟨id, hn⟩, hdoc⟩
      obtain ⟨e, he, hin⟩ := List.mem_flatMap.mp ((hget id n).mp hn).1
      have hid : e.id = d.id := Option.some.inj ((document_of_mem_nodesOf hin).symm.trans hdoc)
      exact List.inj_on_of_nodup_map h he hd hid ▸ hin
    · intro hn
      exact ⟨⟨n.id, (hget n.id n).mpr ⟨List.mem_flatMap.mpr ⟨d, hd, hn⟩, rfl⟩⟩, document_of_mem_nodesOf hn⟩
  exact ⟨NodeStore.chunksOf_eq NodeStore.keyed_empty.foldl_put (threaded_nodesOf c d) hholds,
    fun i n hn => NodeStore.chainPosition_eq (threaded_nodesOf c d)
      (fun m hm => (hget m.id m).mpr ⟨List.mem_flatMap.mpr ⟨d, hd, hm⟩, rfl⟩) hn⟩

/-- A document of eleven paragraphs. -/
def eleven : Document :=
  { id := "d", text := "a\n\nb\n\nc\n\nd\n\ne\n\nf\n\ng\n\nh\n\ni\n\nj\n\nk", metadata := ∅ }

/-- A document named like the second chunk of the other. -/
def namesake : Document := { id := "d:1", text := "x\n\ny", metadata := ∅ }

theorem nodesOf_eleven (h : ofSettings {} = .ok c) : (c.nodesOf eleven).map (·.id) =
    ["d:0", "d:1", "d:2", "d:3", "d:4", "d:5", "d:6", "d:7", "d:8", "d:9", "d:10"] := by
  have hall : ((ofSettings {}).toOption.map fun c => (c.nodesOf eleven).map (·.id)) =
      some ["d:0", "d:1", "d:2", "d:3", "d:4", "d:5", "d:6", "d:7", "d:8", "d:9", "d:10"] := by
    decide +kernel
  rw [h] at hall
  exact Option.some.inj hall

/-- The last of the chunks has an id that stands before that of the third, and the chunk of one document
that has the name of the other is not taken for one of its chunks. -/
theorem stored_chunks_keep_reading_order_namesake : ([eleven, namesake].map (·.id)).Nodup ∧
    ∃ c s, ofSettings {} = .ok c ∧ ({} : NodeStore).add (c.nodesOfAll [eleven, namesake]) false = .ok s ∧
      (s.chunksOf "d").map (·.id) =
        ["d:0", "d:1", "d:2", "d:3", "d:4", "d:5", "d:6", "d:7", "d:8", "d:9", "d:10"] ∧
      s.chunksOf "d:1" = c.nodesOf namesake ∧
      s.chainPosition "d:10" = .ok 10 ∧ s.chainPosition "d:1" = .ok 1 := by
  have hdistinct : ([eleven, namesake].map (·.id)).Nodup := by decide
  obtain ⟨c, hc⟩ : ∃ c, ofSettings {} = .ok c := ⟨_, rfl⟩
  obtain ⟨_, s, hadd, hall⟩ := stored_chunks_keep_reading_order c [eleven, namesake] hdistinct
  obtain ⟨horder, hplaces⟩ := hall eleven (.head _)
  have hids := nodesOf_eleven hc
  have hplace {i : ℕ} {id : String} (hid : ((c.nodesOf eleven).map (·.id))[i]? = some id) :
      s.chainPosition id = .ok i := by
    rw [List.getElem?_map] at hid
    obtain ⟨n, hn, rfl⟩ := Option.map_eq_some_iff.mp hid
    exact hplaces i n hn
  refine ⟨hdistinct, c, s, hc, hadd, ?_, (hall namesake (.tail _ (.head _))).1, ?_, ?_⟩
  · exact (congrArg (·.map Node.id) horder).trans hids
  · exact hplace (by rw [hids]; rfl)
  · exact hplace (by rw [hids]; rfl)

end Chunker
end CorpusIndex
