import CorpusIndex.Postprocess
import CorpusIndex.Proofs.Embedding.Ranking
import CorpusIndex.Proofs.Ingest.ReadingOrder

/-!
# Chunks with their neighbours

The links of a chunk lead along the chunks of its document, so the walks from a hit give the chunks around it
up to the ends of the document. The windows of several hits overlap; each chunk is taken once, a hit before
a neighbour, and the sort by document and place puts them all in reading order.
-/
namespace CorpusIndex

/-- The mode takes the place `j` along with the place `i`. -/
def NeighbourMode.Reaches (mode : NeighbourMode) (count i j : Nat) : Prop :=
  mode.forward = true ∧ i ≤ j ∧ j ≤ i + count ∨ mode.backward = true ∧ j ≤ i ∧ i ≤ j + count

theorem NeighbourMode.reaches_self (mode : NeighbourMode) (count i : Nat) : mode.Reaches count i i := by
  cases mode with
  | next => exact .inl ⟨rfl, Nat.le_refl i, by omega⟩
  | previous => exact .inr ⟨rfl, Nat.le_refl i, by omega⟩
  | both => exact .inl ⟨rfl, Nat.le_refl i, by omega⟩

namespace Postprocessor

variable {store : NodeStore} {step : Node → Option String} {ns row nodes : List Node} {n x : Node}
  {seen : List String} {hits : List Hit} {id : String} {mode : NeighbourMode} {count i j : Nat}

/-! ### Walks -/

/-- A link leads from the node through the row and no further. -/
inductive Leads (step : Node → Option String) : Node → List Node → Prop
  | stop {n : Node} (none : step n = none) : Leads step n []
  | go {n m : Node} {row : List Node} (link : step n = some m.id) (on : Leads step m row) :
      Leads step n (m :: row)

/-- The walk gives the first nodes of the row that a link leads through. -/
theorem walk_eq (h : Leads step n row) (stored : ∀ m ∈ row, store.nodes.get? m.id = some m)
    (once : (row.map (·.id)).Nodup) (unseen : ∀ m ∈ row, m.id ∉ seen) (count : Nat) :
    walk store step count seen n = .ok (row.take count) := by
  induction h generalizing seen count with
  | stop none =>
      cases count with
      | zero => rfl
      | succ count => simp only [walk, none, List.take_nil]
  | @go n m row link on ih =>
      cases count with
      | zero => rfl
      | succ count =>
          obtain ⟨hnew, once⟩ := List.nodup_cons.mp once
          have hnode : store.node m.id = .ok m := NodeStore.node_eq_ok.mpr (stored m List.mem_cons_self)
          have hseen : seen.contains m.id = false := by
            simpa using unseen m List.mem_cons_self
          have hrest : walk store step count (m.id :: seen) m = .ok (row.take count) := by
            refine ih (fun y hy => stored y (List.mem_cons_of_mem m hy)) once (fun y hy hin => ?_) count
            rcases List.mem_cons.mp hin with heq | hin
            · exact hnew (List.mem_map.mpr ⟨y, hy, heq⟩)
            · exact unseen y (List.mem_cons_of_mem m hy) hin
          simp only [walk, link, hnode, ok_bind, hseen, hrest, Bool.false_eq_true, if_false]
          rfl

theorem leads_next (t : Threaded ns) (before : List Node) (n : Node) (after : List Node)
    (hns : ns = before ++ n :: after) : Leads Node.next? n after := by
  induction after generalizing before n with
  | nil => exact .stop (t.next before n [] hns)
  | cons m after ih =>
      refine .go (t.next before n (m :: after) hns) (ih (before ++ [n]) m ?_)
      simp [hns]

theorem leads_previous (t : Threaded ns) (before : List Node) (n : Node) (after : List Node)
    (hns : ns = before ++ n :: after) : Leads Node.previous? n before.reverse := by
  induction before using List.reverseRecOn generalizing n after with
  | nil => exact .stop (t.previous [] n after hns)
  | append_singleton before m ih =>
      rw [List.reverse_concat]
      refine .go ?_ (ih m (n :: after) (by simp [hns]))
      rw [t.previous (before ++ [m]) n after hns, List.getLast?_concat]
      rfl

/-! ### Windows -/

theorem mem_take_drop : x ∈ (ns.drop (i + 1)).take count ↔
    ∃ j, ns[j]? = some x ∧ i < j ∧ j ≤ i + count := by
  rw [List.mem_iff_getElem?]
  constructor
  · rintro ⟨k, hk⟩
    rw [List.getElem?_take, Option.ite_none_right_eq_some, List.getElem?_drop] at hk
    exact ⟨i + 1 + k, hk.2, by omega, by omega⟩
  · rintro ⟨j, hj, hlt, hle⟩
    refine ⟨j - (i + 1), ?_⟩
    rw [List.getElem?_take_of_lt (by omega), List.getElem?_drop, ← hj]
    congr 1
    omega

theorem mem_take_reverse (hi : i ≤ ns.length) : x ∈ (ns.take i).reverse.take count ↔
    ∃ j, ns[j]? = some x ∧ j < i ∧ i ≤ j + count := by
  have hlength : (ns.take i).length = i := List.length_take_of_le hi
  rw [List.take_reverse, List.mem_reverse, hlength, List.mem_iff_getElem?]
  constructor
  · rintro ⟨k, hk⟩
    rw [List.getElem?_drop, List.getElem?_take, Option.ite_none_right_eq_some] at hk
    exact ⟨i - count + k, hk.2, by omega, by omega⟩
  · rintro ⟨j, hj, hlt, hle⟩
    refine ⟨j - (i - count), ?_⟩
    rw [List.getElem?_drop, show i - count + (j - (i - count)) = j by omega,
      List.getElem?_take_of_lt hlt, hj]

/-- The neighbours of a node of a thread are those in its window. -/
theorem neighboursOf_threaded (t : Threaded ns) (stored : ∀ m ∈ ns, store.nodes.get? m.id = some m)
    (hn : ns[i]? = some n) (count : Nat) (mode : NeighbourMode) :
    ∃ l, neighboursOf store count mode n = .ok l ∧
      ∀ x, x ∈ l ↔ ∃ j, ns[j]? = some x ∧ j ≠ i ∧ mode.Reaches count i j := by
  obtain ⟨hi, hget⟩ := List.getElem?_eq_some_iff.mp hn
  have hns : ns = ns.take i ++ n :: ns.drop (i + 1) := by
    rw [← hget, List.getElem_cons_drop, List.take_append_drop]
  have hother {m : Node} (hm : m ∈ ns.take i ++ ns.drop (i + 1)) : m.id ∉ [n.id] := by
    simpa using t.ne_of_mem hns hm
  have hafter : walk store Node.next? count [n.id] n = .ok ((ns.drop (i + 1)).take count) := by
    refine walk_eq (leads_next t _ n _ hns) (fun m hm => stored m (List.mem_of_mem_drop hm)) ?_
      (fun m hm => hother (List.mem_append_right _ hm)) count
    exact t.nodup.sublist ((List.drop_sublist ..).map _)
  have hbefore : walk store Node.previous? count [n.id] n = .ok ((ns.take i).reverse.take count) := by
    refine walk_eq (leads_previous t _ n _ hns) (fun m hm => ?_) ?_ (fun m hm => ?_) count
    · exact stored m (List.mem_of_mem_take (List.mem_reverse.mp hm))
    · rw [List.map_reverse, List.nodup_reverse]
      exact t.nodup.sublist ((List.take_sublist ..).map _)
    · exact hother (List.mem_append_left _ (List.mem_reverse.mp hm))
  have hrun : neighboursOf store count mode n =
      .ok ((if mode.forward then (ns.drop (i + 1)).take count else []) ++
        if mode.backward then (ns.take i).reverse.take count else []) := by
    unfold neighboursOf
    rw [hafter, hbefore]
    cases mode <;> rfl
  refine ⟨_, hrun, fun x => ?_⟩
  rw [List.mem_append, List.mem_ite_nil_right, List.mem_ite_nil_right, mem_take_drop,
    mem_take_reverse (Nat.le_of_lt hi)]
  constructor
  · rintro (⟨hmode, j, hj, hlt, hle⟩ | ⟨hmode, j, hj, hlt, hle⟩)
    · exact ⟨j, hj, Nat.ne_of_gt hlt, .inl ⟨hmode, Nat.le_of_lt hlt, hle⟩⟩
    · exact ⟨j, hj, Nat.ne_of_lt hlt, .inr ⟨hmode, Nat.le_of_lt hlt, hle⟩⟩
  · rintro ⟨j, hj, hne, ⟨hmode, hle, hcount⟩ | ⟨hmode, hle, hcount⟩⟩
    · exact .inl ⟨hmode, j, hj, by omega, hcount⟩
    · exact .inr ⟨hmode, j, hj, by omega, hcount⟩

/-! ### Each node once -/

/-- What stands under an id is a hit with that id. -/
theorem of_get?_byId {h : Hit} (hget : (byId hits).get? id = some h) : h ∈ hits ∧ h.node.id = id := by
  obtain ⟨x, hx, heq⟩ := List.mem_map.mp (SortedMap.mem_of_get?_ofList hget)
  obtain ⟨rfl, rfl⟩ := Prod.mk.inj heq
  exact ⟨hx, rfl⟩

theorem contains_byId : (byId hits).contains id = true ↔ id ∈ hits.map (·.node.id) := by
  rw [byId, SortedMap.ofList, SortedMap.foldl_insert_contains, List.map_map]
  exact or_iff_left Bool.false_ne_true

theorem get?_byId (once : (hits.map (·.node.id)).Nodup) {h : Hit} :
    (byId hits).get? id = some h ↔ h ∈ hits ∧ h.node.id = id := by
  have hkeys : ((hits.map fun h => (h.node.id, h)).map (·.1)).Nodup := by rwa [List.map_map]
  rw [byId, SortedMap.get?_ofList hkeys, List.mem_map]
  constructor
  · rintro ⟨x, hx, heq⟩
    obtain ⟨rfl, rfl⟩ := Prod.mk.inj heq
    exact ⟨hx, rfl⟩
  · rintro ⟨hh, rfl⟩
    exact ⟨h, hh, rfl⟩

/-- A hit comes before a node with its id, and of these the first. -/
theorem get?_addMissing (m : SortedMap String Hit) (nodes : List Node) (id : String) :
    (addMissing m nodes).get? id =
      (m.get? id).or ((nodes.find? (·.id == id)).map fun n => { node := n }) := by
  induction nodes generalizing m with
  | nil => exact Option.or_none.symm
  | cons n nodes ih =>
      refine (ih _).trans ?_
      rw [List.find?_cons]
      by_cases hid : n.id = id
      · subst hid
        cases hm : m.get? n.id with
        | none =>
            have hnew : m.contains n.id = false := by rw [SortedMap.contains, hm]; rfl
            simp [hnew]
        | some h =>
            have hold : m.contains n.id = true := SortedMap.contains_iff.mpr ⟨h, hm⟩
            simp [hold, hm]
      · have hsame : (if m.contains n.id then m else m.insert n.id { node := n }).get? id = m.get? id := by
          split
          · rfl
          · exact SortedMap.get?_insert_of_ne m _ (Ne.symm hid)
        rw [hsame, beq_false_of_ne hid]

theorem of_find?_id (h : nodes.find? (·.id == id) = some n) : n ∈ nodes ∧ n.id = id :=
  ⟨List.mem_of_find?_eq_some h, by simpa using List.find?_some h⟩

/-- Hits and, where no hit has their id, nodes without a score. -/
theorem mem_addMissing (once : (hits.map (·.node.id)).Nodup)
    (same : ∀ n ∈ nodes, ∀ n' ∈ nodes, n.id = n'.id → n = n') {x : Hit} :
    x ∈ (addMissing (byId hits) nodes).values ↔
      x ∈ hits ∨ x.score = none ∧ (∀ h ∈ hits, h.node.id ≠ x.node.id) ∧ x.node ∈ nodes := by
  have hnone (id : String) : (byId hits).get? id = none ↔ ∀ h ∈ hits, h.node.id ≠ id := by
    simp only [Option.eq_none_iff_forall_ne_some, ne_eq, get?_byId once, not_and]
  simp only [SortedMap.mem_values, get?_addMissing, Option.or_eq_some_iff, get?_byId once, hnone,
    Option.map_eq_some_iff]
  constructor
  · rintro ⟨id, ⟨hx, _⟩ | ⟨hfree, n, hn, rfl⟩⟩
    · exact .inl hx
    · obtain ⟨hin, rfl⟩ := of_find?_id hn
      exact .inr ⟨rfl, hfree, hin⟩
  · rintro (hx | ⟨hscore, hfree, hx⟩)
    · exact ⟨x.node.id, .inl ⟨hx, rfl⟩⟩
    · refine ⟨x.node.id, .inr ⟨hfree, ?_⟩⟩
      have hfound : (nodes.find? (·.id == x.node.id)).isSome = true :=
        List.find?_isSome.mpr ⟨x.node, hx, by simp⟩
      obtain ⟨n, hn⟩ := Option.isSome_iff_exists.mp hfound
      obtain ⟨hin, hid⟩ := of_find?_id hn
      refine ⟨n, hn, ?_⟩
      rw [same n hin x.node hx hid, ← hscore]

/-- Where a node is told by its id, the nodes of the hits and the others are all there. -/
theorem mem_nodes_addMissing (once : (hits.map (·.node.id)).Nodup)
    (same : ∀ n ∈ hits.map (·.node) ++ nodes, ∀ n' ∈ hits.map (·.node) ++ nodes, n.id = n'.id → n = n') :
    n ∈ (addMissing (byId hits) nodes).values.map (·.node) ↔ n ∈ hits.map (·.node) ∨ n ∈ nodes := by
  have hall (x : Hit) := mem_addMissing once (fun n hn n' hn' =>
    same n (List.mem_append_right _ hn) n' (List.mem_append_right _ hn')) (x := x)
  constructor
  · intro hn
    obtain ⟨x, hx, rfl⟩ := List.mem_map.mp hn
    exact ((hall x).mp hx).imp (fun hhit => List.mem_map_of_mem hhit) fun hadded => hadded.2.2
  · intro hn
    by_cases hhit : ∃ h ∈ hits, h.node.id = n.id
    · obtain ⟨h, hh, hid⟩ := hhit
      refine List.mem_map.mpr ⟨h, (hall h).mpr (.inl hh), same _ ?_ n (List.mem_append.mpr hn) hid⟩
      exact List.mem_append_left _ (List.mem_map_of_mem hh)
    · rcases hn with hn | hn
      · obtain ⟨h, hh, rfl⟩ := List.mem_map.mp hn
        exact (hhit ⟨h, hh, rfl⟩).elim
      · have hfree : ∀ h ∈ hits, h.node.id ≠ n.id := fun h hh hid => hhit ⟨h, hh, hid⟩
        exact List.mem_map.mpr ⟨⟨n, none⟩, (hall _).mpr (.inr ⟨rfl, hfree, hn⟩), rfl⟩

/-- Hits and nodes stand under their own ids. -/
theorem id_of_get?_addMissing {x : Hit} (h : (addMissing (byId hits) nodes).get? id = some x) :
    x.node.id = id := by
  rw [get?_addMissing, Option.or_eq_some_iff] at h
  rcases h with hhit | ⟨_, hadded⟩
  · exact (of_get?_byId hhit).2
  · obtain ⟨n, hn, rfl⟩ := Option.map_eq_some_iff.mp hadded
    exact (of_find?_id hn).2

theorem nodup_addMissing (hits : List Hit) (nodes : List Node) :
    ((addMissing (byId hits) nodes).values.map (·.node.id)).Nodup := by
  have hkeys : (addMissing (byId hits) nodes).values.map (·.node.id) = (addMissing (byId hits) nodes).keys := by
    rw [SortedMap.values, SortedMap.keys, List.map_map]
    exact List.map_congr_left fun e he => id_of_get?_addMissing (SortedMap.get?_eq_some_iff.mpr he)
  rw [hkeys]
  exact SortedMap.keys_nodup _

/-! ### Order -/

/-- Hits are compared by document, then by place, then by id. -/
def readingOrder : Nat × Hit → Nat × Hit → Ordering :=
  compareLex (compareOn (·.2.node.document)) (compareLex (compareOn (·.1)) (compareOn (·.2.node.id)))

instance : Std.TransCmp readingOrder :=
  inferInstanceAs (Std.TransCmp (compareLex (compareOn fun x : Nat × Hit => x.2.node.document) _))

theorem inReadingOrder_eq (x y : Nat × Hit) : inReadingOrder x y = (readingOrder x y).isLE := by
  have hdocs (a b : Option String) : compareDocuments a b = compare a b := by cases a <;> cases b <;> rfl
  unfold inReadingOrder
  rw [hdocs]
  rfl

theorem pairwise_inReadingOrder (l : List (Nat × Hit)) :
    (l.mergeSort inReadingOrder).Pairwise fun x y => (readingOrder x y).isLE = true := by
  have hsame : inReadingOrder = fun x y => (readingOrder x y).isLE := funext₂ inReadingOrder_eq
  rw [hsame]
  exact pairwise_mergeSort_isLE l

end Postprocessor

/-! ### The chunks of documents -/

namespace Chunker
open Postprocessor

variable {c : Chunker} {docs : List Document} {d e : Document} {store : NodeStore} {hits out : List Hit}
  {mode : NeighbourMode} {count i j : Nat} {n m : Node} {x y : Hit}

theorem mem_nodesOfAll : n ∈ c.nodesOfAll docs ↔ ∃ d ∈ docs, ∃ i : Nat, (c.nodesOf d)[i]? = some n := by
  rw [nodesOfAll, List.mem_flatMap]
  simp only [List.mem_iff_getElem? (l := c.nodesOf _)]

/-- A chunk has one place in one document. -/
theorem place_unique (hdocs : (docs.map (·.id)).Nodup) (hd : d ∈ docs) (he : e ∈ docs)
    (hn : (c.nodesOf d)[i]? = some n) (hm : (c.nodesOf e)[j]? = some m) (hid : n.id = m.id) : d = e ∧ i = j := by
  rw [(links_getElem?_nodesOf hn).1, (links_getElem?_nodesOf hm).1] at hid
  obtain ⟨hdoc, hplace⟩ := chunkId_injective hid
  exact ⟨List.inj_on_of_nodup_map hdocs hd he hdoc, hplace⟩

/-- The chunk is taken along with a hit of its document. -/
def InWindow (c : Chunker) (docs : List Document) (mode : NeighbourMode) (count : Nat) (hits : List Hit)
    (n : Node) : Prop :=
  ∃ d ∈ docs, ∃ i j : Nat, ∃ h ∈ hits, (c.nodesOf d)[i]? = some h.node ∧ (c.nodesOf d)[j]? = some n ∧
    mode.Reaches count i j

/-- The chunk is taken along with a hit at another place of its document. -/
def Beside (c : Chunker) (docs : List Document) (mode : NeighbourMode) (count : Nat) (hits : List Hit)
    (n : Node) : Prop :=
  ∃ d ∈ docs, ∃ i j : Nat, ∃ h ∈ hits, (c.nodesOf d)[i]? = some h.node ∧ (c.nodesOf d)[j]? = some n ∧
    j ≠ i ∧ mode.Reaches count i j

theorem inWindow_iff (chunks : ∀ h ∈ hits, h.node ∈ c.nodesOfAll docs) :
    c.InWindow docs mode count hits n ↔ n ∈ hits.map (·.node) ∨ c.Beside docs mode count hits n := by
  constructor
  · rintro ⟨d, hd, i, j, h, hh, hi, hj, hreach⟩
    by_cases hji : j = i
    · subst hji
      have hn : h.node = n := Option.some.inj (hi.symm.trans hj)
      exact .inl (hn ▸ List.mem_map_of_mem hh)
    · exact .inr ⟨d, hd, i, j, h, hh, hi, hj, hji, hreach⟩
  · rintro (hn | ⟨d, hd, i, j, h, hh, hi, hj, _, hreach⟩)
    · obtain ⟨h, hh, rfl⟩ := List.mem_map.mp hn
      obtain ⟨d, hd, i, hi⟩ := mem_nodesOfAll.mp (chunks h hh)
      exact ⟨d, hd, i, i, h, hh, hi, hi, mode.reaches_self count i⟩
    · exact ⟨d, hd, i, j, h, hh, hi, hj, hreach⟩

theorem Beside.mem_nodesOfAll (h : c.Beside docs mode count hits n) : n ∈ c.nodesOfAll docs := by
  obtain ⟨d, hd, _, j, _, _, _, hj, _⟩ := h
  exact Chunker.mem_nodesOfAll.mpr ⟨d, hd, j, hj⟩

/-- The chunk comes before the other one by the id of its document, or by its place in the same document. -/
def Precedes (c : Chunker) (docs : List Document) (n m : Node) : Prop :=
  ∃ d ∈ docs, ∃ e ∈ docs, ∃ i j : Nat, (c.nodesOf d)[i]? = some n ∧ (c.nodesOf e)[j]? = some m ∧
    (d.id < e.id ∨ d.id = e.id ∧ i < j)

/-- The chunks in the windows of the hits, each once and in reading order. Hits stay as they are, and what is
added has no score. -/
structure Widened (c : Chunker) (docs : List Document) (mode : NeighbourMode) (count : Nat)
    (hits out : List Hit) : Prop where
  nodes : ∀ n, n ∈ out.map (·.node) ↔ c.InWindow docs mode count hits n
  kept : ∀ h ∈ hits, h ∈ out
  added : ∀ x ∈ out, x ∈ hits ∨ x.score = none ∧ ∀ h ∈ hits, h.node ≠ x.node
  once : (out.map (·.node.id)).Nodup
  ordered : out.Pairwise fun x y => c.Precedes docs x.node y.node

/-- Of two chunks the order decides, unless they are one. -/
theorem precedes_of_isLE (hdocs : (docs.map (·.id)).Nodup) (hd : d ∈ docs) (he : e ∈ docs)
    (hx : (c.nodesOf d)[i]? = some x.node) (hy : (c.nodesOf e)[j]? = some y.node)
    (hle : (readingOrder (i, x) (j, y)).isLE = true) (hne : x.node.id ≠ y.node.id) :
    c.Precedes docs x.node y.node := by
  have hxdoc := document_of_mem_nodesOf (List.mem_of_getElem? hx)
  have hydoc := document_of_mem_nodesOf (List.mem_of_getElem? hy)
  have horder : readingOrder (i, x) (j, y) =
      (compare d.id e.id).then ((compare i j).then (compare x.node.id y.node.id)) := by
    simp only [readingOrder, compareLex, compareOn, hxdoc, hydoc]
    rfl
  rw [horder] at hle
  refine ⟨d, hd, e, he, i, j, hx, hy, ?_⟩
  cases hdoc : compare d.id e.id with
  | lt => exact .inl (compareOfLessAndEq_eq_lt.mp hdoc)
  | gt => simp [hdoc] at hle
  | eq =>
      have hsame : d.id = e.id := Std.LawfulEqOrd.eq_of_compare hdoc
      cases List.inj_on_of_nodup_map hdocs hd he hsame
      refine .inr ⟨rfl, ?_⟩
      rcases Nat.lt_trichotomy i j with hlt | rfl | hgt
      · exact hlt
      · rw [hx, Option.some.injEq] at hy
        exact (hne (congrArg Node.id hy)).elim
      · have hplace : compare i j = .gt := Nat.compare_eq_gt.mpr hgt
        simp [hplace] at hle

/-- Placed chunks, sorted, stand in reading order. -/
theorem ordered_of_placed (hdocs : (docs.map (·.id)).Nodup) {placed : List (Nat × Hit)}
    (places : ∀ p ∈ placed, ∃ d ∈ docs, (c.nodesOf d)[p.1]? = some p.2.node)
    (once : (placed.map (·.2.node.id)).Nodup) :
    ((placed.mergeSort inReadingOrder).map (·.2)).Pairwise fun x y => c.Precedes docs x.node y.node := by
  have hperm : (placed.mergeSort inReadingOrder).Perm placed := List.mergeSort_perm ..
  have honce := List.pairwise_map.mp ((hperm.map (·.2.node.id)).nodup_iff.mpr once)
  refine List.pairwise_map.mpr (((pairwise_inReadingOrder placed).and honce).imp_of_mem ?_)
  intro x y hx hy hxy
  obtain ⟨d, hd, hplace⟩ := places x (hperm.mem_iff.mp hx)
  obtain ⟨e, he, hplace'⟩ := places y (hperm.mem_iff.mp hy)
  exact precedes_of_isLE hdocs hd he hplace hplace' hxy.1 hxy.2

section Stored
variable (stored : ∀ n ∈ c.nodesOfAll docs, store.nodes.get? n.id = some n)
include stored

/-- The neighbours of a chunk are the other chunks in its window. -/
theorem neighboursOf_chunk (hd : d ∈ docs) (hn : (c.nodesOf d)[i]? = some n) (count : Nat)
    (mode : NeighbourMode) : ∃ l, neighboursOf store count mode n = .ok l ∧
      ∀ x, x ∈ l ↔ ∃ j, (c.nodesOf d)[j]? = some x ∧ j ≠ i ∧ mode.Reaches count i j :=
  neighboursOf_threaded (threaded_nodesOf c d)
    (fun m hm => stored m (List.mem_flatMap.mpr ⟨d, hd, hm⟩)) hn count mode

theorem neighbours_found (hdocs : (docs.map (·.id)).Nodup) (chunks : ∀ h ∈ hits, h.node ∈ c.nodesOfAll docs)
    (count : Nat) (mode : NeighbourMode) :
    ∃ found, hits.mapM (fun h => neighboursOf store count mode h.node) = .ok found ∧
      ∀ n, n ∈ found.flatten ↔ c.Beside docs mode count hits n := by
  induction hits with
  | nil => exact ⟨[], rfl, by simp [Beside]⟩
  | cons h hits ih =>
      obtain ⟨d, hd, i, hi⟩ := mem_nodesOfAll.mp (chunks h List.mem_cons_self)
      obtain ⟨l, hl, hmem⟩ := neighboursOf_chunk stored hd hi count mode
      obtain ⟨found, hfound, hall⟩ := ih fun x hx => chunks x (List.mem_cons_of_mem h hx)
      refine ⟨l :: found, by rw [List.mapM_cons, hl, hfound]; rfl, fun n => ?_⟩
      rw [List.flatten_cons, List.mem_append, hmem, hall]
      constructor
      · rintro (⟨j, hj, hne, hreach⟩ | ⟨e, he, k, j, x, hx, hwindow⟩)
        · exact ⟨d, hd, i, j, h, List.mem_cons_self, hi, hj, hne, hreach⟩
        · exact ⟨e, he, k, j, x, List.mem_cons_of_mem h hx, hwindow⟩
      · rintro ⟨e, he, k, j, x, hx, hk, hj, hne, hreach⟩
        rcases List.mem_cons.mp hx with rfl | hx
        · obtain ⟨rfl, rfl⟩ := place_unique hdocs hd he hi hk rfl
          exact .inl ⟨j, hj, hne, hreach⟩
        · exact .inr ⟨e, he, k, j, x, hx, hk, hj, hne, hreach⟩

theorem placeOf_chunk (hd : d ∈ docs) (hx : (c.nodesOf d)[i]? = some x.node) : placeOf store x = .ok i := by
  have hin : store.contains x.node.id = true :=
    NodeStore.contains_iff.mpr ⟨x.node, stored x.node (mem_nodesOfAll.mpr ⟨d, hd, i, hx⟩)⟩
  have hall : ∀ m ∈ c.nodesOf d, store.nodes.get? m.id = some m := fun m hm =>
    stored m (List.mem_flatMap.mpr ⟨d, hd, hm⟩)
  rw [placeOf, if_pos hin]
  exact NodeStore.chainPosition_eq (threaded_nodesOf c d) hall hx

theorem placed_chunks (chunks : ∀ h ∈ hits, h.node ∈ c.nodesOfAll docs) :
    ∃ placed, hits.mapM (fun h => do return (← placeOf store h, h)) = .ok placed ∧
      placed.map (·.2) = hits ∧ ∀ p ∈ placed, ∃ d ∈ docs, (c.nodesOf d)[p.1]? = some p.2.node := by
  induction hits with
  | nil => exact ⟨[], rfl, rfl, by simp⟩
  | cons h hits ih =>
      obtain ⟨d, hd, i, hi⟩ := mem_nodesOfAll.mp (chunks h List.mem_cons_self)
      obtain ⟨placed, hplaced, hhits, hall⟩ := ih fun x hx => chunks x (List.mem_cons_of_mem h hx)
      refine ⟨(i, h) :: placed, ?_, by rw [List.map_cons, hhits], List.forall_mem_cons.mpr ⟨⟨d, hd, hi⟩, hall⟩⟩
      rw [List.mapM_cons, placeOf_chunk stored hd hi, hplaced]
      rfl

/-- Expanding hits gives exactly the chunks in their windows, in reading order. -/
theorem neighbours_are_windows (hdocs : (docs.map (·.id)).Nodup) (distinct : (hits.map (·.node.id)).Nodup)
    (chunks : ∀ h ∈ hits, h.node ∈ c.nodesOfAll docs) (count : Nat) (mode : NeighbourMode)
    (similarity : Option SimilarityRecord) :
    ∃ out, Postprocessor.run ⟨some store, similarity⟩ hits (.neighbours count mode) = .ok out ∧
      c.Widened docs mode count hits out := by
  obtain ⟨found, hfound, hnear⟩ := neighbours_found stored hdocs chunks count mode
  have hfoundChunks : ∀ n ∈ found.flatten, n ∈ c.nodesOfAll docs := fun n hn => ((hnear n).mp hn).mem_nodesOfAll
  have hsame : ∀ n ∈ hits.map (·.node) ++ found.flatten, ∀ m ∈ hits.map (·.node) ++ found.flatten,
      n.id = m.id → n = m := by
    have hall : ∀ n ∈ hits.map (·.node) ++ found.flatten, n ∈ c.nodesOfAll docs :=
      List.forall_mem_append.mpr ⟨List.forall_mem_map.mpr chunks, hfoundChunks⟩
    exact fun n hn m hm hid => Option.some.inj ((stored n (hall n hn)).symm.trans (hid ▸ stored m (hall m hm)))
  have hall (x : Hit) := mem_addMissing distinct (fun n hn m hm =>
    hsame n (List.mem_append_right _ hn) m (List.mem_append_right _ hm)) (x := x)
  have hnodes (n : Node) := mem_nodes_addMissing distinct hsame (n := n)
  have honce := nodup_addMissing hits found.flatten
  generalize hvalues : (addMissing (byId hits) found.flatten).values = all at hall hnodes honce
  have hallChunks : ∀ x ∈ all, x.node ∈ c.nodesOfAll docs := fun x hx =>
    ((hnodes x.node).mp (List.mem_map_of_mem hx)).elim (List.forall_mem_map.mpr chunks _) (hfoundChunks _)
  obtain ⟨placed, hplaced, hsnd, hplaces⟩ := placed_chunks stored hallChunks
  have hperm : ((placed.mergeSort inReadingOrder).map (·.2)).Perm all :=
    hsnd ▸ (List.mergeSort_perm placed inReadingOrder).map Prod.snd
  refine ⟨(placed.mergeSort inReadingOrder).map (·.2), ?_, fun n => ?_, fun h hh => ?_, fun x hx => ?_, ?_, ?_⟩
  · simp only [run, addNeighbours, hfound, hvalues, hplaced, ok_bind]
    rfl
  · rw [(hperm.map (·.node)).mem_iff, hnodes, hnear, inWindow_iff chunks]
  · exact hperm.mem_iff.mpr ((hall h).mpr (.inl hh))
  · refine ((hall x).mp (hperm.mem_iff.mp hx)).imp_right fun ⟨hscore, hfree, _⟩ => ⟨hscore, fun h hh heq => ?_⟩
    exact hfree h hh (congrArg Node.id heq)
  · exact (hperm.map (·.node.id)).nodup_iff.mpr honce
  · refine ordered_of_placed hdocs hplaces ?_
    rw [← hsnd, List.map_map] at honce
    exact honce

end Stored

/-- Two hits of one document and one of another, out of order: the chunk between the first two is added once
and has no score, and the hits keep theirs. -/
theorem neighbours_are_windows_namesake : ([eleven, namesake].map (·.id)).Nodup ∧
    ∃ c store n₇ n₈ n₉ m out, ofSettings {} = .ok c ∧
      ({} : NodeStore).add (c.nodesOfAll [eleven, namesake]) false = .ok store ∧
      (c.nodesOf eleven)[7]? = some n₇ ∧ (c.nodesOf eleven)[8]? = some n₈ ∧ (c.nodesOf eleven)[9]? = some n₉ ∧
      (c.nodesOf namesake)[1]? = some m ∧
      Postprocessor.run ⟨some store, none⟩ [⟨n₉, some 1⟩, ⟨m, none⟩, ⟨n₇, some 2⟩] (.neighbours 1 .both) =
        .ok out ∧
      c.Widened [eleven, namesake] .both 1 [⟨n₉, some 1⟩, ⟨m, none⟩, ⟨n₇, some 2⟩] out ∧
      ⟨n₈, none⟩ ∈ out ∧ ⟨n₉, some 1⟩ ∈ out := by
  have hdocs : ([eleven, namesake].map (·.id)).Nodup := by decide
  obtain ⟨c, hc⟩ : ∃ c, ofSettings {} = .ok c := ⟨_, rfl⟩
  have hlength : (c.nodesOf eleven).length = 11 := by simpa using congrArg List.length (nodesOf_eleven hc)
  have hlength' : (c.nodesOf namesake).length = 2 := by
    have hall : ((ofSettings {}).toOption.map fun c => (c.nodesOf namesake).length) = some 2 := by
      decide +kernel
    rw [hc] at hall
    exact Option.some.inj hall
  have hchunk (d : Document) (i : Nat) (hi : i < (c.nodesOf d).length) : ∃ n, (c.nodesOf d)[i]? = some n :=
    ⟨_, List.getElem?_eq_getElem hi⟩
  obtain ⟨n₇, h₇⟩ := hchunk eleven 7 (by omega)
  obtain ⟨n₈, h₈⟩ := hchunk eleven 8 (by omega)
  obtain ⟨n₉, h₉⟩ := hchunk eleven 9 (by omega)
  obtain ⟨m, hm⟩ := hchunk namesake 1 (by omega)
  let hits : List Hit := [⟨n₉, some 1⟩, ⟨m, none⟩, ⟨n₇, some 2⟩]
  have hids : hits.map (·.node.id) = [chunkId "d" 9, chunkId "d:1" 1, chunkId "d" 7] := by
    simp only [hits, List.map_cons, List.map_nil, (links_getElem?_nodesOf h₉).1, (links_getElem?_nodesOf hm).1,
      (links_getElem?_nodesOf h₇).1]
    rfl
  have hdistinct : (hits.map (·.node.id)).Nodup := by
    rw [hids]
    decide
  have hnew : n₈.id ∉ hits.map (·.node.id) := by
    rw [hids, (links_getElem?_nodesOf h₈).1]
    decide
  have hnodup : ((c.nodesOfAll [eleven, namesake]).map (·.id)).Nodup :=
    nodesOfAll_ids c _ ▸ nodup_chunkIds hdocs
  have hstored : ∀ n ∈ c.nodesOfAll [eleven, namesake],
      ((c.nodesOfAll [eleven, namesake]).foldl NodeStore.put {}).nodes.get? n.id = some n := fun n hn =>
    (NodeStore.get?_foldl_put hnodup).mpr (.inl ⟨hn, rfl⟩)
  have hchunks : ∀ h ∈ hits, h.node ∈ c.nodesOfAll [eleven, namesake] := by
    simp only [hits, List.forall_mem_cons, mem_nodesOfAll]
    exact ⟨⟨eleven, by simp, 9, h₉⟩, ⟨namesake, by simp, 1, hm⟩, ⟨eleven, by simp, 7, h₇⟩, by simp⟩
  obtain ⟨out, hrun, hwide⟩ := neighbours_are_windows hstored hdocs hdistinct hchunks 1 .both none
  refine ⟨hdocs, c, _, n₇, n₈, n₉, m, out, hc, NodeStore.add_of_fresh hnodup fun _ _ => rfl, h₇, h₈, h₉, hm,
    hrun, hwide, ?_, hwide.kept _ List.mem_cons_self⟩
  have hin : n₈ ∈ out.map (·.node) := (hwide.nodes n₈).mpr ⟨eleven, by simp, 9, 8, ⟨n₉, some 1⟩,
    List.mem_cons_self, h₉, h₈, .inr ⟨rfl, by decide, by decide⟩⟩
  obtain ⟨x, hx, rfl⟩ := List.mem_map.mp hin
  rcases hwide.added x hx with hhit | ⟨hscore, _⟩
  · exact (hnew (List.mem_map_of_mem (f := (·.node.id)) hhit)).elim
  · exact hscore ▸ hx

end Chunker
end CorpusIndex
