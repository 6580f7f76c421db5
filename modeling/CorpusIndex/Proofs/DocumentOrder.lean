import CorpusIndex.Proofs.Chains
import CorpusIndex.Proofs.Ingest.ReadingOrder

/-!
# The order of a document's nodes

The nodes of a document are laid out along their next links, whatever these are: chains that run into each
other, circles, links that one side alone knows of. `Laid` is the run that lays them out, one constructor for
each thing it does. No node is lost or given twice, and a node whose next link is answered, and shared with
no other node, is followed by the node it leads to.
-/
namespace CorpusIndex.NodeStore

variable {s p : NodeStore} {doc id : String} {out l before after : List Node} {cur : Option Node}
  {n m a b head : Node} {fuel k : ℕ} {placed : SortedSet String}

/-- The nodes of a document as a store of their own: a link out of the document leads nowhere in it. -/
def part (s : NodeStore) (doc : String) : NodeStore := ⟨s.members doc⟩

/-- The nodes laid out so far, and the node that is to be laid out next. -/
inductive Laid (p : NodeStore) : List Node → Option Node → Prop
  | nothing : Laid p [] none
  | start {out : List Node} {n : Node} : Laid p out none → p.nodes.get? n.id = some n →
      p.target Node.previous? n = none → Laid p out (some n)
  | place {out : List Node} {n : Node} : Laid p out (some n) → n.id ∉ out.map (·.id) →
      Laid p (out ++ [n]) (p.target Node.next? n)
  | stop {out : List Node} {n : Node} : Laid p out (some n) → n.id ∈ out.map (·.id) → Laid p out none

/-! ### What a run keeps -/

theorem Keyed.stored_of_target {step : Node → Option String} (hp : p.Keyed)
    (h : p.target step n = some m) : p.nodes.get? m.id = some m := by
  obtain ⟨i, _, hi⟩ := target_eq_some.mp h
  rw [hp i m hi, hi]

theorem Laid.stored (hp : p.Keyed) (h : Laid p out cur) :
    (∀ n ∈ out, p.nodes.get? n.id = some n) ∧ ∀ n, cur = some n → p.nodes.get? n.id = some n := by
  induction h with
  | nothing => exact ⟨by simp, by simp⟩
  | start _ hn _ ih => exact ⟨ih.1, fun m hm => by cases hm; exact hn⟩
  | place _ _ ih =>
      refine ⟨fun m hm => ?_, fun m hm => hp.stored_of_target hm⟩
      rcases List.mem_append.mp hm with hm | hm
      · exact ih.1 m hm
      · rw [List.mem_singleton.mp hm]
        exact ih.2 _ rfl
  | stop _ _ ih => exact ⟨ih.1, by simp⟩

theorem Laid.nodup (h : Laid p out cur) : (out.map (·.id)).Nodup := by
  induction h with
  | nothing => exact List.nodup_nil
  | start _ _ _ ih => exact ih
  | place _ hnew ih =>
      rw [List.map_append, List.map_singleton, List.nodup_append]
      refine ⟨ih, List.nodup_singleton _, fun i hi j hj => ?_⟩
      rw [List.mem_singleton.mp hj]
      exact fun he => hnew (he ▸ hi)
  | stop _ _ ih => exact ih

/-- A node of the store is laid out as soon as its id is. -/
theorem Laid.mem_of_id (hp : p.Keyed) (h : Laid p out cur) (hn : p.nodes.get? n.id = some n)
    (hid : n.id ∈ out.map (·.id)) : n ∈ out := by
  obtain ⟨m, hm, he⟩ := List.mem_map.mp hid
  have hsame : m = n := Option.some.inj (((h.stored hp).1 m hm).symm.trans (he ▸ hn))
  exact hsame ▸ hm

/-- Where a next link leads is laid out too, or comes next. -/
theorem Laid.closed (hp : p.Keyed) (h : Laid p out cur) (hn : n ∈ out)
    (hm : p.target Node.next? n = some m) : m ∈ out ∨ cur = some m := by
  induction h with
  | nothing => cases hn
  | start _ _ _ ih => exact .inl ((ih hn).resolve_right (by simp))
  | place _ _ ih =>
      rcases List.mem_append.mp hn with hn | hn
      · rcases ih hn with hin | hcur
        · exact .inl (List.mem_append_left _ hin)
        · exact .inl (List.mem_append_right _ (by simp [Option.some.inj hcur]))
      · rw [← List.mem_singleton.mp hn]
        exact .inr hm
  | stop hlaid hin ih =>
      refine (ih hn).elim .inl fun hcur => .inl ?_
      cases hcur
      exact hlaid.mem_of_id hp ((hlaid.stored hp).2 _ rfl) hin

/-- The end of a list is what was put there, or the split is further to the front. -/
theorem split_concat {x : Node} (h : out ++ [x] = before ++ n :: after) :
    (after = [] ∧ x = n ∧ out = before) ∨ ∃ rest, after = rest ++ [x] ∧ out = before ++ n :: rest := by
  rcases List.eq_nil_or_concat after with rfl | ⟨rest, y, rfl⟩
  · obtain ⟨hout, hx⟩ := List.append_inj' h rfl
    exact .inl ⟨rfl, List.head_eq_of_cons_eq hx, hout⟩
  · rw [List.concat_eq_append, ← List.cons_append, ← List.append_assoc] at h
    obtain ⟨hout, hx⟩ := List.append_inj' h rfl
    exact .inr ⟨rest, by rw [List.concat_eq_append, List.head_eq_of_cons_eq hx], hout⟩

/-! ### A link that is answered -/

/-- The next link of `a` leads to `b`, which links back to `a` and to which no other node leads. -/
structure Joined (p : NodeStore) (a b : Node) : Prop where
  next : p.target Node.next? a = some b
  previous : p.target Node.previous? b = some a
  only : ∀ n, p.nodes.get? n.id = some n → p.target Node.next? n = some b → n = a

/-- The node that a link answers is reached through that link only. -/
theorem Laid.after_first (hp : p.Keyed) (hab : Joined p a b) (h : Laid p out cur)
    (hb : out ++ cur.toList = before ++ b :: after) : a ∈ before := by
  induction h generalizing after with
  | nothing => simp at hb
  | start _ _ hhead ih =>
      rcases split_concat hb with ⟨_, rfl, _⟩ | ⟨rest, _, hout⟩
      · cases hhead.symm.trans hab.previous
      · exact ih (by simpa using hout)
  | @place out n hlaid _ ih =>
      cases hm : p.target Node.next? n with
      | none =>
          rw [hm] at hb
          exact ih (by simpa using hb)
      | some m =>
          rw [hm] at hb
          rcases split_concat hb with ⟨_, rfl, rfl⟩ | ⟨rest, _, hout⟩
          · rw [hab.only n ((hlaid.stored hp).2 n rfl) hm]
            exact List.mem_append_right _ (List.mem_singleton_self a)
          · exact ih hout
  | @stop out n _ _ ih =>
      have hfull : out ++ (some n).toList = before ++ b :: (after ++ [n]) := by
        simpa using congrArg (· ++ [n]) hb
      exact ih hfull

/-- Right after a node comes the one that answers its next link. -/
theorem Laid.adjacent (hp : p.Keyed) (hab : Joined p a b) (h : Laid p out cur) (ha : a ∈ out) :
    ∃ before after, out ++ cur.toList = before ++ a :: b :: after := by
  induction h with
  | nothing => cases ha
  | @start out n _ _ _ ih =>
      obtain ⟨before, after, hout⟩ := ih ha
      exact ⟨before, after ++ [n], by simpa using congrArg (· ++ [n]) hout⟩
  | @place out n _ _ ih =>
      rcases List.mem_append.mp ha with ha | ha
      · obtain ⟨before, after, hout⟩ := ih ha
        exact ⟨before, after ++ (p.target Node.next? n).toList,
          by simpa using congrArg (· ++ (p.target Node.next? n).toList) hout⟩
      · rw [← List.mem_singleton.mp ha, hab.next]
        exact ⟨out, [], by simp⟩
  | @stop out n hlaid hin ih =>
      obtain ⟨before, after, hout⟩ := ih ha
      have hend : out ++ [n] = (before ++ [a]) ++ b :: after := by simpa using hout
      rcases split_concat hend with ⟨_, rfl, rfl⟩ | ⟨rest, _, hrest⟩
      · -- the node that comes next stands further to the front already, and `a` before it
        have hb := hlaid.mem_of_id hp ((hlaid.stored hp).2 _ rfl) hin
        obtain ⟨front, back, hsplit⟩ := List.append_of_mem hb
        have hfull : (before ++ [a]) ++ (some n).toList = front ++ n :: (back ++ [n]) := by
          simpa using congrArg (· ++ [n]) hsplit
        have hfront : a ∈ front := hlaid.after_first hp hab hfull
        have hbefore : a ∈ before := by
          rcases split_concat hsplit with ⟨_, _, rfl⟩ | ⟨rest, _, rfl⟩
          · exact hfront
          · exact List.mem_append_left _ hfront
        have hnd := List.Nodup.of_map _ hlaid.nodup
        exact ((List.nodup_append.mp hnd).2.2 a hbefore a (List.mem_singleton_self a) rfl).elim
      · exact ⟨before, rest, by simpa using hrest⟩

/-! ### The run as it is computed -/

theorem chain_none (m : SortedMap String Node) (fuel : ℕ) (placed : SortedSet String) :
    NodeStore.chain m fuel placed none = [] := by
  cases fuel <;> rfl

theorem chain_placed (m : SortedMap String Node) (fuel : ℕ) (h : n.id ∈ placed) :
    NodeStore.chain m fuel placed (some n) = [] := by
  cases fuel with
  | zero => rfl
  | succ fuel => rw [NodeStore.chain, if_pos (SortedSet.contains_iff_mem.mpr h)]

theorem chain_new (m : SortedMap String Node) (fuel : ℕ) (h : n.id ∉ placed) :
    NodeStore.chain m (fuel + 1) placed (some n) =
      n :: NodeStore.chain m fuel (placed.add n.id) (n.next?.bind m.get?) := by
  rw [NodeStore.chain, if_neg (mt SortedSet.contains_iff_mem.mp h)]

/-- The walk from a node, with more steps than nodes are left, lays out everything up to where it stops. -/
theorem Laid.chain (hp : p.Keyed) (h : Laid p out cur) (hplaced : ∀ id, id ∈ placed ↔ id ∈ out.map (·.id))
    (hfuel : p.size < fuel + out.length) :
    Laid p (out ++ NodeStore.chain p.nodes fuel placed cur) none := by
  induction fuel generalizing out cur placed with
  | zero =>
      have hle := length_le_size h.nodup (h.stored hp).1
      simp only [NodeStore.size] at hfuel
      omega
  | succ fuel ih =>
      cases cur with
      | none =>
          rw [chain_none, List.append_nil]
          exact h
      | some n =>
          by_cases hin : n.id ∈ out.map (·.id)
          · rw [chain_placed _ _ ((hplaced n.id).mpr hin), List.append_nil]
            exact h.stop hin
          · rw [chain_new _ _ (mt (hplaced n.id).mp hin), List.append_cons]
            refine ih (h.place hin) (fun i => ?_) ?_
            · rw [SortedSet.mem_add, hplaced, List.map_append, List.mem_append, List.map_singleton,
                List.mem_singleton, or_comm]
            · rw [List.length_append, List.length_singleton]
              omega

/-- The node a walk starts from is laid out. -/
theorem Laid.mem_chain (hp : p.Keyed) (h : Laid p out (some n))
    (hplaced : ∀ id, id ∈ placed → id ∈ out.map (·.id)) :
    n ∈ out ++ NodeStore.chain p.nodes (fuel + 1) placed (some n) := by
  by_cases hin : n.id ∈ placed
  · exact List.mem_append_left _ (h.mem_of_id hp ((h.stored hp).2 n rfl) (hplaced n.id hin))
  · rw [chain_new _ _ hin]
    exact List.mem_append_right _ List.mem_cons_self

/-- The walks from several heads, one after another. -/
theorem Laid.chains (hp : p.Keyed) (h : Laid p out none) (heads : List Node)
    (hheads : ∀ n ∈ heads, p.nodes.get? n.id = some n ∧ p.target Node.previous? n = none) :
    let all := heads.foldl (fun (out : List Node) n =>
      out ++ NodeStore.chain p.nodes (p.nodes.size + 1) (.ofElems (out.map (·.id))) (some n)) out
    Laid p all none ∧ (∀ n ∈ heads, n ∈ all) ∧ ∀ n ∈ out, n ∈ all := by
  induction heads generalizing out with
  | nil => exact ⟨h, by simp, fun n hn => hn⟩
  | cons head heads ih =>
      obtain ⟨hstored, hfirst⟩ := hheads head List.mem_cons_self
      have hstart := h.start hstored hfirst
      have hplaced (i : String) : i ∈ SortedSet.ofElems (out.map (·.id)) ↔ i ∈ out.map (·.id) :=
        SortedSet.mem_ofElems
      have hfuel : p.size < p.nodes.size + 1 + out.length := by
        simp only [NodeStore.size]
        omega
      have hrun := hstart.chain hp hplaced hfuel
      obtain ⟨hall, hin, hout⟩ := ih hrun fun n hn => hheads n (List.mem_cons_of_mem head hn)
      refine ⟨hall, fun n hn => ?_, fun n hn => hout n (List.mem_append_left _ hn)⟩
      rcases List.mem_cons.mp hn with rfl | hn
      · exact hout n (hstart.mem_chain hp fun i => (hplaced i).mp)
      · exact hin n hn

/-- One more node placed leaves fewer of them. -/
theorem length_unplaced_lt (keys : List String) (hid : id ∈ keys) (hnew : id ∉ placed) :
    (keys.filter fun i => !(placed.add id).contains i).length <
      (keys.filter fun i => !placed.contains i).length := by
  have hfilter : (keys.filter fun i => !(placed.add id).contains i) =
      (keys.filter fun i => !placed.contains i).filter (fun i => i ≠ id) := by
    rw [List.filter_filter]
    refine List.filter_congr fun i _ => ?_
    rw [Bool.eq_iff_iff]
    simp [SortedSet.contains_iff_mem, ← Bool.not_eq_true]
  rw [hfilter]
  apply List.length_filter_lt_length_iff_exists.mpr
  refine ⟨id, List.mem_filter.mpr ⟨hid, ?_⟩, by simp⟩
  simpa [SortedSet.contains_iff_mem, ← Bool.not_eq_true] using hnew

/-- Further steps of a walk change nothing once there are as many as nodes left. -/
theorem chain_stable (hp : p.Keyed) (hcur : ∀ n, cur = some n → p.nodes.get? n.id = some n)
    (hfuel : (p.nodes.keys.filter fun id => !placed.contains id).length ≤ fuel) (k : ℕ) :
    NodeStore.chain p.nodes (fuel + k) placed cur = NodeStore.chain p.nodes fuel placed cur := by
  induction fuel generalizing cur placed with
  | zero =>
      cases cur with
      | none => rw [chain_none, chain_none]
      | some n =>
          have hin : n.id ∈ placed := by
            by_contra hnew
            have hless := length_unplaced_lt p.nodes.keys (SortedMap.mem_keys.mpr ⟨n, hcur n rfl⟩) hnew
            omega
          rw [chain_placed _ _ hin, chain_placed _ _ hin]
  | succ fuel ih =>
      cases cur with
      | none => rw [chain_none, chain_none]
      | some n =>
          by_cases hin : n.id ∈ placed
          · rw [chain_placed _ _ hin, chain_placed _ _ hin]
          · have hless := length_unplaced_lt p.nodes.keys (SortedMap.mem_keys.mpr ⟨n, hcur n rfl⟩) hin
            rw [Nat.add_right_comm, chain_new _ _ hin, chain_new _ _ hin]
            refine congrArg (n :: ·) (ih (fun m hm => ?_) (by omega))
            exact hp.stored_of_target hm

/-- A walk is at its end after as many steps as there are nodes, wherever it starts. -/
theorem chain_ends (hp : p.Keyed) (placed : SortedSet String) (cur : Option Node) (k : ℕ) :
    NodeStore.chain p.nodes (p.size + 1 + k) placed cur = NodeStore.chain p.nodes (p.size + 1) placed cur := by
  cases cur with
  | none => rw [chain_none, chain_none]
  | some n =>
      by_cases hin : n.id ∈ placed
      · rw [chain_placed _ _ hin, chain_placed _ _ hin]
      · rw [Nat.add_right_comm, chain_new _ _ hin, chain_new _ _ hin]
        refine congrArg (n :: ·) (chain_stable hp (fun m hm => ?_) ?_ k)
        · exact hp.stored_of_target hm
        · refine (List.length_filter_le _ _).trans ?_
          simp [SortedMap.keys, NodeStore.size, SortedMap.size]

/-! ### The nodes of a document -/

theorem keyed_part (s : NodeStore) (doc : String) : (s.part doc).Keyed := by
  intro id n hn
  obtain ⟨m, _, he⟩ := List.mem_map.mp (SortedMap.mem_of_get?_ofList hn)
  obtain ⟨rfl, rfl⟩ := Prod.mk.inj he
  rfl

/-- In the part of a document a node is found under its id. -/
theorem mem_part : n ∈ (s.part doc).toList ↔ (s.part doc).nodes.get? n.id = some n := by
  refine SortedMap.mem_values.trans ⟨fun ⟨id, hn⟩ => ?_, fun hn => ⟨n.id, hn⟩⟩
  rw [keyed_part s doc id n hn]
  exact hn

theorem mem_ofDocument_of_part (hn : n ∈ (s.part doc).toList) : n ∈ s.ofDocument doc := by
  obtain ⟨m, hm, he⟩ := List.mem_map.mp (SortedMap.mem_of_get?_ofList (mem_part.mp hn))
  exact (Prod.mk.inj he).2 ▸ hm

theorem mem_ids_part : id ∈ (s.part doc).toList.map (·.id) ↔ ∃ n ∈ s.ofDocument doc, n.id = id := by
  constructor
  · intro hid
    obtain ⟨n, hn, rfl⟩ := List.mem_map.mp hid
    exact ⟨n, mem_ofDocument_of_part hn, rfl⟩
  · rintro ⟨n, hn, rfl⟩
    have hcontains : (s.members doc).contains n.id = true := by
      refine (SortedMap.foldl_insert_contains _ _ _).mpr (.inl ?_)
      rw [List.map_map]
      exact List.mem_map_of_mem hn
    obtain ⟨m, hm⟩ := SortedMap.contains_iff.mp hcontains
    have hid : m.id = n.id := keyed_part s doc n.id m hm
    exact hid ▸ List.mem_map_of_mem (mem_part.mpr (hid ▸ hm))

/-- Heads are the nodes whose first previous link is absent or leads out of the document. -/
theorem mem_heads : n ∈ (s.members doc).values.filter
      (fun n => n.previous?.all fun i => !(s.members doc).contains i) ↔
    n ∈ (s.part doc).toList ∧ (s.part doc).target Node.previous? n = none := by
  rw [List.mem_filter]
  refine and_congr_right fun _ => ?_
  rw [target]
  cases n.previous? with
  | none => simp
  | some i =>
      change (!(s.members doc).contains i) = true ↔ (s.members doc).get? i = none
      cases h : (s.members doc).get? i <;> simp [SortedMap.contains, h]

/-- The chains from all heads are laid out first, then the nodes that none of them reaches. -/
theorem exists_laid (s : NodeStore) (doc : String) : ∃ chained, Laid (s.part doc) chained none ∧
    (∀ n ∈ (s.part doc).toList, (s.part doc).target Node.previous? n = none → n ∈ chained) ∧
    s.chunksOf doc = chained ++ (s.part doc).toList.filter
      fun n => !(SortedSet.ofElems (chained.map (·.id))).contains n.id := by
  have hchains := Laid.nothing.chains (keyed_part s doc) _ fun n hn =>
    ⟨mem_part.mp (mem_heads.mp hn).1, (mem_heads.mp hn).2⟩
  exact ⟨_, hchains.1, fun n hn hfirst => hchains.2.1 n (mem_heads.mpr ⟨hn, hfirst⟩),
    chunksOf_of_chained s doc _ rfl⟩

theorem Laid.mem_along (hp : p.Keyed) (h : Laid p out none) (hn : n ∈ out)
    (hm : p.along Node.next? n k = some m) : m ∈ out := by
  induction k generalizing m with
  | zero =>
      cases hm
      exact hn
  | succ k ih =>
      obtain ⟨x, hx, hstep⟩ := Option.bind_eq_some_iff.mp hm
      exact (h.closed hp (ih hx) hstep).resolve_right (by simp)

/-- The nodes of a document, in another order. -/
theorem chunksOf_perm_part (s : NodeStore) (doc : String) :
    (s.chunksOf doc).Perm (s.part doc).toList := by
  obtain ⟨chained, hlaid, _, heq⟩ := exists_laid s doc
  have hp := keyed_part s doc
  have hnd : (s.part doc).toList.Nodup := List.Nodup.of_map _ (nodup_values hp)
  rw [heq]
  refine (List.perm_ext_iff_of_nodup ?_ hnd).mpr fun n => ?_
  · refine List.nodup_append.mpr ⟨List.Nodup.of_map _ hlaid.nodup, hnd.filter _, ?_⟩
    rintro n hn _ hrest rfl
    have hin : n.id ∈ SortedSet.ofElems (chained.map (·.id)) :=
      SortedSet.mem_ofElems.mpr (List.mem_map_of_mem hn)
    simp [SortedSet.contains_iff_mem.mpr hin] at hrest
  · rw [List.mem_append, List.mem_filter]
    constructor
    · rintro (hn | ⟨hn, _⟩)
      · exact mem_part.mpr ((hlaid.stored hp).1 n hn)
      · exact hn
    · intro hn
      by_cases hid : n.id ∈ SortedSet.ofElems (chained.map (·.id))
      · exact .inl (hlaid.mem_of_id hp (mem_part.mp hn) (SortedSet.mem_ofElems.mp hid))
      · refine .inr ⟨hn, ?_⟩
        rw [Bool.not_eq_true', ← Bool.not_eq_true]
        exact mt SortedSet.contains_iff_mem.mp hid

theorem chunksOf_perm_ofDocument (k : s.Keyed) : (s.chunksOf doc).Perm (s.ofDocument doc) := by
  refine (chunksOf_perm_part s doc).trans ((List.perm_ext_iff_of_nodup ?_ ?_).mpr fun n => ?_)
  · exact List.Nodup.of_map _ (nodup_values (keyed_part s doc))
  · exact (List.Nodup.of_map _ (nodup_values k)).filter _
  · exact mem_members k fun _ => Iff.rfl

/-- Nodes that a run joins stay together when the nodes it does not reach are put behind it. -/
theorem chunksOf_adjacent (hhead : head ∈ (s.part doc).toList)
    (hfirst : (s.part doc).target Node.previous? head = none)
    (ha : (s.part doc).along Node.next? head k = some a) (hab : Joined (s.part doc) a b) :
    ∃ before after, s.chunksOf doc = before ++ a :: b :: after := by
  obtain ⟨chained, hlaid, hheads, heq⟩ := exists_laid s doc
  have hp := keyed_part s doc
  have hin : a ∈ chained := hlaid.mem_along hp (hheads head hhead hfirst) ha
  obtain ⟨before, after, hsplit⟩ := hlaid.adjacent hp hab hin
  rw [Option.toList_none, List.append_nil] at hsplit
  rw [heq, hsplit, List.append_assoc, List.cons_append, List.cons_append]
  exact ⟨before, _, rfl⟩

/-- Whatever the links of the stored nodes, the nodes of a document are given each once and no other node
with them, and no walk needs more steps than there are nodes. Where the next link of a node that is reached
from a head leads to a node which links back to it, and to which no other node leads, that one comes right
after it. (Two nodes with one id, which no store holds whose nodes stand under their own ids, count as one.) -/
theorem chunks_follow_answered_links (s : NodeStore) (doc : String) :
    ((s.chunksOf doc).map (·.id)).Nodup ∧
    (∀ n ∈ s.chunksOf doc, n ∈ s.ofDocument doc) ∧
    (∀ n ∈ s.ofDocument doc, n.id ∈ (s.chunksOf doc).map (·.id)) ∧
    (s.Keyed → (s.chunksOf doc).Perm (s.ofDocument doc)) ∧
    (∀ steps placed cur, chain (s.members doc) ((s.members doc).size + 1 + steps) placed cur =
      chain (s.members doc) ((s.members doc).size + 1) placed cur) ∧
    ∀ head k a b, head ∈ (s.part doc).toList → (s.part doc).target Node.previous? head = none →
      (s.part doc).along Node.next? head k = some a →
      b ∈ (s.part doc).toList → a.next? = some b.id → b.previous? = some a.id →
      (∀ c ∈ (s.part doc).toList, c.next? = some b.id → c = a) →
      ∃ before after, s.chunksOf doc = before ++ a :: b :: after := by
  have hp := keyed_part s doc
  have hperm := chunksOf_perm_part s doc
  refine ⟨?_, fun n hn => ?_, fun n hn => ?_, chunksOf_perm_ofDocument, fun steps placed cur => ?_, ?_⟩
  · exact (hperm.map _).nodup_iff.mpr (nodup_values hp)
  · exact mem_ofDocument_of_part (hperm.mem_iff.mp hn)
  · exact (hperm.map _).mem_iff.mpr (mem_ids_part.mpr ⟨n, hn, rfl⟩)
  · exact chain_ends hp placed cur steps
  · intro head k a b hhead hfirst ha hb hnext hprevious honly
    have hstored : (s.part doc).nodes.get? a.id = some a := by
      cases k with
      | zero =>
          cases ha
          exact mem_part.mp hhead
      | succ k =>
          obtain ⟨x, _, hstep⟩ := Option.bind_eq_some_iff.mp ha
          exact hp.stored_of_target hstep
    refine chunksOf_adjacent hhead hfirst ha ⟨?_, ?_, fun c hc hcb => ?_⟩
    · exact target_eq_some.mpr ⟨b.id, hnext, mem_part.mp hb⟩
    · exact target_eq_some.mpr ⟨a.id, hprevious, hstored⟩
    · obtain ⟨i, hi, hib⟩ := target_eq_some.mp hcb
      exact honly c (mem_part.mpr hc) ((hp i b hib) ▸ hi)

/-- A node of the document `d`. -/
def strand (id : String) (previous next : Option String) : Node :=
  let n : Node := { id, text := "", document := some "d" }
  let n := previous.elim n (n.setLink .previous)
  next.elim n (n.setLink .next)

/-- Two heads lead to the same node, the chain leaves the document, and two nodes go in a circle. -/
def woven : NodeStore := [
  strand "a" none (some "m"),
  strand "b" (some "gone") (some "m"),
  strand "m" (some "a") (some "n"),
  strand "n" (some "m") (some "z"),
  strand "p" (some "q") (some "q"),
  strand "q" (some "p") (some "p"),
  { strand "z" none (some "b") with document := some "e" }].foldl NodeStore.put {}

/-- The first head takes the shared chain along; the second head and the circle follow. -/
theorem chunks_follow_answered_links_woven : woven.Keyed ∧
    (woven.part "d").along Node.next? (strand "a" none (some "m")) 1 =
      some (strand "m" (some "a") (some "n")) ∧
    (woven.chunksOf "d").map (·.id) = ["a", "m", "n", "b", "p", "q"] ∧
    (woven.chunksOf "d").Perm (woven.ofDocument "d") ∧
    ∃ before after, woven.chunksOf "d" =
      before ++ strand "m" (some "a") (some "n") :: strand "n" (some "m") (some "z") :: after := by
  have hkeyed : woven.Keyed := keyed_empty.foldl_put
  obtain ⟨_, _, _, hperm, _, hfollows⟩ := chunks_follow_answered_links woven "d"
  have halong : (woven.part "d").along Node.next? (strand "a" none (some "m")) 1 =
      some (strand "m" (some "a") (some "n")) := by decide +kernel
  refine ⟨hkeyed, halong, by decide +kernel, hperm hkeyed, ?_⟩
  refine hfollows (strand "a" none (some "m")) 1 _ _ (by decide +kernel) (by decide +kernel) halong
    (by decide +kernel) (by decide +kernel) (by decide +kernel) ?_
  decide +kernel

end CorpusIndex.NodeStore
