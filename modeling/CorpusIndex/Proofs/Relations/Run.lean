import CorpusIndex.Proofs.FirstOccurrences
import CorpusIndex.Proofs.Relations.Records

/-!
# Facts along a run

A graph starts empty, and is changed by stating facts, filing nodes and deleting documents, in any order.
What it lists is then always between keywords that file some node. A fact stays as long as a node it was
stated for does: deletions of other documents leave that node under both of its keywords.
-/
namespace CorpusIndex.RelationGraph

variable {g : RelationGraph} {documents : String → Option String} {t : Triplet} {n id doc k : String}
  {store : NodeStore}

/-- A call that changes a graph. -/
inductive Edit where
  | upsert (t : Triplet) (node : String)
  | add (keywords : List String) (node : String)
  | delete (doc : String) (store : NodeStore)

/-- The graph after a call; one that fails leaves it as it is. -/
def edited (g : RelationGraph) : Edit → RelationGraph
  | .upsert t node => g.upsert t node
  | .add keywords node => g.add keywords node
  | .delete doc store => ((g.deleteDocument doc store).toOption.map (·.1)).getD g

/-- Deletions look nodes up in a store that holds all of the graph's, each with its document. -/
def Edit.Admitted (documents : String → Option String) (g : RelationGraph) : Edit → Prop
  | .delete _ store => ∀ id ∈ g.nodeIds, ∃ n, store.nodes.get? id = some n ∧ n.document = documents id
  | _ => True

/-- The call does not delete the document of the node. -/
def Edit.Spares (documents : String → Option String) (node : String) : Edit → Prop
  | .delete doc _ => documents node ≠ some doc
  | _ => True

/-- The calls on a graph so far, and the graph they have led to. -/
inductive Run (documents : String → Option String) (id : String) : List Edit → RelationGraph → Prop
  | new : Run documents id [] { id }
  | edit {es : List Edit} {g : RelationGraph} {e : Edit} :
      Run documents id es g → e.Admitted documents g → Run documents id (es ++ [e]) (g.edited e)

/-- What the graph itself files and lists is its record. -/
def Sound (g : RelationGraph) : Prop := g.Records (fun k i => i ∈ g.table.getD k ∅) g.Lists

theorem Records.sound {R : String → String → Prop} {F : Triplet → Prop} (h : g.Records R F) : g.Sound :=
  h.congr (fun k i => (h.table.filed k i).symm) fun t => (h.listed t).symm

/-- The fact is listed, and the node is filed under its subject and its object. -/
structure Backs (g : RelationGraph) (t : Triplet) (node : String) : Prop where
  listed : g.Lists t
  subject : node ∈ g.table.getD t.subject ∅
  object : node ∈ g.table.getD t.object ∅

theorem Records.backs {R : String → String → Prop} {F : Triplet → Prop} (h : g.Records R F) (hF : F t)
    (hs : R t.subject n) (ho : R t.object n) : g.Backs t n :=
  ⟨(h.listed t).mpr hF, (h.table.filed _ _).mpr hs, (h.table.filed _ _).mpr ho⟩

/-! ### One call -/

/-- A deletion over a store of all nodes takes out those of the document. -/
theorem edited_delete (h : Edit.Admitted documents g (.delete doc store)) :
    g.edited (.delete doc store) = g.leaving (store.owns doc) := by
  have hres : (Index.relations g).Resolves store := by
    intro id hid
    obtain ⟨n, hn, _⟩ := h id hid
    exact NodeStore.contains_iff.mpr ⟨n, hn⟩
  have hleaves : ((Index.relations g).deleteDocument doc store).1 = .relations (g.leaving (store.owns doc)) :=
    deleteDocument_leaves hres
  change ((g.deleteDocument doc store).toOption.map (·.1)).getD g = _
  cases hd : g.deleteDocument doc store with
  | error e =>
      simp only [Index.deleteDocument, hd, Index.afterDeletion] at hleaves
      exact Index.relations.inj hleaves
  | ok r =>
      simp only [Index.deleteDocument, hd, Index.afterDeletion] at hleaves
      exact Index.relations.inj hleaves

theorem Sound.edited {e : Edit} (h : g.Sound) (he : e.Admitted documents g) : (g.edited e).Sound := by
  cases e with
  | upsert t node => exact (Records.upsert h t node).sound
  | add keywords node => exact (Records.add h keywords node).sound
  | delete doc store =>
      rw [edited_delete he]
      exact (Records.leaving h _).sound

/-- A node that is not deleted keeps its facts. -/
theorem Backs.edited {e : Edit} (hb : g.Backs t n) (h : g.Sound) (he : e.Admitted documents g)
    (hn : e.Spares documents n) : (g.edited e).Backs t n := by
  cases e with
  | upsert u node => exact (Records.upsert h u node).backs (.inl hb.listed) (.inl hb.subject) (.inl hb.object)
  | add keywords node => exact (Records.add h keywords node).backs hb.listed (.inl hb.subject) (.inl hb.object)
  | delete doc store =>
      have hfiled : n ∈ g.nodeIds :=
        SortedSet.mem_elems.mpr (h.table.mem_nodeIds.mpr ⟨t.subject, hb.subject⟩)
      have hother : store.owns doc n = false := by
        obtain ⟨m, hm, hdoc⟩ := he n hfiled
        rw [NodeStore.owns, hm, Option.any_some, hdoc]
        exact beq_eq_false_iff_ne.mpr hn
      rw [edited_delete he]
      exact (Records.leaving h _).backs
        ⟨hb.listed, ⟨n, hb.subject, hother⟩, n, hb.object, hother⟩ ⟨hb.subject, hother⟩ ⟨hb.object, hother⟩

/-! ### Whole runs -/

namespace Run
variable {es before after : List Edit}

theorem sound (h : Run documents id es g) : g.Sound := by
  induction h with
  | new => exact (Records.empty id).sound
  | edit _ he ih => exact ih.edited he

theorem backs (h : Run documents id es g) (hes : es = before ++ .upsert t n :: after)
    (hafter : ∀ e ∈ after, e.Spares documents n) : g.Backs t n := by
  induction h generalizing after with
  | new => simp at hes
  | @edit es g e hrun he ih =>
      rcases List.eq_nil_or_concat after with rfl | ⟨rest, last, rfl⟩
      · -- the fact is stated by the last call
        obtain ⟨rfl, hlast⟩ := List.append_inj' hes rfl
        cases hlast
        exact (Records.upsert hrun.sound t n).backs (.inr rfl) (.inr ⟨.inl rfl, rfl⟩)
          (.inr ⟨.inr rfl, rfl⟩)
      · rw [List.concat_eq_append, ← List.cons_append, ← List.append_assoc] at hes
        obtain ⟨hbefore, hlast⟩ := List.append_inj' hes rfl
        cases hlast
        exact (ih hbefore fun e he => hafter e (by simp [he])).edited hrun.sound he (hafter e (by simp))

end Run

/-! ### Looking facts up -/

theorem mem_under {t : Postings} {i : String} : i ∈ t.under k ↔ i ∈ t.getD k ∅ := SortedSet.mem_elems

/-- A direct lookup gives, once each, the nodes of the keyword and those of every object it relates to. -/
theorem lookup_of_contains (h : g.table.contains k = true) : ∃ ids, g.lookup k 1 = .ok ids ∧
    ids.Nodup ∧ ∀ i, i ∈ ids ↔ i ∈ g.table.getD k ∅ ∨
      ∃ pair ∈ g.relations.getD k [], i ∈ g.table.getD pair.2 ∅ := by
  refine ⟨_, by rw [lookup, if_pos h]; rfl, eraseDups_nodup _, fun i => ?_⟩
  rw [List.mem_eraseDups, List.flatMap_cons, List.mem_append, mem_under, List.mem_flatMap]
  simp only [List.mem_map, mem_under]
  exact or_congr_right ⟨fun ⟨_, ⟨pair, hp, ho⟩, hi⟩ => ⟨pair, hp, ho ▸ hi⟩,
    fun ⟨pair, hp, hi⟩ => ⟨pair.2, ⟨pair, hp, rfl⟩, hi⟩⟩

/-- All along a run nothing is empty, listed twice or left without nodes. A fact is found from both its
ends as long as a node it was stated for has not been deleted. -/
theorem runs_keep_stated_facts {es : List Edit} (h : Run documents id es g) :
    (∀ s pairs, g.relations.get? s = some pairs → g.table.contains s = true ∧ pairs ≠ [] ∧
      pairs.Nodup ∧ ∀ pair ∈ pairs, g.table.contains pair.2 = true) ∧
    (∀ k ids, g.table.get? k = some ids → ∃ i, i ∈ ids) ∧
    ∀ before t n after, es = before ++ .upsert t n :: after → (∀ e ∈ after, e.Spares documents n) →
      (t.relation, t.object) ∈ g.relations.getD t.subject [] ∧
      (∃ ids, g.lookup t.subject 1 = .ok ids ∧ ids.Nodup ∧ n ∈ ids ∧
        ∀ m ∈ g.table.getD t.object ∅, m ∈ ids) ∧
      ∃ ids, g.lookup t.object 1 = .ok ids ∧ n ∈ ids := by
  have hs := h.sound
  refine ⟨fun s pairs hget => ?_, hs.table.inhabited, fun before t n after hes hafter => ?_⟩
  · have hends (pair : String × String) (hp : pair ∈ pairs) :
        g.table.contains s = true ∧ g.table.contains pair.2 = true := by
      have hl : g.Lists ⟨s, pair.1, pair.2⟩ := by
        rw [Lists, SortedMap.getD_eq, hget]
        exact hp
      exact (hs.named _ hl).imp hs.table.contains_iff.mpr hs.table.contains_iff.mpr
    obtain ⟨pair, hp⟩ := List.exists_mem_of_ne_nil pairs (hs.stated s pairs hget)
    exact ⟨(hends pair hp).1, hs.stated s pairs hget, hs.nodup s pairs hget, fun p hp => (hends p hp).2⟩
  · have hb := h.backs hes hafter
    obtain ⟨ids, hids, hnd, hmem⟩ := lookup_of_contains (hs.table.contains_iff.mpr ⟨n, hb.subject⟩)
    obtain ⟨ids', hids', _, hmem'⟩ := lookup_of_contains (hs.table.contains_iff.mpr ⟨n, hb.object⟩)
    refine ⟨hb.listed, ⟨ids, hids, hnd, (hmem n).mpr (.inl hb.subject), fun m hm => ?_⟩, ids', hids',
      (hmem' n).mpr (.inl hb.object)⟩
    exact (hmem m).mpr (.inr ⟨_, hb.listed, hm⟩)

/-! ### Two people and a language -/

def knows : Triplet := ⟨"alice", "knows", "bob"⟩

/-- Two documents, `A` of `n1` and `n3` and `B` of `n2`. -/
def acquaintances : List Node :=
  [{ id := "n1", text := "alice knows bob", document := some "A" },
    { id := "n2", text := "bob likes rust", document := some "B" },
    { id := "n3", text := "alice", document := some "A" }]

def acquaintanceStore : NodeStore := acquaintances.foldl NodeStore.put {}

def acquaintanceDocuments (id : String) : Option String :=
  (acquaintances.find? (·.id == id)).bind (·.document)

/-- The second deletion finds nothing to delete. -/
def acquaintanceEdits : List Edit :=
  [.upsert knows "n1", .upsert ⟨"bob", "likes", "rust"⟩ "n2", .add ["alice"] "n3",
    .delete "B" acquaintanceStore, .delete "B" acquaintanceStore]

theorem run_acquaintances :
    Run acquaintanceDocuments "kg" acquaintanceEdits (acquaintanceEdits.foldl edited { id := "kg" }) := by
  have hstore (id : String) (hid : id ∈ ["n1", "n2", "n3"]) : ∃ n,
      acquaintanceStore.nodes.get? id = some n ∧ n.document = acquaintanceDocuments id := by
    simp only [List.mem_cons, List.not_mem_nil, or_false] at hid
    rcases hid with rfl | rfl | rfl <;> exact ⟨_, rfl, rfl⟩
  have hids : ∀ es ∈ [acquaintanceEdits.take 3, acquaintanceEdits.take 4],
      ∀ id ∈ (es.foldl edited { id := "kg" }).nodeIds, id ∈ ["n1", "n2", "n3"] := by decide
  have hfirst : Run acquaintanceDocuments "kg" (acquaintanceEdits.take 3)
      ((acquaintanceEdits.take 3).foldl edited { id := "kg" }) :=
    .edit (.edit (.edit (e := .upsert knows "n1") .new trivial)
      (e := .upsert ⟨"bob", "likes", "rust"⟩ "n2") trivial) (e := .add ["alice"] "n3") trivial
  have hsecond : Run acquaintanceDocuments "kg" (acquaintanceEdits.take 4)
      ((acquaintanceEdits.take 4).foldl edited { id := "kg" }) :=
    .edit hfirst fun id hid => hstore id (hids _ (by simp) id hid)
  exact .edit hsecond fun id hid => hstore id (hids _ (by simp) id hid)

/-- Once the other document is gone, the fact is still found from `alice` and from `bob`. -/
theorem runs_keep_stated_facts_acquaintances :
    ∃ g, Run acquaintanceDocuments "kg" acquaintanceEdits g ∧ ("knows", "bob") ∈ g.relations.getD "alice" [] ∧
      ∃ ids, g.lookup "bob" 1 = .ok ids ∧ "n1" ∈ ids := by
  have h := (runs_keep_stated_facts run_acquaintances).2.2 [] knows "n1" (acquaintanceEdits.drop 1) rfl ?_
  · exact ⟨_, run_acquaintances, h.1, h.2.2⟩
  · intro e he
    simp only [acquaintanceEdits, List.drop_succ_cons, List.drop_zero, List.mem_cons, List.not_mem_nil,
      or_false] at he
    rcases he with rfl | rfl | rfl | rfl
    · trivial
    · trivial
    · change acquaintanceDocuments "n1" ≠ some "B"
      decide
    · change acquaintanceDocuments "n1" ≠ some "B"
      decide

end CorpusIndex.RelationGraph
