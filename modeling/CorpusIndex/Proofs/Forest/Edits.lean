import CorpusIndex.Proofs.Forest.Insertion
import CorpusIndex.Proofs.Forest.Removal
import CorpusIndex.Proofs.Forest.Validation

/-!
# Forests under edits

An edit is one insertion or deletion with any arguments. A step lemma says that an edit keeps a forest
well formed and changes nothing where it fails; every run of edits from the empty forest follows by
induction.
-/
namespace CorpusIndex.Forest

/-- One change asked of a forest. -/
inductive Edit where
  | insert (id : String) (at? : Option Nat) (children : List String)
  | insertUnder (id : String) (parent : Option String) (at? : Option Nat)
  | insertManyUnder (ids : List String) (parent : Option String)
  | insertBetween (id : String) (parent : Option String) (children : List String)
  | deleteDocument (doc : String) (store : NodeStore)

/-- The new forest, or the old one with the reason there is none. -/
def orKeep {α : Type} (f : Forest) : Except Failure (Forest × α) → Forest × Except Failure Unit
  | .ok (g, _) => (g, .ok ())
  | .error e => (f, .error e)

/-- The forest an edit leaves, and whether the edit succeeded. -/
def Edit.run (f : Forest) : Edit → Forest × Except Failure Unit
  | .insert id at? children => f.orKeep (f.insert id at? children)
  | .insertUnder id parent at? => f.orKeep (f.insertUnder id parent at?)
  | .insertManyUnder ids parent =>
    let (g, r) := f.insertManyUnder ids parent
    (g, (fun _ => ()) <$> r)
  | .insertBetween id parent children => f.orKeep (f.insertBetween id parent children)
  | .deleteDocument doc store =>
    let (g, r) := f.deleteDocument doc store
    (g, (fun _ => ()) <$> r)

/-- The forest after edits one after another, those that fail included. -/
def after (f : Forest) (edits : List Edit) : Forest := edits.foldl (fun f e => (e.run f).1) f

variable {f g : Forest}

/-- An insertion that performs a graft where it succeeds. -/
theorem wellFormed_orKeep {α : Type} (w : f.WellFormed) (x : Except Failure (Forest × α))
    (h : ∀ g a, x = .ok (g, a) → g.WellFormed) :
    (f.orKeep x).1.WellFormed ∧ ∀ err, (f.orKeep x).2 = .error err → (f.orKeep x).1 = f := by
  cases x with
  | ok r => exact ⟨h r.1 r.2 rfl, fun _ he => by cases he⟩
  | error e => exact ⟨w, fun _ _ => rfl⟩

/-- An edit keeps a forest well formed. One that fails leaves it as it was, unless a row of new nodes
ran up to the greatest word. -/
theorem WellFormed.run (w : f.WellFormed) (e : Edit) :
    (e.run f).1.WellFormed ∧
      ∀ err, (e.run f).2 = .error err → (e.run f).1.HasRoom → (e.run f).1 = f := by
  cases e with
  | insert id at? children =>
      have h := wellFormed_orKeep w (f.insert id at? children) fun g p hg => by
        obtain ⟨below, _, hgraft, rfl, _⟩ := insert_eq_ok w.toWired hg
        exact hgraft.wellFormed_graft w
      exact ⟨h.1, fun err he _ => h.2 err he⟩
  | insertUnder id parent at? =>
      have h := wellFormed_orKeep w (f.insertUnder id parent at?) fun g p hg => by
        obtain ⟨_, hgraft, rfl⟩ := insertUnder_eq_ok hg
        exact hgraft.wellFormed_graft w
      exact ⟨h.1, fun err he _ => h.2 err he⟩
  | insertManyUnder ids parent =>
      obtain ⟨hw, hkeep⟩ := wellFormed_insertManyUnder w ids parent
      exact ⟨hw, fun err he room => hkeep err (map_eq_error.mp he) room⟩
  | insertBetween id parent children =>
      have h := wellFormed_orKeep w (f.insertBetween id parent children)
        fun g p hg => by
          obtain ⟨below, _, hgraft, rfl, _⟩ := insertBetween_eq_ok w.toWired hg
          exact hgraft.wellFormed_graft w
      exact ⟨h.1, fun err he _ => h.2 err he⟩
  | deleteDocument doc store =>
      rcases w.deleteDocument_without doc store with ⟨e, hd⟩ | ⟨g, ids, hd, hg, _⟩
      · have hfix : ((Edit.deleteDocument doc store).run f).1 = f := by rw [Edit.run, hd]
        exact ⟨hfix.symm ▸ w, fun _ _ _ => hfix⟩
      · simp only [Edit.run, hd]
        exact ⟨hg.wellFormed, fun _ he => by cases he⟩

theorem wellFormed_after (w : f.WellFormed) (edits : List Edit) : (f.after edits).WellFormed := by
  induction edits generalizing f with
  | nil => exact w
  | cons e edits ih => exact ih (w.run e).1

/-- A forest made by edits from an empty one, with or without a summary. -/
def Built (f : Forest) : Prop :=
  ∃ tree summary edits, f = after { id := tree, summary } edits

theorem Built.wellFormed (h : f.Built) : f.WellFormed := by
  obtain ⟨tree, summary, edits, rfl⟩ := h
  exact wellFormed_after (wellFormed_empty tree summary) edits

/-- Starting from the empty forest, every run of edits stays well formed and passes the check, and an
edit that fails after it leaves the forest as it was while the greatest word is not in use. -/
theorem edits_keep_wellFormed (tree : String) (edits : List Edit) (e : Edit) :
    (after { id := tree } edits).WellFormed ∧ (after { id := tree } edits).validate = .ok () ∧
      ∀ err, (e.run (after { id := tree } edits)).2 = .error err →
        (e.run (after { id := tree } edits)).1.HasRoom →
          (e.run (after { id := tree } edits)).1 = after { id := tree } edits := by
  have w := wellFormed_after (wellFormed_empty tree none) edits
  exact ⟨w, w.validate, (w.run e).2⟩

/-- A row of new ids that repeats one is refused and leaves the single root there is. -/
theorem edits_keep_wellFormed_refused :
    ((Edit.insertManyUnder ["b", "b"] (some "a")).run
      (after { id := "t" } [.insertUnder "a" none none])).1 =
        after { id := "t" } [.insertUnder "a" none none] := by
  refine (edits_keep_wellFormed "t" [.insertUnder "a" none none]
    (.insertManyUnder ["b", "b"] (some "a"))).2.2 (.repeated (.treeNode "b" "t")) ?_ ?_
  · rfl
  · intro p id hp
    have hall : ∀ e ∈ ((Edit.insertManyUnder ["b", "b"] (some "a")).run
        (after { id := "t" } [.insertUnder "a" none none])).1.nodes.toList, e.1 < Decimal.maxWord := by
      decide
    exact hall (p, id) (SortedMap.get?_eq_some_iff.mp hp)

end CorpusIndex.Forest
