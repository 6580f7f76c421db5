import CorpusIndex.Proofs.Grove.Raising
import CorpusIndex.Proofs.Grove.Run

/-!
# Trees that are extended

A run starts from an empty tree or from one that is built, and goes on with batches of new nodes; what
fails changes nothing. Along the run `given` is what the store was given from outside: the nodes it held at
the start, and every batch. What a build and every insertion keep holds all along (`Extended.lasts`).
-/
namespace CorpusIndex.Forest

variable {t : Terms} {tree : String} {given : NodeStore} {g : Grove}

/-- A tree beside its store, as a builder and an inserter leave them, and the nodes given so far. -/
inductive Extended (t : Terms) (tree : String) : (given : NodeStore) → Grove → Prop
  | empty {store : NodeStore} (keyed : store.Keyed) : Extended t tree store ({ id := tree }, store)
  | built {σ : Type} {s : Summarizer σ} {width : Nat} {leaves : List Node} {store : NodeStore} {st st' : σ}
      {g : Grove} (keyed : store.Keyed) (answers : s.Within t.answers)
      (current : t.current → ∀ n ∈ leaves, store.nodes.get? n.id = some n)
      (run : (build s width tree leaves store).run st = (.ok g, st')) : Extended t tree store g
  | grown {σ : Type} {s : Summarizer σ} {sel : Selector σ} {width : Nat} {batch : List Node} {st st' : σ}
      {given : NodeStore} {g g' : Grove} (before : Extended t tree given g) (answers : s.Within t.answers)
      (decisive : t.decisive → sel.Decisive) (run : (grow s sel width batch g).run st = (.ok g', st')) :
      Extended t tree (batch.foldl NodeStore.put given) g'

/-- A property of what was given, and of forest and store, which a build brings about and every batch
keeps: on entering the store, and on each insertion of a node of it. -/
structure Lasting (t : Terms) (tree : String) (I : NodeStore → Grove → Prop) : Prop where
  built : ∀ {store : NodeStore}, store.Keyed → ∃ J, Builds t store J ∧ J [] [] ({ id := tree }, store) ∧
    ∀ {f : Forest} {store' : NodeStore} {summary : Option String} {level : List String},
      Grounded (f, store') → J level [] (f, store') →
        (∀ id n, store.nodes.get? id = some n → store'.nodes.get? id = some n) →
          I store ({ f with summary }, store')
  entered : ∀ {given : NodeStore} {g : Grove} {batch : List Node}, (batch.map (·.id)).Nodup →
    (∀ n ∈ batch, g.2.contains n.id = false) →
      (∀ id, given.contains id = true → g.2.contains id = true) → Grounded g → I given g →
        I (batch.foldl NodeStore.put given) (g.1, batch.foldl NodeStore.put g.2)
  inserted : ∀ {given : NodeStore} {g g' : Grove} {width : Nat} {id : String}, 2 ≤ width →
    given.contains id = true → (∀ id, given.contains id = true → g.2.contains id = true) →
      Grounded g → I given g → Inserted t width id none g g' → I given g'

theorem Grounded.setSummary {f : Forest} {store : NodeStore} (h : Grounded (f, store))
    (summary : Option String) : Grounded ({ f with summary }, store) :=
  ⟨h.wellFormed.setSummary summary, h.keyed, h.stored⟩

/-- What lasts holds along every run, and so do the facts it may be proved with. -/
theorem Extended.lasts {I : NodeStore → Grove → Prop} (h : Extended t tree given g) (hI : Lasting t tree I) :
    Grounded g ∧ (∀ id, given.contains id = true → g.2.contains id = true) ∧ I given g := by
  induction h with
  | @empty store keyed =>
      obtain ⟨J, _, hstart, hsettle⟩ := hI.built keyed
      have hg : Grounded (({ id := tree } : Forest), store) :=
        ⟨wellFormed_empty tree none, keyed, fun x hx => by cases hx⟩
      exact ⟨hg, fun _ hid => hid, hsettle hg hstart fun _ _ hn => hn⟩
  | @built σ s width leaves store st st' g keyed answers current run =>
      obtain ⟨J, hJ, hstart, hsettle⟩ := hI.built keyed
      obtain ⟨_, store'⟩ := g
      obtain ⟨f, summary, level, rfl, hg, hkept, hstored⟩ :=
        (build_keeps answers hJ keyed hstart current).of_run run
      refine ⟨hg.setSummary summary, fun id hid => ?_, hsettle hg hkept hstored⟩
      obtain ⟨n, hn⟩ := NodeStore.contains_iff.mp hid
      exact NodeStore.contains_iff.mpr ⟨n, hstored id n hn⟩
  | @grown σ s sel width batch st st' given g g' before answers decisive run ih =>
      obtain ⟨hg, hstored, hi⟩ := ih
      obtain ⟨hwidth, hnd, hnew, hfilled⟩ := (grow_fills answers decisive hg).of_run run
      have hentered : Grounded (g.1, batch.foldl NodeStore.put g.2) := hg.putAll batch
      have hbatch (id : String) (hid : (batch.foldl NodeStore.put given).contains id = true) :
          (batch.foldl NodeStore.put g.2).contains id = true := by
        rw [NodeStore.contains_foldl_put hnd] at hid ⊢
        exact hid.imp_right (hstored id)
      -- that the batch is stored is part of what each insertion keeps
      have hkeep := hfilled.keeps (I := fun g => (∀ id,
        (batch.foldl NodeStore.put given).contains id = true → g.2.contains id = true) ∧
          I (batch.foldl NodeStore.put given) g) ?_ hentered
        ⟨hbatch, hI.entered hnd hnew hstored hg hi⟩
      · exact hkeep
      · rintro id hid g g' hg ⟨hstored, hi⟩ hinserted
        have hgiven : (batch.foldl NodeStore.put given).contains id = true :=
          (NodeStore.contains_foldl_put hnd).mpr (.inl hid)
        exact ⟨fun x hx => hinserted.keeps (stable_contains t id x) hg (hstored x hx),
          hI.inserted hwidth hgiven hstored hg hi hinserted⟩

/-! ### Three nodes, and one more -/

/-- The texts one after another. -/
def joining : Summarizer Unit := ⟨fun texts => pure (String.join texts)⟩

/-- The place of the last candidate. -/
def lastPlace : List Node → List (Nat × Option Float32)
  | [] => []
  | _ :: rest => [(rest.length, none)]

/-- The last candidate is followed. -/
def followingLast : Selector Unit := ⟨fun _ candidates _ => pure (lastPlace candidates)⟩

theorem lastPlace_lt {candidates : List Node} {pick : Nat × Option Float32} (h : pick ∈ lastPlace candidates) :
    pick.1 < candidates.length := by
  cases candidates with
  | nil => cases h
  | cons n rest =>
      cases List.mem_singleton.mp h
      exact Nat.lt_succ_self _

theorem decisive_followingLast : followingLast.Decisive := by
  intro _ candidates hne
  cases candidates with
  | nil => exact absurd rfl hne
  | cons n rest => exact Ends.pure ⟨_, rfl, Nat.lt_succ_self _⟩

/-- The three nodes in a store of their own. -/
def threeStored : NodeStore := threeNodes.foldl NodeStore.put {}

def fourthNode : Node := { id := "d", text := "w", document := some "B" }

/-- A tree built above the three nodes, two siblings at most, and then the fourth below its last summary. -/
def lengthened : Except Failure Grove := do
  let g ← ((build joining 2 "t" threeNodes threeStored).run ()).1
  ((grow joining followingLast 2 [fourthNode] g).run ()).1

theorem extended_lengthened (answers : joining.Within t.answers) (h : lengthened = .ok g) :
    Extended t "t" (threeStored.put fourthNode) g := by
  have hstored : ∀ n ∈ threeNodes, threeStored.nodes.get? n.id = some n := by decide
  obtain ⟨g₀, hbuild, hgrow⟩ := bind_eq_ok.mp h
  have hbuilt : Extended t "t" threeStored g₀ :=
    .built (NodeStore.Keyed.foldl_put NodeStore.keyed_empty) answers (fun _ => hstored)
      (Prod.ext hbuild (Subsingleton.elim _ ()))
  exact .grown hbuilt answers (fun _ => decisive_followingLast) (Prod.ext hgrow (Subsingleton.elim _ ()))

end CorpusIndex.Forest
