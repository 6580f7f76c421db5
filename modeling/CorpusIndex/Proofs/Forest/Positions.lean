import CorpusIndex.Proofs.Forest.Ancestry

/-!
# Running out of positions

A forest gives a new node the position after the greatest one in use, and a caller may put that one at the
very end of the range. `unused` counts the positions after it. An insertion that leaves its positions to the
forest takes free ones or is refused with nothing changed, unless it asks for more positions than are unused;
a row of new nodes then stands in the forest as far as there were positions for it.
-/
namespace CorpusIndex.Forest

/-- Positions after the greatest one in use, up to the end of the range. -/
def unused (f : Forest) : Nat :=
  match f.nodes.lastKey? with
  | none => Decimal.maxWord + 1
  | some last => Decimal.maxWord - last

/-- An insertion that leaves the positions of its new nodes to the forest. -/
inductive Request where
  | insert (id : String) (children : List String)
  | insertUnder (id : String) (parent : Option String)
  | insertManyUnder (ids : List String) (parent : Option String)
  | insertBetween (id : String) (parent : Option String) (children : List String)

namespace Request

/-- The new nodes. -/
def ids : Request → List String
  | .insert id _ => [id]
  | .insertUnder id _ => [id]
  | .insertManyUnder ids _ => ids
  | .insertBetween id _ _ => [id]

/-- The forest and the position taken, or the old forest and the reason there is none. -/
def settle (f : Forest) : Except Failure (Forest × Nat) → Forest × Except Failure (List Nat)
  | .ok (g, p) => (g, .ok [p])
  | .error e => (f, .error e)

/-- The forest that is left, and the positions taken. -/
def run (f : Forest) : Request → Forest × Except Failure (List Nat)
  | .insert id children => settle f (f.insert id none children)
  | .insertUnder id parent => settle f (f.insertUnder id parent none)
  | .insertManyUnder ids parent => f.insertManyUnder ids parent
  | .insertBetween id parent children => settle f (f.insertBetween id parent children)

/-- What is checked before a position is looked for: nothing but for a row of nodes, which have to be new,
and their parent there. -/
def Admitted (f : Forest) : Request → Prop
  | .insertManyUnder ids parent =>
    (∀ a, parent = some a → f.contains a = true) ∧ ids.Nodup ∧ ∀ id ∈ ids, f.contains id = false
  | _ => True

end Request

variable {f g : Forest} {r : Request} {id : String} {parent : Option String} {adopted : SortedSet Nat} {cs ids : List String}
  {ps : List Nat} {p q : Nat} {e : Failure}

/-! ### The next position -/

theorem nextPosition_of_unused (h : 0 < f.unused) :
    f.nextPosition = .ok (Decimal.maxWord + 1 - f.unused) := by
  unfold unused at h ⊢
  unfold nextPosition
  cases hlast : f.nodes.lastKey? with
  | none => simp
  | some last =>
      simp only [hlast] at h ⊢
      rw [if_pos (by omega)]
      congr 1
      omega

theorem nextPosition_of_none_unused (h : f.unused = 0) : f.nextPosition = .error .positionsExhausted := by
  unfold unused at h
  unfold nextPosition
  cases hlast : f.nodes.lastKey? with
  | none => simp [hlast] at h
  | some last =>
      simp only [hlast] at h ⊢
      rw [if_neg (by omega)]

theorem unused_pos (h : f.nextPosition = .ok p) : 0 < f.unused := by
  by_contra hnone
  rw [nextPosition_of_none_unused (Nat.eq_zero_of_not_pos hnone)] at h
  cases h

theorem nextPosition_eq (h : f.nextPosition = .ok p) : p = Decimal.maxWord + 1 - f.unused := by
  rw [nextPosition_of_unused (unused_pos h)] at h
  exact (Except.ok.inj h).symm

/-- A node at the next position leaves one position fewer. -/
theorem unused_graft (id : String) (parent : Option String) (adopted : SortedSet Nat)
    (hp : f.nextPosition = .ok p) : (f.graft id parent adopted p).unused + 1 = f.unused := by
  have hpos := unused_pos hp
  have heq := nextPosition_eq hp
  have hle : f.unused ≤ Decimal.maxWord + 1 := by
    unfold unused
    split <;> omega
  simp only [unused, lastKey?_graft hp]
  change Decimal.maxWord - p + 1 = f.unused
  omega

/-- The next positions, `n` of them. -/
def nextPositions (f : Forest) (n : Nat) : List Nat := List.range' (Decimal.maxWord + 1 - f.unused) n

/-- What an insertion leaves and answers. It takes the next positions, which are free, as long as there are as
many as it has new nodes, and keeps every node where it was. Where it is refused it changes nothing. Where
positions run out, the new nodes that there were positions for have entered. -/
structure Takes (f : Forest) (r : Request) (g : Forest) (answer : Except Failure (List Nat)) : Prop where
  taken : ∀ ps, answer = .ok ps →
    ps = f.nextPositions r.ids.length ∧ r.ids.length ≤ f.unused ∧ f.Grows g (ps.zip r.ids)
  refused : ∀ e, answer = .error e → e ≠ .positionsExhausted → g = f
  exhausted_iff : answer = .error .positionsExhausted ↔ r.Admitted f ∧ f.unused < r.ids.length
  begun : answer = .error .positionsExhausted →
    f.Grows g ((f.nextPositions f.unused).zip (r.ids.take f.unused)) ∧ (g = f ↔ f.unused = 0)

theorem Takes.take (hfits : r.ids.length ≤ f.unused)
    (hgrows : f.Grows g ((f.nextPositions r.ids.length).zip r.ids)) :
    f.Takes r g (.ok (f.nextPositions r.ids.length)) where
  taken _ h := by
    cases h
    exact ⟨rfl, hfits, hgrows⟩
  refused _ h := by cases h
  exhausted_iff := iff_of_false (fun h => by cases h) fun h => Nat.not_lt_of_le hfits h.2
  begun h := by cases h

theorem Takes.refuse (hrefused : e ≠ .positionsExhausted) (hnot : ¬ (r.Admitted f ∧ f.unused < r.ids.length)) :
    f.Takes r f (.error e) where
  taken _ h := by cases h
  refused _ _ _ := rfl
  exhausted_iff := iff_of_false (fun h => hrefused (Except.error.inj h)) hnot
  begun h := (hrefused (Except.error.inj h)).elim

theorem Takes.exhaust (hmore : r.Admitted f ∧ f.unused < r.ids.length)
    (hgrows : f.Grows g ((f.nextPositions f.unused).zip (r.ids.take f.unused))) (hsame : g = f ↔ f.unused = 0) :
    f.Takes r g (.error .positionsExhausted) where
  taken _ h := by cases h
  refused _ h hne := (hne (Except.error.inj h).symm).elim
  exhausted_iff := iff_of_true rfl hmore
  begun _ := ⟨hgrows, hsame⟩

/-! ### What the checks answer -/

theorem position_refuses : f.position id ≠ .error .positionsExhausted := by
  unfold position
  split <;> simp

theorem checkFree_refuses : f.checkFree id p ≠ .error .positionsExhausted := by
  unfold checkFree
  split
  · simp
  · split <;> simp

theorem checkParent_refuses : f.checkParent parent ≠ .error .positionsExhausted := by
  unfold checkParent
  split
  · simp
  · split <;> simp

theorem checkNew_refuses {seen : List String} : f.checkNew seen ids ≠ .error .positionsExhausted := by
  induction ids generalizing seen with
  | nil => simp [checkNew]
  | cons id ids ih =>
      unfold checkNew
      split
      · simp
      · exact ih

theorem adoptRoots_refuses {taken : SortedSet Nat} : f.adoptRoots taken cs ≠ .error .positionsExhausted := by
  induction cs generalizing taken with
  | nil => simp [adoptRoots]
  | cons c cs ih =>
      unfold adoptRoots
      intro h
      rcases bind_eq_error.mp h with h | ⟨p, _, h⟩
      · exact position_refuses h
      · split at h
        · simp at h
        · split at h
          · simp at h
          · exact ih h

theorem childPositions_refuses : f.childPositions parent ≠ .error .positionsExhausted := by
  cases parent with
  | none => simp [childPositions]
  | some a =>
      intro h
      rcases bind_eq_error.mp h with h | ⟨p, _, h⟩
      · exact position_refuses h
      · cases h

theorem adoptFrom_refuses {taken siblings : SortedSet Nat} :
    f.adoptFrom parent siblings taken cs ≠ .error .positionsExhausted := by
  induction cs generalizing taken with
  | nil => simp [adoptFrom]
  | cons c cs ih =>
      unfold adoptFrom
      intro h
      rcases bind_eq_error.mp h with h | ⟨p, _, h⟩
      · exact position_refuses h
      · split at h
        · exact ih h
        · simp at h

/-! ### One new node -/

/-- A request for one position looks for it before anything else. -/
theorem settle_takes (w : f.WellFormed) (r : Request) (hids : r.ids = [id]) (hadmitted : r.Admitted f)
    {x : Except Failure (Forest × Nat)} {k : Nat → Except Failure (Forest × Nat)}
    (hx : x = f.nextPosition >>= k) (hk : ∀ p, k p ≠ .error .positionsExhausted)
    (hok : ∀ g p, x = .ok (g, p) → f.nextPosition = .ok p ∧ f.Grows g [(p, id)]) :
    f.Takes r (Request.settle f x).1 (Request.settle f x).2 := by
  rcases Nat.eq_zero_or_pos f.unused with hnone | hpos
  · rw [nextPosition_of_none_unused hnone] at hx
    rw [hx]
    refine Takes.exhaust ⟨hadmitted, ?_⟩ ?_ (iff_of_true rfl hnone)
    · rw [hids, hnone, List.length_singleton]
      exact Nat.one_pos
    · rw [hnone]
      exact (Placed.nil w none).toGrows
  · have hlength : ¬ f.unused < r.ids.length := by
      rw [hids, List.length_singleton]
      omega
    cases h : x with
    | ok gp =>
        obtain ⟨hp, hgrows⟩ := hok gp.1 gp.2 h
        have hnext : f.nextPositions r.ids.length = [gp.2] := by
          rw [hids, nextPositions, ← nextPosition_eq hp]
          rfl
        change f.Takes r gp.1 (.ok [gp.2])
        rw [← hnext]
        refine Takes.take (Nat.le_of_not_lt hlength) ?_
        rw [hnext, hids]
        exact hgrows
    | error e =>
        have hrefused : e ≠ .positionsExhausted := by
          rintro rfl
          rw [h, nextPosition_of_unused hpos] at hx
          exact hk _ hx.symm
        exact Takes.refuse hrefused fun hlt => hlength hlt.2

/-! ### A row of new nodes -/

theorem attachAll_cons (hp : f.nextPosition = .ok p) : attachAll parent f (id :: ids) =
    ((attachAll parent (f.graft id parent ∅ p) ids).1,
      (p :: ·) <$> (attachAll parent (f.graft id parent ∅ p) ids).2) := by
  rw [attachAll]
  simp only [hp, attach_eq_graft]

/-- As many nodes as there are positions enter. -/
theorem attachAll_fits (parent : Option String) (h : ids.length ≤ f.unused) :
    ∃ ps, (attachAll parent f ids).2 = .ok ps := by
  induction ids generalizing f with
  | nil => exact ⟨[], rfl⟩
  | cons id ids ih =>
      rw [List.length_cons] at h
      have hp := nextPosition_of_unused (Nat.zero_lt_of_lt h)
      have hrest := unused_graft id parent ∅ hp
      have hfits : ids.length ≤ (f.graft id parent ∅ (Decimal.maxWord + 1 - f.unused)).unused := by omega
      obtain ⟨ps, hps⟩ := ih hfits
      rw [attachAll_cons hp, hps]
      exact ⟨_ :: ps, rfl⟩

/-- Of more nodes than there are positions, the first ones enter. -/
theorem attachAll_exhausted (parent : Option String) (h : f.unused < ids.length) :
    (attachAll parent f ids).2 = .error .positionsExhausted ∧
      (attachAll parent f ids).1 = (attachAll parent f (ids.take f.unused)).1 := by
  induction ids generalizing f with
  | nil => cases h
  | cons id ids ih =>
      rcases Nat.eq_zero_or_pos f.unused with hnone | hpos
      · rw [attachAll, nextPosition_of_none_unused hnone, hnone]
        exact ⟨rfl, rfl⟩
      · have hp := nextPosition_of_unused hpos
        have hrest := unused_graft id parent ∅ hp
        rw [List.length_cons] at h
        have hmore : (f.graft id parent ∅ (Decimal.maxWord + 1 - f.unused)).unused < ids.length := by omega
        obtain ⟨hanswer, hleft⟩ := ih hmore
        rw [← hrest, List.take_succ_cons, attachAll_cons hp, attachAll_cons hp, hanswer, hleft]
        exact ⟨rfl, rfl⟩

theorem checkNew_of_new {seen : List String} (hnd : ids.Nodup)
    (hnew : ∀ id ∈ ids, id ∉ seen ∧ f.contains id = false) : f.checkNew seen ids = .ok () := by
  induction ids generalizing seen with
  | nil => rfl
  | cons id ids ih =>
      obtain ⟨hid, hnd⟩ := List.nodup_cons.mp hnd
      obtain ⟨hseen, hcontains⟩ := hnew id List.mem_cons_self
      rw [checkNew, if_neg (by simp [hseen, hcontains])]
      refine ih hnd fun x hx => ⟨?_, (hnew x (List.mem_cons_of_mem id hx)).2⟩
      rw [List.mem_cons, not_or]
      exact ⟨fun he => hid (he ▸ hx), (hnew x (List.mem_cons_of_mem id hx)).1⟩

/-- A row that passes its checks is attached. -/
theorem insertManyUnder_of_admitted (h : (Request.insertManyUnder ids parent).Admitted f) :
    f.insertManyUnder ids parent = attachAll parent f ids := by
  obtain ⟨hpar, hnd, hnew⟩ := h
  have hcheck := checkNew_of_new hnd fun id hid => ⟨List.not_mem_nil (a := id), hnew id hid⟩
  simp only [insertManyUnder, checkParent_eq_ok.mpr hpar, ok_bind, hcheck]

theorem insertManyUnder_of_not_admitted (h : ¬ (Request.insertManyUnder ids parent).Admitted f) :
    ∃ e, e ≠ .positionsExhausted ∧ f.insertManyUnder ids parent = (f, .error e) := by
  unfold insertManyUnder
  cases hcheck : (f.checkParent parent >>= fun _ => f.checkNew [] ids) with
  | ok u =>
      obtain ⟨_, hpar, hids⟩ := bind_eq_ok.mp hcheck
      obtain ⟨hnd, hnew⟩ := checkNew_eq_ok hids
      exact (h ⟨checkParent_eq_ok.mp hpar, hnd, fun id hid => (hnew id hid).2⟩).elim
  | error e =>
      refine ⟨e, ?_, rfl⟩
      rintro rfl
      rcases bind_eq_error.mp hcheck with hpar | ⟨_, _, hids⟩
      · exact checkParent_refuses hpar
      · exact checkNew_refuses hids

/-- As far as there are positions, a row of new nodes enters at the next ones. -/
theorem attachAll_grows (w : f.WellFormed) (h : (Request.insertManyUnder ids parent).Admitted f)
    (hfits : ids.length ≤ f.unused) :
    (attachAll parent f ids).2 = .ok (f.nextPositions ids.length) ∧
      f.Grows (attachAll parent f ids).1 ((f.nextPositions ids.length).zip ids) := by
  obtain ⟨hpar, hnd, hnew⟩ := h
  obtain ⟨ps, hps⟩ := attachAll_fits parent hfits
  obtain ⟨hplaced, hrow⟩ := attachAll_placed w hpar hnd hnew (Prod.ext rfl hps)
  have hnext : ps = f.nextPositions ids.length := by
    rcases hrow with ⟨rfl, rfl⟩ | ⟨p, hp, rfl⟩
    · rfl
    · rw [nextPositions, nextPosition_eq hp]
  rw [hnext] at hps hplaced
  exact ⟨hps, hplaced.toGrows⟩

/-- A forest that has grown is another one. -/
theorem Grows.ne {added : List (Nat × String)} (hg : f.Grows g added) (hadded : added ≠ []) : g ≠ f := by
  rintro rfl
  obtain ⟨e, he⟩ := List.exists_mem_of_ne_nil added hadded
  cases (hg.free e he).symm.trans ((hg.nodes e.1 e.2).mpr (.inl he))

theorem insertManyUnder_takes (w : f.WellFormed) (ids : List String) (parent : Option String) :
    f.Takes (.insertManyUnder ids parent) (f.insertManyUnder ids parent).1
      (f.insertManyUnder ids parent).2 := by
  by_cases hadmitted : (Request.insertManyUnder ids parent).Admitted f
  · rw [insertManyUnder_of_admitted hadmitted]
    rcases Nat.lt_or_ge f.unused ids.length with hmore | hfits
    · obtain ⟨hanswer, hleft⟩ := attachAll_exhausted parent hmore
      have hlength : (ids.take f.unused).length = f.unused := by
        rw [List.length_take]
        omega
      have hfirst : (Request.insertManyUnder (ids.take f.unused) parent).Admitted f :=
        ⟨hadmitted.1, hadmitted.2.1.sublist (List.take_sublist _ _),
          fun id hid => hadmitted.2.2 id (List.mem_of_mem_take hid)⟩
      have hgrows := (attachAll_grows w hfirst (Nat.le_of_eq hlength)).2
      rw [hlength, ← hleft] at hgrows
      rw [hanswer]
      refine Takes.exhaust ⟨hadmitted, hmore⟩ hgrows ⟨fun hsame => ?_, fun hnone => ?_⟩
      · by_contra hpos
        refine hgrows.ne (fun hnil => ?_) hsame
        have hnone := congrArg List.length hnil
        simp only [nextPositions, List.length_zip, List.length_range', hlength, List.length_nil] at hnone
        omega
      · rw [hleft, hnone]
        rfl
    · obtain ⟨hanswer, hgrows⟩ := attachAll_grows w hadmitted hfits
      rw [hanswer]
      exact Takes.take hfits hgrows
  · obtain ⟨e, hrefused, hrun⟩ := insertManyUnder_of_not_admitted hadmitted
    rw [hrun]
    exact Takes.refuse hrefused fun hlt => hadmitted hlt.1

/-! ### Requests -/

/-- In every forest that edits have made, wherever they put its nodes: an insertion without positions takes
free ones and keeps every node where it was, or is refused and changes nothing, as long as there are positions
for its new nodes after the greatest one in use. Exactly where there are too few, and nothing that is checked
before refuses it, positions run out; a row has then entered in part unless there was no position at all. -/
theorem requests_take_free_positions (hf : f.Built) (r : Request) : f.Takes r (r.run f).1 (r.run f).2 := by
  have w := hf.wellFormed
  cases r with
  | insert id children =>
      refine settle_takes w (.insert id children) rfl trivial rfl (fun p h => ?_) fun g p h => ?_
      · rcases bind_eq_error.mp h with h | ⟨_, _, h⟩
        · exact checkFree_refuses h
        · rcases bind_eq_error.mp h with h | ⟨_, _, h⟩
          · exact adoptRoots_refuses h
          · cases h
      · obtain ⟨_, hp, _⟩ := insert_eq_ok w.toWired h
        exact ⟨hp, (w.insert_placed h).toGrows⟩
  | insertUnder id parent =>
      refine settle_takes w (.insertUnder id parent) rfl trivial rfl (fun p h => ?_) fun g p h => ?_
      · rcases bind_eq_error.mp h with h | ⟨_, _, h⟩
        · exact checkFree_refuses h
        · rcases bind_eq_error.mp h with h | ⟨_, _, h⟩
          · exact checkParent_refuses h
          · cases h
      · exact ⟨(insertUnder_eq_ok h).1, (w.insertUnder_placed h).toGrows⟩
  | insertManyUnder ids parent => exact insertManyUnder_takes w ids parent
  | insertBetween id parent children =>
      refine settle_takes w (.insertBetween id parent children) rfl trivial rfl (fun p h => ?_) fun g p h => ?_
      · rcases bind_eq_error.mp h with h | ⟨_, _, h⟩
        · exact checkFree_refuses h
        · rcases bind_eq_error.mp h with h | ⟨_, _, h⟩
          · exact childPositions_refuses h
          · rcases bind_eq_error.mp h with h | ⟨_, _, h⟩
            · exact adoptFrom_refuses h
            · cases h
      · obtain ⟨_, hp, _⟩ := insertBetween_eq_ok w.toWired h
        exact ⟨hp, (w.insertBetween_placed h).toGrows⟩

/-- A root with a child, and a root at the last position but one. -/
def nearlyFull : Forest :=
  after { id := "t" } [.insertUnder "r" none none, .insertUnder "a" (some "r") none,
    .insertUnder "x" none (some (Decimal.maxWord - 1))]

/-- One more node finds a position in `nearlyFull`; of two, the first one does. -/
theorem requests_take_free_positions_nearlyFull : nearlyFull.Built ∧ nearlyFull.unused = 1 ∧
    ((Request.insertBetween "n" (some "r") ["a"]).run nearlyFull).2 = .ok [Decimal.maxWord] ∧
    nearlyFull.Grows ((Request.insertBetween "n" (some "r") ["a"]).run nearlyFull).1
      [(Decimal.maxWord, "n")] ∧
    ((Request.insertManyUnder ["n", "m"] (some "r")).run nearlyFull).2 = .error .positionsExhausted ∧
    nearlyFull.Grows ((Request.insertManyUnder ["n", "m"] (some "r")).run nearlyFull).1
      [(Decimal.maxWord, "n")] := by
  have hbuilt : nearlyFull.Built := ⟨"t", none, _, rfl⟩
  have hone := requests_take_free_positions hbuilt (.insertBetween "n" (some "r") ["a"])
  have htwo := requests_take_free_positions hbuilt (.insertManyUnder ["n", "m"] (some "r"))
  have htaken : ((Request.insertBetween "n" (some "r") ["a"]).run nearlyFull).2 = .ok [Decimal.maxWord] := by
    decide +kernel
  have hout : ((Request.insertManyUnder ["n", "m"] (some "r")).run nearlyFull).2 =
      .error .positionsExhausted := by decide +kernel
  exact ⟨hbuilt, by decide +kernel, htaken, (hone.taken _ htaken).2.2, hout, (htwo.begun hout).1⟩

/-- With the last position taken, one new node runs out of positions, although all others are free; and a row
of two that finds one position leaves its first node in the forest. -/
theorem requests_run_out_of_positions :
    ((Request.insertUnder "b" none).run
      (after { id := "t" } [.insertUnder "a" none (some Decimal.maxWord)])).2 = .error .positionsExhausted ∧
    (after { id := "t" } [.insertUnder "a" none (some Decimal.maxWord)]).nodes.get? 0 = none ∧
    ((Request.insertManyUnder ["n", "m"] none).run nearlyFull).2 = .error .positionsExhausted ∧
    ((Request.insertManyUnder ["n", "m"] none).run nearlyFull).1 ≠ nearlyFull := by
  decide +kernel

end CorpusIndex.Forest
