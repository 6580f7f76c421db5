import CorpusIndex.Proofs.Forest.Graft

/-!
# Insertions are grafts

Each insertion of a forest, where it succeeds, performs one graft, and `insertManyUnder` a row of them.
An insertion of a new node below a node of the forest fails only when positions run out.
-/
namespace CorpusIndex.Forest

/-- The greatest word is not in use as a position. -/
def HasRoom (f : Forest) : Prop := ∀ p id, f.nodes.get? p = some id → p < Decimal.maxWord

variable {f g : Forest} {id c : String} {at? : Option Nat} {parent : Option String} {p q : Nat}
  {cs ids : List String} {taken siblings below : SortedSet Nat}

/-! ### Positions -/

/-- The next position comes after all that are in use. -/
theorem lt_nextPosition (h : f.nextPosition = .ok p) (hq : f.nodes.get? q = some id) : q < p := by
  unfold nextPosition at h
  cases hlast : f.nodes.lastKey? with
  | none => cases hq.symm.trans (SortedMap.lastKey?_eq_none hlast q)
  | some last =>
      simp only [hlast] at h
      split at h
      · cases h
        rcases SortedMap.le_lastKey? hlast hq with rfl | hlt
        · exact Nat.lt_succ_self _
        · exact Nat.lt_succ_of_lt (Nat.compare_eq_lt.mp hlt)
      · cases h

theorem nextPosition_free (h : f.nextPosition = .ok p) : f.nodes.get? p = none := by
  cases hp : f.nodes.get? p with
  | none => rfl
  | some id => exact (Nat.lt_irrefl p (lt_nextPosition h hp)).elim

theorem nextPosition_error {e : Failure} (h : f.nextPosition = .error e) :
    e = .positionsExhausted ∧ ¬ f.HasRoom := by
  unfold nextPosition at h
  cases hlast : f.nodes.lastKey? with
  | none => simp [hlast] at h
  | some last =>
      simp only [hlast] at h
      split at h
      · cases h
      next hge =>
        cases h
        obtain ⟨id, hid⟩ := SortedMap.lastKey?_occupied hlast
        exact ⟨rfl, fun room => hge (room last id hid)⟩

theorem position_eq_ok : f.position id = .ok p ↔ f.positions.get? id = some p := by
  unfold position
  cases f.positions.get? id <;> simp

theorem checkFree_eq_ok : f.checkFree id p = .ok () ↔ f.contains id = false ∧ f.nodes.get? p = none := by
  unfold checkFree
  cases f.contains id
  · cases f.nodes.get? p <;> simp
  · simp

theorem checkParent_eq_ok :
    f.checkParent parent = .ok () ↔ ∀ a, parent = some a → f.contains a = true := by
  cases parent with
  | none => simp [checkParent]
  | some a => simp [checkParent]

/-! ### Below one node -/

/-- To attach a node is a graft that adopts nothing. -/
theorem attach_eq_graft : f.attach id parent p = f.graft id parent ∅ p := by
  have keep {ν : Type} (m : SortedMap Nat ν) :
      m.filter (fun q _ => !(∅ : SortedSet Nat).contains q) = m := by
    refine SortedMap.ext_get? fun q => ?_
    rw [SortedMap.get?_filter]
    cases m.get? q <;> rfl
  cases parent with
  | none =>
      unfold attach graft
      rw [keep]
      rfl
  | some a =>
      unfold attach graft
      simp only [keep, SortedMap.update]
      rfl

/-- A successful insertion below `parent`, or as a root. -/
theorem insertUnder_eq_ok (h : f.insertUnder id parent at? = .ok (g, p)) :
    f.choosePosition at? = .ok p ∧ f.Graftable id parent ∅ p ∧ g = f.graft id parent ∅ p := by
  obtain ⟨p', hp, h⟩ := bind_eq_ok.mp h
  obtain ⟨_, hfree, h⟩ := bind_eq_ok.mp h
  obtain ⟨_, hpar, h⟩ := bind_eq_ok.mp h
  cases pure_eq_ok.mp h
  obtain ⟨hid, hfree⟩ := checkFree_eq_ok.mp hfree
  exact ⟨hp, ⟨hid, hfree, checkParent_eq_ok.mp hpar, by simp⟩, attach_eq_graft⟩

/-- A new node enters below a node that is there unless positions run out. -/
theorem insertUnder_next (hid : f.contains id = false)
    (hpar : ∀ a, parent = some a → f.contains a = true) :
    f.insertUnder id parent none = (do let p ← f.nextPosition; return (f.graft id parent ∅ p, p)) := by
  unfold insertUnder choosePosition
  cases hp : f.nextPosition with
  | error e => rfl
  | ok p =>
      have hfree := checkFree_eq_ok.mpr ⟨hid, nextPosition_free hp⟩
      simp only [bind, Except.bind, hfree, checkParent_eq_ok.mpr hpar, attach_eq_graft]

/-! ### Above roots -/

theorem Wired.parent?_eq_none (w : f.Wired) (hp : f.nodes.get? p = some id) :
    f.parent? id = none ↔ f.IsRoot p := by
  rw [parent?, (w.inverse id p).mpr hp, Option.bind_some, w.parentOf?_eq_none, w.isRoot_iff]
  exact (and_iff_right ⟨id, hp⟩).symm

/-- What is adopted are roots, namely those with the ids asked for. -/
theorem adoptRoots_eq_ok (w : f.Wired) (h : f.adoptRoots taken cs = .ok below) :
    (∀ q, q ∈ below ↔ q ∈ taken ∨ ∃ c ∈ cs, f.nodes.get? q = some c) ∧
      ∀ q ∈ below, q ∈ taken ∨ f.IsRoot q := by
  induction cs generalizing taken with
  | nil =>
      cases h
      simp +contextual
  | cons c cs ih =>
      obtain ⟨p, hp, h⟩ := bind_eq_ok.mp h
      have hnode := (w.inverse c p).mp (position_eq_ok.mp hp)
      split at h
      next => cases h
      next hroot =>
        split at h
        next => cases h
        next =>
          obtain ⟨hmem, hbelow⟩ := ih h
          have hpos (q : Nat) : f.nodes.get? q = some c ↔ q = p :=
            ⟨fun hq => w.position_eq hq hnode, fun hq => hq ▸ hnode⟩
          refine ⟨fun q => ?_, fun q hq => ?_⟩
          · simp only [hmem, SortedSet.mem_add, List.exists_mem_cons_iff, hpos]
            tauto
          · rcases hbelow q hq with hq | hq
            · rcases SortedSet.mem_add.mp hq with rfl | hq
              · exact .inr ((w.parent?_eq_none hnode).mp hroot)
              · exact .inl hq
            · exact .inr hq

/-- Distinct roots are adopted. -/
theorem adoptRoots_of_roots (w : f.Wired) (taken : SortedSet Nat) (hnd : cs.Nodup)
    (hroots : ∀ c ∈ cs, ∃ p, f.nodes.get? p = some c ∧ f.IsRoot p ∧ p ∉ taken) :
    ∃ below, f.adoptRoots taken cs = .ok below := by
  induction cs generalizing taken with
  | nil => exact ⟨taken, rfl⟩
  | cons c cs ih =>
      obtain ⟨p, hp, hroot, hout⟩ := hroots c (by simp)
      obtain ⟨hc, hnd⟩ := List.nodup_cons.mp hnd
      obtain ⟨below, hbelow⟩ := ih (taken.add p) hnd fun d hd => by
        obtain ⟨q, hq, hqroot, hqout⟩ := hroots d (by simp [hd])
        refine ⟨q, hq, hqroot, ?_⟩
        rw [SortedSet.mem_add, not_or]
        refine ⟨?_, hqout⟩
        rintro rfl
        cases hq.symm.trans hp
        exact hc hd
      refine ⟨below, ?_⟩
      have hcontains : taken.contains p = false := by
        simpa [← SortedSet.contains_iff_mem] using hout
      simp only [adoptRoots, position_eq_ok.mpr ((w.inverse c p).mpr hp), bind, Except.bind,
        (w.parent?_eq_none hp).mpr hroot, hcontains]
      exact hbelow

/-- A successful insertion of a root above other roots. -/
theorem insert_eq_ok (w : f.Wired) (h : f.insert id at? cs = .ok (g, p)) :
    ∃ below, f.choosePosition at? = .ok p ∧ f.Graftable id none below p ∧
      g = f.graft id none below p ∧ ∀ q, q ∈ below ↔ ∃ c ∈ cs, f.nodes.get? q = some c := by
  obtain ⟨p', hp, h⟩ := bind_eq_ok.mp h
  obtain ⟨_, hfree, h⟩ := bind_eq_ok.mp h
  obtain ⟨below, hbelow, h⟩ := bind_eq_ok.mp h
  cases pure_eq_ok.mp h
  obtain ⟨hid, hfree⟩ := checkFree_eq_ok.mp hfree
  obtain ⟨hmem, hroots⟩ := adoptRoots_eq_ok w hbelow
  refine ⟨below, hp, ⟨hid, hfree, by simp, fun q hq => ?_⟩, rfl, fun q => ?_⟩
  · exact (hroots q hq).resolve_left (SortedSet.not_mem_empty q)
  · rw [hmem, or_iff_right (SortedSet.not_mem_empty q)]

/-- A new node enters above distinct roots. -/
theorem insert_of_roots (w : f.Wired) (hid : f.contains id = false) (hfree : f.nodes.get? p = none)
    (hnd : cs.Nodup) (hroots : ∀ c ∈ cs, ∃ q, f.nodes.get? q = some c ∧ f.IsRoot q) :
    ∃ g, f.insert id (some p) cs = .ok (g, p) := by
  obtain ⟨below, hbelow⟩ := adoptRoots_of_roots w ∅ hnd fun c hc => by
    obtain ⟨q, hq, hroot⟩ := hroots c hc
    exact ⟨q, hq, hroot, SortedSet.not_mem_empty q⟩
  refine ⟨f.graft id none below p, ?_⟩
  simp only [insert, choosePosition, checkFree_eq_ok.mpr ⟨hid, hfree⟩, hbelow, bind, Except.bind]
  rfl

/-! ### Between a node and some of its children -/

theorem mem_childPositions (h : f.childPositions parent = .ok siblings) :
    (∀ a, parent = some a → f.contains a = true) ∧ ∀ q, q ∈ siblings ↔ f.IsChild parent q := by
  cases parent with
  | none =>
      cases h
      exact ⟨by simp, fun q => by rw [SortedSet.mem_mapValues, IsChild, isRoot_iff_contains]⟩
  | some a =>
      obtain ⟨p, hp, h⟩ := bind_eq_ok.mp h
      cases pure_eq_ok.mp h
      refine ⟨?_, fun q => Iff.rfl⟩
      rintro _ ⟨⟩
      exact SortedMap.contains_iff.mpr ⟨p, position_eq_ok.mp hp⟩

theorem childPositions_of_present (hpar : ∀ a, parent = some a → f.contains a = true) :
    ∃ siblings, f.childPositions parent = .ok siblings := by
  cases parent with
  | none => exact ⟨_, rfl⟩
  | some a =>
      obtain ⟨p, hp⟩ := SortedMap.contains_iff.mp (hpar a rfl)
      refine ⟨f.children.getD a ∅, ?_⟩
      simp only [childPositions, position_eq_ok.mpr hp, bind, Except.bind]
      rfl

theorem adoptFrom_eq_ok (w : f.Wired) (h : f.adoptFrom parent siblings taken cs = .ok below) :
    (∀ q, q ∈ below ↔ q ∈ taken ∨ ∃ c ∈ cs, f.nodes.get? q = some c) ∧
      ∀ q ∈ below, q ∈ taken ∨ q ∈ siblings := by
  induction cs generalizing taken with
  | nil =>
      cases h
      simp +contextual
  | cons c cs ih =>
      obtain ⟨p, hp, h⟩ := bind_eq_ok.mp h
      have hnode := (w.inverse c p).mp (position_eq_ok.mp hp)
      split at h
      next hsib =>
        obtain ⟨hmem, hbelow⟩ := ih h
        have hpos (q : Nat) : f.nodes.get? q = some c ↔ q = p :=
          ⟨fun hq => w.position_eq hq hnode, fun hq => hq ▸ hnode⟩
        refine ⟨fun q => ?_, fun q hq => ?_⟩
        · simp only [hmem, SortedSet.mem_add, List.exists_mem_cons_iff, hpos]
          tauto
        · rcases hbelow q hq with hq | hq
          · rcases SortedSet.mem_add.mp hq with rfl | hq
            · exact .inr hsib
            · exact .inl hq
          · exact .inr hq
      next => cases h

/-- Children of `parent` are adopted. -/
theorem adoptFrom_of_siblings (w : f.Wired) (parent : Option String) (taken : SortedSet Nat)
    (hsib : ∀ c ∈ cs, ∃ p, f.nodes.get? p = some c ∧ p ∈ siblings) :
    ∃ below, f.adoptFrom parent siblings taken cs = .ok below := by
  induction cs generalizing taken with
  | nil => exact ⟨taken, rfl⟩
  | cons c cs ih =>
      obtain ⟨p, hp, hin⟩ := hsib c (by simp)
      obtain ⟨below, hbelow⟩ := ih (taken.add p) fun d hd => hsib d (by simp [hd])
      refine ⟨below, ?_⟩
      simp only [adoptFrom, position_eq_ok.mpr ((w.inverse c p).mpr hp), bind, Except.bind,
        SortedSet.contains_iff_mem.mpr hin, if_true]
      exact hbelow

/-- The children of a detached parent, looked up by any id. -/
theorem children_detach_get? {a x : String} : (f.detach (some a) below).children.get? x =
    if x = a then (f.children.get? a).map (fun kids => kids.filter (fun q _ => !below.contains q))
    else f.children.get? x := by
  cases hget : f.children.get? a with
  | none => by_cases hx : x = a <;> simp [detach, hx, hget]
  | some kids =>
      simp only [detach, hget]
      by_cases hx : x = a
      · simp [hx]
      · simp [hx, SortedMap.get?_insert_of_ne _ _ hx]

/-- Taking children away, putting them below the new node and attaching it make one graft. -/
theorem attach_detach_eq_graft (hne : parent ≠ some id) :
    (if below.isEmpty then f.detach parent below
      else { f.detach parent below with
        children := (f.detach parent below).children.insert id below }).attach id parent p =
      f.graft id parent below p := by
  cases parent with
  | none => cases hb : below.isEmpty <;> simp [attach, detach, graft, hb]
  | some a =>
      have ha : a ≠ id := fun e => hne (e ▸ rfl)
      have hkids : (if below.isEmpty then (f.detach (some a) below).children
          else (f.detach (some a) below).children.insert id below).update a ∅ (·.add p) =
          (f.graft id (some a) below p).children := by
        refine SortedMap.ext_get? fun x => ?_
        rw [children_graft_get? hne, SortedMap.update]
        by_cases hx : x = a
        · subst hx
          have hget : (if below.isEmpty then (f.detach (some x) below).children
              else (f.detach (some x) below).children.insert id below).get? x =
              (f.children.get? x).map (fun kids => kids.filter (fun q _ => !below.contains q)) := by
            cases below.isEmpty
            · simp [SortedMap.get?_insert_of_ne _ _ ha, children_detach_get?]
            · simp [children_detach_get?]
          simp only [SortedMap.get?_insert_self, if_true, SortedMap.getD_eq, hget]
          cases f.children.get? x <;> rfl
        · rw [SortedMap.get?_insert_of_ne _ _ hx, if_neg fun e => hx (Option.some.inj e).symm]
          cases hb : below.isEmpty with
          | true => simp [children_detach_get?, hx]
          | false =>
              by_cases hid : x = id
              · simp [hid]
              · simp [SortedMap.get?_insert_of_ne _ _ hid, children_detach_get?, hx, hid]
      have hnodes : (f.detach (some a) below).nodes = f.nodes ∧
          (f.detach (some a) below).positions = f.positions ∧
          (f.detach (some a) below).roots = f.roots ∧ (f.detach (some a) below).id = f.id ∧
          (f.detach (some a) below).summary = f.summary := by
        cases hget : f.children.get? a <;> simp [detach, hget]
      obtain ⟨hn, hp, hr, hi, hs⟩ := hnodes
      cases hb : below.isEmpty <;> simp only [hb, if_true, Bool.false_eq_true, if_false] at hkids ⊢ <;>
        simp only [attach, hn, hp, hr, hi, hs, hkids] <;> rfl

/-- A successful insertion between `parent` and some of its children. -/
theorem insertBetween_eq_ok (w : f.Wired) (h : f.insertBetween id parent cs = .ok (g, p)) :
    ∃ below, f.nextPosition = .ok p ∧ f.Graftable id parent below p ∧
      g = f.graft id parent below p ∧ ∀ q, q ∈ below ↔ ∃ c ∈ cs, f.nodes.get? q = some c := by
  obtain ⟨p', hp, h⟩ := bind_eq_ok.mp h
  obtain ⟨_, hfree, h⟩ := bind_eq_ok.mp h
  obtain ⟨siblings, hsib, h⟩ := bind_eq_ok.mp h
  obtain ⟨below, hbelow, h⟩ := bind_eq_ok.mp h
  cases pure_eq_ok.mp h
  obtain ⟨hid, hfree⟩ := checkFree_eq_ok.mp hfree
  obtain ⟨hpar, hchild⟩ := mem_childPositions hsib
  obtain ⟨hmem, hin⟩ := adoptFrom_eq_ok w hbelow
  have hgraft : f.Graftable id parent below p :=
    ⟨hid, hfree, hpar, fun q hq => (hchild q).mp ((hin q hq).resolve_left (SortedSet.not_mem_empty q))⟩
  refine ⟨below, hp, hgraft, attach_detach_eq_graft hgraft.parent_ne, fun q => ?_⟩
  rw [hmem, or_iff_right (SortedSet.not_mem_empty q)]

/-- A new node enters between a node and some of its children unless positions run out. -/
theorem insertBetween_of_children (w : f.Wired) (hp : f.nextPosition = .ok p)
    (hid : f.contains id = false) (hpar : ∀ a, parent = some a → f.contains a = true)
    (hcs : ∀ c ∈ cs, ∃ q, f.nodes.get? q = some c ∧ f.IsChild parent q) :
    ∃ g, f.insertBetween id parent cs = .ok (g, p) := by
  obtain ⟨siblings, hsib⟩ := childPositions_of_present hpar
  obtain ⟨below, hbelow⟩ := adoptFrom_of_siblings w parent ∅ fun c hc => by
    obtain ⟨q, hq, hchild⟩ := hcs c hc
    exact ⟨q, hq, ((mem_childPositions hsib).2 q).mpr hchild⟩
  have hfree := checkFree_eq_ok.mpr ⟨hid, nextPosition_free hp⟩
  simp only [insertBetween, hp, hfree, hsib, hbelow, bind, Except.bind]
  exact ⟨_, rfl⟩

/-! ### Many at once -/

theorem checkNew_eq_ok {seen : List String} (h : f.checkNew seen ids = .ok ()) :
    ids.Nodup ∧ ∀ id ∈ ids, id ∉ seen ∧ f.contains id = false := by
  induction ids generalizing seen with
  | nil => simp
  | cons id ids ih =>
      unfold checkNew at h
      split at h
      next => cases h
      next hnew =>
        simp only [Bool.or_eq_true, List.contains_iff_mem, not_or, Bool.not_eq_true] at hnew
        obtain ⟨hnd, hout⟩ := ih h
        refine ⟨List.nodup_cons.mpr ⟨fun hid => (hout id hid).1 (by simp), hnd⟩, fun x hx => ?_⟩
        rcases List.mem_cons.mp hx with rfl | hx
        · exact hnew
        · exact ⟨fun hs => (hout x hx).1 (by simp [hs]), (hout x hx).2⟩

/-- Nodes attached in a row: the forest stays well formed, and only positions can run out. -/
theorem wellFormed_attachAll (w : f.WellFormed) (hpar : ∀ a, parent = some a → f.contains a = true)
    (hnd : ids.Nodup) (hnew : ∀ id ∈ ids, f.contains id = false) :
    (attachAll parent f ids).1.WellFormed ∧
      ∀ e, (attachAll parent f ids).2 = .error e → ¬ (attachAll parent f ids).1.HasRoom := by
  induction ids generalizing f with
  | nil => exact ⟨w, by simp [attachAll]⟩
  | cons id ids ih =>
      unfold attachAll
      cases hp : f.nextPosition with
      | error e => exact ⟨w, fun _ _ => (nextPosition_error hp).2⟩
      | ok p =>
          obtain ⟨hid, hnd⟩ := List.nodup_cons.mp hnd
          have hgraft : f.Graftable id parent ∅ p :=
            ⟨hnew id (by simp), nextPosition_free hp, hpar, by simp⟩
          have hrest (x : String) (hx : x ∈ ids) : (f.graft id parent ∅ p).contains x = false := by
            rw [← Bool.not_eq_true, contains_graft, not_or]
            exact ⟨fun e => hid (e ▸ hx), by simp [hnew x (by simp [hx])]⟩
          obtain ⟨hw, herr⟩ := ih (hgraft.wellFormed_graft w)
            (fun a ha => contains_graft.mpr (.inr (hpar a ha))) hnd hrest
          rw [← attach_eq_graft] at hw herr
          refine ⟨hw, fun e he => ?_⟩
          cases hr : (attachAll parent (f.attach id parent p) ids).2 with
          | error e' => exact herr e' hr
          | ok ps => simp [hr, Functor.map, Except.map] at he

/-- A batch is refused as a whole, or positions run out on the way. -/
theorem wellFormed_insertManyUnder (w : f.WellFormed) (ids : List String) (parent : Option String) :
    (f.insertManyUnder ids parent).1.WellFormed ∧
      ∀ e, (f.insertManyUnder ids parent).2 = .error e → (f.insertManyUnder ids parent).1.HasRoom →
        (f.insertManyUnder ids parent).1 = f := by
  unfold insertManyUnder
  cases h : (f.checkParent parent >>= fun _ => f.checkNew [] ids) with
  | error e => exact ⟨w, fun _ _ _ => rfl⟩
  | ok _ =>
      obtain ⟨_, hpar, hids⟩ := bind_eq_ok.mp h
      obtain ⟨hnd, hnew⟩ := checkNew_eq_ok hids
      obtain ⟨hw, herr⟩ := wellFormed_attachAll w (checkParent_eq_ok.mp hpar) hnd
        fun id hid => (hnew id hid).2
      exact ⟨hw, fun e he room => (herr e he room).elim⟩

end CorpusIndex.Forest
