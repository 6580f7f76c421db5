import CorpusIndex.Collaborator
import CorpusIndex.Proofs.Except

/-!
# How actions end

`Ends a Q E` says that an action gives a value in `Q` or a failure in `E` whatever state its
collaborators are in. Chains of actions are followed step by step through `Ends.bind`.
-/
namespace CorpusIndex

variable {σ α β : Type}

theorem run_bind {ε : Type} (a : ExceptT ε (StateM σ) α) (f : α → ExceptT ε (StateM σ) β) (s : σ) :
    (a >>= f).run s = match a.run s with
    | (.ok x, s') => (f x).run s'
    | (.error e, s') => (.error e, s') := by
  unfold ExceptT.run
  simp only [Bind.bind, ExceptT.bind, ExceptT.mk, StateT.bind, ExceptT.bindCont]
  rcases a s with ⟨r, s'⟩
  cases r <;> rfl

theorem runState_bind (a : StateM σ α) (f : α → StateM σ β) (s : σ) :
    (a >>= f).run s = (f (a.run s).1).run (a.run s).2 := rfl

theorem liftM_ok_bind (a : α) (f : α → Action σ β) :
    ((liftM (Except.ok a : Except Failure α) : Action σ α) >>= f) = f a := rfl

theorem external_run (c : Call σ α) (s : σ) : c.external.run s = match c.run s with
    | (.ok a, s') => (.ok a, s')
    | (.error f, s') => (.error (.external (.fault f)), s') := by
  refine (runState_bind c.run _ s).trans ?_
  rcases hc : StateT.run c.run s with ⟨r, s'⟩
  rw [show c.run s = (r, s') from hc]
  cases r <;> rfl

/-- After a step that succeeds the chain goes on with its answer, in the state the step left. -/
theorem run_bind_of_ok {a : Action σ α} {x : α} {s : σ} (h : (a.run s).1 = .ok x)
    (f : α → Action σ β) : ∃ s', (a >>= f).run s = (f x).run s' := by
  rw [run_bind]
  rcases hr : a.run s with ⟨r, s'⟩
  rw [hr] at h
  cases h
  exact ⟨s', rfl⟩

/-- A chain succeeds by the success of its steps. -/
theorem run_bind_eq_ok {a : Action σ α} {f : α → Action σ β} {y : β} {s s' : σ} :
    (a >>= f).run s = (.ok y, s') ↔ ∃ x t, a.run s = (.ok x, t) ∧ (f x).run t = (.ok y, s') := by
  rw [run_bind]
  rcases hr : a.run s with ⟨r, t⟩
  cases r with
  | error e =>
      constructor
      · intro h
        cases h
      · rintro ⟨x, t, hx, _⟩
        cases hx
  | ok x =>
      constructor
      · intro h
        exact ⟨x, t, rfl, h⟩
      · rintro ⟨x, t, hx, h⟩
        cases hx
        exact h

/-- A checked step succeeds with its answer and leaves the state. -/
theorem run_checked_eq_ok {x : Except Failure α} {a : α} {s s' : σ} :
    (liftM x : Action σ α).run s = (.ok a, s') ↔ x = .ok a ∧ s' = s := by
  cases x with
  | error e =>
      constructor
      · intro h
        cases h
      · rintro ⟨h, _⟩
        cases h
  | ok b =>
      constructor
      · intro h
        cases h
        exact ⟨rfl, rfl⟩
      · rintro ⟨h, rfl⟩
        cases h
        rfl

theorem external_run_of_ok {c : Call σ α} {a : α} {s : σ} (h : (c.run s).1 = .ok a) :
    (c.external.run s).1 = .ok a := by
  rw [external_run]
  rcases hr : c.run s with ⟨r, s'⟩
  rw [hr] at h
  cases h
  rfl

/-- A walk over a list whose steps succeed from every state gives their answers in order. -/
theorem mapM_run {f : α → Action σ β} {g : α → β} {l : List α}
    (h : ∀ a ∈ l, ∀ s, ((f a).run s).1 = .ok (g a)) (s : σ) :
    ((l.mapM f).run s).1 = .ok (l.map g) := by
  induction l generalizing s with
  | nil => rfl
  | cons a l ih =>
      rw [List.mapM_cons]
      obtain ⟨s₁, h₁⟩ := run_bind_of_ok (h a (by simp) s) fun b => do return b :: (← l.mapM f)
      have hl := ih (fun b hb => h b (by simp [hb])) s₁
      obtain ⟨s₂, h₂⟩ := run_bind_of_ok hl fun bs => pure (g a :: bs)
      rw [h₁, h₂]
      rfl

/-- From every state the action ends with a value in `Q` or with a failure in `E`. -/
def Ends (a : Action σ α) (Q : α → Prop) (E : Failure → Prop) : Prop :=
  ∀ s, match (a.run s).1 with
    | .ok x => Q x
    | .error e => E e

namespace Ends
variable {P : α → Prop} {Q R : β → Prop} {E F : Failure → Prop}

/-- Nothing is said of the end. -/
theorem any (a : Action σ β) : Ends a (fun _ => True) fun _ => True := by
  intro s
  split <;> trivial

theorem pure {x : β} (h : Q x) : Ends (Pure.pure x : Action σ β) Q E := fun _ => h

theorem throw {e : Failure} (h : E e) : Ends (MonadExcept.throw e : Action σ β) Q E := fun _ => h

theorem bind {a : Action σ α} {f : α → Action σ β} (ha : Ends a P E)
    (hf : ∀ x, P x → Ends (f x) Q E) : Ends (a >>= f) Q E := by
  intro s
  have hs := ha s
  rw [run_bind]
  rcases hr : a.run s with ⟨r, s'⟩
  rw [hr] at hs
  cases r with
  | ok x => exact hf x hs s'
  | error e => exact hs

/-- A checked step, taken as an action. -/
theorem lift {x : Except Failure β} (hok : ∀ b, x = .ok b → Q b) (herr : ∀ e, x = .error e → E e) :
    Ends (liftM x : Action σ β) Q E := by
  intro s
  cases x with
  | ok b => exact hok b rfl
  | error e => exact herr e rfl

/-- What a checked step gives is its answer. -/
theorem checked (x : Except Failure β) :
    Ends (liftM x : Action σ β) (fun b => x = .ok b) fun _ => True :=
  lift (fun _ h => h) fun _ _ => trivial

/-- A checked step whose answer is known. -/
theorem bind_ok {x : Except Failure α} {a : α} {f : α → Action σ β} (hx : x = .ok a)
    (hf : Ends (f a) Q E) : Ends ((liftM x : Action σ α) >>= f) Q E := by
  subst hx
  exact hf

/-- Checked steps one after another, taken as one action. -/
theorem lift_bind {x : Except Failure α} {f : α → Except Failure β} (hx : Ends (liftM x : Action σ α) P E)
    (hf : ∀ a, P a → Ends (liftM (f a) : Action σ β) Q E) : Ends (liftM (x >>= f) : Action σ β) Q E := by
  intro s
  cases x with
  | ok a => exact hf a (hx s) s
  | error e => exact hx s

theorem imp {a : Action σ β} (h : Ends a Q E) (hQ : ∀ x, Q x → R x) (hE : ∀ e, E e → F e) :
    Ends a R F := by
  intro s
  have hs := h s
  cases hr : (a.run s).1 with
  | ok x => exact hQ x (by simpa only [hr] using hs)
  | error e => exact hE e (by simpa only [hr] using hs)

/-- A fold over a list whose steps keep `Q`. -/
theorem foldlM_keeps {f : β → α → Action σ β} {l : List α}
    (h : ∀ b, Q b → ∀ a ∈ l, Ends (f b a) Q E) {b : β} (hb : Q b) : Ends (l.foldlM f b) Q E := by
  induction l generalizing b with
  | nil => exact Ends.pure hb
  | cons a l ih =>
      rw [List.foldlM_cons]
      exact Ends.bind (h b hb a (by simp)) fun c hc => ih (fun c hc x hx => h c hc x (by simp [hx])) hc

/-- A fold over a list whose steps all end well. -/
theorem foldlM {f : β → α → Action σ β} {l : List α}
    (h : ∀ b, ∀ a ∈ l, Ends (f b a) (fun _ => True) E) (b : β) :
    Ends (l.foldlM f b) (fun _ => True) E :=
  foldlM_keeps (fun b _ => h b) trivial

/-- A fold goes on from each element to the end of the rest. -/
theorem foldlM_chain {S : List α → β → β → Prop} {f : β → α → Action σ β} {l : List α}
    (nil : ∀ b, S [] b b)
    (cons : ∀ a ∈ l, ∀ b, Ends (f b a) (fun c => ∀ rest d, S rest c d → S (a :: rest) b d) E) (b : β) :
    Ends (l.foldlM f b) (S l b) E := by
  induction l generalizing b with
  | nil => exact Ends.pure (nil b)
  | cons a l ih =>
      rw [List.foldlM_cons]
      refine Ends.bind (cons a (by simp) b) fun c hc => ?_
      exact imp (ih (fun x hx => cons x (by simp [hx])) c) (fun d hd => hc l d hd) fun _ h => h

theorem mapM {f : α → Action σ β} {l : List α} (h : ∀ a ∈ l, Ends (f a) Q E) :
    Ends (l.mapM f) (fun bs => ∀ b ∈ bs, Q b) E := by
  induction l with
  | nil => exact Ends.pure (by simp)
  | cons a l ih =>
      rw [List.mapM_cons]
      refine Ends.bind (h a (by simp)) fun b hb => ?_
      refine Ends.bind (ih fun a ha => h a (by simp [ha])) fun bs hbs => Ends.pure ?_
      exact List.forall_mem_cons.mpr ⟨hb, hbs⟩

/-- A fold fails where one of its steps does. -/
theorem foldlM_fails {f : β → α → Action σ β} {l : List α} {a : α} (ha : a ∈ l)
    (h : ∀ b, ∀ a ∈ l, Ends (f b a) (fun _ => True) E) (hfail : ∀ b, Ends (f b a) (fun _ => False) E)
    (b : β) : Ends (l.foldlM f b) (fun _ => False) E := by
  induction l generalizing b with
  | nil => cases ha
  | cons x l ih =>
      rw [List.foldlM_cons]
      rcases List.mem_cons.mp ha with rfl | ha
      · exact Ends.bind (hfail b) fun _ hf => hf.elim
      · exact Ends.bind (h b x (by simp)) fun c _ => ih ha (fun c y hy => h c y (by simp [hy])) c

theorem ite {c : Prop} [Decidable c] {a b : Action σ β} (ha : Ends a Q E) (hb : Ends b Q E) :
    Ends (if c then a else b) Q E := by
  split
  · exact ha
  · exact hb

/-- A condition that is refused, and what comes after it. -/
theorem refuse {c : Prop} [Decidable c] {e : Failure} {f : PUnit → Action σ β} (h : E e)
    (hf : Ends (f ⟨⟩) Q E) : Ends (if c then MonadExcept.throw e >>= f else f ⟨⟩) Q E := by
  split
  · exact bind (P := fun _ => False) (throw h) fun _ hfalse => hfalse.elim
  · exact hf

/-- The value a run gives. -/
theorem of_run {a : Action σ β} {s s' : σ} {x : β} (h : Ends a Q E) (hr : a.run s = (.ok x, s')) :
    Q x := by
  have hs := h s
  rw [hr] at hs
  exact hs

/-- Without a failure to end in, every run gives a value. -/
theorem succeeds {a : Action σ β} (h : Ends a Q fun _ => False) (s : σ) :
    ∃ x s', a.run s = (.ok x, s') ∧ Q x := by
  have hs := h s
  rcases hr : a.run s with ⟨r, s'⟩
  rw [hr] at hs
  cases r with
  | error e => exact hs.elim
  | ok x => exact ⟨x, s', rfl, hs⟩

theorem of_run_error {a : Action σ β} {s : σ} {e : Failure} (h : Ends a Q E)
    (hr : (a.run s).1 = .error e) : E e := by
  have hs := h s
  rw [hr] at hs
  exact hs

end Ends

/-- From every state the action gives a value in `Q` and leaves the state as it is. -/
def Gives (a : Action σ α) (Q : α → Prop) : Prop := ∀ s, ∃ x, a.run s = (.ok x, s) ∧ Q x

namespace Gives
variable {P : α → Prop} {Q R : β → Prop}

theorem pure {x : β} (h : Q x) : Gives (Pure.pure x : Action σ β) Q := fun _ => ⟨x, rfl, h⟩

theorem bind {a : Action σ α} {f : α → Action σ β} (ha : Gives a P) (hf : ∀ x, P x → Gives (f x) Q) :
    Gives (a >>= f) Q := by
  intro s
  obtain ⟨x, hx, hp⟩ := ha s
  rw [run_bind, hx]
  exact hf x hp s

theorem map {a : Action σ α} {f : α → β} (h : Gives a fun x => Q (f x)) : Gives (f <$> a) Q := by
  rw [map_eq_pure_bind]
  exact h.bind fun x hx => Gives.pure hx

/-- A checked step whose answer is known. -/
theorem bind_ok {x : Except Failure α} {a : α} {f : α → Action σ β} (hx : x = .ok a)
    (hf : Gives (f a) Q) : Gives ((liftM x : Action σ α) >>= f) Q := by
  subst hx
  exact hf

theorem imp {a : Action σ β} (h : Gives a Q) (hQ : ∀ x, Q x → R x) : Gives a R := fun s =>
  (h s).imp fun x hx => ⟨hx.1, hQ x hx.2⟩

end Gives
end CorpusIndex
