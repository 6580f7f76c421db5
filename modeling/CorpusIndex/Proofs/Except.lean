import Mathlib.Data.List.Forall2

/-!
# Checked steps

A chain of steps that may fail succeeds with what its steps give, and a walk over a list succeeds
exactly when each of its elements does.
-/
namespace CorpusIndex
variable {α β ε : Type}

theorem ok_bind {a : α} {f : α → Except ε β} : (Except.ok a >>= f) = f a := rfl

theorem bind_eq_ok {x : Except ε α} {f : α → Except ε β} {b : β} :
    (x >>= f) = .ok b ↔ ∃ a, x = .ok a ∧ f a = .ok b := by
  cases x <;> simp [bind, Except.bind]

theorem bind_eq_error {x : Except ε α} {f : α → Except ε β} {e : ε} :
    (x >>= f) = .error e ↔ x = .error e ∨ ∃ a, x = .ok a ∧ f a = .error e := by
  cases x <;> simp [bind, Except.bind]

theorem pure_eq_ok {a b : α} : (pure a : Except ε α) = .ok b ↔ a = b := by
  simp [pure, Except.pure]

theorem map_eq_ok {f : α → β} {x : Except ε α} {b : β} : f <$> x = .ok b ↔ ∃ a, x = .ok a ∧ f a = b := by
  cases x <;> simp [Functor.map, Except.map]

theorem map_eq_error {f : α → β} {x : Except ε α} {e : ε} : f <$> x = .error e ↔ x = .error e := by
  cases x <;> simp [Functor.map, Except.map]

theorem mapError_eq_ok {δ : Type} {f : ε → δ} {x : Except ε α} {a : α} : x.mapError f = .ok a ↔ x = .ok a := by
  cases x <;> simp [Except.mapError]

theorem toOption_eq_some {x : Except ε α} {a : α} : x.toOption = some a ↔ x = .ok a := by
  cases x <;> simp [Except.toOption]

/-- What is read off an answer. -/
theorem map_toOption_eq_some {x : Except ε α} {read : α → β} {b : β} :
    x.toOption.map read = some b ↔ ∃ a, x = .ok a ∧ read a = b := by
  cases x <;> simp [Except.toOption]

/-- A walk whose steps all succeed gives their answers in order. -/
theorem mapM_eq_ok {f : α → Except ε β} {g : α → β} {l : List α} (h : ∀ a ∈ l, f a = .ok (g a)) :
    l.mapM f = .ok (l.map g) := by
  induction l with
  | nil => rfl
  | cons a l ih =>
      rw [List.mapM_cons, h a (by simp), ih fun b hb => h b (by simp [hb])]
      rfl

/-- A walk over what was made of a list, each step of which gives back what it was made of. -/
theorem mapM_map_eq_ok {f : β → Except ε α} {g : α → β} {l : List α} (h : ∀ a ∈ l, f (g a) = .ok a) :
    (l.map g).mapM f = .ok l := by
  induction l with
  | nil => rfl
  | cons a l ih =>
      rw [List.map_cons, List.mapM_cons, h a (by simp), ih fun b hb => h b (by simp [hb])]
      rfl

/-- What a walk gives came from the elements, one for one. -/
theorem forall₂_of_mapM_eq_ok {f : α → Except ε β} {l : List α} {bs : List β} (h : l.mapM f = .ok bs) :
    List.Forall₂ (fun a b => f a = .ok b) l bs := by
  induction l generalizing bs with
  | nil => cases h; exact .nil
  | cons a l ih =>
      rw [List.mapM_cons] at h
      obtain ⟨b, hb, h⟩ := bind_eq_ok.mp h
      obtain ⟨rest, hrest, h⟩ := bind_eq_ok.mp h
      cases h
      exact .cons hb (ih hrest)

/-- What the steps of a walk leave as it is, the whole walk leaves as it is. -/
theorem map_eq_of_mapM_eq_ok {γ : Type} {f : α → Except ε β} {g : β → γ} {k : α → γ} {l : List α} {bs : List β}
    (hg : ∀ a b, f a = .ok b → g b = k a) (h : l.mapM f = .ok bs) : bs.map g = l.map k := by
  have hall : List.Forall₂ Eq (l.map k) (bs.map g) := by
    rw [List.forall₂_map_left_iff, List.forall₂_map_right_iff]
    exact (forall₂_of_mapM_eq_ok h).imp fun a b hab => (hg a b hab).symm
  exact (List.forall₂_eq_eq_eq ▸ hall : l.map k = bs.map g).symm

/-- A walk whose steps can be undone is undone as a whole. -/
theorem map_of_mapM_eq_ok {f : α → Except ε β} {g : β → α} {l : List α} {bs : List β}
    (hg : ∀ a b, f a = .ok b → g b = a) (h : l.mapM f = .ok bs) : bs.map g = l := by
  rw [map_eq_of_mapM_eq_ok (k := id) hg h, List.map_id]

/-- Everything a walk gives is the answer of one of its steps. -/
theorem mem_of_mapM_eq_ok {f : α → Except ε β} {l : List α} {bs : List β} {b : β}
    (h : l.mapM f = .ok bs) (hb : b ∈ bs) : ∃ a ∈ l, f a = .ok b := by
  have hall := forall₂_of_mapM_eq_ok h
  clear h
  induction hall with
  | nil => cases hb
  | @cons a c _ _ hac _ ih =>
      rcases List.mem_cons.mp hb with rfl | hb
      · exact ⟨a, List.mem_cons_self, hac⟩
      · obtain ⟨a, ha, hab⟩ := ih hb
        exact ⟨a, List.mem_cons_of_mem _ ha, hab⟩

theorem mapM_eq_error {f : α → Except ε β} {l : List α} {e : ε} (h : l.mapM f = .error e) :
    ∃ a ∈ l, f a = .error e := by
  induction l with
  | nil => cases h
  | cons a l ih =>
      rw [List.mapM_cons] at h
      rcases bind_eq_error.mp h with h | ⟨_, _, h⟩
      · exact ⟨a, List.mem_cons_self, h⟩
      rcases bind_eq_error.mp h with h | ⟨_, _, h⟩
      · obtain ⟨b, hb, h⟩ := ih h
        exact ⟨b, List.mem_cons_of_mem _ hb, h⟩
      · cases h

/-- A walk fails where one of its steps does, and as one of its steps does. -/
theorem mapM_error {f : α → Except ε β} {P : ε → Prop} {l : List α} {a : α} {e : ε} (ha : a ∈ l)
    (he : f a = .error e) (hall : ∀ a e, f a = .error e → P e) : ∃ e, l.mapM f = .error e ∧ P e := by
  induction l with
  | nil => cases ha
  | cons x l ih =>
      rw [List.mapM_cons]
      cases hx : f x with
      | error d => exact ⟨d, rfl, hall x d hx⟩
      | ok b =>
          have ha : a ∈ l := (List.mem_cons.mp ha).resolve_left fun heq => by
            cases (heq ▸ he).symm.trans hx
          obtain ⟨d, hd, hP⟩ := ih ha
          exact ⟨d, by rw [hd]; rfl, hP⟩

theorem forM_eq_ok_iff {f : α → Except ε Unit} {l : List α} :
    l.forM f = .ok () ↔ ∀ a ∈ l, f a = .ok () := by
  induction l with
  | nil => exact ⟨fun _ => by simp, fun _ => rfl⟩
  | cons a l ih =>
      change (f a >>= fun _ => l.forM f) = .ok () ↔ _
      rw [bind_eq_ok]
      constructor
      · rintro ⟨_, ha, hl⟩ b hb
        rcases List.mem_cons.mp hb with rfl | hb
        · exact ha
        · exact ih.mp hl b hb
      · intro h
        exact ⟨(), h a (by simp), ih.mpr fun b hb => h b (by simp [hb])⟩

/-- A selection in which every check gives an answer. -/
theorem filterM_eq_ok {f : α → Except ε Bool} {p : α → Bool} {l : List α}
    (h : ∀ x ∈ l, f x = .ok (p x)) : l.filterM f = .ok (l.filter p) := by
  have haux (l acc : List α) (h : ∀ x ∈ l, f x = .ok (p x)) :
      l.filterAuxM f acc = .ok ((l.filter p).reverse ++ acc) := by
    induction l generalizing acc with
    | nil => rfl
    | cons x l ih =>
        rw [List.filterAuxM, h x List.mem_cons_self, ok_bind, ih _ fun y hy => h y (by simp [hy])]
        cases hp : p x <;> simp [hp]
  rw [List.filterM, haux l [] h, ok_bind, List.append_nil, List.reverse_reverse]
  rfl

/-- A selection leaves elements out and keeps the order. -/
theorem sublist_of_filterM_eq_ok {f : α → Except ε Bool} {l kept : List α} (h : l.filterM f = .ok kept) :
    kept.Sublist l := by
  have haux (l acc : List α) (r : List α) (h : l.filterAuxM f acc = .ok r) :
      ∃ kept : List α, kept.Sublist l ∧ r = kept.reverse ++ acc := by
    induction l generalizing acc with
    | nil =>
        cases h
        exact ⟨[], .slnil, rfl⟩
    | cons a l ih =>
        obtain ⟨b, _, h⟩ := bind_eq_ok.mp h
        obtain ⟨kept, hkept, rfl⟩ := ih _ h
        cases b with
        | true => exact ⟨a :: kept, hkept.cons_cons a, by simp⟩
        | false => exact ⟨kept, hkept.cons a, rfl⟩
  obtain ⟨r, hr, h⟩ := bind_eq_ok.mp h
  obtain ⟨kept', hkept', rfl⟩ := haux l [] r hr
  cases h
  simpa using hkept'

end CorpusIndex
