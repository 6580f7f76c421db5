import CorpusIndex.SortedMap
import Mathlib.Data.List.Nodup

/-!
# Looking at sorted maps and sets

Every operation of a map is described by what it does to `get?`, and every operation of a set by what
it does to membership. Later modules use these equations and never the list of entries.
-/
namespace CorpusIndex

namespace SortedMap
variable {κ : Type u} {ν : Type v} {μ : Type w} [Ord κ]

theorem contains_iff {m : SortedMap κ ν} {k : κ} :
    m.contains k = true ↔ ∃ v, m.get? k = some v := Option.isSome_iff_exists

theorem getD_eq (m : SortedMap κ ν) (k : κ) (d : ν) : m.getD k d = (m.get? k).getD d := rfl

@[simp] theorem get?_emptyCollection (k : κ) : (∅ : SortedMap κ ν).get? k = none := rfl

variable [Std.LawfulEqOrd κ]

theorem keys_nodup (m : SortedMap κ ν) : m.keys.Nodup := by
  refine List.pairwise_map.mpr (m.sorted.imp ?_)
  intro a b hab he
  simp [he, Std.compare_self] at hab

/-- Maps with the same keys have the same size. -/
theorem size_eq_of_keys {a : SortedMap κ ν} {b : SortedMap κ μ} (h : ∀ k, k ∈ a.keys ↔ k ∈ b.keys) :
    a.size = b.size := by
  have hp : a.keys.Perm b.keys := (List.perm_ext_iff_of_nodup a.keys_nodup b.keys_nodup).mpr h
  simpa [keys, size] using hp.length_eq

variable [Std.TransOrd κ]

@[simp] theorem get?_insert_self (m : SortedMap κ ν) (k : κ) (v : ν) :
    (m.insert k v).get? k = some v := by simp

theorem get?_insert_of_ne (m : SortedMap κ ν) {k i : κ} (v : ν) (h : i ≠ k) :
    (m.insert k v).get? i = m.get? i := by
  rw [get?_insert, if_neg]
  exact fun e => h (Std.LawfulEqCmp.eq_of_compare e).symm

theorem get?_insert_eq_some {m : SortedMap κ ν} {k i : κ} {v w : ν} :
    (m.insert k v).get? i = some w ↔ (i = k ∧ w = v) ∨ (i ≠ k ∧ m.get? i = some w) := by
  by_cases h : i = k
  · subst h
    simp [eq_comm]
  · simp [get?_insert_of_ne m v h, h]

@[simp] theorem get?_erase_self (m : SortedMap κ ν) (k : κ) : (m.erase k).get? k = none := by simp

theorem get?_erase_of_ne (m : SortedMap κ ν) {k i : κ} (h : i ≠ k) :
    (m.erase k).get? i = m.get? i := by
  rw [get?_erase, if_neg]
  exact fun e => h (Std.LawfulEqCmp.eq_of_compare e).symm

theorem get?_erase_eq_some {m : SortedMap κ ν} {k i : κ} {w : ν} :
    (m.erase k).get? i = some w ↔ i ≠ k ∧ m.get? i = some w := by
  by_cases h : i = k
  · subst h
    simp
  · simp [get?_erase_of_ne m h, h]

theorem get?_filter_eq_some {m : SortedMap κ ν} {p : κ → ν → Bool} {k : κ} {v : ν} :
    (m.filter p).get? k = some v ↔ m.get? k = some v ∧ p k v = true := by
  rw [get?_filter, Option.filter_eq_some_iff]

theorem get?_foldl_erase {ks : List κ} {m : SortedMap κ ν} {i : κ} {v : ν} :
    (ks.foldl erase m).get? i = some v ↔ i ∉ ks ∧ m.get? i = some v := by
  induction ks generalizing m with
  | nil => simp
  | cons k ks ih =>
    rw [List.foldl_cons, ih, get?_erase_eq_some, List.mem_cons]
    tauto

theorem size_erase_lt {m : SortedMap κ ν} {k : κ} {v : ν} (h : m.get? k = some v) :
    (m.erase k).size < m.size := by
  refine List.length_filter_lt_length_iff_exists.mpr ⟨(k, v), get?_eq_some_iff.mp h, ?_⟩
  simp [Std.compare_self]

theorem mem_values {m : SortedMap κ ν} {v : ν} : v ∈ m.values ↔ ∃ k, m.get? k = some v := by
  simp only [values, List.mem_map, get?_eq_some_iff, toList]
  constructor
  · rintro ⟨e, he, rfl⟩
    exact ⟨e.1, he⟩
  · rintro ⟨k, h⟩
    exact ⟨(k, v), h, rfl⟩

/-- Where no value stands under two keys, the values are all different. -/
theorem values_nodup {m : SortedMap κ ν}
    (h : ∀ j k v, m.get? j = some v → m.get? k = some v → j = k) : m.values.Nodup := by
  apply List.pairwise_map.mpr
  apply m.sorted.imp_of_mem
  intro a b ha hb hab he
  have hkey : a.1 = b.1 := h a.1 b.1 b.2 (get?_eq_some_iff.mpr (he ▸ ha)) (get?_eq_some_iff.mpr hb)
  simp [hkey, Std.compare_self] at hab

theorem mem_keys {m : SortedMap κ ν} {k : κ} : k ∈ m.keys ↔ ∃ v, m.get? k = some v := by
  simp only [keys, List.mem_map, get?_eq_some_iff, toList]
  constructor
  · rintro ⟨e, he, rfl⟩
    exact ⟨e.2, he⟩
  · rintro ⟨v, h⟩
    exact ⟨(k, v), h, rfl⟩

theorem find?_eq_some {m : SortedMap κ ν} {p : κ → ν → Bool} {k : κ} {v : ν}
    (h : m.find? p = some (k, v)) : m.get? k = some v ∧ p k v = true :=
  ⟨get?_eq_some_iff.mpr (List.mem_of_find?_eq_some h), by simpa using List.find?_some h⟩

theorem find?_eq_none {m : SortedMap κ ν} {p : κ → ν → Bool} :
    m.find? p = none ↔ ∀ k v, m.get? k = some v → p k v = false := by
  simp only [find?, List.find?_eq_none, Prod.forall, get?_eq_some_iff, toList, Bool.not_eq_true]

theorem isEmpty_iff {m : SortedMap κ ν} : m.isEmpty = true ↔ ∀ k, m.get? k = none := by
  rw [isEmpty, List.isEmpty_iff]
  constructor
  · intro h k
    cases hk : m.get? k with
    | none => rfl
    | some v =>
      have := get?_eq_some_iff.mp hk
      simp [toList, h] at this
  · intro h
    apply List.eq_nil_iff_forall_not_mem.mpr
    intro e he
    have := get?_eq_some_iff.mpr (show (e.1, e.2) ∈ m.toList from he)
    simp [h] at this

theorem lastKey?_eq_none {m : SortedMap κ ν} (h : m.lastKey? = none) (k : κ) : m.get? k = none := by
  refine isEmpty_iff.mp ?_ k
  simpa [lastKey?, isEmpty] using h

/-- No key comes after the last one. -/
theorem le_lastKey? {m : SortedMap κ ν} {last k : κ} {v : ν} (h : m.lastKey? = some last)
    (hk : m.get? k = some v) : k = last ∨ compare k last = .lt := by
  obtain ⟨e, he, rfl⟩ := Option.map_eq_some_iff.mp h
  obtain ⟨init, hinit⟩ := List.getLast?_eq_some_iff.mp he
  have hm : (k, v) ∈ init ++ [e] := hinit ▸ get?_eq_some_iff.mp hk
  have hs := hinit ▸ m.sorted
  rcases List.mem_append.mp hm with hm | hm
  · exact .inr ((List.pairwise_append.mp hs).2.2 _ hm e (by simp))
  · exact .inl (congrArg Prod.fst (List.mem_singleton.mp hm))

theorem lastKey?_occupied {m : SortedMap κ ν} {last : κ} (h : m.lastKey? = some last) :
    ∃ v, m.get? last = some v := by
  obtain ⟨e, he, rfl⟩ := Option.map_eq_some_iff.mp h
  exact ⟨e.2, get?_eq_some_iff.mpr (List.mem_of_getLast? he)⟩

theorem foldl_insert_contains (l : List (κ × ν)) (m : SortedMap κ ν) (i : κ) :
    (l.foldl (fun m e => m.insert e.1 e.2) m).contains i = true ↔
      i ∈ l.map (·.1) ∨ m.contains i = true := by
  induction l generalizing m with
  | nil => simp
  | cons e l ih =>
    rw [List.foldl_cons, ih, List.map_cons, List.mem_cons]
    by_cases h : i = e.1
    · simp [h, contains]
    · simp [h, contains, get?_insert_of_ne m e.2 h]

/-- Bindings put into a map one after another, no key twice. -/
theorem get?_foldl_insert {β : Type w} {l : List β} (key : β → κ) (val : β → ν) {m : SortedMap κ ν}
    {k : κ} {v : ν} (hnd : (l.map key).Nodup) :
    (l.foldl (fun m e => m.insert (key e) (val e)) m).get? k = some v ↔
      (∃ e ∈ l, key e = k ∧ val e = v) ∨ (k ∉ l.map key ∧ m.get? k = some v) := by
  induction l generalizing m with
  | nil => simp
  | cons e l ih =>
    obtain ⟨he, hnd⟩ := List.nodup_cons.mp hnd
    rw [List.foldl_cons, ih hnd, get?_insert_eq_some, List.exists_mem_cons_iff, List.map_cons,
      List.mem_cons]
    constructor
    · rintro (h | ⟨hk, ⟨rfl, rfl⟩ | ⟨hne, hv⟩⟩)
      · exact .inl (.inr h)
      · exact .inl (.inl ⟨rfl, rfl⟩)
      · exact .inr ⟨not_or.mpr ⟨hne, hk⟩, hv⟩
    · rintro ((⟨rfl, rfl⟩ | h) | ⟨hk, hv⟩)
      · exact .inr ⟨he, .inl ⟨rfl, rfl⟩⟩
      · exact .inl h
      · exact .inr ⟨(not_or.mp hk).2, .inr ⟨(not_or.mp hk).1, hv⟩⟩

/-- The later map wins. -/
theorem get?_union (a b : SortedMap κ ν) (k : κ) : (a.union b).get? k = (b.get? k).or (a.get? k) := by
  apply Option.ext
  intro v
  have hkeys : k ∉ b.entries.map (·.1) ↔ b.get? k = none := by
    rw [show b.entries.map (·.1) = b.keys from rfl, mem_keys, Option.eq_none_iff_forall_ne_some, not_exists]
  rw [union, get?_foldl_insert (fun e : κ × ν => e.1) (fun e => e.2) b.keys_nodup, Option.or_eq_some_iff, hkeys]
  refine or_congr ?_ Iff.rfl
  rw [get?_eq_some_iff]
  exact ⟨fun ⟨e, he, hk, hv⟩ => hk ▸ hv ▸ he, fun h => ⟨(k, v), h, rfl, rfl⟩⟩

theorem union_assoc (a b c : SortedMap κ ν) : (a.union b).union c = a.union (b.union c) :=
  ext_get? fun k => by simp only [get?_union, Option.or_assoc]

@[simp] theorem union_empty (a : SortedMap κ ν) : a.union ∅ = a := rfl

@[simp] theorem empty_union (a : SortedMap κ ν) : union ∅ a = a :=
  ext_get? fun k => by rw [get?_union, get?_emptyCollection, Option.or_none]

theorem mem_of_get?_foldl_insert {l : List (κ × ν)} {m : SortedMap κ ν} {k : κ} {v : ν}
    (h : (l.foldl (fun m e => m.insert e.1 e.2) m).get? k = some v) : (k, v) ∈ l ∨ m.get? k = some v := by
  induction l generalizing m with
  | nil => exact .inr h
  | cons e l ih =>
    rcases ih h with hin | hget
    · exact .inl (List.mem_cons_of_mem e hin)
    · rcases get?_insert_eq_some.mp hget with ⟨rfl, rfl⟩ | ⟨_, hget⟩
      · exact .inl List.mem_cons_self
      · exact .inr hget

/-- What a key is bound to is bound to it in the list. -/
theorem mem_of_get?_ofList {l : List (κ × ν)} {k : κ} {v : ν} (h : (ofList l).get? k = some v) :
    (k, v) ∈ l := by
  rcases mem_of_get?_foldl_insert h with hin | hget
  · exact hin
  · cases hget

theorem get?_ofList {l : List (κ × ν)} {k : κ} {v : ν} (hnd : (l.map (·.1)).Nodup) :
    (ofList l).get? k = some v ↔ (k, v) ∈ l := by
  rw [ofList, get?_foldl_insert (l := l) (fun e => e.1) (fun e => e.2) hnd]
  constructor
  · rintro (⟨e, he, rfl, rfl⟩ | ⟨_, hv⟩)
    · exact he
    · cases hv
  · exact fun h => .inl ⟨(k, v), h, rfl, rfl⟩

/-- A map is what its entries give in any order. -/
theorem ofList_eq {l : List (κ × ν)} {m : SortedMap κ ν} (hnd : (l.map (·.1)).Nodup)
    (h : ∀ e, e ∈ l ↔ e ∈ m.toList) : ofList l = m := by
  apply ext_get?
  intro k
  apply Option.ext
  intro v
  rw [get?_ofList hnd, h, get?_eq_some_iff]

theorem ofList_toList (m : SortedMap κ ν) : ofList m.toList = m := ofList_eq m.keys_nodup fun _ => Iff.rfl

/-- A map from the places of a list to what stands there has the list as its values. -/
theorem values_eq_of_getElem? {m : SortedMap Nat ν} {l : List ν}
    (h : ∀ p v, m.get? p = some v ↔ l[p]? = some v) : m.values = l := by
  have hsorted : (l.zipIdx.map Prod.swap).Pairwise fun a b => compare a.1 b.1 = .lt := by
    rw [List.pairwise_map]
    have hlt := List.pairwise_lt_range' (s := 0) (n := l.length)
    rw [← List.zipIdx_map_snd 0 l, List.pairwise_map] at hlt
    exact hlt.imp Nat.compare_eq_lt.mpr
  have hm : m = ⟨l.zipIdx.map Prod.swap, hsorted⟩ := by
    refine ext_get? fun p => Option.ext fun v => ?_
    rw [h, get?_eq_some_iff, toList, ← List.mk_mem_zipIdx_iff_getElem?]
    exact ⟨fun hin => List.mem_map_of_mem (f := Prod.swap) hin, fun hin => by
      obtain ⟨e, he, heq⟩ := List.mem_map.mp hin
      cases heq
      exact he⟩
  rw [hm, values, List.map_map]
  exact List.zipIdx_map_fst 0 l

section Rename
variable {ι : Type u} [Ord ι] [Std.TransOrd ι] [Std.LawfulEqOrd ι] {m : SortedMap κ ν} {name : κ → ι}
  {back : ι → κ}

/-- A map under names that lead back to its keys. -/
theorem mem_renamed (h : ∀ k ∈ m.keys, back (name k) = k) {i : ι} {v : ν} :
    (i, v) ∈ (ofList (m.toList.map fun e => (name e.1, e.2))).toList ↔
      ∃ k, m.get? k = some v ∧ name k = i := by
  have hnd : ((m.toList.map fun e => (name e.1, e.2)).map (·.1)).Nodup := by
    have hkeys : (m.keys.map name).Nodup := by
      refine m.keys_nodup.map_on fun k hk j hj heq => ?_
      rw [← h k hk, heq, h j hj]
    rw [keys, List.map_map] at hkeys
    rwa [List.map_map]
  rw [← get?_eq_some_iff, get?_ofList hnd, List.mem_map]
  constructor
  · rintro ⟨e, he, heq⟩
    cases heq
    exact ⟨e.1, get?_eq_some_iff.mpr he, rfl⟩
  · rintro ⟨k, hk, rfl⟩
    exact ⟨(k, v), get?_eq_some_iff.mp hk, rfl⟩

/-- The names lead back to the map, in whatever order they stand. -/
theorem ofList_renamed (h : ∀ k ∈ m.keys, back (name k) = k) :
    ofList ((ofList (m.toList.map fun e => (name e.1, e.2))).toList.map fun e => (back e.1, e.2)) = m := by
  have hback (k : κ) (v : ν) (hk : m.get? k = some v) : back (name k) = k := h k (mem_keys.mpr ⟨v, hk⟩)
  refine ofList_eq ?_ ?_
  · have hkeys : ((ofList (m.toList.map fun e => (name e.1, e.2))).keys.map back).Nodup := by
      refine (keys_nodup _).map_on fun i hi j hj heq => ?_
      obtain ⟨v, hv⟩ := mem_keys.mp hi
      obtain ⟨w, hw⟩ := mem_keys.mp hj
      obtain ⟨k, hk, rfl⟩ := (mem_renamed h).mp (get?_eq_some_iff.mp hv)
      obtain ⟨l, hl, rfl⟩ := (mem_renamed h).mp (get?_eq_some_iff.mp hw)
      rw [hback k v hk, hback l w hl] at heq
      rw [heq]
    rw [keys, List.map_map] at hkeys
    rwa [List.map_map]
  · rintro ⟨k, v⟩
    rw [List.mem_map, ← get?_eq_some_iff]
    constructor
    · rintro ⟨e, he, heq⟩
      cases heq
      obtain ⟨k, hk, hname⟩ := (mem_renamed h).mp he
      rw [← hname, hback k e.2 hk]
      exact hk
    · intro hk
      exact ⟨(name k, v), (mem_renamed h).mpr ⟨k, hk, rfl⟩, by rw [hback k v hk]⟩

end Rename

/-- Rebinding every key of a map. -/
theorem get?_foldl_insert_toList {m : SortedMap κ ν} {g : ν → ν} {k : κ} {v : ν} :
    (m.toList.foldl (fun acc e => acc.insert e.1 (g e.2)) m).get? k = some v ↔
      ∃ u, m.get? k = some u ∧ g u = v := by
  rw [get?_foldl_insert (l := m.toList) (fun e => e.1) (fun e => g e.2) m.keys_nodup]
  constructor
  · rintro (⟨e, he, rfl, rfl⟩ | ⟨hk, hv⟩)
    · exact ⟨e.2, get?_eq_some_iff.mpr he, rfl⟩
    · exact (hk (mem_keys.mpr ⟨v, hv⟩)).elim
  · rintro ⟨u, hu, rfl⟩
    exact .inl ⟨(k, u), get?_eq_some_iff.mp hu, rfl, rfl⟩

end SortedMap

namespace SortedSet
variable {κ : Type u} [Ord κ]

instance : Membership κ (SortedSet κ) := ⟨fun s k => s.contains k = true⟩

theorem contains_iff_mem {s : SortedSet κ} {k : κ} : s.contains k = true ↔ k ∈ s := Iff.rfl

theorem mem_iff_get? {s : SortedSet κ} {k : κ} : k ∈ s ↔ s.get? k = some () := by
  rw [← contains_iff_mem, SortedMap.contains_iff]
  exact ⟨fun ⟨(), h⟩ => h, fun h => ⟨(), h⟩⟩

theorem size_eq_length (s : SortedSet κ) : s.size = s.elems.length := by
  simp [SortedMap.size, elems]

@[simp] theorem not_mem_empty (k : κ) : k ∉ (∅ : SortedSet κ) := by simp [mem_iff_get?]

variable [Std.LawfulEqOrd κ]

theorem elems_nodup (s : SortedSet κ) : s.elems.Nodup := SortedMap.keys_nodup s

variable [Std.TransOrd κ]

theorem ext {a b : SortedSet κ} (h : ∀ k, k ∈ a ↔ k ∈ b) : a = b := by
  apply SortedMap.ext_get?
  intro k
  have hk := h k
  simp only [mem_iff_get?] at hk
  apply Option.ext
  intro u
  exact hk

@[simp] theorem mem_elems {s : SortedSet κ} {k : κ} : k ∈ s.elems ↔ k ∈ s := by
  rw [mem_iff_get?]
  exact SortedMap.mem_keys.trans ⟨fun ⟨(), h⟩ => h, fun h => ⟨(), h⟩⟩

@[simp] theorem mem_add {s : SortedSet κ} {j k : κ} : k ∈ s.add j ↔ k = j ∨ k ∈ s := by
  rw [mem_iff_get?, mem_iff_get?, add, SortedMap.get?_insert_eq_some]
  tauto

@[simp] theorem mem_addAll {ks : List κ} {s : SortedSet κ} {k : κ} :
    k ∈ s.addAll ks ↔ k ∈ ks ∨ k ∈ s := by
  induction ks generalizing s with
  | nil => simp [addAll]
  | cons j ks ih =>
    change k ∈ (s.add j).addAll ks ↔ _
    rw [ih, mem_add, List.mem_cons]
    tauto

@[simp] theorem mem_ofElems {ks : List κ} {k : κ} : k ∈ ofElems ks ↔ k ∈ ks := by
  rw [ofElems, mem_addAll]
  exact or_iff_left (not_mem_empty k)

theorem mem_filter {s : SortedSet κ} {p : κ → Unit → Bool} {k : κ} :
    k ∈ SortedMap.filter s p ↔ k ∈ s ∧ p k () = true := by
  rw [mem_iff_get?, mem_iff_get?, SortedMap.get?_filter_eq_some]

@[simp] theorem mem_erase {s : SortedSet κ} {j k : κ} :
    k ∈ SortedMap.erase s j ↔ k ≠ j ∧ k ∈ s := by
  rw [mem_iff_get?, mem_iff_get?, SortedMap.get?_erase_eq_some]

@[simp] theorem mem_union {a b : SortedSet κ} {k : κ} :
    k ∈ SortedMap.union a b ↔ k ∈ a ∨ k ∈ b := by
  rw [← contains_iff_mem, SortedMap.union, SortedMap.foldl_insert_contains, or_comm]
  exact or_congr Iff.rfl mem_elems

@[simp] theorem mem_mapValues {m : SortedMap κ ν} {f : κ → ν → Unit} {k : κ} :
    k ∈ m.mapValues f ↔ m.contains k = true := by
  rw [mem_iff_get?, SortedMap.get?_mapValues, SortedMap.contains_iff]
  simp

theorem size_add {s : SortedSet κ} {k : κ} (h : k ∉ s) : (s.add k).size = s.size + 1 := by
  have hp : (s.add k).elems.Perm (k :: s.elems) := by
    refine (List.perm_ext_iff_of_nodup (elems_nodup _) ?_).mpr fun j => by simp
    exact List.nodup_cons.mpr ⟨by simpa using h, elems_nodup s⟩
  rw [size_eq_length, hp.length_eq, List.length_cons, size_eq_length]

theorem ofElems_elems (s : SortedSet κ) : ofElems s.elems = s := ext fun k => by rw [mem_ofElems, mem_elems]

theorem isEmpty_iff {s : SortedSet κ} : s.isEmpty = true ↔ ∀ k, k ∉ s := by
  rw [SortedMap.isEmpty_iff]
  refine forall_congr' fun k => ?_
  rw [mem_iff_get?]
  cases s.get? k <;> simp

theorem isEmpty_eq_false_iff {s : SortedSet κ} : s.isEmpty = false ↔ ∃ k, k ∈ s := by
  rw [← Bool.not_eq_true, isEmpty_iff]
  simp

end SortedSet
end CorpusIndex
