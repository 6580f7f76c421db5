/-!
# Finite maps kept in key order

A map is its list of entries, strictly increasing in the key. The order is part of the type, so two
maps with the same entries are equal and every walk over a map has one possible order.
Main statements: `ext_get?` (lookups decide equality) and the lookup equations `get?_insert`,
`get?_erase` and `get?_filter`.
-/
namespace CorpusIndex

/-- Entries in strictly increasing key order. -/
structure SortedMap (κ : Type u) (ν : Type v) [Ord κ] where
  entries : List (κ × ν)
  sorted : entries.Pairwise (fun a b => compare a.1 b.1 = .lt)

namespace SortedMap

variable {κ : Type u} {ν : Type v} {μ : Type w} [Ord κ]

instance [DecidableEq κ] [DecidableEq ν] : DecidableEq (SortedMap κ ν) := fun a b =>
  match decEq a.entries b.entries with
  | isTrue h => isTrue (by cases a; cases b; simp_all)
  | isFalse h => isFalse (fun e => h (e ▸ rfl))

instance [Repr κ] [Repr ν] : Repr (SortedMap κ ν) := ⟨fun m => reprPrec m.entries⟩

def empty : SortedMap κ ν := ⟨[], .nil⟩

instance : EmptyCollection (SortedMap κ ν) := ⟨empty⟩
instance : Inhabited (SortedMap κ ν) := ⟨empty⟩

def toList (m : SortedMap κ ν) : List (κ × ν) := m.entries
def keys (m : SortedMap κ ν) : List κ := m.entries.map (·.1)
def values (m : SortedMap κ ν) : List ν := m.entries.map (·.2)
def size (m : SortedMap κ ν) : Nat := m.entries.length
def isEmpty (m : SortedMap κ ν) : Bool := m.entries.isEmpty

/-- The value under the first matching key; the walk stops once the keys have passed `k`. -/
def lookup (k : κ) : List (κ × ν) → Option ν
  | [] => none
  | (j, v) :: rest =>
    match compare k j with
    | .lt => none
    | .eq => some v
    | .gt => lookup k rest

def get? (m : SortedMap κ ν) (k : κ) : Option ν := lookup k m.entries
def getD (m : SortedMap κ ν) (k : κ) (default : ν) : ν := (m.get? k).getD default
def contains (m : SortedMap κ ν) (k : κ) : Bool := (m.get? k).isSome

/-- The greatest key. -/
def lastKey? (m : SortedMap κ ν) : Option κ := m.entries.getLast?.map (·.1)

/-- The first entry, in key order, that satisfies `p`. -/
def find? (m : SortedMap κ ν) (p : κ → ν → Bool) : Option (κ × ν) :=
  m.entries.find? (fun e => p e.1 e.2)

/-- Entries with `k` bound to `v`, in place. -/
def place (k : κ) (v : ν) : List (κ × ν) → List (κ × ν)
  | [] => [(k, v)]
  | (j, w) :: rest =>
    match compare k j with
    | .lt => (k, v) :: (j, w) :: rest
    | .eq => (k, v) :: rest
    | .gt => (j, w) :: place k v rest

theorem mem_place {k : κ} {v : ν} {e : κ × ν} :
    {l : List (κ × ν)} → e ∈ place k v l → e = (k, v) ∨ e ∈ l
  | [], h => by simpa [place] using h
  | (j, w) :: rest, h => by
    unfold place at h
    split at h
    · simpa using h
    · rcases List.mem_cons.1 h with h | h
      · exact .inl h
      · exact .inr (.tail _ h)
    · rcases List.mem_cons.1 h with h | h
      · exact .inr (h ▸ .head _)
      · exact (mem_place h).imp id (.tail _)

section Order
variable [Std.TransOrd κ] [Std.LawfulEqOrd κ]

theorem sorted_place (k : κ) (v : ν) :
    {l : List (κ × ν)} → l.Pairwise (fun a b => compare a.1 b.1 = .lt) →
      (place k v l).Pairwise (fun a b => compare a.1 b.1 = .lt)
  | [], _ => by simp [place]
  | (j, w) :: rest, h => by
    unfold place
    have hr := List.pairwise_cons.1 h
    split
    · next hlt =>
      refine List.pairwise_cons.2 ⟨fun e he => ?_, h⟩
      rcases List.mem_cons.1 he with rfl | he
      · exact hlt
      · exact Std.TransCmp.lt_trans hlt (hr.1 e he)
    · next heq =>
      have hk : k = j := Std.LawfulEqCmp.eq_of_compare heq
      exact List.pairwise_cons.2 ⟨fun e he => by rw [hk]; exact hr.1 e he, hr.2⟩
    · next hgt =>
      refine List.pairwise_cons.2 ⟨fun e he => ?_, sorted_place k v hr.2⟩
      rcases mem_place he with rfl | he
      · exact Std.OrientedCmp.gt_iff_lt.1 hgt
      · exact hr.1 e he

/-- Bind `k` to `v`, replacing an earlier binding. -/
def insert (m : SortedMap κ ν) (k : κ) (v : ν) : SortedMap κ ν :=
  ⟨place k v m.entries, sorted_place k v m.sorted⟩

/-- Bindings of a list; the last one of a key wins. -/
def ofList (l : List (κ × ν)) : SortedMap κ ν := l.foldl (fun m e => m.insert e.1 e.2) empty

/-- Bindings of `a` overridden by those of `b`. -/
def union (a b : SortedMap κ ν) : SortedMap κ ν := b.entries.foldl (fun m e => m.insert e.1 e.2) a

/-- Rebind `k` to `f` of its value, or of `default` when it has none. -/
def update (m : SortedMap κ ν) (k : κ) (default : ν) (f : ν → ν) : SortedMap κ ν :=
  m.insert k (f (m.getD k default))

end Order

def filter (m : SortedMap κ ν) (p : κ → ν → Bool) : SortedMap κ ν :=
  ⟨m.entries.filter (fun e => p e.1 e.2), m.sorted.sublist List.filter_sublist⟩

def erase (m : SortedMap κ ν) (k : κ) : SortedMap κ ν := m.filter (fun j _ => compare k j != .eq)

/-- Change values and leave the keys. -/
def mapValues (m : SortedMap κ ν) (f : κ → ν → μ) : SortedMap κ μ :=
  ⟨m.entries.map (fun e => (e.1, f e.1 e.2)), List.Pairwise.map _ (fun _ _ h => h) m.sorted⟩

@[simp] theorem toList_empty : (empty : SortedMap κ ν).toList = [] := rfl
@[simp] theorem get?_empty (k : κ) : (empty : SortedMap κ ν).get? k = none := rfl
@[simp] theorem toList_filter (m : SortedMap κ ν) (p : κ → ν → Bool) :
    (m.filter p).toList = m.toList.filter (fun e => p e.1 e.2) := rfl
@[simp] theorem keys_mapValues (m : SortedMap κ ν) (f : κ → ν → μ) :
    (m.mapValues f).keys = m.keys := by simp [keys, mapValues, Function.comp_def]

theorem ext {a b : SortedMap κ ν} (h : a.entries = b.entries) : a = b := by
  cases a; cases b; simp_all

section Lookup
variable [Std.TransOrd κ] [Std.LawfulEqOrd κ]

/-- A lookup finds exactly the listed entry. -/
theorem lookup_eq_some_iff {k : κ} {v : ν} :
    {l : List (κ × ν)} → l.Pairwise (fun a b => compare a.1 b.1 = .lt) →
      (lookup k l = some v ↔ (k, v) ∈ l)
  | [], _ => by simp [lookup]
  | (j, w) :: rest, h => by
    have hr := List.pairwise_cons.1 h
    have ih := lookup_eq_some_iff (k := k) (v := v) hr.2
    unfold lookup
    split
    · next hlt =>
      refine ⟨fun e => by simp at e, fun e => ?_⟩
      rcases List.mem_cons.1 e with e | e
      · cases e; simp [Std.compare_self] at hlt
      · have := Std.TransCmp.lt_trans hlt (hr.1 _ e)
        simp [Std.compare_self] at this
    · next heq =>
      have hk : k = j := Std.LawfulEqCmp.eq_of_compare heq
      subst hk
      refine ⟨fun e => by cases e; exact .head _, fun e => ?_⟩
      rcases List.mem_cons.1 e with e | e
      · cases e; rfl
      · have := hr.1 _ e
        simp [Std.compare_self] at this
    · next hgt =>
      rw [ih]
      refine ⟨.tail _, fun e => ?_⟩
      rcases List.mem_cons.1 e with e | e
      · cases e; simp [Std.compare_self] at hgt
      · exact e

theorem get?_eq_some_iff {m : SortedMap κ ν} {k : κ} {v : ν} :
    m.get? k = some v ↔ (k, v) ∈ m.toList := lookup_eq_some_iff m.sorted

theorem lookup_place (k i : κ) (v : ν) :
    (l : List (κ × ν)) → l.Pairwise (fun a b => compare a.1 b.1 = .lt) →
      lookup i (place k v l) = if compare k i = .eq then some v else lookup i l
  | [], _ => by
    unfold place lookup lookup
    by_cases h : k = i
    · subst h; simp [Std.compare_self]
    · have h1 : compare i k ≠ .eq := fun e => h (Std.LawfulEqCmp.eq_of_compare e).symm
      have h2 : compare k i ≠ .eq := fun e => h (Std.LawfulEqCmp.eq_of_compare e)
      simp only [h2, if_false]
      split <;> simp_all
  | (j, w) :: rest, h => by
    have hr := List.pairwise_cons.1 h
    have ih := lookup_place k i v rest hr.2
    by_cases hk : k = i
    · subst hk
      simp only [Std.compare_self, if_true]
      rw [lookup_eq_some_iff (sorted_place k v h)]
      unfold place
      split
      · exact .head _
      · exact .head _
      · refine List.mem_cons_of_mem _ ?_
        rw [← lookup_eq_some_iff (sorted_place k v hr.2), ih]
        simp [Std.compare_self]
    · have h2 : compare k i ≠ .eq := fun e => hk (Std.LawfulEqCmp.eq_of_compare e)
      simp only [h2, if_false] at ih ⊢
      apply Option.ext
      intro x
      rw [lookup_eq_some_iff (sorted_place k v h), lookup_eq_some_iff h]
      refine ⟨fun e => ?_, fun e => ?_⟩
      · rcases mem_place e with e | e
        · cases e; exact absurd rfl hk
        · exact e
      · unfold place
        split
        · exact .tail _ e
        · next heq =>
          have hj : k = j := Std.LawfulEqCmp.eq_of_compare heq
          subst hj
          rcases List.mem_cons.1 e with e | e
          · cases e; exact absurd rfl hk
          · exact .tail _ e
        · rcases List.mem_cons.1 e with e | e
          · exact e ▸ .head _
          · refine List.mem_cons_of_mem _ ?_
            rw [← lookup_eq_some_iff (sorted_place k v hr.2), ih, lookup_eq_some_iff hr.2]
            exact e

@[simp] theorem get?_insert (m : SortedMap κ ν) (k i : κ) (v : ν) :
    (m.insert k v).get? i = if compare k i = .eq then some v else m.get? i :=
  lookup_place k i v m.entries m.sorted

theorem get?_filter (m : SortedMap κ ν) (p : κ → ν → Bool) (k : κ) :
    (m.filter p).get? k = (m.get? k).filter (p k) := by
  apply Option.ext
  intro v
  rw [get?_eq_some_iff, toList_filter, List.mem_filter, ← get?_eq_some_iff,
    Option.filter_eq_some_iff]

@[simp] theorem get?_erase (m : SortedMap κ ν) (k i : κ) :
    (m.erase k).get? i = if compare k i = .eq then none else m.get? i := by
  unfold erase
  rw [get?_filter]
  by_cases h : compare k i = .eq <;> cases m.get? i <;> simp [h]

theorem get?_mapValues (m : SortedMap κ ν) (f : κ → ν → μ) (k : κ) :
    (m.mapValues f).get? k = (m.get? k).map (f k) := by
  apply Option.ext
  intro v
  rw [get?_eq_some_iff, Option.map_eq_some_iff]
  simp only [mapValues, toList, List.mem_map, Prod.mk.injEq]
  constructor
  · rintro ⟨e, he, rfl, rfl⟩
    exact ⟨e.2, get?_eq_some_iff.2 he, rfl⟩
  · rintro ⟨w, hw, rfl⟩
    exact ⟨(k, w), get?_eq_some_iff.1 hw, rfl, rfl⟩

/-- Maps that answer every lookup alike are equal. -/
theorem ext_get? {a b : SortedMap κ ν} (h : ∀ k, a.get? k = b.get? k) : a = b := by
  apply ext
  have hm : ∀ e, e ∈ a.entries ↔ e ∈ b.entries := fun e => by
    have ha := get?_eq_some_iff (m := a) (k := e.1) (v := e.2)
    have hb := get?_eq_some_iff (m := b) (k := e.1) (v := e.2)
    rw [h e.1] at ha
    exact ha.symm.trans hb
  have nodup : ∀ m : SortedMap κ ν, m.entries.Nodup := fun m =>
    m.sorted.imp fun {x y} hxy e => by subst e; simp [Std.compare_self] at hxy
  exact List.Perm.eq_of_pairwise
    (fun x y _ _ hxy hyx => by
      have := Std.TransCmp.lt_trans hxy hyx
      simp [Std.compare_self] at this)
    a.sorted b.sorted ((List.perm_ext_iff_of_nodup (nodup a) (nodup b)).2 hm)

end Lookup

end SortedMap

/-- Sets are maps that bind every member to nothing. -/
abbrev SortedSet (κ : Type u) [Ord κ] := SortedMap κ Unit

namespace SortedSet

variable {κ : Type u} [Ord κ]

/-- Members in increasing order. -/
def elems (s : SortedSet κ) : List κ := s.entries.map (·.1)

def remove (s : SortedSet κ) (p : κ → Bool) : SortedSet κ := s.filter (fun k _ => !p k)

variable [Std.TransOrd κ] [Std.LawfulEqOrd κ]

def add (s : SortedSet κ) (k : κ) : SortedSet κ := s.insert k ()
def addAll (s : SortedSet κ) (ks : List κ) : SortedSet κ := ks.foldl add s
def ofElems (ks : List κ) : SortedSet κ := addAll .empty ks

end SortedSet
end CorpusIndex
