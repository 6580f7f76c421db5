import CorpusIndex.Node.Format
import CorpusIndex.Proofs.Except
import CorpusIndex.Proofs.Json.Reader
import CorpusIndex.Proofs.SortedMap

/-!
# Values decoded

What a value was made of comes out of it again: numbers, lists, sets, maps, and the fields of a record,
of which those that hold nothing are not written.
-/
namespace CorpusIndex

open Json

variable {α β κ : Type} {depth : Nat} {item : Json → Decoded α} {f : α → Json}

namespace Json

/-! ### Numbers -/

/-- The text of the number stands for the number. -/
def DoubleReadsBack (x : Float) : Prop :=
  ∃ literal v, ofFloat x = .number literal ∧ numberValue? literal = some v ∧ v.toFloat = x

/-- The text of the number stands for the number. -/
def SingleReadsBack (x : Float32) : Prop :=
  ∃ literal v, ofFloat32 x = .number literal ∧ numberValue? literal = some v ∧ v.toFloat32 = x

/-- The number is a signed word. -/
def Signed (n : Int) : Prop := -Decimal.signedBound ≤ n ∧ n < Decimal.signedBound

theorem legible_ofFloat {shape : Shape} {x : Float} (h : DoubleReadsBack x) :
    Legible depth shape (ofFloat x) := by
  obtain ⟨literal, v, hx, hv, _⟩ := h
  rw [hx]
  exact Legible.number hv

theorem legible_ofFloat32 {shape : Shape} {x : Float32} (h : SingleReadsBack x) :
    Legible depth shape (ofFloat32 x) := by
  obtain ⟨literal, v, hx, hv, _⟩ := h
  rw [hx]
  exact Legible.number hv

theorem asFloat32_ofFloat32 {x : Float32} (h : SingleReadsBack x) : asFloat32 (ofFloat32 x) = .ok x := by
  obtain ⟨literal, v, hx, hv, hsame⟩ := h
  simp only [hx, asFloat32, hv, hsame]

theorem legible_ofNat {shape : Shape} {n : Nat} (h : n ≤ Decimal.maxWord) :
    Legible depth shape (ofNat n) := Legible.number (numberValue?_toDigits h)

theorem asNat_ofNat {n : Nat} (h : n ≤ Decimal.maxWord) : asNat (ofNat n) = .ok n := by
  simp [ofNat, asNat, numberValue?_toDigits h]

/-- A number beyond a word is not taken for a smaller one. -/
theorem asNat_ofNat_eq_ok {n m : Nat} (h : asNat (ofNat n) = .ok m) : m = n := by
  simp only [ofNat, asNat, numberValue?, digits_literal false n (minus_toDigits n), Literal.value?] at h
  rcases habsorb : absorb 0 (Nat.toDigits 10 n) with ⟨k, dropped⟩
  rw [habsorb] at h
  by_cases hdropped : dropped = 0
  · subst hdropped
    have hnk : n = k := (ofDigits_toDigits n).symm.trans (absorb_complete habsorb)
    have hkm : k = m := by simpa using h
    exact (hnk.trans hkm).symm
  · simp only [hdropped, if_false] at h
    cases hreal : scaled k.toUInt64.toFloat dropped 4 with
    | none => simp [hreal, malformed] at h
    | some x => simp [hreal, malformed] at h

theorem numberValue?_ofInt {n : Int} (h : Signed n) :
    ∃ literal, ofInt n = .number literal ∧ numberValue? literal = some (.whole n) := by
  have hbounds := h
  unfold Signed at hbounds
  unfold ofInt
  split
  next hneg =>
    refine ⟨_, rfl, ?_⟩
    rw [numberValue?_minus (by omega) (by omega)]
    exact congrArg (fun m => some (NumberValue.whole m)) (by omega)
  next hpos =>
    have hword : n.natAbs ≤ Decimal.maxWord := by
      have : Decimal.signedBound ≤ Decimal.maxWord := by decide
      omega
    refine ⟨_, rfl, ?_⟩
    rw [numberValue?_toDigits hword]
    exact congrArg (fun m => some (NumberValue.whole m)) (by omega)

/-! ### Lists, sets and maps -/

theorem asList_map {l : List α} (h : ∀ a ∈ l, item (f a) = .ok a) :
    asList item (.array (l.map f)) = .ok l := mapM_map_eq_ok h

theorem asList_strings (l : List String) : asList asString (strings l) = .ok l := asList_map fun _ _ => rfl

theorem asPair_pair {first : Json → Decoded α} {second : Json → Decoded β} {i j : Json} {a : α} {b : β}
    (hi : first i = .ok a) (hj : second j = .ok b) : asPair first second (.array [i, j]) = .ok (a, b) := by
  simp only [asPair, hi, hj]
  rfl

section Order
variable [Ord κ] [Std.TransOrd κ] [Std.LawfulEqOrd κ]

theorem asSet_elems {item : Json → Decoded κ} {f : κ → Json} {s : SortedSet κ}
    (h : ∀ k ∈ s.elems, item (f k) = .ok k) : asSet item (.array (s.elems.map f)) = .ok s := by
  rw [asSet, asList_map h, ok_bind, SortedSet.ofElems_elems]
  rfl

/-- Entries under names that stand for their keys. -/
theorem asMap_entries {key : String → Decoded κ} (name : κ → String) {l : List (κ × α)}
    (hkey : ∀ e ∈ l, key (name e.1) = .ok e.1) (hitem : ∀ e ∈ l, item (f e.2) = .ok e.2) :
    asMap key item (.object (l.map fun e => (name e.1, f e.2))) = .ok (.ofList l) := by
  have hentry : ∀ e ∈ l, (do return (← key (name e.1), ← item (f e.2)) : Decoded (κ × α)) = .ok e := by
    intro e he
    rw [hkey e he, hitem e he]
    rfl
  rw [asMap, mapM_map_eq_ok hentry, ok_bind]
  rfl

theorem asMap_object {key : String → Decoded κ} (name : κ → String) {m : SortedMap κ α}
    (hkey : ∀ k, key (name k) = .ok k) (hitem : ∀ e ∈ m.toList, item (f e.2) = .ok e.2) :
    asMap key item (.object (m.toList.map fun e => (name e.1, f e.2))) = .ok m := by
  rw [asMap_entries name (fun e _ => hkey e.1) hitem, SortedMap.ofList_toList]

end Order

theorem asStringMap_toJson {m : SortedMap String α} (h : ∀ e ∈ m.toList, item (f e.2) = .ok e.2) :
    asStringMap item (m.toJson f) = .ok m :=
  asMap_object (fun k => k) (fun _ => rfl) h

/-! ### Records -/

/-- The fields of a record that are written. -/
def written (fs : List (String × Option Json)) : List (String × Json) :=
  fs.filterMap fun e => e.2.map (e.1, ·)

variable {fs : List (String × Option Json)} {known seen : List String} {name : String} {j : Json}
  {check : String → Json → Decoded Unit}

theorem written_none : written ((name, none) :: fs) = written fs := rfl

theorem written_some : written ((name, some j) :: fs) = (name, j) :: written fs := rfl

theorem mem_written {e : String × Json} : e ∈ written fs ↔ (e.1, some e.2) ∈ fs := by
  rw [written, List.mem_filterMap]
  constructor
  · rintro ⟨⟨name, o⟩, hin, h⟩
    obtain ⟨j, rfl, rfl⟩ := Option.map_eq_some_iff.mp h
    exact hin
  · exact fun h => ⟨_, h, rfl⟩

/-- `P` holds of every field that is written. -/
def AllWritten (P : String → Json → Prop) (fs : List (String × Option Json)) : Prop :=
  ∀ name j, (name, some j) ∈ fs → P name j

namespace AllWritten
variable {P : String → Json → Prop}

theorem nil : AllWritten P [] := fun _ _ h => by cases h

theorem cons (h : P name j) (hs : AllWritten P fs) : AllWritten P ((name, some j) :: fs) := by
  intro other i hi
  rcases List.mem_cons.mp hi with heq | hi
  · cases heq
    exact h
  · exact hs other i hi

/-- A field that is left out where it holds nothing. -/
theorem map {o : Option α} (h : ∀ a ∈ o, P name (f a)) (hs : AllWritten P fs) :
    AllWritten P ((name, o.map f) :: fs) := by
  intro other i hi
  rcases List.mem_cons.mp hi with heq | hi
  · obtain ⟨rfl, hmap⟩ := Prod.mk.inj heq
    obtain ⟨a, ha, rfl⟩ := Option.map_eq_some_iff.mp hmap.symm
    exact h a ha
  · exact hs other i hi

end AllWritten

theorem knownFields_written (hnd : (fs.map (·.1)).Nodup) (hnew : ∀ name ∈ fs.map (·.1), name ∉ seen)
    (hknown : ∀ name ∈ fs.map (·.1), name ∈ known)
    (hcheck : AllWritten (fun name j => check name j = .ok ()) fs) :
    knownFields known check seen (written fs) = .ok (written fs) := by
  induction fs generalizing seen with
  | nil => rfl
  | cons e fs ih =>
      obtain ⟨name, o⟩ := e
      obtain ⟨hname, hrest⟩ := List.nodup_cons.mp hnd
      obtain ⟨hfresh, hfreshRest⟩ := List.forall_mem_cons.mp hnew
      obtain ⟨hin, hinRest⟩ := List.forall_mem_cons.mp hknown
      have hcheckRest : AllWritten (fun name j => check name j = .ok ()) fs :=
        fun other i hi => hcheck other i (List.mem_cons_of_mem _ hi)
      cases o with
      | none =>
          rw [written_none]
          exact ih hrest hfreshRest hinRest hcheckRest
      | some j =>
          have hj : check name j = .ok () := hcheck name j List.mem_cons_self
          rw [written_some]
          have hseen : ∀ other ∈ fs.map (·.1), other ∉ name :: seen := by
            intro other hother hmem
            rcases List.mem_cons.mp hmem with rfl | hmem
            · exact hname hother
            · exact hfreshRest other hother hmem
          rw [knownFields, if_pos (List.contains_iff_mem.mpr hin),
            if_neg (fun h => hfresh (List.contains_iff_mem.mp h)), hj, ok_bind,
            ih hrest hseen hinRest hcheckRest]
          rfl

/-- A record is decoded from the fields that are written of it. -/
theorem record_present (hnd : (fs.map (·.1)).Nodup) (hknown : ∀ name ∈ fs.map (·.1), name ∈ known)
    (hcheck : AllWritten (fun name j => check name j = .ok ()) fs) :
    record known (.present fs) check = .ok (written fs) :=
  knownFields_written hnd (by simp) hknown hcheck

theorem lookup_written (hnd : (fs.map (·.1)).Nodup) {o : Option Json} (h : (name, o) ∈ fs) :
    (written fs).lookup name = o := by
  induction fs with
  | nil => cases h
  | cons e fs ih =>
      obtain ⟨hname, hrest⟩ := List.nodup_cons.mp hnd
      rcases List.mem_cons.mp h with rfl | hin
      · cases o with
        | none =>
            rw [written_none, List.lookup_eq_none_iff]
            rintro ⟨other, j⟩ hj
            refine bne_iff_ne.mpr ?_
            rintro rfl
            exact hname (List.mem_map.mpr ⟨_, mem_written.mp hj, rfl⟩)
        | some j => rw [written_some, List.lookup_cons_self]
      · have hne : (name == e.1) = false := by
          refine beq_eq_false_iff_ne.mpr ?_
          rintro rfl
          exact hname (List.mem_map.mpr ⟨_, hin, rfl⟩)
        obtain ⟨other, o'⟩ := e
        cases o' with
        | none => exact ih hrest hin
        | some j =>
            rw [written_some, List.lookup_cons, hne]
            exact ih hrest hin

/-! What is decoded under the name of a field. -/

theorem required_written (hnd : (fs.map (·.1)).Nodup) (j : Json) (h : (name, some j) ∈ fs) {a : α}
    (hj : item j = .ok a) : Fields.required (written fs) name item = .ok a := by
  simp only [Fields.required, lookup_written hnd h, hj]

theorem optional_written (hnd : (fs.map (·.1)).Nodup) (j : Json) (h : (name, some j) ∈ fs) {a d : α}
    (hj : item j = .ok a) : Fields.optional (written fs) name d item = .ok a := by
  simp only [Fields.optional, lookup_written hnd h, hj]

/-- A field that is left out where it holds nothing. -/
theorem optional_map_written (hnd : (fs.map (·.1)).Nodup) (f : α → Json) {o : Option α} (h : (name, o.map f) ∈ fs)
    (hitem : ∀ a ∈ o, asOption item (f a) = .ok (some a)) :
    Fields.optional (written fs) name none (asOption item) = .ok o := by
  cases o with
  | none => simp only [Fields.optional, lookup_written hnd h, Option.map_none]
  | some a => exact optional_written hnd (f a) h (hitem a rfl)

theorem optional_string_written (hnd : (fs.map (·.1)).Nodup) {o : Option String}
    (h : (name, o.map Json.string) ∈ fs) :
    Fields.optional (written fs) name none (asOption asString) = .ok o :=
  optional_map_written hnd Json.string h fun _ _ => rfl

/-! ### Records and containers that are taken -/

section Taken
variable {sure : Prop} {shape : Shape}

theorem Taken.map {l : List α} (h : ∀ a ∈ l, ∀ n, Taken sure depth (shape.item n) (f a)) :
    Taken sure (depth + 1) shape (.array (l.map f)) := by
  refine Taken.array fun n j hj => ?_
  obtain ⟨a, ha, rfl⟩ := List.mem_map.mp (List.mem_of_getElem? hj)
  exact h a ha n

theorem Taken.entries {l : List (κ × α)} (name : κ → String) (h : ∀ e ∈ l, Taken sure depth .any (f e.2)) :
    Taken sure (depth + 1) .any (.object (l.map fun e => (name e.1, f e.2))) := by
  refine Taken.object fun g hg => ⟨.any, rfl, ?_⟩
  obtain ⟨e, he, rfl⟩ := List.mem_map.mp hg
  exact h e he

/-- A record is taken by a reader that reads all its fields as they are. -/
theorem Taken.present (hshape : ∀ name ∈ fs.map (·.1), shape.field? name = some .any)
    (h : AllWritten (fun _ j => Taken sure depth .any j) fs) : Taken sure (depth + 1) shape (.present fs) := by
  refine Taken.object fun e he => ⟨.any, ?_, h e.1 e.2 (mem_written.mp he)⟩
  exact hshape e.1 (List.mem_map.mpr ⟨_, mem_written.mp he, rfl⟩)

theorem taken_ofNat (n : Nat) : Taken False depth shape (ofNat n) :=
  Taken.number (numberText_ofNat false n)

theorem taken_ofInt (n : Int) : Taken False depth shape (ofInt n) := by
  unfold ofInt
  split
  next => exact Taken.number (numberText_ofNat true n.natAbs)
  next => exact Taken.number (numberText_ofNat false n.natAbs)

theorem taken_ofFloat (x : Float) : Taken False depth shape (ofFloat x) := by
  unfold ofFloat
  split
  next h => exact Taken.number (numberText_write? h)
  next => exact Legible.null.taken

theorem taken_ofFloat32 (x : Float32) : Taken False depth shape (ofFloat32 x) := by
  unfold ofFloat32
  split
  next h => exact Taken.number (numberText_write? h)
  next => exact Legible.null.taken

end Taken

/-! ### Legible records and containers -/

theorem Legible.list {js : List Json} (h : ∀ j ∈ js, Legible depth .any j) :
    Legible (depth + 1) .any (.array js) :=
  Legible.array fun _ j hj => h j (List.mem_of_getElem? hj)

theorem Legible.map {l : List α} (h : ∀ a ∈ l, Legible depth .any (f a)) :
    Legible (depth + 1) .any (.array (l.map f)) := (Taken.map fun a ha _ => (h a ha).taken).legible

theorem Legible.strings (l : List String) : Legible (depth + 1) .any (strings l) :=
  Legible.map fun s _ => Legible.string s

theorem Legible.entries {l : List (κ × α)} (name : κ → String)
    (h : ∀ e ∈ l, Legible depth .any (f e.2)) :
    Legible (depth + 1) .any (.object (l.map fun e => (name e.1, f e.2))) :=
  (Taken.entries name fun e he => (h e he).taken).legible

theorem Legible.ofMap {m : SortedMap String α} (h : ∀ e ∈ m.toList, Legible depth .any (f e.2)) :
    Legible (depth + 1) .any (m.toJson f) := Legible.entries (fun k => k) h

theorem field?_ofFields {names : List String} (h : name ∈ names) :
    (Shape.ofFields names).field? name = some .any := by
  have hlookup : (names.map fun n => (n, Shape.any)).lookup name = some .any := by
    induction names with
    | nil => cases h
    | cons n names ih =>
        rw [List.map_cons, List.lookup_cons]
        rcases List.mem_cons.mp h with rfl | h
        · rw [beq_self_eq_true]
        · split
          next => rfl
          next => exact ih h
  exact hlookup

/-- A record is legible for a reader that reads all its fields as they are. -/
theorem Legible.present {shape : Shape} (hshape : ∀ name ∈ fs.map (·.1), shape.field? name = some .any)
    (h : AllWritten (fun _ j => Legible depth .any j) fs) : Legible (depth + 1) shape (.present fs) :=
  (Taken.present hshape fun name j hj => (h name j hj).taken).legible

end Json
end CorpusIndex
