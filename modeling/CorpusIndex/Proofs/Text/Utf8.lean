import CorpusIndex.Bytes

/-!
# Texts read back from their bytes

Every character is decoded from its own bytes, whatever follows them, so a text is decoded from its
UTF-8 form.
-/
namespace CorpusIndex.Text

variable {low high bits more m v : Nat} {rest : List UInt8}

theorem toNat_ofNat {n : Nat} (h : n < 256) : (UInt8.ofNat n).toNat = n := UInt8.toNat_ofNat_of_lt h

/-! ### Bytes after the first -/

theorem utf8Parts_last (hm : m < 64) (hlow : low ≤ m + 128) (hhigh : m + 128 ≤ high) :
    utf8Parts (some ⟨0, low, high, bits⟩) (UInt8.ofNat (m + 128) :: rest) =
      some (Char.ofNat (bits * 64 + m)) :: utf8Parts none rest := by
  have hbits : (m + 128) % 64 = m := by omega
  simp only [utf8Parts, toNat_ofNat (show m + 128 < 256 by omega), hlow, hhigh, hbits, and_self, if_true]

theorem utf8Parts_more (hm : m < 64) (hlow : low ≤ m + 128) (hhigh : m + 128 ≤ high) :
    utf8Parts (some ⟨more + 1, low, high, bits⟩) (UInt8.ofNat (m + 128) :: rest) =
      utf8Parts (some ⟨more, 0x80, 0xBF, bits * 64 + m⟩) rest := by
  have hbits : (m + 128) % 64 = m := by omega
  simp only [utf8Parts, toNat_ofNat (show m + 128 < 256 by omega), hlow, hhigh, hbits, and_self, if_true]

/-! ### First bytes -/

theorem utf8Lead_one (h : v ≤ 127) : utf8Lead (UInt8.ofNat v) = .single (Char.ofNat v) := by
  simp only [utf8Lead, toNat_ofNat (show v < 256 by omega)]
  rw [if_pos (by omega)]

theorem utf8Lead_two (h : 127 < v) (h' : v ≤ 2047) :
    utf8Lead (UInt8.ofNat (v / 64 % 32 + 192)) = .starts ⟨0, 0x80, 0xBF, v / 64⟩ := by
  simp only [utf8Lead, toNat_ofNat (show v / 64 % 32 + 192 < 256 by omega)]
  rw [if_neg (by omega), if_neg (by omega), if_pos (by omega)]
  have hbits : v / 64 % 32 + 192 - 0xC0 = v / 64 := by omega
  rw [hbits]

/-- The range of the second byte leaves out numbers that have shorter forms and those that stand for no
character. -/
theorem utf8Lead_three (h : 2047 < v) (h' : v ≤ 65535) (hv : v.isValidChar) :
    ∃ low high, utf8Lead (UInt8.ofNat (v / 4096 % 16 + 224)) = .starts ⟨1, low, high, v / 4096⟩ ∧
      low ≤ v / 64 % 64 + 128 ∧ v / 64 % 64 + 128 ≤ high := by
  have hvalid : v < 55296 ∨ 57343 < v ∧ v < 1114112 := hv
  simp only [utf8Lead, toNat_ofNat (show v / 4096 % 16 + 224 < 256 by omega)]
  rw [if_neg (by omega), if_neg (by omega), if_neg (by omega)]
  split
  next he0 =>
    have hbits : v / 4096 = 0 := by
      rw [beq_iff_eq] at he0
      omega
    exact ⟨0xA0, 0xBF, by rw [hbits], by omega, by omega⟩
  next =>
    split
    next hed =>
      have hbits : v / 4096 = 0xD := by
        rw [beq_iff_eq] at hed
        omega
      exact ⟨0x80, 0x9F, by rw [hbits], by omega, by omega⟩
    next =>
      rw [if_pos (by omega)]
      have hbits : v / 4096 % 16 + 224 - 0xE0 = v / 4096 := by omega
      exact ⟨0x80, 0xBF, by rw [hbits], by omega, by omega⟩

theorem utf8Lead_four (h : 65535 < v) (hv : v.isValidChar) :
    ∃ low high, utf8Lead (UInt8.ofNat (v / 262144 % 8 + 240)) = .starts ⟨2, low, high, v / 262144⟩ ∧
      low ≤ v / 4096 % 64 + 128 ∧ v / 4096 % 64 + 128 ≤ high := by
  have hvalid : v < 55296 ∨ 57343 < v ∧ v < 1114112 := hv
  have hne (k : Nat) (hk : k < 240) : (v / 262144 % 8 + 240 == k) = false := by
    rw [beq_eq_false_iff_ne]
    omega
  simp only [utf8Lead, toNat_ofNat (show v / 262144 % 8 + 240 < 256 by omega), hne 0xE0 (by decide),
    hne 0xED (by decide), Bool.false_eq_true, if_false]
  rw [if_neg (by omega), if_neg (by omega), if_neg (by omega), if_neg (by omega)]
  split
  next hf0 =>
    have hbits : v / 262144 = 0 := by
      rw [beq_iff_eq] at hf0
      omega
    exact ⟨0x90, 0xBF, by rw [hbits], by omega, by omega⟩
  next =>
    split
    next hf4 =>
      have hbits : v / 262144 % 8 + 240 - 0xF0 = v / 262144 := by omega
      exact ⟨0x80, 0xBF, by rw [hbits], by omega, by omega⟩
    next hf4 =>
      have hlast : v / 262144 = 4 := by omega
      simp only [hlast]
      exact ⟨0x80, 0x8F, rfl, by omega, by omega⟩

/-! ### Characters and texts -/

theorem utf8Parts_char (c : Char) (rest : List UInt8) :
    utf8Parts none (String.utf8EncodeChar c ++ rest) = some c :: utf8Parts none rest := by
  have hc : Char.ofNat c.val.toNat = c := Char.ofNat_toNat c
  have hv : c.val.toNat.isValidChar := c.valid
  unfold String.utf8EncodeChar
  generalize c.val.toNat = v at hc hv
  simp only
  split
  next h1 => simp only [List.cons_append, List.nil_append, utf8Parts, utf8Lead_one h1, hc]
  next h1 =>
    split
    next h2 =>
      have hsum : v / 64 * 64 + v % 64 = v := by omega
      simp only [List.cons_append, List.nil_append]
      rw [utf8Parts, utf8Lead_two (by omega) h2]
      simp only
      rw [utf8Parts_last (by omega) (by omega) (by omega), hsum, hc]
    next h2 =>
      split
      next h3 =>
        obtain ⟨low, high, hlead, hlow, hhigh⟩ := utf8Lead_three (by omega) h3 hv
        have hsum : (v / 4096 * 64 + v / 64 % 64) * 64 + v % 64 = v := by omega
        simp only [List.cons_append, List.nil_append]
        rw [utf8Parts, hlead]
        simp only
        rw [utf8Parts_more (by omega) hlow hhigh, utf8Parts_last (by omega) (by omega) (by omega), hsum, hc]
      next h3 =>
        obtain ⟨low, high, hlead, hlow, hhigh⟩ := utf8Lead_four (by omega) hv
        have hsum : ((v / 262144 * 64 + v / 4096 % 64) * 64 + v / 64 % 64) * 64 + v % 64 = v := by omega
        simp only [List.cons_append, List.nil_append]
        rw [utf8Parts, hlead]
        simp only
        rw [utf8Parts_more (by omega) hlow hhigh, utf8Parts_more (by omega) (by omega) (by omega),
          utf8Parts_last (by omega) (by omega) (by omega), hsum, hc]

theorem utf8Parts_flatMap (cs : List Char) :
    utf8Parts none (cs.flatMap String.utf8EncodeChar) = cs.map some := by
  induction cs with
  | nil => rfl
  | cons c cs ih => rw [List.flatMap_cons, utf8Parts_char, ih, List.map_cons]

/-- Bytes are listed from the back of those listed so far. -/
theorem toList_loop (bytes : ByteArray) (i : Nat) (seen : List UInt8) :
    ByteArray.toList.loop bytes i seen = seen.reverse ++ bytes.data.toList.drop i := by
  induction i, seen using ByteArray.toList.loop.induct bytes with
  | case1 i seen hi ih =>
      have hin : i < bytes.data.toList.length := hi
      have hget : bytes.get! i = bytes.data.toList[i] := by
        change bytes.data[i]! = _
        rw [getElem!_pos bytes.data i hi, Array.getElem_toList]
      rw [ByteArray.toList.loop, if_pos hi, ih, List.reverse_cons, hget, List.append_assoc,
        List.singleton_append, ← List.drop_eq_getElem_cons]
  | case2 i seen hi =>
      have hlen : bytes.data.toList.length ≤ i := by
        change ¬ i < bytes.data.toList.length at hi
        omega
      rw [ByteArray.toList.loop, if_neg hi, List.drop_eq_nil_of_le hlen, List.append_nil]

theorem toList_toUTF8 (s : String) : s.toUTF8.toList = s.toList.flatMap String.utf8EncodeChar := by
  have hbytes : s.toUTF8 = (s.toList.flatMap String.utf8EncodeChar).toByteArray := by
    change s.toByteArray = s.toList.utf8Encode
    rw [← String.toByteArray_ofList, String.ofList_toList]
  rw [hbytes, ByteArray.toList, toList_loop, List.data_toByteArray]
  rfl

/-- A text is read back from its bytes. -/
theorem utf8?_toUTF8 (s : String) : utf8? s.toUTF8.toList = some s := by
  have hall (cs : List Char) : (cs.map some).mapM id = some cs := by
    induction cs with
    | nil => rfl
    | cons c cs ih => rw [List.map_cons, List.mapM_cons, ih]; rfl
  rw [utf8?, toList_toUTF8, utf8Parts_flatMap, hall, Option.map_some, String.ofList_toList]

end CorpusIndex.Text
