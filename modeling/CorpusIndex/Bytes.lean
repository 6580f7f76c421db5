/-!
# Bytes

Bytes make up words, least significant byte first, and a digest is written in their hexadecimal digits. As
text they are UTF-8: they become characters, with a mark for every ill-formed part. An ill-formed part is the
longest start of a sequence that could still have become a character, or a single byte that starts none.
-/
namespace CorpusIndex

/-! ### Words -/

namespace Digest

/-- The number whose base-256 digits are `bytes`, least significant first. -/
def littleEndian (bytes : List UInt8) : Nat := bytes.foldr (fun b n => b.toNat + 256 * n) 0

/-- A 32-bit word from at most four bytes. -/
def word32 (bytes : List UInt8) : UInt32 := (littleEndian bytes).toUInt32

/-- A 64-bit word from at most eight bytes. -/
def word64 (bytes : List UInt8) : UInt64 := (littleEndian bytes).toUInt64

/-- Exactly `width` lower-case hexadecimal digits of `n`, most significant first. -/
def hexDigits : (width : Nat) → Nat → List Char
  | 0, _ => []
  | width + 1, n => hexDigits width (n / 16) ++ [Nat.digitChar (n % 16)]

def hexText (width n : Nat) : String := String.ofList (hexDigits width n)

end Digest

/-! ### Characters -/

namespace Text

/-- What a decoder still owes: `more + 1` bytes, the next one within `low` to `high`, after the bits
`bits` of the character have been seen. -/
structure Utf8Debt where
  more : Nat
  low : Nat
  high : Nat
  bits : Nat

/-- The meaning of a byte that starts a character. -/
inductive Utf8Lead where
  | single (c : Char)
  | starts (debt : Utf8Debt)
  | illFormed

def utf8Lead (b : UInt8) : Utf8Lead :=
  let n := b.toNat
  if n < 0x80 then .single (Char.ofNat n)
  else if n < 0xC2 then .illFormed
  else if n < 0xE0 then .starts ⟨0, 0x80, 0xBF, n - 0xC0⟩
  else if n == 0xE0 then .starts ⟨1, 0xA0, 0xBF, 0⟩
  else if n == 0xED then .starts ⟨1, 0x80, 0x9F, 0xD⟩
  else if n < 0xF0 then .starts ⟨1, 0x80, 0xBF, n - 0xE0⟩
  else if n == 0xF0 then .starts ⟨2, 0x90, 0xBF, 0⟩
  else if n < 0xF4 then .starts ⟨2, 0x80, 0xBF, n - 0xF0⟩
  else if n == 0xF4 then .starts ⟨2, 0x80, 0x8F, 4⟩
  else .illFormed

/-- Characters in order, `none` for an ill-formed part. -/
def utf8Parts : Option Utf8Debt → List UInt8 → List (Option Char)
  | none, [] => []
  | some _, [] => [none]
  | none, b :: rest =>
    match utf8Lead b with
    | .single c => some c :: utf8Parts none rest
    | .starts d => utf8Parts (some d) rest
    | .illFormed => none :: utf8Parts none rest
  | some d, b :: rest =>
    if d.low ≤ b.toNat ∧ b.toNat ≤ d.high then
      let bits := d.bits * 64 + b.toNat % 64
      match d.more with
      | 0 => some (Char.ofNat bits) :: utf8Parts none rest
      | more + 1 => utf8Parts (some ⟨more, 0x80, 0xBF, bits⟩) rest
    else none :: match utf8Lead b with
      | .single c => some c :: utf8Parts none rest
      | .starts d => utf8Parts (some d) rest
      | .illFormed => none :: utf8Parts none rest

/-- The text, with the replacement character for every ill-formed part. -/
def utf8Lossy (bytes : List UInt8) : String :=
  String.ofList ((utf8Parts none bytes).map (·.getD '\uFFFD'))

/-- The text of well-formed bytes. -/
def utf8? (bytes : List UInt8) : Option String :=
  ((utf8Parts none bytes).mapM id).map String.ofList

end Text
end CorpusIndex
