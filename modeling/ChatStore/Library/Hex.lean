import Mathlib.Data.List.Basic
import Mathlib.Data.String.Basic

/-!
# Hexadecimal text

Bytes as pairs of hexadecimal digits. Encoding writes lowercase digits; decoding accepts both
cases, and refuses text of odd length or with any other character.
-/

namespace Library

namespace Hex

/-- The digits, each at its own value. -/
def digits : List Char := "0123456789abcdef".toList

/-- The digit of a value below sixteen. -/
def digit (n : ℕ) : Char := digits.getD n '0'

/-- The value of a digit of either case. -/
def value? (c : Char) : Option ℕ := digits.findIdx? fun d ↦ d == c.toLower

def encodeChars : List UInt8 → List Char
  | [] => []
  | b :: bs => digit (b.toNat / 16) :: digit (b.toNat % 16) :: encodeChars bs

def decodeChars : List Char → Option (List UInt8)
  | [] => some []
  | [_] => none
  | h :: l :: cs => do
    let h ← value? h
    let l ← value? l
    let bs ← decodeChars cs
    return UInt8.ofNat (h * 16 + l) :: bs

/-- Lowercase hexadecimal text of some bytes. -/
def encode (bs : List UInt8) : String := String.ofList (encodeChars bs)

/-- The bytes a hexadecimal text spells, in either case. -/
def decode (s : String) : Option (List UInt8) := decodeChars s.toList

private theorem value?_digit : ∀ n < 16, value? (digit n) = some n := by decide

private theorem decodeChars_encodeChars (bs : List UInt8) :
    decodeChars (encodeChars bs) = some bs := by
  induction bs with
  | nil => rfl
  | cons b bs ih =>
    have hb : b.toNat < 256 := b.toNat_lt
    have hbyte : UInt8.ofNat (b.toNat / 16 * 16 + b.toNat % 16) = b := by
      rw [show b.toNat / 16 * 16 + b.toNat % 16 = b.toNat by omega, UInt8.ofNat_toNat]
    rw [encodeChars, decodeChars, value?_digit _ (by omega), value?_digit _ (by omega), ih]
    simp only [Option.bind_eq_bind, Option.bind_some, Option.pure_def, hbyte]

/-- Decoding undoes encoding. -/
theorem decode_encode (bs : List UInt8) : decode (encode bs) = some bs := by
  rw [decode, encode, String.toList_ofList, decodeChars_encodeChars]

theorem encode_injective : Function.Injective encode := by
  intro bs bs' h
  have hdec := congrArg decode h
  rwa [decode_encode, decode_encode, Option.some.injEq] at hdec

/-- The text written is made of lowercase digits. -/
theorem mem_digits_of_mem_encode {bs : List UInt8} {c : Char} (hc : c ∈ (encode bs).toList) :
    c ∈ digits := by
  have hdigit : ∀ n < 16, digit n ∈ digits := by decide
  rw [encode, String.toList_ofList] at hc
  induction bs with
  | nil => simp [encodeChars] at hc
  | cons b bs ih =>
    have hb : b.toNat < 256 := b.toNat_lt
    rw [encodeChars, List.mem_cons, List.mem_cons] at hc
    rcases hc with rfl | rfl | hc
    · exact hdigit _ (by omega)
    · exact hdigit _ (by omega)
    · exact ih hc

/-! ## Case -/

private theorem decodeChars_eq_of_toLower : ∀ {cs ds : List Char},
    cs.map Char.toLower = ds.map Char.toLower → decodeChars cs = decodeChars ds
  | [], ds, h => by
    have : ds = [] := by simpa using h.symm
    rw [this]
  | [c], ds, h => by
    obtain ⟨d, rfl⟩ : ∃ d, ds = [d] := List.length_eq_one_iff.mp (by
      simpa using (congrArg List.length h).symm)
    rfl
  | c :: c' :: cs, ds, h => by
    match ds, h with
    | [], h => simp at h
    | [_], h => simp at h
    | d :: d' :: ds, h =>
      simp only [List.map_cons, List.cons.injEq] at h
      obtain ⟨hc, hc', hcs⟩ := h
      rw [decodeChars, decodeChars, value?, value?, value?, value?, hc, hc',
        decodeChars_eq_of_toLower hcs]

/-- Decoding ignores case. -/
theorem decode_eq_of_toLower {s t : String}
    (h : s.toList.map Char.toLower = t.toList.map Char.toLower) : decode s = decode t :=
  decodeChars_eq_of_toLower h

example : decode "0aFf" = some [10, 255] := by decide

end Hex

end Library
