import Mathlib.Data.List.Basic
import Mathlib.Data.String.Basic

/-!
# Base64 text

The standard alphabet with canonical padding: three bytes become four characters, a last group of
one or two bytes is padded with `=`. Decoding is strict. It refuses a text whose length is not a
multiple of four, padding anywhere but at the end, and a last group whose unused bits are not zero.
-/

namespace Library

namespace Base64

/-- The alphabet, each character at its own value. -/
def alphabet : List Char :=
  "ABCDEFGHIJKLMNOPQRSTUVWXYZabcdefghijklmnopqrstuvwxyz0123456789+/".toList

/-- The character of a value below sixty-four. -/
def char (n : ℕ) : Char := alphabet.getD n 'A'

/-- The value of a character of the alphabet. -/
def value? (c : Char) : Option ℕ := alphabet.findIdx? fun d ↦ d == c

def encodeChars : List UInt8 → List Char
  | [] => []
  | [a] => [char (a.toNat / 4), char (a.toNat % 4 * 16), '=', '=']
  | [a, b] =>
    [char (a.toNat / 4), char (a.toNat % 4 * 16 + b.toNat / 16), char (b.toNat % 16 * 4), '=']
  | a :: b :: c :: bs =>
    char (a.toNat / 4) :: char (a.toNat % 4 * 16 + b.toNat / 16)
      :: char (b.toNat % 16 * 4 + c.toNat / 64) :: char (c.toNat % 64) :: encodeChars bs

/-- One padded byte: the four unused bits must be zero. -/
def decodeOne (w x : ℕ) : Option (List UInt8) :=
  if x % 16 = 0 then some [UInt8.ofNat (w * 4 + x / 16)] else none

/-- Two padded bytes: the two unused bits must be zero. -/
def decodeTwo (w x y : ℕ) : Option (List UInt8) :=
  if y % 4 = 0 then some [UInt8.ofNat (w * 4 + x / 16), UInt8.ofNat (x % 16 * 16 + y / 4)]
  else none

def decodeThree (w x y z : ℕ) : List UInt8 :=
  [UInt8.ofNat (w * 4 + x / 16), UInt8.ofNat (x % 16 * 16 + y / 4), UInt8.ofNat (y % 4 * 64 + z)]

def decodeChars : List Char → Option (List UInt8)
  | [] => some []
  | w :: x :: y :: z :: cs => do
    let w ← value? w
    let x ← value? x
    if cs.isEmpty && z == '=' then
      if y == '=' then decodeOne w x
      else
        let y ← value? y
        decodeTwo w x y
    else
      let y ← value? y
      let z ← value? z
      let bs ← decodeChars cs
      return decodeThree w x y z ++ bs
  | _ => none

/-- Padded base64 text of some bytes. -/
def encode (bs : List UInt8) : String := String.ofList (encodeChars bs)

/-- The bytes a padded base64 text spells. -/
def decode (s : String) : Option (List UInt8) := decodeChars s.toList

private theorem value?_char : ∀ n < 64, value? (char n) = some n := by decide +kernel

private theorem char_ne_pad : ∀ n < 64, (char n == '=') = false := by decide +kernel

/-! ## Round trip

The bytes of a group come back one by one; the last lemma puts the groups together. -/

private theorem first_byte (a b : UInt8) :
    UInt8.ofNat (a.toNat / 4 * 4 + (a.toNat % 4 * 16 + b.toNat / 16) / 16) = a := by
  have hb : b.toNat < 256 := b.toNat_lt
  rw [show a.toNat / 4 * 4 + (a.toNat % 4 * 16 + b.toNat / 16) / 16 = a.toNat by omega,
    UInt8.ofNat_toNat]

private theorem second_byte (a b c : UInt8) :
    UInt8.ofNat ((a.toNat % 4 * 16 + b.toNat / 16) % 16 * 16
      + (b.toNat % 16 * 4 + c.toNat / 64) / 4) = b := by
  have hb : b.toNat < 256 := b.toNat_lt
  have hc : c.toNat < 256 := c.toNat_lt
  rw [show (a.toNat % 4 * 16 + b.toNat / 16) % 16 * 16
    + (b.toNat % 16 * 4 + c.toNat / 64) / 4 = b.toNat by omega, UInt8.ofNat_toNat]

private theorem third_byte (b c : UInt8) :
    UInt8.ofNat ((b.toNat % 16 * 4 + c.toNat / 64) % 4 * 64 + c.toNat % 64) = c := by
  have hc : c.toNat < 256 := c.toNat_lt
  rw [show (b.toNat % 16 * 4 + c.toNat / 64) % 4 * 64 + c.toNat % 64 = c.toNat by omega,
    UInt8.ofNat_toNat]

private theorem decodeOne_group (a : UInt8) :
    decodeOne (a.toNat / 4) (a.toNat % 4 * 16) = some [a] := by
  have h := first_byte a 0
  rw [UInt8.toNat_zero, Nat.zero_div, Nat.add_zero] at h
  rw [decodeOne, if_pos (by omega), h]

private theorem decodeTwo_group (a b : UInt8) :
    decodeTwo (a.toNat / 4) (a.toNat % 4 * 16 + b.toNat / 16) (b.toNat % 16 * 4)
      = some [a, b] := by
  have h := second_byte a b 0
  rw [UInt8.toNat_zero, Nat.zero_div, Nat.add_zero] at h
  rw [decodeTwo, if_pos (by omega), first_byte, h]

private theorem decodeThree_group (a b c : UInt8) :
    decodeThree (a.toNat / 4) (a.toNat % 4 * 16 + b.toNat / 16)
      (b.toNat % 16 * 4 + c.toNat / 64) (c.toNat % 64) = [a, b, c] := by
  rw [decodeThree, first_byte, second_byte, third_byte]

private theorem decodeChars_encodeChars : ∀ bs : List UInt8, decodeChars (encodeChars bs) = some bs
  | [] => rfl
  | [a] => by
    have ha : a.toNat < 256 := a.toNat_lt
    rw [encodeChars, decodeChars, value?_char _ (by omega), value?_char _ (by omega)]
    exact decodeOne_group a
  | [a, b] => by
    have ha : a.toNat < 256 := a.toNat_lt
    have hb : b.toNat < 256 := b.toNat_lt
    rw [encodeChars, decodeChars, value?_char _ (by omega), value?_char _ (by omega),
      value?_char _ (by omega), char_ne_pad _ (by omega)]
    exact decodeTwo_group a b
  | a :: b :: c :: bs => by
    have ha : a.toNat < 256 := a.toNat_lt
    have hb : b.toNat < 256 := b.toNat_lt
    have hc : c.toNat < 256 := c.toNat_lt
    rw [encodeChars, decodeChars, value?_char _ (by omega), value?_char _ (by omega),
      value?_char _ (by omega), value?_char _ (by omega), char_ne_pad _ (by omega),
      Bool.and_false, decodeChars_encodeChars bs]
    exact congrArg (fun g ↦ some (g ++ bs)) (decodeThree_group a b c)

/-- Decoding undoes encoding. -/
theorem decode_encode (bs : List UInt8) : decode (encode bs) = some bs := by
  rw [decode, encode, String.toList_ofList, decodeChars_encodeChars]

example : encode [102, 111, 111, 98] = "Zm9vYg==" := by decide

end Base64

end Library
