import Mathlib.Data.Nat.Digits.Lemmas

/-!
# Little-endian bytes

The bytes of a number are its digits to base 256, least significant first, and Mathlib's
`Nat.ofDigits` reads them back. What is added here is the fixed width: `bytes w n` has exactly `w`
bytes, and on lists of `w` bytes it undoes `value`.
-/

namespace Library

namespace LittleEndian

/-- The number whose little-endian bytes are `bs`. -/
def value (bs : List UInt8) : ℕ := Nat.ofDigits 256 (bs.map UInt8.toNat)

/-- The `w` low bytes of `n`, least significant first. -/
def bytes : ℕ → ℕ → List UInt8
  | 0, _ => []
  | w + 1, n => UInt8.ofNat n :: bytes w (n / 256)

@[simp] theorem length_bytes (w n : ℕ) : (bytes w n).length = w := by
  induction w generalizing n with
  | zero => rfl
  | succ w ih => rw [bytes, List.length_cons, ih]

private theorem lt_of_mem_map_toNat (bs : List UInt8) : ∀ d ∈ bs.map UInt8.toNat, d < 256 := by
  intro d hd
  obtain ⟨b, -, rfl⟩ := List.mem_map.mp hd
  exact b.toNat_lt

theorem value_lt (bs : List UInt8) : value bs < 256 ^ bs.length := by
  have hlt := Nat.ofDigits_lt_base_pow_length (by norm_num) (lt_of_mem_map_toNat bs)
  rwa [List.length_map] at hlt

/-- Two lists of the same length spell the same number only if they are the same. -/
theorem eq_of_value_eq {bs bs' : List UInt8} (hlen : bs.length = bs'.length)
    (h : value bs = value bs') : bs = bs' := by
  have hdigits : bs.map UInt8.toNat = bs'.map UInt8.toNat :=
    Nat.ofDigits_inj_of_len_eq (by norm_num) (by simpa using hlen) (lt_of_mem_map_toNat bs)
      (lt_of_mem_map_toNat bs') h
  exact List.map_injective_iff.mpr (fun _ _ ↦ UInt8.toNat_inj.mp) hdigits

theorem value_bytes (w n : ℕ) : value (bytes w n) = n % 256 ^ w := by
  induction w generalizing n with
  | zero => rw [pow_zero, Nat.mod_one]; rfl
  | succ w ih =>
    have hcons : value (UInt8.ofNat n :: bytes w (n / 256))
        = (UInt8.ofNat n).toNat + 256 * value (bytes w (n / 256)) := Nat.ofDigits_cons
    have hbyte : (UInt8.ofNat n).toNat = n % 256 := UInt8.toNat_ofNat'
    rw [bytes, hcons, hbyte, ih, pow_succ', Nat.mod_mul]

theorem bytes_value (bs : List UInt8) : bytes bs.length (value bs) = bs := by
  refine eq_of_value_eq (length_bytes _ _) ?_
  rw [value_bytes, Nat.mod_eq_of_lt (value_lt bs)]

end LittleEndian

end Library
