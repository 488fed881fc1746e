import Mathlib.Data.List.Basic
import Mathlib.Tactic.Ring

/-!
# Messages of byte fields in the protobuf wire format

A field is a tag byte, the length of its contents as a varint, and the contents; an empty field is
left out. A message is its fields in the order of their tags, each at most once, which is how the
format's encoders write it.
-/

namespace Library

namespace Protobuf

/-! ## Varints -/

/-- The bytes of `n`, seven bits each, lowest first. The first argument bounds their number. -/
def varintBytes : ℕ → ℕ → List UInt8
  | 0, n => [UInt8.ofNat n]
  | k + 1, n =>
    if n < 128 then [UInt8.ofNat n] else UInt8.ofNat (n % 128 + 128) :: varintBytes k (n / 128)

def varint (n : ℕ) : List UInt8 := varintBytes n n

/-- The number at the start of some bytes, and the bytes after it. -/
def readVarint : List UInt8 → Option (ℕ × List UInt8)
  | [] => none
  | b :: bs =>
    if b.toNat < 128 then some (b.toNat, bs)
    else (readVarint bs).map fun p ↦ (b.toNat - 128 + 128 * p.1, p.2)

private theorem toNat_ofNat {n : ℕ} (h : n < 256) : (UInt8.ofNat n).toNat = n := by
  rw [UInt8.toNat_ofNat', Nat.mod_eq_of_lt h]

private theorem readVarint_last {n : ℕ} (h : n < 128) (rest : List UInt8) :
    readVarint (UInt8.ofNat n :: rest) = some (n, rest) := by
  rw [readVarint, toNat_ofNat (by omega), if_pos h]

private theorem readVarint_varintBytes {k n : ℕ} (h : n ≤ k) (rest : List UInt8) :
    readVarint (varintBytes k n ++ rest) = some (n, rest) := by
  induction k generalizing n with
  | zero =>
    obtain rfl := Nat.le_zero.mp h
    exact readVarint_last (by omega) rest
  | succ k ih =>
    rw [varintBytes]
    by_cases hn : n < 128
    · rw [if_pos hn]
      exact readVarint_last hn rest
    · have hbyte : (UInt8.ofNat (n % 128 + 128)).toNat = n % 128 + 128 := toNat_ofNat (by omega)
      rw [if_neg hn, List.cons_append, readVarint, hbyte, if_neg (by omega), ih (by omega),
        Option.map_some, Option.some.injEq, Prod.mk.injEq]
      exact ⟨by omega, rfl⟩

theorem readVarint_varint (n : ℕ) (rest : List UInt8) :
    readVarint (varint n ++ rest) = some (n, rest) :=
  readVarint_varintBytes le_rfl rest

/-! ## Fields -/

/-- A field, empty contents being left out. -/
def field (tag : UInt8) (bs : List UInt8) : List UInt8 :=
  if bs = [] then [] else tag :: varint bs.length ++ bs

/-- The contents of the field `tag`, if it comes next, and what follows. -/
def readField (tag : UInt8) (data : List UInt8) : Option (List UInt8 × List UInt8) :=
  match data with
  | [] => some ([], [])
  | b :: rest =>
    if b ≠ tag then some ([], b :: rest)
    else
      match readVarint rest with
      | none => none
      | some (n, rest) => if n ≤ rest.length then some (rest.take n, rest.drop n) else none

/-- Bytes that do not start with `tag`. -/
def Lacks (tag : UInt8) (data : List UInt8) : Prop := ∀ b ∈ data.head?, b ≠ tag

theorem lacks_nil (tag : UInt8) : Lacks tag [] := by
  intro b hb
  simp at hb

theorem lacks_field {tag tag' : UInt8} (h : tag' ≠ tag) (bs : List UInt8) {rest : List UInt8}
    (hrest : Lacks tag rest) : Lacks tag (field tag' bs ++ rest) := by
  rw [field]
  split_ifs
  · exact hrest
  · intro b hb
    rw [List.cons_append, List.cons_append, List.head?_cons, Option.mem_some_iff] at hb
    rwa [← hb]

/-- Reading a field back. -/
theorem readField_field (tag : UInt8) (bs : List UInt8) {rest : List UInt8}
    (hrest : Lacks tag rest) : readField tag (field tag bs ++ rest) = some (bs, rest) := by
  rw [field]
  split_ifs with hbs
  · -- Nothing was written, and what follows starts with another tag.
    subst hbs
    cases rest with
    | nil => rfl
    | cons b rest => rw [List.nil_append, readField, if_pos (hrest b rfl)]
  · rw [List.cons_append, List.cons_append, readField, if_neg (by simp), List.append_assoc,
      readVarint_varint]
    simp

/-! ## Messages of three fields -/

/-- The message with contents `a`, `b` and `c` in its fields 1, 2 and 3. -/
def message (a b c : List UInt8) : List UInt8 := field 0x0A a ++ (field 0x12 b ++ field 0x1A c)

/-- The contents of the fields 1, 2 and 3 of a message. -/
def readMessage (data : List UInt8) : Option (List UInt8 × List UInt8 × List UInt8) := do
  let (a, data) ← readField 0x0A data
  let (b, data) ← readField 0x12 data
  let (c, data) ← readField 0x1A data
  if data = [] then some (a, b, c) else none

private theorem lacks_last {tag : UInt8} (h : (0x1A : UInt8) ≠ tag) (c : List UInt8) :
    Lacks tag (field 0x1A c) := by
  rw [← List.append_nil (field 0x1A c)]
  exact lacks_field h c (lacks_nil tag)

theorem readMessage_message (a b c : List UInt8) :
    readMessage (message a b c) = some (a, b, c) := by
  have hab : Lacks 0x0A (field 0x12 b ++ field 0x1A c) :=
    lacks_field (by decide) b (lacks_last (by decide) c)
  have ha := readField_field 0x0A a hab
  have hb := readField_field 0x12 b (lacks_last (by decide) c)
  have hc : readField 0x1A (field 0x1A c) = some (c, []) := by
    rw [← List.append_nil (field 0x1A c)]
    exact readField_field 0x1A c (lacks_nil _)
  simp only [readMessage, message, ha, hb, hc, Option.bind_eq_bind, Option.bind_some, if_true]

end Protobuf

end Library
