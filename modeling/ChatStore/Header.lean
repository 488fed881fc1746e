import ChatStore.Bundle
import ChatStore.Library.LittleEndian

/-!
# The header of a bundle payload

The order in which account bundles replace one another rests on one parse of bytes that anybody can
send, done once for the candidate and once for the row on file. Clients lay a payload out as domain,
version byte, lamport in little-endian order, and the rest; the parse recognises this layout and
nothing else.
-/

namespace ChatStore

open Library

/-! ## The layout -/

/-- `u64::to_le_bytes`. -/
def toLeBytes (n : UInt64) : Bytes := LittleEndian.bytes 8 n.toNat

/-- The canonical layout of a payload. -/
def bundlePayload (version : UInt8) (lamport : UInt64) (rest : Bytes) : Bytes :=
  bundleDomain ++ [version] ++ toLeBytes lamport ++ rest

@[simp] theorem length_toLeBytes (n : UInt64) : (toLeBytes n).length = 8 :=
  LittleEndian.length_bytes _ _

theorem fromLeBytes_eq (bs : Bytes) : fromLeBytes bs = UInt64.ofNat (LittleEndian.value bs) := by
  rw [fromLeBytes, LittleEndian.value, Nat.ofDigits_eq_foldr, List.foldr_map]
  rfl

theorem fromLeBytes_toLeBytes (n : UInt64) : fromLeBytes (toLeBytes n) = n := by
  have hlt : n.toNat < 256 ^ 8 := n.toNat_lt
  rw [fromLeBytes_eq, toLeBytes, LittleEndian.value_bytes, Nat.mod_eq_of_lt hlt, UInt64.ofNat_toNat]

theorem toLeBytes_fromLeBytes {bs : Bytes} (h : bs.length = 8) :
    toLeBytes (fromLeBytes bs) = bs := by
  have hlt : LittleEndian.value bs < 2 ^ 64 := by
    have := LittleEndian.value_lt bs
    rwa [h] at this
  rw [fromLeBytes_eq, toLeBytes, UInt64.toNat_ofNat', Nat.mod_eq_of_lt hlt, ← h,
    LittleEndian.bytes_value]

/-! ## The parse -/

/-- `slice::get` of a range. -/
def slice? (bs : Bytes) (start stop : ℕ) : Option Bytes :=
  if start ≤ stop ∧ stop ≤ bs.length then some ((bs.take stop).drop start) else none

/-- `payload_lamport`, keeping the conversion of the slice to an array. Its failure is the text that
the `expect` would panic with. -/
def payloadLamportExpecting (payload : Bytes) : Except String (Option UInt64) :=
  match payload.dropPrefix? bundleDomain with
  | none => .ok none
  | some rest =>
    match slice? rest 1 9 with
    | none => .ok none
    | some b => (tryIntoArray 8 "1..9 is 8 bytes" b).map fun array ↦ some (fromLeBytes array)

/-- The slice that the parse converts always has eight bytes. -/
theorem payloadLamportExpecting_eq (payload : Bytes) :
    payloadLamportExpecting payload = .ok (payloadLamport payload) := by
  rw [payloadLamportExpecting, payloadLamport]
  rcases payload.dropPrefix? bundleDomain with _ | rest
  · rfl
  · by_cases h : 9 ≤ rest.length
    · have hlen : ((rest.take 9).drop 1).length = 8 := by
        rw [List.length_drop, List.length_take, Nat.min_eq_left h]
      have hslice : slice? rest 1 9 = some ((rest.take 9).drop 1) := if_pos ⟨by norm_num, h⟩
      simp only [hslice, tryIntoArray, dif_pos hlen, Except.map]
      exact congrArg Except.ok (if_pos h).symm
    · have hslice : slice? rest 1 9 = none := if_neg fun hc ↦ h hc.2
      simp only [hslice]
      exact congrArg Except.ok (if_neg h).symm

/-- A payload has a lamport exactly when it is laid out with that lamport. -/
theorem payloadLamport_eq_some_iff {payload : Bytes} {lamport : UInt64} :
    payloadLamport payload = some lamport
      ↔ ∃ version rest, payload = bundlePayload version lamport rest := by
  rw [payloadLamport]
  constructor
  · intro h
    obtain ⟨tail, hdrop, hlamport⟩ := Option.bind_eq_some_iff.mp h
    obtain ⟨domain, rfl, hdomain⟩ := List.dropPrefix?_eq_some_iff.mp hdrop
    obtain rfl := eq_of_beq hdomain
    rw [Option.ite_none_right_eq_some, Option.some.injEq] at hlamport
    obtain ⟨hlen, rfl⟩ := hlamport
    -- The version byte comes off the front, and the lamport is the eight bytes after it.
    rcases tail with _ | ⟨version, tail⟩
    · simp at hlen
    · have h8 : (tail.take 8).length = 8 := by
        rw [List.length_take, Nat.min_eq_left (by simpa using hlen)]
      refine ⟨version, tail.drop 8, ?_⟩
      have htake : ((version :: tail).take 9).drop 1 = tail.take 8 := by
        rw [List.take_succ_cons, List.drop_succ_cons, List.drop_zero]
      rw [bundlePayload, htake, toLeBytes_fromLeBytes h8, List.append_assoc,
        List.append_assoc, List.take_append_drop, List.singleton_append]
  · rintro ⟨version, rest, rfl⟩
    have hdrop : (bundlePayload version lamport rest).dropPrefix? bundleDomain
        = some (version :: (toLeBytes lamport ++ rest)) := by
      refine List.dropPrefix?_eq_some_iff.mpr ⟨bundleDomain, ?_, beq_self_eq_true _⟩
      rw [bundlePayload, List.append_assoc, List.append_assoc, List.singleton_append]
    have htake : ((version :: (toLeBytes lamport ++ rest)).take 9).drop 1 = toLeBytes lamport := by
      rw [List.take_succ_cons, List.drop_succ_cons, List.drop_zero,
        List.take_left' (length_toLeBytes lamport)]
    have hlen : 9 ≤ (version :: (toLeBytes lamport ++ rest)).length := by simp
    rw [hdrop, Option.bind_eq_bind, Option.bind_some, if_pos hlen, htake, fromLeBytes_toLeBytes]

/-- **The parse recognises the layout, exactly.** It returns the lamport of a payload that is laid
out, and nothing for any other; the lamport is unique, and no input makes the conversion fail. -/
theorem payloadLamport_recognises_layout (payload : Bytes) :
    (∀ lamport, payloadLamport payload = some lamport
      ↔ ∃ version rest, payload = bundlePayload version lamport rest) ∧
    (payloadLamport payload = none
      ↔ ¬∃ version lamport rest, payload = bundlePayload version lamport rest) ∧
    (∀ version version' lamport lamport' rest rest',
      payload = bundlePayload version lamport rest →
      payload = bundlePayload version' lamport' rest' → lamport = lamport') ∧
    payloadLamportExpecting payload = .ok (payloadLamport payload) := by
  refine ⟨fun lamport ↦ payloadLamport_eq_some_iff, ?_, ?_, payloadLamportExpecting_eq payload⟩
  · rw [Option.eq_none_iff_forall_ne_some]
    constructor
    · rintro hnone ⟨version, lamport, rest, hlayout⟩
      exact hnone lamport (payloadLamport_eq_some_iff.mpr ⟨version, rest, hlayout⟩)
    · intro hnot lamport hsome
      obtain ⟨version, rest, hlayout⟩ := payloadLamport_eq_some_iff.mp hsome
      exact hnot ⟨version, lamport, rest, hlayout⟩
  · intro version version' lamport lamport' rest rest' h h'
    have hsome := payloadLamport_eq_some_iff.mpr ⟨version, rest, h⟩
    rw [payloadLamport_eq_some_iff.mpr ⟨version', rest', h'⟩] at hsome
    exact (Option.some.inj hsome).symm

end ChatStore
