import Mathlib.Data.List.Infix
import Mathlib.Data.String.Basic

/-!
# The crates the service calls

The service decodes text with `hex` and `base64`, messages with `prost`, checks signatures with
`ed25519_dalek`, and leaves account logs to `account_log`. None of these is part of the repository,
so the model takes their functions as a parameter, `Crates`. What the service relies on is stated
separately, one structure of laws for each crate, and a theorem assumes only the laws it uses.

`ed25519_dalek` has no laws: verification is a fixed predicate, and nothing here depends on which.
-/

namespace ChatStore

/-- `Vec<u8>` and `&[u8]`. -/
abbrev Bytes := List UInt8

/-- `[u8; n]`. -/
abbrev FixedBytes (n : ℕ) := { bs : Bytes // bs.length = n }

/-! ## The delivery messages -/

/-- `chat_proto`'s keypackage submission. -/
structure KeyPackageSubmissionV1 where
  deviceId : Bytes
  payload : Bytes
  signature : Bytes

/-- `chat_proto`'s account device-list submission. -/
structure AccountSubmissionV1 where
  accountPub : Bytes
  payload : Bytes
  signature : Bytes

/-! ## Account logs -/

/-- How an unchanged log relates to the one on file. `other` stands for the variants that the
service meets only in its catch-all arm. -/
inductive LogFreshness
  | identical
  | behind
  | diverged
  | other
  deriving DecidableEq

/-- What became of the log on file. `other` is again the catch-all. -/
inductive Outcome
  | updated
  | unchanged (freshness : LogFreshness)
  | other
  deriving DecidableEq

/-- An outcome, and the record after it. -/
structure AccountRecordUpdate (Record : Type) where
  outcome : Outcome
  record : Record

/-- The `account_log` crate. -/
structure AccountLogCrate where
  AccountAddr : Type
  SignedAccountLog : Type
  AccountRecord : Type
  AccountLogError : Type
  /-- `str::parse::<AccountAddr>`. -/
  parseAddr : String → Option AccountAddr
  /-- `AccountAddr::to_string`. -/
  addrToString : AccountAddr → String
  /-- `SignedAccountLog::from_bytes`. -/
  fromBytes : Bytes → Except AccountLogError SignedAccountLog
  /-- `SignedAccountLog::to_bytes`. -/
  toBytes : SignedAccountLog → Bytes
  /-- The signed payload of a log, the encoded log itself. -/
  payload : SignedAccountLog → Bytes
  /-- Whether the signature of a log verifies under an address. -/
  signatureValid : AccountAddr → SignedAccountLog → Bool
  /-- Whether the payload of a log decodes. -/
  logDecodes : SignedAccountLog → Bool
  /-- `AccountRecord::new`. -/
  newRecord : AccountAddr → SignedAccountLog → Except AccountLogError AccountRecord
  /-- `AccountRecord::addr`. -/
  recordAddr : AccountRecord → AccountAddr
  /-- `AccountRecord::signed_log`. -/
  recordSignedLog : AccountRecord → SignedAccountLog
  /-- `AccountRecord::update`. -/
  update : AccountRecord → SignedAccountLog → AccountRecordUpdate AccountRecord
  /-- Whether an error is `AccountLogError::SignatureInvalid`. -/
  isSignatureInvalid : AccountLogError → Bool
  /-- `AccountLogError::to_string`. -/
  errorToString : AccountLogError → String

/-- How a submitted payload relates to the stored one. -/
def logOutcome (stored submitted : Bytes) : Outcome :=
  if stored = submitted then .unchanged .identical
  else if stored <+: submitted then .updated
  else if submitted <+: stored then .unchanged .behind
  else .unchanged .diverged

/-- The four ways two payloads can relate. -/
theorem logOutcome_cases (stored submitted : Bytes) :
    (stored = submitted ∧ logOutcome stored submitted = .unchanged .identical) ∨
    (stored ≠ submitted ∧ stored <+: submitted ∧ logOutcome stored submitted = .updated) ∨
    (¬stored <+: submitted ∧ submitted <+: stored ∧
      logOutcome stored submitted = .unchanged .behind) ∨
    (¬stored <+: submitted ∧ ¬submitted <+: stored ∧
      logOutcome stored submitted = .unchanged .diverged) := by
  rw [logOutcome]
  by_cases heq : stored = submitted
  · exact Or.inl ⟨heq, if_pos heq⟩
  · rw [if_neg heq]
    by_cases hext : stored <+: submitted
    · exact Or.inr (Or.inl ⟨heq, hext, if_pos hext⟩)
    · rw [if_neg hext]
      by_cases hbehind : submitted <+: stored
      · exact Or.inr (Or.inr (Or.inl ⟨hext, hbehind, if_pos hbehind⟩))
      · exact Or.inr (Or.inr (Or.inr ⟨hext, hbehind, if_neg hbehind⟩))

/-- What the service relies on of `account_log`. -/
structure AccountLogCrate.Laws (A : AccountLogCrate) : Prop where
  fromBytes_toBytes : ∀ signed, A.fromBytes (A.toBytes signed) = .ok signed
  toBytes_fromBytes : ∀ bytes signed, A.fromBytes bytes = .ok signed → A.toBytes signed = bytes
  addrToString_injective : Function.Injective A.addrToString
  /-- A record is made exactly of the authentic logs that decode. -/
  newRecord_ok_iff : ∀ addr signed, (∃ r, A.newRecord addr signed = .ok r)
    ↔ A.signatureValid addr signed = true ∧ A.logDecodes signed = true
  /-- A record keeps its address and its log. -/
  newRecord_parts : ∀ addr signed r, A.newRecord addr signed = .ok r →
    A.recordAddr r = addr ∧ A.recordSignedLog r = signed
  /-- A valid log for the same account is compared by payload. -/
  update_outcome : ∀ addr stored submitted r r', A.newRecord addr stored = .ok r →
    A.newRecord addr submitted = .ok r' →
    (A.update r submitted).outcome = logOutcome (A.payload stored) (A.payload submitted)
  /-- An update leaves the record of the submitted log. -/
  update_record : ∀ addr stored submitted r r', A.newRecord addr stored = .ok r →
    A.newRecord addr submitted = .ok r' → (A.update r submitted).outcome = .updated →
    (A.update r submitted).record = r'

/-! ## All crates together -/

/-- The functions of other crates that the service calls. -/
structure Crates where
  /-- `hex::encode`. -/
  hexEncode : Bytes → String
  /-- `hex::decode`. -/
  hexDecode : String → Option Bytes
  /-- `base64`'s `STANDARD.encode`. -/
  base64Encode : Bytes → String
  /-- `base64`'s `STANDARD.decode`. -/
  base64Decode : String → Option Bytes
  /-- Whether `VerifyingKey::from_bytes` accepts a key. -/
  isVerifyingKey : FixedBytes 32 → Bool
  /-- `VerifyingKey::verify_strict`, of a key, a message and a signature. -/
  verifyStrict : FixedBytes 32 → Bytes → FixedBytes 64 → Bool
  /-- `KeyPackageSubmissionV1::encode_to_vec`. -/
  encodeKeyPackage : KeyPackageSubmissionV1 → Bytes
  /-- `KeyPackageSubmissionV1::decode`. -/
  decodeKeyPackage : Bytes → Option KeyPackageSubmissionV1
  /-- `AccountSubmissionV1::encode_to_vec`. -/
  encodeAccount : AccountSubmissionV1 → Bytes
  /-- `AccountSubmissionV1::decode`. -/
  decodeAccount : Bytes → Option AccountSubmissionV1
  /-- The `account_log` crate. -/
  log : AccountLogCrate

/-- What the service relies on of `hex`: decoding undoes encoding and ignores case, and encoding
writes lowercase digits. -/
structure Crates.HexLaws (C : Crates) : Prop where
  decode_encode : ∀ bs, C.hexDecode (C.hexEncode bs) = some bs
  decode_ignores_case : ∀ s t : String,
    s.toList.map Char.toLower = t.toList.map Char.toLower → C.hexDecode s = C.hexDecode t
  encode_lower : ∀ bs, ∀ c ∈ (C.hexEncode bs).toList, c ∈ "0123456789abcdef".toList

/-- What the service relies on of `base64`. -/
structure Crates.Base64Laws (C : Crates) : Prop where
  decode_encode : ∀ bs, C.base64Decode (C.base64Encode bs) = some bs

/-- What the service relies on of `prost`. -/
structure Crates.ProstLaws (C : Crates) : Prop where
  decode_encode_keyPackage : ∀ m, C.decodeKeyPackage (C.encodeKeyPackage m) = some m
  decode_encode_account : ∀ m, C.decodeAccount (C.encodeAccount m) = some m

theorem Crates.HexLaws.encode_injective {C : Crates} (h : C.HexLaws) :
    Function.Injective C.hexEncode := by
  intro bs bs' heq
  have hdec := congrArg C.hexDecode heq
  rwa [h.decode_encode, h.decode_encode, Option.some.injEq] at hdec

end ChatStore
