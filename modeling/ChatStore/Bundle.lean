import ChatStore.Store.AccountLogs
import ChatStore.Store.Accounts
import ChatStore.Store.KeyPackages

/-!
# Bundles, and the rules for storing them

A bundle is an opaque payload with its signature, published under the key that signed it. Both
wires decode into `Bundle`, and the `apply` functions are the rules they share: verify, then store.

The spec lemmas reduce each `apply` function to two facts about the bundle, whether it is
`authentic` and which `lamport` its payload carries, and to the store operation behind it.
-/

namespace ChatStore

/-- Why a submission was refused. -/
inductive BundleError (A : AccountLogCrate)
  /-- Malformed bundle or failed signature verification. -/
  | invalid (msg : String)
  /-- Authentic account log that does not decode. -/
  | malformedLog (err : A.AccountLogError)
  /-- Not newer than the stored one. -/
  | stale
  /-- A log that rewrites the stored one. -/
  | forked
  /-- Storage failure. -/
  | internal (err : StoreError A)

/-- The text of an error. That of a storage failure only reaches the server's log, and is left
out. -/
def BundleError.toString {A : AccountLogCrate} : BundleError A → String
  | .invalid msg => msg
  | .malformedLog err => A.errorToString err
  | .stale => "stale bundle: not newer than the stored one"
  | .forked => "forked log: does not extend the stored one"
  | .internal _ => "internal"

/-- A bundle decoded off either wire, before verification. -/
structure Bundle where
  key : FixedBytes 32
  payload : Bytes
  signature : FixedBytes 64
  deriving DecidableEq

/-- `try_into` an array of `n` bytes. -/
def tryIntoArray {ε : Type} (n : ℕ) (err : ε) (bs : Bytes) : Except ε (FixedBytes n) :=
  if h : bs.length = n then .ok ⟨bs, h⟩ else .error err

/-- `Bundle::from_bytes`. -/
def Bundle.fromBytes {A : AccountLogCrate} (key payload signature : Bytes) :
    Except (BundleError A) Bundle := do
  let key ← tryIntoArray 32 (.invalid "key: must be 32 bytes") key
  let signature ← tryIntoArray 64 (.invalid "signature: must be 64 bytes") signature
  return ⟨key, payload, signature⟩

/-- A bundle is made of exactly the bytes it is given. -/
theorem fromBytes_eq_ok_iff {A : AccountLogCrate} {key payload signature : Bytes} {b : Bundle} :
    Bundle.fromBytes (A := A) key payload signature = .ok b
      ↔ b.key.val = key ∧ b.payload = payload ∧ b.signature.val = signature := by
  obtain ⟨⟨bkey, hbkey⟩, bpayload, ⟨bsignature, hbsignature⟩⟩ := b
  rw [Bundle.fromBytes]
  constructor
  · intro h
    by_cases hkey : key.length = 32
    · by_cases hsignature : signature.length = 64
      · rw [tryIntoArray, dif_pos hkey, tryIntoArray, dif_pos hsignature] at h
        cases h
        exact ⟨rfl, rfl, rfl⟩
      · rw [tryIntoArray, dif_pos hkey, tryIntoArray, dif_neg hsignature] at h
        cases h
    · rw [tryIntoArray, dif_neg hkey] at h
      cases h
  · rintro ⟨rfl, rfl, rfl⟩
    rw [tryIntoArray, dif_pos hbkey, tryIntoArray, dif_pos hbsignature]
    rfl

/-- Bytes that make no bundle are an invalid submission. -/
theorem fromBytes_error {A : AccountLogCrate} {key payload signature : Bytes} {err : BundleError A}
    (h : Bundle.fromBytes key payload signature = .error err) : ∃ msg, err = .invalid msg := by
  rw [Bundle.fromBytes] at h
  by_cases hkey : key.length = 32
  · by_cases hsignature : signature.length = 64
    · rw [tryIntoArray, dif_pos hkey, tryIntoArray, dif_pos hsignature] at h
      cases h
    · rw [tryIntoArray, dif_pos hkey, tryIntoArray, dif_neg hsignature] at h
      exact ⟨_, (Except.error.inj h).symm⟩
  · rw [tryIntoArray, dif_neg hkey] at h
    exact ⟨_, (Except.error.inj h).symm⟩

variable (C : Crates)

/-- `Bundle::key_hex`, the key under which the store files a bundle. -/
def Bundle.keyHex (b : Bundle) : String := C.hexEncode b.key

/-- `verify`. -/
def verify (b : Bundle) : Except (BundleError C.log) Unit :=
  if C.isVerifyingKey b.key then
    if C.verifyStrict b.key b.payload b.signature then .ok ()
    else .error (.invalid "signature: verification failed")
  else .error (.invalid "key: not a valid ed25519 key")

/-- `apply_keypackage`. -/
def applyKeypackage (now : SystemTime) (b : Bundle) (s : Tables) :
    Tables × Except (BundleError C.log) Unit :=
  match verify C b with
  | .error err => (s, .error err)
  | .ok () =>
    let (s', result) := Store.insert now (b.keyHex C) ⟨b.payload, b.signature⟩ s
    (s', result.mapError .internal)

/-- `apply_account`. -/
def applyAccount (now : SystemTime) (b : Bundle) (s : Tables) :
    Tables × Except (BundleError C.log) Unit :=
  match verify C b with
  | .error err => (s, .error err)
  | .ok () =>
    match payloadLamport b.payload with
    | none => (s, .error (.invalid "payload: too short to contain a lamport header"))
    | some lamport =>
      match Store.upsertAccount now (b.keyHex C) lamport ⟨b.payload, b.signature, 0⟩ s with
      | (s', .error err) => (s', .error (.internal err))
      | (s', .ok false) => (s', .error .stale)
      | (s', .ok true) => (s', .ok ())

/-- What `apply_account_log` answers for each outcome. -/
def outcomeVerdict {A : AccountLogCrate} : Outcome → Except (BundleError A) Unit
  | .updated | .unchanged .identical => .ok ()
  | .unchanged .behind => .error .stale
  | .unchanged .diverged => .error .forked
  | outcome => .error (.internal (.unexpectedOutcome outcome))

/-- `apply_account_log`. The log is verified before the store takes its write lock. -/
def applyAccountLog (now : SystemTime) (addr : C.log.AccountAddr) (signed : C.log.SignedAccountLog)
    (s : Tables) : Tables × Except (BundleError C.log) Unit :=
  match C.log.newRecord addr signed with
  | .error err =>
    (s, .error (if C.log.isSignatureInvalid err then .invalid "signature: verification failed"
      else .malformedLog err))
  | .ok candidate =>
    match Store.putAccountLog now candidate s with
    | (s', .error err) => (s', .error (.internal err))
    | (s', .ok outcome) => (s', outcomeVerdict outcome)

/-! ## Keys -/

variable {C}

theorem keyHex_injective (hHex : C.HexLaws) {b b' : Bundle} :
    b.keyHex C = b'.keyHex C ↔ b.key = b'.key := by
  refine ⟨fun h ↦ Subtype.ext (hHex.encode_injective h), fun h ↦ ?_⟩
  rw [Bundle.keyHex, Bundle.keyHex, h]

/-! ## Verification -/

variable (C) in
/-- The key is a verifying key, and the signature over the payload verifies under it. -/
def Bundle.authentic (b : Bundle) : Bool :=
  C.isVerifyingKey b.key && C.verifyStrict b.key b.payload b.signature

variable {b : Bundle} {now : SystemTime} {s : Tables}

theorem verify_of_authentic (h : b.authentic C = true) : verify C b = .ok () := by
  rw [Bundle.authentic, Bool.and_eq_true] at h
  rw [verify, if_pos h.1, if_pos h.2]

theorem verify_of_not_authentic (h : b.authentic C = false) :
    ∃ msg, verify C b = .error (.invalid msg) := by
  rw [Bundle.authentic, Bool.and_eq_false_iff] at h
  rw [verify]
  by_cases hkey : C.isVerifyingKey b.key = true
  · have hsig : C.verifyStrict b.key b.payload b.signature = false := by simpa [hkey] using h
    exact ⟨_, by rw [if_pos hkey, hsig, if_neg (by simp)]⟩
  · exact ⟨_, if_neg hkey⟩

/-! ## Keypackages -/

theorem applyKeypackage_of_not_authentic (now : SystemTime) (s : Tables)
    (h : b.authentic C = false) :
    ∃ msg, applyKeypackage C now b s = (s, .error (.invalid msg)) := by
  obtain ⟨msg, hmsg⟩ := verify_of_not_authentic h
  exact ⟨msg, by rw [applyKeypackage, hmsg]⟩

theorem applyKeypackage_of_authentic (now : SystemTime) (s : Tables) (h : b.authentic C = true) :
    applyKeypackage C now b s
      = ((Store.insert (A := C.log) now (b.keyHex C) ⟨b.payload, b.signature⟩ s).1,
        (Store.insert now (b.keyHex C) ⟨b.payload, b.signature⟩ s).2.mapError .internal) := by
  rw [applyKeypackage, verify_of_authentic h]

/-- A keypackage is accepted exactly when it is authentic and its millisecond is free. -/
theorem applyKeypackage_eq_ok_iff : (applyKeypackage C now b s).2 = .ok ()
    ↔ b.authentic C = true ∧ ¬Store.StampTaken now (b.keyHex C) s := by
  cases h : b.authentic C with
  | false =>
    obtain ⟨msg, hmsg⟩ := applyKeypackage_of_not_authentic now s h
    rw [hmsg]
    simp
  | true =>
    rw [applyKeypackage_of_authentic now s h]
    by_cases htaken : Store.StampTaken now (b.keyHex C) s
    · rw [Store.insert_of_stampTaken htaken]
      simp [Except.mapError, htaken]
    · obtain ⟨t, -, hins⟩ := Store.insert_of_not_stampTaken (A := C.log)
        ⟨b.payload, b.signature⟩ htaken
      rw [hins]
      simp [Except.mapError, htaken]

/-! ## Account bundles -/

variable (C) in
/-- The lamport of an account bundle that passes every check before the store: it is authentic, and
its payload has a header. -/
def Bundle.validLamport (b : Bundle) : Option UInt64 :=
  if b.authentic C then payloadLamport b.payload else none

theorem validLamport_eq_some_iff {lamport : UInt64} : b.validLamport C = some lamport
    ↔ b.authentic C = true ∧ payloadLamport b.payload = some lamport := by
  rw [Bundle.validLamport]
  split_ifs with h
  · simp [h]
  · simp [h]

theorem applyAccount_of_validLamport_none (now : SystemTime) (s : Tables)
    (h : b.validLamport C = none) :
    ∃ msg, applyAccount C now b s = (s, .error (.invalid msg)) := by
  rw [Bundle.validLamport] at h
  cases hauth : b.authentic C with
  | false =>
    obtain ⟨msg, hmsg⟩ := verify_of_not_authentic hauth
    exact ⟨msg, by rw [applyAccount, hmsg]⟩
  | true =>
    rw [hauth, if_pos rfl] at h
    exact ⟨_, by rw [applyAccount, verify_of_authentic hauth, h]⟩

/-- A valid account bundle is stored when it is newer than the row on file, and stale otherwise. -/
theorem applyAccount_of_validLamport (now : SystemTime) (s : Tables) {lamport : UInt64}
    (h : b.validLamport C = some lamport) :
    applyAccount C now b s
      = ((Store.upsertAccount (A := C.log) now (b.keyHex C) lamport
          ⟨b.payload, b.signature, 0⟩ s).1,
        if Store.isStale lamport (Store.accountRow (b.keyHex C) s) then .error .stale
        else .ok ()) := by
  obtain ⟨hauth, hlamport⟩ := validLamport_eq_some_iff.mp h
  rw [applyAccount, verify_of_authentic hauth, hlamport]
  simp only [Store.upsertAccount]
  split_ifs
  · rfl
  · rfl

theorem applyAccount_eq_ok_iff : (applyAccount C now b s).2 = .ok ()
    ↔ ∃ lamport, b.validLamport C = some lamport
      ∧ Store.isStale lamport (Store.accountRow (b.keyHex C) s) = false := by
  cases h : b.validLamport C with
  | none =>
    obtain ⟨msg, hmsg⟩ := applyAccount_of_validLamport_none now s h
    rw [hmsg]
    simp
  | some lamport =>
    rw [applyAccount_of_validLamport now s h]
    simp

/-! ## Account logs -/

section AccountLog

open Store

variable {addr : C.log.AccountAddr} {signed : C.log.SignedAccountLog}

/-- A log that is not authentic or does not decode is refused. -/
theorem applyAccountLog_of_invalid (hLog : C.log.Laws) (now : SystemTime) (s : Tables)
    (h : (C.log.signatureValid addr signed && C.log.logDecodes signed) = false) :
    ∃ err, applyAccountLog C now addr signed s = (s, .error err) := by
  rw [applyAccountLog]
  cases hnew : C.log.newRecord addr signed with
  | error err => exact ⟨_, rfl⟩
  | ok record =>
    obtain ⟨hsig, hdec⟩ := (hLog.newRecord_ok_iff addr signed).mp ⟨record, hnew⟩
    rw [hsig, hdec] at h
    exact absurd h (by simp)

/-- A valid log is stored when there is none on file or it extends the one there, acknowledged when
it is the one there, and refused otherwise. -/
theorem applyAccountLog_of_valid (hLog : C.log.Laws) (now : SystemTime)
    (h : (C.log.signatureValid addr signed && C.log.logDecodes signed) = true)
    (hrow : ValidLogRow addr (logRow (C.log.addrToString addr) s)) :
    (rowPayload C.log (logRow (C.log.addrToString addr) s) = none ∧
      applyAccountLog C now addr signed s
        = ({ s with accountLogs := s.accountLogs.upsert (logRowOf now addr signed) }, .ok ())) ∨
    ∃ stored, rowPayload C.log (logRow (C.log.addrToString addr) s) = some stored ∧
      ((stored = C.log.payload signed ∧ applyAccountLog C now addr signed s = (s, .ok ())) ∨
      (stored ≠ C.log.payload signed ∧ stored <+: C.log.payload signed ∧
        applyAccountLog C now addr signed s
          = ({ s with accountLogs := s.accountLogs.upsert (logRowOf now addr signed) }, .ok ())) ∨
      (¬stored <+: C.log.payload signed ∧ C.log.payload signed <+: stored ∧
        applyAccountLog C now addr signed s = (s, .error .stale)) ∨
      (¬stored <+: C.log.payload signed ∧ ¬C.log.payload signed <+: stored ∧
        applyAccountLog C now addr signed s = (s, .error .forked))) := by
  rw [Bool.and_eq_true] at h
  obtain ⟨candidate, hnew⟩ := (hLog.newRecord_ok_iff addr signed).mpr h
  rw [applyAccountLog, hnew]
  obtain ⟨hnone, -, hput⟩ | ⟨stored, hstored, hput⟩ :=
    putAccountLog_of_record hLog hnew now hrow
  · exact Or.inl ⟨hnone, by simp only [hput, outcomeVerdict]⟩
  · refine Or.inr ⟨stored, hstored, ?_⟩
    obtain ⟨heq, hout⟩ | ⟨hne, hext, hout⟩ | ⟨hnot, hbehind, hout⟩ | ⟨hnot, hbehind, hout⟩ :=
      logOutcome_cases stored (C.log.payload signed) <;> rw [hout] at hput
    · exact Or.inl ⟨heq, by simp [hput, outcomeVerdict]⟩
    · exact Or.inr (Or.inl ⟨hne, hext, by simp [hput, outcomeVerdict]⟩)
    · exact Or.inr (Or.inr (Or.inl ⟨hnot, hbehind, by simp [hput, outcomeVerdict]⟩))
    · exact Or.inr (Or.inr (Or.inr ⟨hnot, hbehind, by simp [hput, outcomeVerdict]⟩))

end AccountLog

end ChatStore
