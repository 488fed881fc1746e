import ChatStore.Bundle

/-!
# The HTTP endpoints

Each handler decodes its request, hands the bundle to the rules of `Bundle`, and turns the verdict
into an answer. The framework's part is left out: a request here is a deserialised body, or a path
segment with a raw body.
-/

namespace ChatStore

/-- 200, 204, 400, 404, 409 and 500. -/
inductive StatusCode
  | ok
  | noContent
  | badRequest
  | notFound
  | conflict
  | internalServerError
  deriving DecidableEq

/-- An error answer. -/
structure ApiError where
  status : StatusCode
  message : String
  deriving DecidableEq

def ApiError.notFound (msg : String) : ApiError := ⟨.notFound, msg⟩

def ApiError.internal : ApiError := ⟨.internalServerError, "internal error"⟩

/-- `From<BundleError> for ApiError`. -/
def ApiError.ofBundleError {A : AccountLogCrate} : BundleError A → ApiError
  | .invalid msg => ⟨.badRequest, msg⟩
  | .malformedLog err => ⟨.badRequest, (BundleError.malformedLog err).toString⟩
  | .stale => ⟨.conflict, (BundleError.stale : BundleError A).toString⟩
  | .forked => ⟨.conflict, (BundleError.forked : BundleError A).toString⟩
  | .internal _ => .internal

/-- The answer of a submission that ended with a verdict. -/
def answer {A : AccountLogCrate} : Except (BundleError A) Unit → Except ApiError StatusCode
  | .ok () => .ok .noContent
  | .error err => .error (.ofBundleError err)

/-- Apply a decoded bundle, or stop at the decoding error. -/
def thenApply {A : AccountLogCrate} (decoded : Except (BundleError A) Bundle)
    (apply : Bundle → Tables → Tables × Except (BundleError A) Unit) (s : Tables) :
    Tables × Except (BundleError A) Unit :=
  match decoded with
  | .error err => (s, .error err)
  | .ok b => apply b s

variable (C : Crates)

/-- `decode_bundle`. -/
def decodeBundle (keyHex payloadB64 signatureB64 : String) : Except (BundleError C.log) Bundle := do
  let key ← (C.hexDecode keyHex).elim (.error (.invalid "key: must be hex")) .ok
  let payload ← (C.base64Decode payloadB64).elim
    (.error (.invalid "payload: not valid base64")) .ok
  let signature ← (C.base64Decode signatureB64).elim
    (.error (.invalid "signature: not valid base64")) .ok
  Bundle.fromBytes key payload signature

variable {C} in
/-- A submission decodes when its three texts do and make a bundle. Anything else is a bad
request. -/
theorem decodeBundle_cases (keyHex payloadB64 signatureB64 : String) :
    (∃ key payload signature, C.hexDecode keyHex = some key ∧
      C.base64Decode payloadB64 = some payload ∧ C.base64Decode signatureB64 = some signature ∧
      decodeBundle C keyHex payloadB64 signatureB64 = Bundle.fromBytes key payload signature) ∨
    (C.hexDecode keyHex = none ∨ C.base64Decode payloadB64 = none ∨
      C.base64Decode signatureB64 = none) ∧
      ∃ msg, decodeBundle C keyHex payloadB64 signatureB64 = .error (.invalid msg) := by
  rw [decodeBundle]
  cases C.hexDecode keyHex with
  | none => exact Or.inr ⟨Or.inl rfl, _, rfl⟩
  | some key =>
    cases C.base64Decode payloadB64 with
    | none => exact Or.inr ⟨Or.inr (Or.inl rfl), _, rfl⟩
    | some payload =>
      cases C.base64Decode signatureB64 with
      | none => exact Or.inr ⟨Or.inr (Or.inr rfl), _, rfl⟩
      | some signature => exact Or.inl ⟨key, payload, signature, rfl, rfl, rfl, rfl⟩

variable {C} in
theorem decodeBundle_error {keyHex payloadB64 signatureB64 : String} {err : BundleError C.log}
    (h : decodeBundle C keyHex payloadB64 signatureB64 = .error err) :
    ∃ msg, err = .invalid msg := by
  obtain ⟨key, payload, signature, -, -, -, hdecode⟩ | ⟨-, msg, hdecode⟩ :=
    decodeBundle_cases (C := C) keyHex payloadB64 signatureB64
  · exact fromBytes_error (hdecode.symm.trans h)
  · exact ⟨msg, (Except.error.inj (hdecode.symm.trans h)).symm⟩

variable {C} in
/-- The bundle of a submission consists of what its texts spell. -/
theorem decodeBundle_eq_ok_iff {keyHex payloadB64 signatureB64 : String} {b : Bundle} :
    decodeBundle C keyHex payloadB64 signatureB64 = .ok b
      ↔ C.hexDecode keyHex = some b.key.val ∧ C.base64Decode payloadB64 = some b.payload ∧
        C.base64Decode signatureB64 = some b.signature.val := by
  obtain ⟨key, payload, signature, hkey, hpayload, hsignature, hdecode⟩ | ⟨hnone, msg, hdecode⟩ :=
    decodeBundle_cases (C := C) keyHex payloadB64 signatureB64
  · rw [hdecode, fromBytes_eq_ok_iff, hkey, hpayload, hsignature]
    simp only [Option.some.injEq, eq_comm]
  · rw [hdecode]
    constructor
    · intro h
      exact absurd h (by simp)
    · rintro ⟨hkey, hpayload, hsignature⟩
      rcases hnone with h | h | h
      · rw [h] at hkey; exact absurd hkey (by simp)
      · rw [h] at hpayload; exact absurd hpayload (by simp)
      · rw [h] at hsignature; exact absurd hsignature (by simp)

/-! ## `/v0/keypackage` -/

structure SubmitKeyPackageRequest where
  deviceId : String
  payload : String
  signature : String
  deriving DecidableEq

def SubmitKeyPackageRequest.decode (req : SubmitKeyPackageRequest) :
    Except (BundleError C.log) Bundle :=
  decodeBundle C req.deviceId req.payload req.signature

structure FetchKeyPackageResponse where
  payload : String
  signature : String
  deriving DecidableEq

/-- `POST /v0/keypackage`. -/
def submitKeyPackage (now : SystemTime) (req : SubmitKeyPackageRequest) (s : Tables) :
    Tables × Except ApiError StatusCode :=
  let (s', verdict) := thenApply (req.decode C) (applyKeypackage C now) s
  (s', answer verdict)

/-- `GET /v0/keypackage/:device_id`. The path segment is looked up as it stands. -/
def fetchKeyPackage (deviceId : String) (s : Tables) : Except ApiError FetchKeyPackageResponse :=
  match Store.latest deviceId s with
  | none => .error (.notFound "no keypackage for device")
  | some bundle => .ok ⟨C.base64Encode bundle.payload, C.base64Encode bundle.signature⟩

/-! ## `/v0/account` -/

structure SubmitAccountRequest where
  accountPub : String
  payload : String
  signature : String
  deriving DecidableEq

def SubmitAccountRequest.decode (req : SubmitAccountRequest) :
    Except (BundleError C.log) Bundle :=
  decodeBundle C req.accountPub req.payload req.signature

structure FetchAccountResponse where
  payload : String
  signature : String
  updatedAt : ℤ
  deriving DecidableEq

/-- `POST /v0/account`. -/
def submitAccount (now : SystemTime) (req : SubmitAccountRequest) (s : Tables) :
    Tables × Except ApiError StatusCode :=
  let (s', verdict) := thenApply (req.decode C) (applyAccount C now) s
  (s', answer verdict)

/-- `GET /v0/account/:account_pub`. -/
def fetchAccount (accountPub : String) (s : Tables) : Except ApiError FetchAccountResponse :=
  match Store.getAccount accountPub s with
  | none => .error (.notFound "no account bundle for account_pub")
  | some bundle =>
    .ok ⟨C.base64Encode bundle.payload, C.base64Encode bundle.signature, bundle.updatedAt⟩

/-! ## `/v1/account` -/

/-- `parse_addr`. -/
def parseAddr (accountAddr : String) : Except (BundleError C.log) C.log.AccountAddr :=
  (C.log.parseAddr accountAddr).elim
    (.error (.invalid "account_addr: not a valid account address")) .ok

/-- What a `POST /v1/account` names and carries. -/
def decodeAccountLog (accountAddr : String) (body : Bytes) :
    Except (BundleError C.log) (C.log.AccountAddr × C.log.SignedAccountLog) := do
  let addr ← parseAddr C accountAddr
  let signed ← (C.log.fromBytes body).mapError .malformedLog
  return (addr, signed)

variable {C} in
/-- A submission decodes when its path is an address and its body a signed log. -/
theorem decodeAccountLog_eq_ok_iff {accountAddr : String} {body : Bytes}
    {addr : C.log.AccountAddr} {signed : C.log.SignedAccountLog} :
    decodeAccountLog C accountAddr body = .ok (addr, signed)
      ↔ C.log.parseAddr accountAddr = some addr ∧ C.log.fromBytes body = .ok signed := by
  rw [decodeAccountLog, parseAddr]
  rcases hparse : C.log.parseAddr accountAddr with _ | addr'
  · exact ⟨fun h ↦ (nomatch h), fun h ↦ (nomatch h.1)⟩
  · rcases hbytes : C.log.fromBytes body with err | signed'
    · exact ⟨fun h ↦ (nomatch h), fun h ↦ (nomatch h.2)⟩
    · rw [Option.some.injEq, Except.ok.injEq]
      refine ⟨fun h ↦ Prod.ext_iff.mp (Except.ok.inj h), ?_⟩
      rintro ⟨rfl, rfl⟩
      rfl

variable {C} in
/-- Anything else is a bad request. -/
theorem decodeAccountLog_error {accountAddr : String} {body : Bytes} {err : BundleError C.log}
    (h : decodeAccountLog C accountAddr body = .error err) :
    ∃ msg, ApiError.ofBundleError err = ⟨.badRequest, msg⟩ := by
  rw [decodeAccountLog, parseAddr] at h
  rcases hparse : C.log.parseAddr accountAddr with _ | addr
  · rw [hparse] at h
    obtain rfl := Except.error.inj h
    exact ⟨_, rfl⟩
  · rcases hbytes : C.log.fromBytes body with err' | signed
    · rw [hparse, hbytes] at h
      obtain rfl := Except.error.inj h
      exact ⟨_, rfl⟩
    · rw [hparse, hbytes] at h
      cases h

/-- `POST /v1/account/:account_addr`. -/
def submitAccountLog (now : SystemTime) (accountAddr : String) (body : Bytes) (s : Tables) :
    Tables × Except ApiError StatusCode :=
  match decodeAccountLog C accountAddr body with
  | .error err => (s, .error (.ofBundleError err))
  | .ok (addr, signed) =>
    let (s', verdict) := applyAccountLog C now addr signed s
    (s', answer verdict)

/-- `GET /v1/account/:account_addr`. -/
def fetchAccountLog (accountAddr : String) (s : Tables) : Except ApiError Bytes :=
  match parseAddr C accountAddr with
  | .error err => .error (.ofBundleError err)
  | .ok addr =>
    match Store.getAccountLog addr s with
    | none => .error (.notFound "no account log for account_addr")
    | some signedLog => .ok signedLog

end ChatStore
