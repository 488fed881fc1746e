import ChatStore.AppendOnly
import ChatStore.Authenticity
import ChatStore.Header

/-!
# The exact verdicts of the account endpoints

For `POST /v0/account` and `POST /v1/account` the file says which answer a submission gets in any
reachable database, and what it leaves there. The rules are spread over handler, bundle and store;
here each endpoint has one structure that states the whole of it.

In a reachable database two branches of the code are dead: that of a row whose payload has no
lamport, and that of a stored account log that no longer verifies. The invariants behind this are
`exists_lamport_after` and `signedLogRow_after`.
-/

namespace ChatStore

open Library Store

variable (C : Crates)

/-! ## `POST /v0/account` -/

/-- The request passes every check. Its texts spell the bundle `b`, the key of `b` is valid and its
signature verifies, and its payload is laid out with `lamport`. -/
structure SubmitAccountRequest.Valid (req : SubmitAccountRequest) (b : Bundle) (lamport : UInt64) :
    Prop where
  key : C.hexDecode req.accountPub = some b.key.val
  payload : C.base64Decode req.payload = some b.payload
  signature : C.base64Decode req.signature = some b.signature.val
  isVerifyingKey : C.isVerifyingKey b.key = true
  verifies : C.verifyStrict b.key b.payload b.signature = true
  layout : ∃ version rest, b.payload = bundlePayload version lamport rest

/-- There is no row, or the lamport is greater than that of the payload on file. -/
def NewerThanRow (lamport : UInt64) (row : Option AccountBundleRow) : Prop :=
  ∀ r ∈ row, ∃ stored, payloadLamport r.payload = some stored ∧ stored < lamport

/-- What the database `s` makes of a request, its tables and its answer. -/
structure AccountVerdict (now : SystemTime) (req : SubmitAccountRequest) (s : Tables)
    (result : Tables × Except ApiError StatusCode) : Prop where
  noContent : result.2 = .ok .noContent
    ↔ ∃ b lamport, req.Valid C b lamport ∧ NewerThanRow lamport (accountRow (b.keyHex C) s)
  conflict : (∃ msg, result.2 = .error ⟨.conflict, msg⟩)
    ↔ ∃ b lamport, req.Valid C b lamport ∧ ¬NewerThanRow lamport (accountRow (b.keyHex C) s)
  badRequest : (∃ msg, result.2 = .error ⟨.badRequest, msg⟩) ↔ ¬∃ b lamport, req.Valid C b lamport
  notInternal : ∀ msg, result.2 ≠ .error ⟨.internalServerError, msg⟩
  /-- An accepted request becomes the account's only row, and changes nothing else. -/
  stored : result.2 = .ok .noContent → ∀ b lamport, req.Valid C b lamport →
    (∀ r, r ∈ result.1.accountBundles.rows ↔
      r = ⟨b.keyHex C, stamp now, b.payload, b.signature⟩ ∨
        r ∈ s.accountBundles.rows ∧ r.accountPub ≠ b.keyHex C) ∧
    result.1.keypackages = s.keypackages ∧ result.1.accountLogs = s.accountLogs
  unchanged : result.2 ≠ .ok .noContent → result.1 = s

variable {C} {now : SystemTime} {s : Tables}

theorem SubmitAccountRequest.valid_iff {req : SubmitAccountRequest} {b : Bundle}
    {lamport : UInt64} : req.Valid C b lamport
      ↔ req.decode C = .ok b ∧ b.validLamport C = some lamport := by
  rw [decode, decodeBundle_eq_ok_iff, validLamport_eq_some_iff, Bundle.authentic,
    Bool.and_eq_true, payloadLamport_eq_some_iff]
  constructor
  · rintro ⟨hkey, hpayload, hsignature, hvalid, hverifies, hlayout⟩
    exact ⟨⟨hkey, hpayload, hsignature⟩, ⟨hvalid, hverifies⟩, hlayout⟩
  · rintro ⟨⟨hkey, hpayload, hsignature⟩, ⟨hvalid, hverifies⟩, hlayout⟩
    exact ⟨hkey, hpayload, hsignature, hvalid, hverifies, hlayout⟩

theorem SubmitAccountRequest.Valid.unique {req : SubmitAccountRequest} {b b' : Bundle}
    {lamport lamport' : UInt64} (h : req.Valid C b lamport) (h' : req.Valid C b' lamport') :
    b' = b ∧ lamport' = lamport := by
  obtain ⟨hdecode, hlamport⟩ := valid_iff.mp h
  obtain ⟨hdecode', hlamport'⟩ := valid_iff.mp h'
  obtain rfl : b' = b := Except.ok.inj (hdecode'.symm.trans hdecode)
  exact ⟨rfl, Option.some.inj (hlamport'.symm.trans hlamport)⟩

/-- Where rows have lamports, a bundle is stale exactly when it is not newer than its row. -/
theorem isStale_eq_false_iff_newerThanRow {lamport : UInt64} {row : Option AccountBundleRow}
    (h : ∀ r ∈ row, ∃ stored, payloadLamport r.payload = some stored) :
    isStale lamport row = false ↔ NewerThanRow lamport row := by
  rw [NewerThanRow]
  rcases row with _ | r
  · simp [isStale, storedLamport]
  · obtain ⟨stored, hstored⟩ := h r rfl
    simp [isStale, storedLamport, hstored]

/-- The three ways a submission can go. -/
theorem submitAccount_cases (now : SystemTime) (req : SubmitAccountRequest)
    (hs : ∀ r ∈ s.accountBundles.rows, ∃ lamport, payloadLamport r.payload = some lamport) :
    ((¬∃ b lamport, req.Valid C b lamport) ∧
      ∃ msg, submitAccount C now req s = (s, .error ⟨.badRequest, msg⟩)) ∨
    ∃ b lamport, req.Valid C b lamport ∧
      ((NewerThanRow lamport (accountRow (b.keyHex C) s) ∧ submitAccount C now req s
        = ((upsertAccount (A := C.log) now (b.keyHex C) lamport ⟨b.payload, b.signature, 0⟩ s).1,
          .ok .noContent)) ∨
      (¬NewerThanRow lamport (accountRow (b.keyHex C) s) ∧
        ∃ msg, submitAccount C now req s = (s, .error ⟨.conflict, msg⟩))) := by
  rw [submitAccount]
  rcases hdecode : req.decode C with err | b
  · obtain ⟨msg, rfl⟩ := decodeBundle_error hdecode
    refine Or.inl ⟨?_, msg, rfl⟩
    rintro ⟨b, lamport, hvalid⟩
    rw [(SubmitAccountRequest.valid_iff.mp hvalid).1] at hdecode
    exact absurd hdecode (by simp)
  · rcases hlamport : b.validLamport C with _ | lamport
    · obtain ⟨msg, happly⟩ := applyAccount_of_validLamport_none now s hlamport
      refine Or.inl ⟨?_, msg, by simp only [thenApply, happly]; rfl⟩
      rintro ⟨b', lamport, hvalid⟩
      obtain ⟨hdecode', hlamport'⟩ := SubmitAccountRequest.valid_iff.mp hvalid
      obtain rfl : b = b' := Except.ok.inj (hdecode.symm.trans hdecode')
      rw [hlamport] at hlamport'
      exact absurd hlamport' (by simp)
    · have hrow : ∀ r ∈ accountRow (b.keyHex C) s,
          ∃ stored, payloadLamport r.payload = some stored :=
        fun r hr ↦ hs r (Table.find?_eq_some_iff.mp hr).1
      refine Or.inr ⟨b, lamport, SubmitAccountRequest.valid_iff.mpr ⟨hdecode, hlamport⟩, ?_⟩
      simp only [thenApply, applyAccount_of_validLamport now s hlamport]
      rcases hstale : isStale lamport (accountRow (b.keyHex C) s)
      · exact Or.inl ⟨(isStale_eq_false_iff_newerThanRow hrow).mp hstale, rfl⟩
      · rw [upsertAccount, hstale]
        refine Or.inr ⟨fun hnewer ↦ ?_, _, rfl⟩
        rw [(isStale_eq_false_iff_newerThanRow hrow).mpr hnewer] at hstale
        exact absurd hstale (by simp)

/-- **The exact verdict of `POST /v0/account`** in every reachable database. In particular every row
that the compare step finds has a lamport. -/
theorem submitAccount_exact (events : List Event) (now : SystemTime)
    (req : SubmitAccountRequest) :
    AccountVerdict C now req (tablesAfter C events)
      (submitAccount C now req (tablesAfter C events)) ∧
    ∀ accountPub, ∀ r ∈ accountRow accountPub (tablesAfter C events),
      ∃ stored, payloadLamport r.payload = some stored := by
  have hs := exists_lamport_after (C := C) events
  refine ⟨?_, fun accountPub r hr ↦ hs r (Table.find?_eq_some_iff.mp hr).1⟩
  obtain ⟨hnone, msg, hresult⟩ | ⟨b, lamport, hvalid, ⟨hnewer, hresult⟩ | ⟨hold, msg, hresult⟩⟩ :=
    submitAccount_cases now req hs
  · rw [hresult]
    have hnot : ∀ p : Bundle → UInt64 → Prop, ¬∃ b lamport, req.Valid C b lamport ∧ p b lamport :=
      fun p ⟨b, lamport, hvalid, _⟩ ↦ hnone ⟨b, lamport, hvalid⟩
    exact ⟨by simp [hnot], by simp [hnot], by simp [hnone], by simp, by simp, by simp⟩
  · rw [hresult]
    refine ⟨?_, ?_, ?_, by simp, fun _ b' lamport' hvalid' ↦ ?_, by simp⟩
    · simp only [true_iff]
      exact ⟨b, lamport, hvalid, hnewer⟩
    · simp only [reduceCtorEq, exists_false, false_iff]
      rintro ⟨b', lamport', hvalid', hold⟩
      obtain ⟨rfl, rfl⟩ := hvalid.unique hvalid'
      exact hold hnewer
    · simp only [reduceCtorEq, exists_false, false_iff, not_not]
      exact ⟨b, lamport, hvalid⟩
    · obtain ⟨rfl, -⟩ := hvalid.unique hvalid'
      have hstale : isStale lamport (accountRow (b'.keyHex C) (tablesAfter C events)) = false :=
        (isStale_eq_false_iff_newerThanRow fun r hr ↦
          hs r (Table.find?_eq_some_iff.mp hr).1).mpr hnewer
      simp only [upsertAccount, hstale]
      exact ⟨fun r ↦ Table.mem_upsert, rfl, rfl⟩
  · rw [hresult]
    refine ⟨?_, ?_, ?_, by simp, by simp, by simp⟩
    · simp only [reduceCtorEq, false_iff]
      rintro ⟨b', lamport', hvalid', hnewer⟩
      obtain ⟨rfl, rfl⟩ := hvalid.unique hvalid'
      exact hold hnewer
    · simp only [Except.error.injEq, ApiError.mk.injEq, true_and, exists_eq', true_iff]
      exact ⟨b, lamport, hvalid, hold⟩
    · simp only [Except.error.injEq, ApiError.mk.injEq, reduceCtorEq, false_and, exists_false,
        false_iff, not_not]
      exact ⟨b, lamport, hvalid⟩

/-! ## `POST /v1/account` -/

variable (C) in
/-- A path and a body pass every check. The path is an address, the body is a signed log whose
signature verifies under that address, and the log decodes. -/
structure ValidLogSubmission (path : String) (body : Bytes) (addr : C.log.AccountAddr)
    (signed : C.log.SignedAccountLog) : Prop where
  address : C.log.parseAddr path = some addr
  artifact : C.log.fromBytes body = .ok signed
  signature : C.log.signatureValid addr signed = true
  decodes : C.log.logDecodes signed = true

variable (C) in
/-- The row of an address. -/
def rowOnFile (addr : C.log.AccountAddr) (s : Tables) : Option AccountLogRow :=
  logRow (C.log.addrToString addr) s

variable (C) in
/-- The payload that is stored for an address. -/
def payloadOnFile (addr : C.log.AccountAddr) (s : Tables) : Option Bytes :=
  rowPayload C.log (rowOnFile C addr s)

variable (C) in
/-- What the database `s` makes of a valid log: its answer, and what becomes of the row. -/
structure ValidLogVerdict (path : String) (body : Bytes) (addr : C.log.AccountAddr)
    (payload : Bytes) (s : Tables) (result : Tables × Except ApiError StatusCode) : Prop where
  noContent : result.2 = .ok .noContent ↔ rowOnFile C addr s = none ∨
    ∃ stored, payloadOnFile C addr s = some stored ∧ stored <+: payload
  stale : result.2 = .error (.ofBundleError (.stale : BundleError C.log)) ↔
    ∃ stored, payloadOnFile C addr s = some stored ∧ payload <+: stored ∧ payload ≠ stored
  forked : result.2 = .error (.ofBundleError (.forked : BundleError C.log)) ↔
    ∃ stored, payloadOnFile C addr s = some stored ∧ ¬stored <+: payload ∧ ¬payload <+: stored
  changed : rowOnFile C addr result.1 ≠ rowOnFile C addr s ↔ rowOnFile C addr s = none ∨
    ∃ stored, payloadOnFile C addr s = some stored ∧ stored <+: payload ∧ stored ≠ payload
  unchanged : rowOnFile C addr result.1 = rowOnFile C addr s → result.1 = s
  /-- What was stored is served as it was posted. -/
  served : rowOnFile C addr result.1 ≠ rowOnFile C addr s →
    fetchAccountLog C path result.1 = .ok body

variable (C) in
/-- What the database `s` makes of a path and a body. -/
structure AccountLogVerdict (path : String) (body : Bytes) (s : Tables)
    (result : Tables × Except ApiError StatusCode) : Prop where
  badRequest : (∃ msg, result.2 = .error ⟨.badRequest, msg⟩)
    ↔ ¬∃ addr signed, ValidLogSubmission C path body addr signed
  refused : (¬∃ addr signed, ValidLogSubmission C path body addr signed) → result.1 = s
  valid : ∀ addr signed, ValidLogSubmission C path body addr signed →
    ValidLogVerdict C path body addr (C.log.payload signed) s result
  notInternal : ∀ msg, result.2 ≠ .error ⟨.internalServerError, msg⟩

variable {path : String} {body : Bytes} {addr : C.log.AccountAddr}
  {signed : C.log.SignedAccountLog}

/-- Every log on file is valid for the address it is looked up under. -/
theorem validLogRow_of_signed (hLog : C.log.Laws)
    (hs : ∀ r ∈ s.accountLogs.rows, SignedLogRow C r.accountPub r.signedLog)
    (addr : C.log.AccountAddr) : ValidLogRow addr (rowOnFile C addr s) := by
  intro r hr
  obtain ⟨hmem, hkey⟩ := Table.find?_eq_some_iff.mp hr
  obtain ⟨addr', signed, record, haddr, hbytes, hnew⟩ := hs r hmem
  obtain rfl : addr' = addr := hLog.addrToString_injective (haddr.symm.trans hkey)
  exact ⟨signed, record, hbytes, hnew⟩

theorem payloadOnFile_eq_none_iff (hrow : ValidLogRow addr (rowOnFile C addr s)) :
    payloadOnFile C addr s = none ↔ rowOnFile C addr s = none := by
  rw [payloadOnFile]
  rcases h : rowOnFile C addr s with _ | r
  · simp [rowPayload]
  · obtain ⟨old, record, hbytes, -⟩ := hrow r h
    simp [rowPayload, hbytes, Except.toOption]

/-! ### The answer to a log that is not valid -/

/-- A log that fails verification or does not decode is a bad request. -/
theorem applyAccountLog_badRequest (hLog : C.log.Laws) (now : SystemTime) (s : Tables)
    (h : (C.log.signatureValid addr signed && C.log.logDecodes signed) = false) :
    ∃ err msg, applyAccountLog C now addr signed s = (s, .error err) ∧
      ApiError.ofBundleError err = ⟨.badRequest, msg⟩ := by
  rw [applyAccountLog]
  rcases hnew : C.log.newRecord addr signed with err | record
  · dsimp only
    by_cases hsig : C.log.isSignatureInvalid err = true
    · rw [if_pos hsig]
      exact ⟨_, _, rfl, rfl⟩
    · rw [if_neg hsig]
      exact ⟨_, _, rfl, rfl⟩
  · obtain ⟨hsig, hdec⟩ := (hLog.newRecord_ok_iff addr signed).mp ⟨record, hnew⟩
    rw [hsig, hdec] at h
    exact absurd h (by simp)

theorem submitAccountLog_of_invalid (hLog : C.log.Laws) (now : SystemTime) (s : Tables)
    (h : ¬∃ addr signed, ValidLogSubmission C path body addr signed) :
    ∃ msg, submitAccountLog C now path body s = (s, .error ⟨.badRequest, msg⟩) := by
  rw [submitAccountLog]
  rcases hdecode : decodeAccountLog C path body with err | ⟨addr, signed⟩
  · obtain ⟨msg, hmsg⟩ := decodeAccountLog_error hdecode
    exact ⟨msg, by simp only [hmsg]⟩
  · obtain ⟨haddr, hbytes⟩ := decodeAccountLog_eq_ok_iff.mp hdecode
    have hinvalid : (C.log.signatureValid addr signed && C.log.logDecodes signed) = false := by
      rw [Bool.and_eq_false_iff]
      by_contra hvalid
      simp only [not_or, Bool.not_eq_false] at hvalid
      exact h ⟨addr, signed, haddr, hbytes, hvalid.1, hvalid.2⟩
    obtain ⟨err, msg, happly, hmsg⟩ := applyAccountLog_badRequest hLog now s hinvalid
    refine ⟨msg, ?_⟩
    simp only [happly, answer, hmsg]

/-! ### The answer to a valid log -/

variable (C) in
/-- The database with a log stored for its address. -/
def withLog (now : SystemTime) (addr : C.log.AccountAddr) (signed : C.log.SignedAccountLog)
    (s : Tables) : Tables :=
  { s with accountLogs := s.accountLogs.upsert (logRowOf now addr signed) }

theorem rowOnFile_withLog (now : SystemTime) (addr : C.log.AccountAddr)
    (signed : C.log.SignedAccountLog) (s : Tables) :
    rowOnFile C addr (withLog C now addr signed s) = some (logRowOf now addr signed) :=
  Table.find?_upsert_self s.accountLogs (logRowOf now addr signed)

/-- Storing a log whose payload is not on file changes the row. -/
theorem rowOnFile_withLog_ne (hLog : C.log.Laws) (now : SystemTime)
    (signed : C.log.SignedAccountLog)
    (h : payloadOnFile C addr s ≠ some (C.log.payload signed)) :
    rowOnFile C addr (withLog C now addr signed s) ≠ rowOnFile C addr s := by
  intro heq
  rw [payloadOnFile, ← heq, rowOnFile_withLog, rowPayload_logRowOf hLog] at h
  exact h rfl

/-- A stored log is served as it was posted. -/
theorem fetchAccountLog_withLog (hLog : C.log.Laws) (now : SystemTime) (s : Tables)
    (h : ValidLogSubmission C path body addr signed) :
    fetchAccountLog C path (withLog C now addr signed s) = .ok body := by
  have hrow := rowOnFile_withLog now addr signed s
  rw [rowOnFile] at hrow
  rw [fetchAccountLog, parseAddr, h.address, Option.elim_some]
  simp only [getAccountLog, hrow, Option.map_some, logRowOf]
  rw [hLog.toBytes_fromBytes body signed h.artifact]

theorem stale_ne_forked {A : AccountLogCrate} :
    ApiError.ofBundleError (.stale : BundleError A) ≠ .ofBundleError (.forked : BundleError A) := by
  simp [ApiError.ofBundleError, BundleError.toString]

/-- The verdict on a valid log, in each of the five ways it can relate to what is on file. -/
theorem submitAccountLog_of_valid (hLog : C.log.Laws) (now : SystemTime)
    (hrow : ValidLogRow addr (rowOnFile C addr s))
    (h : ValidLogSubmission C path body addr signed) :
    ValidLogVerdict C path body addr (C.log.payload signed) s
      (submitAccountLog C now path body s) := by
  have hdecode : decodeAccountLog C path body = .ok (addr, signed) :=
    decodeAccountLog_eq_ok_iff.mpr ⟨h.address, h.artifact⟩
  have hvalid : (C.log.signatureValid addr signed && C.log.logDecodes signed) = true := by
    rw [h.signature, h.decodes]
    rfl
  have hserved := fetchAccountLog_withLog hLog now s h
  have hnone := payloadOnFile_eq_none_iff hrow
  rw [submitAccountLog, hdecode]
  obtain ⟨hfile, happly⟩ | ⟨stored, hfile, hcases⟩ :=
    applyAccountLog_of_valid hLog now hvalid hrow
  · -- Nothing is on file, and the log is stored.
    change payloadOnFile C addr s = none at hfile
    change applyAccountLog C now addr signed s = (withLog C now addr signed s, .ok ()) at happly
    have hchanged := rowOnFile_withLog_ne hLog now signed (by rw [hfile]; simp)
    simp only [happly, answer]
    refine ⟨by simp [hnone.mp hfile], by simp [hfile], by simp [hfile], ?_,
      fun heq ↦ absurd heq hchanged, fun _ ↦ hserved⟩
    exact iff_of_true hchanged (Or.inl (hnone.mp hfile))
  · change payloadOnFile C addr s = some stored at hfile
    have hsome : rowOnFile C addr s ≠ none := fun heq ↦ by simp [hnone.mpr heq] at hfile
    obtain ⟨heq, happly⟩ | ⟨hne, hext, happly⟩ | ⟨hnot, hbehind, happly⟩ |
      ⟨hnot, hahead, happly⟩ := hcases
    · simp only [happly, answer]
      exact ⟨by simp [hfile, heq], by simp [hfile, heq], by simp [hfile, heq],
        by simp [hsome, hfile, heq], fun _ ↦ rfl, fun hne ↦ absurd rfl hne⟩
    · -- The stored payload is a strict prefix, and the log is stored.
      change applyAccountLog C now addr signed s = (withLog C now addr signed s, .ok ()) at happly
      have hback : ¬C.log.payload signed <+: stored := fun hback ↦
        hne (hext.eq_of_length (le_antisymm hext.length_le hback.length_le))
      have hchanged := rowOnFile_withLog_ne hLog now signed (by
        rw [hfile]
        simpa using hne)
      simp only [happly, answer]
      exact ⟨by simp [hfile, hext], by simp [hfile, hback], by simp [hfile, hext],
        iff_of_true hchanged (Or.inr ⟨stored, hfile, hext, hne⟩),
        fun heq ↦ absurd heq hchanged, fun _ ↦ hserved⟩
    · have hne : C.log.payload signed ≠ stored := fun heq ↦ hnot (heq ▸ List.prefix_rfl)
      simp only [happly, answer]
      exact ⟨by simp [hsome, hfile, hnot], by simp [hfile, hbehind, hne],
        by simp [hfile, hbehind, stale_ne_forked], by simp [hsome, hfile, hnot], fun _ ↦ rfl,
        fun hne ↦ absurd rfl hne⟩
    · simp only [happly, answer]
      exact ⟨by simp [hsome, hfile, hnot], by simp [hfile, hahead, stale_ne_forked.symm],
        by simp [hfile, hnot, hahead], by simp [hsome, hfile, hnot], fun _ ↦ rfl,
        fun hne ↦ absurd rfl hne⟩

/-- A valid log is never a bad request, and never an internal error. -/
theorem applyAccountLog_of_valid_answer (hLog : C.log.Laws) (now : SystemTime)
    (hrow : ValidLogRow addr (rowOnFile C addr s))
    (h : (C.log.signatureValid addr signed && C.log.logDecodes signed) = true) :
    (applyAccountLog C now addr signed s).2 = .ok () ∨
      (applyAccountLog C now addr signed s).2 = .error .stale ∨
      (applyAccountLog C now addr signed s).2 = .error .forked := by
  obtain ⟨-, happly⟩ | ⟨stored, -, ⟨-, happly⟩ | ⟨-, -, happly⟩ | ⟨-, -, happly⟩ |
    ⟨-, -, happly⟩⟩ := applyAccountLog_of_valid hLog now h hrow <;> simp [happly]

/-- **The exact verdict of `POST /v1/account`** in every reachable database. The two branches for a
stored log that no longer verifies and for an unexpected outcome are never reached. -/
theorem submitAccountLog_exact (hLog : C.log.Laws) (events : List Event) (now : SystemTime)
    (path : String) (body : Bytes) :
    AccountLogVerdict C path body (tablesAfter C events)
      (submitAccountLog C now path body (tablesAfter C events)) ∧
    ∀ addr signed err,
      (applyAccountLog C now addr signed (tablesAfter C events)).2 ≠ .error (.internal err) := by
  have hrow := validLogRow_of_signed hLog (signedLogRow_after hLog events)
  constructor
  · by_cases hvalid : ∃ addr signed, ValidLogSubmission C path body addr signed
    · have hanswer : ∀ msg, (submitAccountLog C now path body (tablesAfter C events)).2
          ≠ .error ⟨.badRequest, msg⟩ ∧ (submitAccountLog C now path body
            (tablesAfter C events)).2 ≠ .error ⟨.internalServerError, msg⟩ := by
        obtain ⟨addr, signed, h⟩ := hvalid
        have hdecode : decodeAccountLog C path body = .ok (addr, signed) :=
          decodeAccountLog_eq_ok_iff.mpr ⟨h.address, h.artifact⟩
        intro msg
        simp only [submitAccountLog, hdecode]
        obtain hok | hstale | hforked := applyAccountLog_of_valid_answer hLog now (hrow addr)
          (by rw [h.signature, h.decodes]; rfl)
        · simp [hok, answer]
        · simp [hstale, answer, ApiError.ofBundleError]
        · simp [hforked, answer, ApiError.ofBundleError]
      refine ⟨?_, fun hnone ↦ absurd hvalid hnone, fun addr signed h ↦
        submitAccountLog_of_valid hLog now (hrow addr) h, fun msg ↦ (hanswer msg).2⟩
      exact iff_of_false (not_exists.mpr fun msg ↦ (hanswer msg).1) (not_not.mpr hvalid)
    · obtain ⟨msg, hresult⟩ := submitAccountLog_of_invalid hLog now (tablesAfter C events) hvalid
      rw [hresult]
      exact ⟨by simp [hvalid], fun _ ↦ rfl, fun addr signed h ↦ absurd ⟨addr, signed, h⟩ hvalid,
        by simp⟩
  · intro addr signed err
    rcases hvalid : C.log.signatureValid addr signed && C.log.logDecodes signed
    · obtain ⟨err', msg, happly, hmsg⟩ :=
        applyAccountLog_badRequest hLog now (tablesAfter C events) hvalid
      rw [happly]
      intro h
      rw [Except.error.inj h] at hmsg
      simp [ApiError.ofBundleError, ApiError.internal] at hmsg
    · obtain hok | hstale | hforked := applyAccountLog_of_valid_answer hLog now (hrow addr) hvalid
      · simp [hok]
      · simp [hstale]
      · simp [hforked]

namespace Reference

/-- A log, posted while a shorter version of it is on file. -/
theorem submitAccountLog_exact_extending :
    AccountLogVerdict crates (Hex.encode accountLog23.key.val)
      (accountLog23.signature.val ++ accountLog23.payload)
      (tablesAfter crates [⟨0, postAccountLog accountLog2⟩])
      (submitAccountLog crates 1000000 (Hex.encode accountLog23.key.val)
        (accountLog23.signature.val ++ accountLog23.payload)
        (tablesAfter crates [⟨0, postAccountLog accountLog2⟩])) :=
  (submitAccountLog_exact log_laws [⟨0, postAccountLog accountLog2⟩] 1000000
    (Hex.encode accountLog23.key.val) (accountLog23.signature.val ++ accountLog23.payload)).1

end Reference

end ChatStore
