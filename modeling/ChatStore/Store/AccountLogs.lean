import ChatStore.Store.Tables

/-!
# Account logs: one row per account, the log only grows

`putAccountLog` and `getAccountLog` of the store. The rule is the crate's: the stored artifact is
parsed and verified again, and `AccountRecord::update` decides.
-/

namespace ChatStore

open Library

namespace Store

variable {A : AccountLogCrate}

/-! ## The operations -/

/-- The row of an account. -/
def logRow (accountPub : String) (s : Tables) : Option AccountLogRow :=
  s.accountLogs.find? accountPub

/-- The decision of `put_account_log`, made between its `SELECT` and its write. -/
def logUpdate (candidate : A.AccountRecord) (stored : Option AccountLogRow) :
    Except (StoreError A) (AccountRecordUpdate A.AccountRecord) :=
  match stored with
  | none => .ok ⟨.updated, candidate⟩
  | some row =>
    match A.fromBytes row.signedLog with
    | .error err => .error (.storedLogMalformed err)
    | .ok signed =>
      match A.newRecord (A.recordAddr candidate) signed with
      | .error err => .error (.storedLogInvalid err)
      | .ok record => .ok (A.update record (A.recordSignedLog candidate))

/-- The key a record is stored under. -/
def recordKey (record : A.AccountRecord) : String := A.addrToString (A.recordAddr record)

/-- The row that stores `record` under the key of `candidate`. -/
def putRow (now : SystemTime) (candidate record : A.AccountRecord) : AccountLogRow :=
  ⟨recordKey candidate, stamp now, A.toBytes (A.recordSignedLog record)⟩

/-- `Store::put_account_log`. -/
def putAccountLog (now : SystemTime) (candidate : A.AccountRecord) (s : Tables) :
    Tables × Except (StoreError A) Outcome :=
  match logUpdate candidate (logRow (recordKey candidate) s) with
  | .error err => (s, .error err)
  | .ok update =>
    if update.outcome ≠ .updated then (s, .ok update.outcome)
    else
      ({ s with accountLogs := s.accountLogs.upsert (putRow now candidate update.record) },
        .ok .updated)

/-- `Store::get_account_log`. -/
def getAccountLog (addr : A.AccountAddr) (s : Tables) : Option Bytes :=
  (logRow (A.addrToString addr) s).map AccountLogRow.signedLog

/-! ## Effects -/

variable {now : SystemTime} {candidate : A.AccountRecord} {s : Tables}

/-- What a put can do: fail, leave the table with the outcome as its answer, or store the record
the update produced. -/
theorem putAccountLog_cases (now : SystemTime) (candidate : A.AccountRecord) (s : Tables) :
    (∃ err, logUpdate candidate (logRow (recordKey candidate) s) = .error err ∧
      putAccountLog now candidate s = (s, .error err)) ∨
    (∃ update, logUpdate candidate (logRow (recordKey candidate) s) = .ok update ∧
      update.outcome ≠ .updated ∧ putAccountLog now candidate s = (s, .ok update.outcome)) ∨
    (∃ update, logUpdate candidate (logRow (recordKey candidate) s) = .ok update ∧
      update.outcome = .updated ∧ putAccountLog now candidate s
        = ({ s with accountLogs := s.accountLogs.upsert (putRow now candidate update.record) },
            .ok .updated)) := by
  rw [putAccountLog]
  cases hupd : logUpdate candidate (logRow (recordKey candidate) s) with
  | error err => exact Or.inl ⟨err, rfl, rfl⟩
  | ok update =>
    by_cases hout : update.outcome = .updated
    · exact Or.inr (Or.inr ⟨update, rfl, hout, if_neg fun hne ↦ hne hout⟩)
    · exact Or.inr (Or.inl ⟨update, rfl, hout, if_pos hout⟩)

theorem putAccountLog_frame (now : SystemTime) (candidate : A.AccountRecord) (s : Tables) :
    (putAccountLog now candidate s).1.keypackages = s.keypackages ∧
      (putAccountLog now candidate s).1.accountBundles = s.accountBundles := by
  obtain ⟨err, -, hput⟩ | ⟨update, -, -, hput⟩ | ⟨update, -, -, hput⟩ :=
    putAccountLog_cases now candidate s <;> rw [hput] <;> exact ⟨rfl, rfl⟩

/-- A put under another key leaves an account's row alone. -/
theorem logRow_putAccountLog_of_ne {accountPub : String} (h : recordKey candidate ≠ accountPub) :
    logRow accountPub (putAccountLog now candidate s).1 = logRow accountPub s := by
  obtain ⟨err, -, hput⟩ | ⟨update, -, -, hput⟩ | ⟨update, -, -, hput⟩ :=
    putAccountLog_cases now candidate s <;> rw [hput]
  exact Table.find?_upsert_of_ne s.accountLogs h

/-! ## Updates under the laws of the crate -/

variable {addr : A.AccountAddr} {signed : A.SignedAccountLog}

/-- An update replaces the record on file by the candidate itself. -/
theorem logUpdate_record (hLog : A.Laws) (hnew : A.newRecord addr signed = .ok candidate)
    {stored : Option AccountLogRow} {update : AccountRecordUpdate A.AccountRecord}
    (hupd : logUpdate candidate stored = .ok update) (hout : update.outcome = .updated) :
    update.record = candidate := by
  obtain ⟨haddr, hsigned⟩ := hLog.newRecord_parts addr signed candidate hnew
  cases stored with
  | none =>
    rw [logUpdate] at hupd
    cases hupd
    rfl
  | some row =>
    rw [logUpdate] at hupd
    cases hbytes : A.fromBytes row.signedLog with
    | error err => rw [hbytes] at hupd; cases hupd
    | ok old =>
      cases hrecord : A.newRecord (A.recordAddr candidate) old with
      | error err => simp only [hbytes, hrecord] at hupd; cases hupd
      | ok record =>
        simp only [hbytes, hrecord] at hupd
        cases hupd
        rw [haddr] at hrecord
        rw [hsigned] at hout ⊢
        exact hLog.update_record addr old signed record candidate hrecord hnew hout

/-- A row holds a log that is valid for the account `addr`. -/
def ValidLogRow (addr : A.AccountAddr) (row : Option AccountLogRow) : Prop :=
  ∀ r ∈ row, ∃ old record, A.fromBytes r.signedLog = .ok old ∧ A.newRecord addr old = .ok record

/-- The payload of the log on file. -/
def rowPayload (A : AccountLogCrate) (row : Option AccountLogRow) : Option Bytes :=
  row.bind fun r ↦ (A.fromBytes r.signedLog).toOption.map A.payload

/-- The row that stores a log as it was submitted. -/
def logRowOf (now : SystemTime) (addr : A.AccountAddr) (signed : A.SignedAccountLog) :
    AccountLogRow :=
  ⟨A.addrToString addr, stamp now, A.toBytes signed⟩

/-- What a put of a valid log does, by how its payload relates to the one on file. -/
theorem putAccountLog_of_record (hLog : A.Laws) (hnew : A.newRecord addr signed = .ok candidate)
    (now : SystemTime) (hrow : ValidLogRow addr (logRow (A.addrToString addr) s)) :
    (rowPayload A (logRow (A.addrToString addr) s) = none ∧
      logRow (A.addrToString addr) s = none ∧ putAccountLog now candidate s
        = ({ s with accountLogs := s.accountLogs.upsert (logRowOf now addr signed) },
          .ok .updated)) ∨
    ∃ stored, rowPayload A (logRow (A.addrToString addr) s) = some stored ∧
      putAccountLog now candidate s = if logOutcome stored (A.payload signed) = .updated then
          ({ s with accountLogs := s.accountLogs.upsert (logRowOf now addr signed) }, .ok .updated)
        else (s, .ok (logOutcome stored (A.payload signed))) := by
  obtain ⟨haddr, hsigned⟩ := hLog.newRecord_parts addr signed candidate hnew
  have hkey : recordKey candidate = A.addrToString addr := by rw [recordKey, haddr]
  have hput : putRow now candidate candidate = logRowOf now addr signed := by
    rw [putRow, hkey, hsigned, logRowOf]
  rw [putAccountLog, hkey]
  cases hstored : logRow (A.addrToString addr) s with
  | none =>
    refine Or.inl ⟨rfl, rfl, ?_⟩
    simp only [logUpdate, ne_eq, not_true_eq_false, if_false, hput]
  | some r =>
    obtain ⟨old, record, hbytes, hrecord⟩ := hrow r hstored
    refine Or.inr ⟨A.payload old, by simp [rowPayload, hbytes, Except.toOption], ?_⟩
    have hupd : logUpdate candidate (some r) = .ok (A.update record signed) := by
      simp only [logUpdate, hbytes, haddr, hrecord, hsigned]
    have hout := hLog.update_outcome addr old signed record candidate hrecord hnew
    rw [hupd]
    dsimp only
    by_cases hnewer : (A.update record signed).outcome = .updated
    · rw [if_neg fun hne ↦ hne hnewer, if_pos (hout ▸ hnewer),
        hLog.update_record addr old signed record candidate hrecord hnew hnewer, hput]
    · rw [if_pos hnewer, if_neg (hout ▸ hnewer), hout]

end Store

end ChatStore
