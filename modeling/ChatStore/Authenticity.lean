import ChatStore.Reference
import ChatStore.Views

/-!
# Everything stored and served is authentic

Whatever arrives on the wires, every row of the three tables was signed under the key it is filed
under, and so everything a read hands out verifies under the key it was asked for.
-/

namespace ChatStore

open Library Store

variable (C : Crates)

/-- A row's payload is signed under its key, which is written in lowercase hexadecimal. -/
structure SignedRow (key : String) (payload signature : Bytes) : Prop where
  lower : ∀ c ∈ key.toList, c ∈ "0123456789abcdef".toList
  signed : ∃ b : Bundle, key = b.keyHex C ∧ payload = b.payload ∧ signature = b.signature.val ∧
    C.isVerifyingKey b.key = true ∧ C.verifyStrict b.key b.payload b.signature = true

/-- A row holds an account log that verifies under the address it is filed under. -/
def SignedLogRow (accountPub : String) (signedLog : Bytes) : Prop :=
  ∃ addr signed record, accountPub = C.log.addrToString addr ∧
    C.log.fromBytes signedLog = .ok signed ∧ C.log.newRecord addr signed = .ok record

/-- Every row of the database is authentic. -/
structure Authentic (s : Tables) : Prop where
  keypackages : ∀ r ∈ s.keypackages.rows, SignedRow C r.deviceId r.payload r.signature
  accountBundles : ∀ r ∈ s.accountBundles.rows, SignedRow C r.accountPub r.payload r.signature ∧
    ∃ lamport, payloadLamport r.payload = some lamport
  accountLogs : ∀ r ∈ s.accountLogs.rows, SignedLogRow C r.accountPub r.signedLog

variable {C} {s : Tables} {now : SystemTime}

theorem Authentic.empty : Authentic C Tables.empty where
  keypackages r hr := by cases hr
  accountBundles r hr := by cases hr
  accountLogs r hr := by cases hr

/-! ## Every effect keeps the rows authentic -/

theorem signedRow_of_authentic (hHex : C.HexLaws) {b : Bundle} (h : b.authentic C = true) :
    SignedRow C (b.keyHex C) b.payload b.signature := by
  rw [Bundle.authentic, Bool.and_eq_true] at h
  exact ⟨hHex.encode_lower b.key, b, rfl, rfl, rfl, h.1, h.2⟩

/-- What is written of an account log is the candidate, under its own address. -/
theorem signedLogRow_effect (hLog : C.log.Laws) (now : SystemTime) (effect : Effect C)
    (h : ∀ r ∈ s.accountLogs.rows, SignedLogRow C r.accountPub r.signedLog) :
    ∀ r ∈ (effect.run C now s).accountLogs.rows, SignedLogRow C r.accountPub r.signedLog := by
  intro r hr
  rcases mem_accountLogs_effect hr with hr | ⟨addr, signed, candidate, update, -, hnew, hupd, hout,
    rfl⟩
  · exact h r hr
  · obtain ⟨haddr, hsigned⟩ := hLog.newRecord_parts addr signed candidate hnew
    refine ⟨addr, signed, candidate, ?_, ?_, hnew⟩
    · rw [putRow, recordKey, haddr]
    · rw [putRow, logUpdate_record hLog hnew hupd hout, hsigned]
      exact hLog.fromBytes_toBytes signed

/-- What is written of an account bundle has a lamport. -/
theorem exists_lamport_effect (now : SystemTime) (effect : Effect C)
    (h : ∀ r ∈ s.accountBundles.rows, ∃ lamport, payloadLamport r.payload = some lamport) :
    ∀ r ∈ (effect.run C now s).accountBundles.rows,
      ∃ lamport, payloadLamport r.payload = some lamport := by
  intro r hr
  rcases mem_accountBundles_effect hr with hr | ⟨b, lamport, -, hvalid, rfl⟩
  · exact h r hr
  · exact ⟨lamport, (validLamport_eq_some_iff.mp hvalid).2⟩

theorem Authentic.effect (hHex : C.HexLaws) (hLog : C.log.Laws) (h : Authentic C s)
    (now : SystemTime) (effect : Effect C) : Authentic C (effect.run C now s) := by
  have hlamports := exists_lamport_effect now effect fun r hr ↦ (h.accountBundles r hr).2
  refine ⟨fun r hr ↦ ?_, fun r hr ↦ ⟨?_, hlamports r hr⟩,
    signedLogRow_effect hLog now effect h.accountLogs⟩
  · rcases mem_keypackages_effect hr with hr | ⟨b, -, hauth, rfl⟩
    · exact h.keypackages r hr
    · exact signedRow_of_authentic hHex hauth
  · rcases mem_accountBundles_effect hr with hr | ⟨b, lamport, -, hvalid, rfl⟩
    · exact (h.accountBundles r hr).1
    · exact signedRow_of_authentic hHex (validLamport_eq_some_iff.mp hvalid).1

/-- Every account log on file verifies under its address. -/
theorem signedLogRow_after (hLog : C.log.Laws) (events : List Event) :
    ∀ r ∈ (tablesAfter C events).accountLogs.rows, SignedLogRow C r.accountPub r.signedLog := by
  refine (service C).run_invariant
    (P := fun s ↦ ∀ r ∈ s.accountLogs.rows, SignedLogRow C r.accountPub r.signedLog)
    (fun s e hs ↦ ?_) (fun _ hr ↦ absurd hr List.not_mem_nil) events
  change ∀ r ∈ (serve C s e).1.accountLogs.rows, SignedLogRow C r.accountPub r.signedLog
  rw [serve_fst]
  exact signedLogRow_effect hLog e.now (e.request.effect C) hs

/-- Every account bundle on file has a lamport. -/
theorem exists_lamport_after (events : List Event) :
    ∀ r ∈ (tablesAfter C events).accountBundles.rows,
      ∃ lamport, payloadLamport r.payload = some lamport := by
  refine (service C).run_invariant
    (P := fun s ↦ ∀ r ∈ s.accountBundles.rows, ∃ lamport, payloadLamport r.payload = some lamport)
    (fun s e hs ↦ ?_) (fun _ hr ↦ absurd hr List.not_mem_nil) events
  change ∀ r ∈ (serve C s e).1.accountBundles.rows, ∃ lamport,
    payloadLamport r.payload = some lamport
  rw [serve_fst]
  exact exists_lamport_effect e.now (e.request.effect C) hs

/-- Every reachable database is authentic. -/
theorem Authentic.after (hHex : C.HexLaws) (hLog : C.log.Laws) (events : List Event) :
    Authentic C (tablesAfter C events) := by
  refine (service C).run_invariant (fun s e hs ↦ ?_) Authentic.empty events
  change Authentic C (serve C s e).1
  rw [serve_fst]
  exact hs.effect hHex hLog e.now (e.request.effect C)

/-! ## What is served -/

variable (C) in
/-- A payload and a signature in base64 verify under the key that a path names. -/
def Verifies (path payloadB64 signatureB64 : String) : Prop :=
  ∃ b : Bundle, C.hexDecode path = some b.key.val ∧ C.base64Decode payloadB64 = some b.payload ∧
    C.base64Decode signatureB64 = some b.signature.val ∧ C.isVerifyingKey b.key = true ∧
    C.verifyStrict b.key b.payload b.signature = true

theorem SignedRow.verifies (hHex : C.HexLaws) (hB64 : C.Base64Laws) {key : String}
    {payload signature : Bytes} (h : SignedRow C key payload signature) :
    Verifies C key (C.base64Encode payload) (C.base64Encode signature) := by
  obtain ⟨b, rfl, rfl, rfl, hkey, hsig⟩ := h.signed
  exact ⟨b, hHex.decode_encode _, hB64.decode_encode _, hB64.decode_encode _, hkey, hsig⟩

theorem Authentic.fetchKeyPackage (hHex : C.HexLaws) (hB64 : C.Base64Laws) (h : Authentic C s)
    {deviceId : String} {resp : FetchKeyPackageResponse}
    (hresp : ChatStore.fetchKeyPackage C deviceId s = .ok resp) :
    Verifies C deviceId resp.payload resp.signature := by
  rw [ChatStore.fetchKeyPackage, latest] at hresp
  cases hnew : newestRow deviceId s with
  | none => rw [hnew] at hresp; cases hresp
  | some r =>
    rw [hnew] at hresp
    cases hresp
    obtain ⟨hmem, rfl⟩ := mem_history.mp (newest?_mem hnew)
    exact (h.keypackages r hmem).verifies hHex hB64

theorem Authentic.fetchAccount (hHex : C.HexLaws) (hB64 : C.Base64Laws) (h : Authentic C s)
    {accountPub : String} {resp : FetchAccountResponse}
    (hresp : ChatStore.fetchAccount C accountPub s = .ok resp) :
    Verifies C accountPub resp.payload resp.signature := by
  rw [ChatStore.fetchAccount, getAccount] at hresp
  cases hrow : accountRow accountPub s with
  | none => rw [hrow] at hresp; cases hresp
  | some r =>
    rw [hrow] at hresp
    cases hresp
    obtain ⟨hmem, rfl⟩ := Table.find?_eq_some_iff.mp hrow
    exact (h.accountBundles r hmem).1.verifies hHex hB64

theorem Authentic.fetchAccountLog (hLog : C.log.Laws) (h : Authentic C s) {accountAddr : String}
    {bytes : Bytes} (hresp : ChatStore.fetchAccountLog C accountAddr s = .ok bytes) :
    ∃ addr signed record, C.log.parseAddr accountAddr = some addr ∧
      C.log.fromBytes bytes = .ok signed ∧ C.log.newRecord addr signed = .ok record := by
  rw [ChatStore.fetchAccountLog, parseAddr] at hresp
  cases hparse : C.log.parseAddr accountAddr with
  | none => rw [hparse] at hresp; cases hresp
  | some addr =>
    simp only [hparse, Option.elim_some, getAccountLog] at hresp
    cases hrow : logRow (C.log.addrToString addr) s with
    | none => rw [hrow] at hresp; cases hresp
    | some r =>
      rw [hrow] at hresp
      cases hresp
      obtain ⟨hmem, hkey⟩ := Table.find?_eq_some_iff.mp hrow
      obtain ⟨addr', signed, record, haddr', hbytes, hnew⟩ := h.accountLogs r hmem
      -- The row's address is the one that was asked for.
      obtain rfl : addr' = addr := hLog.addrToString_injective (haddr'.symm.trans hkey)
      exact ⟨addr', signed, record, rfl, hbytes, hnew⟩

/-- **Everything stored and served is authentic**, after every run. -/
theorem everything_authentic (hHex : C.HexLaws) (hB64 : C.Base64Laws) (hLog : C.log.Laws)
    (events : List Event) :
    Authentic C (tablesAfter C events) ∧
    (∀ deviceId resp, ChatStore.fetchKeyPackage C deviceId (tablesAfter C events) = .ok resp →
      Verifies C deviceId resp.payload resp.signature) ∧
    (∀ accountPub resp, ChatStore.fetchAccount C accountPub (tablesAfter C events) = .ok resp →
      Verifies C accountPub resp.payload resp.signature) ∧
    ∀ accountAddr bytes,
      ChatStore.fetchAccountLog C accountAddr (tablesAfter C events) = .ok bytes →
      ∃ addr signed record, C.log.parseAddr accountAddr = some addr ∧
        C.log.fromBytes bytes = .ok signed ∧ C.log.newRecord addr signed = .ok record := by
  have h := Authentic.after hHex hLog events
  exact ⟨h, fun _ _ ↦ h.fetchKeyPackage hHex hB64, fun _ _ ↦ h.fetchAccount hHex hB64,
    fun _ _ ↦ h.fetchAccountLog hLog⟩

namespace Reference

/-- A keypackage, an account bundle, an account log, and a log under the wrong key. -/
def publishing : List Event :=
  [⟨0, deliverKeyPackage keyPackageA⟩, ⟨1000000, deliverAccount accountBundle5⟩,
    ⟨2000000, postAccountLog accountLog2⟩,
    ⟨3000000, postAccountLog { accountLog3 with key := otherKey }⟩]

theorem everything_authentic_publishing : Authentic crates (tablesAfter crates publishing) :=
  (everything_authentic hexLaws base64Laws log_laws publishing).1

end Reference

end ChatStore
