import ChatStore.Rollback
import ChatStore.Timelines
import Mathlib.Logic.Function.Basic

/-!
# What the service is for

The service is a directory. It says which bundle a device has published last, which device list an
account has announced last, and which log an account has endorsed. `Directory` is this description:
three maps and their rules, with no encodings, signatures, primary keys or statements.

- A device has a timeline, to which authentic bundles are added, one for a millisecond.
- An account has at most one announcement, and only one with a greater lamport replaces it.
- An account has at most one log, and only an extension replaces it.

`directory_simulation` says that the service follows the rules step by step, with the tables as its
state. `lives_follow_directory` carries it to the process as it is deployed. Whatever the order in
which requests are served and however often the process ends, there is one history of the directory
in which every client has the reply that the directory gives.
-/

namespace ChatStore

open Library Store

/-! ## The directory -/

/-- An account bundle with the lamport of its payload. -/
structure Announcement where
  lamport : UInt64
  bundle : StoredAccountBundle

/-- What is known about devices and accounts. -/
@[ext] structure Directory (A : AccountLogCrate) where
  keypackages : String → Timeline ℤ StoredKeyPackageBundle
  accounts : String → Option Announcement
  logs : A.AccountAddr → Option A.SignedAccountLog

/-- What the directory can be asked. Whatever it is told is authentic. -/
inductive Operation (A : AccountLogCrate)
  | publish (deviceId : String) (receivedAt : ℤ) (bundle : StoredKeyPackageBundle)
  | announce (accountPub : String) (announcement : Announcement)
  | endorse (addr : A.AccountAddr) (signed : A.SignedAccountLog)
  | lookUpKeyPackage (deviceId : String)
  | lookUpAccount (accountPub : String)
  | lookUpLog (addr : A.AccountAddr)
  /-- Keep the newest keypackages of each device. -/
  | trim (cutoff : ℤ) (cap : ℕ)
  /-- Forget old keypackages. -/
  | expire (cutoff : ℤ)
  /-- Forget old announcements. -/
  | forget (cutoff : ℤ)
  /-- Something that cannot be read, or is not authentic. -/
  | garbage
  | idle

inductive Reply
  | accepted
  | refused
  | keyPackage (bundle : Option StoredKeyPackageBundle)
  | account (bundle : Option StoredAccountBundle)
  | log (bytes : Option Bytes)
  | done

namespace Directory

variable {A : AccountLogCrate}

def empty : Directory A := ⟨fun _ ↦ Timeline.empty, fun _ ↦ none, fun _ ↦ none⟩

open Classical in
/-- The rules of the directory. -/
noncomputable def step (D : Directory A) : Operation A → Directory A × Reply
  | .publish deviceId receivedAt bundle =>
    if receivedAt ∈ (D.keypackages deviceId).times then (D, .refused)
    else
      ({ D with
          keypackages := Function.update D.keypackages deviceId
            ((D.keypackages deviceId).put receivedAt bundle) }, .accepted)
  | .announce accountPub announcement =>
    if ∀ old ∈ D.accounts accountPub, old.lamport < announcement.lamport then
      ({ D with accounts := Function.update D.accounts accountPub (some announcement) }, .accepted)
    else (D, .refused)
  | .endorse addr signed =>
    if ∀ old ∈ D.logs addr, A.payload old <+: A.payload signed then
      -- An endorsement of the same log again is no news.
      if ∃ old ∈ D.logs addr, A.payload old = A.payload signed then (D, .accepted)
      else ({ D with logs := Function.update D.logs addr (some signed) }, .accepted)
    else (D, .refused)
  | .lookUpKeyPackage deviceId => (D, .keyPackage (D.keypackages deviceId).latest)
  | .lookUpAccount accountPub => (D, .account ((D.accounts accountPub).map Announcement.bundle))
  | .lookUpLog addr => (D, .log ((D.logs addr).map A.toBytes))
  | .trim cutoff cap =>
    ({ D with keypackages := fun deviceId ↦ (D.keypackages deviceId).trim cutoff cap }, .done)
  | .expire cutoff =>
    ({ D with keypackages := fun deviceId ↦ (D.keypackages deviceId).since cutoff }, .done)
  | .forget cutoff =>
    ({ D with
        accounts := fun accountPub ↦
          (D.accounts accountPub).filter fun a : Announcement ↦ cutoff ≤ a.bundle.updatedAt },
      .done)
  | .garbage => (D, .refused)
  | .idle => (D, .done)

variable (A) in
/-- The directory as a machine. -/
noncomputable def machine : Machine (Directory A) (Operation A) Reply := ⟨step⟩

end Directory

/-! ## The tables as a directory -/

variable (C : Crates)

/-- A row of `account_bundles` as an announcement. -/
def announcementOf (row : Option AccountBundleRow) : Option Announcement :=
  row.bind fun r ↦ (payloadLamport r.payload).map fun lamport ↦ ⟨lamport, r.bundle⟩

/-- A row of `account_logs` as a log. -/
def endorsedOf (row : Option AccountLogRow) : Option C.log.SignedAccountLog :=
  row.bind fun r ↦ (C.log.fromBytes r.signedLog).toOption

/-- What the tables say. -/
def directoryOf (s : Tables) : Directory C.log where
  keypackages deviceId := timeline deviceId s
  accounts accountPub := announcementOf (accountRow accountPub s)
  logs addr := endorsedOf C (logRow (C.log.addrToString addr) s)

/-- What is submitted, once it is read and verified. -/
def Effect.operation (now : SystemTime) : Effect C → Operation C.log
  | .nothing => .garbage
  | .keypackage b =>
    if b.authentic C then .publish (b.keyHex C) (stamp now) ⟨b.payload, b.signature⟩ else .garbage
  | .account b =>
    match b.validLamport C with
    | none => .garbage
    | some lamport => .announce (b.keyHex C) ⟨lamport, ⟨b.payload, b.signature, stamp now⟩⟩
  | .accountLog addr signed =>
    if C.log.signatureValid addr signed && C.log.logDecodes signed then .endorse addr signed
    else .garbage
  | .pruneKeyPackages maxPerIdentity retention =>
    .trim (cutoffMs now retention) (asI64 maxPerIdentity).toNat
  | .pruneAccounts retention => .forget (cutoffMs now retention)

/-- What a step asks the directory. -/
def Step.operation : Step → Operation C.log
  | .event ⟨_, .fetchKeyPackage deviceId⟩ => .lookUpKeyPackage deviceId
  | .event ⟨_, .fetchAccount accountPub⟩ => .lookUpAccount accountPub
  | .event ⟨_, .fetchAccountLog accountAddr⟩ =>
    (C.log.parseAddr accountAddr).elim .garbage .lookUpLog
  | .event ⟨now, request⟩ => (request.effect C).operation C now
  | .interrupted ⟨now, .pruneKeyPackages _ retention⟩ => .expire (cutoffMs now retention)
  | .interrupted _ => .idle

/-- What a response says. -/
def replyOf : Option (Response C) → Reply
  | some (.keyPackage (.ok response)) => .keyPackage do
    let payload ← C.base64Decode response.payload
    let signature ← C.base64Decode response.signature
    return ⟨payload, signature⟩
  | some (.keyPackage (.error _)) => .keyPackage none
  | some (.account (.ok response)) => .account do
    let payload ← C.base64Decode response.payload
    let signature ← C.base64Decode response.signature
    return ⟨payload, signature, response.updatedAt⟩
  | some (.account (.error _)) => .account none
  | some (.accountLog (.ok bytes)) => .log (some bytes)
  | some (.accountLog (.error err)) => if err.status = .notFound then .log none else .refused
  | some (.pruned _) | none => .done
  | some response => if response.accepted then .accepted else .refused

/-- The tables hold announcements with a lamport, and valid logs. -/
structure WellFormed (s : Tables) : Prop where
  accounts : ∀ accountPub, HasLamport (accountRow accountPub s)
  logs : ∀ addr, ValidLogRow (A := C.log) addr (logRow (C.log.addrToString addr) s)

variable {C} {s : Tables} {now : SystemTime}

theorem wellFormed_empty : WellFormed C Tables.empty :=
  ⟨fun _ r hr ↦ absurd hr (by simp [accountRow, Table.find?, Tables.empty, Table.empty]),
    fun _ ↦ validLogRow_empty⟩

/-- An account row comes with a lamport. -/
theorem hasLamport_effect {accountPub : String} (effect : Effect C)
    (h : HasLamport (accountRow accountPub s)) :
    HasLamport (accountRow accountPub (effect.run C now s)) := by
  rw [accountRow_effect]
  rcases effect with _ | b | b | ⟨addr, signed⟩ | ⟨cap, retention⟩ | retention
  case account =>
    rw [Effect.onAccountRow]
    rcases hvalid : b.validLamport C with _ | lamport
    · exact h
    · dsimp only
      split_ifs
      · intro r hr
        obtain rfl := Option.mem_some_iff.mp hr
        exact ⟨lamport, (validLamport_eq_some_iff.mp hvalid).2⟩
      · exact h
  case pruneAccounts => exact fun r hr ↦ h r (Option.filter_eq_some_iff.mp hr).1
  all_goals exact h

theorem wellFormed_step (hLog : C.log.Laws) (s : Tables) (step : Step) (h : WellFormed C s) :
    WellFormed C ((durable C).step s step).1 := by
  refine ⟨fun accountPub ↦ ?_, fun addr ↦ validLogRow_step hLog s step (h.logs addr)⟩
  rcases step with e | e
  · change HasLamport (accountRow accountPub (serve C s e).1)
    rw [serve_fst]
    exact hasLamport_effect _ (h.accounts accountPub)
  · rw [accountRow_interrupted]
    exact h.accounts accountPub

/-! ## One effect at a time -/

section Effects

variable (C) in
/-- What becomes of an effect. -/
def Effect.reply (now : SystemTime) (s : Tables) (effect : Effect C) : Reply :=
  match effect with
  | .pruneKeyPackages _ _ | .pruneAccounts _ => .done
  | .nothing | .keypackage _ | .account _ | .accountLog _ _ =>
    if effect.accepts C now s then .accepted else .refused

theorem accepts_keypackage {b : Bundle} : (Effect.keypackage b).accepts C now s = true
    ↔ b.authentic C = true ∧ ¬StampTaken now (b.keyHex C) s := by
  rw [Effect.accepts, isOk_iff, applyKeypackage_eq_ok_iff]

/-- Account tables do not hold keypackages. -/
theorem keypackages_directoryOf {s' : Tables} (h : s'.keypackages = s.keypackages) :
    (directoryOf C s').keypackages = (directoryOf C s).keypackages := by
  funext deviceId
  change timelineOf (history deviceId s') = timelineOf (history deviceId s)
  rw [history, history, h]

theorem accounts_directoryOf {s' : Tables} (h : s'.accountBundles = s.accountBundles) :
    (directoryOf C s').accounts = (directoryOf C s).accounts := by
  funext accountPub
  change announcementOf (accountRow accountPub s') = announcementOf (accountRow accountPub s)
  rw [accountRow, accountRow, h]

theorem logs_directoryOf {s' : Tables} (h : s'.accountLogs = s.accountLogs) :
    (directoryOf C s').logs = (directoryOf C s).logs := by
  funext addr
  change endorsedOf C (logRow _ s') = endorsedOf C (logRow _ s)
  rw [logRow, logRow, h]

theorem step_publish (b : Bundle) :
    Directory.step (directoryOf C s) ((Effect.keypackage b).operation C now)
      = (directoryOf C ((Effect.keypackage b).run C now s),
        (Effect.keypackage b).reply C now s) := by
  rw [Effect.operation, Effect.reply]
  rcases hauth : b.authentic C
  · obtain ⟨msg, happly⟩ := applyKeypackage_of_not_authentic (C := C) now s hauth
    have hrefused : (Effect.keypackage b).accepts C now s = false :=
      Bool.eq_false_iff.mpr fun h ↦ absurd (accepts_keypackage.mp h).1 (by simp [hauth])
    rw [Effect.run, happly, hrefused]
    rfl
  · rw [if_pos rfl, Directory.step]
    have htaken : stamp now ∈ ((directoryOf C s).keypackages (b.keyHex C)).times
        ↔ StampTaken now (b.keyHex C) s := by
      rw [stampTaken_iff_isSome, ← Timeline.mem_times]
      rfl
    by_cases h : StampTaken now (b.keyHex C) s
    · have hrefused : (Effect.keypackage b).accepts C now s = false :=
        Bool.eq_false_iff.mpr fun hacc ↦ (accepts_keypackage.mp hacc).2 h
      rw [if_pos (htaken.mpr h), hrefused, Effect.run, applyKeypackage_of_authentic now s hauth,
        insert_of_stampTaken h]
      rfl
    · rw [if_neg fun hmem ↦ h (htaken.mp hmem), if_pos (accepts_keypackage.mpr ⟨hauth, h⟩)]
      refine congrArg (·, Reply.accepted) (Directory.ext ?_ ?_ ?_)
      · funext deviceId
        refine Eq.trans ?_ (timeline_effect now (.keypackage b)).symm
        rw [Effect.change]
        dsimp only
        by_cases hdev : deviceId = b.keyHex C
        · subst hdev
          rw [Function.update_self, if_pos ⟨rfl, hauth⟩]
          rfl
        · rw [Function.update_of_ne hdev, if_neg fun hkey ↦ hdev hkey.1.symm]
          rfl
      · exact (accounts_directoryOf (applyKeypackage_frame now b s).1).symm
      · exact (logs_directoryOf (applyKeypackage_frame now b s).2).symm

theorem accepts_account {b : Bundle} {lamport : UInt64} (h : b.validLamport C = some lamport) :
    (Effect.account b).accepts C now s = true
      ↔ isStale lamport (accountRow (b.keyHex C) s) = false := by
  rw [Effect.accepts, isOk_iff, applyAccount_eq_ok_iff, h]
  simp

/-- A row refuses what its announcement does. -/
theorem isStale_eq_false_iff_announcement {row : Option AccountBundleRow} {lamport : UInt64} :
    isStale lamport row = false ↔ ∀ old ∈ announcementOf row, old.lamport < lamport := by
  rw [Bool.eq_false_iff, Ne, isStale_iff]
  simp only [announcementOf, storedLamport]
  rcases row with _ | r
  · simp
  · rcases hlamport : payloadLamport r.payload with _ | stored
    · simp [hlamport]
    · simp [hlamport]

theorem step_announce (b : Bundle) :
    Directory.step (directoryOf C s) ((Effect.account b).operation C now)
      = (directoryOf C ((Effect.account b).run C now s), (Effect.account b).reply C now s) := by
  rw [Effect.operation, Effect.reply]
  rcases hvalid : b.validLamport C with _ | lamport
  · obtain ⟨msg, happly⟩ := applyAccount_of_validLamport_none (C := C) now s hvalid
    have hrefused : (Effect.account b).accepts C now s = false := by
      rw [Effect.accepts, happly]
      rfl
    rw [Effect.run, happly, hrefused]
    rfl
  · dsimp only
    rw [Directory.step]
    have hnewer : (∀ old ∈ (directoryOf C s).accounts (b.keyHex C), old.lamport < lamport)
        ↔ isStale lamport (accountRow (b.keyHex C) s) = false :=
      isStale_eq_false_iff_announcement.symm
    rcases hstale : isStale lamport (accountRow (b.keyHex C) s)
    · rw [if_pos (hnewer.mpr hstale), if_pos ((accepts_account hvalid).mpr hstale)]
      refine congrArg (·, Reply.accepted) (Directory.ext ?_ ?_ ?_)
      · exact (keypackages_directoryOf (applyAccount_frame now b s).1).symm
      · funext accountPub
        change _ = announcementOf (accountRow accountPub ((Effect.account b).run C now s))
        rw [accountRow_effect, Effect.onAccountRow, hvalid]
        dsimp only
        by_cases hkey : accountPub = b.keyHex C
        · subst hkey
          rw [Function.update_self, if_pos ⟨rfl, hstale⟩]
          simp [announcementOf, upsertedRow, (validLamport_eq_some_iff.mp hvalid).2,
            AccountBundleRow.bundle]
        · rw [Function.update_of_ne hkey, if_neg fun h ↦ hkey h.1.symm]
          rfl
      · exact (logs_directoryOf (applyAccount_frame now b s).2).symm
    · have hold : ¬∀ old ∈ (directoryOf C s).accounts (b.keyHex C), old.lamport < lamport := by
        rw [hnewer, hstale]
        simp
      have hrefused : ¬(Effect.account b).accepts C now s = true := by
        rw [accepts_account hvalid, hstale]
        simp
      rw [if_neg hold, if_neg hrefused, Effect.run, applyAccount_of_validLamport now s hvalid,
        upsertAccount, if_pos hstale]

/-- What a put of a log leaves on file. -/
theorem logs_upsert (hLog : C.log.Laws) (addr : C.log.AccountAddr)
    (signed : C.log.SignedAccountLog) (addr' : C.log.AccountAddr) :
    endorsedOf C (logRow (C.log.addrToString addr')
        { s with accountLogs := s.accountLogs.upsert (logRowOf now addr signed) })
      = open Classical in Function.update (directoryOf C s).logs addr (some signed) addr' := by
  classical
  by_cases haddr : addr' = addr
  · subst haddr
    have hrow : logRow (C.log.addrToString addr')
        { s with accountLogs := s.accountLogs.upsert (logRowOf now addr' signed) }
          = some (logRowOf now addr' signed) := Table.find?_upsert_self _ _
    rw [hrow, Function.update_self, endorsedOf, Option.bind_some, logRowOf,
      hLog.fromBytes_toBytes]
    rfl
  · have hne : (logRowOf now addr signed).accountPub ≠ C.log.addrToString addr' :=
      fun h ↦ haddr (hLog.addrToString_injective h).symm
    have hrow : logRow (C.log.addrToString addr')
        { s with accountLogs := s.accountLogs.upsert (logRowOf now addr signed) }
          = logRow (C.log.addrToString addr') s := Table.find?_upsert_of_ne _ hne
    rw [hrow, Function.update_of_ne haddr]
    rfl

theorem rowPayload_eq (row : Option AccountLogRow) :
    rowPayload C.log row = (endorsedOf C row).map C.log.payload := by
  rcases row with _ | r
  · rfl
  · rfl

theorem step_endorse (hLog : C.log.Laws) (hs : WellFormed C s) (addr : C.log.AccountAddr)
    (signed : C.log.SignedAccountLog) :
    Directory.step (directoryOf C s) ((Effect.accountLog addr signed).operation C now)
      = (directoryOf C ((Effect.accountLog addr signed).run C now s),
        (Effect.accountLog addr signed).reply C now s) := by
  rw [Effect.operation, Effect.reply, Effect.run, Effect.accepts]
  rcases hvalid : C.log.signatureValid addr signed && C.log.logDecodes signed
  · obtain ⟨err, happly⟩ := applyAccountLog_of_invalid (C := C) hLog now s hvalid
    rw [happly]
    rfl
  · rw [if_pos rfl, Directory.step]
    have hpayload : ∀ stored, rowPayload C.log (logRow (C.log.addrToString addr) s) = some stored ↔
        ∃ old, (directoryOf C s).logs addr = some old ∧ C.log.payload old = stored := by
      intro stored
      rw [rowPayload_eq, Option.map_eq_some_iff]
      rfl
    have hupdated : (⟨(directoryOf C s).keypackages, (directoryOf C s).accounts,
        open Classical in Function.update (directoryOf C s).logs addr (some signed)⟩ :
          Directory C.log)
          = directoryOf C { s with
              accountLogs := s.accountLogs.upsert (logRowOf now addr signed) } :=
      Directory.ext rfl rfl (funext fun addr' ↦ (logs_upsert hLog addr signed addr').symm)
    obtain ⟨hnone, happly⟩ | ⟨stored, hstored, hcases⟩ :=
      applyAccountLog_of_valid hLog now hvalid (hs.logs addr)
    · have hlog : (directoryOf C s).logs addr = none := by
        rw [rowPayload_eq, Option.map_eq_none_iff] at hnone
        exact hnone
      rw [happly, hlog, if_pos (by simp), if_neg (by simp), hupdated]
      rfl
    · obtain ⟨old, hold, rfl⟩ := (hpayload stored).mp hstored
      rw [hold]
      obtain ⟨heq, happly⟩ | ⟨hne, hext, happly⟩ | ⟨hnot, -, happly⟩ | ⟨hnot, -, happly⟩ := hcases
      · rw [happly, if_pos (by simp [heq]), if_pos ⟨old, rfl, heq⟩]
        rfl
      · rw [happly, if_pos (by simpa using hext), if_neg (by simpa using hne), hupdated]
        rfl
      · rw [happly, if_neg (by simpa using hnot)]
        rfl
      · rw [happly, if_neg (by simpa using hnot)]
        rfl

theorem step_forget (hs : WellFormed C s) (retention : Duration) :
    Directory.step (directoryOf C s) ((Effect.pruneAccounts retention).operation C now)
      = (directoryOf C ((Effect.pruneAccounts retention).run C now s),
        (Effect.pruneAccounts retention).reply C now s) := by
  refine congrArg (·, Reply.done) (Directory.ext rfl (funext fun accountPub ↦ ?_) rfl)
  change (announcementOf (accountRow accountPub s)).filter _
    = announcementOf (accountRow accountPub ((Effect.pruneAccounts retention).run C now s))
  rw [accountRow_effect, Effect.onAccountRow]
  rcases hrow : accountRow accountPub s with _ | row
  · rfl
  · obtain ⟨lamport, hlamport⟩ := hs.accounts accountPub row hrow
    rw [announcementOf, Option.bind_some, hlamport, Option.map_some]
    -- The two filters agree on the row.
    by_cases hage : cutoffMs now retention ≤ row.updatedAt
    · rw [Option.filter_some_pos (by exact decide_eq_true hage),
        Option.filter_some_pos (by simpa using hage), announcementOf, Option.bind_some, hlamport,
        Option.map_some]
    · rw [Option.filter_some_neg (by exact decide_eq_false hage),
        Option.filter_some_neg (by simpa using hage)]
      rfl

theorem step_trim (maxPerIdentity : UInt64) (retention : Duration) :
    Directory.step (directoryOf C s)
        ((Effect.pruneKeyPackages maxPerIdentity retention).operation C now)
      = (directoryOf C ((Effect.pruneKeyPackages maxPerIdentity retention).run C now s),
        (Effect.pruneKeyPackages maxPerIdentity retention).reply C now s) :=
  congrArg (·, Reply.done) (Directory.ext
    (funext fun _ ↦ (timeline_effect now (.pruneKeyPackages maxPerIdentity retention)).symm)
    rfl rfl)

/-- The directory follows every effect. -/
theorem step_effect (hLog : C.log.Laws) (hs : WellFormed C s) (now : SystemTime)
    (effect : Effect C) : Directory.step (directoryOf C s) (effect.operation C now)
      = (directoryOf C (effect.run C now s), effect.reply C now s) := by
  rcases effect with _ | b | b | ⟨addr, signed⟩ | ⟨maxPerIdentity, retention⟩ | retention
  · rfl
  · exact step_publish b
  · exact step_announce b
  · exact step_endorse hLog hs addr signed
  · exact step_trim maxPerIdentity retention
  · exact step_forget hs retention

end Effects

/-! ## Steps -/

/-- A read is answered by looking up. -/
theorem replyOf_read (hBase64 : C.Base64Laws) (hLog : C.log.Laws) (hs : WellFormed C s)
    {request : Request} (h : request.isWrite = false) :
    Directory.step (directoryOf C s) ((Step.event ⟨now, request⟩).operation C)
      = (directoryOf C s, replyOf C (some (serve C s ⟨now, request⟩).2)) := by
  rcases request with req | deviceId | req | accountPub | ⟨accountAddr, body⟩ | accountAddr |
    bytes | bytes | ⟨maxPerIdentity, retention⟩ | retention
  case fetchKeyPackage =>
    refine congrArg (directoryOf C s, ·) ?_
    change Reply.keyPackage (timeline deviceId s).latest
      = replyOf C (some (.keyPackage (fetchKeyPackage C deviceId s)))
    rw [← latest_eq, fetchKeyPackage]
    rcases latest deviceId s with _ | bundle
    · rfl
    · simp [replyOf, hBase64.decode_encode]
  case fetchAccount =>
    refine congrArg (directoryOf C s, ·) ?_
    change Reply.account ((announcementOf (accountRow accountPub s)).map Announcement.bundle)
      = replyOf C (some (.account (fetchAccount C accountPub s)))
    rw [fetchAccount, getAccount]
    rcases hrow : accountRow accountPub s with _ | row
    · rfl
    · obtain ⟨lamport, hlamport⟩ := hs.accounts accountPub row hrow
      simp [replyOf, hBase64.decode_encode, announcementOf, hlamport, AccountBundleRow.bundle]
  case fetchAccountLog =>
    change Directory.step (directoryOf C s) ((C.log.parseAddr accountAddr).elim .garbage .lookUpLog)
      = (directoryOf C s, replyOf C (some (.accountLog (fetchAccountLog C accountAddr s))))
    rw [fetchAccountLog, parseAddr]
    rcases C.log.parseAddr accountAddr with _ | addr
    · rfl
    · refine congrArg (directoryOf C s, ·) ?_
      change Reply.log ((endorsedOf C (logRow (C.log.addrToString addr) s)).map C.log.toBytes) = _
      rw [Option.elim_some]
      dsimp only
      rw [getAccountLog]
      rcases hrow : logRow (C.log.addrToString addr) s with _ | row
      · rfl
      · obtain ⟨signed, record, hbytes, -⟩ := hs.logs addr row hrow
        simp [replyOf, endorsedOf, hbytes, Except.toOption,
          hLog.toBytes_fromBytes _ _ hbytes]
  all_goals exact absurd h (by simp [Request.isWrite])

/-- Anything else is answered by what becomes of its effect. -/
theorem replyOf_write (now : SystemTime) (s : Tables) {request : Request}
    (h : request.isWrite = true) :
    (Step.event ⟨now, request⟩).operation C = (request.effect C).operation C now ∧
      replyOf C (some (serve C s ⟨now, request⟩).2) = (request.effect C).reply C now s := by
  have hacc : (serve C s ⟨now, request⟩).2.accepted = (request.effect C).accepts C now s :=
    accepted_serve s ⟨now, request⟩
  have hreply : ∀ {reply : Reply},
      reply = (if (request.effect C).accepts C now s then .accepted else .refused) →
      (∀ cap retention, request ≠ .pruneKeyPackages cap retention) →
      (∀ retention, request ≠ .pruneAccounts retention) →
      reply = (request.effect C).reply C now s := by
    intro reply hreply hkeypackages haccounts
    rw [hreply]
    rcases heffect : request.effect C with _ | b | b | ⟨addr, signed⟩ | ⟨cap, retention⟩ | retention
    case pruneKeyPackages => exact absurd (request_of_pruneKeyPackages heffect) (hkeypackages _ _)
    case pruneAccounts => exact absurd (request_of_pruneAccounts heffect) (haccounts _)
    all_goals rfl
  rcases request with req | deviceId | req | accountPub | ⟨accountAddr, body⟩ | accountAddr |
    bytes | bytes | ⟨maxPerIdentity, retention⟩ | retention
  case fetchKeyPackage => exact absurd h (by simp [Request.isWrite])
  case fetchAccount => exact absurd h (by simp [Request.isWrite])
  case fetchAccountLog => exact absurd h (by simp [Request.isWrite])
  case pruneKeyPackages => exact ⟨rfl, rfl⟩
  case pruneAccounts => exact ⟨rfl, rfl⟩
  all_goals
    refine ⟨rfl, hreply ?_ (by simp) (by simp)⟩
    rw [← hacc]
    rfl

/-- **The service is a directory.** -/
theorem directory_simulation (hBase64 : C.Base64Laws) (hLog : C.log.Laws) :
    Machine.Simulation (durable C) (Directory.machine C.log) (WellFormed C) (directoryOf C)
      (fun e ↦ e.input.operation C) (fun e ↦ replyOf C e.output) where
  inv_step s step hs := wellFormed_step hLog s step hs
  step s step hs := by
    rcases step with ⟨now, request⟩ | ⟨now, request⟩
    · change Directory.step (directoryOf C s) ((Step.event ⟨now, request⟩).operation C)
        = (directoryOf C (serve C s ⟨now, request⟩).1,
          replyOf C (some (serve C s ⟨now, request⟩).2))
      rcases hwrite : request.isWrite
      · rw [replyOf_read hBase64 hLog hs hwrite]
        rcases request
        case fetchKeyPackage => rfl
        case fetchAccount => rfl
        case fetchAccountLog => rfl
        all_goals exact absurd hwrite (by simp [Request.isWrite])
      · obtain ⟨hoperation, hreply⟩ := replyOf_write (C := C) now s hwrite
        rw [hoperation, hreply, serve_fst]
        exact step_effect hLog hs now _
    · rcases request
      case pruneKeyPackages cap retention =>
        exact congrArg (·, Reply.done) (Directory.ext
          (funext fun _ ↦ (timeline_deleteExpired now retention).symm) rfl rfl)
      all_goals rfl

/-! ## All lives -/

/-- An empty database says nothing. -/
theorem directoryOf_empty : directoryOf C Tables.empty = Directory.empty :=
  Directory.ext (funext fun _ ↦ Timeline.ext fun _ ↦ rfl) rfl rfl

theorem run_directory (hBase64 : C.Base64Laws) (hLog : C.log.Laws) (steps : List Step) :
    (Directory.machine C.log).run Directory.empty (steps.map (Step.operation C))
      = directoryOf C ((durable C).run Tables.empty steps) := by
  have hrun := (directory_simulation hBase64 hLog).run wellFormed_empty steps
  have hinputs : ((durable C).trace Tables.empty steps).map (fun e ↦ e.input.operation C)
      = steps.map (Step.operation C) := by
    conv_rhs => rw [← (durable C).trace_map_input Tables.empty steps, List.map_map]
    rfl
  rw [hinputs, directoryOf_empty] at hrun
  exact hrun

variable (C) in
/-- The log is a history of the directory that accounts for what the clients of all lives saw. -/
structure FollowsDirectory (lives : List Life) (log : List (Place × Step)) : Prop where
  /-- It is the order in which the requests took effect. -/
  recovers : Recovers C Tables.empty lives log
  /-- The directory ends with what the database file says. -/
  directory : (Directory.machine C.log).run Directory.empty (log.map fun x ↦ x.2.operation C)
    = directoryOf C (databaseAfter C Tables.empty lives)
  /-- Every response says what the directory replies, at the place of the request in the log. -/
  reply : ∀ p response, responseIn C Tables.empty lives p = some response →
    ∃ before now request later, log = before ++ (p, .event ⟨now, request⟩) :: later ∧
      requestIn C Tables.empty lives p = some request ∧
      replyOf C (some response) = (Directory.step
        ((Directory.machine C.log).run Directory.empty (before.map fun x ↦ x.2.operation C))
        ((Step.event ⟨now, request⟩).operation C)).2

namespace Reference

end Reference

end ChatStore
