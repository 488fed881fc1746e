import ChatStore.Delivery
import ChatStore.Library.Machine

/-!
# The service as a machine

An event is a request, a delivered message or a prune, together with the clock reading the server
takes while handling it. Handling one event at a time is what the store's write lock leaves of
concurrency; that it does is the subject of `ChatStore.Concurrent`.

## What an event can do to the tables

`Request.effect` decodes an event down to one of five effects, and `serve_fst` says that the effect
is all that reaches the tables. Every statement about runs is a case analysis over it.
-/

namespace ChatStore

open Library

/-! ## Events and answers -/

inductive Request
  | submitKeyPackage (req : SubmitKeyPackageRequest)
  | fetchKeyPackage (deviceId : String)
  | submitAccount (req : SubmitAccountRequest)
  | fetchAccount (accountPub : String)
  | submitAccountLog (accountAddr : String) (body : Bytes)
  | fetchAccountLog (accountAddr : String)
  | ingestKeypackage (bytes : Bytes)
  | ingestAccount (bytes : Bytes)
  | pruneKeyPackages (maxPerIdentity : UInt64) (retention : Duration)
  | pruneAccounts (retention : Duration)
  deriving DecidableEq

/-- A request that is not a read. -/
def Request.isWrite : Request → Bool
  | .fetchKeyPackage _ | .fetchAccount _ | .fetchAccountLog _ => false
  | _ => true

/-- A request and the clock reading it is handled at. -/
structure Event where
  now : SystemTime
  request : Request
  deriving DecidableEq

variable (C : Crates)

inductive Response
  | submitted (result : Except ApiError StatusCode)
  | keyPackage (result : Except ApiError FetchKeyPackageResponse)
  | account (result : Except ApiError FetchAccountResponse)
  | accountLog (result : Except ApiError Bytes)
  | ingested (log : IngestLog C.log)
  | pruned (result : Except (StoreError C.log) Unit)

/-- Handle one event. -/
def serve (s : Tables) (e : Event) : Tables × Response C :=
  match e.request with
  | .submitKeyPackage req =>
    let (s', result) := submitKeyPackage C e.now req s
    (s', .submitted result)
  | .fetchKeyPackage deviceId => (s, .keyPackage (fetchKeyPackage C deviceId s))
  | .submitAccount req =>
    let (s', result) := submitAccount C e.now req s
    (s', .submitted result)
  | .fetchAccount accountPub => (s, .account (fetchAccount C accountPub s))
  | .submitAccountLog accountAddr body =>
    let (s', result) := submitAccountLog C e.now accountAddr body s
    (s', .submitted result)
  | .fetchAccountLog accountAddr => (s, .accountLog (fetchAccountLog C accountAddr s))
  | .ingestKeypackage bytes =>
    let (s', log) := ingestKeypackage C e.now bytes s
    (s', .ingested log)
  | .ingestAccount bytes =>
    let (s', log) := ingestAccount C e.now bytes s
    (s', .ingested log)
  | .pruneKeyPackages maxPerIdentity retention =>
    let (s', result) := Store.pruneKeyPackages e.now maxPerIdentity retention s
    (s', .pruned result)
  | .pruneAccounts retention =>
    let (s', result) := Store.pruneAccounts e.now retention s
    (s', .pruned result)

/-- The service, answering events one at a time. -/
def service : Machine Tables Event (Response C) := ⟨serve C⟩

/-- The database after a run from an empty one. -/
def tablesAfter (events : List Event) : Tables := (service C).run Tables.empty events

variable {C}

theorem tablesAfter_concat (events : List Event) (e : Event) :
    tablesAfter C (events ++ [e]) = (serve C (tablesAfter C events) e).1 :=
  (service C).run_concat Tables.empty events e

/-- A submission that ended in success. -/
def Response.accepted : Response C → Bool
  | .submitted (.ok _) | .ingested .stored => true
  | _ => false

/-! ## Effects -/

variable (C)

/-- What is left of a request once its wire is decoded. -/
inductive Effect
  | nothing
  | keypackage (b : Bundle)
  | account (b : Bundle)
  | accountLog (addr : C.log.AccountAddr) (signed : C.log.SignedAccountLog)
  | pruneKeyPackages (maxPerIdentity : UInt64) (retention : Duration)
  | pruneAccounts (retention : Duration)

/-- The effect of a submission whose wire decoded to `decoded`. -/
def submissionEffect (decoded : Except (BundleError C.log) Bundle) (effect : Bundle → Effect C) :
    Effect C :=
  match decoded with
  | .error _ => .nothing
  | .ok b => effect b

def Request.effect : Request → Effect C
  | .submitKeyPackage req => submissionEffect C (req.decode C) .keypackage
  | .submitAccount req => submissionEffect C (req.decode C) .account
  | .submitAccountLog accountAddr body =>
    match decodeAccountLog C accountAddr body with
    | .error _ => .nothing
    | .ok (addr, signed) => .accountLog addr signed
  | .ingestKeypackage bytes =>
    match C.decodeKeyPackage bytes with
    | none => .nothing
    | some wire =>
      submissionEffect C (Bundle.fromBytes wire.deviceId wire.payload wire.signature) .keypackage
  | .ingestAccount bytes =>
    match C.decodeAccount bytes with
    | none => .nothing
    | some wire =>
      submissionEffect C (Bundle.fromBytes wire.accountPub wire.payload wire.signature) .account
  | .pruneKeyPackages maxPerIdentity retention => .pruneKeyPackages maxPerIdentity retention
  | .pruneAccounts retention => .pruneAccounts retention
  | .fetchKeyPackage _ | .fetchAccount _ | .fetchAccountLog _ => .nothing

/-- What an effect does to the tables. -/
def Effect.run (now : SystemTime) (s : Tables) : Effect C → Tables
  | .nothing => s
  | .keypackage b => (applyKeypackage C now b s).1
  | .account b => (applyAccount C now b s).1
  | .accountLog addr signed => (applyAccountLog C now addr signed s).1
  | .pruneKeyPackages maxPerIdentity retention =>
    Store.deleteExcess maxPerIdentity (Store.deleteExpired now retention s)
  | .pruneAccounts retention => (Store.pruneAccounts (A := C.log) now retention s).1

/-- The verdict on an effect. Prunes always succeed. -/
def Effect.verdict (now : SystemTime) (s : Tables) :
    Effect C → Except (BundleError C.log) Unit
  | .keypackage b => (applyKeypackage C now b s).2
  | .account b => (applyAccount C now b s).2
  | .accountLog addr signed => (applyAccountLog C now addr signed s).2
  | .nothing | .pruneKeyPackages _ _ | .pruneAccounts _ => .ok ()

/-- Whether an effect is a submission that is accepted. -/
def Effect.accepts (now : SystemTime) (s : Tables) : Effect C → Bool
  | .keypackage b => (applyKeypackage C now b s).2.isOk
  | .account b => (applyAccount C now b s).2.isOk
  | .accountLog addr signed => (applyAccountLog C now addr signed s).2.isOk
  | .nothing | .pruneKeyPackages _ _ | .pruneAccounts _ => false

variable {C}

theorem isOk_iff {ε : Type} {x : Except ε Unit} : x.isOk = true ↔ x = .ok () := by
  cases x with
  | error err => simp [Except.isOk, Except.toBool]
  | ok u => simp [Except.isOk, Except.toBool]

private theorem accepted_submitted (verdict : Except (BundleError C.log) Unit) :
    (Response.submitted (C := C) (answer verdict)).accepted = verdict.isOk := by
  cases verdict <;> rfl

private theorem accepted_ingested (verdict : Except (BundleError C.log) Unit) :
    (Response.ingested (C := C) (logged verdict)).accepted = verdict.isOk := by
  cases verdict <;> rfl

/-- The answer to anything but a read reports the verdict on its effect. -/
theorem exists_report (request : Request) (hwrite : request.isWrite = true) :
    ∃ report : Except (BundleError C.log) Unit → Response C, ∀ now s,
      serve C s ⟨now, request⟩
          = ((request.effect C).run C now s, report ((request.effect C).verdict C now s)) ∧
        (report ((request.effect C).verdict C now s)).accepted
          = (request.effect C).accepts C now s := by
  rcases request with req | deviceId | req | accountPub | ⟨accountAddr, body⟩ | accountAddr |
    bytes | bytes | ⟨maxPerIdentity, retention⟩ | retention
  · simp only [serve, submitKeyPackage, Request.effect, thenApply, submissionEffect]
    rcases req.decode C with err | b
    · exact ⟨fun _ ↦ .submitted (answer (.error err)), fun _ _ ↦ ⟨rfl, rfl⟩⟩
    · exact ⟨fun verdict ↦ .submitted (answer verdict), fun _ _ ↦ ⟨rfl, accepted_submitted _⟩⟩
  · cases hwrite
  · simp only [serve, submitAccount, Request.effect, thenApply, submissionEffect]
    rcases req.decode C with err | b
    · exact ⟨fun _ ↦ .submitted (answer (.error err)), fun _ _ ↦ ⟨rfl, rfl⟩⟩
    · exact ⟨fun verdict ↦ .submitted (answer verdict), fun _ _ ↦ ⟨rfl, accepted_submitted _⟩⟩
  · cases hwrite
  · simp only [serve, submitAccountLog, Request.effect]
    rcases decodeAccountLog C accountAddr body with err | ⟨addr, signed⟩
    · exact ⟨fun _ ↦ .submitted (answer (.error err)), fun _ _ ↦ ⟨rfl, rfl⟩⟩
    · exact ⟨fun verdict ↦ .submitted (answer verdict), fun _ _ ↦ ⟨rfl, accepted_submitted _⟩⟩
  · cases hwrite
  · simp only [serve, ingestKeypackage, Request.effect, thenApply, submissionEffect]
    rcases C.decodeKeyPackage bytes with _ | wire
    · exact ⟨fun _ ↦ .ingested .invalidProtobuf, fun _ _ ↦ ⟨rfl, rfl⟩⟩
    · dsimp only
      rcases Bundle.fromBytes (A := C.log) wire.deviceId wire.payload wire.signature with err | b
      · exact ⟨fun _ ↦ .ingested (.rejected err), fun _ _ ↦ ⟨rfl, rfl⟩⟩
      · exact ⟨fun verdict ↦ .ingested (logged verdict), fun _ _ ↦ ⟨rfl, accepted_ingested _⟩⟩
  · simp only [serve, ingestAccount, Request.effect, thenApply, submissionEffect]
    rcases C.decodeAccount bytes with _ | wire
    · exact ⟨fun _ ↦ .ingested .invalidProtobuf, fun _ _ ↦ ⟨rfl, rfl⟩⟩
    · dsimp only
      rcases Bundle.fromBytes (A := C.log) wire.accountPub wire.payload wire.signature with err | b
      · exact ⟨fun _ ↦ .ingested (.rejected err), fun _ _ ↦ ⟨rfl, rfl⟩⟩
      · exact ⟨fun verdict ↦ .ingested (logged verdict), fun _ _ ↦ ⟨rfl, accepted_ingested _⟩⟩
  · exact ⟨fun _ ↦ .pruned (.ok ()), fun _ _ ↦ ⟨rfl, rfl⟩⟩
  · exact ⟨fun _ ↦ .pruned (.ok ()), fun _ _ ↦ ⟨rfl, rfl⟩⟩

/-- An event changes the tables by its effect, and is accepted when its effect is. -/
theorem serve_effect (s : Tables) (e : Event) :
    (serve C s e).1 = (e.request.effect C).run C e.now s ∧
      (serve C s e).2.accepted = (e.request.effect C).accepts C e.now s := by
  obtain ⟨now, request⟩ := e
  by_cases hwrite : request.isWrite = true
  · obtain ⟨report, hreport⟩ := exists_report (C := C) request hwrite
    obtain ⟨hserve, haccepted⟩ := hreport now s
    rw [hserve]
    exact ⟨rfl, haccepted⟩
  · -- A read leaves the tables alone and is not a submission.
    rcases request with _ | _ | _ | _ | _ | _ | _ | _ | _ | _ <;>
      first | exact absurd rfl hwrite | exact ⟨rfl, rfl⟩

theorem serve_fst (s : Tables) (e : Event) :
    (serve C s e).1 = (e.request.effect C).run C e.now s := (serve_effect s e).1

theorem accepted_serve (s : Tables) (e : Event) :
    (serve C s e).2.accepted = (e.request.effect C).accepts C e.now s := (serve_effect s e).2

/-! ## Where an effect comes from -/

variable (C) in
/-- The request decodes to the effect. -/
inductive Request.HasEffect : Request → Effect C → Prop
  | postKeyPackage {req b} (h : req.decode C = .ok b) :
    HasEffect (.submitKeyPackage req) (.keypackage b)
  | deliverKeyPackage {bytes wire b} (hwire : C.decodeKeyPackage bytes = some wire)
    (h : Bundle.fromBytes (A := C.log) wire.deviceId wire.payload wire.signature = .ok b) :
    HasEffect (.ingestKeypackage bytes) (.keypackage b)
  | postAccount {req b} (h : req.decode C = .ok b) :
    HasEffect (.submitAccount req) (.account b)
  | deliverAccount {bytes wire b} (hwire : C.decodeAccount bytes = some wire)
    (h : Bundle.fromBytes (A := C.log) wire.accountPub wire.payload wire.signature = .ok b) :
    HasEffect (.ingestAccount bytes) (.account b)
  | postAccountLog {accountAddr body addr signed}
    (h : decodeAccountLog C accountAddr body = .ok (addr, signed)) :
    HasEffect (.submitAccountLog accountAddr body) (.accountLog addr signed)
  | pruneKeyPackages {maxPerIdentity retention} :
    HasEffect (.pruneKeyPackages maxPerIdentity retention)
      (.pruneKeyPackages maxPerIdentity retention)
  | pruneAccounts {retention} : HasEffect (.pruneAccounts retention) (.pruneAccounts retention)
  | nothing {request} : HasEffect request .nothing

theorem hasEffect (request : Request) : request.HasEffect C (request.effect C) := by
  cases request with
  | submitKeyPackage req =>
    simp only [Request.effect, submissionEffect]
    cases hdecode : req.decode C with
    | error err => exact .nothing
    | ok b => exact .postKeyPackage hdecode
  | submitAccount req =>
    simp only [Request.effect, submissionEffect]
    cases hdecode : req.decode C with
    | error err => exact .nothing
    | ok b => exact .postAccount hdecode
  | submitAccountLog accountAddr body =>
    simp only [Request.effect]
    cases hdecode : decodeAccountLog C accountAddr body with
    | error err => exact .nothing
    | ok log => exact .postAccountLog hdecode
  | ingestKeypackage bytes =>
    simp only [Request.effect, submissionEffect]
    cases hwire : C.decodeKeyPackage bytes with
    | none => exact .nothing
    | some wire =>
      dsimp only
      cases hbundle : Bundle.fromBytes (A := C.log) wire.deviceId wire.payload wire.signature with
      | error err => exact .nothing
      | ok b => exact .deliverKeyPackage hwire hbundle
  | ingestAccount bytes =>
    simp only [Request.effect, submissionEffect]
    cases hwire : C.decodeAccount bytes with
    | none => exact .nothing
    | some wire =>
      dsimp only
      cases hbundle : Bundle.fromBytes (A := C.log) wire.accountPub wire.payload wire.signature with
      | error err => exact .nothing
      | ok b => exact .deliverAccount hwire hbundle
  | pruneKeyPackages _ _ => exact .pruneKeyPackages
  | pruneAccounts _ => exact .pruneAccounts
  | fetchKeyPackage _ | fetchAccount _ | fetchAccountLog _ => exact .nothing

/-- Nothing but a prune has the effect of one. -/
theorem request_of_pruneKeyPackages {request : Request} {maxPerIdentity : UInt64}
    {retention : Duration} (h : request.effect C = .pruneKeyPackages maxPerIdentity retention) :
    request = .pruneKeyPackages maxPerIdentity retention := by
  have hrequest := h ▸ hasEffect (C := C) request
  cases hrequest
  rfl

theorem request_of_pruneAccounts {request : Request} {retention : Duration}
    (h : request.effect C = .pruneAccounts retention) : request = .pruneAccounts retention := by
  have hrequest := h ▸ hasEffect (C := C) request
  cases hrequest
  rfl

end ChatStore
