import ChatStore.Concurrent
import ChatStore.Library.Linearisable
import ChatStore.Service

/-!
# The server: requests over the store's write lock

`Service` handles one event at a time, and `Concurrent` is about the methods of the store. What lies
between the two are the handlers: each decodes and verifies its request without waiting for anybody,
then awaits at most one method of the store, and makes its answer from the result. `Request.plan`
is a handler cut at that await.

`requests_linearise` is the bridge. Any number of requests in flight at the same time, interleaved
at every await of the store, get the answers that the service gives to the same requests one at a
time, in the order in which they took effect. So whatever holds of the runs of `service` holds of
the running server.

## The cap

A keypackage prune is two statements, and reads may come between them. For a cap of at least one no
read can tell that the second is missing. A request with such a cap is `Capped`.
-/

namespace ChatStore

open Library Store Concurrent

/-! ## What the methods return -/

section Answers

variable {A : AccountLogCrate}

/-- The result of `insert` and of the prunes. No other method is asked for it. -/
def Concurrent.Answer.toUnit : Answer A → Except (StoreError A) Unit
  | .inserted result | .pruned result => result
  | _ => .ok ()

/-- The result of `upsert_account`. -/
def Concurrent.Answer.toBool : Answer A → Except (StoreError A) Bool
  | .upserted result => result
  | _ => .ok false

/-- The result of `put_account_log`. -/
def Concurrent.Answer.toOutcome : Answer A → Except (StoreError A) Outcome
  | .put result => result
  | _ => .ok .updated

def Concurrent.Answer.toKeyPackage : Answer A → Option StoredKeyPackageBundle
  | .latest bundle => bundle
  | _ => none

def Concurrent.Answer.toAccount : Answer A → Option StoredAccountBundle
  | .account bundle => bundle
  | _ => none

def Concurrent.Answer.toAccountLog : Answer A → Option Bytes
  | .accountLog signedLog => signedLog
  | _ => none

end Answers

/-! ## The handlers up to their await -/

variable (C : Crates)

/-- A handler that answers on the spot, or awaits one method of the store. -/
abbrev Handler := Plan (Call C.log) (Query C.log) (Answer C.log) (Response C)

/-- How a handler tells what became of a submission. -/
abbrev Report := Except (BundleError C.log) Unit → Response C

variable {C}

/-- Go on with a decoded bundle, or stop at the decoding error. -/
def thenPlan (decoded : Except (BundleError C.log) Bundle) (handler : Bundle → Handler C)
    (report : Report C) : Handler C :=
  match decoded with
  | .error err => .reply (report (.error err))
  | .ok b => handler b

variable (C)

/-- `apply_keypackage`. -/
def planKeypackage (report : Report C) (b : Bundle) : Handler C :=
  match verify C b with
  | .error err => .reply (report (.error err))
  | .ok () =>
    .call (.insert (b.keyHex C) ⟨b.payload, b.signature⟩) fun result ↦
      report (result.toUnit.mapError .internal)

/-- `apply_account`. -/
def planAccount (report : Report C) (b : Bundle) : Handler C :=
  match verify C b with
  | .error err => .reply (report (.error err))
  | .ok () =>
    match payloadLamport b.payload with
    | none =>
      .reply (report (.error (.invalid "payload: too short to contain a lamport header")))
    | some lamport =>
      .call (.upsertAccount (b.keyHex C) lamport ⟨b.payload, b.signature, 0⟩) fun result ↦
        report <| match result.toBool with
          | .error err => .error (.internal err)
          | .ok false => .error .stale
          | .ok true => .ok ()

/-- `apply_account_log`. -/
def planAccountLog (report : Report C) (addr : C.log.AccountAddr)
    (signed : C.log.SignedAccountLog) : Handler C :=
  match C.log.newRecord addr signed with
  | .error err =>
    .reply (report (.error (if C.log.isSignatureInvalid err then
      .invalid "signature: verification failed" else .malformedLog err)))
  | .ok candidate =>
    .call (.putAccountLog candidate) fun result ↦
      report <| match result.toOutcome with
        | .error err => .error (.internal err)
        | .ok outcome => outcomeVerdict outcome

/-- What a handler does about a request. -/
def Request.plan : Request → Handler C
  | .submitKeyPackage req =>
    let report verdict := .submitted (answer verdict)
    thenPlan (req.decode C) (planKeypackage C report) report
  | .fetchKeyPackage deviceId =>
    .ask (.latest deviceId) fun result ↦ .keyPackage <|
      match result.toKeyPackage with
      | none => .error (.notFound "no keypackage for device")
      | some bundle => .ok ⟨C.base64Encode bundle.payload, C.base64Encode bundle.signature⟩
  | .submitAccount req =>
    let report verdict := .submitted (answer verdict)
    thenPlan (req.decode C) (planAccount C report) report
  | .fetchAccount accountPub =>
    .ask (.getAccount accountPub) fun result ↦ .account <|
      match result.toAccount with
      | none => .error (.notFound "no account bundle for account_pub")
      | some bundle =>
        .ok ⟨C.base64Encode bundle.payload, C.base64Encode bundle.signature, bundle.updatedAt⟩
  | .submitAccountLog accountAddr body =>
    match decodeAccountLog C accountAddr body with
    | .error err => .reply (.submitted (.error (.ofBundleError err)))
    | .ok (addr, signed) => planAccountLog C (fun verdict ↦ .submitted (answer verdict)) addr signed
  | .fetchAccountLog accountAddr =>
    match parseAddr C accountAddr with
    | .error err => .reply (.accountLog (.error (.ofBundleError err)))
    | .ok addr =>
      .ask (.getAccountLog addr) fun result ↦ .accountLog <|
        match result.toAccountLog with
        | none => .error (.notFound "no account log for account_addr")
        | some signedLog => .ok signedLog
  | .ingestKeypackage bytes =>
    let report verdict := .ingested (logged verdict)
    match C.decodeKeyPackage bytes with
    | none => .reply (.ingested .invalidProtobuf)
    | some wire =>
      thenPlan (Bundle.fromBytes wire.deviceId wire.payload wire.signature)
        (planKeypackage C report) report
  | .ingestAccount bytes =>
    let report verdict := .ingested (logged verdict)
    match C.decodeAccount bytes with
    | none => .reply (.ingested .invalidProtobuf)
    | some wire =>
      thenPlan (Bundle.fromBytes wire.accountPub wire.payload wire.signature)
        (planAccount C report) report
  | .pruneKeyPackages maxPerIdentity retention =>
    .call (.pruneKeyPackages maxPerIdentity retention) fun result ↦ .pruned result.toUnit
  | .pruneAccounts retention =>
    .call (.pruneAccounts retention) fun result ↦ .pruned result.toUnit

/-! ## The plan of a request does what the service does -/

variable {C}

/-- A plan is carried out in the state `s` at the clock reading `now`, alone. -/
def Does (now : SystemTime) (s : Tables) (p : Handler C) (out : Tables × Response C) : Prop :=
  match p with
  | .reply response => out = (s, response)
  | .ask q f => out = (s, f (q.read s))
  | .call c f => ∃ result,
      (storeLock C.log).doAll (c.ops now) (s, none) = (out.1, some result) ∧ out.2 = f result

variable {now : SystemTime} {s : Tables} {report : Report C}

/-- A call of one operation. -/
theorem does_call (op : Op C.log) {c : Call C.log} (hops : c.ops now = [op])
    (f : Answer C.log → Response C) {s' : Tables} {result : Answer C.log}
    (happly : op.apply s = (s', result)) : Does now s (.call c f) (s', f result) := by
  refine ⟨result, ?_, rfl⟩
  rw [hops, Mutex.doAll, Mutex.doAll]
  exact congrArg (fun x : Tables × Answer C.log ↦ (x.1, some x.2)) happly

theorem does_planKeypackage (b : Bundle) :
    Does now s (planKeypackage C report b)
      ((applyKeypackage C now b s).1, report (applyKeypackage C now b s).2) := by
  rw [planKeypackage, applyKeypackage]
  rcases verify C b with err | -
  · exact rfl
  · exact does_call (.insert now (b.keyHex C) ⟨b.payload, b.signature⟩) rfl _ rfl

theorem does_planAccount (b : Bundle) :
    Does now s (planAccount C report b)
      ((applyAccount C now b s).1, report (applyAccount C now b s).2) := by
  rw [planAccount, applyAccount]
  rcases verify C b with err | -
  · exact rfl
  · rcases payloadLamport b.payload with _ | lamport
    · exact rfl
    · dsimp only
      rcases hupsert : upsertAccount (A := C.log) now (b.keyHex C) lamport
        ⟨b.payload, b.signature, 0⟩ s with ⟨s', result⟩
      have happly : Op.apply (A := C.log)
          (.upsertAccount now (b.keyHex C) lamport ⟨b.payload, b.signature, 0⟩) s
          = (s', .upserted result) := by rw [Op.apply, hupsert]; rfl
      rcases result with err | _ | _
      · exact does_call _ rfl _ happly
      · exact does_call _ rfl _ happly
      · exact does_call _ rfl _ happly

theorem does_planAccountLog (addr : C.log.AccountAddr) (signed : C.log.SignedAccountLog) :
    Does now s (planAccountLog C report addr signed)
      ((applyAccountLog C now addr signed s).1,
        report (applyAccountLog C now addr signed s).2) := by
  rw [planAccountLog, applyAccountLog]
  rcases C.log.newRecord addr signed with err | candidate
  · exact rfl
  · dsimp only
    rcases hput : putAccountLog now candidate s with ⟨s', result⟩
    have happly : Op.apply (.putAccountLog now candidate) s = (s', .put result) := by
      rw [Op.apply, hput]
      rfl
    rcases result with err | outcome
    · exact does_call _ rfl _ happly
    · exact does_call _ rfl _ happly

theorem does_thenPlan {decoded : Except (BundleError C.log) Bundle} {handler : Bundle → Handler C}
    {apply : Bundle → Tables → Tables × Except (BundleError C.log) Unit}
    (h : ∀ b, Does now s (handler b) ((apply b s).1, report (apply b s).2)) :
    Does now s (thenPlan decoded handler report)
      ((thenApply decoded apply s).1, report (thenApply decoded apply s).2) := by
  rcases decoded with err | b
  · exact rfl
  · exact h b

/-- Alone, the handler of a request does what the service does. -/
theorem does_plan (now : SystemTime) (s : Tables) (request : Request) :
    Does now s (request.plan C) (serve C s ⟨now, request⟩) := by
  rcases request with req | deviceId | req | accountPub | ⟨accountAddr, body⟩ | accountAddr |
    bytes | bytes | ⟨maxPerIdentity, retention⟩ | retention
  · simp only [Request.plan, serve, submitKeyPackage]
    exact does_thenPlan does_planKeypackage
  · exact rfl
  · simp only [Request.plan, serve, submitAccount]
    exact does_thenPlan does_planAccount
  · exact rfl
  · simp only [Request.plan, serve, submitAccountLog]
    rcases decodeAccountLog C accountAddr body with err | ⟨addr, signed⟩
    · exact rfl
    · exact does_planAccountLog addr signed
  · simp only [Request.plan, serve, fetchAccountLog]
    rcases parseAddr C accountAddr with err | addr
    · exact rfl
    · exact rfl
  · simp only [Request.plan, serve, ingestKeypackage]
    rcases C.decodeKeyPackage bytes with _ | wire
    · exact rfl
    · exact does_thenPlan does_planKeypackage
  · simp only [Request.plan, serve, ingestAccount]
    rcases C.decodeAccount bytes with _ | wire
    · exact rfl
    · exact does_thenPlan does_planAccount
  · exact ⟨_, rfl, rfl⟩
  · exact ⟨_, rfl, rfl⟩

/-! ## Calls of one operation -/

/-- A handler awaits one operation of the store at most. -/
def Single (p : Handler C) : Prop := ∀ c f, p = .call c f → ∀ now, ∃ op, c.ops now = [op]

theorem single_reply (out : Response C) : Single (.reply out : Handler C) :=
  fun _ _ h ↦ absurd h (by simp)

theorem single_ask (q : Query C.log) (f : Answer C.log → Response C) :
    Single (.ask q f : Handler C) := fun _ _ h ↦ absurd h (by simp)

theorem single_call {c : Call C.log} (h : ∀ now, ∃ op, c.ops now = [op])
    (f : Answer C.log → Response C) : Single (.call c f : Handler C) := by
  intro c' f' hcall
  rw [← (Plan.call.inj hcall).1]
  exact h

theorem single_planKeypackage (b : Bundle) : Single (planKeypackage C report b) := by
  rw [planKeypackage]
  rcases verify C b with err | -
  · exact single_reply _
  · exact single_call (fun _ ↦ ⟨_, rfl⟩) _

theorem single_planAccount (b : Bundle) : Single (planAccount C report b) := by
  rw [planAccount]
  rcases verify C b with err | -
  · exact single_reply _
  · rcases payloadLamport b.payload with _ | lamport
    · exact single_reply _
    · exact single_call (fun _ ↦ ⟨_, rfl⟩) _

theorem single_planAccountLog (addr : C.log.AccountAddr) (signed : C.log.SignedAccountLog) :
    Single (planAccountLog C report addr signed) := by
  rw [planAccountLog]
  rcases C.log.newRecord addr signed with err | candidate
  · exact single_reply _
  · exact single_call (fun _ ↦ ⟨_, rfl⟩) _

theorem single_thenPlan {decoded : Except (BundleError C.log) Bundle} {handler : Bundle → Handler C}
    (h : ∀ b, Single (handler b)) : Single (thenPlan decoded handler report) := by
  rcases decoded with err | b
  · exact single_reply _
  · exact h b

/-- Only a prune of keypackages takes more than one statement that commits. -/
theorem single_plan {request : Request}
    (h : ∀ maxPerIdentity retention, request ≠ .pruneKeyPackages maxPerIdentity retention) :
    Single (request.plan C) := by
  rcases request with req | deviceId | req | accountPub | ⟨accountAddr, body⟩ | accountAddr |
    bytes | bytes | ⟨maxPerIdentity, retention⟩ | retention
  · rw [Request.plan]
    exact single_thenPlan single_planKeypackage
  · exact single_ask _ _
  · rw [Request.plan]
    exact single_thenPlan single_planAccount
  · exact single_ask _ _
  · rw [Request.plan]
    rcases decodeAccountLog C accountAddr body with err | ⟨addr, signed⟩
    · exact single_reply _
    · exact single_planAccountLog addr signed
  · rw [Request.plan]
    rcases parseAddr C accountAddr with err | addr
    · exact single_reply _
    · exact single_ask _ _
  · rw [Request.plan]
    rcases C.decodeKeyPackage bytes with _ | wire
    · exact single_reply _
    · exact single_thenPlan single_planKeypackage
  · rw [Request.plan]
    rcases C.decodeAccount bytes with _ | wire
    · exact single_reply _
    · exact single_thenPlan single_planAccount
  · exact absurd rfl (h maxPerIdentity retention)
  · exact single_call (fun _ ↦ ⟨_, rfl⟩) _

/-! ## The server -/

/-- The cap of a keypackage prune, bound as a signed value, is at least one. -/
def Request.Capped : Request → Prop
  | .pruneKeyPackages maxPerIdentity _ => 1 ≤ asI64 maxPerIdentity
  | _ => True

/-- The requests the server is run with. -/
abbrev Served := { request : Request // request.Capped }

variable (C) in
/-- The service, for requests with their clock readings. -/
def requests : Machine Tables (SystemTime × Served) (Response C) :=
  (service C).comap fun x ↦ ⟨x.1, x.2.val⟩

/-- A read cannot tell whether a cap of at least one has been applied. -/
theorem read_deleteExcess {maxPerIdentity : UInt64} (hcap : 1 ≤ asI64 maxPerIdentity) (s : Tables)
    (q : Query C.log) : q.read (deleteExcess maxPerIdentity s) = q.read s := by
  rcases q with deviceId | accountPub | addr
  · rw [Query.read, Query.read, latest, latest, newestRow_deleteExcess, if_pos hcap]
  · rfl
  · rfl

/-- The handlers over the write lock do what the service does. -/
theorem implements_requests : Frontend.Implements (storeLock C.log)
    (fun request : Served ↦ request.val.plan C) (requests C) where
  sound := storeLock_sound
  reply request out hplan s now := by
    have hdoes := does_plan (C := C) now s request.val
    rw [hplan] at hdoes
    exact hdoes
  ask request q f hplan s now := by
    have hdoes := does_plan (C := C) now s request.val
    rw [hplan] at hdoes
    exact hdoes
  call request c f hplan s now := by
    have hdoes := does_plan (C := C) now s request.val
    rw [hplan] at hdoes
    exact hdoes
  hidden request c f hplan now op hop s q := by
    obtain ⟨request, hcapped⟩ := request
    by_cases hprune : ∃ maxPerIdentity retention,
        request = .pruneKeyPackages maxPerIdentity retention
    · obtain ⟨maxPerIdentity, retention, rfl⟩ := hprune
      obtain ⟨rfl, -⟩ := Plan.call.inj hplan
      obtain rfl : op = .deleteExcess maxPerIdentity := List.mem_singleton.mp hop
      exact read_deleteExcess hcapped s q
    · have hsingle : Single (request.plan C) := single_plan fun maxPerIdentity retention heq ↦
        hprune ⟨maxPerIdentity, retention, heq⟩
      obtain ⟨op', hops⟩ := hsingle c f hplan now
      rw [show (storeLock C.log).ops c now = [op'] from hops] at hop
      exact absurd hop List.not_mem_nil

/-- The events of a history: each request at the clock reading of its call. -/
def eventsOf {ι : Type} (hist : List (Frontend.Entry SystemTime ι Served)) : List Event :=
  hist.map fun x ↦ ⟨x.2.1, x.2.2.val⟩

theorem run_serial {ι : Type} (s : Tables) (hist : List (Frontend.Entry SystemTime ι Served)) :
    (Frontend.serial ι (requests C)).run s hist = (service C).run s (eventsOf hist) := by
  rw [Frontend.serial, Machine.run_comap, requests, Machine.run_comap, eventsOf, List.map_map]
  rfl

section Server

variable {ι : Type} [DecidableEq ι] {labels : List (Frontend.Label Served SystemTime ι)}

variable (C) in
/-- The server after a run, from the tables `s`. -/
def serverAfter (s : Tables) (labels : List (Frontend.Label Served SystemTime ι)) :
    Frontend.State Tables (Call C.log) (Query C.log) (Op C.log) SystemTime (Answer C.log) ι
      Served :=
  Frontend.after (storeLock C.log) (fun request : Served ↦ request.val.plan C) s labels

variable (C) in
/-- The requests of a run in the order in which they took effect. -/
def serverHistory (s : Tables) (labels : List (Frontend.Label Served SystemTime ι)) :
    List (Frontend.Entry SystemTime ι Served) :=
  Frontend.history (storeLock C.log) (fun request : Served ↦ request.val.plan C) s labels

/-- The response of a task, if it has one yet. -/
def responseOf (st : Frontend.State Tables (Call C.log) (Query C.log) (Op C.log) SystemTime
    (Answer C.log) ι Served) (t : ι) : Option (Response C) :=
  Frontend.answer (fun request : Served ↦ request.val.plan C) st t

/-- A prune of keypackages is only cancelled with the whole server. -/
def PrunesUncut (labels : List (Frontend.Label Served SystemTime ι)) : Prop :=
  ∀ t request, .cancel t ∈ labels → .receive t request ∈ labels →
    ∀ maxPerIdentity retention, request.val ≠ .pruneKeyPackages maxPerIdentity retention

omit [DecidableEq ι] in
theorem PrunesUncut.uncut (h : PrunesUncut labels) : Frontend.Uncut (storeLock C.log)
      (fun request : Served ↦ request.val.plan C) labels := by
  intro t request hcancel hreceive c f hplan now
  obtain ⟨op, hops⟩ := single_plan (h t request hcancel hreceive) c f hplan now
  rw [show (storeLock C.log).ops c now = [op] from hops, List.length_singleton]

variable (C) in
/-- The service, given the requests of a run of the server one at a time, accounts for the run. -/
structure Accounts (s : Tables) (labels : List (Frontend.Label Served SystemTime ι)) : Prop where
  /-- While nobody is inside a method that writes, the tables are those of the service. -/
  tables : (serverAfter C s labels).mutex.holder = none →
    (serverAfter C s labels).mutex.shared = (service C).run s (eventsOf (serverHistory C s labels))
  /-- A response is the service's answer to the request, at the place it has in the history. -/
  response : ∀ t response, responseOf (serverAfter C s labels) t = some response →
    ∃ before request now later,
      serverHistory C s labels = before ++ (t, now, request) :: later ∧
      response = (serve C ((service C).run s (eventsOf before)) ⟨now, request.val⟩).2
  /-- A request takes effect once at most. -/
  nodup : ((serverHistory C s labels).map Prod.fst).Nodup
  /-- Only what was received takes effect. -/
  received : ∀ x ∈ serverHistory C s labels, .receive x.1 x.2.2 ∈ labels
  /-- What has taken effect at some moment comes before everything that takes effect later. -/
  order : ∀ past, past <+: labels → serverHistory C s past <+: serverHistory C s labels

/-- What a linearisation says in terms of the service. -/
theorem accounts_of_linearises {s : Tables}
    (hlin : Frontend.Linearises (storeLock C.log) (fun request : Served ↦ request.val.plan C)
      (requests C) s labels) : Accounts C s labels := by
  refine ⟨fun hfree ↦ ?_, fun t response hresponse ↦ ?_, hlin.nodup, hlin.received, hlin.order⟩
  · rw [← run_serial]
    exact (hlin.state_of_free hfree).symm
  · obtain ⟨e, he, rfl, rfl⟩ := hlin.answered t response hresponse
    obtain ⟨before, later, hsplit, hentry⟩ := Machine.exists_place_of_mem_trace _ he
    refine ⟨before, e.input.2.2, e.input.2.1, later, hsplit, ?_⟩
    rw [← run_serial, hentry]
    rfl

/-- The service accounts for every run without such a cancellation. -/
theorem PrunesUncut.accounts (s : Tables) (h : PrunesUncut labels) : Accounts C s labels :=
  accounts_of_linearises (Frontend.linearises implements_requests s labels h.uncut)

/-- **Requests linearise.** However the requests in flight are interleaved, and whichever of them
are dropped at whichever await, the service accounts for the run. -/
theorem requests_linearise (s : Tables) (labels : List (Frontend.Label Served SystemTime ι))
    (huncut : PrunesUncut labels) : Accounts C s labels := huncut.accounts s

end Server

namespace Reference

/-- Two publishes for one account in flight together, and a read between the steps of the first. The
second client goes away before its turn. -/
def twoPublishes : List (Frontend.Label Served SystemTime ℕ) :=
  [.receive 0 ⟨deliverAccount accountBundle5, trivial⟩,
    .receive 1 ⟨deliverAccount accountBundle6, trivial⟩,
    .receive 2 ⟨.fetchAccount (Hex.encode publicKey.val), trivial⟩,
    .lock 0 1000000, .advance, .advance, .select 2, .advance, .cancel 1, .advance, .advance]

theorem requests_linearise_twoPublishes : Accounts crates Tables.empty twoPublishes := by
  refine requests_linearise Tables.empty twoPublishes fun t request hcancel hreceive ↦ ?_
  obtain rfl : t = 1 := by simpa [twoPublishes] using hcancel
  obtain rfl : request = ⟨deliverAccount accountBundle6, trivial⟩ := by
    simpa [twoPublishes] using hreceive
  intro maxPerIdentity retention
  simp [deliverAccount]

end Reference

end ChatStore
