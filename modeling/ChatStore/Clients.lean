import ChatStore.Reference
import ChatStore.Server
import ChatStore.Views
import Mathlib.Tactic.IntervalCases

/-!
# What a client can count on

A client publishes under a device key and an account key of its own, over HTTP, and makes its
requests one after the other. It cannot see what else the server is doing. `clients_predict_answers`
says that it need not: the answer to each of its requests follows from the requests it made before,
whatever other requests are in flight and however they are interleaved with its own. The client's
reckoning is `View`, the last keypackage it published and the last account bundle that was newer
than the one before.

Three things can upset the reckoning, and the theorem excludes them. Somebody else may publish under
the keys. A prune may reach back to what the client published. And the server's clock may fail to
move on between two keypackages of the client, which are then refused or filed in the wrong order.
-/

namespace ChatStore

open Library Store Concurrent

/-! ## The client's side -/

/-- The keys that a client signs with. -/
structure Keys where
  device : FixedBytes 32
  account : FixedBytes 32

section Reckoning

variable (C : Crates) (keys : Keys)

/-- A keypackage signed by the client. -/
structure OwnKeyPackage where
  bundle : Bundle
  key : bundle.key = keys.device
  authentic : bundle.authentic C = true

/-- An account bundle signed by the client. -/
structure OwnAccountBundle where
  bundle : Bundle
  lamport : UInt64
  key : bundle.key = keys.account
  valid : bundle.validLamport C = some lamport

variable {C keys} in
theorem OwnKeyPackage.keyHex (k : OwnKeyPackage C keys) :
    k.bundle.keyHex C = C.hexEncode keys.device := by rw [Bundle.keyHex, k.key]

variable {C keys} in
theorem OwnAccountBundle.keyHex (a : OwnAccountBundle C keys) :
    a.bundle.keyHex C = C.hexEncode keys.account := by rw [Bundle.keyHex, a.key]

/-- What the client does next. -/
inductive Move
  | publishKeyPackage (k : OwnKeyPackage C keys)
  | fetchKeyPackage
  | publishAccount (a : OwnAccountBundle C keys)
  | fetchAccount

variable {C keys}

/-- The request of a move. -/
def Move.request : Move C keys → Request
  | .publishKeyPackage k =>
    .submitKeyPackage ⟨C.hexEncode keys.device, C.base64Encode k.bundle.payload,
      C.base64Encode k.bundle.signature⟩
  | .fetchKeyPackage => .fetchKeyPackage (C.hexEncode keys.device)
  | .publishAccount a =>
    .submitAccount ⟨C.hexEncode keys.account, C.base64Encode a.bundle.payload,
      C.base64Encode a.bundle.signature⟩
  | .fetchAccount => .fetchAccount (C.hexEncode keys.account)

variable (C keys) in
/-- What the client takes to be on file under its keys. -/
structure View where
  keypackage : Option (OwnKeyPackage C keys)
  account : Option (OwnAccountBundle C keys)

/-- The bundle is newer than the one the client takes to be on file. -/
def View.accepts (v : View C keys) (a : OwnAccountBundle C keys) : Bool :=
  v.account.all fun old ↦ decide (old.lamport < a.lamport)

/-- The view after a move. -/
def View.after (v : View C keys) : Move C keys → View C keys
  | .publishKeyPackage k => { v with keypackage := some k }
  | .publishAccount a => if v.accepts a then { v with account := some a } else v
  | .fetchKeyPackage | .fetchAccount => v

/-- The view after some moves. Nothing is on file before the first. -/
def viewAfter (moves : List (Move C keys)) : View C keys := moves.foldl View.after ⟨none, none⟩

/-- The client expects this answer to its move. The one thing it leaves open is when an account
bundle was filed, except that it was not before `start`. -/
def View.Expects (v : View C keys) (start : ℤ) : Move C keys → Response C → Prop
  | .publishKeyPackage _, response => response = .submitted (.ok .noContent)
  | .fetchKeyPackage, response => response = .keyPackage (match v.keypackage with
    | none => .error (.notFound "no keypackage for device")
    | some k => .ok ⟨C.base64Encode k.bundle.payload, C.base64Encode k.bundle.signature⟩)
  | .publishAccount a, response => response = .submitted (if v.accepts a then .ok .noContent
    else .error (.ofBundleError (.stale : BundleError C.log)))
  | .fetchAccount, response => match v.account with
    | none => response = .account (.error (.notFound "no account bundle for account_pub"))
    | some a => ∃ updatedAt, start ≤ updatedAt ∧ response = .account (.ok
      ⟨C.base64Encode a.bundle.payload, C.base64Encode a.bundle.signature, updatedAt⟩)

theorem viewAfter_concat (moves : List (Move C keys)) (move : Move C keys) :
    viewAfter (moves ++ [move]) = (viewAfter moves).after move := by
  rw [viewAfter, List.foldl_concat, ← viewAfter]

end Reckoning

/-! ## One event -/

section Events

variable {C : Crates} {keys : Keys} {start : ℤ} {times : List ℤ} {v : View C keys}
  {now : SystemTime} {s : Tables}

/-- The keypackages of the client were filed at `times`, and its view is right. -/
structure OnFile (start : ℤ) (times : List ℤ) (v : View C keys) (s : Tables) : Prop where
  keypackage : match v.keypackage with
    | none => newestRow (C.hexEncode keys.device) s = none
    | some k => ∃ now, start ≤ stamp now ∧ stamp now ∈ times ∧
      newestRow (C.hexEncode keys.device) s = some (insertedRow now (C.hexEncode keys.device)
        ⟨k.bundle.payload, k.bundle.signature⟩)
  account : match v.account with
    | none => accountRow (C.hexEncode keys.account) s = none
    | some a => ∃ now, start ≤ stamp now ∧
      accountRow (C.hexEncode keys.account) s = some (upsertedRow now (C.hexEncode keys.account)
        ⟨a.bundle.payload, a.bundle.signature, 0⟩)

/-- When a move files a keypackage. -/
def Move.stamps (now : SystemTime) : Move C keys → List ℤ
  | .publishKeyPackage _ => [stamp now]
  | .fetchKeyPackage | .publishAccount _ | .fetchAccount => []

theorem decode_publishKeyPackage (hHex : C.HexLaws) (hBase64 : C.Base64Laws)
    (k : OwnKeyPackage C keys) :
    decodeBundle C (C.hexEncode keys.device) (C.base64Encode k.bundle.payload)
      (C.base64Encode k.bundle.signature) = .ok k.bundle :=
  decodeBundle_eq_ok_iff.mpr
    ⟨k.key ▸ hHex.decode_encode _, hBase64.decode_encode _, hBase64.decode_encode _⟩

theorem decode_publishAccount (hHex : C.HexLaws) (hBase64 : C.Base64Laws)
    (a : OwnAccountBundle C keys) :
    decodeBundle C (C.hexEncode keys.account) (C.base64Encode a.bundle.payload)
      (C.base64Encode a.bundle.signature) = .ok a.bundle :=
  decodeBundle_eq_ok_iff.mpr
    ⟨a.key ▸ hHex.decode_encode _, hBase64.decode_encode _, hBase64.decode_encode _⟩

/-! ### The client's own moves -/

/-- The newest row of the device is one of the client's. -/
theorem OnFile.receivedAt (h : OnFile start times v s) {r : KeyPackageRow}
    (hr : r ∈ newestRow (C.hexEncode keys.device) s) :
    start ≤ r.receivedAt ∧ r.receivedAt ∈ times := by
  have hfiled := h.keypackage
  rcases hview : v.keypackage with _ | k
  · rw [hview] at hfiled
    rw [hfiled] at hr
    exact absurd hr (by simp)
  · rw [hview] at hfiled
    obtain ⟨filedAt, hstart, htimes, hrow⟩ := hfiled
    rw [hrow, Option.mem_some_iff] at hr
    exact hr ▸ ⟨hstart, htimes⟩

theorem OnFile.updatedAt (h : OnFile start times v s) {r : AccountBundleRow}
    (hr : r ∈ accountRow (C.hexEncode keys.account) s) : start ≤ r.updatedAt := by
  have hfiled := h.account
  rcases hview : v.account with _ | a
  · rw [hview] at hfiled
    rw [hfiled] at hr
    exact absurd hr (by simp)
  · rw [hview] at hfiled
    obtain ⟨filedAt, hstart, hrow⟩ := hfiled
    rw [hrow, Option.mem_some_iff] at hr
    exact hr ▸ hstart

/-- No keypackage of the device is in the way of a later one. -/
theorem OnFile.not_stampTaken (h : OnFile start times v s) (hlater : ∀ t ∈ times, t < stamp now) :
    ¬StampTaken now (C.hexEncode keys.device) s := by
  rintro ⟨r, hr, hstamp⟩
  rcases hnew : newestRow (C.hexEncode keys.device) s with _ | m
  · rw [newest?_eq_none_iff.mp hnew] at hr
    exact absurd hr List.not_mem_nil
  · have hle := ord_le_of_newest? hnew hr
    exact absurd (hlater _ (h.receivedAt hnew).2) (not_lt.mpr (hstamp ▸ hle))

/-- A newer bundle is one that is not stale. -/
theorem OnFile.isStale (h : OnFile start times v s) (a : OwnAccountBundle C keys) :
    isStale a.lamport (accountRow (C.hexEncode keys.account) s) = !v.accepts a := by
  have haccount := h.account
  rw [View.accepts]
  rcases hview : v.account with _ | old
  · rw [hview] at haccount
    rw [haccount]
    rfl
  · rw [hview] at haccount
    obtain ⟨filedAt, -, hrow⟩ := haccount
    have hlamport : payloadLamport old.bundle.payload = some old.lamport :=
      (validLamport_eq_some_iff.mp old.valid).2
    rw [hrow, Store.isStale, storedLamport, Option.bind_some]
    change (payloadLamport old.bundle.payload).any _ = _
    rw [hlamport, Option.any_some, Option.all_some, ← decide_not, decide_eq_decide, UInt64.not_lt]

/-- What a move does to the tables. -/
def Move.effect : Move C keys → Effect C
  | .publishKeyPackage k => .keypackage k.bundle
  | .publishAccount a => .account a.bundle
  | .fetchKeyPackage | .fetchAccount => .nothing

theorem effect_request (hHex : C.HexLaws) (hBase64 : C.Base64Laws) (move : Move C keys) :
    move.request.effect C = move.effect := by
  rcases move with k | _ | a | _
  · have hdecode := decode_publishKeyPackage hHex hBase64 k
    simp only [Move.request, Request.effect, SubmitKeyPackageRequest.decode, hdecode,
      submissionEffect, Move.effect]
  · rfl
  · have hdecode := decode_publishAccount hHex hBase64 a
    simp only [Move.request, Request.effect, SubmitAccountRequest.decode, hdecode,
      submissionEffect, Move.effect]
  · rfl

/-- The server answers a move as the client expects. -/
theorem OnFile.expects (hHex : C.HexLaws) (hBase64 : C.Base64Laws) (h : OnFile start times v s)
    (move : Move C keys) (hlater : ∀ t ∈ times, ∀ t' ∈ move.stamps now, t < t') :
    v.Expects start move (serve C s ⟨now, move.request⟩).2 := by
  rcases move with k | _ | a | _
  · have hdecode := decode_publishKeyPackage hHex hBase64 k
    have hfree := h.not_stampTaken fun t ht ↦ hlater t ht _ (List.mem_singleton_self _)
    have hok : (applyKeypackage C now k.bundle s).2 = .ok () :=
      applyKeypackage_eq_ok_iff.mpr ⟨k.authentic, k.keyHex ▸ hfree⟩
    simp only [View.Expects, Move.request, serve, submitKeyPackage,
      SubmitKeyPackageRequest.decode, hdecode, thenApply, hok, answer]
  · have hfiled := h.keypackage
    rw [View.Expects]
    simp only [Move.request, serve, fetchKeyPackage, latest]
    rcases hview : v.keypackage with _ | k
    · rw [hview] at hfiled
      rw [hfiled]
      rfl
    · rw [hview] at hfiled
      obtain ⟨filedAt, -, -, hrow⟩ := hfiled
      rw [hrow]
      rfl
  · have hdecode := decode_publishAccount hHex hBase64 a
    have hverdict : (applyAccount C now a.bundle s).2
        = if v.accepts a then .ok () else .error .stale := by
      rw [applyAccount_of_validLamport now s a.valid, a.keyHex, h.isStale]
      rcases v.accepts a
      · rfl
      · rfl
    simp only [View.Expects, Move.request, serve, submitAccount, SubmitAccountRequest.decode,
      hdecode, thenApply, hverdict]
    rcases v.accepts a
    · rfl
    · rfl
  · have hfiled := h.account
    rw [View.Expects]
    simp only [Move.request, serve, fetchAccount, getAccount]
    rcases hview : v.account with _ | a
    · rw [hview] at hfiled
      rw [hfiled]
      rfl
    · rw [hview] at hfiled
      obtain ⟨filedAt, hstart, hrow⟩ := hfiled
      rw [hrow]
      exact ⟨stamp filedAt, hstart, rfl⟩

/-- The view depends on two rows. -/
theorem OnFile.congr {s' : Tables} (h : OnFile start times v s)
    (hnewest : newestRow (C.hexEncode keys.device) s' = newestRow (C.hexEncode keys.device) s)
    (haccount : accountRow (C.hexEncode keys.account) s'
      = accountRow (C.hexEncode keys.account) s) : OnFile start times v s' where
  keypackage := hnewest ▸ h.keypackage
  account := haccount ▸ h.account

/-- A move leaves the view right. -/
theorem OnFile.move (hHex : C.HexLaws) (hBase64 : C.Base64Laws) (h : OnFile start times v s)
    (move : Move C keys) (hstart : move.request.isWrite = true → start ≤ stamp now)
    (hlater : ∀ t ∈ times, ∀ t' ∈ move.stamps now, t < t') :
    OnFile start (times ++ move.stamps now) (v.after move) (serve C s ⟨now, move.request⟩).1 := by
  have hnewest := newestRow_serve (C := C) (C.hexEncode keys.device) s ⟨now, move.request⟩
  have haccount := accountRow_serve (C := C) (C.hexEncode keys.account) s ⟨now, move.request⟩
  rw [effect_request hHex hBase64] at hnewest haccount
  rcases move with k | _ | a | _
  · have hold : ∀ m ∈ newestRow (C.hexEncode keys.device) s,
        m.receivedAt < (insertedRow now (C.hexEncode keys.device)
          ⟨k.bundle.payload, k.bundle.signature⟩).receivedAt :=
      fun m hm ↦ hlater _ (h.receivedAt hm).2 _ (List.mem_singleton_self _)
    rw [Move.effect, Effect.onNewestRow, if_pos ⟨k.keyHex, k.authentic⟩,
      offer_of_lt hold] at hnewest
    refine ⟨⟨now, hstart rfl, List.mem_append_right _ (List.mem_singleton_self _), hnewest⟩, ?_⟩
    rw [haccount]
    exact h.account
  · rw [Move.stamps, List.append_nil]
    exact h.congr hnewest haccount
  · have hstale := h.isStale a
    simp only [Move.effect, Effect.onAccountRow, a.valid, a.keyHex, true_and, hstale] at haccount
    rw [Move.stamps, List.append_nil, View.after]
    rcases haccepts : v.accepts a
    · rw [haccepts] at haccount
      exact h.congr hnewest haccount
    · rw [haccepts] at haccount
      refine ⟨?_, ⟨now, hstart rfl, haccount⟩⟩
      rw [hnewest]
      exact h.keypackage
  · rw [Move.stamps, List.append_nil]
    exact h.congr hnewest haccount

/-! ### The events of others -/

variable (C keys) in
/-- The event leaves alone what was filed under the keys since `start`. -/
def Event.LeavesAlone (start : ℤ) (e : Event) : Prop :=
  match e.request.effect C with
  | .keypackage b => b.authentic C = true → b.key ≠ keys.device
  | .account b => b.authentic C = true → b.key ≠ keys.account
  | .pruneKeyPackages _ retention | .pruneAccounts retention => cutoffMs e.now retention ≤ start
  | .nothing | .accountLog _ _ => True

/-- A prune that does not reach back so far keeps the row. -/
theorem filter_of_le {β : Type} {row : Option β} {filedAt : β → ℤ} {cutoff : ℤ}
    (h : ∀ r ∈ row, cutoff ≤ filedAt r) :
    row.filter (fun r ↦ !decide (filedAt r < cutoff)) = row := by
  rcases row with _ | r
  · rfl
  · exact Option.filter_some_pos (by simpa using h r rfl)

theorem OnFile.other (hHex : C.HexLaws) (h : OnFile start times v s) {e : Event}
    (hcapped : e.request.Capped) (halone : e.LeavesAlone C keys start) :
    OnFile start times v (serve C s e).1 := by
  have hnewest := newestRow_serve (C := C) (C.hexEncode keys.device) s e
  have haccount := accountRow_serve (C := C) (C.hexEncode keys.account) s e
  have hhex : ∀ {b : Bundle} {key : FixedBytes 32}, b.key ≠ key →
      b.keyHex C ≠ C.hexEncode key := fun hne heq ↦
    hne (Subtype.ext (hHex.encode_injective heq))
  rw [Event.LeavesAlone] at halone
  rcases heffect : e.request.effect C with _ | b | b | ⟨addr, signed⟩ | ⟨cap, retention⟩ | retention
  all_goals rw [heffect] at hnewest haccount halone
  case nothing | accountLog => exact h.congr hnewest haccount
  case keypackage =>
    rw [Effect.onNewestRow, if_neg fun hc ↦ hhex (halone hc.2) hc.1] at hnewest
    exact h.congr hnewest haccount
  case account =>
    refine h.congr hnewest ?_
    rw [haccount, Effect.onAccountRow]
    rcases hvalid : b.validLamport C with _ | lamport
    · rfl
    · exact if_neg fun hc ↦ hhex (halone (validLamport_eq_some_iff.mp hvalid).1) hc.1
  case pruneKeyPackages =>
    obtain ⟨now, request⟩ := e
    obtain rfl := request_of_pruneKeyPackages heffect
    refine h.congr ?_ haccount
    rw [hnewest, Effect.onNewestRow, if_pos (show 1 ≤ asI64 cap from hcapped)]
    exact filter_of_le fun r hr ↦ halone.trans (h.receivedAt hr).1
  case pruneAccounts =>
    refine h.congr hnewest ?_
    rw [haccount, Effect.onAccountRow]
    exact filter_of_le fun r hr ↦ halone.trans (h.updatedAt hr)

end Events

/-! ## A run of the server -/

section Runs

variable {C : Crates} {keys : Keys} {ι : Type} [DecidableEq ι] {start : ℤ} {s : Tables}
  {labels : List (Frontend.Label Served SystemTime ι)} {worker : ι → Option ℕ}
  {script : List (Move C keys)}

/-- When the keypackages of a client took effect. -/
def keyPackageStamps (worker : ι → Option ℕ)
    (hist : List (Frontend.Entry SystemTime ι Served)) : List ℤ :=
  hist.flatMap fun x ↦ match worker x.1, x.2.2.val with
    | some _, .submitKeyPackage _ => [stamp x.2.1]
    | _, _ => []

/-- A client makes the moves of its script in a run of the server. -/
structure Session (s : Tables) (labels : List (Frontend.Label Served SystemTime ι))
    (worker : ι → Option ℕ) (script : List (Move C keys)) (start : ℤ) : Prop where
  /-- Nothing is on file under the keys. -/
  fresh : newestRow (C.hexEncode keys.device) s = none ∧
    accountRow (C.hexEncode keys.account) s = none
  /-- The client waits for each answer before it goes on. -/
  waits : Frontend.Sequential (storeLock C.log) (fun request : Served ↦ request.val.plan C) worker s
    labels
  moves : ∀ t request k, .receive t request ∈ labels → worker t = some k →
    ∃ move, script[k]? = some move ∧ request.val = move.request
  /-- Everybody else leaves alone what the client files. -/
  others : ∀ x ∈ serverHistory C s labels, worker x.1 = none →
    Event.LeavesAlone C keys start ⟨x.2.1, x.2.2.val⟩
  /-- What the client publishes takes effect after `start`. -/
  started : ∀ x ∈ serverHistory C s labels, worker x.1 ≠ none → x.2.2.val.isWrite = true →
    start ≤ stamp x.2.1
  /-- From one keypackage of the client to the next the clock moves on. -/
  ticks : (keyPackageStamps worker (serverHistory C s labels)).Pairwise (· < ·)

omit [DecidableEq ι] in
theorem keyPackageStamps_append (hist hist' : List (Frontend.Entry SystemTime ι Served)) :
    keyPackageStamps worker (hist ++ hist')
      = keyPackageStamps worker hist ++ keyPackageStamps worker hist' := List.flatMap_append ..

omit [DecidableEq ι] in
theorem keyPackageStamps_move {x : Frontend.Entry SystemTime ι Served} {k : ℕ}
    (hk : worker x.1 = some k) {move : Move C keys} (hrequest : x.2.2.val = move.request) :
    keyPackageStamps worker [x] = move.stamps x.2.1 := by
  rw [keyPackageStamps, List.flatMap_singleton, hk, hrequest]
  rcases move with _ | _ | _ | _
  all_goals rfl

/-- The requests of a client that waits for its answers take effect in their order. -/
theorem places_of_waits (hwaits : Frontend.Sequential (storeLock C.log)
      (fun request : Served ↦ request.val.plan C) worker s labels) (huncut : PrunesUncut labels) :
    ∃ m, Frontend.places worker (serverHistory C s labels) = List.range m := by
  obtain ⟨m, hm, -⟩ := Frontend.places_of_sequential (fun past hpast ↦
    Frontend.linearises implements_requests s past (huncut.uncut.mono hpast)) hwaits
  exact ⟨m, hm⟩

/-- What is known of a move at its place in the history. -/
theorem Session.place (h : Session s labels worker script start) (huncut : PrunesUncut labels)
    {before later : List (Frontend.Entry SystemTime ι Served)}
    {x : Frontend.Entry SystemTime ι Served}
    (hsplit : serverHistory C s labels = before ++ x :: later) {k : ℕ} (hk : worker x.1 = some k) :
    ∃ move, script[k]? = some move ∧ x.2.2.val = move.request ∧
      (Frontend.places worker before).length = k ∧
      ∀ t ∈ keyPackageStamps worker before, ∀ t' ∈ move.stamps x.2.1, t < t' := by
  obtain ⟨m, hm⟩ := places_of_waits h.waits huncut
  obtain ⟨move, hmove, hrequest⟩ := h.moves x.1 x.2.2 k
    ((huncut.accounts s).received x (by rw [hsplit]; simp)) hk
  refine ⟨move, hmove, hrequest, ?_, ?_⟩
  · rw [Frontend.places_before (hsplit ▸ hm) hk, List.length_range]
  · have hticks := h.ticks
    rw [hsplit, ← List.singleton_append, ← List.append_assoc, keyPackageStamps_append,
      keyPackageStamps_append, keyPackageStamps_move hk hrequest] at hticks
    exact (List.pairwise_append.mp (List.pairwise_append.mp hticks).1).2.2

/-- At every moment the client's reckoning is right. -/
theorem Session.filed (hHex : C.HexLaws) (hBase64 : C.Base64Laws)
    (h : Session s labels worker script start) (huncut : PrunesUncut labels)
    {before later : List (Frontend.Entry SystemTime ι Served)}
    (hsplit : serverHistory C s labels = before ++ later) :
    OnFile start (keyPackageStamps worker before)
      (viewAfter (script.take (Frontend.places worker before).length))
      ((service C).run s (eventsOf before)) := by
  induction before using List.reverseRecOn generalizing later with
  | nil => exact ⟨h.fresh.1, h.fresh.2⟩
  | append_singleton past x ih =>
    rw [List.append_assoc, List.singleton_append] at hsplit
    have hfiled := ih hsplit
    have hx : x ∈ serverHistory C s labels := by rw [hsplit]; simp
    have hrun : (service C).run s (eventsOf (past ++ [x]))
        = (serve C ((service C).run s (eventsOf past)) ⟨x.2.1, x.2.2.val⟩).1 := by
      rw [eventsOf, List.map_append, List.map_singleton]
      exact (service C).run_concat ..
    rw [hrun]
    rcases hk : worker x.1 with _ | k
    · have hstamps : keyPackageStamps worker (past ++ [x]) = keyPackageStamps worker past := by
        rw [keyPackageStamps_append, keyPackageStamps, keyPackageStamps, List.flatMap_singleton, hk,
          List.append_nil]
      have hplaces : Frontend.places worker (past ++ [x]) = Frontend.places worker past := by
        rw [Frontend.places_concat, hk, Option.toList_none, List.append_nil]
      rw [hstamps, hplaces]
      exact hfiled.other hHex x.2.2.property (h.others x hx hk)
    · obtain ⟨move, hmove, hrequest, hlength, hlater⟩ := h.place huncut hsplit hk
      have hstamps : keyPackageStamps worker (past ++ [x])
          = keyPackageStamps worker past ++ move.stamps x.2.1 := by
        rw [keyPackageStamps_append, keyPackageStamps_move hk hrequest]
      have hview : viewAfter (script.take (Frontend.places worker (past ++ [x])).length)
          = (viewAfter (script.take k)).after move := by
        rw [Frontend.places_concat, hk, List.length_append, hlength, Option.toList_some,
          List.length_singleton, List.take_add_one, hmove, Option.toList_some, viewAfter_concat]
      rw [hlength] at hfiled
      rw [hstamps, hview, hrequest]
      refine hfiled.move hHex hBase64 move (fun hwrite ↦ ?_) hlater
      exact h.started x hx (by simp [hk]) (hrequest ▸ hwrite)

/-- The answer to each move of a client is what it expects. -/
theorem Session.predicts (hHex : C.HexLaws) (hBase64 : C.Base64Laws)
    (h : Session s labels worker script start) (huncut : PrunesUncut labels) {t : ι} {k : ℕ}
    (hk : worker t = some k) {response : Response C}
    (hresponse : responseOf (serverAfter C s labels) t = some response) :
    ∃ move, script[k]? = some move ∧
      (viewAfter (script.take k)).Expects start move response := by
  obtain ⟨before, request, now, later, hsplit, rfl⟩ :=
    (huncut.accounts s).response t response hresponse
  obtain ⟨move, hmove, hrequest, hlength, hlater⟩ :=
    h.place huncut (x := (t, now, request)) hsplit hk
  have hfiled := h.filed hHex hBase64 huncut hsplit
  rw [hlength] at hfiled
  refine ⟨move, hmove, ?_⟩
  rw [show request.val = move.request from hrequest]
  exact hfiled.expects hHex hBase64 move hlater

end Runs

namespace Reference

/-- A client that publishes a keypackage and reads it back, while one of another device comes in
over the network. -/
def readBack : List (Frontend.Label Served SystemTime ℕ) :=
  [.receive 0 ⟨postKeyPackage keyPackageA, trivial⟩,
    .receive 1 ⟨deliverKeyPackage otherKeyPackage, trivial⟩, .lock 1 1000000, .advance, .advance,
    .lock 0 2000000, .advance, .advance,
    .receive 2 ⟨.fetchKeyPackage (Hex.encode publicKey.val), trivial⟩, .select 2]

/-- The client makes the first and the third request. -/
def reader (t : ℕ) : Option ℕ := if t = 0 then some 0 else if t = 2 then some 1 else none

def ownKeys : Keys := ⟨publicKey, publicKey⟩

def ownKeyPackage : OwnKeyPackage crates ownKeys := ⟨keyPackageA, rfl, by decide +kernel⟩

theorem history_readBack : serverHistory crates Tables.empty readBack
    = [(1, 1000000, ⟨deliverKeyPackage otherKeyPackage, trivial⟩),
      (0, 2000000, ⟨postKeyPackage keyPackageA, trivial⟩),
      (2, default, ⟨.fetchKeyPackage (Hex.encode publicKey.val), trivial⟩)] := by
  decide +kernel

/-- The second request of the client comes when the first is answered. -/
theorem waits_readBack : Frontend.Sequential (storeLock crates.log)
    (fun request : Served ↦ request.val.plan crates) reader Tables.empty readBack where
  inj t u k ht hu := by
    simp only [reader] at ht hu
    split_ifs at ht hu
    all_goals grind
  inTurn past t r k hpast ht j hj := by
    obtain ⟨rfl, rfl, rfl⟩ : t = 2 ∧ k = 1 ∧ j = 0 := by
      simp only [reader] at ht
      split_ifs at ht
      all_goals grind
    obtain ⟨rest, hrest⟩ := hpast
    have hlt : past.length < 10 := by
      have hlength := congrArg List.length hrest
      simp [readBack] at hlength
      omega
    have hplace (i : ℕ) (hi : i < 10)
        (hget : readBack[i]? = some (Frontend.Label.receive 2 r)) : i = 8 := by
      revert hget
      interval_cases i
      all_goals simp [readBack]
    have hpast : past = readBack.take 8 := by
      have hget : readBack[past.length]? = some (.receive 2 r) := by
        rw [← hrest, List.append_assoc, List.getElem?_append_right le_rfl, Nat.sub_self]
        rfl
      rw [← hplace _ hlt hget, ← hrest, List.append_assoc, List.take_left]
    have hanswered : (responseOf (serverAfter crates Tables.empty (readBack.take 8)) 0).isSome
        = true := by decide +kernel
    obtain ⟨response, hresponse⟩ := Option.isSome_iff_exists.mp hanswered
    rw [hpast]
    exact ⟨0, rfl, response, hresponse⟩

/-- What the client does. -/
def ownScript : List (Move crates ownKeys) := [.publishKeyPackage ownKeyPackage, .fetchKeyPackage]

theorem session_readBack : Session Tables.empty readBack reader ownScript 1 where
  fresh := ⟨rfl, rfl⟩
  waits := waits_readBack
  moves t request k hreceive hk := by
    have hcases : (t, request) = (0, ⟨postKeyPackage keyPackageA, trivial⟩) ∨
        (t, request) = (1, ⟨deliverKeyPackage otherKeyPackage, trivial⟩) ∨
        (t, request) = (2, ⟨.fetchKeyPackage (Hex.encode publicKey.val), trivial⟩) := by
      simpa [readBack] using hreceive
    obtain h | h | h := hcases
    · obtain ⟨rfl, rfl⟩ := Prod.mk.inj h
      obtain rfl := Option.some.inj hk
      exact ⟨_, rfl, rfl⟩
    · obtain ⟨rfl, rfl⟩ := Prod.mk.inj h
      exact absurd hk (by simp [reader])
    · obtain ⟨rfl, rfl⟩ := Prod.mk.inj h
      obtain rfl := Option.some.inj hk
      exact ⟨_, rfl, rfl⟩
  others x hx hk := by
    rw [history_readBack] at hx
    obtain rfl | rfl | rfl : x = _ ∨ x = _ ∨ x = _ := by simpa using hx
    · rw [Event.LeavesAlone, effect_deliverKeyPackage]
      exact fun _ ↦ by decide
    · simp [reader] at hk
    · simp [reader] at hk
  started x hx hk hwrite := by
    rw [history_readBack] at hx
    obtain rfl | rfl | rfl : x = _ ∨ x = _ ∨ x = _ := by simpa using hx
    · exact absurd rfl hk
    · decide +kernel
    · exact absurd hwrite (by simp [Request.isWrite])
  ticks := by
    rw [history_readBack]
    exact List.pairwise_singleton _ _

theorem uncut_readBack : PrunesUncut readBack :=
  fun _ _ hcancel ↦ absurd hcancel (by simp [readBack])

theorem answered_readBack :
    (responseOf (serverAfter crates Tables.empty readBack) 2).isSome = true := by
  decide +kernel

end Reference

end ChatStore
