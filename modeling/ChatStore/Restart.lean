import ChatStore.AppendOnly
import ChatStore.Library.Restart
import ChatStore.Process

/-!
# The process over its database file

A database file outlives the process that serves it. A process ends when it is killed, and also when
it shuts down: `main` then waits for the open HTTP requests, but the ingest thread and the prune
task are dropped where they stand. The next process finds what was committed, and everything else is
gone: the queue of the delivery node, the tasks and whoever held the write lock.

`restarts_recover` says what a chain of such lives amounts to: one run of the service over one
database, in which a prune of keypackages may be missing its second statement. Every answer that
was given in any life is the answer of that run, and what was answered before a request arrived
comes before it.
-/

namespace ChatStore

open Library Store Concurrent

/-! ## Lives -/

/-- A life of the process: how it was started, and what happened until it ended. -/
structure Life where
  settings : PruneSettings
  labels : List Process.Label

/-- A task of some life. -/
abbrev Place := ℕ × Task

variable (C : Crates)

/-- The process of a life, after some of its labels. -/
def Life.process (s : Tables) (life : Life) (labels : List Process.Label) : Process C :=
  Process.after C life.settings s labels

/-- The database after a chain of lives. -/
def databaseAfter (s : Tables) (lives : List Life) : Tables :=
  lives.foldl (fun s life ↦ (life.process C s life.labels).server.mutex.shared) s

/-- The database that a life finds. -/
def databaseOf (s : Tables) (lives : List Life) (i : ℕ) : Tables := databaseAfter C s (lives.take i)

/-- The request that a task serves. -/
def requestIn (s : Tables) (lives : List Life) (p : Place) : Option Request :=
  lives[p.1]?.bind fun life ↦
    ((life.process C (databaseOf C s lives p.1) life.labels).server.request p.2).map Subtype.val

/-- The response that it gave. -/
def responseIn (s : Tables) (lives : List Life) (p : Place) : Option (Response C) :=
  lives[p.1]?.bind fun life ↦
    responseOf (life.process C (databaseOf C s lives p.1) life.labels).server p.2

/-- The first request was answered before the second arrived. -/
def Precedes (s : Tables) (lives : List Life) (p q : Place) : Prop :=
  p.1 < q.1 ∧ (responseIn C s lives p).isSome = true ∨
  p.1 = q.1 ∧ ∃ life past, lives[p.1]? = some life ∧ past <+: life.labels ∧
    (responseOf (life.process C (databaseOf C s lives p.1) past).server p.2).isSome = true ∧
    (life.process C (databaseOf C s lives p.1) past).server.request q.2 = none

/-! ## Steps -/

/-- An event that was handled, or one whose process ended after its first statement. -/
inductive Step
  | event (e : Event)
  | interrupted (e : Event)

def Step.input : Step → Event
  | .event e | .interrupted e => e

/-- The service, with prunes of keypackages that may be interrupted. -/
def durable : Machine Tables Step (Option (Response C)) where
  step s
    | .event e => ((serve C s e).1, some (serve C s e).2)
    | .interrupted ⟨now, .pruneKeyPackages _ retention⟩ => (deleteExpired now retention s, none)
    | .interrupted _ => (s, none)

/-- The log accounts for a chain of lives over the database `s`. -/
structure Recovers (s : Tables) (lives : List Life) (log : List (Place × Step)) : Prop where
  /-- Run one at a time, the steps lead to the database as it is. -/
  tables : (durable C).run s (log.map Prod.snd) = databaseAfter C s lives
  /-- Every response of any life is the service's answer, at the place of the request in the log. -/
  response : ∀ p response, responseIn C s lives p = some response →
    ∃ before now request later, log = before ++ (p, .event ⟨now, request⟩) :: later ∧
      response = (serve C ((durable C).run s (before.map Prod.snd)) ⟨now, request⟩).2
  /-- No task has two steps. -/
  nodup : (log.map Prod.fst).Nodup
  /-- The steps of a life are about its history. -/
  histories : ∀ i life, lives[i]? = some life →
    (log.filter fun x ↦ x.1.1 = i).map (fun x ↦ (x.1.2, x.2.input))
      = (Process.history C life.settings (databaseOf C s lives i) life.labels).map
        fun x ↦ (x.1, ⟨x.2.1, x.2.2.val⟩)
  /-- A step is about the request of its task. -/
  request : ∀ x ∈ log, requestIn C s lives x.1 = some x.2.input.request
  /-- What was answered before a request arrived comes before it. -/
  order : ∀ p q, Precedes C s lives p q → ∀ before step later,
    log = before ++ (q, step) :: later → p ∈ before.map Prod.fst
  /-- Only a prune of keypackages can be interrupted. -/
  interrupted : ∀ p e, (p, .interrupted e) ∈ log →
    ∃ maxPerIdentity retention, e.request = .pruneKeyPackages maxPerIdentity retention

/-- The messages of a life that have taken effect. -/
def messagesIn (log : List (Place × Step)) (i : ℕ) : List Request :=
  (log.filter fun x ↦ x.1.1 = i).filterMap fun x ↦ x.1.2.ingest?.map fun _ ↦ x.2.input.request

variable {C}

/-! ## The lives of the server -/

variable (C) in
/-- What the lives hand to their servers. -/
def serverLives : Tables → List Life → List (List Process.ServerLabel)
  | _, [] => []
  | s, life :: lives =>
    Process.forwarded C life.settings s life.labels ::
      serverLives (life.process C s life.labels).server.mutex.shared lives

theorem server_process (s : Tables) (life : Life) (labels : List Process.Label) :
    (life.process C s labels).server
      = serverAfter C s (Process.forwarded C life.settings s labels) :=
  Process.server_after s labels

theorem survivors_serverLives (s : Tables) (lives : List Life) :
    Frontend.survivors (storeLock C.log) (fun request : Served ↦ request.val.plan C) s
      (serverLives C s lives) = databaseAfter C s lives := by
  induction lives generalizing s with
  | nil => rfl
  | cons life lives ih =>
    rw [serverLives, Frontend.survivors, List.foldl_cons, ← Frontend.survivors, databaseAfter,
      List.foldl_cons, ← databaseAfter, ← ih, server_process]
    rfl

theorem take_serverLives (s : Tables) (lives : List Life) (i : ℕ) :
    (serverLives C s lives).take i = serverLives C s (lives.take i) := by
  induction lives generalizing s i with
  | nil => rw [serverLives, List.take_nil, List.take_nil, serverLives]
  | cons life lives ih =>
    rcases i with _ | i
    · rfl
    · rw [serverLives, List.take_succ_cons, List.take_succ_cons, serverLives, ih]

theorem getElem?_serverLives (s : Tables) (lives : List Life) (i : ℕ) :
    (serverLives C s lives)[i]? = lives[i]?.map fun life ↦
      Process.forwarded C life.settings (databaseOf C s lives i) life.labels := by
  induction lives generalizing s i with
  | nil => rfl
  | cons life lives ih =>
    rcases i with _ | i
    · rfl
    · rw [serverLives, List.getElem?_cons_succ, List.getElem?_cons_succ, ih]
      rfl

/-- The server of a life. -/
theorem serverOf_serverLives {s : Tables} {lives : List Life} {i : ℕ} {life : Life}
    (labels : List Process.Label) :
    Frontend.serverOf (storeLock C.log) (fun request : Served ↦ request.val.plan C) s
        (serverLives C s lives) i
        (Process.forwarded C life.settings (databaseOf C s lives i) labels)
      = (life.process C (databaseOf C s lives i) labels).server := by
  rw [Frontend.serverOf, take_serverLives, survivors_serverLives, server_process]
  rfl

theorem requestIn_serverLives (s : Tables) (lives : List Life) (p : Place) :
    (Frontend.requestIn (storeLock C.log) (fun request : Served ↦ request.val.plan C) s
      (serverLives C s lives) p).map Subtype.val = requestIn C s lives p := by
  rw [Frontend.requestIn, getElem?_serverLives, requestIn]
  rcases lives[p.1]? with _ | life
  · rfl
  · rw [Option.map_some, Option.bind_some, Option.bind_some, serverOf_serverLives]

theorem answerIn_serverLives (s : Tables) (lives : List Life) (p : Place) :
    Frontend.answerIn (storeLock C.log) (fun request : Served ↦ request.val.plan C) s
      (serverLives C s lives) p = responseIn C s lives p := by
  rw [Frontend.answerIn, getElem?_serverLives, responseIn]
  rcases lives[p.1]? with _ | life
  · rfl
  · rw [Option.map_some, Option.bind_some, Option.bind_some, serverOf_serverLives]
    rfl

theorem Precedes.serverLives {s : Tables} {lives : List Life} {p q : Place}
    (h : Precedes C s lives p q) :
    Frontend.Precedes (storeLock C.log) (fun request : Served ↦ request.val.plan C) s
      (ChatStore.serverLives C s lives) p q := by
  rcases h with ⟨hlt, hanswered⟩ | ⟨heq, life, past, hlife, hpast, hanswered, hnone⟩
  · exact Or.inl ⟨hlt, by rw [answerIn_serverLives]; exact hanswered⟩
  · refine Or.inr ⟨heq, _, Process.forwarded C life.settings (databaseOf C s lives p.1) past, ?_,
      Process.forwarded_mono hpast, ?_, ?_⟩
    · rw [getElem?_serverLives, hlife]
      rfl
    · rw [serverOf_serverLives]
      exact hanswered
    · rw [serverOf_serverLives]
      exact hnone

theorem uncut_serverLives (s : Tables) (lives : List Life) :
    ∀ labels ∈ serverLives C s lives, Frontend.Uncut (storeLock C.log)
      (fun request : Served ↦ request.val.plan C) labels := by
  intro labels hlabels
  obtain ⟨i, hi⟩ := List.mem_iff_getElem?.mp hlabels
  rw [getElem?_serverLives] at hi
  obtain ⟨life, -, rfl⟩ := Option.map_eq_some_iff.mp hi
  exact (Process.prunesUncut _ _ _).uncut

/-! ## The log -/

/-- A deed as a step. -/
def stepOf : Frontend.Deed SystemTime Place Served → Place × Step
  | .whole x => (x.1, .event ⟨x.2.1, x.2.2.val⟩)
  | .cut x _ => (x.1, .interrupted ⟨x.2.1, x.2.2.val⟩)

theorem fst_stepOf (d : Frontend.Deed SystemTime Place Served) : (stepOf d).1 = d.entry.1 := by
  rcases d with x | ⟨x, n⟩
  · rfl
  · rfl

theorem input_stepOf (d : Frontend.Deed SystemTime Place Served) :
    (stepOf d).2.input = ⟨d.entry.2.1, d.entry.2.2.val⟩ := by
  rcases d with x | ⟨x, n⟩
  · rfl
  · rfl

/-- Only a prune of keypackages takes more than one statement. -/
theorem pruneKeyPackages_of_cut {request : Request} {c : Call C.log} {now : SystemTime}
    {f : Answer C.log → Response C} (hplan : request.plan C = .call c f) {n : ℕ} (hpos : 0 < n)
    (hlt : n < (c.ops now).length) : ∃ maxPerIdentity retention,
      request = .pruneKeyPackages maxPerIdentity retention ∧ n = 1 ∧
        (c.ops now).take n = [.deleteExpired now retention] := by
  by_cases hprune : ∃ maxPerIdentity retention,
      request = .pruneKeyPackages maxPerIdentity retention
  · obtain ⟨maxPerIdentity, retention, rfl⟩ := hprune
    obtain ⟨rfl, -⟩ := Plan.call.inj hplan
    obtain rfl : n = 1 := by
      have hlength : (Call.ops (A := C.log) (.pruneKeyPackages maxPerIdentity retention)
        now).length = 2 := rfl
      omega
    exact ⟨maxPerIdentity, retention, rfl, rfl, rfl⟩
  · have hsingle : Single (request.plan C) := single_plan fun maxPerIdentity retention heq ↦
      hprune ⟨maxPerIdentity, retention, heq⟩
    obtain ⟨op, hops⟩ := hsingle c f hplan now
    rw [hops, List.length_singleton] at hlt
    omega

/-- A deed does what its step does. -/
theorem step_stepOf (s : Tables) {d : Frontend.Deed SystemTime Place Served}
    (hcut : ∀ x n, d = .cut x n → ∃ c answer, x.2.2.val.plan C = .call c answer ∧ 0 < n ∧
      n < (c.ops x.2.1).length) :
    (durable C).step s (stepOf d).2 = (Frontend.deeds (storeLock C.log)
      (fun request : Served ↦ request.val.plan C) (requests C) Place).step s d := by
  rcases d with x | ⟨x, n⟩
  · rfl
  · obtain ⟨c, f, hplan, hpos, hlt⟩ := hcut x n rfl
    obtain ⟨maxPerIdentity, retention, hrequest, -, hops⟩ := pruneKeyPackages_of_cut hplan hpos hlt
    have hdeed : (Frontend.deeds (storeLock C.log) (fun request : Served ↦ request.val.plan C)
        (requests C) Place).step s (.cut x n) = (deleteExpired x.2.1 retention s, none) := by
      rw [Frontend.deeds]
      dsimp only
      rw [hplan]
      dsimp only
      rw [show (storeLock C.log).ops c x.2.1 = c.ops x.2.1 from rfl, hops]
      rfl
    rw [hdeed, stepOf, hrequest]
    rfl

theorem run_stepOf (s : Tables) {log : List (Frontend.Deed SystemTime Place Served)}
    (hcut : ∀ x n, .cut x n ∈ log → ∃ c answer, x.2.2.val.plan C = .call c answer ∧ 0 < n ∧
      n < (c.ops x.2.1).length) :
    (durable C).run s ((log.map stepOf).map Prod.snd) = (Frontend.deeds (storeLock C.log)
      (fun request : Served ↦ request.val.plan C) (requests C) Place).run s log := by
  induction log generalizing s with
  | nil => rfl
  | cons d log ih =>
    rw [List.map_cons, List.map_cons, Machine.run_cons, Machine.run_cons,
      step_stepOf s fun x n hd ↦ hcut x n (hd ▸ List.mem_cons_self)]
    exact ih _ fun x n hmem ↦ hcut x n (List.mem_cons_of_mem d hmem)

theorem exists_recovers (s : Tables) (lives : List Life) : ∃ log, Recovers C s lives log := by
  obtain ⟨log, hrec⟩ := Frontend.recovers (implements_requests (C := C)) s (serverLives C s lives)
    (uncut_serverLives s lives)
  refine ⟨log.map stepOf, ?_, fun p response hresponse ↦ ?_, ?_, fun i life hlife ↦ ?_,
    fun x hx ↦ ?_, fun p q hpq before step later hsplit ↦ ?_, fun p e hmem ↦ ?_⟩
  · rw [run_stepOf s hrec.cut, hrec.state, survivors_serverLives]
  · obtain ⟨e, he, ⟨x, hinput, rfl⟩, hout⟩ :=
      hrec.answered p response (by rw [answerIn_serverLives]; exact hresponse)
    obtain ⟨before, later, rfl, hentry⟩ := Machine.exists_place_of_mem_trace _ he
    refine ⟨before.map stepOf, x.2.1, x.2.2.val, later.map stepOf, ?_, ?_⟩
    · rw [List.map_append, List.map_cons, hinput]
      rfl
    · rw [run_stepOf s fun y n hy ↦ hrec.cut y n (List.mem_append_left _ hy)]
      rw [hentry, hinput] at hout
      exact (Option.some.inj hout).symm
  · rw [List.map_map]
    exact (List.map_congr_left fun d _ ↦ fst_stepOf d) ▸ hrec.nodup
  · have hi := hrec.histories i _ (by rw [getElem?_serverLives, hlife]; rfl)
    rw [take_serverLives, survivors_serverLives] at hi
    have hmapped := congrArg (List.map fun x ↦ (x.1, (⟨x.2.1, x.2.2.val⟩ : Event))) hi
    rw [List.map_map] at hmapped
    rw [List.filter_map, List.map_map]
    refine Eq.trans ?_ hmapped
    rw [List.filter_congr fun d _ ↦ by rw [Function.comp_apply, fst_stepOf]]
    exact List.map_congr_left fun d _ ↦ by simp [fst_stepOf, input_stepOf]
  · obtain ⟨d, hd, rfl⟩ := List.mem_map.mp hx
    rw [fst_stepOf, input_stepOf, ← requestIn_serverLives, hrec.request d hd]
    rfl
  · obtain ⟨first, rest, rfl, rfl, hmap⟩ := List.map_eq_append_iff.mp hsplit
    obtain ⟨d, more, rfl, hd, -⟩ := List.map_eq_cons_iff.mp hmap
    have hq : d.entry.1 = q := by rw [← fst_stepOf, hd]
    obtain ⟨d', hd', rfl⟩ := hrec.order p q hpq.serverLives first d more rfl hq
    exact List.mem_map.mpr ⟨stepOf d', List.mem_map_of_mem hd', fst_stepOf d'⟩
  · obtain ⟨d, hd, heq⟩ := List.mem_map.mp hmem
    rcases d with x | ⟨x, n⟩
    · exact absurd heq (by simp [stepOf])
    · obtain ⟨c, f, hplan, hpos, hlt⟩ := hrec.cut x n hd
      obtain ⟨maxPerIdentity, retention, hrequest, -⟩ := pruneKeyPackages_of_cut hplan hpos hlt
      obtain ⟨-, heq⟩ := Prod.mk.inj heq
      obtain rfl := Step.interrupted.inj heq
      exact ⟨maxPerIdentity, retention, hrequest⟩

/-- The messages of a life in the log are those of its history. -/
theorem Recovers.messagesIn {s : Tables} {lives : List Life} {log : List (Place × Step)}
    (hrec : Recovers C s lives log) {i : ℕ} {life : Life} (hlife : lives[i]? = some life) :
    messagesIn log i = Process.requestsOf Task.ingest?
      (Process.history C life.settings (databaseOf C s lives i) life.labels) := by
  have h := congrArg (List.filterMap fun x ↦ x.1.ingest?.map fun _ ↦ x.2.request)
    (hrec.histories i life hlife)
  rw [List.filterMap_map, List.filterMap_map] at h
  exact h

end ChatStore
