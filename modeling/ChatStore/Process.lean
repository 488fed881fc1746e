import ChatStore.PruneTask
import ChatStore.Server

/-!
# The process: HTTP, the delivery thread and the prune task

`main` runs three things over one store: a task for each HTTP request, the thread that takes
messages from the delivery node's queue, and the prune task. HTTP requests come in any number and a
client may go away at any moment. The thread and the prune task go on only when the store has
answered, so each of them has one request in flight at most.

## What reaches the store

The callback of the node keeps a message if it was received on one of the two topics and carries a
payload. `process_runs_service` says that the kept messages take effect in the order of their
arrival, each of them once, whatever the HTTP requests and the prunes do in between, and the same of
the two prunes of each tick.
-/

namespace ChatStore

open Library Concurrent

/-! ## The delivery node -/

def keypackageSubmitTopic : String := "/logos-chat/1/store-keypackage-v0/proto"

def accountSubmitTopic : String := "/logos-chat/1/store-account-v0/proto"

/-- An event of the delivery node. Only a received message matters to the store. -/
inductive NodeEvent
  | received (contentTopic : String) (payload : Option Bytes)
  | other

/-- A raw bundle taken off the wire. -/
inductive Received
  | keyPackage (bytes : Bytes)
  | account (bytes : Bytes)
  deriving DecidableEq

/-- The callback of the node. What it returns is put into the inbound queue. -/
def onEvent : NodeEvent → Option Received
  | .other => none
  | .received contentTopic payload =>
    if contentTopic = keypackageSubmitTopic then payload.map .keyPackage
    else if contentTopic = accountSubmitTopic then payload.map .account
    else none

/-- What the ingest thread does about a message. -/
def Received.request : Received → Request
  | .keyPackage bytes => .ingestKeypackage bytes
  | .account bytes => .ingestAccount bytes

theorem capped_request (received : Received) : received.request.Capped := by
  rcases received with bytes | bytes
  · exact trivial
  · exact trivial

/-! ## The prune task -/

/-- What `main` hands to the prune task. -/
structure PruneSettings where
  maxPerIdentity : UInt64
  retention : Duration
  capped : 1 ≤ asI64 maxPerIdentity

/-- The calls of the prune task, in order: both prunes of a tick, then those of the next. -/
def PruneSettings.call (settings : PruneSettings) (n : ℕ) : Request :=
  if n % 2 = 0 then .pruneKeyPackages settings.maxPerIdentity settings.retention
  else .pruneAccounts settings.retention

theorem PruneSettings.capped_call (settings : PruneSettings) (n : ℕ) :
    (settings.call n).Capped := by
  rw [call]
  split_ifs
  · exact settings.capped
  · exact trivial

/-! ## The process -/

/-- Requests that come over HTTP. -/
def Request.overHttp : Request → Bool
  | .submitKeyPackage _ | .fetchKeyPackage _ | .submitAccount _ | .fetchAccount _
  | .submitAccountLog _ _ | .fetchAccountLog _ => true
  | .ingestKeypackage _ | .ingestAccount _ | .pruneKeyPackages _ _ | .pruneAccounts _ => false

theorem capped_of_overHttp {request : Request} (h : request.overHttp = true) :
    request.Capped := by
  rcases request with _ | _ | _ | _ | _ | _ | _ | _ | _ | _
  all_goals first
    | exact trivial
    | exact absurd h (by simp [Request.overHttp])

/-- The tasks of the process: those of the HTTP requests, of the messages and of the prunes, each
kind numbered in the order in which they start. -/
inductive Task
  | http (n : ℕ)
  | ingest (n : ℕ)
  | prune (n : ℕ)
  deriving DecidableEq

def Task.ingest? : Task → Option ℕ
  | .ingest n => some n
  | _ => none

def Task.prune? : Task → Option ℕ
  | .prune n => some n
  | _ => none

variable (C : Crates)

abbrev ServerState := Frontend.State Tables (Call C.log) (Query C.log) (Op C.log) SystemTime
  (Answer C.log) Task Served

structure Process where
  server : ServerState C
  /-- The inbound queue of the delivery node. -/
  inbound : List Received
  /-- The number of messages the ingest thread has taken from the queue. -/
  taken : ℕ
  /-- The number of calls the prune task has made. -/
  pruned : ℕ

namespace Process

inductive Label
  | http (n : ℕ) (request : Request)
  | event (e : NodeEvent)
  /-- The ingest thread takes the next message. -/
  | take
  /-- The prune task makes its next call. -/
  | prune
  | lock (t : Task) (now : SystemTime)
  | advance
  | select (t : Task)
  /-- An HTTP client goes away. -/
  | disconnect (n : ℕ)

abbrev ServerLabel := Frontend.Label Served SystemTime Task

variable {C}

/-- The last of the calls made one after the other has been answered. -/
def answered (server : ServerState C) (task : ℕ → Task) : ℕ → Bool
  | 0 => true
  | n + 1 => (responseOf server (task n)).isSome

/-- The process hands labels to the server. -/
def send (p : Process C) (labels : List ServerLabel) : Process C × List ServerLabel :=
  ({ p with
      server := (Frontend.machine (storeLock C.log) fun request : Served ↦ request.val.plan C).run
        p.server labels }, labels)

variable (settings : PruneSettings)

/-- One step, and the labels it hands to the server. A label that is not enabled does nothing. -/
def step (p : Process C) : Label → Process C × List ServerLabel
  | .http n request =>
    if h : request.overHttp = true then
      p.send [.receive (.http n) ⟨request, capped_of_overHttp h⟩]
    else (p, [])
  | .event e => ({ p with inbound := p.inbound ++ (onEvent e).toList }, [])
  | .take =>
    match p.inbound with
    | [] => (p, [])
    | message :: rest =>
      if answered p.server .ingest p.taken then
        { p with inbound := rest, taken := p.taken + 1 }.send
          [.receive (.ingest p.taken) ⟨message.request, capped_request message⟩]
      else (p, [])
  | .prune =>
    if answered p.server .prune p.pruned then
      { p with pruned := p.pruned + 1 }.send
        [.receive (.prune p.pruned) ⟨settings.call p.pruned, settings.capped_call p.pruned⟩]
    else (p, [])
  | .lock t now => p.send [.lock t now]
  | .advance => p.send [.advance]
  | .select t => p.send [.select t]
  | .disconnect n => p.send [.cancel (.http n)]

variable (C) in
/-- The process under an arbitrary scheduler and an arbitrary environment. -/
def machine : Machine (Process C) Label (List ServerLabel) := ⟨step settings⟩

variable (C)

/-- The process after a run, started over the tables `s`. -/
def after (s : Tables) (labels : List Label) : Process C :=
  (machine C settings).run ⟨Frontend.State.initial s, [], 0, 0⟩ labels

/-- What a run hands to the server. -/
def forwarded (s : Tables) (labels : List Label) : List ServerLabel :=
  ((machine C settings).trace ⟨Frontend.State.initial s, [], 0, 0⟩ labels).flatMap
    Machine.Entry.output

/-- The requests of a run in the order in which they took effect. -/
def history (s : Tables) (labels : List Label) : List (Frontend.Entry SystemTime Task Served) :=
  serverHistory C s (forwarded C settings s labels)

/-- The message that a label brings. -/
def Label.message : Label → Option Received
  | .event e => onEvent e
  | _ => none

/-- The messages that the node has put into its queue. -/
def arrived (labels : List Label) : List Received := labels.filterMap Label.message

variable {C settings} {s : Tables}

theorem after_concat (past : List Label) (label : Label) :
    after C settings s (past ++ [label]) = (step settings (after C settings s past) label).1 :=
  Machine.run_concat ..

theorem forwarded_concat (past : List Label) (label : Label) :
    forwarded C settings s (past ++ [label])
      = forwarded C settings s past ++ (step settings (after C settings s past) label).2 := by
  rw [forwarded, Machine.trace_concat, List.flatMap_append, ← forwarded, List.flatMap_singleton]
  rfl

theorem arrived_concat (past : List Label) (label : Label) :
    arrived (past ++ [label]) = arrived past ++ arrived [label] := List.filterMap_append ..

/-- Whatever a step does to the server, it hands over. -/
theorem server_step (p : Process C) (label : Label) : (step settings p label).1.server
    = (Frontend.machine (storeLock C.log) fun request : Served ↦ request.val.plan C).run p.server
      (step settings p label).2 := by
  rcases label with ⟨n, request⟩ | e | _ | _ | ⟨t, now⟩ | _ | t | n
  · rw [step]
    split_ifs <;> rfl
  · rfl
  · rw [step]
    split
    · rfl
    · split_ifs <;> rfl
  · rw [step]
    split_ifs <;> rfl
  · rfl
  · rfl
  · rfl
  · rfl

theorem server_after (s : Tables) (labels : List Label) :
    (after C settings s labels).server = serverAfter C s (forwarded C settings s labels) := by
  induction labels using List.reverseRecOn with
  | nil => rfl
  | append_singleton past label ih =>
    rw [after_concat, server_step, ih, forwarded_concat, serverAfter, serverAfter, Frontend.after,
      Frontend.after, Machine.run_append]

/-! ## What a step can do -/

/-- The steps of the process. -/
inductive Moves (settings : PruneSettings) (p : Process C) :
    Label → Process C → List ServerLabel → Prop
  | event (e : NodeEvent) :
    Moves settings p (.event e) { p with inbound := p.inbound ++ (onEvent e).toList } []
  | stay (label : Label) (hlabel : ∀ e, label ≠ .event e) : Moves settings p label p []
  | http (n : ℕ) (request : Request) (h : request.overHttp = true) :
    Moves settings p (.http n request)
      (p.send [.receive (.http n) ⟨request, capped_of_overHttp h⟩]).1
      [.receive (.http n) ⟨request, capped_of_overHttp h⟩]
  | take (message : Received) (rest : List Received) (hinbound : p.inbound = message :: rest)
    (hanswered : answered p.server .ingest p.taken = true) :
    Moves settings p .take
      ({ p with inbound := rest, taken := p.taken + 1 }.send
        [.receive (.ingest p.taken) ⟨message.request, capped_request message⟩]).1
      [.receive (.ingest p.taken) ⟨message.request, capped_request message⟩]
  | prune (hanswered : answered p.server .prune p.pruned = true) :
    Moves settings p .prune
      ({ p with pruned := p.pruned + 1 }.send
        [.receive (.prune p.pruned) ⟨settings.call p.pruned, settings.capped_call p.pruned⟩]).1
      [.receive (.prune p.pruned) ⟨settings.call p.pruned, settings.capped_call p.pruned⟩]
  | pass (label : Label) (l : ServerLabel) (hlabel : ∀ e, label ≠ .event e)
    (hreceive : ∀ t request, l ≠ .receive t request)
    (hcancel : ∀ t, l = .cancel t → ∃ n, t = .http n) :
    Moves settings p label (p.send [l]).1 [l]

theorem step_moves (settings : PruneSettings) (p : Process C) (label : Label) :
    Moves settings p label (step settings p label).1 (step settings p label).2 := by
  rcases label with ⟨n, request⟩ | e | _ | _ | ⟨t, now⟩ | _ | t | n
  · rw [step]
    split_ifs with h
    · exact .http n request h
    · exact .stay _ (by simp)
  · exact .event e
  · rw [step]
    split
    next => exact .stay _ (by simp)
    next message rest hinbound =>
      split_ifs with hanswered
      · exact .take message rest hinbound hanswered
      · exact .stay _ (by simp)
  · rw [step]
    split_ifs with hanswered
    · exact .prune hanswered
    · exact .stay _ (by simp)
  · exact .pass _ _ (by simp) (by simp) (by simp)
  · exact .pass _ _ (by simp) (by simp) (by simp)
  · exact .pass _ _ (by simp) (by simp) (by simp)
  · exact .pass _ _ (by simp) (by simp) (by simp)

/-- A worker makes one call at a time, and only when the last has been answered. -/
theorem counters_step (p : Process C) (label : Label) :
    ((step settings p label).1.taken = p.taken ∨
      (step settings p label).1.taken = p.taken + 1 ∧
        answered p.server .ingest p.taken = true) ∧
    ((step settings p label).1.pruned = p.pruned ∨
      (step settings p label).1.pruned = p.pruned + 1 ∧
        answered p.server .prune p.pruned = true) := by
  have hmoves := step_moves settings p label
  generalize (step settings p label).1 = p' at hmoves ⊢
  generalize (step settings p label).2 = new at hmoves
  obtain e | - | - | ⟨message, rest, hinbound, hanswered⟩ | hanswered | - := hmoves
  · exact ⟨Or.inl rfl, Or.inl rfl⟩
  · exact ⟨Or.inl rfl, Or.inl rfl⟩
  · exact ⟨Or.inl rfl, Or.inl rfl⟩
  · exact ⟨Or.inr ⟨rfl, hanswered⟩, Or.inl rfl⟩
  · exact ⟨Or.inl rfl, Or.inr ⟨rfl, hanswered⟩⟩
  · exact ⟨Or.inl rfl, Or.inl rfl⟩

theorem arrived_of_ne {label : Label} (h : ∀ e, label ≠ .event e) : arrived [label] = [] := by
  rcases label with ⟨n, request⟩ | e | _ | _ | ⟨t, now⟩ | _ | t | n
  · rfl
  · exact absurd rfl (h e)
  · rfl
  · rfl
  · rfl
  · rfl
  · rfl
  · rfl

theorem arrived_event (e : NodeEvent) : arrived [.event e] = (onEvent e).toList := by
  have hmessage : Label.message (.event e) = onEvent e := rfl
  rw [arrived, List.filterMap_cons, List.filterMap_nil, hmessage]
  rcases onEvent e with _ | message
  · rfl
  · rfl

/-! ## Who serves what -/

/-- The tasks serve what the process has started them on. -/
structure Assigned (settings : PruneSettings) (p : Process C) (labels : List Label)
    (forwarded : List ServerLabel) : Prop where
  inbound : p.inbound = (arrived labels).drop p.taken
  taken_le : p.taken ≤ (arrived labels).length
  http : ∀ n request, .receive (.http n) request ∈ forwarded → request.val.overHttp = true
  ingest : ∀ k request, .receive (.ingest k) request ∈ forwarded →
    k < p.taken ∧ ((arrived labels)[k]?).map Received.request = some request.val
  prune : ∀ k request, .receive (.prune k) request ∈ forwarded →
    k < p.pruned ∧ request.val = settings.call k
  cancel : ∀ t, .cancel t ∈ forwarded → ∃ n, t = .http n

section Assignment

variable {p : Process C} {labels : List Label} {forwarded : List ServerLabel}

/-- More labels for the server, on which nothing new is started. -/
theorem Assigned.append (h : Assigned settings p labels forwarded) {label : Label}
    (hlabel : ∀ e, label ≠ .event e) {new : List ServerLabel} {server : ServerState C}
    (hreceive : ∀ t request, .receive t request ∈ new →
      (∃ n, t = .http n) ∧ request.val.overHttp = true)
    (hcancel : ∀ t, .cancel t ∈ new → ∃ n, t = .http n) :
    Assigned settings { p with server := server } (labels ++ [label]) (forwarded ++ new) := by
  have harrived : arrived (labels ++ [label]) = arrived labels := by
    rw [arrived_concat, arrived_of_ne hlabel, List.append_nil]
  refine ⟨harrived ▸ h.inbound, harrived ▸ h.taken_le, fun n request hmem ↦ ?_,
    fun k request hmem ↦ ?_, fun k request hmem ↦ ?_, fun t hmem ↦ ?_⟩
  · rcases List.mem_append.mp hmem with hmem | hmem
    · exact h.http n request hmem
    · exact (hreceive _ _ hmem).2
  · rcases List.mem_append.mp hmem with hmem | hmem
    · exact harrived ▸ h.ingest k request hmem
    · obtain ⟨⟨n, hn⟩, -⟩ := hreceive _ _ hmem
      exact absurd hn (by simp)
  · rcases List.mem_append.mp hmem with hmem | hmem
    · exact h.prune k request hmem
    · obtain ⟨⟨n, hn⟩, -⟩ := hreceive _ _ hmem
      exact absurd hn (by simp)
  · rcases List.mem_append.mp hmem with hmem | hmem
    · exact h.cancel t hmem
    · exact hcancel t hmem

/-- A message arrives. -/
theorem Assigned.event (h : Assigned settings p labels forwarded) (e : NodeEvent) :
    Assigned settings { p with inbound := p.inbound ++ (onEvent e).toList }
      (labels ++ [.event e]) forwarded where
  inbound := by
    rw [arrived_concat, arrived_event, List.drop_append_of_le_length h.taken_le, ← h.inbound]
  taken_le := by
    rw [arrived_concat, List.length_append]
    exact h.taken_le.trans (Nat.le_add_right _ _)
  http := h.http
  ingest k request hmem := by
    obtain ⟨hk, hmessage⟩ := h.ingest k request hmem
    refine ⟨hk, ?_⟩
    rw [arrived_concat, List.getElem?_append_left (hk.trans_le h.taken_le)]
    exact hmessage
  prune := h.prune
  cancel := h.cancel

/-- The ingest thread takes a message. -/
theorem Assigned.take (h : Assigned settings p labels forwarded) {message : Received}
    {rest : List Received} (hinbound : p.inbound = message :: rest) {server : ServerState C} :
    Assigned settings { p with server := server, inbound := rest, taken := p.taken + 1 }
      (labels ++ [.take]) (forwarded ++
        [.receive (.ingest p.taken) ⟨message.request, capped_request message⟩]) := by
  have harrived : arrived (labels ++ [Label.take]) = arrived labels := by
    rw [arrived_concat, arrived_of_ne (by simp), List.append_nil]
  have hdrop : (arrived labels).drop p.taken = message :: rest := h.inbound.symm.trans hinbound
  have hget : (arrived labels)[p.taken]? = some message := by
    rw [← List.head?_drop, hdrop, List.head?_cons]
  have hlt : p.taken < (arrived labels).length := (List.getElem?_eq_some_iff.mp hget).1
  refine ⟨?_, ?_, fun n request hmem ↦ ?_, fun k request hmem ↦ ?_, fun k request hmem ↦ ?_,
    fun t hmem ↦ ?_⟩
  · dsimp only
    rw [harrived, ← List.tail_drop, hdrop, List.tail_cons]
  · rw [harrived]
    exact hlt
  · rcases List.mem_append.mp hmem with hmem | hmem
    · exact h.http n request hmem
    · simp at hmem
  · rw [harrived]
    dsimp only
    rcases List.mem_append.mp hmem with hmem | hmem
    · obtain ⟨hk, hmessage⟩ := h.ingest k request hmem
      exact ⟨hk.trans_le (Nat.le_succ _), hmessage⟩
    · obtain ⟨hk, rfl⟩ := Frontend.Label.receive.inj (List.mem_singleton.mp hmem)
      obtain rfl := Task.ingest.inj hk
      exact ⟨Nat.lt_succ_self _, by rw [hget]; rfl⟩
  · rcases List.mem_append.mp hmem with hmem | hmem
    · exact h.prune k request hmem
    · simp at hmem
  · rcases List.mem_append.mp hmem with hmem | hmem
    · exact h.cancel t hmem
    · simp at hmem

/-- The prune task makes a call. -/
theorem Assigned.pruneCall (h : Assigned settings p labels forwarded) {server : ServerState C} :
    Assigned settings { p with server := server, pruned := p.pruned + 1 }
      (labels ++ [.prune]) (forwarded ++
        [.receive (.prune p.pruned) ⟨settings.call p.pruned, settings.capped_call p.pruned⟩]) := by
  have harrived : arrived (labels ++ [Label.prune]) = arrived labels := by
    rw [arrived_concat, arrived_of_ne (by simp), List.append_nil]
  refine ⟨harrived ▸ h.inbound, harrived ▸ h.taken_le, fun n request hmem ↦ ?_,
    fun k request hmem ↦ ?_, fun k request hmem ↦ ?_, fun t hmem ↦ ?_⟩
  · rcases List.mem_append.mp hmem with hmem | hmem
    · exact h.http n request hmem
    · simp at hmem
  · rcases List.mem_append.mp hmem with hmem | hmem
    · exact harrived ▸ h.ingest k request hmem
    · simp at hmem
  · rcases List.mem_append.mp hmem with hmem | hmem
    · obtain ⟨hk, hcall⟩ := h.prune k request hmem
      exact ⟨hk.trans_le (Nat.le_succ _), hcall⟩
    · obtain ⟨hk, rfl⟩ := Frontend.Label.receive.inj (List.mem_singleton.mp hmem)
      obtain rfl := Task.prune.inj hk
      exact ⟨Nat.lt_succ_self _, rfl⟩
  · rcases List.mem_append.mp hmem with hmem | hmem
    · exact h.cancel t hmem
    · simp at hmem

end Assignment

theorem assigned_after (settings : PruneSettings) (s : Tables) (labels : List Label) :
    Assigned settings (after C settings s labels) labels (forwarded C settings s labels) := by
  induction labels using List.reverseRecOn with
  | nil =>
    refine ⟨rfl, le_rfl, fun _ _ h ↦ ?_, fun _ _ h ↦ ?_, fun _ _ h ↦ ?_, fun _ h ↦ ?_⟩
    all_goals exact absurd h List.not_mem_nil
  | append_singleton past label ih =>
    rw [after_concat, forwarded_concat]
    have hmoves := step_moves settings (after C settings s past) label
    generalize (step settings (after C settings s past) label).1 = p' at hmoves ⊢
    generalize (step settings (after C settings s past) label).2 = new at hmoves ⊢
    obtain e | ⟨label, hlabel⟩ | ⟨n, request, h⟩ | ⟨message, rest, hinbound, -⟩ | - |
      ⟨label, l, hlabel, hreceive, hcancel⟩ := hmoves
    · rw [List.append_nil]
      exact ih.event e
    · exact ih.append hlabel (by simp) (by simp)
    · refine ih.append (by simp) (fun t request' hmem ↦ ?_) (by simp)
      obtain ⟨rfl, rfl⟩ := Frontend.Label.receive.inj (List.mem_singleton.mp hmem)
      exact ⟨⟨n, rfl⟩, h⟩
    · exact ih.take hinbound
    · exact ih.pruneCall
    · refine ih.append hlabel (fun t request hmem ↦ ?_) fun t hmem ↦ ?_
      · exact absurd (List.mem_singleton.mp hmem).symm (hreceive t request)
      · exact hcancel t (List.mem_singleton.mp hmem).symm

/-! ## The history of a run -/

theorem prunesUncut (settings : PruneSettings) (s : Tables) (labels : List Label) :
    PrunesUncut (forwarded C settings s labels) := by
  have hassigned := assigned_after (C := C) settings s labels
  rintro t request hcancel hreceive maxPerIdentity retention heq
  obtain ⟨n, rfl⟩ := hassigned.cancel t hcancel
  have hhttp := hassigned.http n request hreceive
  rw [heq] at hhttp
  exact absurd hhttp (by simp [Request.overHttp])

/-- The service accounts for what the process does to its store. -/
theorem accounts (settings : PruneSettings) (s : Tables) (labels : List Label) :
    Accounts C s (forwarded C settings s labels) := (prunesUncut settings s labels).accounts s

theorem forwarded_mono {past labels : List Label} (h : past <+: labels) :
    forwarded C settings s past <+: forwarded C settings s labels := by
  obtain ⟨rest, rfl⟩ := h
  rw [forwarded, forwarded, Machine.trace_append, List.flatMap_append]
  exact List.prefix_append _ _

theorem history_mono {past labels : List Label} (h : past <+: labels) :
    history C settings s past <+: history C settings s labels :=
  (accounts settings s labels).order _ (forwarded_mono h)

/-- A task that was answered is in the history. -/
theorem mem_history_of_answered {labels : List Label} {t : Task}
    (h : (responseOf (after C settings s labels).server t).isSome = true) :
    ∃ x ∈ history C settings s labels, x.1 = t := by
  obtain ⟨response, hresponse⟩ := Option.isSome_iff_exists.mp h
  rw [server_after] at hresponse
  obtain ⟨before, request, now, later, hhistory, -⟩ :=
    (accounts settings s labels).response t response hresponse
  exact ⟨(t, now, request), by rw [history, hhistory]; simp, rfl⟩

/-- The calls made one after the other, by their numbers, when `n` have been made: all of them have
taken effect, or all but the last. -/
def InOrder (worker : Task → Option ℕ) (hist : List (Frontend.Entry SystemTime Task Served))
    (n : ℕ) : Prop :=
  Frontend.places worker hist = List.range n ∨
    ∃ m, n = m + 1 ∧ Frontend.places worker hist = List.range m

/-- When the last call has been answered, all of them have taken effect. -/
theorem InOrder.of_answered {worker : Task → Option ℕ} {task : ℕ → Task} {labels : List Label}
    {n : ℕ} (h : InOrder worker (history C settings s labels) n)
    (hanswered : answered (after C settings s labels).server task n = true)
    (hworker : ∀ k, worker (task k) = some k) :
    Frontend.places worker (history C settings s labels) = List.range n := by
  rcases h with h | ⟨m, rfl, h⟩
  · exact h
  · obtain ⟨x, hx, htask⟩ := mem_history_of_answered hanswered
    have hmem : m ∈ Frontend.places worker (history C settings s labels) :=
      Frontend.mem_places.mpr ⟨x, hx, by rw [htask, hworker]⟩
    rw [h, List.mem_range] at hmem
    exact absurd hmem (lt_irrefl m)

/-- A step of the process keeps the order, and may make one more call. -/
theorem InOrder.step {worker : Task → Option ℕ} {task : ℕ → Task}
    (hworker : ∀ t k, worker t = some k ↔ t = task k) {past : List Label} {label : Label}
    {n n' : ℕ} (h : InOrder worker (history C settings s past) n)
    (hmore : n' = n ∨
      n' = n + 1 ∧ answered (after C settings s past).server task n = true)
    (hlt : ∀ k ∈ Frontend.places worker (history C settings s (past ++ [label])), k < n') :
    InOrder worker (history C settings s (past ++ [label])) n' := by
  have hinj : ∀ t u k, worker t = some k → worker u = some k → t = u := by
    intro t u k ht hu
    rw [(hworker t k).mp ht, (hworker u k).mp hu]
  have hpre : history C settings s past <+: history C settings s (past ++ [label]) :=
    history_mono (List.prefix_append past [label])
  have hnodup := (accounts (C := C) settings s (past ++ [label])).nodup
  -- The number of calls that had taken effect, at most one less than were made.
  obtain ⟨m, hplaces, hn⟩ : ∃ m, Frontend.places worker (history C settings s past)
      = List.range m ∧ (n' = m ∨ n' = m + 1) := by
    rcases hmore with rfl | ⟨rfl, hanswered⟩
    · rcases h with h | ⟨m, rfl, h⟩
      · exact ⟨n', h, Or.inl rfl⟩
      · exact ⟨m, h, Or.inr rfl⟩
    · exact ⟨n, h.of_answered hanswered fun k ↦ (hworker _ k).mpr rfl, Or.inr rfl⟩
  rcases Frontend.places_extend hinj hpre hnodup hplaces (by omega) hlt with hsame | ⟨-, hnew⟩
  · rcases hn with rfl | rfl
    · exact Or.inl hsame
    · exact Or.inr ⟨m, rfl, hsame⟩
  · exact Or.inl hnew

theorem ingest?_eq_some_iff (t : Task) (k : ℕ) : t.ingest? = some k ↔ t = .ingest k := by
  rcases t with n | n | n
  · simp [Task.ingest?]
  · simp [Task.ingest?]
  · simp [Task.ingest?]

theorem prune?_eq_some_iff (t : Task) (k : ℕ) : t.prune? = some k ↔ t = .prune k := by
  rcases t with n | n | n
  · simp [Task.prune?]
  · simp [Task.prune?]
  · simp [Task.prune?]

/-- The messages that were taken take effect in order. -/
theorem inOrder_ingest (settings : PruneSettings) (s : Tables) (labels : List Label) :
    InOrder Task.ingest? (history C settings s labels) (after C settings s labels).taken := by
  induction labels using List.reverseRecOn with
  | nil => exact Or.inl rfl
  | append_singleton past label ih =>
    refine ih.step ingest?_eq_some_iff ?_ fun k hk ↦ ?_
    · rw [after_concat]
      exact (counters_step _ label).1
    · obtain ⟨x, hx, hxk⟩ := Frontend.mem_places.mp hk
      have hreceived := (accounts (C := C) settings s (past ++ [label])).received x hx
      rw [(ingest?_eq_some_iff x.1 k).mp hxk] at hreceived
      exact ((assigned_after settings s (past ++ [label])).ingest k _ hreceived).1

/-- So do the calls of the prune task. -/
theorem inOrder_prune (settings : PruneSettings) (s : Tables) (labels : List Label) :
    InOrder Task.prune? (history C settings s labels) (after C settings s labels).pruned := by
  induction labels using List.reverseRecOn with
  | nil => exact Or.inl rfl
  | append_singleton past label ih =>
    refine ih.step prune?_eq_some_iff ?_ fun k hk ↦ ?_
    · rw [after_concat]
      exact (counters_step _ label).2
    · obtain ⟨x, hx, hxk⟩ := Frontend.mem_places.mp hk
      have hreceived := (accounts (C := C) settings s (past ++ [label])).received x hx
      rw [(prune?_eq_some_iff x.1 k).mp hxk] at hreceived
      exact ((assigned_after settings s (past ++ [label])).prune k _ hreceived).1

/-- The requests of one kind of task, in the order of a history. -/
def requestsOf (worker : Task → Option ℕ)
    (hist : List (Frontend.Entry SystemTime Task Served)) : List Request :=
  hist.filterMap fun x ↦ (worker x.1).map fun _ ↦ x.2.2.val

theorem requestsOf_eq {worker : Task → Option ℕ}
    {hist : List (Frontend.Entry SystemTime Task Served)} {job : ℕ → Option Request}
    (hjob : ∀ x ∈ hist, ∀ k, worker x.1 = some k → job k = some x.2.2.val) :
    requestsOf worker hist = (Frontend.places worker hist).filterMap job := by
  rw [requestsOf, Frontend.places, List.filterMap_filterMap]
  refine List.filterMap_congr fun x hx ↦ ?_
  rcases hworker : worker x.1 with _ | k
  · rfl
  · rw [Option.map_some, Option.bind_some, hjob x hx k hworker]

theorem filterMap_range_getElem? (messages : List Received) {n : ℕ} (h : n ≤ messages.length) :
    (List.range n).filterMap (fun k ↦ (messages[k]?).map Received.request)
      = (messages.take n).map Received.request := by
  induction n with
  | zero => rfl
  | succ n ih =>
    obtain ⟨message, hmessage⟩ : ∃ message, messages[n]? = some message :=
      ⟨messages[n], List.getElem?_eq_getElem h⟩
    rw [List.range_succ, List.filterMap_append, ih (Nat.le_of_succ_le h),
      List.take_succ_eq_append_getElem h, List.map_append, List.filterMap_cons, List.filterMap_nil,
      List.getElem?_eq_getElem h]
    rfl

theorem requestsOf_ingest {labels : List Label} {m : ℕ} (hm : m ≤ (arrived labels).length)
    (h : Frontend.places Task.ingest? (history C settings s labels) = List.range m) :
    requestsOf Task.ingest? (history C settings s labels)
      = ((arrived labels).take m).map Received.request := by
  rw [← filterMap_range_getElem? _ hm, ← h]
  refine requestsOf_eq fun x hx k hk ↦ ?_
  have hreceived := (accounts (C := C) settings s labels).received x hx
  rw [(ingest?_eq_some_iff x.1 k).mp hk] at hreceived
  exact ((assigned_after settings s labels).ingest k _ hreceived).2

theorem requestsOf_prune {labels : List Label} {m : ℕ}
    (h : Frontend.places Task.prune? (history C settings s labels) = List.range m) :
    requestsOf Task.prune? (history C settings s labels)
      = (List.range m).map settings.call := by
  rw [← h, ← List.filterMap_eq_map]
  refine requestsOf_eq fun x hx k hk ↦ ?_
  have hreceived := (accounts (C := C) settings s labels).received x hx
  rw [(prune?_eq_some_iff x.1 k).mp hk] at hreceived
  exact congrArg some ((assigned_after settings s labels).prune k _ hreceived).2.symm

variable (C) in
/-- What a run of the process does about the messages that arrive and about the prunes. -/
structure InTurn (settings : PruneSettings) (s : Tables) (labels : List Label) : Prop where
  /-- Messages that have not been taken wait in the order of their arrival. -/
  inbound : (after C settings s labels).inbound
    = (arrived labels).drop (after C settings s labels).taken
  /-- Those that have been taken have taken effect once each, in that order, but perhaps for the
  last. -/
  messages : ∃ handled, handled ≤ (after C settings s labels).taken ∧
    (after C settings s labels).taken ≤ handled + 1 ∧
    requestsOf Task.ingest? (history C settings s labels)
      = ((arrived labels).take handled).map Received.request
  /-- Once the queue is empty and the thread waits for it, all messages have taken effect. -/
  drained : (after C settings s labels).inbound = [] →
    answered (after C settings s labels).server .ingest (after C settings s labels).taken = true →
    requestsOf Task.ingest? (history C settings s labels)
      = (arrived labels).map Received.request
  /-- The two prunes of each tick take effect in turn. -/
  prunes : ∃ made, made ≤ (after C settings s labels).pruned ∧
    (after C settings s labels).pruned ≤ made + 1 ∧
    requestsOf Task.prune? (history C settings s labels) = (List.range made).map settings.call

theorem inTurn (settings : PruneSettings) (s : Tables) (labels : List Label) :
    InTurn C settings s labels := by
  have hassigned := assigned_after (C := C) settings s labels
  have hingest := inOrder_ingest (C := C) settings s labels
  refine ⟨hassigned.inbound, ?_, fun hempty hidle ↦ ?_, ?_⟩
  · rcases hingest with h | ⟨m, htaken, h⟩
    · exact ⟨_, le_rfl, Nat.le_succ _, requestsOf_ingest hassigned.taken_le h⟩
    · have hle : m ≤ (after C settings s labels).taken := by omega
      exact ⟨m, hle, htaken.le, requestsOf_ingest (hle.trans hassigned.taken_le) h⟩
  · have hall : (arrived labels).length ≤ (after C settings s labels).taken :=
      List.drop_eq_nil_iff.mp (hassigned.inbound.symm.trans hempty)
    have h := hingest.of_answered hidle fun _ ↦ rfl
    rw [requestsOf_ingest hassigned.taken_le h, List.take_of_length_le hall]
  · rcases inOrder_prune (C := C) settings s labels with h | ⟨m, hpruned, h⟩
    · exact ⟨_, le_rfl, Nat.le_succ _, requestsOf_prune h⟩
    · exact ⟨m, by omega, hpruned.le, requestsOf_prune h⟩

end Process

end ChatStore
