import ChatStore.Library.Machine
import Mathlib.Logic.Function.Basic

/-!
# Calls under one mutex

Tasks make calls on a shared state. A call that may change the state runs its critical section under
the mutex, in steps between which any other task may be scheduled; a query reads the state once,
without the mutex. At any moment a task may be dropped: it makes no further step, and the mutex is
free again if it held it. A change reaches the shared state in one step, so what a dropped task had
not yet published is gone.

Each step of the machine answers with what it adds to the schedule, a list of atomic operations and
queries. `Serialises` says that running the schedule sequentially accounts for everything: the
shared state, the results, and which calls have happened, in the order in which they took the mutex.

The only thing a user has to show is `Sound`: a critical section that is left alone does what the
atomic operations of its call do. `CriticalSection.Does` follows the section step by step for this.
-/

namespace Library

/-- What a task still has to do while it holds the mutex. -/
inductive CriticalSection (σ ρ : Type*)
  /-- Return, and with it release the mutex. -/
  | done (result : ρ)
  /-- A step that changes nothing, and may look at the shared state. -/
  | look (next : σ → CriticalSection σ ρ)
  /-- A step that changes the shared state. What follows may depend on the state it found. -/
  | publish (change : σ → σ) (next : σ → CriticalSection σ ρ)

variable {σ ρ κ θ α τ ι : Type*}

/-- A section left alone in the state `s` does the operations `ops` and returns the result of the
last of them, `last` being that of the one before. An operation that leaves the state as it is need
not publish anything. -/
def CriticalSection.Does (apply : α → σ → σ × ρ) :
    CriticalSection σ ρ → List α → Option ρ → σ → Prop
  | .done result, ops, last, s =>
    ops = [] ∧ last = some result ∨ ∃ op, ops = [op] ∧ apply op s = (s, result)
  | .look next, ops, last, s => (next s).Does apply ops last s
  | .publish change next, ops, _, s =>
    ∃ op rest, ops = op :: rest ∧ (apply op s).1 = change s ∧
      (next s).Does apply rest (some (apply op s).2) (change s)

/-- Calls and queries on a shared state, and the atomic operations they are meant to be. -/
structure Mutex (σ κ θ α τ ρ : Type*) where
  /-- The critical section of a call that took the mutex at a clock reading. -/
  body : κ → τ → CriticalSection σ ρ
  /-- What a query reads. -/
  query : θ → σ → ρ
  /-- The atomic operations of a call. -/
  ops : κ → τ → List α
  /-- What an atomic operation does. -/
  apply : α → σ → σ × ρ

namespace Mutex

variable (P : Mutex σ κ θ α τ ρ)

/-- Every critical section, left alone, does what the operations of its call do. -/
def Sound : Prop := ∀ call now s, (P.body call now).Does P.apply (P.ops call now) none s

/-! ## Schedules -/

/-- An entry of a schedule: a task with one of its operations, or with its query. -/
abbrev Action (θ α ι : Type*) := ι × (α ⊕ θ)

/-- The machine that runs a schedule sequentially, one entry at a time. -/
def serial : Machine σ (Action θ α ι) ρ where
  step s action :=
    match action.2 with
    | .inl op => P.apply op s
    | .inr q => (s, P.query q s)

/-- The operations of a schedule, without the queries. -/
def writes (sched : List (Action θ α ι)) : List (ι × α) :=
  sched.filterMap fun action ↦ action.2.getLeft?.map fun op ↦ (action.1, op)

variable {P} {s : σ} {sched : List (Action θ α ι)} {t u : ι}

theorem run_concat_op (op : α) : P.serial.run s (sched ++ [(u, .inl op)])
    = (P.apply op (P.serial.run s sched)).1 := Machine.run_concat ..

theorem run_concat_query (q : θ) : P.serial.run s (sched ++ [(u, .inr q)])
    = P.serial.run s sched := Machine.run_concat ..

theorem writes_concat_op (op : α) :
    writes (sched ++ [(u, .inl op)]) = writes sched ++ [(u, op)] := by
  rw [writes, List.filterMap_append, ← writes]
  rfl

theorem writes_concat_query (q : θ) : writes (sched ++ [(u, .inr q)]) = writes sched := by
  rw [writes, List.filterMap_append, ← writes]
  exact List.append_nil _

variable [DecidableEq ι]

/-- The operations of one task. -/
def writesOf (t : ι) (sched : List (Action θ α ι)) : List α :=
  ((writes sched).filter fun write ↦ write.1 = t).map Prod.snd

variable (P) in
/-- The results of one task when a schedule is run sequentially. -/
def results (s : σ) (sched : List (Action θ α ι)) (t : ι) : List ρ :=
  ((P.serial.trace s sched).filter fun e ↦ e.input.1 = t).map Machine.Entry.output

theorem writesOf_concat_query (q : θ) : writesOf t (sched ++ [(u, .inr q)]) = writesOf t sched := by
  rw [writesOf, writes_concat_query, writesOf]

theorem writesOf_concat_self (op : α) :
    writesOf t (sched ++ [(t, .inl op)]) = writesOf t sched ++ [op] := by
  have hkeep : [(t, op)].filter (fun write ↦ write.1 = t) = [(t, op)] := by simp
  rw [writesOf, writes_concat_op, List.filter_append, hkeep, List.map_append, ← writesOf,
    List.map_singleton]

theorem writesOf_concat_of_ne (h : u ≠ t) (op : α) :
    writesOf t (sched ++ [(u, .inl op)]) = writesOf t sched := by
  have hdrop : [(u, op)].filter (fun write ↦ write.1 = t) = [] := by simpa using h
  rw [writesOf, writes_concat_op, List.filter_append, hdrop, List.append_nil, ← writesOf]

theorem results_concat_self (action : α ⊕ θ) : P.results s (sched ++ [(t, action)]) t
    = P.results s sched t ++ [(P.serial.step (P.serial.run s sched) (t, action)).2] := by
  have hkeep : [P.serial.entry (P.serial.run s sched) (t, action)].filter (fun e ↦ e.input.1 = t)
      = [P.serial.entry (P.serial.run s sched) (t, action)] := by simp [Machine.entry]
  rw [results, Machine.trace_concat, List.filter_append, hkeep, List.map_append, ← results,
    List.map_singleton, Machine.entry]

theorem results_concat_of_ne (h : u ≠ t) (action : α ⊕ θ) :
    P.results s (sched ++ [(u, action)]) t = P.results s sched t := by
  have hdrop : [P.serial.entry (P.serial.run s sched) (u, action)].filter (fun e ↦ e.input.1 = t)
      = [] := by simpa [Machine.entry] using h
  rw [results, Machine.trace_concat, List.filter_append, hdrop, List.append_nil, ← results]

theorem writesOf_eq_nil (h : ∀ action ∈ sched, action.1 ≠ t) : writesOf t sched = [] := by
  rw [writesOf, List.map_eq_nil_iff, List.filter_eq_nil_iff]
  intro write hwrite
  obtain ⟨action, haction, hleft⟩ := List.mem_filterMap.mp hwrite
  obtain ⟨op, -, rfl⟩ := Option.map_eq_some_iff.mp hleft
  simpa using h action haction

theorem results_eq_nil (h : ∀ action ∈ sched, action.1 ≠ t) : P.results s sched t = [] := by
  rw [results, List.map_eq_nil_iff, List.filter_eq_nil_iff]
  intro entry hentry
  have hinput : entry.input ∈ (P.serial.trace s sched).map Machine.Entry.input :=
    List.mem_map_of_mem hentry
  rw [Machine.trace_map_input] at hinput
  simpa using h entry.input hinput

/-! ## Tasks and scheduler -/

/-- Where a task stands. Each task makes one call or one query. -/
inductive Phase (κ θ ρ : Type*)
  | idle
  /-- Waiting for the mutex. -/
  | waiting (call : κ)
  /-- Inside its critical section. -/
  | inside
  /-- About to read. -/
  | asking (q : θ)
  | returned (result : ρ)
  | cancelled

/-- The task has not taken the mutex yet, nor read anything. -/
def Phase.fresh : Phase κ θ ρ → Bool
  | .idle | .waiting _ | .asking _ => true
  | .inside | .returned _ | .cancelled => false

/-- A call that took the mutex. -/
structure Turn (ι κ τ : Type*) where
  task : ι
  call : κ
  now : τ

/-- The task that holds the mutex. -/
structure Holder (ι σ α ρ : Type*) where
  task : ι
  /-- The operations it has not added to the schedule yet. -/
  pending : List α
  rest : CriticalSection σ ρ

structure State (σ κ θ α τ ρ ι : Type*) where
  shared : σ
  holder : Option (Holder ι σ α ρ)
  /-- The calls that took the mutex, in the order in which they did. -/
  turns : List (Turn ι κ τ)
  phase : ι → Phase κ θ ρ

/-- No task has done anything. -/
def State.initial (s : σ) : State σ κ θ α τ ρ ι := ⟨s, none, [], fun _ ↦ .idle⟩

/-- A task goes on to another phase. -/
def State.move (st : State σ κ θ α τ ρ ι) (t : ι) (phase : Phase κ θ ρ) : State σ κ θ α τ ρ ι :=
  { st with phase := Function.update st.phase t phase }

/-- What the scheduler may do next. -/
inductive Label (κ θ τ ι : Type*)
  | invoke (t : ι) (call : κ)
  | ask (t : ι) (q : θ)
  | lock (t : ι) (now : τ)
  /-- The next step of the task that holds the mutex. -/
  | advance
  | select (t : ι)
  | cancel (t : ι)

variable (P)

/-- One step, and what it adds to the schedule. A label that is not enabled does nothing. -/
def step (st : State σ κ θ α τ ρ ι) : Label κ θ τ ι → State σ κ θ α τ ρ ι × List (Action θ α ι)
  | .invoke t call =>
    match st.phase t with
    | .idle => (st.move t (.waiting call), [])
    | _ => (st, [])
  | .ask t q =>
    match st.phase t with
    | .idle => (st.move t (.asking q), [])
    | _ => (st, [])
  | .lock t now =>
    match st.phase t, st.holder with
    | .waiting call, none =>
      ({ st.move t .inside with
          holder := some ⟨t, P.ops call now, P.body call now⟩
          turns := st.turns ++ [⟨t, call, now⟩] }, [])
    | _, _ => (st, [])
  | .advance =>
    match st.holder with
    | none => (st, [])
    | some ⟨t, pending, .done result⟩ =>
      ({ st.move t (.returned result) with holder := none }, pending.map fun op ↦ (t, .inl op))
    | some ⟨t, pending, .look next⟩ =>
      ({ st with holder := some ⟨t, pending, next st.shared⟩ }, [])
    | some ⟨t, pending, .publish change next⟩ =>
      ({ st with
          shared := change st.shared
          holder := some ⟨t, pending.tail, next st.shared⟩ },
        pending.head?.toList.map fun op ↦ (t, .inl op))
  | .select t =>
    match st.phase t with
    | .asking q => (st.move t (.returned (P.query q st.shared)), [(t, .inr q)])
    | _ => (st, [])
  | .cancel t =>
    match st.phase t with
    | .waiting _ | .asking _ => (st.move t .cancelled, [])
    | .inside =>
      -- The guard is dropped with the task, and so is what it has not published.
      ({ st.move t .cancelled with holder := st.holder.filter fun h ↦ h.task ≠ t }, [])
    | _ => (st, [])

/-- The tasks under an arbitrary scheduler. -/
def machine : Machine (State σ κ θ α τ ρ ι) (Label κ θ τ ι) (List (Action θ α ι)) := ⟨P.step⟩

/-- The state after a run. -/
def after (s : σ) (labels : List (Label κ θ τ ι)) : State σ κ θ α τ ρ ι :=
  P.machine.run (State.initial s) labels

/-- The schedule of a run. -/
def schedule (s : σ) (labels : List (Label κ θ τ ι)) : List (Action θ α ι) :=
  (P.machine.trace (State.initial s) labels).flatMap Machine.Entry.output

/-- The schedule of a run accounts for it. -/
structure Serialises (s : σ) (labels : List (Label κ θ τ ι)) : Prop where
  /-- Run sequentially, the schedule ends in the shared state. -/
  shared : P.serial.run s (P.schedule s labels) = (P.after s labels).shared
  /-- A task that returned did so with the result of its last entry. -/
  result : ∀ t result, (P.after s labels).phase t = .returned result →
    (P.results s (P.schedule s labels) t).getLast? = some result
  /-- No task takes the mutex twice. -/
  nodup : ((P.after s labels).turns.map Turn.task).Nodup
  /-- The operations are in the order in which their calls took the mutex, each call's together. -/
  order : writes (P.schedule s labels) = (P.after s labels).turns.flatMap fun turn ↦
    (writesOf turn.task (P.schedule s labels)).map fun op ↦ (turn.task, op)
  /-- A call did its operations from the first to some point. -/
  initial : ∀ turn ∈ (P.after s labels).turns,
    writesOf turn.task (P.schedule s labels) <+: P.ops turn.call turn.now
  /-- A call that returned did them all. -/
  complete : ∀ turn ∈ (P.after s labels).turns, ∀ result,
    (P.after s labels).phase turn.task = .returned result →
      writesOf turn.task (P.schedule s labels) = P.ops turn.call turn.now
  /-- Each entry was added by one step of the run, a query by its read. -/
  placed : ∀ earlier action later, P.schedule s labels = earlier ++ action :: later →
    ∃ past label, past ++ [label] <+: labels ∧ P.schedule s past = earlier ∧
      P.schedule s (past ++ [label]) = earlier ++ [action] ∧
      ∀ q, action.2 = .inr q → label = .select action.1

/-! ## What a step can do -/

/-- The steps of the machine. -/
inductive Moves (st : State σ κ θ α τ ρ ι) : State σ κ θ α τ ρ ι → List (Action θ α ι) → Prop
  | stay : Moves st st []
  /-- A task that has done nothing yet goes on without doing anything. -/
  | move (t : ι) (p : Phase κ θ ρ) (hold : (st.phase t).fresh = true)
      (hnew : ∀ result, p ≠ .returned result) : Moves st (st.move t p) []
  | lock (t : ι) (call : κ) (now : τ) (hphase : st.phase t = .waiting call)
      (hfree : st.holder = none) :
      Moves st { st.move t .inside with
        holder := some ⟨t, P.ops call now, P.body call now⟩
        turns := st.turns ++ [⟨t, call, now⟩] } []
  | look (t : ι) (pending : List α) (next : σ → CriticalSection σ ρ)
      (hholder : st.holder = some ⟨t, pending, .look next⟩) :
      Moves st { st with holder := some ⟨t, pending, next st.shared⟩ } []
  | publish (t : ι) (pending : List α) (change : σ → σ) (next : σ → CriticalSection σ ρ)
      (hholder : st.holder = some ⟨t, pending, .publish change next⟩) :
      Moves st { st with
        shared := change st.shared
        holder := some ⟨t, pending.tail, next st.shared⟩ }
        (pending.head?.toList.map fun op ↦ (t, .inl op))
  | finish (t : ι) (pending : List α) (result : ρ)
      (hholder : st.holder = some ⟨t, pending, .done result⟩) :
      Moves st { st.move t (.returned result) with holder := none }
        (pending.map fun op ↦ (t, .inl op))
  | select (t : ι) (q : θ) (hphase : st.phase t = .asking q) :
      Moves st (st.move t (.returned (P.query q st.shared))) [(t, .inr q)]
  | abandon (t : ι) (hphase : st.phase t = .inside) :
      Moves st { st.move t .cancelled with
        holder := st.holder.filter fun h ↦ h.task ≠ t } []

theorem step_moves (st : State σ κ θ α τ ρ ι) (label : Label κ θ τ ι) :
    P.Moves st (P.step st label).1 (P.step st label).2 := by
  rcases label with ⟨t, call⟩ | ⟨t, q⟩ | ⟨t, now⟩ | _ | t | t
  · rw [step]
    split
    next hphase => exact .move t _ (by rw [hphase]; rfl) (by simp)
    next => exact .stay
  · rw [step]
    split
    next hphase => exact .move t _ (by rw [hphase]; rfl) (by simp)
    next => exact .stay
  · rw [step]
    split
    next hphase hfree => exact .lock t _ now hphase hfree
    next => exact .stay
  · rw [step]
    split
    next => exact .stay
    next hholder => exact .finish _ _ _ hholder
    next hholder => exact .look _ _ _ hholder
    next hholder => exact .publish _ _ _ _ hholder
  · rw [step]
    split
    next hphase => exact .select t _ hphase
    next => exact .stay
  · rw [step]
    split
    next hphase => exact .move t _ (by rw [hphase]; rfl) (by simp)
    next hphase => exact .move t _ (by rw [hphase]; rfl) (by simp)
    next hphase => exact .abandon t hphase
    next => exact .stay

end Mutex

end Library
