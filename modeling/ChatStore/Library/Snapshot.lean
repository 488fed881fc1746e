import ChatStore.Library.Serialisable

/-!
# Transactions under a mutex

`Library.Mutex` lets a critical section look at the shared state itself, and change it in one step.
A database gives less than that. A transaction reads a snapshot of its own, taken at its first read;
its changes go to a copy that nobody else sees before the `COMMIT`; and of all transactions one at a
time may write. A transaction that has read and then wants to write fails on the spot when somebody
else is writing, or has committed since the snapshot was taken. A transaction that is dropped is
rolled back some time later, and until then it keeps what it has.

Here the tasks run such transactions, one statement after the other, while they hold the mutex.
`upholds` says that the mutex makes up for the difference: the run is one of `Library.Mutex`, so it
serialises. No snapshot is ever out of date, and a statement fails only while the database waits for
the rollback of a task that was cancelled between its writes and its `COMMIT`.
-/

namespace Library

variable {σ ρ κ θ α τ ι : Type*}

/-- What a task does while it holds the mutex, statement by statement. -/
inductive Script (σ ρ : Type*)
  /-- Return. A transaction that is still open is dropped. -/
  | done (result : ρ)
  /-- A change in a transaction of its own. What follows may depend on the state it found. -/
  | execute (change : σ → σ) (next : σ → Script σ ρ)
  /-- `BEGIN` -/
  | start (next : Script σ ρ)
  /-- A read in the open transaction. -/
  | fetch (next : σ → Script σ ρ)
  /-- A change in the open transaction. -/
  | write (change : σ → σ) (next : Script σ ρ)
  /-- `COMMIT` -/
  | commit (next : Script σ ρ)

/-- How far a transaction has got. -/
inductive Stage
  | outside
  | reading
  | writing

namespace Script

/-- The script does in a transaction what belongs there, and does not drop what it has written. -/
def Proper : Script σ ρ → Stage → Prop
  | done _, stage => stage ≠ .writing
  | execute _ next, stage => stage = .outside ∧ ∀ s, (next s).Proper .outside
  | start next, stage => stage = .outside ∧ next.Proper .reading
  | fetch next, stage => stage ≠ .outside ∧ ∀ s, (next s).Proper stage
  | write _ next, stage => stage ≠ .outside ∧ next.Proper .writing
  | commit next, stage => stage ≠ .outside ∧ next.Proper .outside

/-- The script as a critical section: what is written is published by the `COMMIT`. -/
def toSection : Script σ ρ → (σ → σ) → CriticalSection σ ρ
  | done result, _ => .done result
  | execute change next, written => .publish change fun s ↦ (next s).toSection written
  | start next, _ => .look fun _ ↦ next.toSection id
  | fetch next, written => .look fun s ↦ (next (written s)).toSection written
  | write change next, written => .look fun _ ↦ next.toSection (change ∘ written)
  | commit next, written => .publish written fun _ ↦ next.toSection id

end Script

namespace Snapshot

open Mutex (Phase Turn)

/-! ## The database and its tasks -/

/-- An open transaction. -/
inductive Tx (σ : Type*)
  /-- It has not read anything yet. -/
  | fresh
  /-- It reads the snapshot taken after so many commits. -/
  | reading (mark : ℕ) (snapshot : σ)
  /-- It has the write lock, and its own copy of the database. -/
  | writing (copy : σ)

/-- What the transaction sees. -/
def Tx.view (committed : σ) : Tx σ → σ
  | .fresh => committed
  | .reading _ snapshot => snapshot
  | .writing copy => copy

/-- The transaction after a read. -/
def Tx.read (commits : ℕ) (committed : σ) : Tx σ → Tx σ
  | .fresh => .reading commits committed
  | tx => tx

structure State (σ κ θ τ ρ ι : Type*) where
  committed : σ
  commits : ℕ
  /-- The task whose transaction has the write lock of the database. -/
  writer : Option ι
  tx : ι → Option (Tx σ)
  /-- The task that holds the mutex, and what it still has to do. -/
  holder : Option (ι × Script σ ρ)
  turns : List (Turn ι κ τ)
  /-- A task that returned `none` has failed. -/
  phase : ι → Phase κ θ (Option ρ)

def State.initial (s : σ) : State σ κ θ τ ρ ι := ⟨s, 0, none, fun _ ↦ none, none, [], fun _ ↦ .idle⟩

/-- A task goes on to another phase. -/
def State.move [DecidableEq ι] (st : State σ κ θ τ ρ ι) (t : ι) (phase : Phase κ θ (Option ρ)) :
    State σ κ θ τ ρ ι := { st with phase := Function.update st.phase t phase }

inductive Label (κ θ τ ι : Type*)
  | act (label : Mutex.Label κ θ τ ι)
  /-- The database rolls back a transaction that was dropped. -/
  | rollback (t : ι)

/-- The open transaction of a task. -/
def State.current (st : State σ κ θ τ ρ ι) (t : ι) : Tx σ := (st.tx t).getD .fresh

/-- The next statement waits for the write lock. -/
def blocked (st : State σ κ θ τ ρ ι) : Bool :=
  match st.holder with
  | some (_, .execute _ _) => st.writer.isSome
  | some (t, .write _ _) =>
    match st.current t with
    | .fresh => st.writer.isSome
    | _ => false
  | _ => false

/-- The task whose next statement fails: it has read, and cannot get the write lock for what it has
read. -/
def busy (st : State σ κ θ τ ρ ι) : Option ι :=
  match st.holder with
  | some (t, .write _ _) =>
    match st.current t with
    | .reading mark _ => if st.writer.isSome || mark != st.commits then some t else none
    | _ => none
  | _ => none

section Step

variable [DecidableEq ι]

/-- A statement that goes through. -/
def perform (st : State σ κ θ τ ρ ι) (t : ι) : Script σ ρ → State σ κ θ τ ρ ι
  | .done result => { st.move t (.returned (some result)) with holder := none }
  | .execute change next =>
    { st with
      committed := change st.committed
      commits := st.commits + 1
      holder := some (t, next st.committed) }
  | .start next =>
    { st with
      tx := Function.update st.tx t (some .fresh)
      holder := some (t, next) }
  | .fetch next =>
    { st with
      tx := Function.update st.tx t (some ((st.current t).read st.commits st.committed))
      holder := some (t, next ((st.current t).view st.committed)) }
  | .write change next =>
    { st with
      writer := some t
      tx := Function.update st.tx t (some (.writing (change ((st.current t).view st.committed))))
      holder := some (t, next) }
  | .commit next =>
    match st.current t with
    | .writing copy =>
      { st with
        committed := copy
        commits := st.commits + 1
        writer := none
        tx := Function.update st.tx t none
        holder := some (t, next) }
    | _ =>
      { st with
        tx := Function.update st.tx t none
        holder := some (t, next) }

/-- The next statement of the task that holds the mutex. -/
def advance (st : State σ κ θ τ ρ ι) : State σ κ θ τ ρ ι :=
  if blocked st then st
  else
    match busy st with
    | some t => { st.move t (.returned none) with holder := none }
    | none =>
      match st.holder with
      | none => st
      | some (t, script) => perform st t script

variable (P : Mutex σ κ θ α τ ρ) (script : κ → τ → Script σ ρ)

/-- One step. A label that is not enabled does nothing. -/
def step (st : State σ κ θ τ ρ ι) : Label κ θ τ ι → State σ κ θ τ ρ ι
  | .act (.invoke t call) =>
    match st.phase t with
    | .idle => st.move t (.waiting call)
    | _ => st
  | .act (.ask t q) =>
    match st.phase t with
    | .idle => st.move t (.asking q)
    | _ => st
  | .act (.lock t now) =>
    match st.phase t, st.holder with
    | .waiting call, none =>
      { st.move t .inside with
        holder := some (t, script call now)
        turns := st.turns ++ [⟨t, call, now⟩] }
    | _, _ => st
  | .act .advance => advance st
  | .act (.select t) =>
    match st.phase t with
    | .asking q => st.move t (.returned (some (P.query q st.committed)))
    | _ => st
  | .act (.cancel t) =>
    match st.phase t with
    | .waiting _ | .asking _ => st.move t .cancelled
    | .inside => { st.move t .cancelled with holder := st.holder.filter fun h ↦ h.1 ≠ t }
    | _ => st
  | .rollback t =>
    match st.phase t with
    | .inside => st
    | _ =>
      { st with
        writer := st.writer.filter fun u ↦ u ≠ t
        tx := Function.update st.tx t none }

/-- What the step is under the mutex. A statement that fails drops its task. -/
def handed (st : State σ κ θ τ ρ ι) : Label κ θ τ ι → Option (Mutex.Label κ θ τ ι)
  | .act .advance =>
    if blocked st then none
    else
      match busy st with
      | some t => some (.cancel t)
      | none => some .advance
  | .act label => some label
  | .rollback _ => none

/-- The tasks under an arbitrary scheduler. -/
def machine : Machine (State σ κ θ τ ρ ι) (Label κ θ τ ι) (Option (Mutex.Label κ θ τ ι)) where
  step st label := (step P script st label, handed st label)

/-- The state after a run. -/
def after (s : σ) (labels : List (Label κ θ τ ι)) : State σ κ θ τ ρ ι :=
  (machine P script).run (State.initial s) labels

/-- What a run is under the mutex. -/
def forwarded (s : σ) (labels : List (Label κ θ τ ι)) : List (Mutex.Label κ θ τ ι) :=
  ((machine P script).trace (State.initial s) labels).filterMap Machine.Entry.output

end Step

/-! ## The run under the mutex -/

/-- A phase as it is under the mutex, where a task that fails is dropped. -/
def seen : Phase κ θ (Option ρ) → Phase κ θ ρ
  | .idle => .idle
  | .waiting call => .waiting call
  | .inside => .inside
  | .asking q => .asking q
  | .returned (some result) => .returned result
  | .returned none => .cancelled
  | .cancelled => .cancelled

/-- The transaction of the task that holds the mutex is up to date, and `written` is what it has
done to the database. -/
inductive Carries (commits : ℕ) (committed : σ) (writer : Option ι) (t : ι) :
    Option (Tx σ) → Script σ ρ → (σ → σ) → Prop
  | outside (script : Script σ ρ) (written : σ → σ) (hproper : script.Proper .outside)
      (hwriter : writer ≠ some t) : Carries commits committed writer t none script written
  | fresh (script : Script σ ρ) (hproper : script.Proper .reading) (hwriter : writer ≠ some t) :
      Carries commits committed writer t (some .fresh) script id
  | reading (script : Script σ ρ) (hproper : script.Proper .reading) (hwriter : writer ≠ some t) :
      Carries commits committed writer t (some (.reading commits committed)) script id
  | writing (script : Script σ ρ) (written : σ → σ) (hproper : script.Proper .writing)
      (hwriter : writer = some t) :
      Carries commits committed writer t (some (.writing (written committed))) script written

/-- The database and its tasks are in the state `m` under the mutex. -/
structure Follows (st : State σ κ θ τ ρ ι) (m : Mutex.State σ κ θ α τ ρ ι) : Prop where
  shared : m.shared = st.committed
  turns : m.turns = st.turns
  phase : ∀ t, m.phase t = seen (st.phase t)
  free : st.holder = none → m.holder = none
  held : ∀ t script, st.holder = some (t, script) → st.phase t = .inside ∧
    ∃ pending written, m.holder = some ⟨t, pending, script.toSection written⟩ ∧
      Carries st.commits st.committed st.writer t (st.tx t) script written
  inside : ∀ t, st.phase t = .inside → ∃ script, st.holder = some (t, script)
  fresh : ∀ t, (st.phase t).fresh = true → st.tx t = none
  /-- Who has the write lock holds the mutex, or was cancelled and waits for its rollback. -/
  writer : ∀ u, st.writer = some u → (∃ copy, st.tx u = some (.writing copy)) ∧
    (st.phase u = .inside ∨ st.phase u = .cancelled)

variable {P : Mutex σ κ θ α τ ρ} {script : κ → τ → Script σ ρ} {st : State σ κ θ τ ρ ι}
  {m : Mutex.State σ κ θ α τ ρ ι} {t u : ι} {s : σ}

theorem follows_initial (s : σ) :
    Follows (State.initial s : State σ κ θ τ ρ ι) (Mutex.State.initial (α := α) s) where
  shared := rfl
  turns := rfl
  phase _ := rfl
  free _ := rfl
  held t script h := absurd h (by simp [State.initial])
  inside t h := absurd h (by simp [State.initial])
  fresh _ _ := rfl
  writer u h := absurd h (by simp [State.initial])

/-- Only one task is inside. -/
theorem Follows.eq_of_inside (h : Follows st m) {script : Script σ ρ}
    (hholder : st.holder = some (t, script)) (hu : st.phase u = .inside) : u = t := by
  obtain ⟨script', hholder'⟩ := h.inside u hu
  rw [hholder] at hholder'
  exact (congrArg Prod.fst (Option.some.inj hholder')).symm

/-! ### The statements -/

/-- The task that holds the mutex goes on. -/
theorem Follows.proceed (h : Follows st m) {first next : Script σ ρ}
    (hholder : st.holder = some (t, first)) {st' : State σ κ θ τ ρ ι}
    {m' : Mutex.State σ κ θ α τ ρ ι} {pending : List α} {written : σ → σ}
    (hshared : m'.shared = st'.committed) (hturns : m'.turns = m.turns)
    (hturns' : st'.turns = st.turns) (hphase : m'.phase = m.phase)
    (hphase' : st'.phase = st.phase)
    (hm : m'.holder = some ⟨t, pending, next.toSection written⟩)
    (hholder' : st'.holder = some (t, next)) (htx : ∀ u ≠ t, st'.tx u = st.tx u)
    (hwriter : ∀ u ≠ t, st'.writer = some u → st.writer = some u)
    (hcarries : Carries st'.commits st'.committed st'.writer t (st'.tx t) next written) :
    Follows st' m' := by
  have hinside : st.phase t = .inside := (h.held t first hholder).1
  refine ⟨hshared, ?_, ?_, ?_, ?_, ?_, ?_, ?_⟩
  · rw [hturns, hturns', h.turns]
  · rw [hphase, hphase']
    exact h.phase
  · intro hfree
    exact absurd (hholder'.symm.trans hfree) (by simp)
  · intro u script hu
    obtain ⟨rfl, rfl⟩ := Prod.mk.inj (Option.some.inj (hholder'.symm.trans hu))
    rw [hphase']
    exact ⟨hinside, pending, written, hm, hcarries⟩
  · intro u hu
    rw [hphase'] at hu
    rw [h.eq_of_inside hholder hu]
    exact ⟨next, hholder'⟩
  · intro u hu
    rw [hphase'] at hu
    have hut : u ≠ t := by
      rintro rfl
      rw [hinside] at hu
      exact absurd hu (by simp [Phase.fresh])
    rw [htx u hut]
    exact h.fresh u hu
  · intro u hu
    rw [hphase']
    by_cases hut : u = t
    · subst hut
      refine ⟨?_, Or.inl hinside⟩
      generalize st'.tx u = tx at hcarries
      induction hcarries with
      | outside script written hproper hne => exact absurd hu hne
      | fresh script hproper hne => exact absurd hu hne
      | reading script hproper hne => exact absurd hu hne
      | writing script written hproper heq => exact ⟨_, rfl⟩
    · rw [htx u hut]
      exact h.writer u (hwriter u hut hu)

section Refinement

variable [DecidableEq ι]

theorem seen_move (h : ∀ u, m.phase u = seen (st.phase u)) (t : ι) (p : Phase κ θ (Option ρ))
    (u : ι) : (m.move t (seen p)).phase u = seen ((st.move t p).phase u) := by
  rw [Mutex.State.move, State.move]
  dsimp only
  by_cases hut : u = t
  · rw [hut, Function.update_self, Function.update_self]
  · rw [Function.update_of_ne hut, Function.update_of_ne hut]
    exact h u

theorem phase_move_self (t : ι) (p : Phase κ θ (Option ρ)) : (st.move t p).phase t = p :=
  Function.update_self ..

theorem phase_move_of_ne (hut : u ≠ t) (p : Phase κ θ (Option ρ)) :
    (st.move t p).phase u = st.phase u := Function.update_of_ne hut ..

/-- The task that holds the mutex gives it back. Only when it is cancelled may there be something
written in its transaction. -/
theorem Follows.release (h : Follows st m) {script : Script σ ρ}
    (hholder : st.holder = some (t, script)) (p : Phase κ θ (Option ρ)) (hp : p.fresh = false)
    (hinside : p ≠ .inside) (hwriter : p = .cancelled ∨ st.writer ≠ some t) :
    Follows { st.move t p with holder := none }
      ({ m.move t (seen p) with holder := none } : Mutex.State σ κ θ α τ ρ ι) where
  shared := h.shared
  turns := h.turns
  phase := seen_move h.phase t p
  free _ := rfl
  held u script hu := absurd hu (by simp)
  inside u hu := by
    by_cases hut : u = t
    · subst hut
      exact absurd ((phase_move_self u p).symm.trans hu) hinside
    · exact absurd (h.eq_of_inside hholder ((phase_move_of_ne hut p).symm.trans hu)) hut
  fresh u hu := by
    by_cases hut : u = t
    · subst hut
      rw [show ({ st.move u p with holder := none } : State σ κ θ τ ρ ι).phase u = p
        from phase_move_self u p, hp] at hu
      exact absurd hu (by simp)
    · exact h.fresh u ((congrArg Phase.fresh (phase_move_of_ne hut p)).symm.trans hu)
  writer u hu := by
    obtain ⟨hcopy, hphase⟩ := h.writer u hu
    refine ⟨hcopy, ?_⟩
    by_cases hut : u = t
    · subst hut
      exact Or.inr ((phase_move_self u p).trans (hwriter.resolve_right fun hne ↦ hne hu))
    · have hsame : (st.move t p).phase u = st.phase u := phase_move_of_ne hut p
      exact hphase.imp hsame.trans hsame.trans

section Carries

variable {commits : ℕ} {committed : σ} {writer : Option ι} {tx : Tx σ} {written : σ → σ}

omit [DecidableEq ι] in
/-- What an open transaction sees is the database with its own changes. -/
theorem Carries.view {script : Script σ ρ}
    (h : Carries commits committed writer t (some tx) script written) :
    tx.view committed = written committed := by
  cases h with
  | fresh script hproper hwriter => rfl
  | reading script hproper hwriter => rfl
  | writing script written hproper hwriter => rfl

omit [DecidableEq ι] in
theorem Carries.done {result : ρ} {current : Option (Tx σ)}
    (h : Carries commits committed writer t current (.done result) written) :
    writer ≠ some t := by
  cases h with
  | outside script written hproper hwriter => exact hwriter
  | fresh script hproper hwriter => exact hwriter
  | reading script hproper hwriter => exact hwriter
  | writing script written hproper hwriter => exact absurd rfl hproper

omit [DecidableEq ι] in
theorem Carries.execute {change : σ → σ} {next : σ → Script σ ρ} {current : Option (Tx σ)}
    (h : Carries commits committed writer t current (.execute change next) written) :
    current = none ∧ (∀ s, (next s).Proper .outside) ∧ writer ≠ some t := by
  cases h with
  | outside script written hproper hwriter => exact ⟨rfl, hproper.2, hwriter⟩
  | fresh script hproper hwriter => exact absurd hproper.1 (by simp)
  | reading script hproper hwriter => exact absurd hproper.1 (by simp)
  | writing script written hproper hwriter => exact absurd hproper.1 (by simp)

omit [DecidableEq ι] in
theorem Carries.start {next : Script σ ρ} {current : Option (Tx σ)}
    (h : Carries commits committed writer t current (.start next) written) :
    Carries commits committed writer t (some .fresh) next id := by
  cases h with
  | outside script written hproper hwriter => exact .fresh _ hproper.2 hwriter
  | fresh script hproper hwriter => exact absurd hproper.1 (by simp)
  | reading script hproper hwriter => exact absurd hproper.1 (by simp)
  | writing script written hproper hwriter => exact absurd hproper.1 (by simp)

omit [DecidableEq ι] in
theorem Carries.fetch {next : σ → Script σ ρ}
    (h : Carries commits committed writer t (some tx) (.fetch next) written) (s : σ) :
    Carries commits committed writer t (some (tx.read commits committed)) (next s) written := by
  cases h with
  | fresh script hproper hwriter => exact .reading _ (hproper.2 s) hwriter
  | reading script hproper hwriter => exact .reading _ (hproper.2 s) hwriter
  | writing script written hproper hwriter => exact .writing _ _ (hproper.2 s) hwriter

omit [DecidableEq ι] in
theorem Carries.write {change : σ → σ} {next : Script σ ρ}
    (h : Carries commits committed writer t (some tx) (.write change next) written) :
    Carries commits committed (some t) t (some (.writing (change (tx.view committed)))) next
      (change ∘ written) := by
  rw [h.view]
  cases h with
  | fresh script hproper hwriter => exact .writing _ _ hproper.2 rfl
  | reading script hproper hwriter => exact .writing _ _ hproper.2 rfl
  | writing script written hproper hwriter => exact .writing next (change ∘ written) hproper.2 rfl

omit [DecidableEq ι] in
/-- A transaction is open where one has to be. -/
theorem Carries.exists_tx {script : Script σ ρ} {current : Option (Tx σ)}
    (h : Carries commits committed writer t current script written)
    (hproper : ¬script.Proper .outside) : ∃ tx, current = some tx := by
  cases h with
  | outside script written hproper' hwriter => exact absurd hproper' hproper
  | fresh script hproper' hwriter => exact ⟨_, rfl⟩
  | reading script hproper' hwriter => exact ⟨_, rfl⟩
  | writing script written hproper' hwriter => exact ⟨_, rfl⟩

end Carries

/-- A commit makes the committed database what the transaction has made of it. -/
theorem Follows.commit (h : Follows st m) {next : Script σ ρ}
    (hholder : st.holder = some (t, .commit next)) :
    Follows (perform st t (.commit next)) (P.step m .advance).1 := by
  obtain ⟨hinside, pending, written, hm, hcarries⟩ := h.held t _ hholder
  obtain ⟨tx, htx⟩ := hcarries.exists_tx fun hproper ↦ hproper.1 rfl
  rw [htx] at hcarries
  have hcurrent : st.current t = tx := by rw [State.current, htx, Option.getD_some]
  have hstep : (P.step m .advance).1 = { m with
      shared := written m.shared
      holder := some ⟨t, pending.tail, next.toSection id⟩ } := by
    rw [Mutex.step, hm]
    rfl
  rw [hstep, perform, hcurrent, h.shared]
  cases hcarries with
  | fresh script hproper hwriter =>
    refine h.proceed hholder rfl rfl rfl rfl rfl rfl rfl
      (fun u hu ↦ Function.update_of_ne hu ..) (fun _ _ ↦ id) ?_
    dsimp only
    rw [Function.update_self]
    exact .outside _ _ hproper.2 hwriter
  | reading script hproper hwriter =>
    refine h.proceed hholder rfl rfl rfl rfl rfl rfl rfl
      (fun u hu ↦ Function.update_of_ne hu ..) (fun _ _ ↦ id) ?_
    dsimp only
    rw [Function.update_self]
    exact .outside _ _ hproper.2 hwriter
  | writing script written hproper hwriter =>
    -- The transaction has the write lock, and gives it back.
    refine h.proceed hholder rfl rfl rfl rfl rfl rfl rfl
      (fun u hu ↦ Function.update_of_ne hu ..) (fun _ _ hw ↦ absurd hw (by simp)) ?_
    dsimp only
    rw [Function.update_self]
    exact .outside _ _ hproper.2 (by simp)

/-- A statement that goes through is a step under the mutex. -/
theorem Follows.statement (h : Follows st m) {script : Script σ ρ}
    (hholder : st.holder = some (t, script)) :
    Follows (perform st t script) (P.step m .advance).1 := by
  obtain ⟨hinside, pending, written, hm, hcarries⟩ := h.held t script hholder
  -- The transaction that a statement inside one has.
  have hopen : ¬script.Proper .outside → ∃ tx, st.tx t = some tx ∧ st.current t = tx := by
    intro hproper
    obtain ⟨tx, htx⟩ := hcarries.exists_tx hproper
    exact ⟨tx, htx, by rw [State.current, htx, Option.getD_some]⟩
  cases script with
  | done result =>
    rw [Mutex.step, hm]
    exact h.release hholder (.returned (some result)) rfl (by simp) (Or.inr hcarries.done)
  | execute change next =>
    obtain ⟨htx, hproper, hwriter⟩ := hcarries.execute
    have hstep : (P.step m .advance).1 = { m with
        shared := change m.shared
        holder := some ⟨t, pending.tail, (next m.shared).toSection written⟩ } := by
      rw [Mutex.step, hm]
      rfl
    rw [hstep, h.shared]
    refine h.proceed hholder rfl rfl rfl rfl rfl rfl rfl (fun _ _ ↦ rfl) (fun _ _ ↦ id) ?_
    rw [perform]
    dsimp only
    rw [htx]
    exact .outside _ _ (hproper _) hwriter
  | start next =>
    have hstep : (P.step m .advance).1
        = { m with holder := some ⟨t, pending, next.toSection id⟩ } := by
      rw [Mutex.step, hm]
      rfl
    rw [hstep]
    refine h.proceed hholder h.shared rfl rfl rfl rfl rfl rfl
      (fun u hu ↦ Function.update_of_ne hu ..) (fun _ _ ↦ id) ?_
    rw [perform]
    dsimp only
    rw [Function.update_self]
    exact hcarries.start
  | fetch next =>
    obtain ⟨tx, htx, hcurrent⟩ := hopen fun hproper ↦ hproper.1 rfl
    rw [htx] at hcarries
    have hstep : (P.step m .advance).1
        = { m with holder := some ⟨t, pending, (next (written m.shared)).toSection written⟩ } := by
      rw [Mutex.step, hm]
      rfl
    rw [hstep, perform, hcurrent, hcarries.view, h.shared]
    refine h.proceed hholder rfl rfl rfl rfl rfl rfl rfl
      (fun u hu ↦ Function.update_of_ne hu ..) (fun _ _ ↦ id) ?_
    dsimp only
    rw [Function.update_self]
    exact hcarries.fetch _
  | write change next =>
    obtain ⟨tx, htx, hcurrent⟩ := hopen fun hproper ↦ hproper.1 rfl
    rw [htx] at hcarries
    have hstep : (P.step m .advance).1
        = { m with holder := some ⟨t, pending, next.toSection (change ∘ written)⟩ } := by
      rw [Mutex.step, hm]
      rfl
    rw [hstep, perform, hcurrent]
    refine h.proceed hholder h.shared rfl rfl rfl rfl rfl rfl
      (fun u hu ↦ Function.update_of_ne hu ..)
      (fun u hu hw ↦ absurd (Option.some.inj hw).symm hu) ?_
    dsimp only
    rw [Function.update_self]
    exact hcarries.write
  | commit next => exact h.commit hholder

omit [DecidableEq ι] in
/-- A statement fails only while a task that was cancelled has the write lock. -/
theorem Follows.busy (h : Follows st m) (hbusy : busy st = some t) :
    (∃ script, st.holder = some (t, script)) ∧
      ∃ u, st.writer = some u ∧ st.phase u = .cancelled := by
  rw [Snapshot.busy] at hbusy
  split at hbusy
  next t' change next hholder =>
    split at hbusy
    next mark snapshot hcurrent =>
      split_ifs at hbusy with hcondition
      obtain rfl := Option.some.inj hbusy
      refine ⟨⟨_, hholder⟩, ?_⟩
      obtain ⟨hinside, pending, written, hm, hcarries⟩ := h.held t' _ hholder
      obtain ⟨tx, htx⟩ := hcarries.exists_tx fun hproper ↦ hproper.1 rfl
      rw [State.current, htx, Option.getD_some] at hcurrent
      rw [htx, hcurrent] at hcarries
      cases hcarries with
      | reading script hproper hwriter =>
        -- The snapshot is the database as it is, so it can only be the lock.
        rw [bne_self_eq_false, Bool.or_false] at hcondition
        obtain ⟨u, hu⟩ := Option.isSome_iff_exists.mp hcondition
        refine ⟨u, hu, (h.writer u hu).2.resolve_left fun hinside' ↦ hwriter ?_⟩
        rw [← h.eq_of_inside hholder hinside', hu]
    next => exact absurd hbusy (by simp)
  next => exact absurd hbusy (by simp)

/-- A task that has done nothing yet goes on to a phase other than being inside. -/
theorem Follows.moveFresh (h : Follows st m) (hold : (st.phase t).fresh = true)
    {p : Phase κ θ (Option ρ)} (hp : p ≠ .inside) : Follows (st.move t p) (m.move t (seen p)) where
  shared := h.shared
  turns := h.turns
  phase := seen_move h.phase t p
  free := h.free
  held u script hu := by
    obtain ⟨hinside, hheld⟩ := h.held u script hu
    refine ⟨?_, hheld⟩
    rw [phase_move_of_ne ?_, hinside]
    rintro rfl
    rw [hinside] at hold
    exact absurd hold (by simp [Phase.fresh])
  inside u hu := by
    by_cases hut : u = t
    · subst hut
      exact absurd ((phase_move_self u p).symm.trans hu) hp
    · exact h.inside u ((phase_move_of_ne hut p).symm.trans hu)
  fresh u hu := by
    by_cases hut : u = t
    · subst hut
      exact h.fresh u hold
    · exact h.fresh u ((congrArg Phase.fresh (phase_move_of_ne hut p)).symm.trans hu)
  writer u hu := by
    obtain ⟨hcopy, hphase⟩ := h.writer u hu
    have hut : u ≠ t := by
      rintro rfl
      rcases hphase with hphase | hphase
      all_goals
        rw [hphase] at hold
        exact absurd hold (by simp [Phase.fresh])
    have hsame : (st.move t p).phase u = st.phase u := phase_move_of_ne hut p
    exact ⟨hcopy, hphase.imp hsame.trans hsame.trans⟩

/-- A task takes the mutex. -/
theorem Follows.lock (h : Follows st m) {script : Script σ ρ} (hproper : script.Proper .outside)
    {call : κ} (hphase : st.phase t = .waiting call) (hfree : st.holder = none) (now : τ)
    {pending : List α} {rest : CriticalSection σ ρ} (hrest : rest = script.toSection id) :
    Follows { st.move t .inside with
        holder := some (t, script)
        turns := st.turns ++ [⟨t, call, now⟩] }
      { m.move t .inside with
        holder := some ⟨t, pending, rest⟩
        turns := m.turns ++ [⟨t, call, now⟩] } where
  shared := h.shared
  turns := congrArg (· ++ [⟨t, call, now⟩]) h.turns
  phase := seen_move h.phase t .inside
  free hnone := absurd hnone (by simp)
  held u script' hu := by
    obtain ⟨rfl, rfl⟩ := Prod.mk.inj (Option.some.inj hu)
    refine ⟨phase_move_self t .inside, pending, id, by rw [hrest], ?_⟩
    rw [show ({ st.move t .inside with
        holder := some (t, script)
        turns := st.turns ++ [⟨t, call, now⟩] } : State σ κ θ τ ρ ι).tx t = none
      from h.fresh t (by rw [hphase]; rfl)]
    refine .outside _ _ hproper fun hwriter ↦ ?_
    rcases (h.writer t hwriter).2 with hphase' | hphase'
    all_goals exact absurd (hphase.symm.trans hphase') (by simp)
  inside u hu := by
    by_cases hut : u = t
    · exact ⟨script, by rw [hut]⟩
    · obtain ⟨script', hholder⟩ := h.inside u ((phase_move_of_ne hut .inside).symm.trans hu)
      exact absurd (hfree.symm.trans hholder) (by simp)
  fresh u hu := by
    by_cases hut : u = t
    · rw [hut, show ({ st.move t .inside with
          holder := some (t, script)
          turns := st.turns ++ [⟨t, call, now⟩] } : State σ κ θ τ ρ ι).phase t = .inside
        from phase_move_self t .inside] at hu
      exact absurd hu (by simp [Phase.fresh])
    · exact h.fresh u ((congrArg Phase.fresh (phase_move_of_ne hut .inside)).symm.trans hu)
  writer u hu := by
    obtain ⟨hcopy, hphase'⟩ := h.writer u hu
    have hut : u ≠ t := by
      rintro rfl
      rcases hphase' with hphase' | hphase'
      all_goals exact absurd (hphase.symm.trans hphase') (by simp)
    have hsame : (st.move t .inside).phase u = st.phase u := phase_move_of_ne hut .inside
    exact ⟨hcopy, hphase'.imp hsame.trans hsame.trans⟩

/-- The database rolls back a transaction whose task is not inside any more. -/
theorem Follows.rollback (h : Follows st m) (hphase : st.phase t ≠ .inside) :
    Follows { st with
      writer := st.writer.filter fun u ↦ u ≠ t
      tx := Function.update st.tx t none } m where
  shared := h.shared
  turns := h.turns
  phase := h.phase
  free := h.free
  held u script hu := by
    obtain ⟨hinside, pending, written, hm, hcarries⟩ := h.held u script hu
    have hut : u ≠ t := by
      rintro rfl
      exact hphase hinside
    refine ⟨hinside, pending, written, hm, ?_⟩
    dsimp only
    rw [Function.update_of_ne hut]
    have hwriter : st.writer ≠ some u → st.writer.filter (fun u ↦ u ≠ t) ≠ some u :=
      fun hne heq ↦ hne (Option.filter_eq_some_iff.mp heq).1
    generalize st.tx u = current at hcarries
    induction hcarries with
    | outside script written hproper hne => exact .outside _ _ hproper (hwriter hne)
    | fresh script hproper hne => exact .fresh _ hproper (hwriter hne)
    | reading script hproper hne => exact .reading _ hproper (hwriter hne)
    | writing script written hproper heq =>
      refine .writing _ _ hproper (Option.filter_eq_some_iff.mpr ⟨heq, ?_⟩)
      simpa using hut
  inside := h.inside
  fresh u hu := by
    dsimp only
    by_cases hut : u = t
    · rw [hut, Function.update_self]
    · rw [Function.update_of_ne hut]
      exact h.fresh u hu
  writer u hu := by
    obtain ⟨hu, hne⟩ := Option.filter_eq_some_iff.mp hu
    have hut : u ≠ t := by simpa using hne
    dsimp only
    rw [Function.update_of_ne hut]
    exact h.writer u hu

/-- The holder of the mutex goes on: its next statement waits, goes through or fails. -/
theorem Follows.advance (h : Follows st m) :
    Follows (Snapshot.step P script st (.act .advance))
      (P.machine.run m (handed st (.act .advance)).toList) := by
  have hrun : ∀ l, P.machine.run m [l] = (P.step m l).1 := fun _ ↦ rfl
  rw [handed, Snapshot.step, Snapshot.advance]
  split_ifs
  · exact h
  · rcases hbusy : Snapshot.busy st with _ | t
    · rw [Option.toList_some, hrun]
      rcases hholder : st.holder with _ | ⟨t, script'⟩
      · rw [Mutex.step, h.free hholder]
        exact h
      · exact h.statement hholder
    · obtain ⟨⟨script', hholder⟩, u, hu, hcancelled⟩ := h.busy hbusy
      obtain ⟨hinside, pending, written, hm, -⟩ := h.held t script' hholder
      rw [Option.toList_some, hrun, Mutex.step, h.phase t, hinside]
      have hfilter : m.holder.filter (fun holder ↦ holder.task ≠ t) = none := by
        rw [hm, Option.filter_some, if_neg (by simp)]
      rw [seen]
      dsimp only
      rw [hfilter]
      refine h.release hholder (.returned none) rfl (by simp) (Or.inr ?_)
      rw [hu]
      rintro ⟨⟩
      exact absurd (hinside.symm.trans hcancelled) (by simp)

/-- A task is dropped. -/
theorem Follows.cancel (h : Follows st m) (t : ι) :
    Follows (Snapshot.step P script st (.act (.cancel t)))
      (P.machine.run m (handed st (.act (.cancel t))).toList) := by
  change Follows _ (P.step m (.cancel t)).1
  rw [Mutex.step, h.phase t, Snapshot.step]
  rcases hphase : st.phase t with _ | _ | _ | _ | (_ | _) | _
  · exact h
  · exact h.moveFresh (p := .cancelled) (by rw [hphase]; rfl) (by simp)
  · obtain ⟨script', hholder⟩ := h.inside t hphase
    obtain ⟨-, pending, written, hm, -⟩ := h.held t script' hholder
    have hfilter : m.holder.filter (fun holder ↦ holder.task ≠ t) = none := by
      rw [hm, Option.filter_some, if_neg (by simp)]
    have hfilter' : st.holder.filter (fun holder ↦ holder.1 ≠ t) = none := by
      rw [hholder, Option.filter_some, if_neg (by simp)]
    rw [seen]
    dsimp only
    rw [hfilter, hfilter']
    exact h.release hholder .cancelled rfl (by simp) (Or.inl rfl)
  · exact h.moveFresh (p := .cancelled) (by rw [hphase]; rfl) (by simp)
  all_goals exact h

/-- One step. -/
theorem Follows.step (hsection : ∀ call now, P.body call now = (script call now).toSection id)
    (hproper : ∀ call now, (script call now).Proper .outside) (h : Follows st m)
    (label : Label κ θ τ ι) :
    Follows (step P script st label) (P.machine.run m (handed st label).toList) := by
  rcases label with (⟨t, call⟩ | ⟨t, q⟩ | ⟨t, now⟩ | _ | t | t) | t
  · change Follows _ (P.step m (.invoke t call)).1
    rw [Mutex.step, h.phase t, Snapshot.step]
    rcases hphase : st.phase t with _ | _ | _ | _ | (_ | _) | _
    · exact h.moveFresh (by rw [hphase]; rfl) (by simp)
    all_goals exact h
  · change Follows _ (P.step m (.ask t q)).1
    rw [Mutex.step, h.phase t, Snapshot.step]
    rcases hphase : st.phase t with _ | _ | _ | _ | (_ | _) | _
    · exact h.moveFresh (by rw [hphase]; rfl) (by simp)
    all_goals exact h
  · change Follows _ (P.step m (.lock t now)).1
    rw [Mutex.step, h.phase t, Snapshot.step]
    rcases hphase : st.phase t with _ | call | _ | _ | (_ | _) | _
    · exact h
    · rcases hholder : st.holder with _ | ⟨u, script'⟩
      · rw [h.free hholder]
        exact h.lock (hproper call now) hphase hholder now (hsection call now)
      · obtain ⟨-, pending, written, hm, -⟩ := h.held u script' hholder
        rw [hm]
        exact h
    all_goals exact h
  · exact h.advance
  · change Follows _ (P.step m (.select t)).1
    rw [Mutex.step, h.phase t, Snapshot.step]
    rcases hphase : st.phase t with _ | _ | _ | q | (_ | _) | _
    · exact h
    · exact h
    · exact h
    · rw [seen]
      dsimp only
      rw [h.shared]
      exact h.moveFresh (p := .returned (some _)) (by rw [hphase]; rfl) (by simp)
    all_goals exact h
  · exact h.cancel t
  · rw [handed, Snapshot.step]
    rcases hphase : st.phase t with _ | _ | _ | _ | _ | _
    · exact h.rollback (by simp [hphase])
    · exact h.rollback (by simp [hphase])
    · exact h
    all_goals exact h.rollback (by simp [hphase])

/-! ## Runs -/

theorem after_concat (past : List (Label κ θ τ ι)) (label : Label κ θ τ ι) :
    after P script s (past ++ [label]) = Snapshot.step P script (after P script s past) label :=
  Machine.run_concat ..

theorem forwarded_concat (past : List (Label κ θ τ ι)) (label : Label κ θ τ ι) :
    forwarded P script s (past ++ [label])
      = forwarded P script s past ++ (handed (after P script s past) label).toList :=
  Machine.filterMap_trace_concat ..

theorem follows_after (hsection : ∀ call now, P.body call now = (script call now).toSection id)
    (hproper : ∀ call now, (script call now).Proper .outside) (s : σ)
    (labels : List (Label κ θ τ ι)) :
    Follows (after P script s labels) (P.after s (forwarded P script s labels)) := by
  induction labels using List.reverseRecOn with
  | nil => exact follows_initial s
  | append_singleton past label ih =>
    have hstep := ih.step hsection hproper label
    rw [after_concat, forwarded_concat, Mutex.after, Machine.run_append]
    exact hstep

theorem phase_of_move {p x : Phase κ θ (Option ρ)} (hp : p ≠ x) (h : (st.move u p).phase t = x) :
    st.phase t = x := by
  by_cases htu : t = u
  · subst htu
    exact absurd ((phase_move_self t p).symm.trans h) hp
  · exact (phase_move_of_ne htu p).symm.trans h

/-- A statement that goes through neither fails nor cancels a task. -/
theorem phase_of_perform {script : Script σ ρ} {x : Phase κ θ (Option ρ)}
    (hx : ∀ result, x ≠ .returned (some result)) (h : (perform st u script).phase t = x) :
    st.phase t = x := by
  induction script with
  | done result => exact phase_of_move (hx result).symm h
  | execute change next => exact h
  | start next => exact h
  | fetch next => exact h
  | write change next => exact h
  | commit next =>
    rw [perform] at h
    split at h
    next => exact h
    next => exact h

/-- A statement only drops a task that fails at it. -/
theorem dropped_of_advance {x : Phase κ θ (Option ρ)} (hx : seen x = .cancelled)
    (h : (Snapshot.step P script st (.act .advance)).phase t = x) :
    st.phase t = x ∨ x = .returned none ∧ Snapshot.busy st = some t := by
  rw [Snapshot.step, advance] at h
  split_ifs at h
  · exact Or.inl h
  · split at h
    next u hbusy =>
      by_cases htu : t = u
      · subst htu
        exact Or.inr ⟨((phase_move_self t _).symm.trans h).symm, hbusy⟩
      · exact Or.inl ((phase_move_of_ne htu _).symm.trans h)
    next =>
      split at h
      next => exact Or.inl h
      next =>
        refine Or.inl (phase_of_perform ?_ h)
        rintro result rfl
        exact absurd hx (by simp [seen])

/-- The scheduler only drops the task that it cancels. -/
theorem dropped_of_cancel {x : Phase κ θ (Option ρ)}
    (h : (Snapshot.step P script st (.act (.cancel u))).phase t = x) :
    st.phase t = x ∨ x = .cancelled ∧ u = t := by
  by_cases htu : t = u
  · subst htu
    rw [Snapshot.step] at h
    split at h
    next => exact Or.inr ⟨((phase_move_self t _).symm.trans h).symm, rfl⟩
    next => exact Or.inr ⟨((phase_move_self t _).symm.trans h).symm, rfl⟩
    next => exact Or.inr ⟨((phase_move_self t .cancelled).symm.trans h).symm, rfl⟩
    next => exact Or.inl h
  · rw [Snapshot.step] at h
    split at h
    next => exact Or.inl ((phase_move_of_ne htu _).symm.trans h)
    next => exact Or.inl ((phase_move_of_ne htu _).symm.trans h)
    next => exact Or.inl ((phase_move_of_ne htu .cancelled).symm.trans h)
    next => exact Or.inl h

/-- How a task is dropped: the scheduler cancels it, or it fails at a statement. -/
theorem dropped_of_step {label : Label κ θ τ ι} {x : Phase κ θ (Option ρ)}
    (hx : seen x = .cancelled) (h : (Snapshot.step P script st label).phase t = x) :
    st.phase t = x ∨ x = .cancelled ∧ label = .act (.cancel t) ∨
      x = .returned none ∧ label = .act .advance ∧ Snapshot.busy st = some t := by
  -- No task goes on to `x` in any other way.
  have hmove : ∀ {u} {p : Phase κ θ (Option ρ)}, seen p ≠ .cancelled →
      (st.move u p).phase t = x → st.phase t = x := by
    intro u p hp hmoved
    refine phase_of_move ?_ hmoved
    rintro rfl
    exact hp hx
  rcases label with (⟨u, call⟩ | ⟨u, q⟩ | ⟨u, now⟩ | _ | u | u) | u
  · rw [Snapshot.step] at h
    split at h
    next => exact Or.inl (hmove (by simp [seen]) h)
    next => exact Or.inl h
  · rw [Snapshot.step] at h
    split at h
    next => exact Or.inl (hmove (by simp [seen]) h)
    next => exact Or.inl h
  · rw [Snapshot.step] at h
    split at h
    next => exact Or.inl (hmove (p := .inside) (by simp [seen]) h)
    next => exact Or.inl h
  · obtain hsame | ⟨hnone, hbusy⟩ := dropped_of_advance hx h
    · exact Or.inl hsame
    · exact Or.inr (Or.inr ⟨hnone, rfl, hbusy⟩)
  · rw [Snapshot.step] at h
    split at h
    next => exact Or.inl (hmove (by simp [seen]) h)
    next => exact Or.inl h
  · obtain hsame | ⟨hcancelled, rfl⟩ := dropped_of_cancel h
    · exact Or.inl hsame
    · exact Or.inr (Or.inl ⟨hcancelled, rfl⟩)
  · rw [Snapshot.step] at h
    split at h
    next => exact Or.inl h
    next => exact Or.inl h

theorem cancel_mem_of_cancelled {labels : List (Label κ θ τ ι)}
    (h : (after P script s labels).phase t = .cancelled) : .act (.cancel t) ∈ labels := by
  induction labels using List.reverseRecOn with
  | nil => exact absurd h (by simp [after, State.initial])
  | append_singleton past label ih =>
    rw [after_concat] at h
    rcases dropped_of_step rfl h with hbefore | ⟨-, rfl⟩ | ⟨hx, -⟩
    · exact List.mem_append_left _ (ih hbefore)
    · exact List.mem_append_right _ (List.mem_singleton_self _)
    · exact absurd hx (by simp)

theorem busy_of_failed {labels : List (Label κ θ τ ι)}
    (h : (after P script s labels).phase t = .returned none) :
    ∃ past, past ++ [.act .advance] <+: labels ∧
      Snapshot.busy (after P script s past) = some t := by
  induction labels using List.reverseRecOn with
  | nil => exact absurd h (by simp [after, State.initial])
  | append_singleton past label ih =>
    rw [after_concat] at h
    rcases dropped_of_step rfl h with hbefore | ⟨hx, -⟩ | ⟨-, rfl, hbusy⟩
    · obtain ⟨earlier, hpre, hbusy⟩ := ih hbefore
      exact ⟨earlier, hpre.trans (List.prefix_append _ _), hbusy⟩
    · exact absurd hx (by simp)
    · exact ⟨past, List.prefix_rfl, hbusy⟩

variable (P script) in
/-- A run of transactions is one of critical sections. -/
structure Upholds (s : σ) (labels : List (Label κ θ τ ι)) : Prop where
  /-- Under the mutex, the run serialises. -/
  serialises : P.Serialises s (forwarded P script s labels)
  /-- What is committed is the shared state there. -/
  committed : (after P script s labels).committed
    = (P.after s (forwarded P script s labels)).shared
  /-- The tasks return what they return there. -/
  result : ∀ t result, (after P script s labels).phase t = .returned (some result) ↔
    (P.after s (forwarded P script s labels)).phase t = .returned result
  /-- A task that fails does so while a task that was cancelled has the write lock. -/
  failed : ∀ t, (after P script s labels).phase t = .returned none →
    ∃ past u, past ++ [.act .advance] <+: labels ∧ Snapshot.busy (after P script s past) = some t ∧
      .act (.cancel u) ∈ past ∧ (after P script s past).writer = some u

/-- **The mutex makes up for the snapshots**, whatever the scheduler does. -/
theorem upholds (hsound : P.Sound)
    (hsection : ∀ call now, P.body call now = (script call now).toSection id)
    (hproper : ∀ call now, (script call now).Proper .outside) (s : σ)
    (labels : List (Label κ θ τ ι)) : Upholds P script s labels := by
  have hfollows := follows_after hsection hproper s labels
  refine ⟨P.serialises hsound s _, hfollows.shared.symm, fun t result ↦ ?_, fun t ht ↦ ?_⟩
  · rw [hfollows.phase t]
    rcases (after P script s labels).phase t with _ | _ | _ | _ | (_ | _) | _
    all_goals simp [seen]
  · obtain ⟨past, hpre, hbusy⟩ := busy_of_failed ht
    obtain ⟨-, u, hu, hcancelled⟩ := (follows_after hsection hproper s past).busy hbusy
    exact ⟨past, u, hpre, hbusy, cancel_mem_of_cancelled hcancelled, hu⟩

end Refinement

end Snapshot

end Library
