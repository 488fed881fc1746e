import ChatStore.Library.Frontend
import Mathlib.Algebra.BigOperators.Group.Finset.Piecewise

/-!
# A server over a pool of connections

The tasks of a server reach the shared state through connections, of which there are only so many. A
task takes one for its query. A critical section takes one for each of its transactions: it has the
connection from the first step of the transaction to the step that publishes it, or to the end of
the section when there is nothing to publish. So a task can wait for the mutex, or wait for a
connection while it holds the mutex, but nobody waits for the mutex while having a connection.

`settles` is what this order gives. As long as the pool has one connection at all, the server cannot
get stuck, and it cannot be busy forever with finitely many requests: `Remains` counts the steps
that a task still has before it, and every step takes one from a task and leaves the others alone.
The runs over a pool are runs of the server (`server_after`), so what is known of those carries
over.
-/

namespace Library

variable {σ ρ κ θ α τ ι R ο : Type*}

namespace CriticalSection

/-- Nothing is left but to return. -/
def isDone : CriticalSection σ ρ → Bool
  | .done _ => true
  | .look _ | .publish _ _ => false

/-- The section returns after at most `n` steps. -/
def Within : CriticalSection σ ρ → ℕ → Prop
  | .done _, _ => True
  | .look next, n => ∃ k, n = k + 1 ∧ ∀ s, (next s).Within k
  | .publish _ next, n => ∃ k, n = k + 1 ∧ ∀ s, (next s).Within k

end CriticalSection

namespace Pool

/-! ## The machine -/

/-- The server, and the tasks that have a connection. -/
structure State (σ κ θ α τ ρ ι R : Type*) where
  server : Frontend.State σ κ θ α τ ρ ι R
  connected : List ι

def State.initial (s : σ) : State σ κ θ α τ ρ ι R := ⟨Frontend.State.initial s, []⟩

/-- The phase of a task. -/
abbrev State.phase (st : State σ κ θ α τ ρ ι R) (t : ι) : Mutex.Phase κ θ ρ :=
  st.server.mutex.phase t

/-- The task that holds the mutex. -/
abbrev State.holder (st : State σ κ θ α τ ρ ι R) : Option (Mutex.Holder ι σ α ρ) :=
  st.server.mutex.holder

inductive Label (R τ ι : Type*)
  | server (label : Frontend.Label R τ ι)
  /-- A task takes a connection. -/
  | connect (t : ι)

/-- The label brings a new request. -/
def Label.isReceive : Label R τ ι → Bool
  | .server (.receive _ _) => true
  | _ => false

/-- The label drops a task. -/
def Label.isCancel : Label R τ ι → Bool
  | .server (.cancel _) => true
  | _ => false

/-- The task has not returned and was not dropped. -/
def pending : Mutex.Phase κ θ ρ → Bool
  | .waiting _ | .inside | .asking _ => true
  | .idle | .returned _ | .cancelled => false

variable (P : Mutex σ κ θ α τ ρ) (plan : R → Plan κ θ ρ ο) (limit : ℕ) [DecidableEq ι]

/-- The next step of the task is one on the shared state. -/
def needs (st : Mutex.State σ κ θ α τ ρ ι) (t : ι) : Bool :=
  match st.phase t with
  | .asking _ => true
  | .inside => st.holder.any fun h ↦ decide (h.task = t) && !h.rest.isDone
  | _ => false

/-- The step publishes what the task has done. -/
def publishes (st : Mutex.State σ κ θ α τ ρ ι) : Frontend.Label R τ ι → ι → Bool
  | .advance, t => match st.holder with
    | some ⟨u, _, .publish _ _⟩ => u = t
    | _ => false
  | _, _ => false

/-- What can happen next. -/
def enabled (st : State σ κ θ α τ ρ ι R) : Label R τ ι → Bool
  | .connect t =>
    needs st.server.mutex t && !decide (t ∈ st.connected) && decide (st.connected.length < limit)
  | .server (.receive t _) => (st.server.request t).isNone
  | .server (.lock t _) =>
    match st.phase t with
    | .waiting _ => st.holder.isNone
    | _ => false
  | .server .advance => st.holder.any fun h ↦ h.rest.isDone || decide (h.task ∈ st.connected)
  | .server (.select t) =>
    match st.phase t with
    | .asking _ => decide (t ∈ st.connected)
    | _ => false
  | .server (.cancel t) => pending (st.phase t)

variable [Inhabited τ]

/-- One step. A label that is not enabled does nothing. Connections go back to the pool by
themselves. -/
def step (st : State σ κ θ α τ ρ ι R) (label : Label R τ ι) : State σ κ θ α τ ρ ι R :=
  if enabled limit st label then
    match label with
    | .connect t => { st with connected := t :: st.connected }
    | .server label =>
      let server' := (Frontend.step P plan st.server label).1
      ⟨server', st.connected.filter fun t ↦
        needs server'.mutex t && !publishes st.server.mutex label t⟩
  else st

/-- What is handed to the server. -/
def handed (st : State σ κ θ α τ ρ ι R) : Label R τ ι → Option (Frontend.Label R τ ι)
  | .server label => if enabled limit st (.server label) then some label else none
  | .connect _ => none

/-- The pool under an arbitrary scheduler. -/
def machine : Machine (State σ κ θ α τ ρ ι R) (Label R τ ι) (Option (Frontend.Label R τ ι)) where
  step st label := (step P plan limit st label, handed limit st label)

/-- The state after a run. -/
def after (s : σ) (labels : List (Label R τ ι)) : State σ κ θ α τ ρ ι R :=
  (machine P plan limit).run (State.initial s) labels

/-- What a run hands to the server. -/
def forwarded (s : σ) (labels : List (Label R τ ι)) : List (Frontend.Label R τ ι) :=
  ((machine P plan limit).trace (State.initial s) labels).filterMap Machine.Entry.output

/-- Every label is enabled when its turn comes. -/
def Enabled (st : State σ κ θ α τ ρ ι R) : List (Label R τ ι) → Prop
  | [] => True
  | label :: labels =>
    enabled limit st label = true ∧ Enabled (step P plan limit st label) labels

variable {P plan limit} {st : State σ κ θ α τ ρ ι R} {s : σ} {B : ℕ} {t u : ι}

/-! ## Runs of the server -/

theorem after_concat (past : List (Label R τ ι)) (label : Label R τ ι) :
    after P plan limit s (past ++ [label])
      = step P plan limit (after P plan limit s past) label := Machine.run_concat ..

theorem forwarded_concat (past : List (Label R τ ι)) (label : Label R τ ι) :
    forwarded P plan limit s (past ++ [label])
      = forwarded P plan limit s past
        ++ (handed limit (after P plan limit s past) label).toList :=
  Machine.filterMap_trace_concat ..

/-- A step over a pool is a step of the server, or none. -/
theorem server_step (st : State σ κ θ α τ ρ ι R) (label : Label R τ ι) :
    (step P plan limit st label).server
      = (Frontend.machine P plan).run st.server (handed limit st label).toList := by
  rcases label with l | t
  · rw [step, handed]
    split_ifs
    · rfl
    · rfl
  · rw [step]
    split_ifs
    · rfl
    · rfl

/-- A run over a pool is a run of the server. -/
theorem server_after (s : σ) (labels : List (Label R τ ι)) :
    (after P plan limit s labels).server
      = Frontend.after P plan s (forwarded P plan limit s labels) := by
  induction labels using List.reverseRecOn with
  | nil => rfl
  | append_singleton past label ih =>
    rw [after_concat, forwarded_concat, server_step, ih, Frontend.after, Frontend.after,
      Machine.run_append]

/-! ## What a label does -/

/-- What a label that is enabled and brings no request does for its task. -/
inductive Acts (P : Mutex σ κ θ α τ ρ) (m : Mutex.State σ κ θ α τ ρ ι) (connected : List ι) :
    Frontend.Label R τ ι → ι → Mutex.State σ κ θ α τ ρ ι → Prop
  | lock (t : ι) (now : τ) (c : κ) (hphase : m.phase t = .waiting c) (hfree : m.holder = none) :
    Acts P m connected (.lock t now) t { m.move t .inside with
      holder := some ⟨t, P.ops c now, P.body c now⟩
      turns := m.turns ++ [⟨t, c, now⟩] }
  | finish (t : ι) (ops : List α) (result : ρ) (hholder : m.holder = some ⟨t, ops, .done result⟩) :
    Acts P m connected .advance t { m.move t (.returned result) with holder := none }
  | look (t : ι) (ops : List α) (next : σ → CriticalSection σ ρ)
    (hholder : m.holder = some ⟨t, ops, .look next⟩) (hconnected : t ∈ connected) :
    Acts P m connected .advance t { m with holder := some ⟨t, ops, next m.shared⟩ }
  | publish (t : ι) (ops : List α) (change : σ → σ) (next : σ → CriticalSection σ ρ)
    (hholder : m.holder = some ⟨t, ops, .publish change next⟩) (hconnected : t ∈ connected) :
    Acts P m connected .advance t { m with
      shared := change m.shared
      holder := some ⟨t, ops.tail, next m.shared⟩ }
  | select (t : ι) (q : θ) (hphase : m.phase t = .asking q) :
    Acts P m connected (.select t) t (m.move t (.returned (P.query q m.shared)))
  | drop (t : ι) (hpending : pending (m.phase t) = true) (hphase : m.phase t ≠ .inside) :
    Acts P m connected (.cancel t) t (m.move t .cancelled)
  | abandon (t : ι) (hphase : m.phase t = .inside) :
    Acts P m connected (.cancel t) t { m.move t .cancelled with
      holder := m.holder.filter fun h ↦ h.task ≠ t }

variable (P plan) in
theorem acts_of_enabled {label : Frontend.Label R τ ι}
    (h : enabled limit st (.server label) = true) (hreceive : ∀ t r, label ≠ .receive t r) :
    (Frontend.step P plan st.server label).1.request = st.server.request ∧
      ∃ t, Acts P st.server.mutex st.connected label t
        (Frontend.step P plan st.server label).1.mutex := by
  rcases label with ⟨t, r⟩ | ⟨t, now⟩ | _ | t | t
  · exact absurd rfl (hreceive t r)
  · refine ⟨rfl, t, ?_⟩
    rw [enabled] at h
    split at h
    next c hwaiting =>
      have hphase : st.server.mutex.phase t = .waiting c := hwaiting
      have hfree : st.server.mutex.holder = none := Option.isNone_iff_eq_none.mp h
      have hstep : (P.step st.server.mutex (.lock t now)).1 = { st.server.mutex.move t .inside with
          holder := some ⟨t, P.ops c now, P.body c now⟩
          turns := st.server.mutex.turns ++ [⟨t, c, now⟩] } := by
        rw [Mutex.step, hphase, hfree]
      rw [Frontend.step, Frontend.State.under, hstep]
      exact .lock t now c hphase hfree
    next => exact absurd h (by simp)
  · refine ⟨rfl, ?_⟩
    rw [Frontend.step, Frontend.State.under, Mutex.step]
    rcases hholder : st.server.mutex.holder with _ | ⟨t, ops, rest⟩
    · rw [enabled, State.holder, hholder] at h
      exact absurd h (by simp)
    · rw [enabled, State.holder, hholder] at h
      rcases rest with result | next | ⟨change, next⟩
      · exact ⟨t, .finish t ops result hholder⟩
      · exact ⟨t, .look t ops next hholder (of_decide_eq_true h)⟩
      · exact ⟨t, .publish t ops change next hholder (of_decide_eq_true h)⟩
  · refine ⟨rfl, t, ?_⟩
    rw [enabled] at h
    split at h
    next q hasking =>
      have hphase : st.server.mutex.phase t = .asking q := hasking
      have hstep : (P.step st.server.mutex (.select t)).1
          = st.server.mutex.move t (.returned (P.query q st.server.mutex.shared)) := by
        rw [Mutex.step, hphase]
      rw [Frontend.step, Frontend.State.under, hstep]
      exact .select t q hphase
    next => exact absurd h (by simp)
  · refine ⟨rfl, t, ?_⟩
    rw [enabled, State.phase] at h
    rw [Frontend.step, Frontend.State.under, Mutex.step]
    rcases hphase : st.server.mutex.phase t with _ | c | _ | q | result | _
    · rw [hphase] at h
      exact absurd h (by simp [pending])
    · exact .drop t (hphase ▸ rfl) (by simp [hphase])
    · exact .abandon t hphase
    · exact .drop t (hphase ▸ rfl) (by simp [hphase])
    · rw [hphase] at h
      exact absurd h (by simp [pending])
    · rw [hphase] at h
      exact absurd h (by simp [pending])

/-! ## What is always true -/

variable (B) in
/-- The task has at most `n` steps before it, when critical sections have at most `B`. -/
def Remains (m : Mutex.State σ κ θ α τ ρ ι) (connected : List ι) (t : ι) (n : ℕ) : Prop :=
  match m.phase t with
  | .waiting _ => n = 2 * B + 2
  | .asking _ => n = if t ∈ connected then 1 else 2
  | .inside => ∃ ops rest, ∃ k ≤ B, m.holder = some ⟨t, ops, rest⟩ ∧ rest.Within k ∧
      n = if t ∈ connected then 2 * k else 2 * k + 1
  | .idle | .returned _ | .cancelled => n = 0

variable (plan limit B) in
/-- The invariant of a server over a pool, whose tasks have the steps `w` before them. -/
structure Coherent (st : State σ κ θ α τ ρ ι R) (w : ι → ℕ) : Prop where
  idle : ∀ t, st.server.request t = none → st.phase t = .idle
  /-- A request is answered on the spot, or its task is on its way. -/
  busy : ∀ t r, st.server.request t = some r →
    (∃ out, plan r = .reply out) ∨ st.phase t ≠ .idle
  holder : ∀ h, st.holder = some h → st.phase h.task = .inside
  /-- Only who needs a connection has one. -/
  connected : ∀ t ∈ st.connected, needs st.server.mutex t = true
  room : st.connected.length ≤ limit
  remains : ∀ t, Remains B st.server.mutex st.connected t (w t)

omit [Inhabited τ] in
theorem coherent_initial (s : σ) :
    Coherent plan limit B (State.initial s : State σ κ θ α τ ρ ι R) fun _ ↦ 0 where
  idle _ _ := rfl
  busy t r h := absurd h (by simp [State.initial, Frontend.State.initial])
  holder h hh := absurd hh (by simp [State.initial, Frontend.State.initial, Mutex.State.initial])
  connected t ht := absurd ht List.not_mem_nil
  room := Nat.zero_le _
  remains _ := rfl

/-! ### Frames -/

/-- A change that leaves the task `u` alone. -/
structure Spares (m m' : Mutex.State σ κ θ α τ ρ ι) (u : ι) : Prop where
  phase : m'.phase u = m.phase u
  holder : m.phase u = .inside → m'.holder = m.holder

omit [Inhabited τ] in
theorem Spares.needs {m m' : Mutex.State σ κ θ α τ ρ ι} (h : Spares m m' u) :
    needs m' u = needs m u := by
  rw [Pool.needs, Pool.needs, h.phase]
  rcases hphase : m.phase u with _ | _ | _ | _ | _ | _
  all_goals first
    | rfl
    | rw [h.holder hphase]

omit [Inhabited τ] in
theorem Spares.remains {m m' : Mutex.State σ κ θ α τ ρ ι} {connected connected' : List ι}
    (h : Spares m m' u) (hconnected : u ∈ connected' ↔ u ∈ connected) {n : ℕ}
    (hremains : Remains B m connected u n) : Remains B m' connected' u n := by
  rw [Remains, h.phase]
  rw [Remains] at hremains
  rcases hphase : m.phase u with _ | _ | _ | _ | _ | _ <;> rw [hphase] at hremains
  · exact hremains
  · exact hremains
  · simp only [hconnected, h.holder hphase]
    exact hremains
  · simp only [hconnected]
    exact hremains
  · exact hremains
  · exact hremains

omit [Inhabited τ] in
/-- Who is inside holds the mutex. -/
theorem Coherent.inside {w : ι → ℕ} (hcoh : Coherent plan limit B st w)
    (h : st.phase t = .inside) : ∃ ops rest, ∃ k ≤ B, st.holder = some ⟨t, ops, rest⟩ ∧
      rest.Within k ∧ w t = if t ∈ st.connected then 2 * k else 2 * k + 1 := by
  have hremains := hcoh.remains t
  rw [Remains, show st.server.mutex.phase t = .inside from h] at hremains
  exact hremains

omit [Inhabited τ] in
/-- An action leaves the other tasks alone. -/
theorem Acts.spares {w : ι → ℕ} {label : Frontend.Label R τ ι} {m' : Mutex.State σ κ θ α τ ρ ι}
    (hcoh : Coherent plan limit B st w)
    (hacts : Acts P st.server.mutex st.connected label t m') (hu : u ≠ t) :
    Spares st.server.mutex m' u := by
  -- If `u` is inside, it is `u` that holds the mutex.
  have hinside : ∀ {h}, st.server.mutex.holder = some h → st.server.mutex.phase u = .inside →
      h.task = u := by
    intro h hh hphase
    obtain ⟨ops, rest, k, -, hholder, -⟩ := hcoh.inside hphase
    exact congrArg Mutex.Holder.task (Option.some.inj (hh.symm.trans hholder))
  induction hacts with
  | lock t now c hphase hfree =>
    refine ⟨Mutex.phase_move_of_ne hu _, fun hphase ↦ ?_⟩
    obtain ⟨ops, rest, k, -, hholder, -⟩ := hcoh.inside hphase
    exact absurd (hfree.symm.trans hholder) (by simp)
  | finish t ops result hholder =>
    exact ⟨Mutex.phase_move_of_ne hu _, fun hphase ↦ absurd (hinside hholder hphase).symm hu⟩
  | look t ops next hholder hconnected =>
    exact ⟨rfl, fun hphase ↦ absurd (hinside hholder hphase).symm hu⟩
  | publish t ops change next hholder hconnected =>
    exact ⟨rfl, fun hphase ↦ absurd (hinside hholder hphase).symm hu⟩
  | select t q hphase => exact ⟨Mutex.phase_move_of_ne hu _, fun _ ↦ rfl⟩
  | drop t hpending hphase => exact ⟨Mutex.phase_move_of_ne hu _, fun _ ↦ rfl⟩
  | abandon t hphase =>
    refine ⟨Mutex.phase_move_of_ne hu _, fun hphase' ↦ ?_⟩
    obtain ⟨ops, rest, k, -, hholder, -⟩ := hcoh.inside hphase
    exact absurd (hinside hholder hphase').symm hu

/-! ### Steps -/

omit [Inhabited τ] [DecidableEq ι] in
theorem within_pos {rest : CriticalSection σ ρ} {k : ℕ} (h : rest.Within k)
    (hdone : rest.isDone = false) : 0 < k := by
  induction rest with
  | done result => exact absurd hdone (by simp [CriticalSection.isDone])
  | look next ih =>
    obtain ⟨k, rfl, -⟩ := h
    exact k.succ_pos
  | publish change next ih =>
    obtain ⟨k, rfl, -⟩ := h
    exact k.succ_pos

omit [Inhabited τ] in
/-- A task with a connection has something to do with it. -/
theorem Coherent.not_isDone {w : ι → ℕ} (hcoh : Coherent plan limit B st w) {ops : List α}
    {rest : CriticalSection σ ρ} (hholder : st.holder = some ⟨t, ops, rest⟩)
    (h : t ∈ st.connected) : rest.isDone = false := by
  have hphase : st.server.mutex.phase t = .inside := hcoh.holder _ hholder
  have hneeds := hcoh.connected t h
  rw [needs, hphase, show st.server.mutex.holder = _ from hholder] at hneeds
  simpa using hneeds

omit [Inhabited τ] in
/-- A task that is pending has a step before it. -/
theorem Coherent.pos {w : ι → ℕ} (hcoh : Coherent plan limit B st w)
    (h : pending (st.phase t) = true) : 0 < w t := by
  have hremains := hcoh.remains t
  rw [Remains] at hremains
  rcases hphase : st.server.mutex.phase t with _ | c | _ | q | result | _ <;>
    rw [hphase] at hremains <;> rw [State.phase, hphase] at h
  · exact absurd h (by simp [pending])
  · dsimp only at hremains
    omega
  · obtain ⟨ops, rest, k, -, hholder, hwithin, hw⟩ := hremains
    split_ifs at hw with hmem
    · have := within_pos hwithin (hcoh.not_isDone hholder hmem)
      omega
    · omega
  · dsimp only at hremains
    split_ifs at hremains <;> omega
  · exact absurd h (by simp [pending])
  · exact absurd h (by simp [pending])

omit [Inhabited τ] in
theorem remains_inside {m : Mutex.State σ κ θ α τ ρ ι} {connected : List ι} {ops : List α}
    {rest : CriticalSection σ ρ} {k bound : ℕ} (hphase : m.phase t = .inside)
    (hholder : m.holder = some ⟨t, ops, rest⟩) (hk : k ≤ B) (hwithin : rest.Within k)
    (hbound : 2 * k + 1 < bound) : ∃ n < bound, Remains B m connected t n := by
  refine ⟨if t ∈ connected then 2 * k else 2 * k + 1, ?_, ?_⟩
  · split_ifs <;> omega
  · rw [Remains, hphase]
    exact ⟨ops, rest, k, hk, hholder, hwithin, rfl⟩

omit [Inhabited τ] in
/-- An action brings its task one step further, whatever connections there are after it. -/
theorem Acts.progresses {w : ι → ℕ} {label : Frontend.Label R τ ι}
    {m' : Mutex.State σ κ θ α τ ρ ι} (hbody : ∀ c now, (P.body c now).Within B)
    (hcoh : Coherent plan limit B st w)
    (hacts : Acts P st.server.mutex st.connected label t m') (connected' : List ι) :
    ∃ n < w t, Remains B m' connected' t n := by
  have hremains := hcoh.remains t
  induction hacts with
  | lock t now c hphase hfree =>
    rw [Remains, hphase] at hremains
    exact remains_inside (Mutex.phase_move_self ..) rfl le_rfl (hbody c now) (by omega)
  | finish t ops result hholder =>
    refine ⟨0, hcoh.pos ?_, ?_⟩
    · rw [hcoh.holder _ hholder, pending]
    · rw [Remains]
      dsimp only
      rw [Mutex.phase_move_self]
  | look t ops next hholder hconnected =>
    have hphase : st.server.mutex.phase t = .inside := hcoh.holder _ hholder
    obtain ⟨ops', rest', k, hk, hholder', hwithin, hw⟩ := hcoh.inside hphase
    obtain ⟨-, rfl, rfl⟩ := Mutex.Holder.mk.inj (Option.some.inj (hholder.symm.trans hholder'))
    obtain ⟨k, rfl, hnext⟩ := hwithin
    rw [if_pos hconnected] at hw
    exact remains_inside hphase rfl (Nat.le_of_succ_le hk) (hnext _) (by omega)
  | publish t ops change next hholder hconnected =>
    have hphase : st.server.mutex.phase t = .inside := hcoh.holder _ hholder
    obtain ⟨ops', rest', k, hk, hholder', hwithin, hw⟩ := hcoh.inside hphase
    obtain ⟨-, rfl, rfl⟩ := Mutex.Holder.mk.inj (Option.some.inj (hholder.symm.trans hholder'))
    obtain ⟨k, rfl, hnext⟩ := hwithin
    rw [if_pos hconnected] at hw
    exact remains_inside hphase rfl (Nat.le_of_succ_le hk) (hnext _) (by omega)
  | select t q hphase =>
    refine ⟨0, hcoh.pos ?_, ?_⟩
    · rw [State.phase, hphase, pending]
    · rw [Remains, Mutex.phase_move_self]
  | drop t hpending hphase =>
    refine ⟨0, hcoh.pos hpending, ?_⟩
    rw [Remains, Mutex.phase_move_self]
  | abandon t hphase =>
    refine ⟨0, hcoh.pos ?_, ?_⟩
    · rw [State.phase, hphase, pending]
    · rw [Remains]
      dsimp only
      rw [Mutex.phase_move_self]

omit [Inhabited τ] in
/-- Only the task itself publishes. -/
theorem Acts.publishes_eq_false {connected : List ι} {label : Frontend.Label R τ ι}
    {m m' : Mutex.State σ κ θ α τ ρ ι} (hacts : Acts P m connected label t m') (hu : u ≠ t) :
    publishes m label u = false := by
  induction hacts with
  | lock t now c hphase hfree => rfl
  | finish t ops result hholder => rw [publishes, hholder]
  | look t ops next hholder hconnected => rw [publishes, hholder]
  | publish t ops change next hholder hconnected =>
    rw [publishes, hholder]
    exact decide_eq_false hu.symm
  | select t q hphase => rfl
  | drop t hpending hphase => rfl
  | abandon t hphase => rfl

omit [Inhabited τ] in
theorem Acts.holder {w : ι → ℕ} {label : Frontend.Label R τ ι} {m' : Mutex.State σ κ θ α τ ρ ι}
    (hcoh : Coherent plan limit B st w)
    (hacts : Acts P st.server.mutex st.connected label t m') (h : Mutex.Holder ι σ α ρ)
    (hh : m'.holder = some h) : m'.phase h.task = .inside := by
  -- Whoever held the mutex before and is not the task itself has stayed inside.
  have hkept : ∀ {p}, st.server.mutex.holder = some h → h.task ≠ t →
      (st.server.mutex.move t p).phase h.task = .inside := by
    intro p hholder hne
    rw [Mutex.phase_move_of_ne hne]
    exact hcoh.holder h hholder
  induction hacts with
  | lock t now c hphase hfree =>
    obtain rfl := Option.some.inj hh
    exact Mutex.phase_move_self ..
  | finish t ops result hholder => exact absurd hh (by simp)
  | look t ops next hholder hconnected =>
    have hinside := hcoh.holder _ hholder
    obtain rfl := Option.some.inj hh
    exact hinside
  | publish t ops change next hholder hconnected =>
    have hinside := hcoh.holder _ hholder
    obtain rfl := Option.some.inj hh
    exact hinside
  | select t q hphase =>
    refine hkept hh fun htask ↦ ?_
    have hinside : st.server.mutex.phase h.task = .inside := hcoh.holder h hh
    rw [htask, hphase] at hinside
    exact absurd hinside (by simp)
  | drop t hpending hphase =>
    refine hkept hh fun htask ↦ hphase ?_
    rw [← htask]
    exact hcoh.holder h hh
  | abandon t hphase =>
    obtain ⟨hholder, hne⟩ := Option.filter_eq_some_iff.mp hh
    exact hkept hholder (by simpa using hne)

omit [Inhabited τ] in
/-- A task is still on its way after its action, or has returned. -/
theorem Acts.phase_ne_idle {w : ι → ℕ} {label : Frontend.Label R τ ι}
    {m' : Mutex.State σ κ θ α τ ρ ι} (hcoh : Coherent plan limit B st w)
    (hacts : Acts P st.server.mutex st.connected label t m') :
    st.server.mutex.phase t ≠ .idle ∧ m'.phase t ≠ .idle := by
  induction hacts with
  | lock t now c hphase hfree => exact ⟨by simp [hphase], by simp [Mutex.State.move]⟩
  | finish t ops result hholder =>
    have hphase : st.server.mutex.phase t = .inside := hcoh.holder _ hholder
    exact ⟨by simp [hphase], by simp [Mutex.State.move]⟩
  | look t ops next hholder hconnected =>
    have hphase : st.server.mutex.phase t = .inside := hcoh.holder _ hholder
    exact ⟨by simp [hphase], by simp [hphase]⟩
  | publish t ops change next hholder hconnected =>
    have hphase : st.server.mutex.phase t = .inside := hcoh.holder _ hholder
    exact ⟨by simp [hphase], by simp [hphase]⟩
  | select t q hphase => exact ⟨by simp [hphase], by simp [Mutex.State.move]⟩
  | drop t hpending hphase =>
    refine ⟨fun hidle ↦ ?_, by simp [Mutex.State.move]⟩
    rw [hidle] at hpending
    exact absurd hpending (by simp [pending])
  | abandon t hphase => exact ⟨by simp [hphase], by simp [Mutex.State.move]⟩

omit [Inhabited τ] in
/-- A step that concerns one task keeps the invariant. -/
theorem Coherent.touch {w : ι → ℕ} {n : ℕ} {st' : State σ κ θ α τ ρ ι R}
    (hcoh : Coherent plan limit B st w)
    (hspares : ∀ u ≠ t, Spares st.server.mutex st'.server.mutex u)
    (hmem : ∀ u ≠ t, u ∈ st'.connected ↔ u ∈ st.connected)
    (hrequest : ∀ u ≠ t, st'.server.request u = st.server.request u)
    (hidle : st'.server.request t = none → st'.phase t = .idle)
    (hbusy : ∀ r, st'.server.request t = some r →
      (∃ out, plan r = .reply out) ∨ st'.phase t ≠ .idle)
    (hholder : ∀ h, st'.holder = some h → st'.phase h.task = .inside)
    (hconnected : ∀ u ∈ st'.connected, needs st'.server.mutex u = true)
    (hroom : st'.connected.length ≤ limit)
    (hremains : Remains B st'.server.mutex st'.connected t n) :
    Coherent plan limit B st' (Function.update w t n) where
  idle u hu := by
    by_cases hut : u = t
    · exact hut ▸ hidle (hut ▸ hu)
    · rw [State.phase, (hspares u hut).phase]
      exact hcoh.idle u (hrequest u hut ▸ hu)
  busy u r hu := by
    by_cases hut : u = t
    · subst hut
      exact hbusy r hu
    · rw [State.phase, (hspares u hut).phase]
      exact hcoh.busy u r (hrequest u hut ▸ hu)
  holder := hholder
  connected := hconnected
  room := hroom
  remains u := by
    by_cases hut : u = t
    · subst hut
      rw [Function.update_self]
      exact hremains
    · rw [Function.update_of_ne hut]
      exact (hspares u hut).remains (hmem u hut) (hcoh.remains u)

variable (P plan) in
/-- Who still has a connection after a step of the server. -/
theorem mem_connected_step {label : Frontend.Label R τ ι}
    (h : enabled limit st (.server label) = true) :
    u ∈ (step P plan limit st (.server label)).connected ↔ u ∈ st.connected ∧
      needs (Frontend.step P plan st.server label).1.mutex u = true ∧
        publishes st.server.mutex label u = false := by
  rw [step, if_pos h]
  dsimp only
  rw [List.mem_filter, Bool.and_eq_true, Bool.not_eq_true']

theorem room_step {w : ι → ℕ} {label : Frontend.Label R τ ι} (hcoh : Coherent plan limit B st w)
    (h : enabled limit st (.server label) = true) :
    (step P plan limit st (.server label)).connected.length ≤ limit := by
  rw [step, if_pos h]
  exact (List.length_filter_le _ _).trans hcoh.room

/-- A step that brings no request. -/
theorem Coherent.act {w : ι → ℕ} {label : Frontend.Label R τ ι}
    (hbody : ∀ c now, (P.body c now).Within B) (hcoh : Coherent plan limit B st w)
    (h : enabled limit st (.server label) = true) (hreceive : ∀ t r, label ≠ .receive t r) :
    ∃ t, ∃ n < w t, Coherent plan limit B (step P plan limit st (.server label))
      (Function.update w t n) := by
  obtain ⟨hrequest, t, hacts⟩ := acts_of_enabled P plan h hreceive
  obtain ⟨n, hn, hremains⟩ :=
    hacts.progresses hbody hcoh (step P plan limit st (.server label)).connected
  have hmem := fun u ↦ mem_connected_step P plan (u := u) h
  have hserver : (step P plan limit st (.server label)).server
      = (Frontend.step P plan st.server label).1 := by rw [step, if_pos h]
  have hroom := room_step (P := P) hcoh h
  obtain ⟨hbefore, hafter⟩ := hacts.phase_ne_idle hcoh
  refine ⟨t, n, hn, hcoh.touch (fun u hu ↦ ?_) (fun u hu ↦ ?_) (fun u hu ↦ ?_) (fun hnone ↦ ?_)
    (fun r hr ↦ ?_) (fun holder hh ↦ ?_) (fun u hu ↦ ?_) hroom ?_⟩
  · rw [hserver]
    exact hacts.spares hcoh hu
  · rw [hmem u, (hacts.spares hcoh hu).needs, hacts.publishes_eq_false hu]
    exact ⟨And.left, fun hu ↦ ⟨hu, hcoh.connected u hu, rfl⟩⟩
  · rw [hserver, hrequest]
  · rw [hserver, hrequest] at hnone
    exact absurd (hcoh.idle t hnone) hbefore
  · rw [State.phase, hserver]
    exact Or.inr hafter
  · rw [State.phase, hserver]
    rw [State.holder, hserver] at hh
    exact hacts.holder hcoh holder hh
  · rw [hserver]
    exact ((hmem u).mp hu).2.1
  · rw [hserver]
    exact hremains

variable (P plan B) in
/-- A task with a new request goes on to its call or its query, or it replies and stays idle. -/
theorem exists_phase_of_receive (r : R) (hnone : st.server.request t = none)
    (hidle : st.server.mutex.phase t = .idle) (hconnected : t ∉ st.connected) :
    ∃ (p : Mutex.Phase κ θ ρ) (n : ℕ), n ≤ 2 * B + 2 ∧
      (Frontend.step P plan st.server (.receive t r)).1
        = ⟨st.server.mutex.move t p, Function.update st.server.request t (some r)⟩ ∧
      ((∃ out, plan r = .reply out) ∨ p ≠ .idle) ∧
      Remains B (st.server.mutex.move t p) st.connected t n := by
  have hmove : ∀ p : Mutex.Phase κ θ ρ, (st.server.mutex.move t p).phase t = p :=
    fun p ↦ Mutex.phase_move_self ..
  rw [Frontend.step, hnone]
  dsimp only
  rcases hplan : plan r with out | ⟨c, f⟩ | ⟨q, f⟩
  · refine ⟨.idle, 0, by omega, ?_, Or.inl ⟨out, rfl⟩, ?_⟩
    · rw [Mutex.State.move, ← hidle, Function.update_eq_self]
    · rw [Remains, hmove]
  · refine ⟨.waiting c, 2 * B + 2, le_rfl, ?_, Or.inr (by simp), ?_⟩
    · dsimp only [Frontend.State.under]
      rw [Mutex.step, hidle]
    · rw [Remains, hmove]
  · refine ⟨.asking q, 2, by omega, ?_, Or.inr (by simp), ?_⟩
    · dsimp only [Frontend.State.under]
      rw [Mutex.step, hidle]
    · rw [Remains, hmove]
      dsimp only
      rw [if_neg hconnected]

/-- A new request. -/
theorem Coherent.receive {w : ι → ℕ} {r : R} (hcoh : Coherent plan limit B st w)
    (h : enabled limit st (.server (.receive t r)) = true) :
    ∃ n ≤ 2 * B + 2, Coherent plan limit B (step P plan limit st (.server (.receive t r)))
      (Function.update w t n) := by
  have hnone : st.server.request t = none := Option.isNone_iff_eq_none.mp h
  have hidle : st.server.mutex.phase t = .idle := hcoh.idle t hnone
  have hneeds : t ∉ st.connected := by
    intro hmem
    have := hcoh.connected t hmem
    rw [needs, hidle] at this
    exact absurd this (by simp)
  obtain ⟨p, n, hn, hreceived, hbusy, hremains⟩ :=
    exists_phase_of_receive P plan B r hnone hidle hneeds
  have hserver : (Pool.step P plan limit st (.server (.receive t r))).server
      = ⟨st.server.mutex.move t p, Function.update st.server.request t (some r)⟩ := by
    rw [step, if_pos h]
    exact hreceived
  have hspares : ∀ u ≠ t, Spares st.server.mutex (st.server.mutex.move t p) u :=
    fun u hu ↦ ⟨Mutex.phase_move_of_ne hu _, fun _ ↦ rfl⟩
  have hmem : ∀ u, u ∈ (step P plan limit st (.server (.receive t r))).connected
      ↔ u ∈ st.connected := by
    intro u
    rw [mem_connected_step P plan h, hreceived]
    refine ⟨And.left, fun hu ↦ ⟨hu, ?_, rfl⟩⟩
    rw [(hspares u fun hut ↦ hneeds (hut ▸ hu)).needs]
    exact hcoh.connected u hu
  refine ⟨n, hn, hcoh.touch (fun u hu ↦ ?_) (fun u _ ↦ hmem u) (fun u hu ↦ ?_) (fun hnone ↦ ?_)
    (fun r' hr ↦ ?_) (fun holder hh ↦ ?_) (fun u hu ↦ ?_) (room_step hcoh h) ?_⟩
  · rw [hserver]
    exact hspares u hu
  · rw [hserver]
    exact Function.update_of_ne hu _ _
  · rw [hserver] at hnone
    exact absurd hnone (by simp)
  · rw [hserver] at hr
    obtain rfl : r = r' := by simpa using hr
    rw [State.phase, hserver]
    exact hbusy.imp_right fun hp ↦ (Mutex.phase_move_self ..).trans_ne hp
  · rw [State.holder, hserver] at hh
    rw [State.phase, hserver]
    have hphase := hcoh.holder holder hh
    have hne : holder.task ≠ t := by
      intro htask
      rw [State.phase, htask, hidle] at hphase
      exact absurd hphase (by simp)
    exact (Mutex.phase_move_of_ne hne _).trans hphase
  · have hu := (hmem u).mp hu
    rw [hserver, (hspares u fun hut ↦ hneeds (hut ▸ hu)).needs]
    exact hcoh.connected u hu
  · rw [hserver]
    rw [Remains] at hremains ⊢
    simp only [hmem]
    exact hremains

/-- A task takes a connection. -/
theorem Coherent.connect {w : ι → ℕ} (hcoh : Coherent plan limit B st w)
    (h : enabled limit st (.connect t) = true) :
    ∃ n < w t, Coherent plan limit B (step P plan limit st (.connect t))
      (Function.update w t n) := by
  have hstep : step P plan limit st (.connect t)
      = { st with connected := t :: st.connected } := by rw [step, if_pos h]
  rw [enabled, Bool.and_eq_true, Bool.and_eq_true, Bool.not_eq_true'] at h
  obtain ⟨⟨hneeds, hmem⟩, hroom⟩ := h
  have hmem := of_decide_eq_false hmem
  obtain ⟨n, hn, hremains⟩ : ∃ n < w t, Remains B st.server.mutex (t :: st.connected) t n := by
    have hremains := hcoh.remains t
    rw [Remains] at hremains
    rw [needs] at hneeds
    rcases hphase : st.server.mutex.phase t with _ | c | _ | q | result | _ <;>
      rw [hphase] at hneeds hremains
    · exact absurd hneeds (by simp)
    · exact absurd hneeds (by simp)
    · obtain ⟨ops, rest, k, hk, hholder, hwithin, hw⟩ := hremains
      rw [if_neg hmem] at hw
      refine ⟨2 * k, by omega, ?_⟩
      rw [Remains, hphase]
      exact ⟨ops, rest, k, hk, hholder, hwithin, (if_pos List.mem_cons_self).symm⟩
    · dsimp only at hremains
      rw [if_neg hmem] at hremains
      refine ⟨1, by omega, ?_⟩
      rw [Remains, hphase]
      exact (if_pos List.mem_cons_self).symm
    · exact absurd hneeds (by simp)
    · exact absurd hneeds (by simp)
  rw [hstep]
  refine ⟨n, hn, hcoh.touch (fun u _ ↦ ⟨rfl, fun _ ↦ rfl⟩) (fun u hu ↦ ?_) (fun u _ ↦ rfl)
    (hcoh.idle t) (hcoh.busy t) hcoh.holder (fun u hu ↦ ?_) (of_decide_eq_true hroom) hremains⟩
  · exact List.mem_cons.trans (or_iff_right hu)
  · rcases List.mem_cons.mp hu with rfl | hu
    · exact hneeds
    · exact hcoh.connected u hu

/-- One step. It takes at least one of its steps from a task, or brings a task that has at most
`2 * B + 2` before it. -/
theorem Coherent.step {w : ι → ℕ} {label : Label R τ ι}
    (hbody : ∀ c now, (P.body c now).Within B) (hcoh : Coherent plan limit B st w)
    (h : enabled limit st label = true) :
    ∃ t n, Coherent plan limit B (step P plan limit st label) (Function.update w t n) ∧
      if label.isReceive then n ≤ 2 * B + 2 else n < w t := by
  rcases label with l | t
  · by_cases hreceive : ∃ t r, l = .receive t r
    · obtain ⟨t, r, rfl⟩ := hreceive
      obtain ⟨n, hn, hcoh⟩ := hcoh.receive (P := P) h
      exact ⟨t, n, hcoh, hn⟩
    · have hne : ∀ t r, l ≠ .receive t r := fun t r heq ↦ hreceive ⟨t, r, heq⟩
      obtain ⟨t, n, hn, hcoh⟩ := hcoh.act hbody h hne
      refine ⟨t, n, hcoh, ?_⟩
      rw [if_neg ?_]
      · exact hn
      · rcases l with ⟨t, r⟩ | _ | _ | _ | _
        · exact absurd rfl (hne t r)
        all_goals simp [Label.isReceive]
  · obtain ⟨n, hn, hcoh⟩ := hcoh.connect (P := P) h
    exact ⟨t, n, hcoh, hn⟩

/-! ## Runs -/

omit [Inhabited τ] in
/-- What all tasks have before them, after a step that concerns one of them. -/
theorem sum_update {w : ι → ℕ} {T : Finset ι} (hT : ∀ u ∉ T, w u = 0) (t : ι) (n : ℕ) :
    ∑ u ∈ insert t T, Function.update w t n u + w t = ∑ u ∈ T, w u + n := by
  have hmem : t ∈ insert t T := Finset.mem_insert_self t T
  have hwhole : ∑ u ∈ T, w u = ∑ u ∈ insert t T, w u :=
    Finset.sum_subset (Finset.subset_insert t T) fun u _ hu ↦ hT u hu
  have hsplit : ∑ u ∈ insert t T, w u = w t + ∑ u ∈ insert t T \ {t}, w u :=
    Finset.sum_eq_add_sum_sdiff_singleton_of_mem hmem w
  rw [Finset.sum_update_of_mem hmem, hwhole, hsplit]
  omega

theorem enabled_concat {past : List (Label R τ ι)} {label : Label R τ ι} :
    Enabled P plan limit st (past ++ [label]) ↔ Enabled P plan limit st past ∧
      enabled limit ((machine P plan limit).run st past) label = true := by
  induction past generalizing st with
  | nil => exact ⟨fun h ↦ ⟨trivial, h.1⟩, fun h ↦ ⟨h.2, trivial⟩⟩
  | cons first past ih => exact (and_congr_right fun _ ↦ ih).trans and_assoc.symm

/-- Every run keeps the invariant, and has only so many steps for each request. -/
theorem coherent_after (hbody : ∀ c now, (P.body c now).Within B) (s : σ)
    (labels : List (Label R τ ι)) (h : Enabled P plan limit (State.initial s) labels) :
    ∃ (w : ι → ℕ) (T : Finset ι), Coherent plan limit B (after P plan limit s labels) w ∧
      (∀ u ∉ T, w u = 0) ∧
      labels.length + ∑ u ∈ T, w u ≤ (2 * B + 3) * labels.countP Label.isReceive := by
  induction labels using List.reverseRecOn with
  | nil => exact ⟨fun _ ↦ 0, ∅, coherent_initial s, fun _ _ ↦ rfl, le_rfl⟩
  | append_singleton past label ih =>
    obtain ⟨hpast, hlabel⟩ := enabled_concat.mp h
    obtain ⟨w, T, hcoh, hT, hbound⟩ := ih hpast
    obtain ⟨t, n, hcoh', hn⟩ := hcoh.step hbody hlabel
    refine ⟨Function.update w t n, insert t T, ?_, fun u hu ↦ ?_, ?_⟩
    · rw [after_concat]
      exact hcoh'
    · rw [Finset.mem_insert, not_or] at hu
      rw [Function.update_of_ne hu.1]
      exact hT u hu.2
    · have hsum := sum_update hT t n
      rw [List.length_append, List.length_singleton, List.countP_append, List.countP_singleton]
      split_ifs at hn ⊢ with hreceive
      · rw [Nat.mul_add]
        omega
      · simp only [Nat.add_zero]
        omega

/-! ### Nobody is stuck -/

/-- Somebody can go on, without a new request and without dropping anybody. -/
def CanGo (limit : ℕ) (st : State σ κ θ α τ ρ ι R) : Prop :=
  ∃ label : Label R τ ι,
    enabled limit st label = true ∧ label.isReceive = false ∧ label.isCancel = false

omit [Inhabited τ] in
/-- Who has a connection can go on. -/
theorem Coherent.canGo_of_connected {w : ι → ℕ} (hcoh : Coherent plan limit B st w)
    (h : t ∈ st.connected) : CanGo limit st := by
  have hneeds := hcoh.connected t h
  rw [needs] at hneeds
  rcases hphase : st.server.mutex.phase t with _ | c | _ | q | result | _ <;> rw [hphase] at hneeds
  · exact absurd hneeds (by simp)
  · exact absurd hneeds (by simp)
  · obtain ⟨ops, rest, k, -, hholder, -⟩ := hcoh.inside hphase
    refine ⟨.server .advance, ?_, rfl, rfl⟩
    rw [enabled, hholder, Option.any_some, decide_eq_true h, Bool.or_true]
  · refine ⟨.server (.select t), ?_, rfl, rfl⟩
    rw [enabled, State.phase, hphase]
    exact decide_eq_true h
  · exact absurd hneeds (by simp)
  · exact absurd hneeds (by simp)

omit [Inhabited τ] in
/-- Who needs a connection gets one, or somebody who has one can go on and give it back. -/
theorem Coherent.canGo_of_needs {w : ι → ℕ} (hlimit : 1 ≤ limit)
    (hcoh : Coherent plan limit B st w) (h : needs st.server.mutex t = true) : CanGo limit st := by
  by_cases hmem : t ∈ st.connected
  · exact hcoh.canGo_of_connected hmem
  · by_cases hroom : st.connected.length < limit
    · refine ⟨.connect t, ?_, rfl, rfl⟩
      rw [enabled, h, decide_eq_true hroom, decide_eq_false hmem]
      rfl
    · obtain ⟨u, hu⟩ := List.exists_mem_of_length_pos (by omega : 0 < st.connected.length)
      exact hcoh.canGo_of_connected hu

/-- As long as a task is pending, somebody can go on. -/
theorem Coherent.canGo {w : ι → ℕ} (hlimit : 1 ≤ limit) (hcoh : Coherent plan limit B st w)
    (h : pending (st.phase t) = true) : CanGo limit st := by
  rcases hholder : st.holder with _ | ⟨u, ops, rest⟩
  · rw [State.phase] at h
    rcases hphase : st.server.mutex.phase t with _ | c | _ | q | result | _ <;> rw [hphase] at h
    · exact absurd h (by simp [pending])
    · refine ⟨.server (.lock t default), ?_, rfl, rfl⟩
      rw [enabled, State.phase, hphase, hholder]
      rfl
    · obtain ⟨ops, rest, k, -, hsome, -⟩ := hcoh.inside hphase
      exact absurd (hholder.symm.trans hsome) (by simp)
    · refine hcoh.canGo_of_needs hlimit (t := t) ?_
      rw [needs, hphase]
    · exact absurd h (by simp [pending])
    · exact absurd h (by simp [pending])
  · have hphase : st.server.mutex.phase u = .inside := hcoh.holder _ hholder
    rcases hdone : rest.isDone with _ | _
    · refine hcoh.canGo_of_needs hlimit (t := u) ?_
      rw [needs, hphase, show st.server.mutex.holder = _ from hholder]
      simp [hdone]
    · refine ⟨.server .advance, ?_, rfl, rfl⟩
      rw [enabled, hholder, Option.any_some, hdone, Bool.true_or]

/-- Every request was answered, or its task was dropped. -/
def Quiet (plan : R → Plan κ θ ρ ο) (st : Frontend.State σ κ θ α τ ρ ι R) : Prop :=
  ∀ t r, st.request t = some r →
    (Frontend.answer plan st t).isSome = true ∨ st.mutex.phase t = .cancelled

omit [Inhabited τ] in
theorem Coherent.quiet {w : ι → ℕ} (hcoh : Coherent plan limit B st w)
    (h : ∀ t, pending (st.phase t) = false) : Quiet plan st.server := by
  intro t r hr
  have hpending := h t
  have hbusy := hcoh.busy t r hr
  rw [State.phase] at hpending hbusy
  rw [Frontend.answer, hr, Option.bind_some]
  rcases hphase : st.server.mutex.phase t with _ | c | _ | q | result | _ <;>
    rw [hphase] at hpending hbusy
  · obtain ⟨out, hplan⟩ := hbusy.resolve_right (by simp)
    rw [hplan]
    exact Or.inl rfl
  · exact absurd hpending (by simp [pending])
  · exact absurd hpending (by simp [pending])
  · exact absurd hpending (by simp [pending])
  · rcases plan r with out | ⟨c, f⟩ | ⟨q, f⟩
    all_goals exact Or.inl rfl
  · exact Or.inr rfl

/-- What a pool makes of the runs of a server. -/
structure Settles (P : Mutex σ κ θ α τ ρ) (plan : R → Plan κ θ ρ ο) (limit B : ℕ) (s : σ)
    (labels : List (Label R τ ι)) : Prop where
  /-- The server is not busy forever with finitely many requests. -/
  bounded : labels.length ≤ (2 * B + 3) * labels.countP Label.isReceive
  /-- It does not get stuck either. -/
  progress : Quiet plan (after P plan limit s labels).server ∨
    CanGo limit (after P plan limit s labels)

/-- **A server over a pool settles**, when it has one connection and its critical sections are
bounded. -/
theorem settles (hlimit : 1 ≤ limit) (hbody : ∀ c now, (P.body c now).Within B) (s : σ)
    (labels : List (Label R τ ι)) (h : Enabled P plan limit (State.initial s) labels) :
    Settles P plan limit B s labels := by
  obtain ⟨w, T, hcoh, -, hbound⟩ := coherent_after hbody s labels h
  refine ⟨(Nat.le_add_right _ _).trans hbound, ?_⟩
  by_cases hpending : ∃ t, pending ((after P plan limit s labels).phase t) = true
  · obtain ⟨t, ht⟩ := hpending
    exact Or.inr (hcoh.canGo hlimit ht)
  · exact Or.inl (hcoh.quiet fun t ↦ Bool.eq_false_iff.mpr fun ht ↦ hpending ⟨t, ht⟩)

end Pool

end Library
