import Mathlib.Data.List.Infix
import Mathlib.Order.Defs.Unbundled
import Mathlib.Tactic.TypeStar

/-!
# Deterministic machines and their runs

A machine takes one input at a time and answers it. This file holds what is true of the runs of
every machine, whatever its states are: how runs compose, how one-step facts become facts about
whole runs, and results that compare runs.

- `Simulation.trace`: a machine that follows another one step by step follows its runs.
- `trace_dropInert`: removing the inputs that changed nothing at their moment leaves every other
  entry of the trace as it was.
- `Unwinding.run` and `Unwinding.answers`: if a view of the state is touched only by relevant
  inputs, two runs with the same relevant inputs agree on the view and on the relevant answers.
-/

namespace Library

/-- A machine: in a state, an input leads to a new state and an output. -/
structure Machine (σ ι ο : Type*) where
  /-- One step of the machine. -/
  step : σ → ι → σ × ο

namespace Machine

variable {σ ι ο ν : Type*} (M : Machine σ ι ο)

/-! ## Runs -/

/-- The state after a list of inputs. -/
def run : σ → List ι → σ
  | s, [] => s
  | s, i :: is => run (M.step s i).1 is

@[simp] theorem run_nil (s : σ) : M.run s [] = s := rfl

@[simp] theorem run_cons (s : σ) (i : ι) (is : List ι) :
    M.run s (i :: is) = M.run (M.step s i).1 is := rfl

theorem run_append (s : σ) (is js : List ι) : M.run s (is ++ js) = M.run (M.run s is) js := by
  induction is generalizing s with
  | nil => rfl
  | cons i is ih => rw [List.cons_append, run_cons, run_cons, ih]

theorem run_concat (s : σ) (is : List ι) (i : ι) :
    M.run s (is ++ [i]) = (M.step (M.run s is) i).1 := by
  rw [run_append, run_cons, run_nil]

/-- A property kept by every step holds after every run. -/
theorem run_invariant {P : σ → Prop} (hstep : ∀ s i, P s → P (M.step s i).1) {s : σ}
    (h : P s) (is : List ι) : P (M.run s is) := by
  induction is generalizing s with
  | nil => exact h
  | cons i is ih => exact ih (hstep s i h)

/-- A view that evolves on its own: if each step acts on the view by `f`, a run acts on it by
folding `f`. -/
theorem view_run {view : σ → ν} {f : ν → ι → ν}
    (hstep : ∀ s i, view (M.step s i).1 = f (view s) i) (s : σ) (is : List ι) :
    view (M.run s is) = is.foldl f (view s) := by
  induction is generalizing s with
  | nil => rfl
  | cons i is ih => rw [run_cons, ih, hstep, List.foldl_cons]

/-- Statements about every moment of a run, taken apart at its first input. -/
theorem forall_moment_cons {P : List ι → ι → Prop} {j : ι} {is : List ι} :
    (∀ past i, past ++ [i] <+: j :: is → P past i)
      ↔ P [] j ∧ ∀ past i, past ++ [i] <+: is → P (j :: past) i := by
  constructor
  · intro h
    refine ⟨h [] j (List.prefix_append [j] is), fun past i hpre ↦ h (j :: past) i ?_⟩
    exact List.cons_prefix_cons.mpr ⟨rfl, hpre⟩
  · rintro ⟨hfirst, hrest⟩ past i hpre
    rcases past with _ | ⟨j', past⟩
    · obtain ⟨rfl, -⟩ := List.cons_prefix_cons.mp hpre
      exact hfirst
    · obtain ⟨rfl, htail⟩ := List.cons_prefix_cons.mp hpre
      exact hrest past i htail

theorem forall_moment_nil {P : List ι → ι → Prop} :
    ∀ past i, past ++ [i] <+: ([] : List ι) → P past i := by
  intro past i hpre
  simp at hpre

/-! ## Traces -/

/-- One step of a run, with what it found and what it left. -/
@[ext] structure Entry (σ ι ο : Type*) where
  /-- The state the step found. -/
  before : σ
  /-- Its input. -/
  input : ι
  /-- The state it left. -/
  after : σ
  /-- Its answer. -/
  output : ο

/-- The step that an input causes in a state. -/
def entry (s : σ) (i : ι) : Entry σ ι ο := ⟨s, i, (M.step s i).1, (M.step s i).2⟩

/-- The steps of a run, in order. -/
def trace : σ → List ι → List (Entry σ ι ο)
  | _, [] => []
  | s, i :: is => M.entry s i :: trace (M.step s i).1 is

@[simp] theorem trace_nil (s : σ) : M.trace s [] = [] := rfl

@[simp] theorem trace_cons (s : σ) (i : ι) (is : List ι) :
    M.trace s (i :: is) = M.entry s i :: M.trace (M.step s i).1 is := rfl

theorem trace_append (s : σ) (is js : List ι) :
    M.trace s (is ++ js) = M.trace s is ++ M.trace (M.run s is) js := by
  induction is generalizing s with
  | nil => rfl
  | cons i is ih => rw [List.cons_append, trace_cons, trace_cons, run_cons, ih, List.cons_append]

theorem trace_concat (s : σ) (is : List ι) (i : ι) :
    M.trace s (is ++ [i]) = M.trace s is ++ [M.entry (M.run s is) i] := by
  rw [trace_append, trace_cons, trace_nil]

theorem eq_entry_of_mem_trace {s : σ} {is : List ι} {e : Entry σ ι ο} (h : e ∈ M.trace s is) :
    e = M.entry e.before e.input := by
  induction is generalizing s with
  | nil => cases h
  | cons i is ih =>
    rcases List.mem_cons.mp h with rfl | h
    · rfl
    · exact ih h

theorem take_trace (s : σ) (is : List ι) (n : ℕ) :
    (M.trace s is).take n = M.trace s (is.take n) := by
  induction is generalizing s n with
  | nil => simp
  | cons i is ih =>
    cases n with
    | zero => rfl
    | succ n => rw [trace_cons, List.take_succ_cons, List.take_succ_cons, trace_cons, ih]

/-- The prefixes of a trace are the traces of the prefixes. -/
theorem exists_of_initial_map_trace {γ : Type*} {f : Entry σ ι ο → γ} {s : σ} {is : List ι}
    {l : List γ} (h : l <+: (M.trace s is).map f) :
    ∃ js, js <+: is ∧ l = (M.trace s js).map f := by
  refine ⟨is.take l.length, List.take_prefix _ _, ?_⟩
  rw [← take_trace, List.map_take]
  exact List.prefix_iff_eq_take.mp h

theorem trace_mono {s : σ} {is js : List ι} (h : js <+: is) : M.trace s js <+: M.trace s is := by
  obtain ⟨rest, rfl⟩ := h
  rw [trace_append]
  exact List.prefix_append _ _

/-- What a list of observations gains by one more step. -/
theorem filterMap_trace_concat {γ : Type*} (f : Entry σ ι ο → Option γ) (s : σ) (is : List ι)
    (i : ι) : (M.trace s (is ++ [i])).filterMap f
      = (M.trace s is).filterMap f ++ (f (M.entry (M.run s is) i)).toList := by
  rw [trace_concat, List.filterMap_append, List.filterMap_cons, List.filterMap_nil]
  cases f (M.entry (M.run s is) i) <;> rfl

@[simp] theorem trace_map_input (s : σ) (is : List ι) :
    (M.trace s is).map Entry.input = is := by
  induction is generalizing s with
  | nil => rfl
  | cons i is ih => rw [trace_cons, List.map_cons, ih, entry]

theorem input_mem_of_mem_trace {s : σ} {is : List ι} {e : Entry σ ι ο} (h : e ∈ M.trace s is) :
    e.input ∈ is := by
  rw [← M.trace_map_input s is]
  exact List.mem_map_of_mem h

/-- An entry of a trace is the step at some place of the run. -/
theorem exists_place_of_mem_trace {s : σ} {is : List ι} {e : Entry σ ι ο} (h : e ∈ M.trace s is) :
    ∃ before later, is = before ++ e.input :: later ∧ e = M.entry (M.run s before) e.input := by
  induction is generalizing s with
  | nil => cases h
  | cons i is ih =>
    rcases List.mem_cons.mp h with rfl | h
    · exact ⟨[], is, rfl, rfl⟩
    · obtain ⟨before, later, hsplit, hentry⟩ := ih h
      exact ⟨i :: before, later, by rw [hsplit, List.cons_append], hentry⟩

/-! ## Tagged inputs -/

/-- The machine that reads its inputs through a function. -/
def comap {κ : Type*} (f : κ → ι) : Machine σ κ ο := ⟨fun s k ↦ M.step s (f k)⟩

theorem run_comap {κ : Type*} (f : κ → ι) (s : σ) (ks : List κ) :
    (M.comap f).run s ks = M.run s (ks.map f) := by
  induction ks generalizing s with
  | nil => rfl
  | cons k ks ih => exact ih (M.step s (f k)).1

/-! ## Simulation -/

variable {σ' ι' ο' : Type*} {N : Machine σ' ι' ο'}

/-- The machine `N` follows `M` while an invariant of `M` holds. A state of `M` is seen through
`view`, and a step of `M` is read as an input of `N` and the answer to it. -/
structure Simulation (M : Machine σ ι ο) (N : Machine σ' ι' ο') (inv : σ → Prop) (view : σ → σ')
    (input : Entry σ ι ο → ι') (output : Entry σ ι ο → ο') : Prop where
  inv_step : ∀ s i, inv s → inv (M.step s i).1
  step : ∀ s i, inv s →
    N.step (view s) (input (M.entry s i)) = (view (M.step s i).1, output (M.entry s i))

variable {M} {inv : σ → Prop} {view : σ → σ'} {input : Entry σ ι ο → ι'}
  {output : Entry σ ι ο → ο'}

/-- The two machines stay in step. -/
theorem Simulation.trace (h : Simulation M N inv view input output) {s : σ} (hs : inv s)
    (is : List ι) : N.trace (view s) ((M.trace s is).map input)
      = (M.trace s is).map fun e ↦ ⟨view e.before, input e, view e.after, output e⟩ := by
  induction is generalizing s with
  | nil => rfl
  | cons i is ih =>
    rw [trace_cons, List.map_cons, List.map_cons, trace_cons, entry, h.step s i hs,
      ih (h.inv_step s i hs)]
    rfl

theorem Simulation.run (h : Simulation M N inv view input output) {s : σ} (hs : inv s)
    (is : List ι) : N.run (view s) ((M.trace s is).map input) = view (M.run s is) := by
  induction is generalizing s with
  | nil => rfl
  | cons i is ih =>
    rw [trace_cons, List.map_cons, run_cons, run_cons, h.step s i hs, ih (h.inv_step s i hs)]

variable (M)

/-! ## Inert inputs

An input is inert at a state when it leaves the state as it is. Whether it is can depend on the
state, so removing the inert inputs of a run has to follow the run. -/

/-- The inputs of a run that are not inert at the moment they arrive. -/
def dropInert (inert : σ → ι → Bool) : σ → List ι → List ι
  | _, [] => []
  | s, i :: is =>
    if inert s i then dropInert inert (M.step s i).1 is
    else i :: dropInert inert (M.step s i).1 is

/-- **Inert inputs leave no trace.** The run without them consists of the same steps, each from
the same state to the same state with the same answer. -/
theorem trace_dropInert {inert : σ → ι → Bool}
    (hinert : ∀ s i, inert s i = true → (M.step s i).1 = s) (s : σ) (is : List ι) :
    M.trace s (M.dropInert inert s is)
      = (M.trace s is).filter fun e ↦ !inert e.before e.input := by
  induction is generalizing s with
  | nil => rfl
  | cons i is ih =>
    by_cases hi : inert s i = true
    · rw [dropInert, if_pos hi, trace_cons, List.filter_cons_of_neg (by simp [entry, hi]), ← ih,
        hinert s i hi]
    · rw [dropInert, if_neg hi, trace_cons, trace_cons,
        List.filter_cons_of_pos (by simp [entry, hi]), ih]

theorem run_dropInert {inert : σ → ι → Bool}
    (hinert : ∀ s i, inert s i = true → (M.step s i).1 = s) (s : σ) (is : List ι) :
    M.run s (M.dropInert inert s is) = M.run s is := by
  induction is generalizing s with
  | nil => rfl
  | cons i is ih =>
    by_cases hi : inert s i = true
    · rw [dropInert, if_pos hi, run_cons, ← ih, hinert s i hi]
    · rw [dropInert, if_neg hi, run_cons, run_cons, ih]

/-! ## Unwinding -/

/-- The answers to the relevant inputs of a run, with these inputs. -/
def answers (relevant : ι → Bool) (s : σ) (is : List ι) : List (ι × ο) :=
  ((M.trace s is).filter fun e ↦ relevant e.input).map fun e ↦ (e.input, e.output)

theorem answers_cons_of_relevant {relevant : ι → Bool} {i : ι} (hi : relevant i = true) (s : σ)
    (is : List ι) : M.answers relevant s (i :: is)
      = (i, (M.step s i).2) :: M.answers relevant (M.step s i).1 is := by
  simp [answers, entry, hi]

theorem answers_cons_of_irrelevant {relevant : ι → Bool} {i : ι} (hi : relevant i = false) (s : σ)
    (is : List ι) : M.answers relevant s (i :: is) = M.answers relevant (M.step s i).1 is := by
  simp [answers, entry, hi]

/-- The two one-step conditions under which nothing but relevant inputs matters to a view. -/
structure Unwinding (view : σ → ν) (relevant : ι → Bool) : Prop where
  /-- An input that is not relevant leaves the view alone. -/
  irrelevant : ∀ s i, relevant i = false → view (M.step s i).1 = view s
  /-- What a relevant input does to the view depends on the view only. -/
  consistent : ∀ s s' i, relevant i = true → view s = view s' →
    view (M.step s i).1 = view (M.step s' i).1
  /-- So does its answer. -/
  answer : ∀ s s' i, relevant i = true → view s = view s' → (M.step s i).2 = (M.step s' i).2

variable {M} {view : σ → ν} {relevant : ι → Bool}

private theorem Unwinding.run_filter (h : M.Unwinding view relevant) {s s' : σ}
    (hs : view s = view s') (is : List ι) :
    view (M.run s is) = view (M.run s' (is.filter relevant)) ∧
      M.answers relevant s is = M.answers relevant s' (is.filter relevant) := by
  induction is generalizing s s' with
  | nil => exact ⟨hs, rfl⟩
  | cons i is ih =>
    cases hi : relevant i with
    | false =>
      obtain ⟨hview, hans⟩ := ih ((h.irrelevant s i hi).trans hs)
      rw [List.filter_cons_of_neg (by simp [hi]), run_cons, answers_cons_of_irrelevant M hi]
      exact ⟨hview, hans⟩
    | true =>
      obtain ⟨hview, hans⟩ := ih (h.consistent s s' i hi hs)
      rw [List.filter_cons_of_pos hi, run_cons, run_cons, answers_cons_of_relevant M hi,
        answers_cons_of_relevant M hi, hans, h.answer s s' i hi hs]
      exact ⟨hview, rfl⟩

/-- **Unwinding, states.** Two runs with the same relevant inputs end with the same view. -/
theorem Unwinding.run (h : M.Unwinding view relevant) {s s' : σ} (hs : view s = view s')
    {is is' : List ι} (his : is.filter relevant = is'.filter relevant) :
    view (M.run s is) = view (M.run s' is') := by
  rw [(h.run_filter hs is).1, (h.run_filter (rfl : view s' = view s') is').1, his]

/-- **Unwinding, answers.** Two runs with the same relevant inputs answer them alike. -/
theorem Unwinding.answers (h : M.Unwinding view relevant) {s s' : σ} (hs : view s = view s')
    {is is' : List ι} (his : is.filter relevant = is'.filter relevant) :
    M.answers relevant s is = M.answers relevant s' is' := by
  rw [(h.run_filter hs is).2, (h.run_filter (rfl : view s' = view s') is').2, his]

end Machine

end Library
