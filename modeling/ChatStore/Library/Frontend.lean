import ChatStore.Library.Serialisable

/-!
# Requests served under a mutex

A server gives each request a task of its own. Its plan for the request is to reply on the spot, to
make one call under the mutex or to make one query, and the answer is made from what that returns.

The history of a run lists the requests in the order in which they took effect: a reply when it is
received, a query when it reads, a call with the first of its operations. `linearises` says that
a machine which serves one request at a time, fed with the history, gives the same answers and ends
in the same state.

A call of several operations is not atomic, and queries may run between them. So two things are
asked of it. The operations after the first must be invisible to every query, which is part of
`Implements`, and a task that makes such a call must not be cancelled, which is `Uncut`.
-/

namespace Library

variable {σ ρ κ θ α τ ι R ο : Type*}

/-- What a handler does about a request. -/
inductive Plan (κ θ ρ ο : Type*)
  | reply (out : ο)
  | call (c : κ) (answer : ρ → ο)
  | ask (q : θ) (answer : ρ → ο)

/-- The answer once the task is in a phase. -/
def Plan.answer : Plan κ θ ρ ο → Mutex.Phase κ θ ρ → Option ο
  | .reply out, _ => some out
  | .call _ answer, .returned result | .ask _ answer, .returned result => some (answer result)
  | _, _ => none

/-- Only a reply is an answer before the task returns. -/
theorem Plan.answer_of_not_returned {p : Plan κ θ ρ ο} {phase : Mutex.Phase κ θ ρ}
    (hphase : ∀ result, phase ≠ .returned result) {out : ο} (h : p.answer phase = some out) :
    p = .reply out := by
  rcases p with out' | ⟨c, f⟩ | ⟨q, f⟩
  · exact congrArg _ (Option.some.inj h)
  all_goals
    rcases phase with _ | _ | _ | _ | result | _
    all_goals first
      | exact absurd rfl (hphase result)
      | exact absurd h (by simp [Plan.answer])

/-- Operations one after the other. Beside the state goes the result of the last one done. -/
def Mutex.doAll (P : Mutex σ κ θ α τ ρ) : List α → σ × Option ρ → σ × Option ρ
  | [], x => x
  | op :: ops, x => P.doAll ops ((P.apply op x.1).1, some (P.apply op x.1).2)

namespace Frontend

open Mutex (Action)

/-! ## The server -/

/-- The tasks under the mutex, and the request that each of them serves. -/
structure State (σ κ θ α τ ρ ι R : Type*) where
  mutex : Mutex.State σ κ θ α τ ρ ι
  request : ι → Option R

def State.initial (s : σ) : State σ κ θ α τ ρ ι R := ⟨Mutex.State.initial s, fun _ ↦ none⟩

inductive Label (R τ ι : Type*)
  | receive (t : ι) (r : R)
  | lock (t : ι) (now : τ)
  | advance
  | select (t : ι)
  | cancel (t : ι)

/-- An entry of a history: a task, the clock reading of its call and its request. -/
abbrev Entry (τ ι R : Type*) := ι × τ × R

variable (P : Mutex σ κ θ α τ ρ) (plan : R → Plan κ θ ρ ο)

/-- The holder of the mutex has done the first of its operations. -/
def started (st : Mutex.State σ κ θ α τ ρ ι) : Bool :=
  match st.holder, st.turns.getLast? with
  | some h, some turn => h.pending.length < (P.ops turn.call turn.now).length
  | _, _ => false

/-- The shared state once a call under way is through. -/
def settled (st : Mutex.State σ κ θ α τ ρ ι) : σ :=
  match st.holder with
  | some h => if started P st then (P.doAll h.pending (st.shared, none)).1 else st.shared
  | none => st.shared

/-- The answer of a task, if it has one yet. -/
def answer (st : State σ κ θ α τ ρ ι R) (t : ι) : Option ο :=
  (st.request t).bind fun r ↦ (plan r).answer (st.mutex.phase t)

section Step

variable [DecidableEq ι] [Inhabited τ]

/-- The entry of a task that takes effect. -/
def State.entry (st : State σ κ θ α τ ρ ι R) (t : ι) (now : τ) : List (Entry τ ι R) :=
  (st.request t).toList.map fun r ↦ (t, now, r)

/-- What an action under the mutex adds to the history. -/
def State.recorded (st : State σ κ θ α τ ρ ι R) (action : Action θ α ι) : List (Entry τ ι R) :=
  match action.2 with
  | .inr _ => st.entry action.1 default
  | .inl _ =>
    if started P st.mutex then []
    else st.mutex.turns.getLast?.toList.flatMap fun turn ↦ st.entry action.1 turn.now

/-- A step under the mutex. -/
def State.under (st : State σ κ θ α τ ρ ι R) (label : Mutex.Label κ θ τ ι) :
    State σ κ θ α τ ρ ι R × List (Entry τ ι R) :=
  ({ st with mutex := (P.step st.mutex label).1 },
    (P.step st.mutex label).2.flatMap (st.recorded P))

/-- One step, and what it adds to the history. A label that is not enabled does nothing. -/
def step (st : State σ κ θ α τ ρ ι R) :
    Label R τ ι → State σ κ θ α τ ρ ι R × List (Entry τ ι R)
  | .receive t r =>
    match st.request t with
    | some _ => (st, [])
    | none =>
      let st' := { st with request := Function.update st.request t (some r) }
      match plan r with
      | .reply _ => (st', [(t, default, r)])
      | .call c _ => st'.under P (.invoke t c)
      | .ask q _ => st'.under P (.ask t q)
  | .lock t now => st.under P (.lock t now)
  | .advance => st.under P .advance
  | .select t => st.under P (.select t)
  | .cancel t => st.under P (.cancel t)

/-- The server under an arbitrary scheduler. -/
def machine : Machine (State σ κ θ α τ ρ ι R) (Label R τ ι) (List (Entry τ ι R)) := ⟨step P plan⟩

/-- The state after a run. -/
def after (s : σ) (labels : List (Label R τ ι)) : State σ κ θ α τ ρ ι R :=
  (machine P plan).run (State.initial s) labels

/-- The history of a run. -/
def history (s : σ) (labels : List (Label R τ ι)) : List (Entry τ ι R) :=
  ((machine P plan).trace (State.initial s) labels).flatMap Machine.Entry.output

end Step

/-! ## What is asked of the server -/

/-- The server does with each request what the machine `N` does. -/
structure Implements (N : Machine σ (τ × R) ο) : Prop where
  sound : P.Sound
  reply : ∀ r out, plan r = .reply out → ∀ s now, N.step s (now, r) = (s, out)
  ask : ∀ r q answer, plan r = .ask q answer →
    ∀ s now, N.step s (now, r) = (s, answer (P.query q s))
  call : ∀ r c answer, plan r = .call c answer → ∀ s now, ∃ result,
    P.doAll (P.ops c now) (s, none) = ((N.step s (now, r)).1, some result) ∧
      (N.step s (now, r)).2 = answer result
  /-- No query can tell whether an operation after the first is done. -/
  hidden : ∀ r c answer, plan r = .call c answer → ∀ now, ∀ op ∈ (P.ops c now).tail,
    ∀ s q, P.query q (P.apply op s).1 = P.query q s

/-- A request is short when it is a call of one operation at most, or none. -/
def Short (r : R) : Prop :=
  ∀ c answer, plan r = .call c answer → ∀ now, (P.ops c now).length ≤ 1

/-- No task that makes a longer call is cancelled. -/
def Uncut (labels : List (Label R τ ι)) : Prop :=
  ∀ t r, .cancel t ∈ labels → .receive t r ∈ labels → Short P plan r

/-- The machine that serves one request at a time, for entries of a history. -/
abbrev serial (ι : Type*) (N : Machine σ (τ × R) ο) : Machine σ (Entry τ ι R) ο := N.comap Prod.snd

/-- The history of a run accounts for it. -/
structure Linearises [DecidableEq ι] [Inhabited τ] (N : Machine σ (τ × R) ο) (s : σ)
    (labels : List (Label R τ ι)) : Prop where
  /-- Served one at a time, the requests end in the shared state, once a call under way is
  through. -/
  state : (serial ι N).run s (history P plan s labels) = settled P (after P plan s labels).mutex
  /-- Whatever was answered is the answer of an entry. -/
  answered : ∀ t out, answer plan (after P plan s labels) t = some out →
    ∃ e ∈ (serial ι N).trace s (history P plan s labels), e.input.1 = t ∧ e.output = out
  /-- No task has two entries. -/
  nodup : ((history P plan s labels).map Prod.fst).Nodup
  /-- An entry is a request received before. -/
  received : ∀ x ∈ history P plan s labels, .receive x.1 x.2.2 ∈ labels
  /-- What has taken effect comes before what takes effect later. -/
  order : ∀ past, past <+: labels → history P plan s past <+: history P plan s labels

/-! ## Tasks made one after the other

A worker numbers its tasks and starts on the next one when the last is answered. -/

section Workers

variable {τ ι R : Type*} {worker : ι → Option ℕ}

/-- The tasks of a worker in a history, by their numbers. -/
def places (worker : ι → Option ℕ) (hist : List (Entry τ ι R)) : List ℕ :=
  hist.filterMap fun x ↦ worker x.1

theorem places_append (hist hist' : List (Entry τ ι R)) :
    places worker (hist ++ hist') = places worker hist ++ places worker hist' :=
  List.filterMap_append ..

theorem places_concat (hist : List (Entry τ ι R)) (x : Entry τ ι R) :
    places worker (hist ++ [x]) = places worker hist ++ (worker x.1).toList := by
  rw [places_append]
  refine congrArg (places worker hist ++ ·) ?_
  rw [places]
  rcases hk : worker x.1 with _ | k
  · exact List.filterMap_cons_none hk
  · exact List.filterMap_cons_some hk

theorem mem_places {hist : List (Entry τ ι R)} {k : ℕ} :
    k ∈ places worker hist ↔ ∃ x ∈ hist, worker x.1 = some k := List.mem_filterMap

/-- No number has two entries. -/
theorem nodup_places (hinj : ∀ t u k, worker t = some k → worker u = some k → t = u)
    {hist : List (Entry τ ι R)} (hnodup : (hist.map Prod.fst).Nodup) :
    (places worker hist).Nodup := by
  have hmap : places worker hist = (hist.map Prod.fst).filterMap worker := by
    rw [places, List.filterMap_map]
    rfl
  rw [hmap]
  exact List.Nodup.filterMap (fun t u k ht hu ↦ hinj t u k ht hu) hnodup

/-- Tasks take effect in the order of their numbers, as long as at most one of those that were
started has not taken effect before. -/
theorem places_extend (hinj : ∀ t u k, worker t = some k → worker u = some k → t = u)
    {hist hist' : List (Entry τ ι R)} (hpre : hist <+: hist')
    (hnodup : (hist'.map Prod.fst).Nodup) {m n : ℕ} (hplaces : places worker hist = List.range m)
    (hn : n ≤ m + 1) (hlt : ∀ k ∈ places worker hist', k < n) :
    places worker hist' = List.range m ∨ n = m + 1 ∧ places worker hist' = List.range n := by
  obtain ⟨new, rfl⟩ := hpre
  have hall := nodup_places hinj hnodup
  rw [places_append, hplaces] at hall hlt ⊢
  obtain ⟨-, hnew, hdisjoint⟩ := List.nodup_append.mp hall
  -- A new number is not below `m`, so it is `m`.
  have hmem : ∀ k ∈ places worker new, k = m ∧ n = m + 1 := by
    intro k hk
    have hkn := hlt k (List.mem_append_right _ hk)
    have hkm : ¬k < m := fun h ↦ hdisjoint k (List.mem_range.mpr h) k hk rfl
    omega
  rcases hcase : places worker new with _ | ⟨k, rest⟩
  · exact Or.inl (List.append_nil _)
  · obtain ⟨rfl, hnk⟩ := hmem k (by rw [hcase]; exact List.mem_cons_self)
    have hrest : rest = [] := by
      rcases rest with _ | ⟨k', rest⟩
      · rfl
      · obtain ⟨rfl, -⟩ := hmem k' (by rw [hcase]; simp)
        rw [hcase] at hnew
        exact absurd hnew (by simp)
    rw [hrest, hnk, List.range_succ]
    exact Or.inr ⟨rfl, rfl⟩

/-- Before the task of a number come exactly the tasks of the numbers below it. -/
theorem places_before {before later : List (Entry τ ι R)} {x : Entry τ ι R} {m k : ℕ}
    (h : places worker (before ++ x :: later) = List.range m) (hx : worker x.1 = some k) :
    places worker before = List.range k := by
  have hrange : ∀ l : List ℕ, l <+: List.range m → l = List.range l.length := by
    intro l hl
    have hle := hl.length_le
    rw [List.length_range] at hle
    rw [List.prefix_iff_eq_take.mp hl, List.take_range, List.length_range, Nat.min_eq_left hle]
  have hall : places worker before ++ k :: places worker later = List.range m := by
    rw [← h, places_append]
    exact congrArg (places worker before ++ ·)
      (List.filterMap_cons_some (f := fun x : Entry τ ι R ↦ worker x.1) hx).symm
  have hpre : places worker before ++ [k] <+: List.range m :=
    ⟨places worker later, by rw [List.append_assoc, List.singleton_append, hall]⟩
  have hconcat := hrange _ hpre
  rw [List.length_append, List.length_singleton, List.range_succ] at hconcat
  obtain ⟨hbefore, hk⟩ := List.append_inj' hconcat rfl
  rw [(List.cons_eq_cons.mp hk).1]
  exact hbefore

end Workers

end Frontend

end Library
