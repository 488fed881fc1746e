import ChatStore.Library.Mutex
import Mathlib.Data.List.Nodup

/-!
# Calls under one mutex are serialisable

The invariant relates a state of the machine to the schedule that led there. A step of the task that
holds the mutex does the next of its operations, or nothing; everybody else leaves the shared state
alone, so what the holder has seen stays true until it returns or is dropped.
-/

namespace Library

namespace Mutex

variable {σ ρ κ θ α τ ι : Type*} [DecidableEq ι] {P : Mutex σ κ θ α τ ρ} {s : σ}
  {st : State σ κ θ α τ ρ ι} {sched : List (Action θ α ι)} {t u : ι}

/-! ## The invariant -/

@[simp] theorem phase_move_self (st : State σ κ θ α τ ρ ι) (t : ι) (p : Phase κ θ ρ) :
    (st.move t p).phase t = p := Function.update_self ..

theorem phase_move_of_ne (h : u ≠ t) (p : Phase κ θ ρ) : (st.move t p).phase u = st.phase u :=
  Function.update_of_ne h ..

variable (P) in
/-- What is known of the task that holds the mutex: its turn is the last one, and what is left of
its section does what is left of its operations. -/
structure Holds (s : σ) (st : State σ κ θ α τ ρ ι) (sched : List (Action θ α ι))
    (h : Holder ι σ α ρ) : Prop where
  phase : st.phase h.task = .inside
  does : h.rest.Does P.apply h.pending (P.results s sched h.task).getLast? st.shared
  turn : ∃ earlier call now, st.turns = earlier ++ [⟨h.task, call, now⟩] ∧
    writesOf h.task sched ++ h.pending = P.ops call now

variable (P) in
/-- The invariant of the machine. A run from the state `s` has led to `st` with the schedule
`sched`. -/
structure Inv (s : σ) (st : State σ κ θ α τ ρ ι) (sched : List (Action θ α ι)) : Prop where
  shared : P.serial.run s sched = st.shared
  fresh : ∀ t, (st.phase t).fresh = true → ∀ action ∈ sched, action.1 ≠ t
  result : ∀ t result, st.phase t = .returned result →
    (P.results s sched t).getLast? = some result
  nodup : (st.turns.map Turn.task).Nodup
  started : ∀ turn ∈ st.turns, (st.phase turn.task).fresh = false
  order : writes sched = st.turns.flatMap fun turn ↦
    (writesOf turn.task sched).map fun op ↦ (turn.task, op)
  initial : ∀ turn ∈ st.turns, writesOf turn.task sched <+: P.ops turn.call turn.now
  complete : ∀ turn ∈ st.turns, ∀ result, st.phase turn.task = .returned result →
    writesOf turn.task sched = P.ops turn.call turn.now
  holds : ∀ h ∈ st.holder, P.Holds s st sched h

theorem inv_initial (s : σ) : P.Inv s (State.initial s : State σ κ θ α τ ρ ι) [] where
  shared := rfl
  fresh _ _ _ haction := absurd haction List.not_mem_nil
  result t result h := by cases h
  nodup := List.nodup_nil
  started _ hturn := absurd hturn List.not_mem_nil
  order := rfl
  initial _ hturn := absurd hturn List.not_mem_nil
  complete _ hturn := absurd hturn List.not_mem_nil
  holds h hholder := by cases hholder

/-- Another task changes its phase. -/
theorem Holds.move {h : Holder ι σ α ρ} (hh : P.Holds s st sched h) (hne : h.task ≠ t)
    (p : Phase κ θ ρ) : P.Holds s (st.move t p) sched h :=
  ⟨by rw [phase_move_of_ne hne]; exact hh.phase, hh.does, hh.turn⟩

/-- A task that does not hold the mutex changes its phase, in a way the schedule justifies. -/
theorem Inv.move (hinv : P.Inv s st sched) (p : Phase κ θ ρ)
    (hfresh : p.fresh = true → (st.phase t).fresh = true)
    (hresult : ∀ result, p = .returned result →
      (P.results s sched t).getLast? = some result ∧
        ∀ turn ∈ st.turns, turn.task = t → writesOf t sched = P.ops turn.call turn.now)
    (hholder : ∀ h ∈ st.holder, h.task ≠ t) : P.Inv s (st.move t p) sched where
  shared := hinv.shared
  fresh u hu := by
    by_cases hut : u = t
    · subst hut
      rw [phase_move_self] at hu
      exact hinv.fresh u (hfresh hu)
    · rw [phase_move_of_ne hut] at hu
      exact hinv.fresh u hu
  result u result hu := by
    by_cases hut : u = t
    · subst hut
      rw [phase_move_self] at hu
      exact (hresult result hu).1
    · rw [phase_move_of_ne hut] at hu
      exact hinv.result u result hu
  nodup := hinv.nodup
  started turn hturn := by
    have hstarted := hinv.started turn hturn
    by_cases hut : turn.task = t
    · rw [hut] at hstarted ⊢
      rw [phase_move_self]
      exact Bool.eq_false_iff.mpr fun hp ↦ by simp [hfresh hp] at hstarted
    · rwa [phase_move_of_ne hut]
  order := hinv.order
  initial := hinv.initial
  complete turn hturn result hphase := by
    by_cases hut : turn.task = t
    · rw [hut, phase_move_self] at hphase
      rw [hut]
      exact (hresult result hphase).2 turn hturn hut
    · rw [phase_move_of_ne hut] at hphase
      exact hinv.complete turn hturn result hphase
  holds h hh := (hinv.holds h hh).move (hholder h hh) p

/-- The mutex is released, or kept. -/
theorem Inv.release (hinv : P.Inv s st sched) (holder : Option (Holder ι σ α ρ))
    (h : ∀ x ∈ holder, x ∈ st.holder) : P.Inv s { st with holder := holder } sched where
  shared := hinv.shared
  fresh := hinv.fresh
  result := hinv.result
  nodup := hinv.nodup
  started := hinv.started
  order := hinv.order
  initial := hinv.initial
  complete := hinv.complete
  holds x hx :=
    have hh := hinv.holds x (h x hx)
    ⟨hh.phase, hh.does, hh.turn⟩

/-! ### The steps -/

theorem Inv.lock (hsound : P.Sound) (hinv : P.Inv s st sched) {call : κ} {now : τ}
    (hphase : st.phase t = .waiting call) (hfree : st.holder = none) :
    P.Inv s { st.move t .inside with
      holder := some ⟨t, P.ops call now, P.body call now⟩
      turns := st.turns ++ [⟨t, call, now⟩] } sched := by
  have hfresh := hinv.fresh t (by rw [hphase]; rfl)
  have hnone : writesOf t sched = [] := writesOf_eq_nil hfresh
  have hnew : ∀ turn ∈ st.turns, turn.task ≠ t := by
    intro turn hturn heq
    have hstarted := hinv.started turn hturn
    rw [heq, hphase] at hstarted
    cases hstarted
  have hmove := hinv.move (t := t) .inside (fun h ↦ absurd h (by simp [Phase.fresh]))
    (fun _ h ↦ absurd h (by simp)) (by simp [hfree])
  refine ⟨hmove.shared, hmove.fresh, hmove.result, ?_, ?_, ?_, ?_, ?_, ?_⟩
  · rw [List.map_append, List.map_singleton]
    refine List.nodup_append.mpr ⟨hinv.nodup, List.nodup_singleton t, ?_⟩
    intro u hu v hv
    obtain ⟨turn, hturn, rfl⟩ := List.mem_map.mp hu
    exact List.mem_singleton.mp hv ▸ hnew turn hturn
  · intro turn hturn
    rcases List.mem_append.mp hturn with hturn | hturn
    · exact hmove.started turn hturn
    · rw [List.mem_singleton.mp hturn]
      simp [Phase.fresh]
  · rw [List.flatMap_append, ← hinv.order, List.flatMap_singleton, hnone, List.map_nil,
      List.append_nil]
  · intro turn hturn
    rcases List.mem_append.mp hturn with hturn | hturn
    · exact hinv.initial turn hturn
    · rw [List.mem_singleton.mp hturn, hnone]
      exact List.nil_prefix
  · intro turn hturn result hreturned
    rcases List.mem_append.mp hturn with hturn | hturn
    · exact hmove.complete turn hturn result hreturned
    · rw [List.mem_singleton.mp hturn] at hreturned
      simp at hreturned
  · intro h hh
    obtain rfl := Option.some.inj hh
    refine ⟨phase_move_self .., ?_, st.turns, call, now, rfl, ?_⟩
    · rw [results_eq_nil hfresh]
      exact hsound call now st.shared
    · rw [hnone, List.nil_append]

theorem Inv.look (hinv : P.Inv s st sched) {pending : List α} {next : σ → CriticalSection σ ρ}
    (hholder : st.holder = some ⟨t, pending, .look next⟩) :
    P.Inv s { st with holder := some ⟨t, pending, next st.shared⟩ } sched := by
  have hh := hinv.holds _ hholder
  refine ⟨hinv.shared, hinv.fresh, hinv.result, hinv.nodup, hinv.started, hinv.order, hinv.initial,
    hinv.complete, ?_⟩
  intro h hnew
  obtain rfl := Option.some.inj hnew
  exact ⟨hh.phase, hh.does, hh.turn⟩

/-- The holder does its next operation. -/
theorem Inv.op (hinv : P.Inv s st sched) {op : α} {pending : List α}
    {rest : CriticalSection σ ρ} (hholder : st.holder = some ⟨t, op :: pending, rest⟩)
    (rest' : CriticalSection σ ρ)
    (hdoes : rest'.Does P.apply pending (some (P.apply op st.shared).2) (P.apply op st.shared).1) :
    P.Inv s { st with
      shared := (P.apply op st.shared).1
      holder := some ⟨t, pending, rest'⟩ } (sched ++ [(t, .inl op)]) := by
  have hh := hinv.holds _ hholder
  obtain ⟨earlier, call, now, hturns, hops⟩ := hh.turn
  have hinside : st.phase t = .inside := hh.phase
  -- Nobody but the holder gains an operation, and its turn is the last.
  have hearlier : ∀ turn ∈ earlier, t ≠ turn.task := by
    intro turn hturn heq
    have hnodup := hinv.nodup
    rw [hturns, List.map_append, List.nodup_append] at hnodup
    exact hnodup.2.2 _ (List.mem_map_of_mem hturn) t (by simp) heq.symm
  have hother : ∀ turn ∈ earlier,
      writesOf turn.task (sched ++ [(t, .inl op)]) = writesOf turn.task sched :=
    fun turn hturn ↦ writesOf_concat_of_ne (hearlier turn hturn) op
  have hself : writesOf t (sched ++ [(t, .inl op)]) ++ pending = P.ops call now := by
    rw [writesOf_concat_self, List.append_assoc]
    exact hops
  have hshared : P.serial.run s (sched ++ [(t, .inl op)]) = (P.apply op st.shared).1 := by
    rw [run_concat_op, hinv.shared]
  refine ⟨hshared, ?_, ?_, hinv.nodup, hinv.started, ?_, ?_, ?_, ?_⟩
  · intro u hu action haction
    rcases List.mem_append.mp haction with haction | haction
    · exact hinv.fresh u hu action haction
    · obtain rfl := List.mem_singleton.mp haction
      rintro rfl
      simp [hinside, Phase.fresh] at hu
  · intro u result hu
    have hne : t ≠ u := by
      rintro rfl
      simp [hinside] at hu
    rw [results_concat_of_ne hne]
    exact hinv.result u result hu
  · have horder := hinv.order
    rw [hturns, List.flatMap_append, List.flatMap_singleton] at horder ⊢
    rw [writes_concat_op, horder, writesOf_concat_self, List.map_append, List.append_assoc]
    congr 1
    exact List.flatMap_congr fun turn hturn ↦ by rw [hother turn hturn]
  · intro turn hturn
    have hinitial := hinv.initial turn hturn
    rw [hturns] at hturn
    rcases List.mem_append.mp hturn with hturn | hturn
    · rwa [hother turn hturn]
    · obtain rfl := List.mem_singleton.mp hturn
      exact ⟨pending, hself⟩
  · intro turn hturn result hreturned
    have hcomplete := hinv.complete turn hturn result hreturned
    rw [hturns] at hturn
    rcases List.mem_append.mp hturn with hturn | hturn
    · rwa [hother turn hturn]
    · obtain rfl := List.mem_singleton.mp hturn
      simp [hinside] at hreturned
  · intro h hnew
    obtain rfl := Option.some.inj hnew
    refine ⟨hinside, ?_, earlier, call, now, hturns, hself⟩
    rw [results_concat_self, List.getLast?_concat, hinv.shared]
    exact hdoes

/-- The holder returns, with all its operations done. -/
theorem Inv.finish (hinv : P.Inv s st sched) {result : ρ}
    (hholder : st.holder = some ⟨t, [], .done result⟩) :
    P.Inv s { st.move t (.returned result) with holder := none } sched := by
  have hh := hinv.holds _ hholder
  obtain ⟨earlier, call, now, hturns, hops⟩ := hh.turn
  have hlast : (P.results s sched t).getLast? = some result := by
    rcases hh.does with ⟨-, hlast⟩ | ⟨op, hnil, -⟩
    · exact hlast
    · exact absurd hnil (by simp)
  have hfree := hinv.release none (by simp)
  refine hfree.move _ (by simp [Phase.fresh]) (fun result' heq ↦ ?_) (by simp)
  obtain rfl := Phase.returned.inj heq
  refine ⟨hlast, fun turn hturn htask ↦ ?_⟩
  -- A task has one turn, so this is the turn of the holder.
  have hmem : (⟨t, call, now⟩ : Turn ι κ τ) ∈ st.turns := by rw [hturns]; simp
  obtain rfl : turn = ⟨t, call, now⟩ := List.inj_on_of_nodup_map hinv.nodup hturn hmem htask
  rw [← hops, List.append_nil]

theorem Inv.select (hinv : P.Inv s st sched) {q : θ} (hphase : st.phase t = .asking q) :
    P.Inv s (st.move t (.returned (P.query q st.shared))) (sched ++ [(t, .inr q)]) := by
  have hfresh := hinv.fresh t (by rw [hphase]; rfl)
  have hnew : ∀ turn ∈ st.turns, turn.task ≠ t := by
    intro turn hturn heq
    have hstarted := hinv.started turn hturn
    rw [heq, hphase] at hstarted
    cases hstarted
  have hholder : ∀ h ∈ st.holder, h.task ≠ t := by
    intro h hh heq
    have hinside := (hinv.holds h hh).phase
    rw [heq, hphase] at hinside
    exact absurd hinside (by simp)
  refine ⟨?_, ?_, ?_, hinv.nodup, ?_, ?_, ?_, ?_, ?_⟩
  · rw [run_concat_query, hinv.shared]
    rfl
  · intro u hu action haction
    have hut : u ≠ t := by
      rintro rfl
      simp [Phase.fresh] at hu
    rw [phase_move_of_ne hut] at hu
    rcases List.mem_append.mp haction with haction | haction
    · exact hinv.fresh u hu action haction
    · obtain rfl := List.mem_singleton.mp haction
      exact hut.symm
  · intro u result hu
    by_cases hut : u = t
    · subst hut
      rw [phase_move_self] at hu
      rw [results_concat_self, List.getLast?_concat, hinv.shared, ← Phase.returned.inj hu]
      rfl
    · rw [phase_move_of_ne hut] at hu
      rw [results_concat_of_ne (Ne.symm hut)]
      exact hinv.result u result hu
  · intro turn hturn
    rw [phase_move_of_ne (hnew turn hturn)]
    exact hinv.started turn hturn
  · simp only [writes_concat_query, writesOf_concat_query]
    exact hinv.order
  · intro turn hturn
    rw [writesOf_concat_query]
    exact hinv.initial turn hturn
  · intro turn hturn result hreturned
    rw [phase_move_of_ne (hnew turn hturn)] at hreturned
    rw [writesOf_concat_query]
    exact hinv.complete turn hturn result hreturned
  · intro h hh
    have hholds := hinv.holds h hh
    refine ⟨?_, ?_, ?_⟩
    · rw [phase_move_of_ne (hholder h hh)]
      exact hholds.phase
    · rw [results_concat_of_ne (hholder h hh).symm]
      exact hholds.does
    · rw [writesOf_concat_query]
      exact hholds.turn

/-- One step keeps the invariant, and adds at most one entry to the schedule. -/
theorem Inv.step (hsound : P.Sound) (hinv : P.Inv s st sched) (label : Label κ θ τ ι) :
    P.Inv s (P.step st label).1 (sched ++ (P.step st label).2) ∧
      (P.step st label).2.length ≤ 1 := by
  have hmoves := P.step_moves st label
  generalize (P.step st label).1 = st' at hmoves ⊢
  generalize (P.step st label).2 = out at hmoves ⊢
  -- A task that is not inside its section does not hold the mutex.
  have hholder : ∀ t, st.phase t ≠ .inside → ∀ h ∈ st.holder, h.task ≠ t :=
    fun t hphase h hh heq ↦ hphase (heq ▸ (hinv.holds h hh).phase)
  obtain _ | ⟨t, p, hold, hnew⟩ | ⟨t, call, now, hphase, hfree⟩ | ⟨t, pending, next, hh⟩ |
    ⟨t, pending, change, next, hh⟩ | ⟨t, pending, result, hh⟩ | ⟨t, q, hphase⟩ |
    ⟨t, hphase⟩ := hmoves
  · rw [List.append_nil]
    exact ⟨hinv, Nat.zero_le 1⟩
  · rw [List.append_nil]
    refine ⟨hinv.move p (fun _ ↦ hold) (fun result heq ↦ absurd heq (hnew result)) ?_,
      Nat.zero_le 1⟩
    refine hholder t fun hinside ↦ ?_
    rw [hinside] at hold
    cases hold
  · rw [List.append_nil]
    exact ⟨hinv.lock hsound hphase hfree, Nat.zero_le 1⟩
  · rw [List.append_nil]
    exact ⟨hinv.look hh, Nat.zero_le 1⟩
  · obtain ⟨op, rest, hpending, hchange, hdoes⟩ := (hinv.holds _ hh).does
    obtain rfl : pending = op :: rest := hpending
    rw [← hchange] at hdoes ⊢
    exact ⟨hinv.op hh _ hdoes, le_rfl⟩
  · rcases (hinv.holds _ hh).does with ⟨hpending, -⟩ | ⟨op, hpending, happly⟩
    · obtain rfl : pending = [] := hpending
      rw [List.map_nil, List.append_nil]
      exact ⟨hinv.finish hh, Nat.zero_le 1⟩
    · -- The operation left over has no effect, so it may as well be done now.
      obtain rfl : pending = [op] := hpending
      have hdone := hinv.op hh (.done result) (Or.inl ⟨rfl, by rw [happly]⟩)
      rw [happly] at hdone
      exact ⟨hdone.finish rfl, le_rfl⟩
  · exact ⟨hinv.select hphase, le_rfl⟩
  · rw [List.append_nil]
    have hkeep : ∀ h ∈ st.holder.filter (fun h ↦ h.task ≠ t), h ∈ st.holder ∧ h.task ≠ t := by
      intro h hh
      simpa using Option.mem_filter_iff.mp hh
    have hfree := hinv.release _ fun h hh ↦ (hkeep h hh).1
    exact ⟨hfree.move .cancelled (by simp [Phase.fresh]) (by simp) fun h hh ↦ (hkeep h hh).2,
      Nat.zero_le 1⟩

/-! ## Runs -/

theorem after_concat (past : List (Label κ θ τ ι)) (label : Label κ θ τ ι) :
    P.after s (past ++ [label]) = (P.step (P.after s past) label).1 := Machine.run_concat ..

theorem schedule_concat (past : List (Label κ θ τ ι)) (label : Label κ θ τ ι) :
    P.schedule s (past ++ [label]) = P.schedule s past ++ (P.step (P.after s past) label).2 := by
  rw [schedule, Machine.trace_concat, List.flatMap_append, ← schedule, List.flatMap_singleton]
  rfl

theorem inv_run (hsound : P.Sound) (s : σ) (labels : List (Label κ θ τ ι)) :
    P.Inv s (P.after s labels) (P.schedule s labels) := by
  induction labels using List.reverseRecOn with
  | nil => exact inv_initial s
  | append_singleton past label ih =>
    rw [after_concat, schedule_concat]
    exact (ih.step hsound label).1

/-- What one step of a run adds to the schedule. -/
theorem schedule_concat_cases (hsound : P.Sound) (s : σ) (past : List (Label κ θ τ ι))
    (label : Label κ θ τ ι) :
    P.schedule s (past ++ [label]) = P.schedule s past ∨
      ∃ action, P.schedule s (past ++ [label]) = P.schedule s past ++ [action] := by
  have hlength := ((inv_run hsound s past).step hsound label).2
  rw [schedule_concat]
  rcases hout : (P.step (P.after s past) label).2 with _ | ⟨action, rest⟩
  · exact Or.inl (List.append_nil _)
  · rw [hout, List.length_cons] at hlength
    obtain rfl : rest = [] := List.length_eq_zero_iff.mp (by omega)
    exact Or.inr ⟨action, rfl⟩

/-- What one step of a run does to the shared state: nothing, or what its entry does. -/
theorem shared_concat_cases (hsound : P.Sound) (s : σ) (past : List (Label κ θ τ ι))
    (label : Label κ θ τ ι) :
    (P.after s (past ++ [label])).shared = (P.after s past).shared ∨
      ∃ action, P.schedule s (past ++ [label]) = P.schedule s past ++ [action] ∧
        (P.after s (past ++ [label])).shared
          = (P.serial.step (P.after s past).shared action).1 := by
  have hbefore := (inv_run hsound s past).shared
  have hafter := (inv_run hsound s (past ++ [label])).shared
  rw [← hbefore, ← hafter]
  rcases schedule_concat_cases hsound s past label with hsame | ⟨action, hlast⟩
  · exact Or.inl (by rw [hsame])
  · exact Or.inr ⟨action, hlast, by rw [hlast, Machine.run_concat]⟩

/-- A query gets into the schedule by the step that reads. -/
theorem select_of_step {label : Label κ θ τ ι} {q : θ} (h : (P.step st label).2 = [(t, .inr q)]) :
    label = .select t := by
  rcases label with ⟨u, call⟩ | ⟨u, q'⟩ | ⟨u, now⟩ | _ | u | u
  · rw [step] at h
    split at h <;> cases h
  · rw [step] at h
    split at h <;> cases h
  · rw [step] at h
    split at h <;> cases h
  · -- What the holder adds are operations.
    have hop : ∀ action ∈ (P.step st .advance).2, ∃ op, action.2 = .inl op := by
      rw [step]
      split
      all_goals simp
    obtain ⟨op, hinl⟩ := hop (t, .inr q) (by rw [h]; exact List.mem_singleton_self _)
    exact absurd hinl (by simp)
  · rw [step] at h
    split at h
    · cases h
      rfl
    · exact absurd h (by simp)
  · rw [step] at h
    split at h <;> cases h

theorem placed (hsound : P.Sound) (s : σ) (labels : List (Label κ θ τ ι))
    {earlier later : List (Action θ α ι)} {action : Action θ α ι}
    (h : P.schedule s labels = earlier ++ action :: later) :
    ∃ past label, past ++ [label] <+: labels ∧ P.schedule s past = earlier ∧
      P.schedule s (past ++ [label]) = earlier ++ [action] ∧
      ∀ q, action.2 = .inr q → label = .select action.1 := by
  induction labels using List.reverseRecOn generalizing later with
  | nil =>
    have hnil : ([] : List (Action θ α ι)) = earlier ++ action :: later := h
    simp at hnil
  | append_singleton labels label ih =>
    have hpre := List.prefix_append labels [label]
    rcases schedule_concat_cases hsound s labels label with hsame | ⟨last, hlast⟩
    · obtain ⟨past, l, hpast, hrest⟩ := ih (hsame.symm.trans h)
      exact ⟨past, l, hpast.trans hpre, hrest⟩
    · rcases List.eq_nil_or_concat later with rfl | ⟨later, last', rfl⟩
      · -- The entry is the one this step has added.
        obtain ⟨hearlier, hactions⟩ := List.append_inj' (hlast.symm.trans h) rfl
        obtain rfl : last = action := List.singleton_inj.mp hactions
        refine ⟨labels, label, List.prefix_rfl, hearlier, hearlier ▸ hlast, fun q hq ↦ ?_⟩
        obtain ⟨t, action⟩ := last
        obtain rfl : action = .inr q := hq
        rw [schedule_concat] at hlast
        exact select_of_step (List.append_cancel_left hlast)
      · have hsplit : P.schedule s labels ++ [last] = (earlier ++ action :: later) ++ [last'] := by
          rw [← hlast, h, List.concat_eq_append, List.append_assoc, List.cons_append]
        obtain ⟨past, l, hpast, hrest⟩ := ih (List.append_inj' hsplit rfl).1
        exact ⟨past, l, hpast.trans hpre, hrest⟩

/-- **Calls under a mutex are serialisable.** Whatever the scheduler does, and whichever tasks it
drops at whichever step, the schedule accounts for the run. -/
theorem serialises (hsound : P.Sound) (s : σ) (labels : List (Label κ θ τ ι)) :
    P.Serialises s labels := by
  have hinv := inv_run hsound s labels
  exact ⟨hinv.shared, hinv.result, hinv.nodup, hinv.order, hinv.initial, hinv.complete,
    fun _ _ _ ↦ placed hsound s labels⟩

end Mutex

end Library
