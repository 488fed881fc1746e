import ChatStore.Library.Frontend

/-!
# Requests served under a mutex are linearisable

The invariant relates a state of the server to the schedule of its mutex and to its history. It
follows the holder of the mutex: before its first operation it is not in the history, and the state
of the serial machine is the shared state; from then on its entry stands, and the serial machine is
ahead by the operations that the holder has left. The other tasks do not notice, since queries
cannot tell these operations apart from nothing.
-/

namespace Library

variable {σ ρ κ θ α τ ι R ο : Type*}

namespace Frontend

open Mutex (Action)

variable {P : Mutex σ κ θ α τ ρ} {plan : R → Plan κ θ ρ ο} {N : Machine σ (τ × R) ο}

/-! ## Operations done at once -/

section DoAll

variable {s : σ} {st : Mutex.State σ κ θ α τ ρ ι}

@[simp] theorem doAll_nil (x : σ × Option ρ) : P.doAll [] x = x := rfl

theorem doAll_cons (op : α) (ops : List α) (x : σ × Option ρ) :
    P.doAll (op :: ops) x = P.doAll ops ((P.apply op x.1).1, some (P.apply op x.1).2) := rfl

/-- The state does not depend on the result that came before. -/
theorem doAll_fst (ops : List α) (s : σ) (last last' : Option ρ) :
    (P.doAll ops (s, last)).1 = (P.doAll ops (s, last')).1 := by
  rcases ops with _ | ⟨op, ops⟩
  · rfl
  · rw [doAll_cons, doAll_cons]

theorem query_doAll {ops : List α}
    (hidden : ∀ op ∈ ops, ∀ s q, P.query q (P.apply op s).1 = P.query q s) (q : θ)
    (x : σ × Option ρ) : P.query q (P.doAll ops x).1 = P.query q x.1 := by
  induction ops generalizing x with
  | nil => rfl
  | cons op ops ih =>
    rw [doAll_cons, ih fun op' hop' ↦ hidden op' (List.mem_cons_of_mem op hop')]
    exact hidden op List.mem_cons_self x.1 q

theorem settled_of_holder {h : Mutex.Holder ι σ α ρ} (hholder : st.holder = some h) :
    settled P st
      = if started P st then (P.doAll h.pending (st.shared, none)).1 else st.shared := by
  rw [settled, hholder]

theorem settled_of_not_started (h : started P st = false) : settled P st = st.shared := by
  rw [settled]
  split
  · rw [h, if_neg (by simp)]
  · rfl

/-- Whether the holder has started shows in the operations it has done. -/
theorem started_iff [DecidableEq ι] {sched : List (Action θ α ι)} {h : Mutex.Holder ι σ α ρ}
    (hholder : st.holder = some h) {earlier : List (Mutex.Turn ι κ τ)} {turn : Mutex.Turn ι κ τ}
    (hturns : st.turns = earlier ++ [turn])
    (hops : Mutex.writesOf h.task sched ++ h.pending = P.ops turn.call turn.now) :
    started P st = true ↔ Mutex.writesOf h.task sched ≠ [] := by
  have hlast : st.turns.getLast? = some turn := by rw [hturns, List.getLast?_concat]
  rw [started, hholder, hlast]
  dsimp only
  rw [decide_eq_true_iff, ← hops, List.length_append, ← List.length_pos_iff]
  omega

end DoAll

/-! ## The invariant -/

variable {s : σ} {st : State σ κ θ α τ ρ ι R} {sched : List (Action θ α ι)}
  {hist : List (Entry τ ι R)} {t u : ι} {r : R}

/-! ### Entries and answers -/

theorem run_concat_serial (x : Entry τ ι R) :
    (serial ι N).run s (hist ++ [x]) = (N.step ((serial ι N).run s hist) x.2).1 :=
  Machine.run_concat ..

/-- An entry that was there stays there. -/
theorem exists_entry_append {f : Machine.Entry σ (Entry τ ι R) ο → Prop}
    (h : ∃ e ∈ (serial ι N).trace s hist, f e) (more : List (Entry τ ι R)) :
    ∃ e ∈ (serial ι N).trace s (hist ++ more), f e := by
  obtain ⟨e, he, hf⟩ := h
  exact ⟨e, Machine.trace_append .. ▸ List.mem_append_left _ he, hf⟩

/-- The entry of the last request. -/
theorem exists_entry_concat (N : Machine σ (τ × R) ο) (s : σ) (hist : List (Entry τ ι R))
    (x : Entry τ ι R) :
    ∃ e ∈ (serial ι N).trace s (hist ++ [x]), e.input = x ∧
      e.output = (N.step ((serial ι N).run s hist) x.2).2 := by
  refine ⟨(serial ι N).entry ((serial ι N).run s hist) x, ?_, rfl, rfl⟩
  rw [Machine.trace_concat]
  exact List.mem_append_right _ (List.mem_singleton_self _)

/-- Of the tasks under the mutex, an answer depends on the phase of its own. -/
theorem answer_congr {mutex : Mutex.State σ κ θ α τ ρ ι}
    (hphase : mutex.phase t = st.mutex.phase t) :
    answer plan { st with mutex := mutex } t = answer plan st t := by
  rw [answer, answer, hphase]

/-- The answers of the other tasks do not change. -/
theorem answer_update [DecidableEq ι] {mutex : Mutex.State σ κ θ α τ ρ ι} (hne : u ≠ t)
    {p : Mutex.Phase κ θ ρ} (hphase : mutex.phase = Function.update st.mutex.phase t p) :
    answer plan { st with mutex := mutex } u = answer plan st u := by
  refine answer_congr ?_
  rw [hphase, Function.update_of_ne hne]

/-- A task that has not returned has no new answer. -/
theorem answer_of_not_returned {mutex : Mutex.State σ κ θ α τ ρ ι}
    (hphase : ∀ result, mutex.phase t ≠ .returned result) {out : ο}
    (h : answer plan { st with mutex := mutex } t = some out) : answer plan st t = some out := by
  obtain ⟨r, hr, hout⟩ := Option.bind_eq_some_iff.mp h
  rw [answer, hr, Option.bind_some, Plan.answer_of_not_returned hphase hout]
  rfl

/-! ### The relation -/

variable (plan) in
/-- The tasks under the mutex do what is planned for their requests. -/
structure Attached (st : State σ κ θ α τ ρ ι R) : Prop where
  idle : ∀ t, st.request t = none → st.mutex.phase t = .idle
  waiting : ∀ t c, st.mutex.phase t = .waiting c →
    ∃ r answer, st.request t = some r ∧ plan r = .call c answer
  asking : ∀ t q, st.mutex.phase t = .asking q →
    ∃ r answer, st.request t = some r ∧ plan r = .ask q answer
  turn : ∀ turn ∈ st.mutex.turns,
    ∃ r answer, st.request turn.task = some r ∧ plan r = .call turn.call answer

theorem attached_initial : Attached plan (State.initial s : State σ κ θ α τ ρ ι R) where
  idle _ _ := rfl
  waiting _ _ h := absurd h (by simp [State.initial, Mutex.State.initial])
  asking _ _ h := absurd h (by simp [State.initial, Mutex.State.initial])
  turn _ h := absurd h List.not_mem_nil

/-- Of the tasks under the mutex, only phases and turns matter. -/
theorem Attached.congr (hatt : Attached plan st) {mutex : Mutex.State σ κ θ α τ ρ ι}
    (hphase : mutex.phase = st.mutex.phase)
    (hturn : ∀ turn ∈ mutex.turns, ∃ r answer, st.request turn.task = some r ∧
      plan r = .call turn.call answer) : Attached plan { st with mutex := mutex } where
  idle t ht := hphase ▸ hatt.idle t ht
  waiting t c ht := hatt.waiting t c (hphase ▸ ht)
  asking t q ht := hatt.asking t q (hphase ▸ ht)
  turn := hturn

/-- A task that is not idle serves a request. -/
theorem Attached.request_ne_none (hatt : Attached plan st) (h : st.mutex.phase t ≠ .idle) :
    st.request t ≠ none := fun hnone ↦ h (hatt.idle t hnone)

variable [DecidableEq ι]

variable (P plan N) in
/-- A run from the state `s` has led to `st`, with the schedule `sched` under the mutex and the
history `hist`. -/
structure Linear (s : σ) (st : State σ κ θ α τ ρ ι R) (sched : List (Action θ α ι))
    (hist : List (Entry τ ι R)) : Prop where
  mutex : P.Inv s st.mutex sched
  attached : Attached plan st
  state : (serial ι N).run s hist = settled P st.mutex
  request : ∀ x ∈ hist, st.request x.1 = some x.2.2
  nodup : (hist.map Prod.fst).Nodup
  fresh : ∀ x ∈ hist, (st.mutex.phase x.1).fresh = true → ∃ out, plan x.2.2 = .reply out
  /-- A holder that has done nothing yet is not in the history. -/
  absent : started P st.mutex = false → ∀ h ∈ st.mutex.holder, h.task ∉ hist.map Prod.fst
  /-- A holder that has started will return what its entry says. -/
  promised : started P st.mutex = true → ∀ h ∈ st.mutex.holder,
    ∃ e ∈ (serial ι N).trace s hist, e.input.1 = h.task ∧
      ∀ c answer, plan e.input.2.2 = .call c answer → ∃ result,
        (P.doAll h.pending (st.mutex.shared, (P.results s sched h.task).getLast?)).2 = some result ∧
          e.output = answer result
  answered : ∀ t out, answer plan st t = some out →
    ∃ e ∈ (serial ι N).trace s hist, e.input.1 = t ∧ e.output = out

theorem linear_initial :
    Linear P plan N s (State.initial s : State σ κ θ α τ ρ ι R) [] [] where
  mutex := Mutex.inv_initial s
  attached := attached_initial
  state := rfl
  request _ h := absurd h List.not_mem_nil
  nodup := List.nodup_nil
  fresh _ h := absurd h List.not_mem_nil
  absent _ _ h := absurd h (by simp [State.initial, Mutex.State.initial])
  promised _ _ h := absurd h (by simp [State.initial, Mutex.State.initial])
  answered _ _ h := absurd h (by simp [answer, State.initial])

/-! ### What is known of the holder -/

/-- The holder makes the call planned for its request, and what it has done and what it has left
are the operations of that call. -/
theorem Linear.holder (hlin : Linear P plan N s st sched hist) {h : Mutex.Holder ι σ α ρ}
    (hholder : st.mutex.holder = some h) :
    ∃ r c answer earlier now, st.request h.task = some r ∧ plan r = .call c answer ∧
      st.mutex.turns = earlier ++ [⟨h.task, c, now⟩] ∧
      Mutex.writesOf h.task sched ++ h.pending = P.ops c now ∧
      (started P st.mutex = true ↔ Mutex.writesOf h.task sched ≠ []) := by
  obtain ⟨earlier, c, now, hturns, hops⟩ := (hlin.mutex.holds h hholder).turn
  obtain ⟨r, answer, hrequest, hplan⟩ := hlin.attached.turn ⟨h.task, c, now⟩ (by rw [hturns]; simp)
  exact ⟨r, c, answer, earlier, now, hrequest, hplan, hturns, hops, started_iff hholder hturns hops⟩

/-- What a started holder has left is hidden from the queries. -/
theorem Linear.hidden (himpl : Implements P plan N) (hlin : Linear P plan N s st sched hist)
    {h : Mutex.Holder ι σ α ρ} (hholder : st.mutex.holder = some h)
    (hstarted : started P st.mutex = true) :
    ∀ op ∈ h.pending, ∀ s q, P.query q (P.apply op s).1 = P.query q s := by
  obtain ⟨r, c, answer, earlier, now, -, hplan, -, hops, hiff⟩ := hlin.holder hholder
  intro op hop
  refine himpl.hidden r c answer hplan now op ?_
  obtain ⟨first, done, hdone⟩ := List.exists_cons_of_ne_nil (hiff.mp hstarted)
  rw [← hops, hdone, List.cons_append, List.tail_cons]
  exact List.mem_append_right done hop

/-- Queries do not notice a call under way. -/
theorem Linear.query_settled (himpl : Implements P plan N)
    (hlin : Linear P plan N s st sched hist) (q : θ) :
    P.query q (settled P st.mutex) = P.query q st.mutex.shared := by
  rcases hholder : st.mutex.holder with _ | h
  · rw [settled, hholder]
  · rw [settled_of_holder hholder]
    by_cases hstarted : started P st.mutex = true
    · rw [if_pos hstarted, query_doAll (hlin.hidden himpl hholder hstarted)]
    · rw [if_neg hstarted]

/-- The holder has begun once it has done an operation. -/
theorem started_of_op {mutex : Mutex.State σ κ θ α τ ρ ι} {op : α} {pending : List α}
    {rest : CriticalSection σ ρ} (hmutex : P.Inv s mutex (sched ++ [(t, .inl op)]))
    (hholder : mutex.holder = some ⟨t, pending, rest⟩) : started P mutex = true := by
  obtain ⟨earlier, c, now, hturns, hops⟩ := (hmutex.holds _ hholder).turn
  refine (started_iff hholder hturns hops).mpr ?_
  rw [Mutex.writesOf_concat_self]
  simp

/-- What is left after the operation is what the operations that were left come to. -/
theorem Linear.doAll_next (hlin : Linear P plan N s st sched hist) (t : ι) (op : α)
    (pending : List α) (last : Option ρ) :
    P.doAll (op :: pending) (st.mutex.shared, last) = P.doAll pending
      ((P.apply op st.mutex.shared).1, (P.results s (sched ++ [(t, .inl op)]) t).getLast?) := by
  rw [doAll_cons, Mutex.results_concat_self, List.getLast?_concat, hlin.mutex.shared]
  rfl

/-! ### New entries -/

theorem nodup_concat (hlin : Linear P plan N s st sched hist) {x : Entry τ ι R}
    (h : x.1 ∉ hist.map Prod.fst) : ((hist ++ [x]).map Prod.fst).Nodup := by
  rw [List.map_append, List.map_singleton]
  exact List.nodup_append.mpr ⟨hlin.nodup, List.nodup_singleton _, fun y hy z hz ↦
    fun heq ↦ h (List.mem_singleton.mp hz ▸ heq ▸ hy)⟩

theorem request_concat (hlin : Linear P plan N s st sched hist) (hr : st.request t = some r)
    (now : τ) : ∀ x ∈ hist ++ [(t, now, r)], st.request x.1 = some x.2.2 := by
  intro x hx
  rcases List.mem_append.mp hx with hx | hx
  · exact hlin.request x hx
  · rw [List.mem_singleton.mp hx]
    exact hr

/-! ### Attachment is kept -/

theorem Attached.move (hatt : Attached plan st) {p : Mutex.Phase κ θ ρ}
    (hrequest : st.request t ≠ none)
    (hwaiting : ∀ c, p = .waiting c → ∃ r answer, st.request t = some r ∧ plan r = .call c answer)
    (hasking : ∀ q, p = .asking q → ∃ r answer, st.request t = some r ∧ plan r = .ask q answer) :
    Attached plan { st with mutex := st.mutex.move t p } where
  idle u hu := by
    have hne : u ≠ t := fun heq ↦ hrequest (heq ▸ hu)
    exact (Mutex.phase_move_of_ne hne p).trans (hatt.idle u hu)
  waiting u c hu := by
    by_cases hut : u = t
    · subst hut
      exact hwaiting c ((Mutex.phase_move_self ..).symm.trans hu)
    · exact hatt.waiting u c ((Mutex.phase_move_of_ne hut p).symm.trans hu)
  asking u q hu := by
    by_cases hut : u = t
    · subst hut
      exact hasking q ((Mutex.phase_move_self ..).symm.trans hu)
    · exact hatt.asking u q ((Mutex.phase_move_of_ne hut p).symm.trans hu)
  turn := hatt.turn

/-! ### The invariant is kept -/

/-- A task that has not taken effect is not in the history. -/
theorem Linear.not_mem (hlin : Linear P plan N s st sched hist) (hr : st.request t = some r)
    (hplan : ∀ out, plan r ≠ .reply out) (hfresh : (st.mutex.phase t).fresh = true) :
    t ∉ hist.map Prod.fst := by
  intro hmem
  obtain ⟨x, hx, rfl⟩ := List.mem_map.mp hmem
  obtain ⟨out, hout⟩ := hlin.fresh x hx hfresh
  rw [hlin.request x hx, Option.some.injEq] at hr
  exact hplan out (hr ▸ hout)

/-- A task that changes its phase has taken effect if it had. -/
theorem Linear.fresh_update (hlin : Linear P plan N s st sched hist) {p : Mutex.Phase κ θ ρ}
    {phase : ι → Mutex.Phase κ θ ρ} (hphase : phase = Function.update st.mutex.phase t p)
    (hfresh : p.fresh = true → (st.mutex.phase t).fresh = true) :
    ∀ x ∈ hist, (phase x.1).fresh = true → ∃ out, plan x.2.2 = .reply out := by
  intro x hx hxfresh
  refine hlin.fresh x hx ?_
  rw [hphase] at hxfresh
  by_cases hxt : x.1 = t
  · rw [hxt, Function.update_self] at hxfresh
    rw [hxt]
    exact hfresh hxfresh
  · rwa [Function.update_of_ne hxt] at hxfresh

/-- A task that changes its phase without returning has no new answer. -/
theorem Linear.answered_update (hlin : Linear P plan N s st sched hist) {p : Mutex.Phase κ θ ρ}
    {mutex : Mutex.State σ κ θ α τ ρ ι}
    (hphase : mutex.phase = Function.update st.mutex.phase t p)
    (hreturned : ∀ result, p ≠ .returned result) :
    ∀ u out, answer plan { st with mutex := mutex } u = some out →
      ∃ e ∈ (serial ι N).trace s hist, e.input.1 = u ∧ e.output = out := by
  intro u out hu
  refine hlin.answered u out ?_
  by_cases hut : u = t
  · subst hut
    refine answer_of_not_returned (fun result heq ↦ ?_) hu
    rw [hphase, Function.update_self] at heq
    exact hreturned result heq
  · exact (answer_update hut hphase) ▸ hu

/-- A task that does not hold the mutex changes its phase, without an answer. -/
theorem Linear.move (hlin : Linear P plan N s st sched hist) {p : Mutex.Phase κ θ ρ}
    (hmutex : P.Inv s (st.mutex.move t p) sched)
    (hatt : Attached plan { st with mutex := st.mutex.move t p })
    (hfresh : p.fresh = true → (st.mutex.phase t).fresh = true)
    (hreturned : ∀ result, p ≠ .returned result) :
    Linear P plan N s { st with mutex := st.mutex.move t p } sched hist where
  mutex := hmutex
  attached := hatt
  state := hlin.state
  request := hlin.request
  nodup := hlin.nodup
  fresh := hlin.fresh_update rfl hfresh
  absent := hlin.absent
  promised := hlin.promised
  answered := hlin.answered_update rfl hreturned

/-- A task takes the mutex. -/
theorem Linear.lock (hlin : Linear P plan N s st sched hist) {c : κ} {now : τ}
    (hphase : st.mutex.phase t = .waiting c) (hfree : st.mutex.holder = none)
    {mutex : Mutex.State σ κ θ α τ ρ ι}
    (hlocked : mutex = { st.mutex.move t .inside with
      holder := some ⟨t, P.ops c now, P.body c now⟩
      turns := st.mutex.turns ++ [⟨t, c, now⟩] })
    (hmutex : P.Inv s mutex sched) (hatt : Attached plan { st with mutex := mutex }) :
    Linear P plan N s { st with mutex := mutex } sched hist := by
  obtain ⟨r, f, hr, hplan⟩ := hlin.attached.waiting t c hphase
  have hholder : mutex.holder = some ⟨t, P.ops c now, P.body c now⟩ := by rw [hlocked]
  have hupdate : mutex.phase = Function.update st.mutex.phase t .inside := by rw [hlocked]; rfl
  have hstarted : started P mutex = false := by
    have hlast : mutex.turns.getLast? = some ⟨t, c, now⟩ := by
      rw [hlocked]
      exact List.getLast?_concat ..
    rw [started, hholder, hlast]
    simp
  refine ⟨hmutex, hatt, ?_, hlin.request, hlin.nodup, hlin.fresh_update hupdate ?_, ?_, ?_,
    hlin.answered_update hupdate (by simp)⟩
  · rw [settled_of_not_started hstarted, hlin.state, settled, hfree, hlocked]
    rfl
  · exact fun h ↦ absurd h (by simp [Mutex.Phase.fresh])
  · intro _ h hh
    rw [hholder] at hh
    obtain rfl := Option.some.inj hh
    exact hlin.not_mem hr (by simp [hplan]) (by rw [hphase]; rfl)
  · intro hcontra
    exact absurd (hstarted.symm.trans hcontra) (by simp)

/-- The holder returns, with all its operations done. -/
theorem Linear.finish (himpl : Implements P plan N) (hlin : Linear P plan N s st sched hist)
    {result : ρ} (hholder : st.mutex.holder = some ⟨t, [], .done result⟩)
    {mutex : Mutex.State σ κ θ α τ ρ ι}
    (hfinished : mutex = { st.mutex.move t (.returned result) with holder := none })
    (hmutex : P.Inv s mutex sched) (hatt : Attached plan { st with mutex := mutex }) :
    Linear P plan N s { st with mutex := mutex } sched hist := by
  obtain ⟨r, c, f, earlier, now, hr, hplan, hturns, hops, hiff⟩ := hlin.holder hholder
  have hfree : mutex.holder = none := by rw [hfinished]
  have hupdate : mutex.phase = Function.update st.mutex.phase t (.returned result) := by
    rw [hfinished]
    rfl
  -- A call has an operation, so the holder has done it.
  have hstarted : started P st.mutex = true := by
    obtain ⟨result', hall, -⟩ := himpl.call r c f hplan s now
    refine hiff.mpr fun hnone ↦ ?_
    rw [← hops, hnone] at hall
    exact absurd (congrArg Prod.snd hall) (by simp)
  have hlast : (P.results s sched t).getLast? = some result := by
    rcases (hlin.mutex.holds _ hholder).does with ⟨-, hlast⟩ | ⟨op, hnil, -⟩
    · exact hlast
    · exact absurd hnil (by simp)
  refine ⟨hmutex, hatt, ?_, hlin.request, hlin.nodup, hlin.fresh_update hupdate ?_, ?_, ?_, ?_⟩
  · rw [hlin.state, settled_of_holder hholder, if_pos hstarted, doAll_nil, settled, hfree,
      hfinished]
    rfl
  · exact fun h ↦ absurd h (by simp [Mutex.Phase.fresh])
  · intro _ h hh
    rw [hfree] at hh
    exact absurd hh (by simp)
  · intro _ h hh
    rw [hfree] at hh
    exact absurd hh (by simp)
  · intro u out hu
    by_cases hut : u = t
    · subst hut
      obtain ⟨e, he, htask, hpromised⟩ := hlin.promised hstarted _ hholder
      have hrequest : some e.input.2.2 = some r := by
        rw [← hlin.request e.input (Machine.input_mem_of_mem_trace _ he), htask]
        exact hr
      obtain ⟨result', hresult, hout⟩ := hpromised c f (Option.some.inj hrequest ▸ hplan)
      rw [doAll_nil, hlast, Option.some.injEq] at hresult
      refine ⟨e, he, htask, ?_⟩
      rw [answer, hr, hupdate, Function.update_self, Option.bind_some, hplan] at hu
      rw [hout, ← hresult]
      exact Option.some.inj hu
    · exact hlin.answered u out (answer_update hut hupdate ▸ hu)

/-- A task is dropped inside its section, before its operation or after its last. -/
theorem Linear.abandon (hlin : Linear P plan N s st sched hist)
    (hcut : ∀ h ∈ st.mutex.holder, h.task = t → started P st.mutex = true → h.pending = [])
    {mutex : Mutex.State σ κ θ α τ ρ ι}
    (habandoned : mutex = { st.mutex.move t .cancelled with
      holder := st.mutex.holder.filter fun h ↦ h.task ≠ t })
    (hmutex : P.Inv s mutex sched) (hatt : Attached plan { st with mutex := mutex }) :
    Linear P plan N s { st with mutex := mutex } sched hist := by
  have hupdate : mutex.phase = Function.update st.mutex.phase t .cancelled := by
    rw [habandoned]
    rfl
  have hfresh := hlin.fresh_update hupdate fun h ↦ absurd h (by simp [Mutex.Phase.fresh])
  have hanswered := hlin.answered_update hupdate (by simp)
  by_cases hkeep : ∃ h ∈ st.mutex.holder, h.task = t
  · obtain ⟨h, hh, htask⟩ := hkeep
    have hholder : mutex.holder = none := by
      rw [habandoned, Option.mem_def.mp hh]
      simp [htask]
    refine ⟨hmutex, hatt, ?_, hlin.request, hlin.nodup, hfresh, ?_, ?_, hanswered⟩
    · have hsettled : settled P mutex = st.mutex.shared := by
        rw [settled, hholder, habandoned]
        rfl
      rw [hlin.state, settled_of_holder hh, hsettled]
      by_cases hstarted : started P st.mutex = true
      · rw [if_pos hstarted, hcut h hh htask hstarted, doAll_nil]
      · rw [if_neg hstarted]
    · intro _ h hh
      rw [hholder] at hh
      exact absurd hh (by simp)
    · intro _ h hh
      rw [hholder] at hh
      exact absurd hh (by simp)
  · have hholder : st.mutex.holder.filter (fun h ↦ h.task ≠ t) = st.mutex.holder := by
      rcases hsome : st.mutex.holder with _ | h
      · rfl
      · have hne : h.task ≠ t := fun heq ↦ hkeep ⟨h, hsome, heq⟩
        simp [hne]
    rw [hholder] at habandoned
    subst habandoned
    exact ⟨hmutex, hatt, hlin.state, hlin.request, hlin.nodup, hfresh, hlin.absent, hlin.promised,
      hanswered⟩

/-- The holder looks at the shared state. -/
theorem Linear.look (hlin : Linear P plan N s st sched hist) {pending : List α}
    {next : σ → CriticalSection σ ρ} (hholder : st.mutex.holder = some ⟨t, pending, .look next⟩)
    (hmutex : P.Inv s { st.mutex with holder := some ⟨t, pending, next st.mutex.shared⟩ } sched) :
    Linear P plan N s
      { st with mutex := { st.mutex with holder := some ⟨t, pending, next st.mutex.shared⟩ } }
      sched hist := by
  have hstarted : started P { st.mutex with holder := some ⟨t, pending, next st.mutex.shared⟩ }
      = started P st.mutex := by
    rw [started, started, hholder]
    rcases st.mutex.turns.getLast? with _ | turn
    · rfl
    · rfl
  refine ⟨hmutex, hlin.attached.congr rfl hlin.attached.turn, ?_, hlin.request, hlin.nodup,
    hlin.fresh, ?_, ?_, hlin.answered⟩
  · rw [hlin.state, settled_of_holder hholder, settled_of_holder rfl, hstarted]
  · intro hidle h hh
    obtain rfl := Option.some.inj hh
    exact hlin.absent (hstarted ▸ hidle) ⟨t, pending, .look next⟩ hholder
  · intro hbegun h hh
    obtain rfl := Option.some.inj hh
    exact hlin.promised (hstarted ▸ hbegun) ⟨t, pending, .look next⟩ hholder

section NextOperation

variable {pending : List α} {rest rest' : CriticalSection σ ρ} {mutex : Mutex.State σ κ θ α τ ρ ι}

/-- The mutex once the operation is done. -/
theorem Linear.settled_next (hlin : Linear P plan N s st sched hist) {op : α}
    (hdone : mutex = { st.mutex with
      shared := (P.apply op st.mutex.shared).1
      holder := some ⟨t, pending, rest'⟩ })
    (hmutex : P.Inv s mutex (sched ++ [(t, .inl op)])) :
    settled P mutex = (P.doAll (op :: pending) (st.mutex.shared, none)).1 := by
  have hholder' : mutex.holder = some ⟨t, pending, rest'⟩ := by rw [hdone]
  have hshared' : mutex.shared = (P.apply op st.mutex.shared).1 := by rw [hdone]
  rw [settled_of_holder hholder', if_pos (started_of_op hmutex hholder'), hshared',
    hlin.doAll_next t]
  exact doAll_fst ..

/-- The holder does another operation: the history has its call already. -/
theorem Linear.op_again (hlin : Linear P plan N s st sched hist) {op : α}
    (hholder : st.mutex.holder = some ⟨t, op :: pending, rest⟩)
    (hdone : mutex = { st.mutex with
      shared := (P.apply op st.mutex.shared).1
      holder := some ⟨t, pending, rest'⟩ })
    (hmutex : P.Inv s mutex (sched ++ [(t, .inl op)])) (hbefore : started P st.mutex = true) :
    Linear P plan N s { st with mutex := mutex } (sched ++ [(t, .inl op)]) hist := by
  have hholder' : mutex.holder = some ⟨t, pending, rest'⟩ := by rw [hdone]
  have hshared' : mutex.shared = (P.apply op st.mutex.shared).1 := by rw [hdone]
  have hphase : mutex.phase = st.mutex.phase := by rw [hdone]
  refine ⟨hmutex, hlin.attached.congr hphase (by rw [hdone]; exact hlin.attached.turn), ?_,
    hlin.request, hlin.nodup, fun x hx hfresh ↦ hlin.fresh x hx (hphase ▸ hfresh),
    fun hcontra ↦ ?_, fun _ h hh ↦ ?_, fun u out hu ↦ ?_⟩
  · rw [hlin.state, settled_of_holder hholder, if_pos hbefore, hlin.settled_next hdone hmutex]
  · exact absurd ((started_of_op hmutex hholder').symm.trans hcontra) (by simp)
  · rw [hholder'] at hh
    obtain rfl := Option.some.inj hh
    obtain ⟨e, he, htask, hpromised⟩ := hlin.promised hbefore _ hholder
    refine ⟨e, he, htask, fun c f hcall ↦ ?_⟩
    rw [hshared', ← hlin.doAll_next t op pending (P.results s sched t).getLast?]
    exact hpromised c f hcall
  · exact hlin.answered u out ((answer_congr (congrFun hphase u)).symm.trans hu)

/-- The holder does its first operation: this is where its call takes effect. -/
theorem Linear.op_first (himpl : Implements P plan N) (hlin : Linear P plan N s st sched hist)
    {op : α} (hholder : st.mutex.holder = some ⟨t, op :: pending, rest⟩)
    (hdone : mutex = { st.mutex with
      shared := (P.apply op st.mutex.shared).1
      holder := some ⟨t, pending, rest'⟩ })
    (hmutex : P.Inv s mutex (sched ++ [(t, .inl op)])) (hbefore : started P st.mutex = false)
    {r : R} {c : κ} {f : ρ → ο} {now : τ} (hr : st.request t = some r) (hplan : plan r = .call c f)
    (hops : op :: pending = P.ops c now) :
    Linear P plan N s { st with mutex := mutex } (sched ++ [(t, .inl op)])
      (hist ++ [(t, now, r)]) := by
  have hinside : st.mutex.phase t = .inside := (hlin.mutex.holds _ hholder).phase
  have hholder' : mutex.holder = some ⟨t, pending, rest'⟩ := by rw [hdone]
  have hshared' : mutex.shared = (P.apply op st.mutex.shared).1 := by rw [hdone]
  have hphase : mutex.phase = st.mutex.phase := by rw [hdone]
  have hrun : (serial ι N).run s hist = st.mutex.shared := by
    rw [hlin.state, settled_of_not_started hbefore]
  obtain ⟨result, hall, hresult⟩ := himpl.call r c f hplan st.mutex.shared now
  rw [← hops] at hall
  refine ⟨hmutex, hlin.attached.congr hphase (by rw [hdone]; exact hlin.attached.turn), ?_,
    request_concat hlin hr now, nodup_concat hlin (hlin.absent hbefore _ hholder), ?_,
    fun hcontra ↦ ?_, fun _ h hh ↦ ?_, fun u out hu ↦ ?_⟩
  · rw [run_concat_serial, hrun, hlin.settled_next hdone hmutex, hall]
  · intro x hx hfresh
    rcases List.mem_append.mp hx with hx | hx
    · exact hlin.fresh x hx (hphase ▸ hfresh)
    · rw [List.mem_singleton.mp hx] at hfresh
      dsimp only at hfresh
      rw [hphase, hinside] at hfresh
      exact absurd hfresh (by simp [Mutex.Phase.fresh])
  · exact absurd ((started_of_op hmutex hholder').symm.trans hcontra) (by simp)
  · rw [hholder'] at hh
    obtain rfl := Option.some.inj hh
    obtain ⟨e, he, hinput, hout⟩ := exists_entry_concat N s hist (t, now, r)
    refine ⟨e, he, by rw [hinput], fun c' f' hcall ↦ ⟨result, ?_, ?_⟩⟩
    · rw [hshared', ← hlin.doAll_next t op pending none, hall]
    · rw [hinput, hplan] at hcall
      obtain ⟨-, rfl⟩ := Plan.call.inj hcall
      rw [hout, hrun, hresult]
  · have hu' : answer plan st u = some out := (answer_congr (congrFun hphase u)).symm.trans hu
    exact exists_entry_append (hlin.answered u out hu') _

end NextOperation

section Steps

variable [Inhabited τ]

theorem Attached.under (hlin : Linear P plan N s st sched hist) (label : Mutex.Label κ θ τ ι)
    (hinvoke : ∀ t c, label = .invoke t c →
      ∃ r answer, st.request t = some r ∧ plan r = .call c answer)
    (hask : ∀ t q, label = .ask t q →
      ∃ r answer, st.request t = some r ∧ plan r = .ask q answer) :
    Attached plan (st.under P label).1 := by
  have hatt := hlin.attached
  rw [State.under]
  rcases label with ⟨t, c⟩ | ⟨t, q⟩ | ⟨t, now⟩ | _ | t | t
  · rw [Mutex.step]
    split
    next hphase =>
      obtain ⟨r, answer, hrequest, hplan⟩ := hinvoke t c rfl
      refine hatt.move (by simp [hrequest]) (fun c' hc' ↦ ?_) (by simp)
      obtain rfl := Mutex.Phase.waiting.inj hc'
      exact ⟨r, answer, hrequest, hplan⟩
    next => exact hatt
  · rw [Mutex.step]
    split
    next hphase =>
      obtain ⟨r, answer, hrequest, hplan⟩ := hask t q rfl
      refine hatt.move (by simp [hrequest]) (by simp) (fun q' hq' ↦ ?_)
      obtain rfl := Mutex.Phase.asking.inj hq'
      exact ⟨r, answer, hrequest, hplan⟩
    next => exact hatt
  · rw [Mutex.step]
    split
    next c hphase hfree =>
      have hmove := hatt.move (p := .inside) (hatt.request_ne_none (t := t) (by simp [hphase]))
        (by simp) (by simp)
      refine hmove.congr rfl fun turn hturn ↦ ?_
      rcases List.mem_append.mp hturn with hturn | hturn
      · exact hatt.turn turn hturn
      · rw [List.mem_singleton.mp hturn]
        exact hatt.waiting t c hphase
    next => exact hatt
  · rw [Mutex.step]
    split
    next => exact hatt
    next t pending result hholder =>
      have hinside : st.mutex.phase t = .inside := (hlin.mutex.holds _ hholder).phase
      exact (hatt.move (p := .returned result) (hatt.request_ne_none (by simp [hinside])) (by simp)
        (by simp)).congr rfl hatt.turn
    next => exact hatt.congr rfl hatt.turn
    next => exact hatt.congr rfl hatt.turn
  · rw [Mutex.step]
    split
    next hphase =>
      exact hatt.move (hatt.request_ne_none (by simp [hphase])) (by simp) (by simp)
    next => exact hatt
  · rw [Mutex.step]
    split
    next hphase =>
      exact hatt.move (hatt.request_ne_none (by simp [hphase])) (by simp) (by simp)
    next hphase =>
      exact hatt.move (hatt.request_ne_none (by simp [hphase])) (by simp) (by simp)
    next hphase =>
      exact (hatt.move (p := .cancelled) (hatt.request_ne_none (by simp [hphase])) (by simp)
        (by simp)).congr rfl hatt.turn
    next => exact hatt


/-- What an operation of the holder adds to the history. -/
theorem Linear.recorded_op (hlin : Linear P plan N s st sched hist) {h : Mutex.Holder ι σ α ρ}
    (hholder : st.mutex.holder = some h) (op : α) :
    ∃ r c f now, st.request h.task = some r ∧ plan r = .call c f ∧
      Mutex.writesOf h.task sched ++ h.pending = P.ops c now ∧
      (started P st.mutex = true ↔ Mutex.writesOf h.task sched ≠ []) ∧
      st.recorded P (h.task, .inl op)
        = if started P st.mutex then [] else [(h.task, now, r)] := by
  obtain ⟨r, c, f, earlier, now, hr, hplan, hturns, hops, hiff⟩ := hlin.holder hholder
  refine ⟨r, c, f, now, hr, hplan, hops, hiff, ?_⟩
  rw [State.recorded, hturns, List.getLast?_concat]
  simp [State.entry, hr]

/-- The holder does its next operation. -/
theorem Linear.op (himpl : Implements P plan N) (hlin : Linear P plan N s st sched hist) {op : α}
    {pending : List α} {rest rest' : CriticalSection σ ρ} {mutex : Mutex.State σ κ θ α τ ρ ι}
    (hholder : st.mutex.holder = some ⟨t, op :: pending, rest⟩)
    (hdone : mutex = { st.mutex with
      shared := (P.apply op st.mutex.shared).1
      holder := some ⟨t, pending, rest'⟩ })
    (hmutex : P.Inv s mutex (sched ++ [(t, .inl op)])) :
    Linear P plan N s { st with mutex := mutex } (sched ++ [(t, .inl op)])
      (hist ++ st.recorded P (t, .inl op)) := by
  obtain ⟨r, c, f, now, hr, hplan, hops, hiff, hrecorded⟩ := hlin.recorded_op hholder op
  dsimp only at hr hops hiff hrecorded
  rw [hrecorded]
  by_cases hbefore : started P st.mutex = true
  · rw [if_pos hbefore, List.append_nil]
    exact hlin.op_again hholder hdone hmutex hbefore
  · rw [if_neg hbefore]
    have hnone : Mutex.writesOf t sched = [] := by
      by_contra hne
      exact hbefore (hiff.mpr hne)
    rw [hnone, List.nil_append] at hops
    exact Linear.op_first himpl hlin hholder hdone hmutex (by simpa using hbefore) hr hplan hops

/-- A query reads. -/
theorem Linear.select (himpl : Implements P plan N) (hlin : Linear P plan N s st sched hist)
    {q : θ} (hphase : st.mutex.phase t = .asking q) {mutex : Mutex.State σ κ θ α τ ρ ι}
    (hread : mutex = st.mutex.move t (.returned (P.query q st.mutex.shared)))
    (hmutex : P.Inv s mutex (sched ++ [(t, .inr q)]))
    (hatt : Attached plan { st with mutex := mutex }) :
    Linear P plan N s { st with mutex := mutex } (sched ++ [(t, .inr q)])
      (hist ++ st.recorded P (t, .inr q)) := by
  obtain ⟨r, f, hr, hplan⟩ := hlin.attached.asking t q hphase
  have hrecorded : st.recorded P (t, (.inr q : α ⊕ θ)) = [(t, default, r)] := by
    rw [State.recorded, State.entry, hr]
    rfl
  have hupdate : mutex.phase
      = Function.update st.mutex.phase t (.returned (P.query q st.mutex.shared)) := by
    rw [hread]
    rfl
  have hstarted : started P mutex = started P st.mutex := by
    rw [hread]
    rfl
  have habsent : t ∉ hist.map Prod.fst :=
    hlin.not_mem hr (by simp [hplan]) (by rw [hphase]; rfl)
  have hne : ∀ h ∈ st.mutex.holder, h.task ≠ t := by
    intro h hh heq
    have hinside := (hlin.mutex.holds h hh).phase
    rw [heq, hphase] at hinside
    exact absurd hinside (by simp)
  have hstep := himpl.ask r q f hplan ((serial ι N).run s hist) default
  rw [hrecorded]
  refine ⟨hmutex, hatt, ?_, request_concat hlin hr default, nodup_concat hlin habsent, ?_, ?_, ?_,
    ?_⟩
  · rw [run_concat_serial, hstep, hlin.state, hread]
    rfl
  · intro x hx hfresh
    rcases List.mem_append.mp hx with hx | hx
    · exact hlin.fresh_update hupdate (fun h ↦ absurd h (by simp [Mutex.Phase.fresh])) x hx hfresh
    · rw [List.mem_singleton.mp hx] at hfresh
      dsimp only at hfresh
      rw [hupdate, Function.update_self] at hfresh
      exact absurd hfresh (by simp [Mutex.Phase.fresh])
  · intro hidle h hh
    have hh' : h ∈ st.mutex.holder := by rw [hread] at hh; exact hh
    rw [List.map_append, List.mem_append, not_or]
    refine ⟨hlin.absent (hstarted ▸ hidle) h hh', ?_⟩
    simpa using hne h hh'
  · intro hbegun h hh
    have hh' : h ∈ st.mutex.holder := by rw [hread] at hh; exact hh
    rw [Mutex.results_concat_of_ne (hne h hh').symm]
    have hshared : mutex.shared = st.mutex.shared := by rw [hread]; rfl
    rw [hshared]
    exact exists_entry_append (hlin.promised (hstarted ▸ hbegun) h hh') _
  · intro u out hu
    by_cases hut : u = t
    · subst hut
      obtain ⟨e, he, hinput, hout⟩ := exists_entry_concat N s hist (u, default, r)
      refine ⟨e, he, by rw [hinput], ?_⟩
      rw [answer, hr, hupdate, Function.update_self, Option.bind_some, hplan] at hu
      rw [hout, hstep, hlin.state, hlin.query_settled himpl]
      exact Option.some.inj hu
    · exact exists_entry_append (hlin.answered u out (answer_update hut hupdate ▸ hu)) _

/-- A step under the mutex. -/
theorem Linear.under (himpl : Implements P plan N) (hlin : Linear P plan N s st sched hist)
    (label : Mutex.Label κ θ τ ι) (hatt : Attached plan (st.under P label).1)
    (hcut : ∀ h ∈ st.mutex.holder, (P.step st.mutex label).1.phase h.task = .cancelled →
      started P st.mutex = true → h.pending = []) :
    Linear P plan N s (st.under P label).1 (sched ++ (P.step st.mutex label).2)
      (hist ++ (st.under P label).2) := by
  have hmutex := (hlin.mutex.step himpl.sound label).1
  have hmoves := P.step_moves st.mutex label
  rw [State.under] at hatt ⊢
  dsimp only at hatt ⊢
  generalize (P.step st.mutex label).1 = mutex at hmoves hmutex hatt hcut ⊢
  generalize (P.step st.mutex label).2 = out at hmoves hmutex ⊢
  obtain _ | ⟨t, p, hold, hnew⟩ | ⟨t, c, now, hphase, hfree⟩ | ⟨t, pending, next, hh⟩ |
    ⟨t, pending, change, next, hh⟩ | ⟨t, pending, result, hh⟩ | ⟨t, q, hphase⟩ |
    ⟨t, hphase⟩ := hmoves
  · simpa using hlin
  · rw [List.flatMap_nil, List.append_nil, List.append_nil]
    rw [List.append_nil] at hmutex
    exact hlin.move hmutex hatt (fun _ ↦ hold) hnew
  · rw [List.flatMap_nil, List.append_nil, List.append_nil]
    rw [List.append_nil] at hmutex
    exact hlin.lock hphase hfree rfl hmutex hatt
  · rw [List.flatMap_nil, List.append_nil, List.append_nil]
    rw [List.append_nil] at hmutex
    exact hlin.look hh hmutex
  · obtain ⟨op, rest, hpending, hchange, hdoes⟩ := (hlin.mutex.holds _ hh).does
    obtain rfl : pending = op :: rest := hpending
    rw [← hchange] at hmutex ⊢
    exact (List.flatMap_singleton (st.recorded P) _).symm ▸ hlin.op himpl hh rfl hmutex
  · rcases (hlin.mutex.holds _ hh).does with ⟨hpending, -⟩ | ⟨op, hpending, happly⟩
    · obtain rfl : pending = [] := hpending
      rw [List.map_nil, List.flatMap_nil, List.append_nil, List.append_nil]
      rw [List.map_nil, List.append_nil] at hmutex
      exact hlin.finish himpl hh rfl hmutex hatt
    · -- The operation left over has no effect, so it may as well be done now.
      obtain rfl : pending = [op] := hpending
      have hdone := hlin.mutex.op hh (.done result) (Or.inl ⟨rfl, by rw [happly]⟩)
      have hop := hlin.op himpl hh rfl hdone
      have hsame : (P.apply op st.mutex.shared).1 = st.mutex.shared := by rw [happly]
      rw [List.map_singleton, List.flatMap_singleton]
      refine hop.finish himpl rfl ?_ hmutex hatt
      rw [hsame]
      rfl
  · rw [List.flatMap_singleton]
    exact hlin.select himpl hphase rfl hmutex hatt
  · rw [List.flatMap_nil, List.append_nil, List.append_nil]
    rw [List.append_nil] at hmutex
    refine hlin.abandon (fun h hmem htask hstarted ↦ hcut h hmem ?_ hstarted) rfl hmutex hatt
    rw [htask]
    exact Mutex.phase_move_self ..

/-! ### Requests -/

omit [Inhabited τ] in
/-- A task that starts on a request leaves those of the others alone. -/
theorem request_assign (hnone : st.request t = none) {r' : R} (hu : st.request u = some r') :
    Function.update st.request t (some r) u = some r' := by
  rw [Function.update_of_ne ?_, hu]
  rintro rfl
  exact absurd (hnone.symm.trans hu) (by simp)

omit [Inhabited τ] in
theorem answer_assign (hidle : st.mutex.phase t = .idle) (u : ι) :
    answer plan { st with request := Function.update st.request t (some r) } u
      = if u = t then (plan r).answer .idle else answer plan st u := by
  rw [answer]
  dsimp only
  by_cases hut : u = t
  · subst hut
    rw [Function.update_self, Option.bind_some, hidle, if_pos rfl]
  · rw [Function.update_of_ne hut, if_neg hut, answer]

omit [Inhabited τ] in
theorem Attached.assign (hatt : Attached plan st) (hnone : st.request t = none) :
    Attached plan { st with request := Function.update st.request t (some r) } where
  idle u hu := by
    refine hatt.idle u ?_
    dsimp only at hu
    by_cases hut : u = t
    · exact hut ▸ hnone
    · rwa [Function.update_of_ne hut] at hu
  waiting u c hu := by
    obtain ⟨r', f, hr', hplan⟩ := hatt.waiting u c hu
    exact ⟨r', f, request_assign hnone hr', hplan⟩
  asking u q hu := by
    obtain ⟨r', f, hr', hplan⟩ := hatt.asking u q hu
    exact ⟨r', f, request_assign hnone hr', hplan⟩
  turn turn hturn := by
    obtain ⟨r', f, hr', hplan⟩ := hatt.turn turn hturn
    exact ⟨r', f, request_assign hnone hr', hplan⟩

omit [Inhabited τ] in
/-- A task starts on a request that is not answered on the spot. -/
theorem Linear.assign (hlin : Linear P plan N s st sched hist) (hnone : st.request t = none)
    (hplan : ∀ out, plan r ≠ .reply out) :
    Linear P plan N s { st with request := Function.update st.request t (some r) } sched hist := by
  refine ⟨hlin.mutex, hlin.attached.assign hnone, hlin.state,
    fun x hx ↦ request_assign hnone (hlin.request x hx), hlin.nodup, hlin.fresh, hlin.absent,
    hlin.promised, fun u out hu ↦ ?_⟩
  rw [answer_assign (hlin.attached.idle t hnone)] at hu
  split_ifs at hu with hut
  · exact absurd (Plan.answer_of_not_returned (by simp) hu) (hplan out)
  · exact hlin.answered u out hu

/-- A task answers a request on the spot. -/
theorem Linear.reply (himpl : Implements P plan N) (hlin : Linear P plan N s st sched hist)
    (hnone : st.request t = none) {out : ο} (hplan : plan r = .reply out) :
    Linear P plan N s { st with request := Function.update st.request t (some r) } sched
      (hist ++ [(t, default, r)]) := by
  have hidle : st.mutex.phase t = .idle := hlin.attached.idle t hnone
  have hstep := himpl.reply r out hplan ((serial ι N).run s hist) default
  have habsent : t ∉ hist.map Prod.fst := by
    intro hmem
    obtain ⟨x, hx, rfl⟩ := List.mem_map.mp hmem
    exact absurd (hnone.symm.trans (hlin.request x hx)) (by simp)
  refine ⟨hlin.mutex, hlin.attached.assign hnone, ?_, fun x hx ↦ ?_, nodup_concat hlin habsent,
    fun x hx hfresh ↦ ?_, fun hstarted h hh ↦ ?_, fun hstarted h hh ↦ ?_, fun u out' hu ↦ ?_⟩
  · rw [run_concat_serial, hstep, hlin.state]
  · rcases List.mem_append.mp hx with hx | hx
    · exact request_assign hnone (hlin.request x hx)
    · rw [List.mem_singleton.mp hx]
      exact Function.update_self ..
  · rcases List.mem_append.mp hx with hx | hx
    · exact hlin.fresh x hx hfresh
    · rw [List.mem_singleton.mp hx]
      exact ⟨out, hplan⟩
  · rw [List.map_append, List.mem_append, not_or]
    refine ⟨hlin.absent hstarted h hh, ?_⟩
    -- The holder is inside its section.
    have hinside := (hlin.mutex.holds h hh).phase
    rw [List.map_singleton, List.mem_singleton]
    rintro rfl
    exact absurd (hidle.symm.trans hinside) (by simp)
  · exact exists_entry_append (hlin.promised hstarted h hh) _
  · rw [answer_assign hidle] at hu
    split_ifs at hu with hut
    · obtain ⟨e, he, hinput, hout⟩ := exists_entry_concat N s hist (t, default, r)
      refine ⟨e, he, by rw [hinput, hut], ?_⟩
      rw [hplan] at hu
      rw [hout, hstep]
      exact Option.some.inj hu
    · exact exists_entry_append (hlin.answered u out' hu) _

/-! ## Runs -/

theorem after_concat (past : List (Label R τ ι)) (label : Label R τ ι) :
    after P plan s (past ++ [label]) = (step P plan (after P plan s past) label).1 :=
  Machine.run_concat ..

theorem history_concat (past : List (Label R τ ι)) (label : Label R τ ι) :
    history P plan s (past ++ [label])
      = history P plan s past ++ (step P plan (after P plan s past) label).2 := by
  rw [history, Machine.trace_concat, List.flatMap_append, ← history, List.flatMap_singleton]
  rfl

/-- A history grows at its end. -/
theorem history_mono {past labels : List (Label R τ ι)} (h : past <+: labels) :
    history P plan s past <+: history P plan s labels := by
  obtain ⟨rest, rfl⟩ := h
  rw [history, history, Machine.trace_append, List.flatMap_append]
  exact List.prefix_append _ _

omit [Inhabited τ] in
/-- Only the scheduler cancels. -/
theorem cancel_of_step {st : Mutex.State σ κ θ α τ ρ ι} {label : Mutex.Label κ θ τ ι}
    (hbefore : st.phase t ≠ .cancelled) (h : (P.step st label).1.phase t = .cancelled) :
    label = .cancel t := by
  -- A phase that has changed to another one than `cancelled` is not `cancelled`.
  have hmove : ∀ u (p : Mutex.Phase κ θ ρ), p ≠ .cancelled →
      Function.update st.phase u p t ≠ .cancelled := by
    intro u p hp
    by_cases htu : t = u
    · rw [htu, Function.update_self]
      exact hp
    · rwa [Function.update_of_ne htu]
  rcases label with ⟨u, c⟩ | ⟨u, q⟩ | ⟨u, now⟩ | _ | u | u
  · rw [Mutex.step] at h
    split at h
    · exact absurd h (hmove u _ (by simp))
    · exact absurd h hbefore
  · rw [Mutex.step] at h
    split at h
    · exact absurd h (hmove u _ (by simp))
    · exact absurd h hbefore
  · rw [Mutex.step] at h
    split at h
    · exact absurd h (hmove u _ (by simp))
    · exact absurd h hbefore
  · rw [Mutex.step] at h
    split at h
    · exact absurd h hbefore
    · exact absurd h (hmove _ _ (by simp))
    · exact absurd h hbefore
    · exact absurd h hbefore
  · rw [Mutex.step] at h
    split at h
    · exact absurd h (hmove u _ (by simp))
    · exact absurd h hbefore
  · by_cases htu : t = u
    · rw [htu]
    · refine absurd ?_ hbefore
      rw [Mutex.step] at h
      split at h
      · exact (Mutex.phase_move_of_ne htu .cancelled).symm.trans h
      · exact (Mutex.phase_move_of_ne htu .cancelled).symm.trans h
      · exact (Mutex.phase_move_of_ne htu .cancelled).symm.trans h
      · exact h

/-- A label other than a cancellation, under the mutex. -/
theorem Linear.under_of_ne (himpl : Implements P plan N) (hlin : Linear P plan N s st sched hist)
    (label : Mutex.Label κ θ τ ι) (hatt : Attached plan (st.under P label).1)
    (hne : ∀ t, label ≠ .cancel t) :
    ∃ sched', Linear P plan N s (st.under P label).1 sched' (hist ++ (st.under P label).2) := by
  refine ⟨_, hlin.under himpl label hatt fun h hh hcancelled ↦ ?_⟩
  have hinside := (hlin.mutex.holds h hh).phase
  exact absurd (cancel_of_step (by simp [hinside]) hcancelled) (hne h.task)

/-- One step of the server. -/
theorem Linear.step (himpl : Implements P plan N) (hlin : Linear P plan N s st sched hist)
    (label : Label R τ ι)
    (hcut : ∀ t r, label = .cancel t → st.request t = some r → Short P plan r) :
    ∃ sched', Linear P plan N s (step P plan st label).1 sched'
      (hist ++ (Frontend.step P plan st label).2) := by
  rcases label with ⟨t, r⟩ | ⟨t, now⟩ | _ | t | t
  · rw [Frontend.step]
    rcases hnone : st.request t with _ | r'
    · dsimp only
      rcases hplan : plan r with out | ⟨c, f⟩ | ⟨q, f⟩
      · exact ⟨sched, hlin.reply himpl hnone hplan⟩
      · have hassigned := hlin.assign hnone (r := r) (by simp [hplan])
        refine hassigned.under_of_ne himpl _ (Attached.under hassigned _ ?_ (by simp)) (by simp)
        intro t' c' heq
        obtain ⟨rfl, rfl⟩ := Mutex.Label.invoke.inj heq
        exact ⟨r, f, Function.update_self .., hplan⟩
      · have hassigned := hlin.assign hnone (r := r) (by simp [hplan])
        refine hassigned.under_of_ne himpl _ (Attached.under hassigned _ (by simp) ?_) (by simp)
        intro t' q' heq
        obtain ⟨rfl, rfl⟩ := Mutex.Label.ask.inj heq
        exact ⟨r, f, Function.update_self .., hplan⟩
    · exact ⟨sched, by simpa using hlin⟩
  · exact hlin.under_of_ne himpl _ (Attached.under hlin _ (by simp) (by simp)) (by simp)
  · exact hlin.under_of_ne himpl _ (Attached.under hlin _ (by simp) (by simp)) (by simp)
  · exact hlin.under_of_ne himpl _ (Attached.under hlin _ (by simp) (by simp)) (by simp)
  · refine ⟨_, hlin.under himpl _ (Attached.under hlin _ (by simp) (by simp)) ?_⟩
    intro h hh hcancelled hstarted
    have hinside := (hlin.mutex.holds h hh).phase
    have hlabel := cancel_of_step (by simp [hinside]) hcancelled
    obtain ⟨r, c, f, earlier, now, hr, hplan, -, hops, hiff⟩ := hlin.holder hh
    have hlength := hcut t r rfl (Mutex.Label.cancel.inj hlabel ▸ hr) c f hplan now
    rw [← hops, List.length_append] at hlength
    have hpos := List.length_pos_iff.mpr (hiff.mp hstarted)
    exact List.length_eq_zero_iff.mp (by omega)

/-- A request that a task serves was received. -/
theorem received_of_request (s : σ) (labels : List (Label R τ ι)) :
    ∀ t r, (after P plan s labels).request t = some r → .receive t r ∈ labels := by
  induction labels using List.reverseRecOn with
  | nil => exact fun t r h ↦ absurd h (by simp [after, State.initial])
  | append_singleton past label ih =>
    intro t r hr
    rw [after_concat] at hr
    have hkept : ∀ {t r}, (after P plan s past).request t = some r →
        .receive t r ∈ past ++ [label] := fun h ↦ List.mem_append_left _ (ih _ _ h)
    rcases label with ⟨u, r'⟩ | ⟨u, now⟩ | _ | u | u
    · rw [step] at hr
      rcases hnone : (after P plan s past).request u with _ | r''
      · rw [hnone] at hr
        have hupdate : Function.update (after P plan s past).request u (some r') t = some r := by
          rcases hplan : plan r' with out | ⟨c, f⟩ | ⟨q, f⟩ <;> rw [hplan] at hr <;> exact hr
        by_cases htu : t = u
        · subst htu
          rw [Function.update_self, Option.some.injEq] at hupdate
          rw [hupdate]
          exact List.mem_append_right _ (List.mem_singleton_self _)
        · rw [Function.update_of_ne htu] at hupdate
          exact hkept hupdate
      · rw [hnone] at hr
        exact hkept hr
    · exact hkept hr
    · exact hkept hr
    · exact hkept hr
    · exact hkept hr

omit [DecidableEq ι] [Inhabited τ] in
theorem Uncut.mono {past labels : List (Label R τ ι)} (huncut : Uncut P plan labels)
    (h : past <+: labels) : Uncut P plan past :=
  fun t r hcancel hreceive ↦ huncut t r (h.subset hcancel) (h.subset hreceive)

theorem linear_run (himpl : Implements P plan N) (s : σ) (labels : List (Label R τ ι))
    (huncut : Uncut P plan labels) :
    ∃ sched, Linear P plan N s (after P plan s labels) sched (history P plan s labels) := by
  induction labels using List.reverseRecOn with
  | nil => exact ⟨[], linear_initial⟩
  | append_singleton past label ih =>
    obtain ⟨sched, hlin⟩ := ih (huncut.mono (List.prefix_append _ _))
    rw [after_concat, history_concat]
    refine hlin.step himpl label fun t r hlabel hr ↦ huncut t r ?_ ?_
    · exact List.mem_append_right _ (List.mem_singleton.mpr hlabel.symm)
    · exact List.mem_append_left _ (received_of_request s past t r hr)

/-- **Requests under a mutex are linearisable.** Whatever the scheduler does, the history of a run
accounts for it, at every moment of the run. -/
theorem linearises (himpl : Implements P plan N) (s : σ) (labels : List (Label R τ ι))
    (huncut : Uncut P plan labels) : Linearises P plan N s labels := by
  obtain ⟨sched, hlin⟩ := linear_run himpl s labels huncut
  exact ⟨hlin.state, hlin.answered, hlin.nodup,
    fun x hx ↦ received_of_request s labels x.1 x.2.2 (hlin.request x hx),
    fun past hpast ↦ history_mono hpast⟩

/-- When nobody holds the mutex, nothing is under way. -/
theorem Linearises.state_of_free {labels : List (Label R τ ι)}
    (h : Linearises P plan N s labels) (hfree : (after P plan s labels).mutex.holder = none) :
    (serial ι N).run s (history P plan s labels) = (after P plan s labels).mutex.shared := by
  rw [h.state, settled, hfree]

/-! ## Workers

A worker makes its tasks one after the other, and knows nothing of the scheduler but the answers it
gets. That is enough for its tasks to take effect in their order. -/

variable (P plan) in
/-- A worker starts on a task once those before it are answered. -/
structure Sequential (worker : ι → Option ℕ) (s : σ) (labels : List (Label R τ ι)) : Prop where
  inj : ∀ t u k, worker t = some k → worker u = some k → t = u
  inTurn : ∀ past t r k, past ++ [.receive t r] <+: labels → worker t = some k →
    ∀ j < k, ∃ u, worker u = some j ∧ ∃ out, answer plan (after P plan s past) u = some out

variable {worker : ι → Option ℕ} {labels : List (Label R τ ι)}

theorem Sequential.mono {past : List (Label R τ ι)} (h : Sequential P plan worker s labels)
    (hpre : past <+: labels) : Sequential P plan worker s past :=
  ⟨h.inj, fun past' t r k hpast ↦ h.inTurn past' t r k (hpast.trans hpre)⟩

/-- A task that was answered has its place. -/
theorem Linearises.mem_places (h : Linearises P plan N s labels) {k : ℕ} {out : ο}
    (ht : worker t = some k) (hout : answer plan (after P plan s labels) t = some out) :
    k ∈ places worker (history P plan s labels) := by
  obtain ⟨e, he, rfl, -⟩ := h.answered t out hout
  exact Frontend.mem_places.mpr ⟨e.input, Machine.input_mem_of_mem_trace _ he, ht⟩

/-- The tasks of a worker take effect in their order, and at most one that it has started on is
missing. -/
theorem places_of_sequential (hlin : ∀ past, past <+: labels → Linearises P plan N s past)
    (hseq : Sequential P plan worker s labels) :
    ∃ m, places worker (history P plan s labels) = List.range m ∧
      ∀ t r k, .receive t r ∈ labels → worker t = some k → k ≤ m := by
  induction labels using List.reverseRecOn with
  | nil => exact ⟨0, rfl, fun _ _ _ h ↦ absurd h List.not_mem_nil⟩
  | append_singleton past label ih =>
    have hpre : past <+: past ++ [label] := List.prefix_append _ _
    obtain ⟨m, hplaces, hstarted⟩ :=
      ih (fun past' h ↦ hlin past' (h.trans hpre)) (hseq.mono hpre)
    have hlast := hlin _ (List.prefix_refl (past ++ [label]))
    -- Whatever was started before a new task is answered, and so has its place below `m`.
    have hle : ∀ t r k, .receive t r ∈ past ++ [label] → worker t = some k → k ≤ m := by
      intro t r k hreceive ht
      rcases List.mem_append.mp hreceive with hreceive | hreceive
      · exact hstarted t r k hreceive ht
      · obtain rfl := List.mem_singleton.mp hreceive
        by_contra hgt
        obtain ⟨u, hu, out, hout⟩ :=
          hseq.inTurn past t r k (List.prefix_refl _) ht m (not_le.mp hgt)
        have hmem := (hlin past hpre).mem_places hu hout
        rw [hplaces, List.mem_range] at hmem
        exact absurd hmem (lt_irrefl m)
    have hlt : ∀ k ∈ places worker (history P plan s (past ++ [label])), k < m + 1 := by
      intro k hk
      obtain ⟨x, hx, hxk⟩ := Frontend.mem_places.mp hk
      exact Nat.lt_succ_of_le (hle x.1 x.2.2 k (hlast.received x hx) hxk)
    rcases places_extend hseq.inj (hlast.order past hpre) hlast.nodup hplaces le_rfl hlt with
      hsame | ⟨-, hnew⟩
    · exact ⟨m, hsame, hle⟩
    · exact ⟨m + 1, hnew, fun t r k hreceive ht ↦ (hle t r k hreceive ht).trans (Nat.le_succ m)⟩

end Steps

end Frontend

end Library
