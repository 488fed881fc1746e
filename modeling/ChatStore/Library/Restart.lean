import ChatStore.Library.Linearisable

/-!
# Servers that are restarted

A server may be stopped at any moment. Its tasks are gone then, with all that they know, and the
next server starts over the shared state as it was. If a call was under way, the shared state has
the first of its operations and lacks the others.

`recovers` says what a chain of such lives amounts to: one run of the machine that serves one
request at a time, in which a request whose task was never answered may be `cut`. The answers given
in all lives are answers of that run, and what was answered before a request was received comes
before it.
-/

namespace Library

variable {σ ρ κ θ α τ ι R ο : Type*}

namespace Frontend

variable {P : Mutex σ κ θ α τ ρ} {plan : R → Plan κ θ ρ ο} {N : Machine σ (τ × R) ο}

/-! ## Deeds -/

/-- What has been done about an entry: everything, or the first operations of its call. -/
inductive Deed (τ ι R : Type*)
  | whole (x : Entry τ ι R)
  | cut (x : Entry τ ι R) (n : ℕ)

def Deed.entry : Deed τ ι R → Entry τ ι R
  | .whole x | .cut x _ => x

/-- The same deed by another task. -/
def Deed.retask {ι' : Type*} (f : ι → ι') : Deed τ ι R → Deed τ ι' R
  | .whole x => .whole (f x.1, x.2)
  | .cut x n => .cut (f x.1, x.2) n

@[simp] theorem entry_retask {ι' : Type*} (f : ι → ι') (d : Deed τ ι R) :
    (d.retask f).entry = (f d.entry.1, d.entry.2) := by
  rcases d with x | ⟨x, n⟩
  · rfl
  · rfl

variable (P plan N) in
/-- The machine that does one deed at a time. Nothing is answered to a request that is cut. -/
def deeds (ι : Type*) : Machine σ (Deed τ ι R) (Option ο) where
  step s
    | .whole x => ((N.step s x.2).1, some (N.step s x.2).2)
    | .cut x n =>
      match plan x.2.2 with
      | .call c _ => ((P.doAll ((P.ops c x.2.1).take n) (s, none)).1, none)
      | _ => (s, none)

theorem step_retask {ι' : Type*} (f : ι → ι') (s : σ) (d : Deed τ ι R) :
    (deeds P plan N ι').step s (d.retask f) = (deeds P plan N ι).step s d := by
  rcases d with x | ⟨x, n⟩
  · rfl
  · rfl

/-- It does not matter which task does what. -/
theorem run_retask {ι' : Type*} (f : ι → ι') (s : σ) (log : List (Deed τ ι R)) :
    (deeds P plan N ι').run s (log.map (Deed.retask f)) = (deeds P plan N ι).run s log := by
  induction log generalizing s with
  | nil => rfl
  | cons d log ih => rw [List.map_cons, Machine.run_cons, Machine.run_cons, step_retask, ih]

/-- Whole deeds are served one at a time. -/
theorem run_whole (s : σ) (hist : List (Entry τ ι R)) :
    (deeds P plan N ι).run s (hist.map .whole) = (serial ι N).run s hist := by
  induction hist generalizing s with
  | nil => rfl
  | cons x hist ih => exact ih (N.step s x.2).1

theorem map_entry_whole (hist : List (Entry τ ι R)) :
    (hist.map .whole).map Deed.entry = hist := by
  induction hist with
  | nil => rfl
  | cons x hist ih => exact congrArg (x :: ·) ih

theorem doAll_append (ops ops' : List α) (x : σ × Option ρ) :
    P.doAll (ops ++ ops') x = P.doAll ops' (P.doAll ops x) := by
  induction ops generalizing x with
  | nil => rfl
  | cons op ops ih => rw [List.cons_append, doAll_cons, doAll_cons, ih]

variable (P plan) in
/-- The entries of whole deeds. -/
theorem exists_whole_entry {s : σ} {hist : List (Entry τ ι R)} {e : Machine.Entry σ (Entry τ ι R) ο}
    (he : e ∈ (serial ι N).trace s hist) :
    ∃ e' ∈ (deeds P plan N ι).trace s (hist.map .whole), e'.input = .whole e.input ∧
      e'.output = some e.output := by
  obtain ⟨before, later, rfl, hentry⟩ := Machine.exists_place_of_mem_trace _ he
  refine ⟨(deeds P plan N ι).entry ((serial ι N).run s before) (.whole e.input), ?_, rfl, ?_⟩
  · rw [List.map_append, Machine.trace_append, run_whole]
    exact List.mem_append_right _ List.mem_cons_self
  · rw [hentry]
    rfl

/-- Replies and queries leave the state alone. -/
theorem run_of_no_call (himpl : Implements P plan N) {later : List (Entry τ ι R)}
    (hlater : ∀ y ∈ later, ∀ c answer, plan y.2.2 ≠ .call c answer) (s : σ) :
    (serial ι N).run s later = s := by
  induction later generalizing s with
  | nil => rfl
  | cons y later ih =>
    have hy : ((serial ι N).step s y).1 = s := by
      rcases hplan : plan y.2.2 with out | ⟨c, f⟩ | ⟨q, f⟩
      · exact congrArg Prod.fst (himpl.reply y.2.2 out hplan s y.2.1)
      · exact absurd hplan (hlater y List.mem_cons_self c f)
      · exact congrArg Prod.fst (himpl.ask y.2.2 q f hplan s y.2.1)
    rw [Machine.run_cons, hy]
    exact ih (fun y' hy' ↦ hlater y' (List.mem_cons_of_mem y hy')) s

/-- They cannot tell two states apart that no query can tell apart. -/
theorem step_of_no_call (himpl : Implements P plan N) {y : Entry τ ι R}
    (hy : ∀ c answer, plan y.2.2 ≠ .call c answer) {s s' : σ}
    (hsame : ∀ q, P.query q s = P.query q s') :
    ((serial ι N).step s y).2 = ((serial ι N).step s' y).2 := by
  rcases hplan : plan y.2.2 with out | ⟨c, f⟩ | ⟨q, f⟩
  · exact (congrArg Prod.snd (himpl.reply y.2.2 out hplan s y.2.1)).trans
      (congrArg Prod.snd (himpl.reply y.2.2 out hplan s' y.2.1)).symm
  · exact absurd hplan (hy c f)
  · refine (congrArg Prod.snd (himpl.ask y.2.2 q f hplan s y.2.1)).trans ?_
    rw [hsame q]
    exact (congrArg Prod.snd (himpl.ask y.2.2 q f hplan s' y.2.1)).symm

/-! ## The call under way -/

variable (P plan N) in
/-- The holder of the mutex has done the operations `done` of its call, at the place of its entry
`x` in the history. Only replies and queries have taken effect since. -/
structure Underway (s shared : σ) (h : Mutex.Holder ι σ α ρ) (before later : List (Entry τ ι R))
    (x : Entry τ ι R) (done : List α) : Prop where
  task : x.1 = h.task
  call : ∃ c answer, plan x.2.2 = .call c answer ∧ P.ops c x.2.1 = done ++ h.pending
  begun : done ≠ []
  shared_eq : (P.doAll done ((serial ι N).run s before, none)).1 = shared
  later : ∀ y ∈ later, ∀ c answer, plan y.2.2 ≠ .call c answer

variable (P plan N) in
/-- A holder that has started has a call under way. -/
def Interruptible (s : σ) (st : State σ κ θ α τ ρ ι R) (hist : List (Entry τ ι R)) : Prop :=
  started P st.mutex = true → ∀ h ∈ st.mutex.holder, ∃ before x later done,
    hist = before ++ x :: later ∧ Underway P plan N s st.mutex.shared h before later x done

variable {s shared : σ} {st : State σ κ θ α τ ρ ι R} {h : Mutex.Holder ι σ α ρ}
  {before later hist : List (Entry τ ι R)} {x : Entry τ ι R} {done : List α}

/-- Whether the holder has started depends on what it has left of the last turn. -/
theorem started_congr {mutex mutex' : Mutex.State σ κ θ α τ ρ ι} {h h' : Mutex.Holder ι σ α ρ}
    (hholder : mutex.holder = some h) (hholder' : mutex'.holder = some h')
    (hpending : h.pending = h'.pending) (hturns : mutex.turns = mutex'.turns) :
    started P mutex = started P mutex' := by
  rw [started, started, hholder, hholder', hturns]
  rcases mutex'.turns.getLast? with _ | turn
  · rfl
  · dsimp only
    rw [hpending]

/-- Nobody is inside. -/
theorem interruptible_of_free (hfree : st.mutex.holder = none) :
    Interruptible P plan N s st hist := by
  intro _ h hh
  rw [hfree] at hh
  exact absurd hh (by simp)

/-- Replies and queries of other tasks come after. -/
theorem Interruptible.append (hint : Interruptible P plan N s st hist)
    {st' : State σ κ θ α τ ρ ι R} (hstarted : started P st'.mutex = started P st.mutex)
    (hholder : st'.mutex.holder = st.mutex.holder) (hshared : st'.mutex.shared = st.mutex.shared)
    {new : List (Entry τ ι R)} (hnew : ∀ y ∈ new, ∀ c answer, plan y.2.2 ≠ .call c answer) :
    Interruptible P plan N s st' (hist ++ new) := by
  intro hbegun h hh
  obtain ⟨before, x, later, done, rfl, hunder⟩ := hint (hstarted ▸ hbegun) h (hholder ▸ hh)
  refine ⟨before, x, later ++ new, done, by simp, hunder.task, hunder.call, hunder.begun,
    hunder.shared_eq.trans hshared.symm, fun y hy ↦ ?_⟩
  rcases List.mem_append.mp hy with hy | hy
  · exact hunder.later y hy
  · exact hnew y hy

/-- The deeds up to the cut leave what was there when the server was stopped. -/
theorem Underway.step_cut (hunder : Underway P plan N s st.mutex.shared h before later x done) :
    ((deeds P plan N ι).step ((serial ι N).run s before) (.cut x done.length)).1
      = st.mutex.shared := by
  obtain ⟨c, f, hplan, hops⟩ := hunder.call
  have htake : (P.ops c x.2.1).take done.length = done := by rw [hops, List.take_left]
  rw [deeds]
  dsimp only
  rw [hplan]
  dsimp only
  rw [htake, hunder.shared_eq]

section Steps

variable [DecidableEq ι] [Inhabited τ] {sched : List (Mutex.Action θ α ι)} {t : ι} {r : R}

/-- The holder does its next operation. -/
theorem Interruptible.op (hlin : Linear P plan N s st sched hist)
    (hint : Interruptible P plan N s st hist) {op : α} {pending : List α}
    {rest : CriticalSection σ ρ} (hholder : st.mutex.holder = some ⟨t, op :: pending, rest⟩)
    (rest' : CriticalSection σ ρ) :
    Interruptible P plan N s
      { st with mutex := { st.mutex with
          shared := (P.apply op st.mutex.shared).1
          holder := some ⟨t, pending, rest'⟩ } }
      (hist ++ st.recorded P (t, .inl op)) := by
  obtain ⟨r, c, f, now, hr, hplan, hops, hiff, hrecorded⟩ := hlin.recorded_op hholder op
  dsimp only at hr hops hiff hrecorded
  intro _ h hh
  obtain rfl := Option.some.inj hh
  rw [hrecorded]
  by_cases hbefore : started P st.mutex = true
  · obtain ⟨before, x, later, done, rfl, hunder⟩ := hint hbefore _ hholder
    obtain ⟨c', f', hplan', hdone⟩ := hunder.call
    rw [if_pos hbefore, List.append_nil]
    refine ⟨before, x, later, done ++ [op], rfl, hunder.task, ⟨c', f', hplan', ?_⟩, by simp, ?_,
      hunder.later⟩
    · rw [hdone, List.append_assoc, List.singleton_append]
    · rw [doAll_append]
      have hshared := hunder.shared_eq
      rcases hall : P.doAll done ((serial ι N).run s before, none) with ⟨s', last⟩
      rw [hall] at hshared
      obtain rfl : s' = st.mutex.shared := hshared
      rfl
  · rw [if_neg hbefore]
    have hnone : Mutex.writesOf t sched = [] := by
      by_contra hne
      exact hbefore (hiff.mpr hne)
    rw [hnone, List.nil_append] at hops
    refine ⟨hist, (t, now, r), [], [op], rfl, rfl, ⟨c, f, hplan, hops.symm⟩, by simp, ?_, by simp⟩
    rw [hlin.state, settled_of_not_started (by simpa using hbefore)]
    rfl

/-- A step under the mutex. -/
theorem Interruptible.under (hlin : Linear P plan N s st sched hist)
    (hint : Interruptible P plan N s st hist) (label : Mutex.Label κ θ τ ι) :
    Interruptible P plan N s (st.under P label).1 (hist ++ (st.under P label).2) := by
  have hmoves := P.step_moves st.mutex label
  rw [State.under]
  dsimp only
  generalize (P.step st.mutex label).1 = mutex at hmoves ⊢
  generalize (P.step st.mutex label).2 = out at hmoves ⊢
  obtain _ | ⟨t, p, hold, hnew⟩ | ⟨t, c, now, hphase, hfree⟩ | ⟨t, pending, next, hh⟩ |
    ⟨t, pending, change, next, hh⟩ | ⟨t, pending, result, hh⟩ | ⟨t, q, hphase⟩ |
    ⟨t, hphase⟩ := hmoves
  · rw [List.flatMap_nil]
    exact hint.append rfl rfl rfl (by simp)
  · rw [List.flatMap_nil]
    exact hint.append rfl rfl rfl (by simp)
  · -- The new holder has done nothing yet.
    intro hbegun
    rw [started] at hbegun
    dsimp only at hbegun
    rw [List.getLast?_concat] at hbegun
    exact absurd hbegun (by simp)
  · rw [List.flatMap_nil, List.append_nil]
    intro hbegun h hmem
    obtain rfl := Option.some.inj hmem
    have hbefore : started P st.mutex = true := by
      rw [← hbegun]
      exact started_congr hh rfl rfl rfl
    obtain ⟨before, x, later, done, hsplit, hunder⟩ := hint hbefore _ hh
    exact ⟨before, x, later, done, hsplit, hunder.task, hunder.call, hunder.begun,
      hunder.shared_eq, hunder.later⟩
  · obtain ⟨op, rest, hpending, hchange, hdoes⟩ := (hlin.mutex.holds _ hh).does
    obtain rfl : pending = op :: rest := hpending
    have hop := hint.op hlin hh (next st.mutex.shared)
    rw [hchange] at hop
    rw [List.head?_cons, Option.toList_some, List.map_singleton, List.flatMap_singleton]
    exact hop
  · exact interruptible_of_free rfl
  · obtain ⟨r, f, hr, hplan⟩ := hlin.attached.asking t q hphase
    rw [List.flatMap_singleton]
    refine hint.append rfl rfl rfl fun y hy ↦ ?_
    rw [State.recorded, State.entry, hr] at hy
    rw [List.mem_singleton.mp hy]
    simp [hplan]
  · rw [List.flatMap_nil, List.append_nil]
    intro hbegun h hmem
    have hholder := (Option.filter_eq_some_iff.mp hmem).1
    have hbefore : started P st.mutex = true := by
      rw [← hbegun]
      exact started_congr hholder hmem rfl rfl
    exact hint hbefore h hholder

/-- A step of the server. -/
theorem Interruptible.step (hlin : Linear P plan N s st sched hist)
    (hint : Interruptible P plan N s st hist) (label : Label R τ ι) :
    Interruptible P plan N s (step P plan st label).1 (hist ++ (step P plan st label).2) := by
  rcases label with ⟨t, r⟩ | ⟨t, now⟩ | _ | t | t
  · rw [Frontend.step]
    rcases hnone : st.request t with _ | r'
    · dsimp only
      rcases hplan : plan r with out | ⟨c, f⟩ | ⟨q, f⟩
      · refine hint.append rfl rfl rfl fun y hy ↦ ?_
        rw [List.mem_singleton.mp hy]
        simp [hplan]
      · have hassigned := hlin.assign hnone (r := r) (by simp [hplan])
        exact Interruptible.under hassigned (List.append_nil hist ▸ hint.append rfl rfl rfl
          (by simp)) _
      · have hassigned := hlin.assign hnone (r := r) (by simp [hplan])
        exact Interruptible.under hassigned (List.append_nil hist ▸ hint.append rfl rfl rfl
          (by simp)) _
    · dsimp only
      rw [List.append_nil]
      exact hint
  · exact hint.under hlin _
  · exact hint.under hlin _
  · exact hint.under hlin _
  · exact hint.under hlin _

variable {labels : List (Label R τ ι)}

theorem interruptible_run (himpl : Implements P plan N) (s : σ) (labels : List (Label R τ ι))
    (huncut : Uncut P plan labels) :
    ∃ sched, Linear P plan N s (after P plan s labels) sched (history P plan s labels) ∧
      Interruptible P plan N s (after P plan s labels) (history P plan s labels) := by
  induction labels using List.reverseRecOn with
  | nil => exact ⟨[], linear_initial, interruptible_of_free rfl⟩
  | append_singleton past label ih =>
    obtain ⟨sched, hlin, hint⟩ := ih (huncut.mono (List.prefix_append _ _))
    obtain ⟨sched', hlin'⟩ := linear_run himpl s (past ++ [label]) huncut
    refine ⟨sched', hlin', ?_⟩
    rw [after_concat, history_concat]
    exact hint.step hlin label

/-! ## One life -/

variable (P plan N) in
/-- What is left of a run from the state `s` when the server is stopped. -/
structure Outlives (s : σ) (labels : List (Label R τ ι)) (log : List (Deed τ ι R)) : Prop where
  state : (deeds P plan N ι).run s log = (after P plan s labels).mutex.shared
  entries : log.map Deed.entry = history P plan s labels
  request : ∀ d ∈ log, (after P plan s labels).request d.entry.1 = some d.entry.2.2
  answered : ∀ t out, answer plan (after P plan s labels) t = some out →
    ∃ e ∈ (deeds P plan N ι).trace s log, (∃ x, e.input = .whole x ∧ x.1 = t) ∧
      e.output = some out
  cut : ∀ x n, .cut x n ∈ log → ∃ c answer, plan x.2.2 = .call c answer ∧
    0 < n ∧ n < (P.ops c x.2.1).length

theorem Linear.request_of_entries
    (hlin : Linear P plan N s (after P plan s labels) sched (history P plan s labels))
    {log : List (Deed τ ι R)} (hentries : log.map Deed.entry = history P plan s labels) :
    ∀ d ∈ log, (after P plan s labels).request d.entry.1 = some d.entry.2.2 :=
  fun _ hd ↦ hlin.request _ (hentries ▸ List.mem_map_of_mem hd)

/-- Nothing is cut when nothing is left to do. -/
theorem Linear.outlives_whole (hlin : Linear P plan N s (after P plan s labels) sched
      (history P plan s labels))
    (hsettled : settled P (after P plan s labels).mutex = (after P plan s labels).mutex.shared) :
    Outlives P plan N s labels ((history P plan s labels).map .whole) where
  state := by rw [run_whole, hlin.state, hsettled]
  entries := map_entry_whole _
  request := hlin.request_of_entries (map_entry_whole _)
  answered t out ht := by
    obtain ⟨e, he, htask, hout⟩ := hlin.answered t out ht
    obtain ⟨e', he', hinput, hout'⟩ := exists_whole_entry P plan he
    exact ⟨e', he', ⟨e.input, hinput, htask⟩, by rw [hout', hout]⟩
  cut x n hmem := by
    obtain ⟨y, -, hy⟩ := List.mem_map.mp hmem
    exact absurd hy (by simp)

omit [Inhabited τ] in
/-- Whoever has an answer has it from a deed that is whole. -/
theorem Underway.answered (himpl : Implements P plan N)
    (hlin : Linear P plan N s st sched hist) (hholder : st.mutex.holder = some h)
    (hsplit : hist = before ++ x :: later)
    (hunder : Underway P plan N s st.mutex.shared h before later x done) {out : ο}
    (ht : answer plan st t = some out) :
    ∃ e ∈ (deeds P plan N ι).trace s (before.map .whole ++ .cut x done.length :: later.map .whole),
      (∃ y, e.input = .whole y ∧ y.1 = t) ∧ e.output = some out := by
  have hcut := hunder.step_cut
  have hwhole : ((serial ι N).step ((serial ι N).run s before) x).1 = settled P st.mutex := by
    rw [← hlin.state, hsplit, Machine.run_append, Machine.run_cons,
      run_of_no_call himpl hunder.later]
  obtain ⟨e, he, htask, hout⟩ := hlin.answered t out ht
  rw [hsplit, Machine.trace_append, Machine.trace_cons] at he
  rw [Machine.trace_append, Machine.trace_cons, run_whole, hcut]
  rcases List.mem_append.mp he with he | he
  · obtain ⟨e', he', hinput, hout'⟩ := exists_whole_entry P plan he
    exact ⟨e', List.mem_append_left _ he', ⟨e.input, hinput, htask⟩, by rw [hout', hout]⟩
  rcases List.mem_cons.mp he with rfl | he
  · -- The holder has no answer yet.
    obtain ⟨c, f, hplan, -⟩ := hunder.call
    obtain rfl : h.task = t := hunder.task.symm.trans htask
    have hinside := (hlin.mutex.holds _ hholder).phase
    obtain ⟨r, hrequest, hanswer⟩ := Option.bind_eq_some_iff.mp ht
    have hreply := Plan.answer_of_not_returned (by simp [hinside]) hanswer
    have hx := hlin.request x (by rw [hsplit]; simp)
    rw [hunder.task, hrequest, Option.some.injEq] at hx
    exact absurd ((hx ▸ hplan).symm.trans hreply) (by simp)
  · -- What comes after the cut is queries and replies, which do not notice it.
    obtain ⟨part, more, hlater, hentry⟩ := Machine.exists_place_of_mem_trace _ he
    have hquiet : ∀ y ∈ part, ∀ c answer, plan y.2.2 ≠ .call c answer :=
      fun y hy ↦ hunder.later y (by rw [hlater]; exact List.mem_append_left _ hy)
    rw [hwhole, run_of_no_call himpl hquiet] at hentry
    refine ⟨(deeds P plan N ι).entry st.mutex.shared (.whole e.input),
      List.mem_append_right _ (List.mem_cons_of_mem _ ?_), ⟨e.input, rfl, htask⟩, ?_⟩
    · rw [hlater, List.map_append, Machine.trace_append, run_whole,
        run_of_no_call himpl hquiet]
      exact List.mem_append_right _ List.mem_cons_self
    · have hy := hunder.later e.input (by rw [hlater]; simp)
      have hsame := step_of_no_call himpl hy fun q ↦ (hlin.query_settled himpl q).symm
      rw [← hout, hentry]
      exact congrArg some hsame

/-- The call under way when the server is stopped is cut. -/
theorem Underway.outlives (himpl : Implements P plan N)
    (hlin : Linear P plan N s (after P plan s labels) sched (history P plan s labels))
    (hholder : (after P plan s labels).mutex.holder = some h) (hpending : h.pending ≠ [])
    (hsplit : history P plan s labels = before ++ x :: later)
    (hunder : Underway P plan N s (after P plan s labels).mutex.shared h before later x done) :
    Outlives P plan N s labels
      (before.map .whole ++ .cut x done.length :: later.map .whole) := by
  have hentries : (before.map Deed.whole ++ Deed.cut x done.length :: later.map Deed.whole).map
      Deed.entry = history P plan s labels := by
    rw [List.map_append, List.map_cons, map_entry_whole, map_entry_whole, hsplit]
    rfl
  refine ⟨?_, hentries, hlin.request_of_entries hentries,
    fun t out ht ↦ hunder.answered himpl hlin hholder hsplit ht, fun y n hmem ↦ ?_⟩
  · rw [Machine.run_append, Machine.run_cons, run_whole, run_whole, hunder.step_cut,
      run_of_no_call himpl hunder.later]
  · have hy : y = x ∧ n = done.length := by simpa using hmem
    obtain ⟨rfl, rfl⟩ := hy
    obtain ⟨c, f, hplan, hops⟩ := hunder.call
    refine ⟨c, f, hplan, List.length_pos_iff.mpr hunder.begun, ?_⟩
    rw [hops, List.length_append]
    have := List.length_pos_iff.mpr hpending
    omega

/-- Every life leaves something behind. -/
theorem exists_outlives (himpl : Implements P plan N) (s : σ) (labels : List (Label R τ ι))
    (huncut : Uncut P plan labels) : ∃ log, Outlives P plan N s labels log := by
  obtain ⟨sched, hlin, hint⟩ := interruptible_run himpl s labels huncut
  rcases hholder : (after P plan s labels).mutex.holder with _ | h
  · exact ⟨_, hlin.outlives_whole (by rw [settled, hholder])⟩
  · by_cases hstarted : started P (after P plan s labels).mutex = true
    · obtain ⟨before, x, later, done, hsplit, hunder⟩ := hint hstarted h hholder
      by_cases hpending : h.pending = []
      · refine ⟨_, hlin.outlives_whole ?_⟩
        rw [settled_of_holder hholder, if_pos hstarted, hpending, doAll_nil]
      · exact ⟨_, hunder.outlives himpl hlin hholder hpending hsplit⟩
    · exact ⟨_, hlin.outlives_whole (settled_of_not_started (by simpa using hstarted))⟩

/-- What was answered before a request was received comes before it. -/
theorem Outlives.order (himpl : Implements P plan N) (huncut : Uncut P plan labels)
    {log : List (Deed τ ι R)} (hout : Outlives P plan N s labels log)
    {past : List (Label R τ ι)} (hpast : past <+: labels)
    (hanswered : (answer plan (after P plan s past) t).isSome = true) {u : ι}
    (hfresh : (after P plan s past).request u = none) {first more : List (Deed τ ι R)}
    {d : Deed τ ι R} (hlog : log = first ++ d :: more) (hu : d.entry.1 = u) :
    ∃ d' ∈ first, d'.entry.1 = t := by
  obtain ⟨sched, hlin⟩ := linear_run himpl s past (huncut.mono hpast)
  obtain ⟨out, hsome⟩ := Option.isSome_iff_exists.mp hanswered
  obtain ⟨e, he, rfl, -⟩ := hlin.answered t out hsome
  have hmem := Machine.input_mem_of_mem_trace _ he
  -- The history so far lies before the entry of the later request.
  have hpre : history P plan s past <+: first.map Deed.entry := by
    have hmono : history P plan s past <+: history P plan s labels := history_mono hpast
    have hall : history P plan s past
        <+: first.map Deed.entry ++ d.entry :: more.map Deed.entry := by
      simpa [← hout.entries, hlog] using hmono
    rcases List.prefix_or_prefix_of_prefix hall (List.prefix_append (first.map Deed.entry) _) with
      hle | ⟨extra, hextra⟩
    · exact hle
    · rcases extra with _ | ⟨y, extra⟩
      · exact ⟨[], by rw [List.append_nil] at hextra ⊢; exact hextra.symm⟩
      · rw [← hextra] at hall
        have hy : y = d.entry := by
          have := (List.prefix_append_right_inj _).mp hall
          exact (List.cons_prefix_cons.mp this).1
        have hin : d.entry ∈ history P plan s past := by rw [← hextra, hy]; simp
        exact absurd ((hu ▸ hfresh).symm.trans (hlin.request d.entry hin)) (by simp)
  obtain ⟨d', hd', hentry⟩ := List.mem_map.mp (hpre.subset hmem)
  exact ⟨d', hd', by rw [hentry]⟩

/-! ## A chain of lives -/

variable (P plan) in
/-- The shared state after a chain of lives, each started over what the last one left. -/
def survivors (s : σ) (lives : List (List (Label R τ ι))) : σ :=
  lives.foldl (fun s labels ↦ (after P plan s labels).mutex.shared) s

variable (P plan) in
/-- The server of a life, after some of its labels. -/
def serverOf (s : σ) (lives : List (List (Label R τ ι))) (i : ℕ) (labels : List (Label R τ ι)) :
    State σ κ θ α τ ρ ι R :=
  after P plan (survivors P plan s (lives.take i)) labels

variable (P plan) in
/-- The request of a task of some life. -/
def requestIn (s : σ) (lives : List (List (Label R τ ι))) (p : ℕ × ι) : Option R :=
  lives[p.1]?.bind fun labels ↦ (serverOf P plan s lives p.1 labels).request p.2

variable (P plan) in
/-- Its answer. -/
def answerIn (s : σ) (lives : List (List (Label R τ ι))) (p : ℕ × ι) : Option ο :=
  lives[p.1]?.bind fun labels ↦ answer plan (serverOf P plan s lives p.1 labels) p.2

variable (P plan) in
/-- The first task was answered before the request of the second was received. -/
def Precedes (s : σ) (lives : List (List (Label R τ ι))) (p q : ℕ × ι) : Prop :=
  p.1 < q.1 ∧ (answerIn P plan s lives p).isSome = true ∨
  p.1 = q.1 ∧ ∃ labels past, lives[p.1]? = some labels ∧ past <+: labels ∧
    (answer plan (serverOf P plan s lives p.1 past) p.2).isSome = true ∧
    (serverOf P plan s lives p.1 past).request q.2 = none

variable (P plan N) in
/-- The log accounts for a chain of lives. -/
structure Recovers (s : σ) (lives : List (List (Label R τ ι))) (log : List (Deed τ (ℕ × ι) R)) :
    Prop where
  /-- Done one at a time, the deeds end in the state that the last life left. -/
  state : (deeds P plan N (ℕ × ι)).run s log = survivors P plan s lives
  /-- Whatever was answered in any life is the answer of a deed that is whole. -/
  answered : ∀ p out, answerIn P plan s lives p = some out →
    ∃ e ∈ (deeds P plan N (ℕ × ι)).trace s log, (∃ x, e.input = .whole x ∧ x.1 = p) ∧
      e.output = some out
  /-- No task has two deeds. -/
  nodup : (log.map fun d ↦ d.entry.1).Nodup
  /-- The deeds of a life are about its history. -/
  histories : ∀ i labels, lives[i]? = some labels →
    (log.filter fun d ↦ d.entry.1.1 = i).map (fun d ↦ (d.entry.1.2, d.entry.2))
      = history P plan (survivors P plan s (lives.take i)) labels
  /-- A deed is about the request of its task. -/
  request : ∀ d ∈ log, requestIn P plan s lives d.entry.1 = some d.entry.2.2
  /-- What was answered before a request was received comes before it. -/
  order : ∀ p q, Precedes P plan s lives p q → ∀ first d more, log = first ++ d :: more →
    d.entry.1 = q → ∃ d' ∈ first, d'.entry.1 = p
  /-- Only calls of several operations are cut, after one of them at least. -/
  cut : ∀ x n, .cut x n ∈ log → ∃ c answer, plan x.2.2 = .call c answer ∧
    0 < n ∧ n < (P.ops c x.2.1).length

variable {lives : List (List (Label R τ ι))} {log : List (Deed τ (ℕ × ι) R)} {p q : ℕ × ι}

theorem survivors_concat (s : σ) (lives : List (List (Label R τ ι))) (labels : List (Label R τ ι)) :
    survivors P plan s (lives ++ [labels])
      = (after P plan (survivors P plan s lives) labels).mutex.shared := by
  rw [survivors, List.foldl_append, ← survivors]
  rfl

/-! ### One more life -/

theorem serverOf_concat_of_le (hp : p.1 ≤ lives.length) (labels past : List (Label R τ ι)) :
    serverOf P plan s (lives ++ [labels]) p.1 past = serverOf P plan s lives p.1 past := by
  rw [serverOf, List.take_append_of_le_length hp, ← serverOf]

theorem serverOf_length (lives : List (List (Label R τ ι))) (past : List (Label R τ ι)) :
    serverOf P plan s lives lives.length past = after P plan (survivors P plan s lives) past := by
  rw [serverOf, List.take_length]

theorem answerIn_concat_of_lt (hp : p.1 < lives.length) (labels : List (Label R τ ι)) :
    answerIn P plan s (lives ++ [labels]) p = answerIn P plan s lives p := by
  rw [answerIn, List.getElem?_append_left hp, answerIn]
  exact congrArg _ (funext fun past ↦ by rw [serverOf_concat_of_le hp.le])

theorem answerIn_concat_self (labels : List (Label R τ ι)) (t : ι) :
    answerIn P plan s (lives ++ [labels]) (lives.length, t)
      = answer plan (after P plan (survivors P plan s lives) labels) t := by
  rw [answerIn, List.getElem?_concat_length, Option.bind_some,
    serverOf_concat_of_le (p := (lives.length, t)) le_rfl, serverOf_length]

theorem requestIn_concat_of_lt (hp : p.1 < lives.length) (labels : List (Label R τ ι)) :
    requestIn P plan s (lives ++ [labels]) p = requestIn P plan s lives p := by
  rw [requestIn, List.getElem?_append_left hp, requestIn]
  exact congrArg _ (funext fun past ↦ by rw [serverOf_concat_of_le hp.le])

theorem requestIn_concat_self (labels : List (Label R τ ι)) (t : ι) :
    requestIn P plan s (lives ++ [labels]) (lives.length, t)
      = (after P plan (survivors P plan s lives) labels).request t := by
  rw [requestIn, List.getElem?_concat_length, Option.bind_some,
    serverOf_concat_of_le (p := (lives.length, t)) le_rfl, serverOf_length]

theorem lt_of_requestIn {r : R} (h : requestIn P plan s lives p = some r) :
    p.1 < lives.length := by
  by_contra hle
  rw [requestIn, List.getElem?_eq_none (not_lt.mp hle)] at h
  exact absurd h (by simp)

theorem lt_of_answerIn (h : (answerIn P plan s lives p).isSome = true) : p.1 < lives.length := by
  by_contra hle
  rw [answerIn, List.getElem?_eq_none (not_lt.mp hle)] at h
  exact absurd h (by simp)

theorem Precedes.of_concat {labels : List (Label R τ ι)} (hq : q.1 < lives.length)
    (h : Precedes P plan s (lives ++ [labels]) p q) : Precedes P plan s lives p q := by
  rcases h with ⟨hlt, hanswered⟩ | ⟨heq, labels', past, hlabels, hpast, hanswered, hfresh⟩
  · exact Or.inl ⟨hlt, answerIn_concat_of_lt (hlt.trans hq) labels ▸ hanswered⟩
  · have hp : p.1 < lives.length := heq ▸ hq
    rw [List.getElem?_append_left hp] at hlabels
    rw [serverOf_concat_of_le hp.le] at hanswered hfresh
    exact Or.inr ⟨heq, labels', past, hlabels, hpast, hanswered, hfresh⟩

omit [DecidableEq ι] [Inhabited τ] in
/-- An element of two lists after one another is in the first or in the second. -/
theorem split_at {γ : Type*} {l l' first more : List γ} {d : γ} (h : l ++ l' = first ++ d :: more) :
    (∃ rest, l = first ++ d :: rest) ∨ ∃ part, first = l ++ part ∧ l' = part ++ d :: more := by
  rcases List.append_eq_append_iff.mp h with ⟨part, hfirst, hl'⟩ | ⟨rest, hl, hmore⟩
  · exact Or.inr ⟨part, hfirst, hl'⟩
  · rcases rest with _ | ⟨d', rest⟩
    · exact Or.inr ⟨[], by simpa using hl.symm, hmore.symm⟩
    · obtain ⟨rfl, -⟩ := List.cons_eq_cons.mp hmore
      exact Or.inl ⟨rest, hl⟩

omit [DecidableEq ι] [Inhabited τ] in
/-- A list without repetitions has an element at one place only. -/
theorem split_unique {γ δ : Type*} {f : γ → δ} {l first rest first' rest' : List γ} {x y : γ}
    (hnodup : (l.map f).Nodup) (h : l = first ++ x :: rest) (h' : l = first' ++ y :: rest')
    (hsame : f x = f y) : first = first' ∧ x = y ∧ rest = rest' := by
  have hmap : first.map f ++ f x :: rest.map f = first'.map f ++ f x :: rest'.map f := by
    simpa [hsame] using congrArg (List.map f) (h.symm.trans h')
  rw [h, List.map_append, List.map_cons] at hnodup
  obtain ⟨-, hrest, hfirst⟩ := List.nodup_append.mp hnodup
  have hnotin : f x ∉ first.map f := fun hmem ↦ hfirst _ hmem _ List.mem_cons_self rfl
  obtain ⟨hleft, -⟩ := (List.append_cons_inj_of_notMem hnotin (List.nodup_cons.mp hrest).1).mp hmap
  have hlength : first.length = first'.length := by simpa using congrArg List.length hleft
  obtain ⟨hfirst', hcons⟩ := List.append_inj (h.symm.trans h') hlength
  obtain ⟨hx, hrest'⟩ := List.cons_eq_cons.mp hcons
  exact ⟨hfirst', hx, hrest'⟩

section Concat

variable {labels : List (Label R τ ι)} {new : List (Deed τ ι R)}

/-- A deed belongs to a life that there was. -/
theorem Recovers.lt (hrec : Recovers P plan N s lives log) {d : Deed τ (ℕ × ι) R} (hd : d ∈ log) :
    d.entry.1.1 < lives.length := lt_of_requestIn (hrec.request d hd)

theorem Recovers.answered_concat (hrec : Recovers P plan N s lives log)
    (hout : Outlives P plan N (survivors P plan s lives) labels new) {out : ο}
    (hp : answerIn P plan s (lives ++ [labels]) p = some out) :
    ∃ e ∈ (deeds P plan N (ℕ × ι)).trace s (log ++ new.map (Deed.retask (lives.length, ·))),
      (∃ x, e.input = .whole x ∧ x.1 = p) ∧ e.output = some out := by
  obtain ⟨i, t⟩ := p
  rw [Machine.trace_append, hrec.state]
  have hi : i < (lives ++ [labels]).length := lt_of_answerIn (p := (i, t)) (by rw [hp]; rfl)
  rcases Nat.lt_or_ge i lives.length with hlt | hge
  · rw [answerIn_concat_of_lt hlt] at hp
    obtain ⟨e, he, hinput, houtput⟩ := hrec.answered _ out hp
    exact ⟨e, List.mem_append_left _ he, hinput, houtput⟩
  · obtain rfl : i = lives.length := by simp at hi; omega
    rw [answerIn_concat_self] at hp
    obtain ⟨e, he, ⟨x, hinput, rfl⟩, houtput⟩ := hout.answered t out hp
    obtain ⟨part, more, rfl, hentry⟩ := Machine.exists_place_of_mem_trace _ he
    refine ⟨(deeds P plan N (ℕ × ι)).entry
      ((deeds P plan N ι).run (survivors P plan s lives) part)
      (e.input.retask (lives.length, ·)), List.mem_append_right _ ?_, ⟨(_, x.2), ?_, rfl⟩, ?_⟩
    · rw [List.map_append, List.map_cons, Machine.trace_append, run_retask]
      exact List.mem_append_right _ List.mem_cons_self
    · rw [hinput]
      rfl
    · rw [← houtput, hentry]
      exact congrArg Prod.snd (step_retask _ _ _)

theorem Recovers.nodup_concat (himpl : Implements P plan N) (hrec : Recovers P plan N s lives log)
    (huncut : Uncut P plan labels)
    (hout : Outlives P plan N (survivors P plan s lives) labels new) :
    ((log ++ new.map (Deed.retask (lives.length, ·))).map fun d ↦ d.entry.1).Nodup := by
  rw [List.map_append]
  refine List.nodup_append.mpr ⟨hrec.nodup, ?_, fun a ha b hb ↦ ?_⟩
  · have hmap : (new.map (Deed.retask (lives.length, ·))).map (fun d ↦ d.entry.1)
        = ((history P plan (survivors P plan s lives) labels).map Prod.fst).map
          (lives.length, ·) := by
      rw [← hout.entries, List.map_map, List.map_map, List.map_map]
      exact List.map_congr_left fun d _ ↦ by simp
    rw [hmap]
    exact (linearises himpl (survivors P plan s lives) labels huncut).nodup.map
      fun t u h ↦ (Prod.mk.inj h).2
  · obtain ⟨d, hd, rfl⟩ := List.mem_map.mp ha
    obtain ⟨d', hd', rfl⟩ := List.mem_map.mp hb
    obtain ⟨d'', -, rfl⟩ := List.mem_map.mp hd'
    intro heq
    have hlt := hrec.lt hd
    rw [heq, entry_retask] at hlt
    exact lt_irrefl _ hlt

/-- The deeds of the new life are its history, and those of the others stay what they are. -/
theorem Recovers.histories_concat (hrec : Recovers P plan N s lives log)
    (hout : Outlives P plan N (survivors P plan s lives) labels new) {i : ℕ}
    {past : List (Label R τ ι)} (hpast : (lives ++ [labels])[i]? = some past) :
    ((log ++ new.map (Deed.retask (lives.length, ·))).filter fun d ↦ d.entry.1.1 = i).map
        (fun d ↦ (d.entry.1.2, d.entry.2))
      = history P plan (survivors P plan s ((lives ++ [labels]).take i)) past := by
  rw [List.filter_append, List.map_append]
  rcases Nat.lt_or_ge i lives.length with hlt | hge
  · have hnone : (new.map (Deed.retask (lives.length, ·))).filter
        (fun d ↦ d.entry.1.1 = i) = [] := by
      refine List.filter_eq_nil_iff.mpr fun d hd ↦ ?_
      obtain ⟨d', -, rfl⟩ := List.mem_map.mp hd
      simpa using hlt.ne'
    rw [List.getElem?_append_left hlt] at hpast
    rw [hnone, List.map_nil, List.append_nil, hrec.histories i past hpast,
      List.take_append_of_le_length hlt.le]
  · obtain rfl : i = lives.length := by
      have hi := (List.getElem?_eq_some_iff.mp hpast).1
      simp at hi
      omega
    obtain rfl : labels = past := by simpa using hpast
    have hnone : log.filter (fun d ↦ d.entry.1.1 = lives.length) = [] :=
      List.filter_eq_nil_iff.mpr fun d hd ↦ by simpa using (hrec.lt hd).ne
    have hall : (new.map (Deed.retask (lives.length, ·))).filter
        (fun d ↦ d.entry.1.1 = lives.length) = new.map (Deed.retask (lives.length, ·)) := by
      refine List.filter_eq_self.mpr fun d hd ↦ ?_
      obtain ⟨d', -, rfl⟩ := List.mem_map.mp hd
      simp
    rw [hnone, hall, List.map_nil, List.nil_append, List.take_left, ← hout.entries, List.map_map]
    exact List.map_congr_left fun d _ ↦ by simp

/-- The deeds of earlier lives come before those of the new one, which are in order among
themselves. -/
theorem Recovers.order_concat (himpl : Implements P plan N) (hrec : Recovers P plan N s lives log)
    (huncut : Uncut P plan labels)
    (hout : Outlives P plan N (survivors P plan s lives) labels new)
    (hpq : Precedes P plan s (lives ++ [labels]) p q) {first more : List (Deed τ (ℕ × ι) R)}
    {d : Deed τ (ℕ × ι) R}
    (hsplit : log ++ new.map (Deed.retask (lives.length, ·)) = first ++ d :: more)
    (hq : d.entry.1 = q) : ∃ d' ∈ first, d'.entry.1 = p := by
  rcases split_at hsplit with ⟨rest, rfl⟩ | ⟨part, rfl, hnewsplit⟩
  · exact hrec.order p q (hpq.of_concat (hq ▸ hrec.lt (by simp))) first d rest rfl hq
  · obtain ⟨new₁, new₂, rfl, rfl, hmap⟩ := List.map_eq_append_iff.mp hnewsplit
    obtain ⟨d₀, new₃, rfl, rfl, rfl⟩ := List.map_eq_cons_iff.mp hmap
    rw [entry_retask] at hq
    rcases hpq with ⟨hlt, hanswered⟩ | ⟨heq, labels', past, hlabels, hpast, hanswered, hfresh⟩
    · -- The first task was answered in an earlier life.
      rw [← hq] at hlt
      rw [answerIn_concat_of_lt hlt] at hanswered
      obtain ⟨out, hsome⟩ := Option.isSome_iff_exists.mp hanswered
      obtain ⟨e, he, ⟨x, hinput, rfl⟩, -⟩ := hrec.answered p out hsome
      have hmem := Machine.input_mem_of_mem_trace _ he
      exact ⟨.whole x, List.mem_append_left _ (hinput ▸ hmem), rfl⟩
    · obtain ⟨i, t⟩ := p
      obtain rfl : i = lives.length := heq.trans (congrArg Prod.fst hq).symm
      obtain rfl : labels = labels' := by simpa using hlabels
      rw [serverOf_concat_of_le (p := (lives.length, t)) le_rfl, serverOf_length]
        at hanswered hfresh
      obtain ⟨d', hd', rfl⟩ := hout.order himpl huncut hpast hanswered hfresh rfl
        (congrArg Prod.snd hq)
      exact ⟨_, List.mem_append_right _ (List.mem_map_of_mem hd'), by rw [entry_retask]⟩

/-- A log gains the deeds of one more life. -/
theorem Recovers.concat (himpl : Implements P plan N) (hrec : Recovers P plan N s lives log)
    (huncut : Uncut P plan labels)
    (hout : Outlives P plan N (survivors P plan s lives) labels new) :
    Recovers P plan N s (lives ++ [labels])
      (log ++ new.map (Deed.retask (lives.length, ·))) where
  state := by rw [Machine.run_append, hrec.state, run_retask, hout.state, survivors_concat]
  answered _ _ hp := hrec.answered_concat hout hp
  nodup := hrec.nodup_concat himpl huncut hout
  histories _ _ hpast := hrec.histories_concat hout hpast
  request d hd := by
    rcases List.mem_append.mp hd with hd | hd
    · rw [requestIn_concat_of_lt (hrec.lt hd), hrec.request d hd]
    · obtain ⟨d', hd', rfl⟩ := List.mem_map.mp hd
      rw [entry_retask, requestIn_concat_self, hout.request d' hd']
  order _ _ hpq _ _ _ hsplit hq := hrec.order_concat himpl huncut hout hpq hsplit hq
  cut x n hcut := by
    rcases List.mem_append.mp hcut with hcut | hcut
    · exact hrec.cut x n hcut
    · obtain ⟨d', hd', heq⟩ := List.mem_map.mp hcut
      rcases d' with y | ⟨y, m⟩
      · exact absurd heq (by simp [Deed.retask])
      · obtain ⟨rfl, rfl⟩ := Deed.cut.inj heq
        exact hout.cut y m hd'

end Concat

/-- **Servers that are restarted recover.** However often the server is stopped, and wherever, one
run of deeds accounts for all its lives. -/
theorem recovers (himpl : Implements P plan N) (s : σ) (lives : List (List (Label R τ ι)))
    (huncut : ∀ labels ∈ lives, Uncut P plan labels) : ∃ log, Recovers P plan N s lives log := by
  induction lives using List.reverseRecOn with
  | nil =>
    refine ⟨[], rfl, fun p out hp ↦ ?_, List.nodup_nil, fun i labels h ↦ absurd h (by simp),
      fun d hd ↦ absurd hd List.not_mem_nil,
      fun p q _ first d more hsplit ↦ absurd hsplit (by simp), fun x n h ↦ absurd h (by simp)⟩
    exact absurd (lt_of_answerIn (by rw [hp]; rfl)) (Nat.not_lt_zero _)
  | append_singleton lives labels ih =>
    obtain ⟨log, hrec⟩ := ih fun past hpast ↦ huncut past (List.mem_append_left _ hpast)
    have hlast := huncut labels (List.mem_append_right _ (List.mem_singleton_self _))
    obtain ⟨new, hout⟩ := exists_outlives himpl (survivors P plan s lives) labels hlast
    exact ⟨_, hrec.concat himpl hlast hout⟩

end Steps

end Frontend

end Library
