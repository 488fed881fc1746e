import ChatStore.Views

/-!
# Refused submissions leave no trace

A submission that does not end in success leaves all three tables as they were, and so does a log
that is submitted again as it stands. `refusals_leave_no_trace` draws the conclusion for runs: they
can be deleted without any other step noticing.
-/

namespace ChatStore

open Library Store

variable (C : Crates)

/-- The writes that come with a verdict. -/
def Request.isSubmission : Request → Bool
  | .submitKeyPackage _ | .submitAccount _ | .submitAccountLog _ _ | .ingestKeypackage _
  | .ingestAccount _ => true
  | .fetchKeyPackage _ | .fetchAccount _ | .fetchAccountLog _ | .pruneKeyPackages _ _
  | .pruneAccounts _ => false

/-- The event is a submission that does not end in success. -/
def refused (s : Tables) (e : Event) : Bool :=
  e.request.isSubmission && !(serve C s e).2.accepted

/-- The event submits the account log on file. -/
def resubmitted (s : Tables) (e : Event) : Bool :=
  match e.request.effect C with
  | .accountLog addr signed =>
    match C.log.newRecord addr signed with
    | .error _ => false
    | .ok candidate =>
      match (putAccountLog e.now candidate s).2 with
      | .ok (.unchanged .identical) => true
      | _ => false
  | _ => false

variable {C} {s : Tables} {now : SystemTime}

/-- An effect that is not accepted is a prune or does nothing. -/
theorem run_of_not_accepted {effect : Effect C} (h : effect.accepts C now s = false) :
    effect.run C now s = s ∨
      (∃ maxPerIdentity retention, effect = .pruneKeyPackages maxPerIdentity retention) ∨
      ∃ retention, effect = .pruneAccounts retention := by
  cases effect with
  | nothing => exact Or.inl rfl
  | keypackage b =>
    refine Or.inl ?_
    rw [Effect.run]
    cases hauth : b.authentic C with
    | false =>
      obtain ⟨msg, happly⟩ := applyKeypackage_of_not_authentic now s hauth
      rw [happly]
    | true =>
      by_cases htaken : StampTaken now (b.keyHex C) s
      · rw [applyKeypackage_of_authentic now s hauth, insert_of_stampTaken htaken]
      · have hok := applyKeypackage_eq_ok_iff.mpr ⟨hauth, htaken⟩
        rw [Effect.accepts, hok] at h
        cases h
  | account b =>
    refine Or.inl ?_
    rw [Effect.run]
    cases hvalid : b.validLamport C with
    | none =>
      obtain ⟨msg, happly⟩ := applyAccount_of_validLamport_none now s hvalid
      rw [happly]
    | some lamport =>
      rw [applyAccount_of_validLamport now s hvalid]
      rw [Effect.accepts, applyAccount_of_validLamport now s hvalid] at h
      cases hstale : isStale lamport (accountRow (b.keyHex C) s) with
      | true => rw [upsertAccount, if_pos hstale]
      | false =>
        rw [hstale] at h
        cases h
  | accountLog addr signed =>
    refine Or.inl ?_
    rw [Effect.run, applyAccountLog_fst]
    rw [Effect.accepts, applyAccountLog] at h
    cases hnew : C.log.newRecord addr signed with
    | error err => rfl
    | ok candidate =>
      obtain ⟨err, -, hput⟩ | ⟨update, -, -, hput⟩ | ⟨update, -, -, hput⟩ :=
        putAccountLog_cases now candidate s
      · simp only [hput]
      · simp only [hput]
      · -- A stored log is acknowledged.
        simp only [hnew, hput] at h
        cases h
  | pruneKeyPackages maxPerIdentity retention =>
    exact Or.inr (Or.inl ⟨maxPerIdentity, retention, rfl⟩)
  | pruneAccounts retention => exact Or.inr (Or.inr ⟨retention, rfl⟩)

theorem serve_of_refused {e : Event} (h : refused C s e = true) : (serve C s e).1 = s := by
  rw [refused, Bool.and_eq_true, Bool.not_eq_true', accepted_serve] at h
  obtain ⟨hsubmission, hrefused⟩ := h
  rw [serve_fst]
  obtain hrun | ⟨maxPerIdentity, retention, heffect⟩ | ⟨retention, heffect⟩ :=
    run_of_not_accepted hrefused
  · exact hrun
  · rw [request_of_pruneKeyPackages heffect] at hsubmission
    cases hsubmission
  · rw [request_of_pruneAccounts heffect] at hsubmission
    cases hsubmission

theorem serve_of_resubmitted {e : Event} (h : resubmitted C s e = true) : (serve C s e).1 = s := by
  rw [resubmitted] at h
  rw [serve_fst]
  cases heffect : e.request.effect C with
  | accountLog addr signed =>
    rw [Effect.run, applyAccountLog_fst]
    cases hnew : C.log.newRecord addr signed with
    | error err => rfl
    | ok candidate =>
      simp only [heffect, hnew] at h
      obtain ⟨err, -, hput⟩ | ⟨update, -, -, hput⟩ | ⟨update, -, -, hput⟩ :=
        putAccountLog_cases e.now candidate s
      · simp only [hput]
      · simp only [hput]
      · simp only [hput] at h
        exact absurd h (by simp)
  | nothing | keypackage _ | account _ | pruneKeyPackages _ _ | pruneAccounts _ =>
    rw [heffect] at h
    exact absurd h (by simp)

/-- **Refused submissions leave no trace.** Delete from a run every submission that did not end in
success and every resubmission of the log on file. The steps that remain find the same tables,
leave the same tables and have the same answers, and so does the run. -/
theorem refusals_leave_no_trace (s : Tables) (events : List Event) :
    (service C).trace s
        ((service C).dropInert (fun s e ↦ refused C s e || resubmitted C s e) s events)
      = ((service C).trace s events).filter
          (fun e ↦ !(refused C e.before e.input || resubmitted C e.before e.input)) ∧
    (service C).run s
        ((service C).dropInert (fun s e ↦ refused C s e || resubmitted C s e) s events)
      = (service C).run s events := by
  have hinert : ∀ s e, (refused C s e || resubmitted C s e) = true →
      ((service C).step s e).1 = s := by
    intro s e h
    rcases Bool.or_eq_true_iff.mp h with h | h
    · exact serve_of_refused h
    · exact serve_of_resubmitted h
  exact ⟨(service C).trace_dropInert hinert s events, (service C).run_dropInert hinert s events⟩

end ChatStore
