import ChatStore.PruneTask
import ChatStore.Timelines

/-!
# The schedule of the prunes

The prune task runs at an interval, is stopped by every restart, and can be stopped between its two
statements. None of this matters once a prune has run to its end. `only_last_prune_counts` says that
the database is then what it would be had no other prune run before, and that no client can tell the
two apart, then or later. It asks of the earlier prunes only that they were no stricter, which holds
as long as the settings stay and the clock is not set back.

Between two prunes the schedule can be seen in one place. A read of a device whose latest bundle has
expired finds nothing once a prune has come by, and finds the bundle before. Nothing else depends on
whether and when prunes run (`prunes_unobservable`), in particular no verdict on a submission. That
needs a clock that is not set back: a second submission in a millisecond is refused because of the
row of the first one, and a prune with a later clock could have removed that row.
-/

namespace ChatStore

open Library Store

/-! ## Prunes -/

/-- The step prunes keypackages, wholly or in part. -/
def Step.prunesKeyPackages (step : Step) : Bool :=
  match step.input.request with
  | .pruneKeyPackages _ _ => true
  | _ => false

/-- The step drops no keypackage that a prune with this cutoff and cap would keep. -/
def Step.Within (cutoff cap : ℤ) : Step → Prop
  | .event ⟨now, .pruneKeyPackages maxPerIdentity retention⟩ =>
    cutoffMs now retention ≤ cutoff ∧ cap ≤ asI64 maxPerIdentity
  | .interrupted ⟨now, .pruneKeyPackages _ retention⟩ => cutoffMs now retention ≤ cutoff
  | _ => True

/-- The steps that do not prune keypackages. -/
def unpruned (steps : List Step) : List Step := steps.filter fun step ↦ !step.prunesKeyPackages

variable {C : Crates} {deviceId : String} {s s' : Tables}

/-- A step that does not prune adds at most. -/
theorem isPut_change {step : Step} {x : Timeline.Change ℤ StoredKeyPackageBundle}
    (h : step.change C deviceId = some x) : x.isPut = !step.prunesKeyPackages := by
  rcases step with ⟨now, request⟩ | ⟨now, request⟩
  · rw [Step.change] at h
    rcases heffect : request.effect C with _ | b | b | ⟨addr, signed⟩ | ⟨cap, retention⟩ | retention
    case pruneKeyPackages =>
      obtain rfl := request_of_pruneKeyPackages heffect
      obtain rfl := Option.some.inj h
      rfl
    case keypackage =>
      rw [heffect, Effect.change] at h
      split_ifs at h
      obtain rfl := Option.some.inj h
      rcases request
      case pruneKeyPackages => exact absurd heffect (by simp [Request.effect])
      all_goals rfl
    all_goals
      rw [heffect] at h
      exact absurd h (by simp [Effect.change])
  · rcases request
    case pruneKeyPackages =>
      obtain rfl := Option.some.inj h
      rfl
    all_goals exact absurd h (by simp [Step.change])

/-- Leaving out the prunes leaves out their changes. -/
theorem filterMap_unpruned (steps : List Step) :
    (unpruned steps).filterMap (Step.change C deviceId)
      = (steps.filterMap (Step.change C deviceId)).filter Timeline.Change.isPut := by
  rw [unpruned, List.filterMap_filter, List.filter_filterMap]
  refine List.filterMap_congr fun step _ ↦ ?_
  rcases hchange : step.change C deviceId with _ | x
  · simp
  · rw [← isPut_change hchange, Option.filter_some]

theorem within_change {step : Step} {x : Timeline.Change ℤ StoredKeyPackageBundle} {cutoff cap : ℤ}
    (h : step.Within cutoff cap) (hchange : step.change C deviceId = some x) :
    x.Within cutoff cap.toNat := by
  rcases step with ⟨now, request⟩ | ⟨now, request⟩
  · rw [Step.change] at hchange
    rcases heffect : request.effect C with _ | b | b | ⟨addr, signed⟩ | ⟨cap', retention⟩ |
      retention
    case pruneKeyPackages =>
      obtain rfl := request_of_pruneKeyPackages heffect
      obtain rfl := Option.some.inj hchange
      exact ⟨h.1, Int.toNat_le_toNat h.2⟩
    case keypackage =>
      rw [heffect, Effect.change] at hchange
      split_ifs at hchange
      obtain rfl := Option.some.inj hchange
      trivial
    all_goals
      rw [heffect] at hchange
      exact absurd hchange (by simp [Effect.change])
  · rcases request
    case pruneKeyPackages =>
      obtain rfl := Option.some.inj hchange
      exact h
    all_goals exact absurd hchange (by simp [Step.change])

/-! ## The account tables -/

/-- The tables that hold accounts. -/
def accountTables (s : Tables) :
    Table AccountBundleRow AccountBundleRow.accountPub ×
      Table AccountLogRow AccountLogRow.accountPub :=
  (s.accountBundles, s.accountLogs)

/-- What an effect does to the account tables depends on them only. -/
theorem accountTables_effect (now : SystemTime) (effect : Effect C)
    (h : accountTables s = accountTables s') :
    accountTables (effect.run C now s) = accountTables (effect.run C now s') := by
  obtain ⟨keypackages, accountBundles, accountLogs⟩ := s
  obtain ⟨keypackages', accountBundles', accountLogs'⟩ := s'
  obtain ⟨rfl, rfl⟩ := Prod.mk.inj h
  rcases effect with _ | b | b | ⟨addr, signed⟩ | ⟨cap, retention⟩ | retention
  · rfl
  · rw [accountTables, accountTables, Effect.run, (applyKeypackage_frame now b _).1,
      (applyKeypackage_frame now b _).2, Effect.run, (applyKeypackage_frame now b _).1,
      (applyKeypackage_frame now b _).2]
  · rw [Effect.run, Effect.run]
    rcases hvalid : b.validLamport C with _ | lamport
    · obtain ⟨msg, happly⟩ := applyAccount_of_validLamport_none now
        (⟨keypackages, accountBundles, accountLogs⟩ : Tables) hvalid
      obtain ⟨msg', happly'⟩ := applyAccount_of_validLamport_none now
        (⟨keypackages', accountBundles, accountLogs⟩ : Tables) hvalid
      rw [happly, happly']
      rfl
    · rw [applyAccount_of_validLamport now _ hvalid, applyAccount_of_validLamport now _ hvalid]
      dsimp only
      have hrow : accountRow (b.keyHex C) ⟨keypackages, accountBundles, accountLogs⟩
          = accountRow (b.keyHex C) ⟨keypackages', accountBundles, accountLogs⟩ := rfl
      rw [upsertAccount, upsertAccount, hrow]
      split_ifs
      · rfl
      · rfl
  · rw [Effect.run, Effect.run, applyAccountLog_fst, applyAccountLog_fst]
    rcases C.log.newRecord addr signed with err | candidate
    · rfl
    · dsimp only
      have hrow : logRow (recordKey candidate) ⟨keypackages, accountBundles, accountLogs⟩
          = logRow (recordKey candidate) ⟨keypackages', accountBundles, accountLogs⟩ := rfl
      rw [putAccountLog, putAccountLog, hrow]
      rcases logUpdate candidate (logRow (recordKey candidate)
        ⟨keypackages', accountBundles, accountLogs⟩) with err | update
      · rfl
      · dsimp only
        split_ifs
        · rfl
        · rfl
  · rfl
  · rfl

theorem accountTables_step (step : Step) (h : accountTables s = accountTables s') :
    accountTables ((durable C).step s step).1 = accountTables ((durable C).step s' step).1 := by
  rcases step with e | ⟨now, request⟩
  · change accountTables (serve C s e).1 = accountTables (serve C s' e).1
    rw [serve_fst, serve_fst]
    exact accountTables_effect e.now _ h
  · rcases request
    all_goals exact h

/-- A prune of keypackages does not touch the account tables. -/
theorem accountTables_prune {step : Step} (h : step.prunesKeyPackages = true) (s : Tables) :
    accountTables ((durable C).step s step).1 = accountTables s := by
  rcases step with ⟨now, request⟩ | ⟨now, request⟩
  · rcases request
    case pruneKeyPackages => rfl
    all_goals exact absurd h (by simp [Step.prunesKeyPackages, Step.input])
  · rcases request
    all_goals rfl

theorem accountTables_unpruned (steps : List Step) (h : accountTables s = accountTables s') :
    accountTables ((durable C).run s steps)
      = accountTables ((durable C).run s' (unpruned steps)) := by
  induction steps generalizing s s' with
  | nil => exact h
  | cons step steps ih =>
    rw [Machine.run_cons, unpruned]
    by_cases hprune : step.prunesKeyPackages = true
    · rw [List.filter_cons_of_neg (by simp [hprune])]
      exact ih ((accountTables_prune hprune s).trans h)
    · rw [List.filter_cons_of_pos (by simp [hprune]), Machine.run_cons]
      exact ih (accountTables_step step h)

/-! ## What clients can see of the tables -/

/-- The tables up to the order of rows. -/
def contents (s : Tables) :
    (String → Timeline ℤ StoredKeyPackageBundle) ×
      Table AccountBundleRow AccountBundleRow.accountPub ×
        Table AccountLogRow AccountLogRow.accountPub :=
  (fun deviceId ↦ timeline deviceId s, accountTables s)

theorem contents_eq_iff : contents s = contents s' ↔
    (∀ deviceId, timeline deviceId s = timeline deviceId s') ∧
      accountTables s = accountTables s' := by
  rw [contents, contents, Prod.mk.injEq, funext_iff]

/-- Whether a keypackage is accepted is a matter of its millisecond. -/
theorem applyKeypackage_verdict_of_taken {now : SystemTime} {b : Bundle}
    (h : StampTaken now (b.keyHex C) s ↔ StampTaken now (b.keyHex C) s') :
    (applyKeypackage C now b s).2 = (applyKeypackage C now b s').2 := by
  rcases hauth : b.authentic C
  · rw [applyKeypackage, applyKeypackage]
    obtain ⟨msg, hverify⟩ := verify_of_not_authentic (C := C) hauth
    rw [hverify]
  · rw [applyKeypackage_of_authentic now s hauth, applyKeypackage_of_authentic now s' hauth]
    by_cases htaken : StampTaken now (b.keyHex C) s
    · rw [insert_of_stampTaken htaken, insert_of_stampTaken (h.mp htaken)]
    · obtain ⟨t, -, hins⟩ := insert_of_not_stampTaken (A := C.log) ⟨b.payload, b.signature⟩ htaken
      obtain ⟨t', -, hins'⟩ := insert_of_not_stampTaken (A := C.log) ⟨b.payload, b.signature⟩
        fun htaken' ↦ htaken (h.mpr htaken')
      rw [hins, hins']

/-- The verdict on anything but a keypackage is a matter of the account tables. -/
theorem verdict_congr_of_accountTables {now : SystemTime} {effect : Effect C}
    (h : accountTables s = accountTables s')
    (hkeypackage : ∀ b, effect = .keypackage b →
      (StampTaken now (b.keyHex C) s ↔ StampTaken now (b.keyHex C) s')) :
    effect.verdict C now s = effect.verdict C now s' := by
  obtain ⟨hbundles, hlogs⟩ := Prod.mk.inj h
  rcases effect with _ | b | b | ⟨addr, signed⟩ | ⟨cap, retention⟩ | retention
  · rfl
  · exact applyKeypackage_verdict_of_taken (hkeypackage b rfl)
  · exact applyAccount_verdict_congr (by rw [accountRow, accountRow, hbundles])
  · exact applyAccountLog_verdict_congr fun candidate _ ↦ by rw [logRow, logRow, hlogs]
  · rfl
  · rfl

/-- Every answer but that about a device is a matter of the account tables and of the milliseconds
that are taken. -/
theorem serve_snd_of_accountTables {e : Event} (h : accountTables s = accountTables s')
    (hread : ∀ deviceId, e.request = .fetchKeyPackage deviceId →
      latest deviceId s = latest deviceId s')
    (hkeypackage : ∀ b, e.request.effect C = .keypackage b →
      (StampTaken e.now (b.keyHex C) s ↔ StampTaken e.now (b.keyHex C) s')) :
    (serve C s e).2 = (serve C s' e).2 := by
  by_cases hwrite : e.request.isWrite = true
  · exact serve_snd_congr hwrite (verdict_congr_of_accountTables h hkeypackage)
  · obtain ⟨hbundles, hlogs⟩ := Prod.mk.inj h
    obtain ⟨now, request⟩ := e
    rcases request with req | deviceId | req | accountPub | ⟨accountAddr, body⟩ | accountAddr |
      bytes | bytes | ⟨maxPerIdentity, retention⟩ | retention
    case fetchKeyPackage =>
      rw [serve, serve]
      dsimp only
      rw [fetchKeyPackage, fetchKeyPackage, hread deviceId rfl]
    case fetchAccount =>
      rw [serve, serve]
      dsimp only
      rw [fetchAccount, fetchAccount, getAccount, getAccount, accountRow, accountRow, hbundles]
    case fetchAccountLog =>
      rw [serve, serve]
      dsimp only
      rw [fetchAccountLog, fetchAccountLog]
      simp only [getAccountLog, logRow, hlogs]
    all_goals exact absurd rfl hwrite

/-- The contents of the tables are all that steps and answers depend on. -/
theorem contents_unwinding : (durable C).Unwinding contents fun _ ↦ true where
  irrelevant _ _ h := absurd h (by simp)
  consistent s s' step _ h := by
    obtain ⟨htimelines, haccounts⟩ := contents_eq_iff.mp h
    refine contents_eq_iff.mpr ⟨fun deviceId ↦ ?_, accountTables_step step haccounts⟩
    rw [timeline_step, timeline_step, htimelines]
  answer s s' step _ h := by
    obtain ⟨htimelines, haccounts⟩ := contents_eq_iff.mp h
    rcases step with e | ⟨now, request⟩
    · refine congrArg some (serve_snd_of_accountTables haccounts (fun deviceId _ ↦ ?_) fun b _ ↦ ?_)
      · rw [latest_eq, latest_eq, htimelines]
      · rw [stampTaken_iff_isSome, stampTaken_iff_isSome, htimelines]
    · rcases request
      all_goals rfl

/-! ## Only the last prune counts -/

/-- Two databases hold the same rows, and no continuation tells them apart. -/
structure Indistinguishable (C : Crates) (s s' : Tables) : Prop where
  keypackages : s.keypackages.rows.Perm s'.keypackages.rows
  accountBundles : s.accountBundles = s'.accountBundles
  accountLogs : s.accountLogs = s'.accountLogs
  /-- Every sequence of steps is answered alike. -/
  answers : ∀ later : List Step,
    ((durable C).trace s later).map Machine.Entry.output
      = ((durable C).trace s' later).map Machine.Entry.output

theorem indistinguishable_of_contents (h : contents s = contents s') :
    Indistinguishable C s s' := by
  obtain ⟨htimelines, haccounts⟩ := contents_eq_iff.mp h
  obtain ⟨hbundles, hlogs⟩ := Prod.mk.inj haccounts
  refine ⟨rows_perm_of_timeline htimelines, hbundles, hlogs, fun later ↦ ?_⟩
  have hanswers := contents_unwinding (C := C).answers h (rfl : later.filter (fun _ ↦ true) = _)
  have houtputs := congrArg (List.map Prod.snd) hanswers
  simpa [Machine.answers, Function.comp_def] using houtputs

/-- **Only the last prune counts.** After a prune of keypackages it makes no difference how many
prunes ran before, whether they were interrupted, and when they ran, as long as none was
stricter. -/
theorem only_last_prune_counts (s : Tables) (steps : List Step) (now : SystemTime)
    (maxPerIdentity : UInt64) (retention : Duration)
    (h : ∀ step ∈ steps, step.Within (cutoffMs now retention) (asI64 maxPerIdentity)) :
    Indistinguishable C
      ((durable C).run s (steps ++ [.event ⟨now, .pruneKeyPackages maxPerIdentity retention⟩]))
      ((durable C).run s
        (unpruned steps ++ [.event ⟨now, .pruneKeyPackages maxPerIdentity retention⟩])) := by
  refine indistinguishable_of_contents (contents_eq_iff.mpr ⟨fun deviceId ↦ ?_, ?_⟩)
  · rw [timeline_run, timeline_run, List.filterMap_append, List.filterMap_append,
      List.foldl_append, List.foldl_append, filterMap_unpruned]
    exact Timeline.trim_foldl fun x hx ↦ by
      obtain ⟨step, hstep, hchange⟩ := List.mem_filterMap.mp hx
      exact within_change (h step hstep) hchange
  · rw [Machine.run_concat, Machine.run_concat]
    exact accountTables_step _ (accountTables_unpruned steps rfl)

namespace Reference

/-- Two keypackages of a device, with a prune in between and an interrupted one after them. -/
def publishAmidPrunes : List Step :=
  [.event ⟨1000000, deliverKeyPackage keyPackageA⟩, .event ⟨2000000, .pruneKeyPackages 2 ⟨0, 0⟩⟩,
    .event ⟨3000000, deliverKeyPackage keyPackageB⟩,
    .interrupted ⟨3000000, .pruneKeyPackages 1 ⟨0, 0⟩⟩]

theorem only_last_prune_counts_publishAmidPrunes : Indistinguishable crates
    ((durable crates).run Tables.empty
      (publishAmidPrunes ++ [.event ⟨4000000, .pruneKeyPackages 1 ⟨0, 1000000⟩⟩]))
    ((durable crates).run Tables.empty
      (unpruned publishAmidPrunes ++ [.event ⟨4000000, .pruneKeyPackages 1 ⟨0, 1000000⟩⟩])) := by
  refine only_last_prune_counts Tables.empty publishAmidPrunes 4000000 1 ⟨0, 1000000⟩ fun x hx ↦ ?_
  simp only [publishAmidPrunes, List.mem_cons, List.not_mem_nil, or_false] at hx
  rcases hx with rfl | rfl | rfl | rfl
  · trivial
  · exact ⟨by decide, by decide⟩
  · trivial
  · exact (by decide : cutoffMs 3000000 ⟨0, 0⟩ ≤ cutoffMs 4000000 ⟨0, 1000000⟩)

end Reference

/-! ## Between two prunes -/

/-- The clock is not set back, and every cap leaves a row. -/
structure Orderly (steps : List Step) : Prop where
  clock : (steps.map fun step ↦ stamp step.input.now).Pairwise (· ≤ ·)
  range : ∀ step ∈ steps, 0 ≤ stamp step.input.now
  cap : ∀ now maxPerIdentity retention,
    .event ⟨now, .pruneKeyPackages maxPerIdentity retention⟩ ∈ steps → 1 ≤ asI64 maxPerIdentity

/-- The prunes among the steps have dropped what was received at this time. -/
def expired (steps : List Step) (receivedAt : ℤ) : Bool :=
  steps.any fun step ↦ match step.input.request with
    | .pruneKeyPackages _ retention => receivedAt < cutoffMs step.input.now retention
    | _ => false

variable (C) in
/-- The answer to a step, but for a keypackage that has expired. -/
def answerBut (past : List Step) (s : Tables) (step : Step) : Option (Response C) :=
  match step with
  | .event ⟨now, .fetchKeyPackage deviceId⟩ =>
    if (newestRow deviceId s).any fun r ↦ expired past r.receivedAt then
      some (.keyPackage (.error (.notFound "no keypackage for device")))
    else ((durable C).step s (.event ⟨now, .fetchKeyPackage deviceId⟩)).2
  | step => ((durable C).step s step).2

variable {steps : List Step} {step : Step}

theorem Orderly.mono {steps' : List Step} (h : Orderly steps) (hsub : steps'.Sublist steps) :
    Orderly steps' :=
  ⟨h.clock.sublist (hsub.map _), fun y hy ↦ h.range y (hsub.subset hy),
    fun now cap retention hmem ↦ h.cap now cap retention (hsub.subset hmem)⟩

theorem Orderly.stamp_le (h : Orderly (steps ++ [step])) {y : Step} (hy : y ∈ steps) :
    stamp y.input.now ≤ stamp step.input.now := by
  have hclock := h.clock
  rw [List.map_append, List.pairwise_append] at hclock
  exact hclock.2.2 _ (List.mem_map_of_mem hy) _ (by simp)

/-- A cutoff lies in the past. -/
theorem cutoffMs_le_stamp {now : SystemTime} (retention : Duration) (h : 0 ≤ stamp now) :
    cutoffMs now retention ≤ stamp now := by
  have hrange : (nowMs now).toNat < 2 ^ 63 := by
    by_contra hlarge
    exact absurd (asI64_neg hlarge) (not_lt.mpr h)
  have hle : (saturatingSub (nowMs now) (UInt64.ofNat retention.asMillis)).toNat
      ≤ (nowMs now).toNat := by
    rw [saturatingSub, UInt64.toNat_ofNat']
    exact (Nat.mod_le _ _).trans (Nat.sub_le _ _)
  rw [cutoffMs, stamp, asI64_of_lt hrange, asI64_of_lt (hle.trans_lt hrange)]
  exact Int.ofNat_le.mpr hle

theorem expired_eq_false_iff {receivedAt : ℤ} : expired steps receivedAt = false ↔
    ∀ y ∈ steps, ∀ cap retention, y.input.request = .pruneKeyPackages cap retention →
      cutoffMs y.input.now retention ≤ receivedAt := by
  rw [expired, List.any_eq_false]
  refine forall₂_congr fun y _ ↦ ?_
  rcases y.input.request
  case pruneKeyPackages => simp
  all_goals simp

/-- What is received now has not expired. -/
theorem Orderly.expired_stamp (h : Orderly (steps ++ [step])) :
    expired steps (stamp step.input.now) = false := by
  refine expired_eq_false_iff.mpr fun y hy cap retention _ ↦ ?_
  exact (cutoffMs_le_stamp retention (h.range y (List.mem_append_left _ hy))).trans (h.stamp_le hy)

theorem expired_concat_of_not_prunes (h : step.prunesKeyPackages = false) (receivedAt : ℤ) :
    expired (steps ++ [step]) receivedAt = expired steps receivedAt := by
  rw [expired, List.any_append, ← expired, List.any_cons, List.any_nil, Bool.or_false]
  rw [Step.prunesKeyPackages] at h
  rcases hrequest : step.input.request
  case pruneKeyPackages =>
    rw [hrequest] at h
    exact absurd h (by simp)
  all_goals exact Bool.or_false _

/-! ## The newest rows -/

/-- A step that does not prune leaves the newest row of a device, or offers it one. -/
theorem newestRow_of_not_prunes (h : step.prunesKeyPackages = false) (deviceId : String) :
    (∀ s, newestRow deviceId ((durable C).step s step).1 = newestRow deviceId s) ∨
      ∃ row, row.receivedAt = stamp step.input.now ∧ ∀ s,
        newestRow deviceId ((durable C).step s step).1
          = some (offer row (newestRow deviceId s)) := by
  rcases step with ⟨now, request⟩ | ⟨now, request⟩
  · have hserve : ∀ s, newestRow deviceId ((durable C).step s (.event ⟨now, request⟩)).1
        = (request.effect C).onNewestRow deviceId now (newestRow deviceId s) :=
      fun s ↦ newestRow_serve deviceId s ⟨now, request⟩
    rcases heffect : request.effect C with _ | b | b | ⟨addr, signed⟩ | ⟨cap, retention⟩ | retention
    case keypackage =>
      by_cases hkey : b.keyHex C = deviceId ∧ b.authentic C = true
      · refine Or.inr ⟨insertedRow now deviceId ⟨b.payload, b.signature⟩, rfl, fun s ↦ ?_⟩
        rw [hserve, heffect]
        exact if_pos hkey
      · refine Or.inl fun s ↦ ?_
        rw [hserve, heffect]
        exact if_neg hkey
    case pruneKeyPackages =>
      rw [request_of_pruneKeyPackages heffect] at h
      exact absurd h (by simp [Step.prunesKeyPackages, Step.input])
    all_goals
      refine Or.inl fun s ↦ ?_
      rw [hserve, heffect]
      rfl
  · rcases request
    case pruneKeyPackages => exact absurd h (by simp [Step.prunesKeyPackages, Step.input])
    all_goals exact Or.inl fun s ↦ rfl

/-- A prune drops the newest row of a device when it has expired. -/
theorem newestRow_of_prunes (h : Orderly (steps ++ [step])) (hprune : step.prunesKeyPackages = true)
    (deviceId : String) (s : Tables) : newestRow deviceId ((durable C).step s step).1
      = (newestRow deviceId s).filter fun r ↦ !expired [step] r.receivedAt := by
  rcases step with ⟨now, request⟩ | ⟨now, request⟩
  · rcases request
    case pruneKeyPackages maxPerIdentity retention =>
      have hcap := h.cap now maxPerIdentity retention (by simp)
      change newestRow deviceId (serve C s ⟨now, .pruneKeyPackages maxPerIdentity retention⟩).1 = _
      rw [newestRow_serve]
      refine (if_pos hcap).trans (congrArg (Option.filter · _) (funext fun r ↦ ?_))
      rw [Bool.eq_iff_iff, Bool.not_eq_true', Bool.not_eq_true', expired_eq_false_iff]
      simp [Step.input]
    all_goals exact absurd hprune (by simp [Step.prunesKeyPackages, Step.input])
  · rcases request
    case pruneKeyPackages maxPerIdentity retention =>
      refine (newestRow_deleteExpired retention deviceId).trans
        (congrArg (Option.filter · _) (funext fun r ↦ ?_))
      rw [Bool.eq_iff_iff, Bool.not_eq_true', Bool.not_eq_true', expired_eq_false_iff]
      simp [Step.input]
    all_goals exact absurd hprune (by simp [Step.prunesKeyPackages, Step.input])

theorem unpruned_concat_of_not_prunes (h : step.prunesKeyPackages = false) :
    unpruned (steps ++ [step]) = unpruned steps ++ [step] := by
  rw [unpruned, List.filter_append, List.filter_cons_of_pos (by simp [h]), List.filter_nil,
    unpruned]

theorem unpruned_concat_of_prunes (h : step.prunesKeyPackages = true) :
    unpruned (steps ++ [step]) = unpruned steps := by
  rw [unpruned, List.filter_append, List.filter_cons_of_neg (by simp [h]), List.filter_nil,
    List.append_nil, unpruned]

/-- A row that is not older than the newest one has the timestamp of whichever is on top then. -/
theorem receivedAt_offer {row : KeyPackageRow} {newest : Option KeyPackageRow}
    (hle : ∀ m ∈ newest, m.receivedAt ≤ row.receivedAt) :
    (offer row newest).receivedAt = row.receivedAt := by
  by_cases hlt : ∀ m ∈ newest, m.receivedAt < row.receivedAt
  · rw [offer_of_lt hlt]
  · push Not at hlt
    obtain ⟨m, rfl, hge⟩ := hlt
    rw [offer_of_le hge]
    exact (hle m rfl).antisymm hge

/-- Its offer has the same result once older rows have been dropped. -/
theorem offer_filter {row : KeyPackageRow} {newest : Option KeyPackageRow} (kept : ℤ → Bool)
    (hle : ∀ m ∈ newest, m.receivedAt ≤ row.receivedAt) (hkept : kept row.receivedAt = true) :
    offer row (newest.filter fun r ↦ kept r.receivedAt) = offer row newest := by
  rcases newest with _ | m
  · rfl
  · rcases (hle m rfl).eq_or_lt with heq | hlt
    · -- The millisecond is taken, by a row that is kept as well.
      rw [Option.filter_some_pos (by rw [heq, hkept])]
    · rw [offer_of_lt fun m' hm' ↦ ?_, offer_of_lt fun m' hm' ↦ ?_]
      · obtain rfl := Option.some.inj hm'
        exact hlt
      · obtain rfl := Option.some.inj (Option.filter_eq_some_iff.mp hm').1
        exact hlt

/-- The prunes take from the newest rows those that have expired. -/
theorem newestRow_unpruned (h : Orderly steps) (deviceId : String) :
    newestRow deviceId ((durable C).run Tables.empty steps)
        = (newestRow deviceId ((durable C).run Tables.empty (unpruned steps))).filter
          (fun r ↦ !expired steps r.receivedAt) ∧
      ∀ r ∈ newestRow deviceId ((durable C).run Tables.empty (unpruned steps)),
        ∃ y ∈ steps, r.receivedAt = stamp y.input.now := by
  induction steps using List.reverseRecOn with
  | nil =>
    have hnone : newestRow deviceId Tables.empty = none := rfl
    exact ⟨rfl, fun r hr ↦ absurd (hnone.symm.trans hr) (by simp)⟩
  | append_singleton steps step ih =>
    obtain ⟨hfilter, horigin⟩ := ih (h.mono (List.sublist_append_left _ _))
    have hearlier : ∀ r ∈ newestRow deviceId ((durable C).run Tables.empty (unpruned steps)),
        ∃ y ∈ steps ++ [step], r.receivedAt = stamp y.input.now := fun r hr ↦ by
      obtain ⟨y, hy, hyr⟩ := horigin r hr
      exact ⟨y, List.mem_append_left _ hy, hyr⟩
    rcases hprune : step.prunesKeyPackages
    · rw [unpruned_concat_of_not_prunes hprune, Machine.run_concat, Machine.run_concat]
      simp only [expired_concat_of_not_prunes hprune]
      obtain hsame | ⟨row, hstamp, hoffer⟩ :=
        newestRow_of_not_prunes (C := C) hprune deviceId
      · rw [hsame, hsame]
        exact ⟨hfilter, hearlier⟩
      · -- The clock was not set back, so the new row is not older than the newest one.
        have hnew : expired steps row.receivedAt = false := hstamp ▸ h.expired_stamp
        have hle : ∀ m ∈ newestRow deviceId ((durable C).run Tables.empty (unpruned steps)),
            m.receivedAt ≤ row.receivedAt := fun m hm ↦ by
          obtain ⟨y, hy, hym⟩ := horigin m hm
          rw [hym, hstamp]
          exact h.stamp_le hy
        rw [hoffer, hoffer, hfilter,
          offer_filter (fun receivedAt ↦ !expired steps receivedAt) hle (by simp [hnew]),
          Option.filter_some_pos (by simp [receivedAt_offer hle, hnew])]
        refine ⟨rfl, fun r hr ↦ ⟨step, by simp, ?_⟩⟩
        obtain rfl := Option.some.inj hr
        exact (receivedAt_offer hle).trans hstamp
    · rw [unpruned_concat_of_prunes hprune, Machine.run_concat,
        newestRow_of_prunes h hprune, hfilter, Option.filter_filter]
      refine ⟨congrArg (Option.filter · _) (funext fun r ↦ ?_), hearlier⟩
      rw [← Bool.not_or, expired, expired, ← List.any_append]
      rfl

/-- The prunes free no millisecond that a submission could use. -/
theorem stampTaken_unpruned (h : Orderly (steps ++ [step])) (deviceId : String) :
    StampTaken step.input.now deviceId ((durable C).run Tables.empty steps)
      ↔ StampTaken step.input.now deviceId ((durable C).run Tables.empty (unpruned steps)) := by
  obtain ⟨hfilter, horigin⟩ := newestRow_unpruned (C := C)
    (h.mono (List.sublist_append_left _ _)) deviceId
  -- A row of this millisecond is the newest one.
  have hnewest : ∀ s, (∀ r ∈ newestRow deviceId s, r.receivedAt ≤ stamp step.input.now) →
      (StampTaken step.input.now deviceId s
        ↔ ∃ r ∈ newestRow deviceId s, r.receivedAt = stamp step.input.now) := by
    refine fun s hle ↦ ⟨?_, ?_⟩
    · rintro ⟨r, hr, hstamp⟩
      rcases hnew : newestRow deviceId s with _ | m
      · rw [newestRow, newest?_eq_none_iff] at hnew
        rw [hnew] at hr
        exact absurd hr List.not_mem_nil
      · have hrm : r.receivedAt ≤ m.receivedAt := ord_le_of_newest? hnew hr
        exact ⟨m, rfl, le_antisymm (hle m hnew) (hstamp ▸ hrm)⟩
    · rintro ⟨r, hr, hstamp⟩
      exact ⟨r, newest?_mem hr, hstamp⟩
  have hle : ∀ r ∈ newestRow deviceId ((durable C).run Tables.empty (unpruned steps)),
      r.receivedAt ≤ stamp step.input.now := by
    intro r hr
    obtain ⟨y, hy, hyr⟩ := horigin r hr
    exact hyr ▸ h.stamp_le hy
  rw [hnewest _ hle, hnewest _ fun r hr ↦
    hle r (Option.filter_eq_some_iff.mp (hfilter.symm.trans hr)).1, hfilter]
  refine exists_congr fun r ↦ and_congr_left fun hstamp ↦ ?_
  rw [Option.mem_def, Option.filter_eq_some_iff]
  refine and_iff_left ?_
  rw [hstamp, h.expired_stamp]
  rfl

/-- **Prunes are unobservable**, but for a keypackage that has expired. Whenever they run, every
step is answered as it would be without them. -/
theorem prunes_unobservable (past : List Step) (step : Step) (h : Orderly (past ++ [step]))
    (hstep : step.prunesKeyPackages = false) :
    ((durable C).step ((durable C).run Tables.empty past) step).2
      = answerBut C past ((durable C).run Tables.empty (unpruned past)) step := by
  have haccounts := accountTables_unpruned (C := C) past (rfl : accountTables Tables.empty = _)
  rcases step with ⟨now, request⟩ | ⟨now, request⟩
  · by_cases hfetch : ∃ deviceId, request = .fetchKeyPackage deviceId
    · obtain ⟨deviceId, rfl⟩ := hfetch
      obtain ⟨hfilter, -⟩ := newestRow_unpruned (C := C)
        (h.mono (List.sublist_append_left _ _)) deviceId
      change some (Response.keyPackage (fetchKeyPackage C deviceId _)) = _
      rw [answerBut, fetchKeyPackage, latest, hfilter]
      rcases hold : newestRow deviceId ((durable C).run Tables.empty (unpruned past)) with _ | m
      · change _ = some (Response.keyPackage (fetchKeyPackage C deviceId _))
        rw [fetchKeyPackage, latest, hold]
        rfl
      · rcases hm : expired past m.receivedAt
        · rw [Option.filter_some_pos (by simp [hm]), if_neg (by simp [hm])]
          change _ = some (Response.keyPackage (fetchKeyPackage C deviceId _))
          rw [fetchKeyPackage, latest, hold]
        · rw [Option.filter_some_neg (by simp [hm]), if_pos (by simp [hm])]
          rfl
    · have hserve : ((durable C).step ((durable C).run Tables.empty past)
          (.event ⟨now, request⟩)).2 = ((durable C).step
            ((durable C).run Tables.empty (unpruned past)) (.event ⟨now, request⟩)).2 := by
        refine congrArg some (serve_snd_of_accountTables haccounts (fun deviceId hrequest ↦ ?_)
          fun b _ ↦ stampTaken_unpruned h (b.keyHex C))
        exact absurd ⟨deviceId, hrequest⟩ hfetch
      rw [hserve]
      rcases request
      case fetchKeyPackage deviceId => exact absurd ⟨deviceId, rfl⟩ hfetch
      all_goals rfl
  · rcases request
    case pruneKeyPackages => exact absurd hstep (by simp [Step.prunesKeyPackages, Step.input])
    all_goals rfl

namespace Reference

/-- A device publishes, and its keypackage expires. -/
def publishAndExpire : List Step :=
  [.event ⟨1000000, deliverKeyPackage keyPackageA⟩, .event ⟨3000000, .pruneKeyPackages 1 ⟨0, 0⟩⟩]

theorem prunes_unobservable_publishAndExpire :
    ((durable crates).step ((durable crates).run Tables.empty publishAndExpire)
        (.event ⟨3000000, .fetchKeyPackage (Hex.encode publicKey.val)⟩)).2
      = answerBut crates publishAndExpire
        ((durable crates).run Tables.empty (unpruned publishAndExpire))
        (.event ⟨3000000, .fetchKeyPackage (Hex.encode publicKey.val)⟩) := by
  refine prunes_unobservable publishAndExpire _ ⟨by decide, by decide, ?_⟩ rfl
  intro now maxPerIdentity retention hmem
  obtain ⟨rfl, rfl⟩ : now = 3000000 ∧ maxPerIdentity = 1 := by
    simp [publishAndExpire, deliverKeyPackage] at hmem
    exact ⟨hmem.1, hmem.2.1⟩
  decide

end Reference

end ChatStore
