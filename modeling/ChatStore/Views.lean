import ChatStore.Service

/-!
# The service seen from one key

What one key's rows are after an event depends on those rows alone. The file says so for the four
views of a key that the statements about runs use: the rows of a device, its newest row, and the row
of an account in either table. For each view there is a function from effects to changes of the
view, and a theorem that an effect acts on the view by that function.
-/

namespace ChatStore

open Library Store

variable {C : Crates} {now : SystemTime} {b : Bundle} {s : Tables}

/-! ## Every rule keeps to its own table -/

theorem applyKeypackage_frame (now : SystemTime) (b : Bundle) (s : Tables) :
    (applyKeypackage C now b s).1.accountBundles = s.accountBundles ∧
      (applyKeypackage C now b s).1.accountLogs = s.accountLogs := by
  cases hauth : b.authentic C with
  | false =>
    obtain ⟨msg, happly⟩ := applyKeypackage_of_not_authentic now s hauth
    rw [happly]
    exact ⟨rfl, rfl⟩
  | true =>
    rw [applyKeypackage_of_authentic now s hauth]
    exact insert_frame now (b.keyHex C) ⟨b.payload, b.signature⟩ s

theorem applyAccount_frame (now : SystemTime) (b : Bundle) (s : Tables) :
    (applyAccount C now b s).1.keypackages = s.keypackages ∧
      (applyAccount C now b s).1.accountLogs = s.accountLogs := by
  cases hvalid : b.validLamport C with
  | none =>
    obtain ⟨msg, happly⟩ := applyAccount_of_validLamport_none now s hvalid
    rw [happly]
    exact ⟨rfl, rfl⟩
  | some lamport =>
    rw [applyAccount_of_validLamport now s hvalid]
    exact upsertAccount_frame now (b.keyHex C) lamport _ s

/-- A log that makes no record changes nothing, and any other is put. -/
theorem applyAccountLog_fst (now : SystemTime) (addr : C.log.AccountAddr)
    (signed : C.log.SignedAccountLog) (s : Tables) :
    (applyAccountLog C now addr signed s).1 = match C.log.newRecord addr signed with
      | .error _ => s
      | .ok candidate => (putAccountLog now candidate s).1 := by
  rw [applyAccountLog]
  cases C.log.newRecord addr signed with
  | error err => rfl
  | ok candidate =>
    obtain ⟨err, -, hput⟩ | ⟨update, -, -, hput⟩ | ⟨update, -, -, hput⟩ :=
      putAccountLog_cases now candidate s <;> simp only [hput]

theorem applyAccountLog_frame (now : SystemTime) (addr : C.log.AccountAddr)
    (signed : C.log.SignedAccountLog) (s : Tables) :
    (applyAccountLog C now addr signed s).1.keypackages = s.keypackages ∧
      (applyAccountLog C now addr signed s).1.accountBundles = s.accountBundles := by
  rw [applyAccountLog_fst]
  cases C.log.newRecord addr signed with
  | error err => exact ⟨rfl, rfl⟩
  | ok candidate => exact putAccountLog_frame now candidate s

/-! ## Where rows come from

A row that an effect leaves was there before, or is the row that its submission stores. -/

theorem mem_keypackages_effect {effect : Effect C} {r : KeyPackageRow}
    (h : r ∈ (effect.run C now s).keypackages.rows) : r ∈ s.keypackages.rows ∨
      ∃ b, effect = .keypackage b ∧ b.authentic C = true ∧
        r = insertedRow now (b.keyHex C) ⟨b.payload, b.signature⟩ := by
  rcases effect with _ | b | b | ⟨addr, signed⟩ | ⟨maxPerIdentity, retention⟩ | retention
  · exact Or.inl h
  · rcases hauth : b.authentic C
    · obtain ⟨msg, happly⟩ := applyKeypackage_of_not_authentic now s hauth
      rw [Effect.run, happly] at h
      exact Or.inl h
    · rw [Effect.run, applyKeypackage_of_authentic now s hauth] at h
      by_cases htaken : StampTaken now (b.keyHex C) s
      · rw [insert_of_stampTaken htaken] at h
        exact Or.inl h
      · obtain ⟨t, hrows, hins⟩ := insert_of_not_stampTaken (A := C.log)
          ⟨b.payload, b.signature⟩ htaken
        rw [hins, hrows] at h
        rcases List.mem_append.mp h with h | h
        · exact Or.inl h
        · exact Or.inr ⟨b, rfl, hauth, List.mem_singleton.mp h⟩
  · rw [Effect.run, (applyAccount_frame now b s).1] at h
    exact Or.inl h
  · rw [Effect.run, (applyAccountLog_frame now addr signed s).1] at h
    exact Or.inl h
  · exact Or.inl (List.mem_of_mem_filter (List.mem_of_mem_filter h))
  · exact Or.inl h

theorem mem_accountBundles_effect {effect : Effect C} {r : AccountBundleRow}
    (h : r ∈ (effect.run C now s).accountBundles.rows) : r ∈ s.accountBundles.rows ∨
      ∃ b lamport, effect = .account b ∧ b.validLamport C = some lamport ∧
        r = upsertedRow now (b.keyHex C) ⟨b.payload, b.signature, 0⟩ := by
  rcases effect with _ | b | b | ⟨addr, signed⟩ | ⟨maxPerIdentity, retention⟩ | retention
  · exact Or.inl h
  · rw [Effect.run, (applyKeypackage_frame now b s).1] at h
    exact Or.inl h
  · rcases hvalid : b.validLamport C with _ | lamport
    · obtain ⟨msg, happly⟩ := applyAccount_of_validLamport_none now s hvalid
      rw [Effect.run, happly] at h
      exact Or.inl h
    · rw [Effect.run, applyAccount_of_validLamport now s hvalid, upsertAccount] at h
      split_ifs at h
      · exact Or.inl h
      · rcases Table.mem_upsert.mp h with rfl | ⟨h, -⟩
        · exact Or.inr ⟨b, lamport, rfl, hvalid, rfl⟩
        · exact Or.inl h
  · rw [Effect.run, (applyAccountLog_frame now addr signed s).2] at h
    exact Or.inl h
  · exact Or.inl h
  · exact Or.inl (List.mem_of_mem_filter h)

theorem mem_accountLogs_effect {effect : Effect C} {r : AccountLogRow}
    (h : r ∈ (effect.run C now s).accountLogs.rows) : r ∈ s.accountLogs.rows ∨
      ∃ addr signed candidate update, effect = .accountLog addr signed ∧
        C.log.newRecord addr signed = .ok candidate ∧
        logUpdate candidate (logRow (recordKey candidate) s) = .ok update ∧
        update.outcome = .updated ∧ r = putRow now candidate update.record := by
  rcases effect with _ | b | b | ⟨addr, signed⟩ | ⟨maxPerIdentity, retention⟩ | retention
  · exact Or.inl h
  · rw [Effect.run, (applyKeypackage_frame now b s).2] at h
    exact Or.inl h
  · rw [Effect.run, (applyAccount_frame now b s).2] at h
    exact Or.inl h
  · rw [Effect.run, applyAccountLog_fst] at h
    rcases hnew : C.log.newRecord addr signed with err | candidate
    · rw [hnew] at h
      exact Or.inl h
    · rw [hnew] at h
      dsimp only at h
      obtain ⟨err, -, hput⟩ | ⟨update, -, -, hput⟩ | ⟨update, hupd, hout, hput⟩ :=
        putAccountLog_cases now candidate s
      · rw [hput] at h
        exact Or.inl h
      · rw [hput] at h
        exact Or.inl h
      · rw [hput] at h
        rcases Table.mem_upsert.mp h with rfl | ⟨h, -⟩
        · exact Or.inr ⟨addr, signed, candidate, update, rfl, hnew, hupd, hout, rfl⟩
        · exact Or.inl h
  · exact Or.inl h
  · exact Or.inl h

/-! ## Devices -/

/-- What an effect does to the rows of a device. -/
def Effect.onHistory (deviceId : String) (now : SystemTime) (rows : List KeyPackageRow) :
    Effect C → List KeyPackageRow
  | .keypackage b =>
    if b.keyHex C = deviceId ∧ b.authentic C = true ∧ ¬∃ r ∈ rows, r.receivedAt = stamp now then
      rows ++ [insertedRow now deviceId ⟨b.payload, b.signature⟩]
    else rows
  | .pruneKeyPackages maxPerIdentity retention =>
    withinCap (asI64 maxPerIdentity)
      (rows.filter fun r ↦ !decide (r.receivedAt < cutoffMs now retention))
  | .nothing | .account _ | .accountLog _ _ | .pruneAccounts _ => rows

/-- What an effect does to the newest row of a device. -/
def Effect.onNewestRow (deviceId : String) (now : SystemTime) (newest : Option KeyPackageRow) :
    Effect C → Option KeyPackageRow
  | .keypackage b =>
    if b.keyHex C = deviceId ∧ b.authentic C = true then
      some (offer (insertedRow now deviceId ⟨b.payload, b.signature⟩) newest)
    else newest
  | .pruneKeyPackages maxPerIdentity retention =>
    if 1 ≤ asI64 maxPerIdentity then
      newest.filter fun r ↦ !decide (r.receivedAt < cutoffMs now retention)
    else none
  | .nothing | .account _ | .accountLog _ _ | .pruneAccounts _ => newest

private theorem history_congr {s s' : Tables} (h : s.keypackages = s'.keypackages)
    (deviceId : String) : history deviceId s = history deviceId s' := by
  rw [history, history, h]

theorem history_effect (deviceId : String) (now : SystemTime) (s : Tables) (effect : Effect C) :
    history deviceId (effect.run C now s) = effect.onHistory deviceId now (history deviceId s) := by
  cases effect with
  | keypackage b =>
    rw [Effect.run, Effect.onHistory]
    by_cases hauth : b.authentic C = true
    · rw [applyKeypackage_of_authentic now s hauth, history_insert]
      by_cases hkey : b.keyHex C = deviceId
      · subst hkey
        simp only [true_and, hauth, StampTaken]
      · rw [if_neg fun h ↦ hkey h.1, if_neg fun h ↦ hkey h.1]
    · obtain ⟨msg, happly⟩ := applyKeypackage_of_not_authentic (C := C) now s (by simpa using hauth)
      rw [happly, if_neg fun h ↦ hauth h.2.1]
  | account b => exact history_congr (applyAccount_frame now b s).1 deviceId
  | accountLog addr signed =>
    exact history_congr (applyAccountLog_frame now addr signed s).1 deviceId
  | pruneKeyPackages maxPerIdentity retention =>
    rw [Effect.run, history_deleteExcess, history_deleteExpired, Effect.onHistory]
  | nothing | pruneAccounts _ => rfl

theorem newestRow_effect (deviceId : String) (now : SystemTime) (s : Tables) (effect : Effect C) :
    newestRow deviceId (effect.run C now s)
      = effect.onNewestRow deviceId now (newestRow deviceId s) := by
  cases effect with
  | keypackage b =>
    rw [Effect.run, Effect.onNewestRow]
    by_cases hauth : b.authentic C = true
    · rw [applyKeypackage_of_authentic now s hauth, newestRow_insert]
      by_cases hkey : b.keyHex C = deviceId
      · rw [if_pos hkey, if_pos ⟨hkey, hauth⟩, hkey]
      · rw [if_neg hkey, if_neg fun h ↦ hkey h.1]
    · obtain ⟨msg, happly⟩ := applyKeypackage_of_not_authentic (C := C) now s (by simpa using hauth)
      rw [happly, if_neg fun h ↦ hauth h.2]
  | account b =>
    rw [newestRow, Effect.run, history_congr (applyAccount_frame now b s).1]
    rfl
  | accountLog addr signed =>
    rw [newestRow, Effect.run, history_congr (applyAccountLog_frame now addr signed s).1]
    rfl
  | pruneKeyPackages maxPerIdentity retention =>
    rw [Effect.run, newestRow_deleteExcess, newestRow_deleteExpired, Effect.onNewestRow]
  | nothing | pruneAccounts _ => rfl

theorem newestRow_serve (deviceId : String) (s : Tables) (e : Event) :
    newestRow deviceId (serve C s e).1
      = (e.request.effect C).onNewestRow deviceId e.now (newestRow deviceId s) := by
  rw [serve_fst, newestRow_effect]

/-! ## Accounts -/

/-- What an effect does to the bundle row of an account. -/
def Effect.onAccountRow (accountPub : String) (now : SystemTime) (row : Option AccountBundleRow) :
    Effect C → Option AccountBundleRow
  | .account b =>
    match b.validLamport C with
    | none => row
    | some lamport =>
      if b.keyHex C = accountPub ∧ isStale lamport row = false then
        some (upsertedRow now accountPub ⟨b.payload, b.signature, 0⟩)
      else row
  | .pruneAccounts retention => row.filter fun r ↦ !decide (r.updatedAt < cutoffMs now retention)
  | .nothing | .keypackage _ | .accountLog _ _ | .pruneKeyPackages _ _ => row

/-- What an effect does to the log row of an account. -/
def Effect.onLogRow (accountPub : String) (now : SystemTime) (row : Option AccountLogRow) :
    Effect C → Option AccountLogRow
  | .accountLog addr signed =>
    match C.log.newRecord addr signed with
    | .error _ => row
    | .ok candidate =>
      if recordKey candidate = accountPub then
        match logUpdate candidate row with
        | .error _ => row
        | .ok update => if update.outcome = .updated then some (putRow now candidate update.record)
          else row
      else row
  | .nothing | .keypackage _ | .account _ | .pruneKeyPackages _ _ | .pruneAccounts _ => row

theorem accountRow_effect (accountPub : String) (now : SystemTime) (s : Tables)
    (effect : Effect C) : accountRow accountPub (effect.run C now s)
      = effect.onAccountRow accountPub now (accountRow accountPub s) := by
  cases effect with
  | account b =>
    rw [Effect.run, Effect.onAccountRow]
    cases hvalid : b.validLamport C with
    | none =>
      obtain ⟨msg, happly⟩ := applyAccount_of_validLamport_none now s hvalid
      rw [happly]
    | some lamport =>
      rw [applyAccount_of_validLamport now s hvalid, accountRow_upsertAccount]
      by_cases hkey : b.keyHex C = accountPub
      · simp only [hkey]
      · rw [if_neg fun h ↦ hkey h.1]
        exact (if_neg fun h ↦ hkey h.1).symm
  | keypackage b => rw [accountRow, Effect.run, (applyKeypackage_frame now b s).1]; rfl
  | accountLog addr signed =>
    rw [accountRow, Effect.run, (applyAccountLog_frame now addr signed s).2]
    rfl
  | pruneAccounts retention => exact accountRow_pruneAccounts retention accountPub
  | nothing | pruneKeyPackages _ _ => rfl

theorem accountRow_serve (accountPub : String) (s : Tables) (e : Event) :
    accountRow accountPub (serve C s e).1
      = (e.request.effect C).onAccountRow accountPub e.now (accountRow accountPub s) := by
  rw [serve_fst, accountRow_effect]

/-- What one event does to the bundle row of an account. An accepted submission for the account
replaces the row, a prune keeps or removes it, and everything else leaves it as it is. -/
theorem accountRow_cases (accountPub : String) (s : Tables) (e : Event) :
    (∃ b lamport, e.request.effect C = .account b ∧ b.keyHex C = accountPub ∧
      b.validLamport C = some lamport ∧ isStale lamport (accountRow accountPub s) = false ∧
      (serve C s e).2.accepted = true ∧ accountRow accountPub (serve C s e).1
        = some (upsertedRow e.now accountPub ⟨b.payload, b.signature, 0⟩)) ∨
    (∃ retention, e.request.effect C = .pruneAccounts retention ∧
      accountRow accountPub (serve C s e).1 = (accountRow accountPub s).filter fun r ↦
        !decide (r.updatedAt < cutoffMs e.now retention)) ∨
    (accountRow accountPub (serve C s e).1 = accountRow accountPub s ∧
      (∀ retention, e.request.effect C ≠ .pruneAccounts retention) ∧
      ∀ b, e.request.effect C = .account b → b.keyHex C = accountPub →
        (serve C s e).2.accepted = false) := by
  rw [accountRow_serve, accepted_serve]
  rcases heffect : e.request.effect C with _ | b' | b | ⟨addr, signed⟩ | _ | retention
  · exact Or.inr (Or.inr ⟨rfl, by simp, by simp⟩)
  · exact Or.inr (Or.inr ⟨rfl, by simp, by simp⟩)
  · rcases haccepts : (Effect.account b).accepts C e.now s
    · refine Or.inr (Or.inr ⟨?_, by simp, fun _ _ _ ↦ rfl⟩)
      -- A bundle that would be stored would be accepted.
      rw [Effect.onAccountRow]
      rcases hvalid : b.validLamport C with _ | lamport
      · rfl
      · refine if_neg fun hnew ↦ Bool.eq_false_iff.mp haccepts ?_
        rw [Effect.accepts, isOk_iff, applyAccount_eq_ok_iff]
        exact ⟨lamport, hvalid, hnew.1 ▸ hnew.2⟩
    · rw [Effect.accepts, isOk_iff, applyAccount_eq_ok_iff] at haccepts
      obtain ⟨lamport, hvalid, hnew⟩ := haccepts
      rw [Effect.onAccountRow, hvalid]
      by_cases hkey : b.keyHex C = accountPub
      · subst hkey
        exact Or.inl ⟨b, lamport, rfl, rfl, hvalid, hnew, rfl, if_pos ⟨rfl, hnew⟩⟩
      · refine Or.inr (Or.inr ⟨if_neg fun h ↦ hkey h.1, by simp, fun b' hb' hkey' ↦ ?_⟩)
        rw [Effect.account.injEq] at hb'
        exact absurd (hb' ▸ hkey') hkey
  · exact Or.inr (Or.inr ⟨rfl, by simp, by simp⟩)
  · exact Or.inr (Or.inr ⟨rfl, by simp, by simp⟩)
  · exact Or.inr (Or.inl ⟨retention, rfl, rfl⟩)

/-- A row that is not replaced is left alone or removed. -/
theorem accountRow_not_accepted {accountPub : String} {e : Event}
    (h : ∀ b, e.request.effect C = .account b → b.keyHex C = accountPub →
      (serve C s e).2.accepted = false) :
    accountRow accountPub (serve C s e).1 = accountRow accountPub s ∨
      accountRow accountPub (serve C s e).1 = none := by
  obtain ⟨b, lamport, heffect, hkey, -, -, hacc, -⟩ | ⟨retention, -, hrow⟩ | ⟨hrow, -, -⟩ :=
    accountRow_cases (C := C) accountPub s e
  · rw [h b heffect hkey] at hacc
    exact absurd hacc (by simp)
  · rw [hrow]
    rcases accountRow accountPub s with _ | row
    · exact Or.inl rfl
    · rw [Option.filter_some]
      split_ifs
      · exact Or.inl rfl
      · exact Or.inr rfl
  · exact Or.inl hrow

theorem logRow_effect (accountPub : String) (now : SystemTime) (s : Tables) (effect : Effect C) :
    logRow accountPub (effect.run C now s)
      = effect.onLogRow accountPub now (logRow accountPub s) := by
  cases effect with
  | accountLog addr signed =>
    rw [Effect.run, Effect.onLogRow, applyAccountLog_fst]
    cases hnew : C.log.newRecord addr signed with
    | error err => rfl
    | ok candidate =>
      dsimp only
      by_cases hkey : recordKey candidate = accountPub
      · subst hkey
        rw [if_pos rfl]
        obtain ⟨err, hupd, hput⟩ | ⟨update, hupd, hout, hput⟩ | ⟨update, hupd, hout, hput⟩ :=
          putAccountLog_cases now candidate s
        · rw [hput, hupd]
        · simp only [hput, hupd, if_neg hout]
        · simp only [hput, hupd, if_pos hout]
          exact Table.find?_upsert_self s.accountLogs (putRow now candidate update.record)
      · rw [if_neg hkey, logRow_putAccountLog_of_ne hkey]
  | keypackage b => rw [logRow, Effect.run, (applyKeypackage_frame now b s).2]; rfl
  | account b => rw [logRow, Effect.run, (applyAccount_frame now b s).2]; rfl
  | nothing | pruneKeyPackages _ _ | pruneAccounts _ => rfl

theorem logRow_serve (accountPub : String) (s : Tables) (e : Event) :
    logRow accountPub (serve C s e).1
      = (e.request.effect C).onLogRow accountPub e.now (logRow accountPub s) := by
  rw [serve_fst, logRow_effect]

/-! ## Verdicts

A verdict depends on the rows of the key that the submission names, and on no other. -/

variable {s' : Tables}

theorem applyKeypackage_verdict_congr
    (h : history (b.keyHex C) s = history (b.keyHex C) s') :
    (applyKeypackage C now b s).2 = (applyKeypackage C now b s').2 := by
  rw [applyKeypackage, applyKeypackage]
  cases verify C b with
  | error err => rfl
  | ok u =>
    dsimp only
    have hiff : StampTaken now (b.keyHex C) s ↔ StampTaken now (b.keyHex C) s' := by
      rw [StampTaken, StampTaken, h]
    by_cases htaken : StampTaken now (b.keyHex C) s
    · rw [insert_of_stampTaken htaken, insert_of_stampTaken (hiff.mp htaken)]
    · obtain ⟨t, -, hins⟩ := insert_of_not_stampTaken (A := C.log) ⟨b.payload, b.signature⟩ htaken
      obtain ⟨t', -, hins'⟩ := insert_of_not_stampTaken (A := C.log) ⟨b.payload, b.signature⟩
        fun htaken' ↦ htaken (hiff.mpr htaken')
      rw [hins, hins']

theorem applyAccount_verdict_congr
    (h : accountRow (b.keyHex C) s = accountRow (b.keyHex C) s') :
    (applyAccount C now b s).2 = (applyAccount C now b s').2 := by
  rw [applyAccount, applyAccount]
  cases verify C b with
  | error err => rfl
  | ok u =>
    cases payloadLamport b.payload with
    | none => rfl
    | some lamport =>
      simp only [upsertAccount, h]
      split_ifs <;> rfl

theorem applyAccountLog_verdict_congr {addr : C.log.AccountAddr} {signed : C.log.SignedAccountLog}
    (h : ∀ candidate, C.log.newRecord addr signed = .ok candidate →
      logRow (recordKey candidate) s = logRow (recordKey candidate) s') :
    (applyAccountLog C now addr signed s).2 = (applyAccountLog C now addr signed s').2 := by
  rw [applyAccountLog, applyAccountLog]
  cases hnew : C.log.newRecord addr signed with
  | error err => rfl
  | ok candidate =>
    simp only [putAccountLog, h candidate hnew]
    cases logUpdate candidate (logRow (recordKey candidate) s') with
    | error err => rfl
    | ok update =>
      dsimp only
      split_ifs <;> rfl

/-- The answer to anything but a read depends on the tables through the verdict only. -/
theorem serve_snd_congr {e : Event} (hwrite : e.request.isWrite = true)
    (h : (e.request.effect C).verdict C e.now s = (e.request.effect C).verdict C e.now s') :
    (serve C s e).2 = (serve C s' e).2 := by
  obtain ⟨now, request⟩ := e
  obtain ⟨report, hreport⟩ := exists_report (C := C) request hwrite
  rw [(hreport now s).1, (hreport now s').1, h]

end ChatStore
