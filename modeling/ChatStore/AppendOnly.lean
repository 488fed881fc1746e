import ChatStore.Library.Register
import ChatStore.Reference
import ChatStore.Views

/-!
# Account logs only grow

The log on file for an account is a `Register` ordered by extension, and nothing evicts it. So a
log that was acknowledged is a prefix of every later one, and if the submitted logs are comparable,
the longest one is on file in the end, whatever the order.
-/

namespace ChatStore

open Library Store

variable (C : Crates) (addr : C.log.AccountAddr)

/-! ## Submissions for one account -/

/-- The log that an event submits for the account `addr`. -/
def Event.accountLog (e : Event) : Option C.log.SignedAccountLog :=
  match e.request.effect C with
  | .accountLog addr' signed =>
    if C.log.addrToString addr' = C.log.addrToString addr then some signed else none
  | _ => none

/-- The payload of a submission for `addr` that is authentic and decodes. -/
def Event.validPayload (e : Event) : Option Bytes :=
  ((e.accountLog C addr).filter fun signed ↦
    C.log.signatureValid addr signed && C.log.logDecodes signed).map C.log.payload

/-- The payloads of the authentic and decodable logs submitted for `addr`, in order. -/
def submittedPayloads (events : List Event) : List Bytes :=
  events.filterMap (Event.validPayload C addr)

/-- The payloads acknowledged for `addr`, in order. -/
def acknowledgedPayloads (events : List Event) : List Bytes :=
  ((service C).trace Tables.empty events).filterMap fun e ↦
    if e.output.accepted then (e.input.accountLog C addr).map C.log.payload else none

/-- The payload on file for `addr` after a run. -/
def storedPayload (events : List Event) : Option Bytes :=
  rowPayload C.log (logRow (C.log.addrToString addr) (tablesAfter C events))

variable {C addr} {s : Tables} {e : Event}

/-! ## What one event does to the log on file -/

theorem accountLog_eq_some_iff (hLog : C.log.Laws) {signed : C.log.SignedAccountLog} :
    e.accountLog C addr = some signed ↔ e.request.effect C = .accountLog addr signed := by
  rw [Event.accountLog]
  cases e.request.effect C with
  | accountLog addr' signed' =>
    dsimp only
    rw [Effect.accountLog.injEq]
    split_ifs with haddr
    · rw [Option.some.injEq]
      exact ⟨fun h ↦ ⟨hLog.addrToString_injective haddr, h⟩, fun h ↦ h.2⟩
    · exact ⟨fun h ↦ absurd h (by simp), fun h ↦ absurd (congrArg _ h.1) haddr⟩
  | nothing | keypackage _ | account _ | pruneKeyPackages _ _ | pruneAccounts _ => simp

theorem validPayload_eq_some_iff (hLog : C.log.Laws) {p : Bytes} :
    e.validPayload C addr = some p ↔ ∃ signed, e.request.effect C = .accountLog addr signed ∧
      (C.log.signatureValid addr signed && C.log.logDecodes signed) = true ∧
        C.log.payload signed = p := by
  rw [Event.validPayload, Option.map_eq_some_iff]
  constructor
  · rintro ⟨signed, hsigned, rfl⟩
    obtain ⟨hlog, hvalid⟩ := Option.filter_eq_some_iff.mp hsigned
    exact ⟨signed, (accountLog_eq_some_iff hLog).mp hlog, hvalid, rfl⟩
  · rintro ⟨signed, heffect, hvalid, rfl⟩
    exact ⟨signed, Option.filter_eq_some_iff.mpr
      ⟨(accountLog_eq_some_iff hLog).mpr heffect, hvalid⟩, rfl⟩

theorem rowPayload_logRowOf (hLog : C.log.Laws) (now : SystemTime)
    (signed : C.log.SignedAccountLog) :
    rowPayload C.log (some (logRowOf now addr signed)) = some (C.log.payload signed) := by
  simp [rowPayload, logRowOf, hLog.fromBytes_toBytes, Except.toOption]

theorem validLogRow_logRowOf (hLog : C.log.Laws) (now : SystemTime)
    {signed : C.log.SignedAccountLog}
    (h : (C.log.signatureValid addr signed && C.log.logDecodes signed) = true) :
    ValidLogRow addr (some (logRowOf now addr signed)) := by
  intro r hr
  obtain rfl := Option.mem_some_iff.mp hr
  rw [Bool.and_eq_true] at h
  obtain ⟨record, hnew⟩ := (hLog.newRecord_ok_iff addr signed).mpr h
  exact ⟨signed, record, hLog.fromBytes_toBytes signed, hnew⟩

/-- A valid log that extends what is on file is acknowledged and on file afterwards. Any other
changes nothing and is refused. -/
theorem logRow_of_submission (hLog : C.log.Laws) {p : Bytes} (h : e.validPayload C addr = some p)
    (hrow : ValidLogRow addr (logRow (C.log.addrToString addr) s)) :
    ((∀ u ∈ rowPayload C.log (logRow (C.log.addrToString addr) s), u <+: p) ∧
      rowPayload C.log (logRow (C.log.addrToString addr) (serve C s e).1) = some p ∧
      ValidLogRow addr (logRow (C.log.addrToString addr) (serve C s e).1) ∧
      (serve C s e).2.accepted = true) ∨
    ((∃ u ∈ rowPayload C.log (logRow (C.log.addrToString addr) s), ¬u <+: p) ∧
      logRow (C.log.addrToString addr) (serve C s e).1 = logRow (C.log.addrToString addr) s ∧
      (serve C s e).2.accepted = false) := by
  obtain ⟨signed, heffect, hvalid, rfl⟩ := (validPayload_eq_some_iff hLog).mp h
  rw [serve_fst, accepted_serve, heffect, Effect.run, Effect.accepts]
  have hself : logRow (C.log.addrToString addr)
      { s with accountLogs := s.accountLogs.upsert (logRowOf e.now addr signed) }
        = some (logRowOf e.now addr signed) :=
    Table.find?_upsert_self s.accountLogs (logRowOf e.now addr signed)
  obtain ⟨hnone, happly⟩ | ⟨stored, hstored, ⟨heq, happly⟩ | ⟨-, hext, happly⟩ |
    ⟨hnot, -, happly⟩ | ⟨hnot, -, happly⟩⟩ := applyAccountLog_of_valid hLog e.now hvalid hrow <;>
    rw [happly]
  · refine Or.inl ⟨?_, ?_, ?_, rfl⟩
    · rw [hnone]
      intro u hu
      exact absurd hu (by simp)
    · rw [hself, rowPayload_logRowOf hLog]
    · rw [hself]
      exact validLogRow_logRowOf hLog e.now hvalid
  · refine Or.inl ⟨?_, hstored.trans (congrArg some heq), hrow, rfl⟩
    rw [hstored]
    intro u hu
    obtain rfl := Option.mem_some_iff.mp hu
    exact heq ▸ List.prefix_rfl
  · refine Or.inl ⟨?_, ?_, ?_, rfl⟩
    · rw [hstored]
      intro u hu
      obtain rfl := Option.mem_some_iff.mp hu
      exact hext
    · rw [hself, rowPayload_logRowOf hLog]
    · rw [hself]
      exact validLogRow_logRowOf hLog e.now hvalid
  · exact Or.inr ⟨⟨stored, hstored, hnot⟩, rfl, rfl⟩
  · exact Or.inr ⟨⟨stored, hstored, hnot⟩, rfl, rfl⟩

/-- Nothing else changes the log on file. -/
theorem logRow_of_no_submission (hLog : C.log.Laws) (s : Tables)
    (h : e.validPayload C addr = none) :
    logRow (C.log.addrToString addr) (serve C s e).1 = logRow (C.log.addrToString addr) s := by
  rw [logRow_serve]
  cases heffect : e.request.effect C with
  | accountLog addr' signed =>
    rw [Effect.onLogRow]
    cases hnew : C.log.newRecord addr' signed with
    | error err => rfl
    | ok candidate =>
      refine if_neg fun hkey ↦ ?_
      rw [recordKey, (hLog.newRecord_parts addr' signed candidate hnew).1] at hkey
      obtain rfl := hLog.addrToString_injective hkey
      have hvalid := (hLog.newRecord_ok_iff addr' signed).mp ⟨candidate, hnew⟩
      rw [(validPayload_eq_some_iff hLog).mpr
        ⟨signed, heffect, Bool.and_eq_true_iff.mpr hvalid, rfl⟩] at h
      exact absurd h (by simp)
  | nothing | keypackage _ | account _ | pruneKeyPackages _ _ | pruneAccounts _ => rfl

/-! ## The log as a register -/

variable (C addr) in
/-- A step of the service as an operation on the register of `addr`. Nothing evicts. -/
def logOp (e : Machine.Entry Tables Event (Response C)) : Register.Op Bytes :=
  match e.input.validPayload C addr with
  | some p => .offer p
  | none => .idle

variable (C addr) in
def logOps (events : List Event) : List (Register.Op Bytes) :=
  ((service C).trace Tables.empty events).map (logOp C addr)

/-- **The log on file follows a register ordered by extension.** -/
theorem logRow_simulation (hLog : C.log.Laws) (addr : C.log.AccountAddr) :
    Machine.Simulation (service C) (Register.register fun u v : Bytes ↦ u <+: v)
      (fun s ↦ ValidLogRow addr (logRow (C.log.addrToString addr) s))
      (fun s ↦ rowPayload C.log (logRow (C.log.addrToString addr) s)) (logOp C addr)
      (fun e ↦ e.output.accepted && (e.input.validPayload C addr).isSome) where
  inv_step s e hs := by
    change ValidLogRow addr (logRow (C.log.addrToString addr) (serve C s e).1)
    cases h : e.validPayload C addr with
    | some p =>
      obtain ⟨-, -, hvalid, -⟩ | ⟨-, hrow, -⟩ := logRow_of_submission hLog h hs
      · exact hvalid
      · rwa [hrow]
    | none => rwa [logRow_of_no_submission hLog s h]
  step s e hs := by
    change Register.step _ (rowPayload C.log (logRow (C.log.addrToString addr) s))
        (match e.validPayload C addr with | some p => .offer p | none => .idle)
      = (rowPayload C.log (logRow (C.log.addrToString addr) (serve C s e).1),
        (serve C s e).2.accepted && (e.validPayload C addr).isSome)
    cases h : e.validPayload C addr with
    | some p =>
      obtain ⟨hext, hpayload, -, hacc⟩ | ⟨⟨u, hu, hnot⟩, hrow, hacc⟩ :=
        logRow_of_submission hLog h hs
      · rw [hpayload, hacc]
        exact if_pos hext
      · rw [hrow, hacc]
        exact if_neg fun hext ↦ hnot (hext u hu)
    | none =>
      rw [logRow_of_no_submission hLog s h, Option.isSome_none, Bool.and_false]
      rfl

theorem evict_notMem_logOps (events : List Event) : Register.Op.evict ∉ logOps C addr events := by
  rw [logOps, List.mem_map]
  rintro ⟨entry, -, hop⟩
  rw [logOp] at hop
  split at hop <;> cases hop

theorem validLogRow_empty : ValidLogRow addr (logRow (C.log.addrToString addr) Tables.empty) := by
  intro r hr
  cases hr

theorem held_logOps (hLog : C.log.Laws) (events : List Event) :
    Register.held (· <+: ·) (logOps C addr events) = storedPayload C addr events :=
  (logRow_simulation hLog addr).run validLogRow_empty events

theorem value?_logOp (entry : Machine.Entry Tables Event (Response C)) :
    (logOp C addr entry).value? = entry.input.validPayload C addr := by
  rw [logOp]
  cases entry.input.validPayload C addr <;> rfl

theorem offered_logOps (events : List Event) :
    Register.offered (logOps C addr events) = submittedPayloads C addr events := by
  rw [Register.offered, logOps, List.filterMap_map, submittedPayloads]
  conv_rhs => rw [← (service C).trace_map_input Tables.empty events, List.filterMap_map]
  exact List.filterMap_congr fun entry _ ↦ value?_logOp entry

/-- A submission that is acknowledged was authentic and decodable. -/
theorem validPayload_of_accepted (hLog : C.log.Laws) (hacc : (serve C s e).2.accepted = true) :
    e.validPayload C addr = (e.accountLog C addr).map C.log.payload := by
  rw [Event.validPayload]
  cases hlog : e.accountLog C addr with
  | none => rfl
  | some signed =>
    have heffect := (accountLog_eq_some_iff hLog).mp hlog
    cases hvalid : C.log.signatureValid addr signed && C.log.logDecodes signed with
    | true => rw [Option.filter_some_pos (by exact hvalid)]
    | false =>
      obtain ⟨err, happly⟩ := applyAccountLog_of_invalid hLog e.now s hvalid
      rw [accepted_serve, heffect, Effect.accepts, happly] at hacc
      cases hacc

theorem accepted_logOps (hLog : C.log.Laws) (events : List Event) :
    Register.accepted (· <+: ·) (logOps C addr events) = acknowledgedPayloads C addr events := by
  have htrace : (Register.register (· <+: ·)).trace none (logOps C addr events) = _ :=
    (logRow_simulation hLog addr).trace validLogRow_empty events
  rw [Register.accepted, htrace, List.filterMap_map, acknowledgedPayloads]
  refine List.filterMap_congr fun entry hentry ↦ ?_
  rw [Function.comp_apply, value?_logOp]
  cases hacc : entry.output.accepted with
  | false => rfl
  | true =>
    rw [(service C).eq_entry_of_mem_trace hentry] at hacc
    have hvalid : entry.input.validPayload C addr = _ := validPayload_of_accepted hLog hacc
    rw [hvalid]
    cases entry.input.accountLog C addr <;> rfl

theorem logOps_append (past future : List Event) :
    ∃ more, logOps C addr (past ++ future) = logOps C addr past ++ more ∧
      Register.Op.evict ∉ more := by
  have hsplit : logOps C addr (past ++ future) = logOps C addr past
      ++ ((service C).trace (tablesAfter C past) future).map (logOp C addr) := by
    rw [logOps, Machine.trace_append, List.map_append]
    rfl
  have hevict : Register.Op.evict ∉ logOps C addr (past ++ future) := evict_notMem_logOps _
  refine ⟨_, hsplit, fun hmem ↦ hevict ?_⟩
  rw [hsplit]
  exact List.mem_append_right _ hmem

/-! ## Growth -/

/-- What is on file is only ever extended. -/
theorem storedPayload_append (hLog : C.log.Laws) {past : List Event} {p : Bytes}
    (hp : storedPayload C addr past = some p) (future : List Event) :
    ∃ p', storedPayload C addr (past ++ future) = some p' ∧ p <+: p' := by
  rw [← held_logOps hLog] at hp ⊢
  obtain ⟨more, happend, hmore⟩ := logOps_append past future
  rw [happend]
  exact Register.held_append hp hmore

/-- What was acknowledged is a prefix of what is on file. -/
theorem acknowledged_le_stored (hLog : C.log.Laws) {events : List Event} {p : Bytes}
    (hp : p ∈ acknowledgedPayloads C addr events) :
    ∃ p', storedPayload C addr events = some p' ∧ p <+: p' := by
  rw [← accepted_logOps hLog] at hp
  rw [← held_logOps hLog]
  exact Register.exists_held_ge_of_accepted (evict_notMem_logOps events) hp

theorem storedPayload_mem_acknowledged (hLog : C.log.Laws) {events : List Event} {p : Bytes}
    (hp : storedPayload C addr events = some p) : p ∈ acknowledgedPayloads C addr events := by
  rw [← held_logOps hLog] at hp
  rw [← accepted_logOps hLog]
  exact Register.held_mem_accepted hp

/-- If the submitted logs are comparable, the one on file extends them all. -/
theorem submitted_le_stored (hLog : C.log.Laws) {events : List Event}
    (hchain : ∀ p ∈ submittedPayloads C addr events, ∀ q ∈ submittedPayloads C addr events,
      p <+: q ∨ q <+: p) {p : Bytes} (hp : p ∈ submittedPayloads C addr events) :
    ∃ p', storedPayload C addr events = some p' ∧ p <+: p' := by
  rw [← offered_logOps] at hchain hp
  rw [← held_logOps hLog]
  exact Register.exists_held_ge_of_chain (evict_notMem_logOps events) hchain hp

/-- **Account logs are append-only.** What is on file for an account grows by extension, it extends
everything acknowledged, and it is the longest log acknowledged. If all valid logs submitted for
the account are comparable, it is the longest log submitted. -/
theorem accountLogs_appendOnly (hLog : C.log.Laws) (addr : C.log.AccountAddr) :
    (∀ past future p, storedPayload C addr past = some p →
      ∃ p', storedPayload C addr (past ++ future) = some p' ∧ p <+: p') ∧
    (∀ past future, ∀ p ∈ acknowledgedPayloads C addr past,
      ∃ p', storedPayload C addr (past ++ future) = some p' ∧ p <+: p') ∧
    (∀ events p, storedPayload C addr events = some p →
      p ∈ acknowledgedPayloads C addr events ∧
        ∀ q ∈ acknowledgedPayloads C addr events, q.length ≤ p.length) ∧
    ∀ events, (∀ p ∈ submittedPayloads C addr events, ∀ q ∈ submittedPayloads C addr events,
        p <+: q ∨ q <+: p) →
      submittedPayloads C addr events ≠ [] →
        ∃ p ∈ submittedPayloads C addr events, storedPayload C addr events = some p ∧
          ∀ q ∈ submittedPayloads C addr events, q.length ≤ p.length := by
  refine ⟨fun past future p hp ↦ storedPayload_append hLog hp future, ?_, ?_, ?_⟩
  · intro past future p hp
    obtain ⟨p', hp', hpre⟩ := acknowledged_le_stored hLog hp
    obtain ⟨p'', hp'', hpre'⟩ := storedPayload_append hLog hp' future
    exact ⟨p'', hp'', hpre.trans hpre'⟩
  · intro events p hp
    refine ⟨storedPayload_mem_acknowledged hLog hp, fun q hq ↦ ?_⟩
    obtain ⟨p', hp', hpre⟩ := acknowledged_le_stored hLog hq
    obtain rfl : p' = p := Option.some.inj (hp'.symm.trans hp)
    exact hpre.length_le
  · intro events hchain hne
    obtain ⟨q, hq⟩ := List.exists_mem_of_ne_nil _ hne
    obtain ⟨p, hp, -⟩ := submitted_le_stored hLog hchain hq
    refine ⟨p, ?_, hp, fun q hq ↦ ?_⟩
    · rw [← offered_logOps]
      refine Register.mem_offered_of_mem_accepted (r := (· <+: ·)) ?_
      rw [accepted_logOps hLog]
      exact storedPayload_mem_acknowledged hLog hp
    · obtain ⟨p', hp', hpre⟩ := submitted_le_stored hLog hchain hq
      obtain rfl : p' = p := Option.some.inj (hp'.symm.trans hp)
      exact hpre.length_le

namespace Reference

/-- An account's logs, out of order and with a retry, and then one that forks. -/
def endorsing : List Event :=
  [⟨0, postAccountLog accountLog0⟩, ⟨1000000, postAccountLog accountLog23⟩,
    ⟨2000000, postAccountLog accountLog2⟩, ⟨3000000, postAccountLog accountLog23⟩,
    ⟨4000000, postAccountLog accountLog3⟩]

theorem accountLogs_appendOnly_endorsing :
    accountLog23.payload ∈ acknowledgedPayloads crates publicKey endorsing ∧
      ∀ q ∈ acknowledgedPayloads crates publicKey endorsing,
        q.length ≤ accountLog23.payload.length :=
  (accountLogs_appendOnly (C := crates) log_laws publicKey).2.2.1 endorsing accountLog23.payload
    (by decide +kernel)

end Reference

end ChatStore
