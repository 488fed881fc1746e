import ChatStore.Library.Register
import ChatStore.Reference
import ChatStore.Views

/-!
# Replays of account bundles

The store takes an account bundle when its lamport is greater than that of the row on file, so a
replay is refused for as long as the row is there. A prune removes the row and the lamport with it,
and from then on a bundle that was accepted long ago is accepted again.

`antiReplay_iff` says exactly which runs are safe: those in which whatever is submitted for an
account that has no row is newer than everything valid submitted for it before. The account's row
is a `Register` of lamports, and a prune is its eviction.
-/

namespace ChatStore

open Library Store

variable (C : Crates) (k : FixedBytes 32)

/-! ## Submissions for one account -/

/-- The bundle that an event submits for the account `k`. -/
def Event.accountBundle (e : Event) : Option Bundle :=
  match e.request.effect C with
  | .account b => if b.key = k then some b else none
  | _ => none

/-- The lamport of a valid submission for the account `k`. -/
def Event.accountLamport (e : Event) : Option UInt64 :=
  (e.accountBundle C k).bind (Bundle.validLamport C)

/-- The lamports of the valid submissions for `k`, in order. -/
def submittedLamports (events : List Event) : List UInt64 :=
  events.filterMap (Event.accountLamport C k)

/-- The accepted bundles of the account `k`, in order. -/
def acceptedBundles (events : List Event) : List Bundle :=
  ((service C).trace Tables.empty events).filterMap fun e ↦
    if e.output.accepted then e.input.accountBundle C k else none

/-- The row of the account `k` after a run. -/
def accountRowAfter (events : List Event) : Option AccountBundleRow :=
  accountRow (C.hexEncode k) (tablesAfter C events)

/-- Both bundles have a lamport, and that of the second is greater. -/
def Newer (b b' : Bundle) : Prop :=
  ∃ lamport lamport', payloadLamport b.payload = some lamport ∧
    payloadLamport b'.payload = some lamport' ∧ lamport < lamport'

/-- Replays of the account's bundles have no effect in a run. -/
structure AntiReplay (events : List Event) : Prop where
  /-- An accepted bundle is newer than every bundle accepted before it. -/
  newer : (acceptedBundles C k events).Pairwise Newer
  /-- At any moment the bundle on file is at least as new as every bundle accepted so far. -/
  served : ∀ past, past <+: events → ∀ row, accountRowAfter C k past = some row →
    ∃ stored, payloadLamport row.payload = some stored ∧
      ∀ b ∈ acceptedBundles C k past, ∃ lamport, payloadLamport b.payload = some lamport ∧
        lamport ≤ stored
  /-- Submitting an accepted bundle again leaves the row as it is, with its timestamp. -/
  clock : ∀ past e b, past ++ [e] <+: events → e.accountBundle C k = some b →
    b ∈ acceptedBundles C k past → accountRowAfter C k (past ++ [e]) = accountRowAfter C k past

/-- Whatever is validly submitted for `k` while it has no row is newer than everything validly
submitted for it before. -/
def FreshWhenAbsent (events : List Event) : Prop :=
  ∀ past e, past ++ [e] <+: events → accountRowAfter C k past = none →
    ∀ lamport, e.accountLamport C k = some lamport →
      ∀ earlier ∈ submittedLamports C k past, earlier < lamport

variable {C k}

/-! ## What one event does to the account's row -/

theorem accountBundle_eq_some_iff {e : Event} {b : Bundle} :
    e.accountBundle C k = some b ↔ e.request.effect C = .account b ∧ b.key = k := by
  rw [Event.accountBundle]
  cases e.request.effect C with
  | account b' =>
    dsimp only
    split_ifs with hkey
    · rw [Option.some.injEq, Effect.account.injEq]
      exact ⟨fun h ↦ ⟨h, h ▸ hkey⟩, fun h ↦ h.1⟩
    · rw [Effect.account.injEq]
      exact ⟨fun h ↦ absurd h (by simp), fun h ↦ absurd (h.1 ▸ h.2) hkey⟩
  | nothing | keypackage _ | accountLog _ _ | pruneKeyPackages _ _ | pruneAccounts _ => simp

/-- A submission that is accepted is valid. -/
theorem exists_validLamport {s : Tables} {e : Event} {b : Bundle}
    (h : e.accountBundle C k = some b) (hacc : (serve C s e).2.accepted = true) :
    ∃ lamport, b.validLamport C = some lamport := by
  rw [accepted_serve, (accountBundle_eq_some_iff.mp h).1, Effect.accepts, isOk_iff] at hacc
  obtain ⟨lamport, hvalid, -⟩ := applyAccount_eq_ok_iff.mp hacc
  exact ⟨lamport, hvalid⟩

theorem accountLamport_of_bundle {e : Event} {b : Bundle} (h : e.accountBundle C k = some b) :
    e.accountLamport C k = b.validLamport C := by
  rw [Event.accountLamport, h]
  rfl

/-- A valid submission is stale and changes nothing, or is stored. -/
theorem accountRow_of_submission (s : Tables) {e : Event} {lamport : UInt64}
    (h : e.accountLamport C k = some lamport) :
    ∃ b, e.accountBundle C k = some b ∧ payloadLamport b.payload = some lamport ∧
      ((isStale lamport (accountRow (C.hexEncode k) s) = true ∧
        accountRow (C.hexEncode k) (serve C s e).1 = accountRow (C.hexEncode k) s ∧
        (serve C s e).2.accepted = false) ∨
      (isStale lamport (accountRow (C.hexEncode k) s) = false ∧
        accountRow (C.hexEncode k) (serve C s e).1
          = some (upsertedRow e.now (C.hexEncode k) ⟨b.payload, b.signature, 0⟩) ∧
        (serve C s e).2.accepted = true)) := by
  obtain ⟨b, hb, hvalid⟩ := Option.bind_eq_some_iff.mp h
  obtain ⟨heffect, rfl⟩ := accountBundle_eq_some_iff.mp hb
  refine ⟨b, hb, (validLamport_eq_some_iff.mp hvalid).2, ?_⟩
  obtain ⟨b', lamport', heffect', -, hvalid', hnew, hacc, hrow⟩ | ⟨retention, hprune, -⟩ |
    ⟨hrow, -, hrefused⟩ := accountRow_cases (C := C) (C.hexEncode b.key) s e
  · obtain rfl := Effect.account.inj (heffect.symm.trans heffect')
    obtain rfl := Option.some.inj (hvalid.symm.trans hvalid')
    exact Or.inr ⟨hnew, hrow, hacc⟩
  · rw [heffect] at hprune
    exact absurd hprune (by simp)
  · have hacc := hrefused b heffect rfl
    refine Or.inl ⟨eq_true_of_ne_false fun hnew ↦ ?_, hrow, hacc⟩
    -- A newer submission would have been accepted.
    rw [accepted_serve, heffect, Effect.accepts] at hacc
    refine Bool.eq_false_iff.mp hacc (isOk_iff.mpr (applyAccount_eq_ok_iff.mpr ?_))
    exact ⟨lamport, hvalid, hnew⟩

/-- An event that submits nothing valid for the account is no accepted submission for it. -/
theorem not_accepted_of_no_submission (hHex : C.HexLaws) {s : Tables} {e : Event}
    (h : e.accountLamport C k = none) :
    ∀ b, e.request.effect C = .account b → b.keyHex C = C.hexEncode k →
      (serve C s e).2.accepted = false := by
  intro b heffect hkey
  have hbundle : e.accountBundle C k = some b :=
    accountBundle_eq_some_iff.mpr ⟨heffect, Subtype.ext (hHex.encode_injective hkey)⟩
  refine Bool.eq_false_iff.mpr fun hacc ↦ ?_
  obtain ⟨lamport, hvalid⟩ := exists_validLamport hbundle hacc
  rw [accountLamport_of_bundle hbundle, hvalid] at h
  exact absurd h (by simp)

/-- Such an event leaves the row alone, unless it is a prune. -/
theorem accountRow_of_idle (hHex : C.HexLaws) (s : Tables) {e : Event}
    (h : e.accountLamport C k = none)
    (hprune : ∀ retention, e.request.effect C ≠ .pruneAccounts retention) :
    accountRow (C.hexEncode k) (serve C s e).1 = accountRow (C.hexEncode k) s := by
  obtain ⟨b, -, heffect, hkey, -, -, hacc, -⟩ | ⟨retention, heffect, -⟩ | ⟨hrow, -, -⟩ :=
    accountRow_cases (C := C) (C.hexEncode k) s e
  · rw [not_accepted_of_no_submission hHex h b heffect hkey] at hacc
    exact absurd hacc (by simp)
  · exact absurd heffect (hprune retention)
  · exact hrow

/-- Such an event leaves the row alone or removes it. -/
theorem accountRow_of_no_submission (hHex : C.HexLaws) (s : Tables) {e : Event}
    (h : e.accountLamport C k = none) :
    accountRow (C.hexEncode k) (serve C s e).1 = accountRow (C.hexEncode k) s ∨
      accountRow (C.hexEncode k) (serve C s e).1 = none :=
  accountRow_not_accepted (not_accepted_of_no_submission hHex h)

/-! ## The row as a register -/

/-- The lamport of a row, as a version. -/
def version (row : Option AccountBundleRow) : Option ℕ := (storedLamport row).map UInt64.toNat

/-- The rows of an account have a lamport. -/
def HasLamport (row : Option AccountBundleRow) : Prop :=
  ∀ r ∈ row, ∃ lamport, payloadLamport r.payload = some lamport

variable (C k) in
/-- A step of the service as an operation on the register of `k`. -/
def registerOp (e : Machine.Entry Tables Event (Response C)) : Register.Op ℕ :=
  match e.input.accountLamport C k with
  | some lamport => .offer lamport.toNat
  | none => if accountRow (C.hexEncode k) e.after = none then .evict else .idle

theorem version_upsertedRow {now : SystemTime} {accountPub : String} {b : Bundle}
    {lamport : UInt64} (h : payloadLamport b.payload = some lamport) :
    version (some (upsertedRow now accountPub ⟨b.payload, b.signature, 0⟩))
      = some lamport.toNat := by
  simp [version, storedLamport, upsertedRow, h]

theorem isStale_eq_false_iff {lamport : UInt64} {row : Option AccountBundleRow} :
    isStale lamport row = false ↔ ∀ u ∈ version row, u < lamport.toNat := by
  rw [isStale, version]
  cases storedLamport row with
  | none => simp
  | some stored => simp [UInt64.le_iff_toNat_le]

theorem version_eq_none_iff {row : Option AccountBundleRow} (h : HasLamport row) :
    version row = none ↔ row = none := by
  cases row with
  | none => simp [version, storedLamport]
  | some r =>
    obtain ⟨lamport, hlamport⟩ := h r rfl
    simp [version, storedLamport, hlamport]

/-- **The account's row follows a register.** -/
theorem accountRow_simulation (hHex : C.HexLaws) (k : FixedBytes 32) :
    Machine.Simulation (service C) (Register.register fun u v : ℕ ↦ u < v)
      (fun s ↦ HasLamport (accountRow (C.hexEncode k) s))
      (fun s ↦ version (accountRow (C.hexEncode k) s)) (registerOp C k)
      (fun e ↦ e.output.accepted && (e.input.accountLamport C k).isSome) where
  inv_step s e hs := by
    change HasLamport (accountRow (C.hexEncode k) (serve C s e).1)
    cases h : e.accountLamport C k with
    | some lamport =>
      obtain ⟨b, -, hb, ⟨-, hrow, -⟩ | ⟨-, hrow, -⟩⟩ := accountRow_of_submission s h
      · rwa [hrow]
      · rw [hrow]
        intro r hr
        obtain rfl := Option.mem_some_iff.mp hr
        exact ⟨lamport, hb⟩
    | none =>
      rcases accountRow_of_no_submission hHex s h with hrow | hrow
      · rwa [hrow]
      · rw [hrow]
        intro r hr
        exact absurd hr (by simp)
  step s e hs := by
    change Register.step (· < ·) (version (accountRow (C.hexEncode k) s))
        (registerOp C k ((service C).entry s e))
      = (version (accountRow (C.hexEncode k) (serve C s e).1),
        (serve C s e).2.accepted && (e.accountLamport C k).isSome)
    have hop : registerOp C k ((service C).entry s e) = match e.accountLamport C k with
        | some lamport => .offer lamport.toNat
        | none => if accountRow (C.hexEncode k) (serve C s e).1 = none then .evict else .idle := rfl
    rw [hop]
    cases h : e.accountLamport C k with
    | some lamport =>
      obtain ⟨b, -, hb, ⟨hstale, hrow, hacc⟩ | ⟨hstale, hrow, hacc⟩⟩ := accountRow_of_submission s h
      · have hnot : ¬∀ u ∈ version (accountRow (C.hexEncode k) s), u < lamport.toNat := by
          rw [← isStale_eq_false_iff, hstale]
          simp
        rw [hrow, hacc]
        exact if_neg hnot
      · rw [hrow, hacc, version_upsertedRow hb]
        exact if_pos (isStale_eq_false_iff.mp hstale)
    | none =>
      dsimp only
      rw [Option.isSome_none, Bool.and_false]
      split_ifs with hnone
      · rw [hnone]
        rfl
      · rcases accountRow_of_no_submission hHex s h with hrow | hrow
        · rw [hrow]
          rfl
        · exact absurd hrow hnone

variable (C k) in
/-- A run as a list of operations on the register of `k`. -/
def registerOps (events : List Event) : List (Register.Op ℕ) :=
  ((service C).trace Tables.empty events).map (registerOp C k)

theorem hasLamport_empty : HasLamport (accountRow (C.hexEncode k) Tables.empty) := by
  intro r hr
  cases hr

theorem held_registerOps (hHex : C.HexLaws) (events : List Event) :
    Register.held (· < ·) (registerOps C k events) = version (accountRowAfter C k events) :=
  (accountRow_simulation hHex k).run hasLamport_empty events

theorem hasLamport_after (hHex : C.HexLaws) (events : List Event) :
    HasLamport (accountRowAfter C k events) :=
  (service C).run_invariant (accountRow_simulation hHex k).inv_step hasLamport_empty events

theorem value?_registerOp (e : Machine.Entry Tables Event (Response C)) :
    (registerOp C k e).value? = (e.input.accountLamport C k).map UInt64.toNat := by
  rw [registerOp]
  cases e.input.accountLamport C k with
  | some lamport => rfl
  | none => dsimp only; split_ifs <;> rfl

theorem offered_registerOps (events : List Event) :
    Register.offered (registerOps C k events)
      = (submittedLamports C k events).map UInt64.toNat := by
  rw [Register.offered, registerOps, List.filterMap_map, submittedLamports, List.map_filterMap]
  conv_rhs => rw [← (service C).trace_map_input Tables.empty events, List.filterMap_map]
  exact List.filterMap_congr fun e _ ↦ value?_registerOp e

theorem accepted_registerOps (hHex : C.HexLaws) (events : List Event) :
    Register.accepted (· < ·) (registerOps C k events) = (acceptedBundles C k events).filterMap
      fun b ↦ (b.validLamport C).map UInt64.toNat := by
  have htrace : (Register.register (· < ·)).trace none (registerOps C k events) = _ :=
    (accountRow_simulation hHex k).trace hasLamport_empty events
  rw [Register.accepted, htrace, List.filterMap_map, acceptedBundles, List.filterMap_filterMap]
  refine List.filterMap_congr fun e _ ↦ ?_
  rw [Function.comp_apply, value?_registerOp, Event.accountLamport]
  cases e.output.accepted with
  | false => rfl
  | true =>
    cases e.input.accountBundle C k with
    | none => rfl
    | some b => cases hvalid : b.validLamport C <;> simp [hvalid]

theorem registerOps_concat (events : List Event) (e : Event) :
    registerOps C k (events ++ [e]) = registerOps C k events
      ++ [registerOp C k ((service C).entry (tablesAfter C events) e)] := by
  rw [registerOps, Machine.trace_concat, List.map_append, List.map_singleton]
  rfl

theorem freshWhenEmpty_registerOps (hHex : C.HexLaws) {events : List Event} :
    Register.FreshWhenEmpty (registerOps C k events) ↔ FreshWhenAbsent C k events := by
  constructor
  · intro h past e hpre habsent lamport hlamport earlier hearlier
    have hop : registerOp C k ((service C).entry (tablesAfter C past) e)
        = .offer lamport.toNat := by
      simp only [registerOp, Machine.entry, hlamport]
    have hpre' : registerOps C k past ++ [.offer lamport.toNat] <+: registerOps C k events := by
      rw [← hop, ← registerOps_concat]
      exact ((service C).trace_mono hpre).map _
    have hempty : Register.held (· < ·) (registerOps C k past) = none := by
      rw [held_registerOps hHex, habsent]
      rfl
    refine UInt64.lt_iff_toNat_lt.mpr (h _ _ hpre' hempty earlier.toNat ?_)
    rw [offered_registerOps]
    exact List.mem_map_of_mem hearlier
  · intro h past version hpre hempty u hu
    obtain ⟨js, hjs, heq⟩ := (service C).exists_of_initial_map_trace hpre
    change past ++ [.offer version] = registerOps C k js at heq
    rcases List.eq_nil_or_concat' js with rfl | ⟨before, e, rfl⟩
    · simp [registerOps] at heq
    · rw [registerOps_concat] at heq
      obtain ⟨rfl, hop⟩ := List.append_inj' heq rfl
      rw [held_registerOps hHex, version_eq_none_iff (hasLamport_after hHex before)] at hempty
      have hversion := congrArg Register.Op.value? (List.singleton_inj.mp hop).symm
      rw [value?_registerOp] at hversion
      obtain ⟨lamport, hlamport, rfl⟩ := Option.map_eq_some_iff.mp hversion
      rw [offered_registerOps] at hu
      obtain ⟨earlier, hearlier, rfl⟩ := List.mem_map.mp hu
      exact UInt64.lt_iff_toNat_lt.mp (h before e hjs hempty lamport hlamport earlier hearlier)

/-! ## Safe runs -/

theorem exists_validLamport_of_accepted {events : List Event} {b : Bundle}
    (hb : b ∈ acceptedBundles C k events) : ∃ lamport, b.validLamport C = some lamport := by
  induction events using List.reverseRecOn with
  | nil => cases hb
  | append_singleton events e ih =>
    rw [acceptedBundles, Machine.filterMap_trace_concat] at hb
    rcases List.mem_append.mp hb with hb | hb
    · exact ih hb
    · rw [Option.mem_toList, Option.ite_none_right_eq_some] at hb
      exact exists_validLamport hb.2 hb.1

theorem pairwise_newer_iff (hHex : C.HexLaws) {events : List Event} :
    (acceptedBundles C k events).Pairwise Newer
      ↔ (Register.accepted (· < ·) (registerOps C k events)).Pairwise (· < ·) := by
  rw [accepted_registerOps hHex, List.pairwise_filterMap]
  refine List.Pairwise.iff_of_mem fun {b b'} hb hb' ↦ ?_
  obtain ⟨lamport, hvalid⟩ := exists_validLamport_of_accepted hb
  obtain ⟨lamport', hvalid'⟩ := exists_validLamport_of_accepted hb'
  have hl := (validLamport_eq_some_iff.mp hvalid).2
  have hl' := (validLamport_eq_some_iff.mp hvalid').2
  simp [Newer, hvalid, hvalid', hl, hl', UInt64.lt_iff_toNat_lt]

/-- In a safe run the row carries the greatest lamport submitted so far. -/
theorem FreshWhenAbsent.submitted_le (hHex : C.HexLaws) {events : List Event}
    (h : FreshWhenAbsent C k events) {row : AccountBundleRow}
    (hrow : accountRowAfter C k events = some row) : ∃ stored,
      payloadLamport row.payload = some stored ∧
        ∀ lamport ∈ submittedLamports C k events, lamport ≤ stored := by
  obtain ⟨stored, hstored⟩ := hasLamport_after hHex events row hrow
  refine ⟨stored, hstored, fun lamport hlamport ↦ ?_⟩
  have hheld : Register.held (· < ·) (registerOps C k events) = some stored.toNat := by
    rw [held_registerOps hHex, hrow]
    simp [version, storedLamport, hstored]
  refine UInt64.le_iff_toNat_le.mpr
    (((freshWhenEmpty_registerOps hHex).mpr h).le_held ?_ hheld)
  rw [offered_registerOps]
  exact List.mem_map_of_mem hlamport

theorem FreshWhenAbsent.mono {events past : List Event} (h : FreshWhenAbsent C k events)
    (hpre : past <+: events) : FreshWhenAbsent C k past :=
  fun before e hbefore ↦ h before e (hbefore.trans hpre)

/-- The lamport of an accepted bundle was submitted. -/
theorem mem_submittedLamports_of_accepted {events : List Event} {b : Bundle} {lamport : UInt64}
    (hb : b ∈ acceptedBundles C k events) (hvalid : b.validLamport C = some lamport) :
    lamport ∈ submittedLamports C k events := by
  obtain ⟨entry, hentry, hsome⟩ := List.mem_filterMap.mp hb
  rw [Option.ite_none_right_eq_some] at hsome
  refine List.mem_filterMap.mpr ⟨entry.input, ?_, ?_⟩
  · rw [← (service C).trace_map_input Tables.empty events]
    exact List.mem_map_of_mem hentry
  · rw [Event.accountLamport, hsome.2]
    exact hvalid

/-- **Which runs are safe from replays.** Replays have no effect in a run exactly when whatever is
submitted for the account while it has no row is newer than all that was submitted before. -/
theorem antiReplay_iff (hHex : C.HexLaws) (events : List Event) :
    AntiReplay C k events ↔ FreshWhenAbsent C k events := by
  rw [← freshWhenEmpty_registerOps hHex]
  constructor
  · intro h
    exact Register.pairwise_accepted_iff.mp ((pairwise_newer_iff hHex).mp h.newer)
  · intro h
    have hnewer := (pairwise_newer_iff hHex).mpr (Register.pairwise_accepted_iff.mpr h)
    have hfresh := (freshWhenEmpty_registerOps hHex).mp h
    refine ⟨hnewer, ?_, ?_⟩
    · intro past hpast row hrow
      obtain ⟨stored, hstored, hmax⟩ := (hfresh.mono hpast).submitted_le hHex hrow
      refine ⟨stored, hstored, fun b hb ↦ ?_⟩
      obtain ⟨lamport, hvalid⟩ := exists_validLamport_of_accepted hb
      exact ⟨lamport, (validLamport_eq_some_iff.mp hvalid).2,
        hmax lamport (mem_submittedLamports_of_accepted hb hvalid)⟩
    · intro past e b hpre hbundle hb
      obtain ⟨lamport, hvalid⟩ := exists_validLamport_of_accepted hb
      have hlamport : e.accountLamport C k = some lamport :=
        (accountLamport_of_bundle hbundle).trans hvalid
      have hmem := mem_submittedLamports_of_accepted hb hvalid
      rw [accountRowAfter, tablesAfter_concat]
      obtain ⟨-, -, -, ⟨-, hrow, -⟩ | ⟨hstale, -, -⟩⟩ :=
        accountRow_of_submission (tablesAfter C past) hlamport
      · exact hrow
      · -- The replay would be stored: then its own lamport is older than itself.
        cases hpast : accountRowAfter C k past with
        | none => exact absurd (hfresh past e hpre hpast lamport hlamport lamport hmem) (by simp)
        | some row =>
          obtain ⟨stored, hstored, hmax⟩ := (hfresh.mono
            ((List.prefix_append past [e]).trans hpre)).submitted_le hHex hpast
          have hnot : isStale lamport (some row) = true :=
            isStale_iff.mpr ⟨stored, hstored, hmax lamport hmem⟩
          rw [accountRowAfter] at hpast
          rw [hpast, hnot] at hstale
          exact absurd hstale (by simp)

/-! ## A run that is not safe -/

namespace Reference

/-- An account publishes twice. A day later its row is pruned, and its first bundle replayed. -/
def replayAfterPrune : List Event :=
  [⟨0, deliverAccount accountBundle5⟩,
    ⟨1000000000, deliverAccount accountBundle6⟩,
    ⟨86400000000000, .pruneAccounts ⟨3600, 0⟩⟩,
    ⟨86400000000000, deliverAccount accountBundle5⟩]

/-- The older bundle is accepted again, and served. -/
theorem not_antiReplay : acceptedBundles crates publicKey replayAfterPrune
      = [accountBundle5, accountBundle6, accountBundle5] ∧
    (accountRowAfter crates publicKey replayAfterPrune).map AccountBundleRow.payload
      = some accountBundle5.payload ∧
    ¬AntiReplay crates publicKey replayAfterPrune := by
  have haccepted : acceptedBundles crates publicKey replayAfterPrune
      = [accountBundle5, accountBundle6, accountBundle5] := by decide +kernel
  refine ⟨haccepted, by decide +kernel, fun h ↦ ?_⟩
  have hnewer := h.newer
  rw [haccepted] at hnewer
  obtain ⟨lamport, lamport', h6, h5, hlt⟩ :=
    List.rel_of_pairwise_cons (List.pairwise_cons.mp hnewer).2 List.mem_cons_self
  have h6' : payloadLamport accountBundle6.payload = some 6 := by decide +kernel
  have h5' : payloadLamport accountBundle5.payload = some 5 := by decide +kernel
  rw [h6', Option.some.injEq] at h6
  rw [h5', Option.some.injEq] at h5
  subst h6 h5
  exact absurd hlt (by decide)

/-- The same replay while the account still has its row. -/
def replayInTime : List Event :=
  [⟨0, deliverAccount accountBundle5⟩, ⟨1000000000, deliverAccount accountBundle6⟩,
    ⟨2000000000, deliverAccount accountBundle5⟩]

theorem antiReplay_replayInTime : AntiReplay crates publicKey replayInTime := by
  refine (antiReplay_iff hexLaws replayInTime).mpr ?_
  refine Machine.forall_moment_cons.mpr ⟨?_, Machine.forall_moment_cons.mpr
    ⟨?_, Machine.forall_moment_cons.mpr ⟨?_, Machine.forall_moment_nil⟩⟩⟩
  · intro _ lamport _ earlier hearlier
    cases hearlier
  · intro habsent
    exact absurd habsent (by decide +kernel)
  · intro habsent
    exact absurd habsent (by decide +kernel)

end Reference

end ChatStore
