import ChatStore.Reference
import ChatStore.Views

/-!
# Isolation between identities

What the service holds and answers for one key depends on that key's own submissions to the
resource and on the prunes of its table. Two runs that agree on these can differ in anything else.

For each resource the view of the key and the relevant events form an unwinding: an event that is
not relevant leaves the view alone, and what a relevant one does to the view, and how it is
answered, depends on the view only.
-/

namespace ChatStore

open Library Store

variable (C : Crates)

/-- A key is isolated: its view, what a fetch for it returns and the answers to the relevant events
are the same in any two runs with the same relevant events. -/
def Isolated {ν φ : Type} (view : Tables → ν) (fetch : Tables → φ) (relevant : Event → Bool) :
    Prop :=
  ∀ (s s' : Tables) (events events' : List Event), view s = view s' →
    events.filter relevant = events'.filter relevant →
    view ((service C).run s events) = view ((service C).run s' events') ∧
      fetch ((service C).run s events) = fetch ((service C).run s' events') ∧
      (service C).answers relevant s events = (service C).answers relevant s' events'

/-! ## Relevant events -/

/-- The event submits a keypackage for `k`, or prunes keypackages. -/
def Event.concernsDevice (k : FixedBytes 32) (e : Event) : Bool :=
  match e.request with
  | .submitKeyPackage req => C.hexDecode req.deviceId = some k.val
  | .ingestKeypackage bytes =>
    (C.decodeKeyPackage bytes).map KeyPackageSubmissionV1.deviceId = some k.val
  | .pruneKeyPackages _ _ => true
  | _ => false

/-- The event submits an account bundle for `k`, or prunes account bundles. -/
def Event.concernsAccount (k : FixedBytes 32) (e : Event) : Bool :=
  match e.request with
  | .submitAccount req => C.hexDecode req.accountPub = some k.val
  | .ingestAccount bytes =>
    (C.decodeAccount bytes).map AccountSubmissionV1.accountPub = some k.val
  | .pruneAccounts _ => true
  | _ => false

/-- The event submits an account log for `addr`. Logs are not pruned. -/
def Event.concernsAccountLog (addr : C.log.AccountAddr) (e : Event) : Bool :=
  match e.request with
  | .submitAccountLog accountAddr _ =>
    (C.log.parseAddr accountAddr).map C.log.addrToString = some (C.log.addrToString addr)
  | _ => false

variable {C}

theorem isolated_of_unwinding {ν φ : Type} {view : Tables → ν} {fetch : Tables → φ}
    {relevant : Event → Bool} (h : (service C).Unwinding view relevant)
    (hfetch : ∀ s s', view s = view s' → fetch s = fetch s') : Isolated C view fetch relevant := by
  intro s s' events events' hs hevents
  have hview := h.run hs hevents
  exact ⟨hview, hfetch _ _ hview, h.answers hs hevents⟩

/-! ## Devices -/

variable {k : FixedBytes 32} {e : Event} {b : Bundle}

theorem concernsDevice_of_effect (h : e.request.effect C = .keypackage b) :
    e.concernsDevice C k = true ↔ b.key = k := by
  obtain ⟨now, request⟩ := e
  have heffect : request.HasEffect C (.keypackage b) := h ▸ hasEffect request
  cases heffect with
  | postKeyPackage hdecode =>
    have hkey := (decodeBundle_eq_ok_iff.mp hdecode).1
    simp [Event.concernsDevice, hkey, Subtype.ext_iff]
  | deliverKeyPackage hwire hbundle =>
    have hkey := (fromBytes_eq_ok_iff.mp hbundle).1
    simp [Event.concernsDevice, hwire, ← hkey, Subtype.ext_iff]

/-- A relevant event has an effect on the device or none at all. -/
theorem effect_of_concernsDevice (h : e.concernsDevice C k = true) :
    e.request.effect C = .nothing ∨ (∃ b, e.request.effect C = .keypackage b ∧ b.key = k) ∨
      ∃ maxPerIdentity retention,
        e.request.effect C = .pruneKeyPackages maxPerIdentity retention := by
  cases heffect : e.request.effect C with
  | nothing => exact Or.inl rfl
  | keypackage b => exact Or.inr (Or.inl ⟨b, rfl, (concernsDevice_of_effect heffect).mp h⟩)
  | pruneKeyPackages maxPerIdentity retention =>
    exact Or.inr (Or.inr ⟨maxPerIdentity, retention, rfl⟩)
  | account b | accountLog addr signed | pruneAccounts retention =>
    obtain ⟨now, request⟩ := e
    have hrequest := heffect ▸ hasEffect (C := C) request
    cases hrequest <;> cases h

theorem isWrite_of_concernsDevice (h : e.concernsDevice C k = true) :
    e.request.isWrite = true := by
  obtain ⟨now, request⟩ := e
  cases request <;> first | rfl | cases h

/-- The rows of a device are a matter of its own submissions and of prunes. -/
theorem device_unwinding (hHex : C.HexLaws) (k : FixedBytes 32) :
    (service C).Unwinding (history (C.hexEncode k)) (Event.concernsDevice C k) where
  irrelevant s e he := by
    change history (C.hexEncode k) (serve C s e).1 = _
    rw [serve_fst, history_effect]
    cases heffect : e.request.effect C with
    | keypackage b =>
      refine if_neg fun hc ↦ ?_
      have hkey : b.key = k := Subtype.ext (hHex.encode_injective hc.1)
      rw [(concernsDevice_of_effect heffect).mpr hkey] at he
      exact absurd he (by simp)
    | pruneKeyPackages maxPerIdentity retention =>
      rw [Event.concernsDevice, request_of_pruneKeyPackages heffect] at he
      exact absurd he (by simp)
    | nothing | account _ | accountLog _ _ | pruneAccounts _ => rfl
  consistent s s' e _ hs := by
    change history (C.hexEncode k) (serve C s e).1 = history (C.hexEncode k) (serve C s' e).1
    rw [serve_fst, serve_fst, history_effect, history_effect, hs]
  answer s s' e he hs := by
    refine serve_snd_congr (isWrite_of_concernsDevice he) ?_
    obtain heffect | ⟨b, heffect, rfl⟩ | ⟨maxPerIdentity, retention, heffect⟩ :=
      effect_of_concernsDevice he <;> rw [heffect]
    · rfl
    · exact applyKeypackage_verdict_congr hs
    · rfl

/-! ## Accounts -/

theorem concernsAccount_of_effect (h : e.request.effect C = .account b) :
    e.concernsAccount C k = true ↔ b.key = k := by
  obtain ⟨now, request⟩ := e
  have heffect : request.HasEffect C (.account b) := h ▸ hasEffect request
  cases heffect with
  | postAccount hdecode =>
    have hkey := (decodeBundle_eq_ok_iff.mp hdecode).1
    simp [Event.concernsAccount, hkey, Subtype.ext_iff]
  | deliverAccount hwire hbundle =>
    have hkey := (fromBytes_eq_ok_iff.mp hbundle).1
    simp [Event.concernsAccount, hwire, ← hkey, Subtype.ext_iff]

theorem effect_of_concernsAccount (h : e.concernsAccount C k = true) :
    e.request.effect C = .nothing ∨ (∃ b, e.request.effect C = .account b ∧ b.key = k) ∨
      ∃ retention, e.request.effect C = .pruneAccounts retention := by
  cases heffect : e.request.effect C with
  | nothing => exact Or.inl rfl
  | account b => exact Or.inr (Or.inl ⟨b, rfl, (concernsAccount_of_effect heffect).mp h⟩)
  | pruneAccounts retention => exact Or.inr (Or.inr ⟨retention, rfl⟩)
  | keypackage b | accountLog addr signed | pruneKeyPackages maxPerIdentity retention =>
    obtain ⟨now, request⟩ := e
    have hrequest := heffect ▸ hasEffect (C := C) request
    cases hrequest <;> cases h

theorem isWrite_of_concernsAccount (h : e.concernsAccount C k = true) :
    e.request.isWrite = true := by
  obtain ⟨now, request⟩ := e
  cases request <;> first | rfl | cases h

/-- The bundle row of an account is a matter of its own submissions and of prunes. -/
theorem account_unwinding (hHex : C.HexLaws) (k : FixedBytes 32) :
    (service C).Unwinding (accountRow (C.hexEncode k)) (Event.concernsAccount C k) where
  irrelevant s e he := by
    change accountRow (C.hexEncode k) (serve C s e).1 = _
    rw [accountRow_serve]
    cases heffect : e.request.effect C with
    | account b =>
      rw [Effect.onAccountRow]
      cases b.validLamport C with
      | none => rfl
      | some lamport =>
        refine if_neg fun hc ↦ ?_
        have hkey : b.key = k := Subtype.ext (hHex.encode_injective hc.1)
        rw [(concernsAccount_of_effect heffect).mpr hkey] at he
        exact absurd he (by simp)
    | pruneAccounts retention =>
      rw [Event.concernsAccount, request_of_pruneAccounts heffect] at he
      exact absurd he (by simp)
    | nothing | keypackage _ | accountLog _ _ | pruneKeyPackages _ _ => rfl
  consistent s s' e _ hs := by
    change accountRow (C.hexEncode k) (serve C s e).1 = accountRow (C.hexEncode k) (serve C s' e).1
    rw [accountRow_serve, accountRow_serve, hs]
  answer s s' e he hs := by
    refine serve_snd_congr (isWrite_of_concernsAccount he) ?_
    obtain heffect | ⟨b, heffect, rfl⟩ | ⟨retention, heffect⟩ :=
      effect_of_concernsAccount he <;> rw [heffect]
    · rfl
    · exact applyAccount_verdict_congr hs
    · rfl

/-! ## Account logs -/

variable {addr : C.log.AccountAddr}

theorem concernsAccountLog_of_effect {addr' : C.log.AccountAddr} {signed : C.log.SignedAccountLog}
    (h : e.request.effect C = .accountLog addr' signed) :
    e.concernsAccountLog C addr = true ↔ C.log.addrToString addr' = C.log.addrToString addr := by
  obtain ⟨now, request⟩ := e
  have heffect : request.HasEffect C (.accountLog addr' signed) := h ▸ hasEffect request
  cases heffect with
  | postAccountLog hdecode =>
    have hparse := (decodeAccountLog_eq_ok_iff.mp hdecode).1
    simp [Event.concernsAccountLog, hparse]

theorem effect_of_concernsAccountLog (h : e.concernsAccountLog C addr = true) :
    e.request.effect C = .nothing ∨ ∃ addr' signed, e.request.effect C = .accountLog addr' signed ∧
      C.log.addrToString addr' = C.log.addrToString addr := by
  cases heffect : e.request.effect C with
  | nothing => exact Or.inl rfl
  | accountLog addr' signed =>
    exact Or.inr ⟨addr', signed, rfl, (concernsAccountLog_of_effect heffect).mp h⟩
  | keypackage _ | account _ | pruneKeyPackages _ _ | pruneAccounts _ =>
    obtain ⟨now, request⟩ := e
    have hrequest := heffect ▸ hasEffect (C := C) request
    cases hrequest <;> cases h

theorem isWrite_of_concernsAccountLog (h : e.concernsAccountLog C addr = true) :
    e.request.isWrite = true := by
  obtain ⟨now, request⟩ := e
  cases request <;> first | rfl | cases h

/-- The log of an account is a matter of its own submissions. -/
theorem accountLog_unwinding (hLog : C.log.Laws) (addr : C.log.AccountAddr) :
    (service C).Unwinding (logRow (C.log.addrToString addr))
      (Event.concernsAccountLog C addr) where
  irrelevant s e he := by
    change logRow (C.log.addrToString addr) (serve C s e).1 = _
    rw [logRow_serve]
    cases heffect : e.request.effect C with
    | accountLog addr' signed =>
      rw [Effect.onLogRow]
      cases hnew : C.log.newRecord addr' signed with
      | error err => rfl
      | ok candidate =>
        refine if_neg fun hkey ↦ ?_
        rw [recordKey, (hLog.newRecord_parts addr' signed candidate hnew).1] at hkey
        rw [(concernsAccountLog_of_effect heffect).mpr hkey] at he
        exact absurd he (by simp)
    | nothing | keypackage _ | account _ | pruneKeyPackages _ _ | pruneAccounts _ => rfl
  consistent s s' e _ hs := by
    change logRow (C.log.addrToString addr) (serve C s e).1
      = logRow (C.log.addrToString addr) (serve C s' e).1
    rw [logRow_serve, logRow_serve, hs]
  answer s s' e he hs := by
    refine serve_snd_congr (isWrite_of_concernsAccountLog he) ?_
    obtain heffect | ⟨addr', signed, heffect, haddr⟩ := effect_of_concernsAccountLog he
    · rw [heffect]
      rfl
    · rw [heffect]
      refine applyAccountLog_verdict_congr fun candidate hnew ↦ ?_
      rw [recordKey, (hLog.newRecord_parts addr' signed candidate hnew).1, haddr]
      exact hs

/-! ## Isolation -/

theorem fetchAccountLog_congr {accountAddr : String} {s s' : Tables}
    (haddr : C.log.parseAddr accountAddr = some addr)
    (h : logRow (C.log.addrToString addr) s = logRow (C.log.addrToString addr) s') :
    fetchAccountLog C accountAddr s = fetchAccountLog C accountAddr s' := by
  simp only [fetchAccountLog, parseAddr, haddr, Option.elim_some, getAccountLog, h]

/-- **Isolation between identities**, for each resource. -/
theorem identities_isolated (hHex : C.HexLaws) (hLog : C.log.Laws) :
    (∀ k : FixedBytes 32, Isolated C (history (C.hexEncode k))
      (fetchKeyPackage C (C.hexEncode k)) (Event.concernsDevice C k)) ∧
    (∀ k : FixedBytes 32, Isolated C (accountRow (C.hexEncode k))
      (fetchAccount C (C.hexEncode k)) (Event.concernsAccount C k)) ∧
    ∀ (addr : C.log.AccountAddr) (accountAddr : String),
      C.log.parseAddr accountAddr = some addr →
        Isolated C (logRow (C.log.addrToString addr)) (fetchAccountLog C accountAddr)
          (Event.concernsAccountLog C addr) := by
  refine ⟨fun k ↦ ?_, fun k ↦ ?_, fun addr accountAddr haddr ↦ ?_⟩
  · refine isolated_of_unwinding (device_unwinding hHex k) fun s s' h ↦ ?_
    rw [fetchKeyPackage, fetchKeyPackage, latest, latest, newestRow, newestRow, h]
  · refine isolated_of_unwinding (account_unwinding hHex k) fun s s' h ↦ ?_
    rw [fetchAccount, fetchAccount, getAccount, getAccount, h]
  · exact isolated_of_unwinding (accountLog_unwinding hLog addr)
      fun s s' h ↦ fetchAccountLog_congr haddr h

namespace Reference

/-- One device publishes. -/
def quietRun : List Event := [⟨0, deliverKeyPackage keyPackageA⟩]

/-- The same, amid submissions of another device and to another resource. -/
def busyRun : List Event :=
  [⟨0, deliverKeyPackage otherKeyPackage⟩, ⟨0, deliverAccount accountBundle5⟩,
    ⟨0, deliverKeyPackage keyPackageA⟩, ⟨0, .pruneAccounts ⟨0, 0⟩⟩,
    ⟨9000000, deliverKeyPackage otherKeyPackage⟩]

theorem identities_isolated_busyRun :
    fetchKeyPackage crates (Hex.encode publicKey.val) (tablesAfter crates quietRun)
      = fetchKeyPackage crates (Hex.encode publicKey.val) (tablesAfter crates busyRun) :=
  ((identities_isolated hexLaws log_laws).1 publicKey Tables.empty Tables.empty quietRun busyRun
    rfl (by decide +kernel)).2.1

end Reference

end ChatStore
