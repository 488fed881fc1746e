import ChatStore.Refusals
import ChatStore.Reference

/-!
# Which keypackage is the latest

Submissions are accepted in the order in which they take the store's lock, but `latest` and the cap
of the prune order rows by the wall clock. The two orders agree as long as the clock moves forward
from one accepted submission of a device to the next; when it is stepped back, an older bundle stays
the latest one.

`Recency` is what a client expects of a run, `InOrder` what the code needs for it. A second thing it
needs is a cap below `2 ^ 63`: the cap is bound as a signed value, and a negative one clears the
device.
-/

namespace ChatStore

open Library Store

variable (C : Crates) (k : FixedBytes 32)

/-- The bundle that an event submits for the device `k`. -/
def Event.deviceBundle (e : Event) : Option Bundle :=
  match e.request.effect C with
  | .keypackage b => if b.key = k then some b else none
  | _ => none

/-- After every accepted submission, until the next one and unless a prune reaches back to it,
`latest` is the submitted bundle. -/
def Recency (events : List Event) : Prop :=
  ∀ past e future b, past ++ e :: future <+: events → e.deviceBundle C k = some b →
    (serve C (tablesAfter C past) e).2.accepted = true →
    (∀ mid e' rest, future = mid ++ e' :: rest → (e'.deviceBundle C k).isSome = true →
      (serve C (tablesAfter C (past ++ e :: mid)) e').2.accepted = false) →
    (∀ e' ∈ future, ∀ maxPerIdentity retention,
      e'.request = .pruneKeyPackages maxPerIdentity retention →
        cutoffMs e'.now retention ≤ stamp e.now) →
    latest (C.hexEncode k) (tablesAfter C (past ++ e :: future)) = some ⟨b.payload, b.signature⟩

/-- Every prune of a run keeps at least one row per device. -/
def CapAtLeastOne (events : List Event) : Prop :=
  ∀ e ∈ events, ∀ maxPerIdentity retention,
    e.request = .pruneKeyPackages maxPerIdentity retention → 1 ≤ maxPerIdentity

/-- The event finds the device in order. A submission that is accepted is stamped later than the
newest row, or repeats its bundle. A prune has a cap that is positive as a signed value, or finds
the newest row expired. -/
def Event.inOrder (s : Tables) (e : Event) : Prop :=
  match e.request.effect C with
  | .keypackage b =>
    b.key = k → b.authentic C = true → ¬StampTaken e.now (C.hexEncode k) s →
      ∀ r ∈ newestRow (C.hexEncode k) s,
        r.receivedAt < stamp e.now ∨ r.bundle = ⟨b.payload, b.signature⟩
  | .pruneKeyPackages maxPerIdentity retention =>
    maxPerIdentity.toNat < 2 ^ 63 ∨
      ∀ r ∈ newestRow (C.hexEncode k) s, r.receivedAt < cutoffMs e.now retention
  | _ => True

/-- Every event of a run finds the device in order. -/
def InOrder (events : List Event) : Prop :=
  ∀ past e, past ++ [e] <+: events → e.inOrder C k (tablesAfter C past)

variable {C k} {s : Tables} {e : Event} {b : Bundle}

theorem deviceBundle_eq_some_iff :
    e.deviceBundle C k = some b ↔ e.request.effect C = .keypackage b ∧ b.key = k := by
  rw [Event.deviceBundle]
  cases e.request.effect C with
  | keypackage b' =>
    dsimp only
    split_ifs with hkey
    · rw [Option.some.injEq, Effect.keypackage.injEq]
      exact ⟨fun h ↦ ⟨h, h ▸ hkey⟩, fun h ↦ h.1⟩
    · rw [Effect.keypackage.injEq]
      exact ⟨fun h ↦ absurd h (by simp), fun h ↦ absurd (h.1 ▸ h.2) hkey⟩
  | nothing | account _ | accountLog _ _ | pruneKeyPackages _ _ | pruneAccounts _ => simp

/-- A submission for the device is accepted when it is authentic and its millisecond is free. -/
theorem accepted_of_deviceBundle (h : e.deviceBundle C k = some b) :
    (serve C s e).2.accepted = true
      ↔ b.authentic C = true ∧ ¬StampTaken e.now (C.hexEncode k) s := by
  obtain ⟨heffect, rfl⟩ := deviceBundle_eq_some_iff.mp h
  rw [accepted_serve, heffect, Effect.accepts, isOk_iff, applyKeypackage_eq_ok_iff, Bundle.keyHex]

/-- An accepted submission offers its row to the newest one. -/
theorem newestRow_of_accepted (h : e.deviceBundle C k = some b)
    (hacc : (serve C s e).2.accepted = true) :
    newestRow (C.hexEncode k) (serve C s e).1
      = some (offer (insertedRow e.now (C.hexEncode k) ⟨b.payload, b.signature⟩)
          (newestRow (C.hexEncode k) s)) := by
  have hauth := ((accepted_of_deviceBundle h).mp hacc).1
  obtain ⟨heffect, hkey⟩ := deviceBundle_eq_some_iff.mp h
  rw [newestRow_serve, heffect]
  exact if_pos ⟨by rw [Bundle.keyHex, hkey], hauth⟩

/-- Without an accepted submission or a prune the newest row stays. -/
theorem newestRow_of_other (hHex : C.HexLaws)
    (hsub : ∀ b, e.deviceBundle C k = some b → (serve C s e).2.accepted = false)
    (hprune : ∀ maxPerIdentity retention,
      e.request.effect C ≠ .pruneKeyPackages maxPerIdentity retention) :
    newestRow (C.hexEncode k) (serve C s e).1 = newestRow (C.hexEncode k) s := by
  cases heffect : e.request.effect C with
  | keypackage b =>
    by_cases hkey : b.key = k
    · -- A refused submission changes nothing at all.
      have hrefused := hsub b (deviceBundle_eq_some_iff.mpr ⟨heffect, hkey⟩)
      rw [accepted_serve, heffect] at hrefused
      obtain hrun | ⟨_, _, h⟩ | ⟨_, h⟩ := run_of_not_accepted hrefused
      · rw [serve_fst, heffect, hrun]
      · exact absurd h (by simp)
      · exact absurd h (by simp)
    · rw [newestRow_serve, heffect]
      exact if_neg fun hc ↦ hkey (Subtype.ext (hHex.encode_injective hc.1))
  | pruneKeyPackages maxPerIdentity retention =>
    exact absurd heffect (hprune maxPerIdentity retention)
  | nothing | account _ | accountLog _ _ | pruneAccounts _ => rw [newestRow_serve, heffect]; rfl

theorem one_le_asI64_iff {n : UInt64} (h : 1 ≤ n) : 1 ≤ asI64 n ↔ n.toNat < 2 ^ 63 := by
  have hn : 1 ≤ n.toNat := UInt64.le_iff_toNat_le.mp h
  have hlt := n.toNat_lt
  rw [asI64]
  split_ifs <;> omega

/-! ## One step -/

/-- Offering a row makes its bundle the newest one exactly when the row is in order. -/
theorem offer_bundle_iff {r : KeyPackageRow} {newest : Option KeyPackageRow}
    (hne : ∀ m ∈ newest, m.receivedAt ≠ r.receivedAt) :
    (offer r newest).bundle = r.bundle
      ↔ ∀ m ∈ newest, m.receivedAt < r.receivedAt ∨ m.bundle = r.bundle := by
  rcases newest with _ | m
  · simp [offer_of_lt]
  · by_cases hle : r.receivedAt ≤ m.receivedAt
    · have hlt : ¬m.receivedAt < r.receivedAt := not_lt.mpr hle
      rw [offer_of_le hle]
      simp [hlt]
    · rw [offer_of_lt (by simpa using hle)]
      simp [not_le.mp hle]

theorem receivedAt_le_offer (r : KeyPackageRow) (newest : Option KeyPackageRow) :
    r.receivedAt ≤ (offer r newest).receivedAt := by
  rcases newest with _ | m
  · rw [offer_of_lt (by simp)]
  · by_cases hle : r.receivedAt ≤ m.receivedAt
    · rwa [offer_of_le hle]
    · rw [offer_of_lt (by simpa using hle)]

/-- The newest row of a device whose millisecond is free has another timestamp. -/
theorem newestRow_receivedAt_ne {now : SystemTime} {deviceId : String}
    (h : ¬StampTaken now deviceId s) :
    ∀ m ∈ newestRow deviceId s, m.receivedAt ≠ stamp now :=
  fun m hm heq ↦ h ⟨m, newest?_mem hm, heq⟩

/-- Right after an accepted submission, its bundle is the latest exactly when it was in order. -/
theorem latest_of_accepted_iff (h : e.deviceBundle C k = some b)
    (hacc : (serve C s e).2.accepted = true) :
    latest (C.hexEncode k) (serve C s e).1 = some ⟨b.payload, b.signature⟩
      ↔ e.inOrder C k s := by
  obtain ⟨hauth, hfree⟩ := (accepted_of_deviceBundle h).mp hacc
  obtain ⟨heffect, hkey⟩ := deviceBundle_eq_some_iff.mp h
  rw [latest, newestRow_of_accepted h hacc, Option.map_some, Option.some.injEq, Event.inOrder,
    heffect]
  have hoffer := offer_bundle_iff
    (r := insertedRow e.now (C.hexEncode k) ⟨b.payload, b.signature⟩)
    (newestRow_receivedAt_ne hfree)
  rw [insertedRow_bundle] at hoffer
  rw [hoffer]
  exact ⟨fun horder _ _ _ ↦ horder, fun horder ↦ horder hkey hauth hfree⟩

/-- A prune with a cap of at least one spares an unexpired newest row exactly when the cap fits a
signed value. -/
theorem latest_of_prune_iff {now : SystemTime} {maxPerIdentity : UInt64} {retention : Duration}
    {deviceId : String} {r : KeyPackageRow} (hcap : 1 ≤ maxPerIdentity)
    (hr : newestRow deviceId s = some r) (hage : cutoffMs now retention ≤ r.receivedAt) :
    latest deviceId (pruneKeyPackages (A := C.log) now maxPerIdentity retention s).1
      = some r.bundle ↔ maxPerIdentity.toNat < 2 ^ 63 := by
  rw [latest, pruneKeyPackages, newestRow_deleteExcess, newestRow_deleteExpired, hr,
    ← one_le_asI64_iff hcap]
  rw [Option.filter_some_pos (by simpa using hage)]
  split_ifs with hpos
  · simp [hpos]
  · simp [hpos]

/-! ## Runs -/

/-- The newest row carries the bundle, and is stamped no earlier than `t`. -/
def Carries (bundle : StoredKeyPackageBundle) (t : ℤ) (newest : Option KeyPackageRow) : Prop :=
  ∃ r, newest = some r ∧ r.bundle = bundle ∧ t ≤ r.receivedAt

theorem Carries.step (hHex : C.HexLaws) {bundle : StoredKeyPackageBundle} {t : ℤ}
    (h : Carries bundle t (newestRow (C.hexEncode k) s))
    (hsub : ∀ b, e.deviceBundle C k = some b → (serve C s e).2.accepted = false)
    (hcap : ∀ maxPerIdentity retention,
      e.request = .pruneKeyPackages maxPerIdentity retention → 1 ≤ maxPerIdentity)
    (hage : ∀ maxPerIdentity retention,
      e.request = .pruneKeyPackages maxPerIdentity retention → cutoffMs e.now retention ≤ t)
    (horder : e.inOrder C k s) :
    Carries bundle t (newestRow (C.hexEncode k) (serve C s e).1) := by
  obtain ⟨r, hr, hbundle, ht⟩ := h
  by_cases hprune : ∃ maxPerIdentity retention,
      e.request.effect C = .pruneKeyPackages maxPerIdentity retention
  · obtain ⟨maxPerIdentity, retention, heffect⟩ := hprune
    have hrequest : e.request = .pruneKeyPackages maxPerIdentity retention :=
      request_of_pruneKeyPackages heffect
    have hcutoff := (hage maxPerIdentity retention hrequest).trans ht
    rw [Event.inOrder, heffect] at horder
    have hpos : 1 ≤ asI64 maxPerIdentity := by
      rw [one_le_asI64_iff (hcap maxPerIdentity retention hrequest)]
      exact horder.resolve_right fun hexpired ↦ absurd (hexpired r hr) (not_lt.mpr hcutoff)
    refine ⟨r, ?_, hbundle, ht⟩
    rw [newestRow_serve, heffect, Effect.onNewestRow, if_pos hpos, hr]
    exact Option.filter_some_pos (by simpa using hcutoff)
  · refine ⟨r, ?_, hbundle, ht⟩
    rw [newestRow_of_other hHex hsub fun maxPerIdentity retention heffect ↦
      hprune ⟨maxPerIdentity, retention, heffect⟩, hr]

/-- A run in which every event finds the device in order keeps the recency of its bundles. -/
theorem recency_of_inOrder (hHex : C.HexLaws) {events : List Event} (hcap : CapAtLeastOne events)
    (h : InOrder C k events) : Recency C k events := by
  intro past e future b hpre hbundle hacc hlast hage
  have hcarries : Carries ⟨b.payload, b.signature⟩ (stamp e.now)
      (newestRow (C.hexEncode k) (tablesAfter C (past ++ e :: future))) := by
    -- By induction on what happens after the submission.
    induction future using List.reverseRecOn with
    | nil =>
      have hlatest := (latest_of_accepted_iff hbundle hacc).mpr (h past e hpre)
      have hnewest := newestRow_of_accepted hbundle hacc
      rw [latest, hnewest, Option.map_some, Option.some.injEq] at hlatest
      rw [tablesAfter_concat]
      exact ⟨_, hnewest, hlatest, receivedAt_le_offer _ _⟩
    | append_singleton future e' ih =>
      have hsplit : past ++ e :: (future ++ [e']) = (past ++ e :: future) ++ [e'] := by simp
      rw [hsplit] at hpre ⊢
      rw [tablesAfter_concat]
      refine Carries.step hHex ?_ (fun b' hb' ↦ ?_) ?_ ?_ (h _ e' hpre)
      · refine ih ((List.prefix_append _ [e']).trans hpre) (fun mid e'' rest heq ↦ ?_)
          fun e'' he'' ↦ hage e'' (List.mem_append_left _ he'')
        exact hlast mid e'' (rest ++ [e']) (by rw [heq, List.append_assoc, List.cons_append])
      · exact hlast future e' [] rfl (by rw [hb']; rfl)
      · exact hcap e' (hpre.subset (List.mem_append_right _ List.mem_cons_self))
      · exact hage e' (List.mem_append_right _ List.mem_cons_self)
  obtain ⟨r, hr, hr', -⟩ := hcarries
  rw [latest, hr, Option.map_some, hr']

/-- **When the latest keypackage is the most recent one.** It is in every run whose events find the
device in order. Both parts of the condition are exact: a submission out of order is not the latest
bundle even right after it was accepted, and a prune whose cap does not fit loses the bundle. -/
theorem latest_is_most_recent (hHex : C.HexLaws) (k : FixedBytes 32) :
    (∀ events, CapAtLeastOne events → InOrder C k events → Recency C k events) ∧
    (∀ s e b, e.deviceBundle C k = some b → (serve C s e).2.accepted = true →
      (latest (C.hexEncode k) (serve C s e).1 = some ⟨b.payload, b.signature⟩
        ↔ e.inOrder C k s)) ∧
    ∀ s now maxPerIdentity retention r, 1 ≤ maxPerIdentity →
      newestRow (C.hexEncode k) s = some r → cutoffMs now retention ≤ r.receivedAt →
      (latest (C.hexEncode k) (pruneKeyPackages (A := C.log) now maxPerIdentity retention s).1
        = some r.bundle ↔ maxPerIdentity.toNat < 2 ^ 63) := by
  refine ⟨fun events ↦ recency_of_inOrder hHex, fun s e b ↦ latest_of_accepted_iff, ?_⟩
  intro s now maxPerIdentity retention r hcap hr hage
  exact latest_of_prune_iff hcap hr hage

namespace Reference

/-- A device publishes twice, and in between the clock is stepped back by a millisecond. -/
def clockSteppedBack : List Event :=
  [⟨2000000, deliverKeyPackage keyPackageA⟩, ⟨1000000, deliverKeyPackage keyPackageB⟩]

/-- Both submissions are accepted, and the first one stays the latest. -/
theorem not_recency :
    ((service crates).trace Tables.empty clockSteppedBack).map
        (fun e ↦ (Response.accepted e.output)) = [true, true] ∧
    latest (crates.hexEncode publicKey.val) (tablesAfter crates clockSteppedBack)
      = some ⟨keyPackageA.payload, keyPackageA.signature⟩ ∧
    ¬Recency crates publicKey clockSteppedBack := by
  have hlatest : latest (crates.hexEncode publicKey.val) (tablesAfter crates clockSteppedBack)
      = some ⟨keyPackageA.payload, keyPackageA.signature⟩ := by decide +kernel
  refine ⟨by decide +kernel, hlatest, fun h ↦ ?_⟩
  have hrecent := h [⟨2000000, deliverKeyPackage keyPackageA⟩]
    ⟨1000000, deliverKeyPackage keyPackageB⟩ [] keyPackageB List.prefix_rfl (by decide +kernel)
    (by decide +kernel) (fun mid e' rest heq ↦ by simp at heq) (fun e' he' ↦ by simp at he')
  have hbundles : (⟨keyPackageA.payload, keyPackageA.signature⟩ : StoredKeyPackageBundle)
      = ⟨keyPackageB.payload, keyPackageB.signature⟩ := Option.some.inj (hlatest.symm.trans hrecent)
  exact absurd hbundles (by decide +kernel)

/-- The same with the clock running forward. -/
def clockForward : List Event :=
  [⟨1000000, deliverKeyPackage keyPackageA⟩, ⟨2000000, deliverKeyPackage keyPackageB⟩]

theorem inOrder_clockForward : InOrder crates publicKey clockForward := by
  refine Machine.forall_moment_cons.mpr
    ⟨?_, Machine.forall_moment_cons.mpr ⟨?_, Machine.forall_moment_nil⟩⟩
  · rw [Event.inOrder, effect_deliverKeyPackage]
    intro _ _ _ r hr
    cases hr
  · rw [Event.inOrder, effect_deliverKeyPackage]
    intro _ _ _
    decide +kernel

theorem latest_is_most_recent_clockForward : Recency crates publicKey clockForward :=
  (latest_is_most_recent hexLaws publicKey).1 clockForward
    (fun e he maxPerIdentity retention heq ↦ by
      simp only [clockForward, List.mem_cons, List.not_mem_nil, or_false] at he
      rcases he with rfl | rfl <;> cases heq)
    inOrder_clockForward

end Reference

end ChatStore
