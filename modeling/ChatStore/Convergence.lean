import ChatStore.AntiReplay
import Mathlib.Order.WithBot

/-!
# Publishing converges

Without prunes an account's row is a function of the set of bundles published for the account: it is
the newest of them. How often each was submitted, on which wire, in which order and with what else
in between makes no difference, unless two bundles share the greatest lamport. Then the one that
came first stays.

The row is a register of bundles, with the lamport as the version. The store compares the lamport of
a submission with the one it reads back from the payload on file, so a bundle on file counts with
the lamport of its payload here too.
-/

namespace ChatStore

open Library Store

variable (C : Crates) (k : FixedBytes 32)

/-! ## Published bundles -/

/-- The valid bundle that an event submits for the account `k`. -/
def Event.publishedBundle (e : Event) : Option Bundle :=
  (e.accountBundle C k).filter fun b ↦ (b.validLamport C).isSome

/-- The valid bundles submitted for the account `k`, in order. -/
def publishedBundles (events : List Event) : List Bundle :=
  events.filterMap (Event.publishedBundle C k)

/-- Nothing removes rows of accounts. -/
def PruneFree (events : List Event) : Prop :=
  ∀ e ∈ events, ∀ retention, e.request ≠ .pruneAccounts retention

/-- One of the bundles that none of them is newer than. -/
def Newest (bundles : List Bundle) (b : Bundle) : Prop :=
  b ∈ bundles ∧ ∀ b' ∈ bundles, ¬Newer b b'

/-- The payload and signature of a bundle. -/
def Bundle.content (b : Bundle) : Bytes × Bytes := (b.payload, b.signature)

/-- The payload and signature in a row. -/
def rowContent (row : Option AccountBundleRow) : Option (Bytes × Bytes) :=
  row.map fun r ↦ (r.payload, r.signature)

variable {C k}

theorem publishedBundle_eq_some_iff {e : Event} {b : Bundle} :
    e.publishedBundle C k = some b
      ↔ e.accountBundle C k = some b ∧ ∃ lamport, b.validLamport C = some lamport := by
  rw [Event.publishedBundle, Option.filter_eq_some_iff, Option.isSome_iff_exists]

theorem accountLamport_eq_some_iff {e : Event} {lamport : UInt64} :
    e.accountLamport C k = some lamport ↔
      ∃ b, e.publishedBundle C k = some b ∧ payloadLamport b.payload = some lamport := by
  rw [Event.accountLamport, Option.bind_eq_some_iff]
  constructor
  · rintro ⟨b, hb, hvalid⟩
    exact ⟨b, publishedBundle_eq_some_iff.mpr ⟨hb, lamport, hvalid⟩,
      (validLamport_eq_some_iff.mp hvalid).2⟩
  · rintro ⟨b, hb, hlamport⟩
    obtain ⟨hb, _, hvalid⟩ := publishedBundle_eq_some_iff.mp hb
    exact ⟨b, hb, validLamport_eq_some_iff.mpr
      ⟨(validLamport_eq_some_iff.mp hvalid).1, hlamport⟩⟩

theorem mem_submittedLamports_iff {events : List Event} {lamport : UInt64} :
    lamport ∈ submittedLamports C k events ↔
      ∃ b ∈ publishedBundles C k events, payloadLamport b.payload = some lamport := by
  rw [submittedLamports, publishedBundles]
  simp only [List.mem_filterMap, accountLamport_eq_some_iff]
  constructor
  · rintro ⟨e, he, b, hb, hlamport⟩
    exact ⟨b, ⟨e, he, hb⟩, hlamport⟩
  · rintro ⟨b, ⟨e, he, hb⟩, hlamport⟩
    exact ⟨e, he, b, hb, hlamport⟩

/-- A published bundle has a lamport. -/
theorem exists_lamport_of_published {events : List Event} {b : Bundle}
    (hb : b ∈ publishedBundles C k events) :
    ∃ lamport, payloadLamport b.payload = some lamport := by
  obtain ⟨e, -, he⟩ := List.mem_filterMap.mp hb
  obtain ⟨-, lamport, hvalid⟩ := publishedBundle_eq_some_iff.mp he
  exact ⟨lamport, (validLamport_eq_some_iff.mp hvalid).2⟩

/-! ## Versions -/

/-- The lamport that the store reads back from a payload, below every lamport when there is none. -/
def contentVersion (c : Bytes × Bytes) : WithBot ℕ := (payloadLamport c.1).map UInt64.toNat

theorem contentVersion_eq {c : Bytes × Bytes} {lamport : UInt64}
    (h : payloadLamport c.1 = some lamport) :
    contentVersion c = ((lamport.toNat : ℕ) : WithBot ℕ) := by
  rw [contentVersion, h]
  rfl

theorem contentVersion_eq_bot {c : Bytes × Bytes} (h : payloadLamport c.1 = none) :
    contentVersion c = ⊥ := by
  rw [contentVersion, h]
  rfl

theorem contentVersion_lt_iff (c c' : Bytes × Bytes) {lamport lamport' : UInt64}
    (h : payloadLamport c.1 = some lamport) (h' : payloadLamport c'.1 = some lamport') :
    contentVersion c < contentVersion c' ↔ lamport < lamport' := by
  rw [contentVersion_eq h, contentVersion_eq h', UInt64.lt_iff_toNat_lt]
  exact WithBot.coe_lt_coe

/-- A submission is not stale when it is newer than the bundle on file. -/
theorem isStale_eq_false_iff_older {c : Bytes × Bytes} {lamport : UInt64}
    {row : Option AccountBundleRow} (h : payloadLamport c.1 = some lamport) :
    isStale lamport row = false ↔ ∀ u ∈ rowContent row, Register.Older contentVersion u c := by
  rw [isStale_eq_false_iff, version, storedLamport, rowContent]
  rcases row with _ | r
  · simp
  · rcases hr : payloadLamport r.payload with _ | stored
    · have hbot : contentVersion (r.payload, r.signature) = ⊥ := contentVersion_eq_bot hr
      simp [Register.Older, hbot, contentVersion_eq h, hr]
    · have hlt := contentVersion_lt_iff (r.payload, r.signature) c hr h
      simp [Register.Older, hlt, hr, UInt64.lt_iff_toNat_lt]

theorem newer_iff_contentVersion_lt {events : List Event} {b b' : Bundle}
    (hb : b ∈ publishedBundles C k events) (hb' : b' ∈ publishedBundles C k events) :
    Newer b b' ↔ contentVersion b.content < contentVersion b'.content := by
  obtain ⟨lamport, h⟩ := exists_lamport_of_published hb
  obtain ⟨lamport', h'⟩ := exists_lamport_of_published hb'
  rw [contentVersion_lt_iff b.content b'.content h h', Newer, h, h']
  simp

/-! ## The row as a register -/

variable (C k) in
/-- What the events offer to the row. -/
def publishOps (events : List Event) : List (Register.Op (Bytes × Bytes)) :=
  ((publishedBundles C k events).map Bundle.content).map .offer

theorem evict_notMem_publishOps (events : List Event) : .evict ∉ publishOps C k events :=
  Register.evict_notMem_map_offer _

theorem mem_offered_publishOps {events : List Event} {c : Bytes × Bytes} :
    c ∈ Register.offered (publishOps C k events)
      ↔ ∃ b ∈ publishedBundles C k events, b.content = c := by
  rw [publishOps, Register.offered_map_offer, List.mem_map]

theorem publishOps_concat_of_none {e : Event} (events : List Event)
    (h : e.publishedBundle C k = none) :
    publishOps C k (events ++ [e]) = publishOps C k events := by
  rw [publishOps, publishedBundles, List.filterMap_append, List.filterMap_cons_none h,
    List.filterMap_nil, List.append_nil]
  rfl

theorem publishOps_concat_of_some {e : Event} {b : Bundle} (events : List Event)
    (h : e.publishedBundle C k = some b) :
    publishOps C k (events ++ [e]) = publishOps C k events ++ [.offer b.content] := by
  rw [publishOps, publishedBundles, List.filterMap_append, List.filterMap_cons_some h,
    List.filterMap_nil, List.map_append, List.map_append]
  rfl

/-- What a published bundle does to the row. -/
theorem rowContent_of_published (s : Tables) {e : Event} {b : Bundle}
    (h : e.publishedBundle C k = some b) :
    (rowContent (accountRow (C.hexEncode k) (serve C s e).1), (serve C s e).2.accepted)
      = Register.step (Register.Older contentVersion) (rowContent (accountRow (C.hexEncode k) s))
          (.offer b.content) := by
  obtain ⟨hbundle, lamport, hvalid⟩ := publishedBundle_eq_some_iff.mp h
  have hlamport := (validLamport_eq_some_iff.mp hvalid).2
  obtain ⟨b', hb', -, ⟨hstale, hrow, hacc⟩ | ⟨hstale, hrow, hacc⟩⟩ :=
    accountRow_of_submission s (accountLamport_eq_some_iff.mpr ⟨b, h, hlamport⟩)
  · rw [hrow, hacc, Register.step, if_neg]
    rw [← isStale_eq_false_iff_older (c := b.content) hlamport, hstale]
    simp
  · obtain rfl := Option.some.inj (hb'.symm.trans hbundle)
    rw [hrow, hacc, Register.step,
      if_pos ((isStale_eq_false_iff_older (c := b'.content) hlamport).mp hstale)]
    rfl

/-- **The row follows a register of the published bundles.** -/
theorem held_publishOps (hHex : C.HexLaws) {s : Tables} {events : List Event}
    (hs : accountRow (C.hexEncode k) s = none) (hfree : PruneFree events) :
    Register.held (Register.Older contentVersion) (publishOps C k events)
      = rowContent (accountRow (C.hexEncode k) ((service C).run s events)) := by
  induction events using List.reverseRecOn with
  | nil =>
    rw [Machine.run_nil, hs]
    rfl
  | append_singleton events e ih =>
    have ih := ih fun e' he' ↦ hfree e' (List.mem_append_left _ he')
    rw [Machine.run_concat]
    rcases hpub : e.publishedBundle C k with _ | b
    · have hlamport : e.accountLamport C k = none := by
        refine Option.eq_none_iff_forall_ne_some.mpr fun lamport hlamport ↦ ?_
        obtain ⟨b, hb, -⟩ := accountLamport_eq_some_iff.mp hlamport
        rw [hpub] at hb
        exact absurd hb (by simp)
      have hrow := accountRow_of_idle hHex ((service C).run s events) hlamport
        fun retention heffect ↦ hfree e (List.mem_append_right _ List.mem_cons_self) retention
          (request_of_pruneAccounts heffect)
      rw [publishOps_concat_of_none events hpub, ih]
      exact (congrArg rowContent hrow).symm
    · have hstep := rowContent_of_published ((service C).run s events) hpub
      rw [publishOps_concat_of_some events hpub, Register.held_concat, ih, ← hstep]
      rfl

/-! ## Convergence -/

theorem storedLamport_eq (row : Option AccountBundleRow) :
    storedLamport row = (rowContent row).bind fun c ↦ payloadLamport c.1 := by
  rcases row with _ | r
  · rfl
  · rfl

/-- A submission is accepted when it is newer than everything published before. -/
theorem accepted_iff_forall_lt (hHex : C.HexLaws) {s : Tables} {past : List Event} {e : Event}
    {lamport : UInt64} (hs : accountRow (C.hexEncode k) s = none) (hfree : PruneFree past)
    (h : e.accountLamport C k = some lamport) :
    (serve C ((service C).run s past) e).2.accepted = true
      ↔ ∀ earlier ∈ submittedLamports C k past, earlier < lamport := by
  obtain ⟨b, hpub, hb⟩ := accountLamport_eq_some_iff.mp h
  have hacc := congrArg Prod.snd (rowContent_of_published ((service C).run s past) hpub)
  dsimp only at hacc
  rw [hacc, Register.step_offer_accepted, ← held_publishOps hHex hs hfree]
  refine (Register.forall_held_lt_iff (evict_notMem_publishOps past)).trans ?_
  constructor
  · intro hlt earlier hearlier
    obtain ⟨b', hb', hlamport⟩ := mem_submittedLamports_iff.mp hearlier
    exact (contentVersion_lt_iff b'.content b.content hlamport hb).mp
      (hlt b'.content (mem_offered_publishOps.mpr ⟨b', hb', rfl⟩))
  · intro hlt c hc
    obtain ⟨b', hb', rfl⟩ := mem_offered_publishOps.mp hc
    obtain ⟨earlier, hlamport⟩ := exists_lamport_of_published hb'
    exact (contentVersion_lt_iff b'.content b.content hlamport hb).mpr
      (hlt earlier (mem_submittedLamports_iff.mpr ⟨b', hb', hlamport⟩))

/-- The row carries the greatest lamport published. -/
theorem storedLamport_run_iff (hHex : C.HexLaws) {s : Tables} {events : List Event}
    (hs : accountRow (C.hexEncode k) s = none) (hfree : PruneFree events) {lamport : UInt64} :
    storedLamport (accountRow (C.hexEncode k) ((service C).run s events)) = some lamport
      ↔ lamport ∈ submittedLamports C k events ∧
        ∀ other ∈ submittedLamports C k events, other ≤ lamport := by
  have hevict := evict_notMem_publishOps (C := C) (k := k) events
  rw [storedLamport_eq, ← held_publishOps hHex hs hfree, Option.bind_eq_some_iff]
  constructor
  · rintro ⟨c, hheld, hc⟩
    obtain ⟨hmem, hmax⟩ := Register.held_newest hevict hheld
    obtain ⟨b, hb, rfl⟩ := mem_offered_publishOps.mp hmem
    refine ⟨mem_submittedLamports_iff.mpr ⟨b, hb, hc⟩, fun other hother ↦ ?_⟩
    obtain ⟨b', hb', hlamport⟩ := mem_submittedLamports_iff.mp hother
    have hle := hmax b'.content (mem_offered_publishOps.mpr ⟨b', hb', rfl⟩)
    refine UInt64.not_lt.mp fun hlt ↦ absurd hle (not_le.mpr ?_)
    exact (contentVersion_lt_iff b.content b'.content hc hlamport).mpr hlt
  · rintro ⟨hmem, hmax⟩
    obtain ⟨b, hb, hlamport⟩ := mem_submittedLamports_iff.mp hmem
    obtain ⟨c, hheld, hle⟩ := Register.exists_held_ge contentVersion hevict
      (mem_offered_publishOps.mpr ⟨b, hb, rfl⟩)
    obtain ⟨b', hb', rfl⟩ := mem_offered_publishOps.mp (Register.held_mem_offered hheld)
    obtain ⟨stored, hstored⟩ := exists_lamport_of_published hb'
    refine ⟨b'.content, hheld, ?_⟩
    have hge : stored ≤ lamport := hmax stored (mem_submittedLamports_iff.mpr ⟨b', hb', hstored⟩)
    have hnot : ¬stored < lamport := fun hlt ↦ absurd hle
      (not_le.mpr ((contentVersion_lt_iff b'.content b.content hstored
        hlamport).mpr hlt))
    rw [← UInt64.le_antisymm hge (UInt64.not_lt.mp hnot)]
    exact hstored

/-- If the newest published bundle is one bundle, runs that publish the same bundles agree. -/
theorem rowContent_run_congr (hHex : C.HexLaws) {s s' : Tables} {events events' : List Event}
    (hs : accountRow (C.hexEncode k) s = none) (hs' : accountRow (C.hexEncode k) s' = none)
    (hfree : PruneFree events) (hfree' : PruneFree events')
    (hsame : ∀ b, b ∈ publishedBundles C k events ↔ b ∈ publishedBundles C k events')
    (hnewest : ∀ b b', Newest (publishedBundles C k events) b →
      Newest (publishedBundles C k events) b' → b = b') :
    rowContent (accountRow (C.hexEncode k) ((service C).run s events))
      = rowContent (accountRow (C.hexEncode k) ((service C).run s' events')) := by
  -- A bundle of greatest version among the published ones is newest.
  have hgreatest : ∀ b ∈ publishedBundles C k events,
      (∀ c ∈ Register.offered (publishOps C k events),
        contentVersion c ≤ contentVersion b.content) →
      Newest (publishedBundles C k events) b := by
    refine fun b hb hmax ↦ ⟨hb, fun b' hb' hnewer ↦ ?_⟩
    have hlt := (newer_iff_contentVersion_lt hb hb').mp hnewer
    exact absurd hlt (not_lt.mpr (hmax b'.content (mem_offered_publishOps.mpr ⟨b', hb', rfl⟩)))
  rw [← held_publishOps hHex hs hfree, ← held_publishOps hHex hs' hfree']
  refine Register.held_congr (evict_notMem_publishOps events) (evict_notMem_publishOps events')
    (fun c ↦ ?_) fun c hc c' hc' hmax hmax' ↦ ?_
  · rw [mem_offered_publishOps, mem_offered_publishOps]
    simp only [hsame]
  · obtain ⟨b, hb, rfl⟩ := mem_offered_publishOps.mp hc
    obtain ⟨b', hb', rfl⟩ := mem_offered_publishOps.mp hc'
    rw [hnewest b b' (hgreatest b hb hmax) (hgreatest b' hb' hmax')]

/-- **Publishing converges.** In a run without prunes that starts with no row for the account, a
valid submission is accepted exactly when it is newer than all that were submitted before, and the
row ends with the greatest lamport of all. Two such runs that submit the same bundles, in any order
and any number of times, end with the same payload and signature if the newest of the bundles is
one bundle. -/
theorem accounts_converge (hHex : C.HexLaws) (k : FixedBytes 32) :
    (∀ (s : Tables) (events : List Event), accountRow (C.hexEncode k) s = none →
      PruneFree events →
      (∀ past e lamport, past ++ [e] <+: events → e.accountLamport C k = some lamport →
        ((serve C ((service C).run s past) e).2.accepted = true
          ↔ ∀ earlier ∈ submittedLamports C k past, earlier < lamport)) ∧
      ∀ lamport,
        storedLamport (accountRow (C.hexEncode k) ((service C).run s events)) = some lamport
          ↔ lamport ∈ submittedLamports C k events ∧
            ∀ other ∈ submittedLamports C k events, other ≤ lamport) ∧
    ∀ (s s' : Tables) (events events' : List Event), accountRow (C.hexEncode k) s = none →
      accountRow (C.hexEncode k) s' = none → PruneFree events → PruneFree events' →
      (∀ b, b ∈ publishedBundles C k events ↔ b ∈ publishedBundles C k events') →
      (∀ b b', Newest (publishedBundles C k events) b →
        Newest (publishedBundles C k events) b' → b = b') →
      rowContent (accountRow (C.hexEncode k) ((service C).run s events))
        = rowContent (accountRow (C.hexEncode k) ((service C).run s' events')) := by
  refine ⟨fun s events hs hfree ↦ ⟨?_, fun lamport ↦ storedLamport_run_iff hHex hs hfree⟩, ?_⟩
  · intro past e lamport hpre h
    have hpast : past <+: events := (List.prefix_append past [e]).trans hpre
    exact accepted_iff_forall_lt hHex hs (fun e' he' ↦ hfree e' (hpast.subset he')) h
  · intro s s' events events' hs hs' hfree hfree' hsame hnewest
    exact rowContent_run_congr hHex hs hs' hfree hfree' hsame hnewest

/-! ## Two orders -/

namespace Reference

/-- The bundles of `replayInTime`, the newer one first. -/
def newerFirst : List Event :=
  [⟨0, deliverAccount accountBundle6⟩, ⟨1000000000, deliverAccount accountBundle5⟩]

theorem published_replayInTime : publishedBundles crates publicKey replayInTime
    = [accountBundle5, accountBundle6, accountBundle5] := by decide +kernel

theorem published_newerFirst : publishedBundles crates publicKey newerFirst
    = [accountBundle6, accountBundle5] := by decide +kernel

theorem submitted_replayInTime :
    submittedLamports crates publicKey replayInTime = [5, 6, 5] := by decide +kernel

theorem submitted_newerFirst :
    submittedLamports crates publicKey [⟨0, deliverAccount accountBundle6⟩] = [6] := by
  decide +kernel

theorem newer_accountBundle : Newer accountBundle5 accountBundle6 :=
  ⟨5, 6, by decide +kernel, by decide +kernel, by decide⟩

theorem eq_accountBundle6_of_newest {b : Bundle}
    (h : Newest (publishedBundles crates publicKey replayInTime) b) : b = accountBundle6 := by
  obtain ⟨hb, hmax⟩ := h
  rw [published_replayInTime] at hb hmax
  simp only [List.mem_cons, List.not_mem_nil, or_false] at hb
  rcases hb with rfl | rfl | rfl
  · exact absurd newer_accountBundle (hmax _ (by simp))
  · rfl
  · exact absurd newer_accountBundle (hmax _ (by simp))

theorem accounts_converge_newerFirst :
    storedLamport (accountRowAfter crates publicKey replayInTime) = some 6 ∧
      (serve crates (tablesAfter crates [⟨0, deliverAccount accountBundle6⟩])
        ⟨1000000000, deliverAccount accountBundle5⟩).2.accepted = false ∧
      rowContent (accountRowAfter crates publicKey replayInTime)
        = rowContent (accountRowAfter crates publicKey newerFirst) := by
  obtain ⟨hruns, hsame⟩ := accounts_converge hexLaws publicKey
  have hfree : PruneFree replayInTime := by simp [PruneFree, replayInTime, deliverAccount]
  have hfree' : PruneFree newerFirst := by simp [PruneFree, newerFirst, deliverAccount]
  obtain ⟨-, hlamport⟩ := hruns Tables.empty replayInTime rfl hfree
  obtain ⟨haccepted, -⟩ := hruns Tables.empty newerFirst rfl hfree'
  refine ⟨(hlamport 6).mpr ?_, ?_, ?_⟩
  · rw [submitted_replayInTime]
    simp
  · have h := haccepted [⟨0, deliverAccount accountBundle6⟩]
      ⟨1000000000, deliverAccount accountBundle5⟩ 5 List.prefix_rfl (by decide +kernel)
    refine Bool.eq_false_iff.mpr fun hacc ↦ absurd (h.mp hacc) ?_
    rw [submitted_newerFirst]
    exact fun hlt ↦ absurd (hlt 6 List.mem_cons_self) (by decide)
  · refine hsame Tables.empty Tables.empty replayInTime newerFirst rfl rfl hfree hfree' ?_ ?_
    · intro b
      rw [published_replayInTime, published_newerFirst]
      simp only [List.mem_cons, List.not_mem_nil, or_false]
      exact ⟨fun h ↦ h.elim Or.inr id, Or.inr⟩
    · intro b b' hb hb'
      rw [eq_accountBundle6_of_newest hb, eq_accountBundle6_of_newest hb']

end Reference

end ChatStore
