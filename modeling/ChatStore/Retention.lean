import ChatStore.PruneTask
import ChatStore.Views

/-!
# Accounts are kept by their last accepted publish

The row of an account is stamped when a bundle is accepted, and nothing else that is submitted or
read moves the stamp. So what decides whether a prune keeps the row is the clock at the account's
last accepted publish.

Stamp and cutoff are unsigned readings of the clock cast to signed values. The casts keep their
order exactly when both or neither of the readings fit (`asI64_le_asI64_iff`), and that is what the
rule of the prune depends on.
-/

namespace ChatStore

open Library Store

variable (C : Crates)

/-! ## The last accepted publish -/

/-- The event submits a bundle for the account filed under `accountPub`. -/
def Event.publishes (accountPub : String) (e : Event) : Bool :=
  match e.request.effect C with
  | .account b => b.keyHex C = accountPub
  | _ => false

/-- The clock at each accepted publish for an account, in order. -/
def publishTimes (accountPub : String) (events : List Event) : List SystemTime :=
  ((service C).trace Tables.empty events).filterMap fun e ↦
    if e.output.accepted && e.input.publishes C accountPub then some e.input.now else none

/-- The clock at the last accepted publish for an account. -/
def lastPublish (accountPub : String) (events : List Event) : Option SystemTime :=
  (publishTimes C accountPub events).getLast?

variable {C} {accountPub : String} {s : Tables} {e : Event}

theorem publishes_iff : e.publishes C accountPub = true
    ↔ ∃ b, e.request.effect C = .account b ∧ b.keyHex C = accountPub := by
  rw [Event.publishes]
  rcases e.request.effect C with _ | _ | b | _ | _ | _ <;> simp

theorem lastPublish_concat (events : List Event) (e : Event) :
    lastPublish C accountPub (events ++ [e])
      = if (serve C (tablesAfter C events) e).2.accepted && e.publishes C accountPub
        then some e.now else lastPublish C accountPub events := by
  rw [lastPublish, publishTimes, Machine.filterMap_trace_concat]
  have hentry : ((service C).entry ((service C).run Tables.empty events) e).output
      = (serve C (tablesAfter C events) e).2 := rfl
  rw [hentry, Machine.entry]
  split_ifs
  · rw [Option.toList_some, List.getLast?_concat]
  · rw [Option.toList_none, List.append_nil]
    rfl

/-! ## What stamps a row -/

/-- An accepted publish stamps the account's row. -/
theorem accountRow_of_publish
    (h : ((serve C s e).2.accepted && e.publishes C accountPub) = true) :
    ∃ bundle, accountRow accountPub (serve C s e).1
      = some (upsertedRow e.now accountPub bundle) := by
  rw [Bool.and_eq_true, publishes_iff] at h
  obtain ⟨hacc, b, heffect, hkey⟩ := h
  obtain ⟨b', -, -, -, -, -, -, hrow⟩ | ⟨retention, hprune, -⟩ | ⟨-, -, hrefused⟩ :=
    accountRow_cases (C := C) accountPub s e
  · exact ⟨_, hrow⟩
  · rw [heffect] at hprune
    exact absurd hprune (by simp)
  · rw [hrefused b heffect hkey] at hacc
    exact absurd hacc (by simp)

/-- Anything else leaves the account's row as it is, or removes it. -/
theorem accountRow_of_no_publish
    (h : ((serve C s e).2.accepted && e.publishes C accountPub) = false) :
    accountRow accountPub (serve C s e).1 = accountRow accountPub s ∨
      accountRow accountPub (serve C s e).1 = none := by
  refine accountRow_not_accepted fun b heffect hkey ↦ ?_
  rwa [publishes_iff.mpr ⟨b, heffect, hkey⟩, Bool.and_true] at h

/-- After every run an account's row carries the clock of its last accepted publish. -/
theorem exists_lastPublish (events : List Event) {row : AccountBundleRow}
    (h : accountRow accountPub (tablesAfter C events) = some row) :
    ∃ now, lastPublish C accountPub events = some now ∧ row.updatedAt = stamp now := by
  induction events using List.reverseRecOn with
  | nil => cases h
  | append_singleton events e ih =>
    rw [tablesAfter_concat] at h
    rw [lastPublish_concat]
    rcases hpub : (serve C (tablesAfter C events) e).2.accepted && e.publishes C accountPub
    · rcases accountRow_of_no_publish hpub with hrow | hrow
      · exact ih (hrow ▸ h)
      · rw [hrow] at h
        exact absurd h (by simp)
    · obtain ⟨bundle, hrow⟩ := accountRow_of_publish hpub
      obtain rfl := Option.some.inj (hrow.symm.trans h)
      exact ⟨e.now, rfl, rfl⟩

/-! ## The rule of the prune -/

/-- The casts of two readings keep their order exactly when both fit or neither does. -/
theorem asI64_le_asI64_iff {a b : UInt64} : (asI64 a ≤ asI64 b ↔ a.toNat ≤ b.toNat)
    ↔ (b.toNat < 2 ^ 63 ↔ a.toNat < 2 ^ 63) := by
  have ha := a.toNat_lt
  have hb := b.toNat_lt
  rw [asI64, asI64]
  split_ifs <;> omega

/-- The cutoff of a prune before its cast. -/
theorem toNat_saturatingSub_asMillis (now : SystemTime) {R : UInt64} {retention : Duration}
    (h : retention.asMillis = R.toNat) :
    (saturatingSub (nowMs now) (UInt64.ofNat retention.asMillis)).toNat
      = (nowMs now).toNat - R.toNat := by
  rw [toNat_saturatingSub, h, UInt64.ofNat_toNat]

/-- A prune keeps a row or drops it, by its stamp. -/
theorem accountRow_prune (events : List Event) (now : SystemTime) (retention : Duration)
    {row : AccountBundleRow} (h : accountRow accountPub (tablesAfter C events) = some row) :
    accountRow accountPub (tablesAfter C (events ++ [⟨now, .pruneAccounts retention⟩]))
      = if cutoffMs now retention ≤ row.updatedAt then some row else none := by
  have hafter : tablesAfter C (events ++ [⟨now, .pruneAccounts retention⟩])
      = (pruneAccounts (A := C.log) now retention (tablesAfter C events)).1 :=
    tablesAfter_concat events _
  rw [hafter, accountRow_pruneAccounts, h, Option.filter_some]
  by_cases hage : cutoffMs now retention ≤ row.updatedAt
  · rw [if_pos hage, if_pos (by simpa using hage)]
  · rw [if_neg hage, if_neg (by simpa using hage)]

/-- **Account retention follows accepted publishes only.** After every run each row is stamped with
the clock of its account's last accepted publish, as the signed value of the column. A prune then
keeps the row as it is, or removes it; it keeps it exactly when that clock reading is not before the
cutoff, where both or neither of the two fit a signed value, and nowhere else. The prune touches no
other table. -/
theorem accounts_kept_by_last_publish (events : List Event) :
    (∀ row ∈ (tablesAfter C events).accountBundles.rows, ∃ published,
      lastPublish C row.accountPub events = some published ∧
      row.updatedAt = asI64 (nowMs published) ∧
      ((nowMs published).toNat < 2 ^ 63 → row.updatedAt = (nowMs published).toNat) ∧
      ∀ (now : SystemTime) (R : UInt64) (retention : Duration), retention.asMillis = R.toNat →
        (accountRow row.accountPub (tablesAfter C (events ++ [⟨now, .pruneAccounts retention⟩]))
            = some row ∨
          accountRow row.accountPub (tablesAfter C (events ++ [⟨now, .pruneAccounts retention⟩]))
            = none) ∧
        ((accountRow row.accountPub (tablesAfter C (events ++ [⟨now, .pruneAccounts retention⟩]))
              = some row
            ↔ max 0 (((nowMs now).toNat : ℤ) - R.toNat) ≤ (nowMs published).toNat)
          ↔ ((nowMs published).toNat < 2 ^ 63 ↔ (nowMs now).toNat - R.toNat < 2 ^ 63))) ∧
    ∀ now retention,
      (tablesAfter C (events ++ [⟨now, .pruneAccounts retention⟩])).keypackages
        = (tablesAfter C events).keypackages ∧
      (tablesAfter C (events ++ [⟨now, .pruneAccounts retention⟩])).accountLogs
        = (tablesAfter C events).accountLogs := by
  constructor
  · intro row hmem
    have hrow : accountRow row.accountPub (tablesAfter C events) = some row :=
      Table.find?_eq_some_iff.mpr ⟨hmem, rfl⟩
    obtain ⟨published, hlast, hstamp⟩ := exists_lastPublish events hrow
    refine ⟨published, hlast, hstamp, fun hfits ↦ hstamp.trans (asI64_of_lt hfits), ?_⟩
    intro now R retention hR
    have hcutoff := toNat_saturatingSub_asMillis now hR
    have hkept : accountRow row.accountPub
        (tablesAfter C (events ++ [⟨now, .pruneAccounts retention⟩])) = some row
          ↔ cutoffMs now retention ≤ row.updatedAt := by
      rw [accountRow_prune events now retention hrow, Option.ite_none_right_eq_some]
      simp
    constructor
    · rw [accountRow_prune events now retention hrow]
      split_ifs
      · exact Or.inl rfl
      · exact Or.inr rfl
    · have horder := asI64_le_asI64_iff (b := nowMs published)
        (a := saturatingSub (nowMs now) (UInt64.ofNat retention.asMillis))
      rw [hcutoff] at horder
      have hmax : max 0 (((nowMs now).toNat : ℤ) - R.toNat) ≤ (nowMs published).toNat
          ↔ (nowMs now).toNat - R.toNat ≤ (nowMs published).toNat := by omega
      rw [hkept, hstamp, hmax]
      exact horder
  · intro now retention
    have hafter : tablesAfter C (events ++ [⟨now, .pruneAccounts retention⟩])
        = (pruneAccounts (A := C.log) now retention (tablesAfter C events)).1 :=
      tablesAfter_concat events _
    rw [hafter]
    exact ⟨rfl, rfl⟩

namespace Reference

/-- An account publishes when the clock reads `2 ^ 63` milliseconds. -/
def farFuture : List Event := [⟨9223372036854775808000000, deliverAccount accountBundle5⟩]

/-- Its row is stamped with a negative number, and a prune at the same moment removes it. -/
theorem not_kept_by_last_publish :
    lastPublish crates (crates.hexEncode publicKey.val) farFuture
      = some 9223372036854775808000000 ∧
    (nowMs 9223372036854775808000000).toNat = 2 ^ 63 ∧
    (accountRow (crates.hexEncode publicKey.val) (tablesAfter crates farFuture)).map
      AccountBundleRow.updatedAt = some (-2 ^ 63) ∧
    max 0 (((nowMs 9223372036854775808000000).toNat : ℤ) - 1)
      ≤ (nowMs 9223372036854775808000000).toNat ∧
    accountRow (crates.hexEncode publicKey.val) (tablesAfter crates
      (farFuture ++ [⟨9223372036854775808000000, .pruneAccounts ⟨0, 1000000⟩⟩])) = none := by
  refine ⟨by decide +kernel, by decide +kernel, by decide +kernel, by decide +kernel,
    by decide +kernel⟩

end Reference

end ChatStore
