import ChatStore.Pruning

/-!
# The prune task and its configured retention

`main` turns the retention of the command line from days into a `Duration`, and the prune task hands
it to both prunes, which turn it into milliseconds and subtract it from the clock. The chain has
four conversions: a product of 64-bit values, a 128-bit number of milliseconds narrowed to 64 bits,
a subtraction that saturates, and a cast to a signed value.

`retentionHonoured_iff` says for which settings none of them goes wrong. The first to fail is the
narrowing: from `2 ^ 64` milliseconds on, what is left of the retention is its remainder.
-/

namespace ChatStore

open Library Store

/-! ## The task -/

/-- The options of the command line that the prune task reads. -/
structure Cli where
  maxPerIdentity : UInt64
  retentionDays : UInt64

/-- A product of `u64`. Where it does not fit, a build with overflow checks panics, which is `none`,
and any other build wraps. -/
def mul (overflowChecks : Bool) (a b : UInt64) : Option UInt64 :=
  if overflowChecks ∧ 2 ^ 64 ≤ a.toNat * b.toNat then none else some (a * b)

/-- The retention that `main` computes before it spawns the task. -/
def Cli.retention (cli : Cli) (overflowChecks : Bool) : Option Duration := do
  let hours ← mul overflowChecks cli.retentionDays 24
  let secs ← mul overflowChecks hours 3600
  return Duration.fromSecs secs

/-- One tick of the task. Either prune reads the clock for itself. -/
def Cli.tick (cli : Cli) (retention : Duration) (now now' : SystemTime) : List Event :=
  [⟨now, .pruneKeyPackages cli.maxPerIdentity retention⟩, ⟨now', .pruneAccounts retention⟩]

/-! ## Conversions -/

/-- The clock in milliseconds, before it is narrowed. -/
def clockMs (now : SystemTime) : ℕ := now.toNat / 1000000

theorem toNat_nowMs {now : SystemTime} (h : clockMs now < 2 ^ 63) :
    (nowMs now).toNat = clockMs now := by
  rw [nowMs, UInt64.toNat_ofNat']
  exact Nat.mod_eq_of_lt (h.trans (by decide))

theorem toNat_saturatingSub (a b : UInt64) : (saturatingSub a b).toNat = a.toNat - b.toNat := by
  have hlt := a.toNat_lt
  rw [saturatingSub, UInt64.toNat_ofNat']
  exact Nat.mod_eq_of_lt (by omega)

/-- While the clock fits a signed value, the cutoff is what the two unsigned values leave. -/
theorem cutoffMs_eq {now : SystemTime} (retention : Duration) (h : clockMs now < 2 ^ 63) :
    cutoffMs now retention = (clockMs now - retention.asMillis % 2 ^ 64 : ℕ) := by
  have hsub : (saturatingSub (nowMs now) (UInt64.ofNat retention.asMillis)).toNat
      = clockMs now - retention.asMillis % 2 ^ 64 := by
    rw [toNat_saturatingSub, toNat_nowMs h, UInt64.toNat_ofNat']
  rw [cutoffMs, asI64_of_lt (by omega), hsub]

theorem mul_of_lt (overflowChecks : Bool) {a b : UInt64} (h : a.toNat * b.toNat < 2 ^ 64) :
    mul overflowChecks a b = some (a * b) ∧ (a * b).toNat = a.toNat * b.toNat := by
  refine ⟨if_neg fun hc ↦ absurd hc.2 (not_le.mpr h), ?_⟩
  rw [UInt64.toNat_mul, Nat.mod_eq_of_lt h]

/-! ## The configured retention -/

/-- The configured retention in milliseconds, over the integers. -/
def Cli.retentionMs (cli : Cli) : ℕ := cli.retentionDays.toNat * 86400000

/-- The cutoff that the configuration asks for. -/
def Cli.cutoff (cli : Cli) (now : SystemTime) : ℤ := max 0 ((clockMs now : ℤ) - cli.retentionMs)

/-- A duration is the configured retention through every conversion, and both prunes delete for age
what is older, and nothing else. -/
structure Honours (cli : Cli) (retention : Duration) : Prop where
  /-- The product does not overflow. -/
  seconds : retention.secs.toNat = cli.retentionDays.toNat * 24 * 3600
  /-- The milliseconds fit 64 bits. -/
  millis : (UInt64.ofNat retention.asMillis).toNat = retention.asMillis
  /-- The cutoff survives its cast. -/
  cast : ∀ now, clockMs now < 2 ^ 63 → cutoffMs now retention
    = (saturatingSub (nowMs now) (UInt64.ofNat retention.asMillis)).toNat
  cutoff : ∀ now, clockMs now < 2 ^ 63 → cutoffMs now retention = cli.cutoff now
  keypackages : ∀ now s r, clockMs now < 2 ^ 63 →
    (r ∈ (deleteExpired now retention s).keypackages.rows
      ↔ r ∈ s.keypackages.rows ∧ cli.cutoff now ≤ r.receivedAt)
  accountBundles : ∀ (A : AccountLogCrate) now s r, clockMs now < 2 ^ 63 →
    (r ∈ (pruneAccounts (A := A) now retention s).1.accountBundles.rows
      ↔ r ∈ s.accountBundles.rows ∧ cli.cutoff now ≤ r.updatedAt)

/-- The configured retention is honoured in a build with or without overflow checks. -/
def RetentionHonoured (overflowChecks : Bool) (cli : Cli) : Prop :=
  ∃ retention, cli.retention overflowChecks = some retention ∧ Honours cli retention

variable {cli : Cli} {now : SystemTime} {retention : Duration}

theorem mem_pruneAccounts {A : AccountLogCrate} {s : Tables} {r : AccountBundleRow} :
    r ∈ (pruneAccounts (A := A) now retention s).1.accountBundles.rows
      ↔ r ∈ s.accountBundles.rows ∧ cutoffMs now retention ≤ r.updatedAt := by
  rw [pruneAccounts, Table.rows_deleteWhere, List.mem_filter]
  simp

theorem mem_deleteExpired {s : Tables} {r : KeyPackageRow} :
    r ∈ (deleteExpired now retention s).keypackages.rows
      ↔ r ∈ s.keypackages.rows ∧ cutoffMs now retention ≤ r.receivedAt :=
  mem_deleteBefore

/-- A retention that fits 64 bits of milliseconds is computed exactly, in either build. -/
theorem retention_of_lt (overflowChecks : Bool) (h : cli.retentionMs < 2 ^ 64) :
    ∃ secs : UInt64, cli.retention overflowChecks = some (Duration.fromSecs secs) ∧
      secs.toNat = cli.retentionDays.toNat * 24 * 3600 := by
  rw [Cli.retentionMs] at h
  have h24 : (24 : UInt64).toNat = 24 := rfl
  have h3600 : (3600 : UInt64).toNat = 3600 := rfl
  have hlt : cli.retentionDays.toNat * (24 : UInt64).toNat < 2 ^ 64 := by
    rw [h24]
    omega
  obtain ⟨hhours, hhours'⟩ := mul_of_lt overflowChecks hlt
  have hlt' : (cli.retentionDays * 24).toNat * (3600 : UInt64).toNat < 2 ^ 64 := by
    rw [hhours', h24, h3600]
    have hle : cli.retentionDays.toNat * 24 * 3600 ≤ cli.retentionDays.toNat * 86400000 := by omega
    exact hle.trans_lt h
  obtain ⟨hsecs, hsecs'⟩ := mul_of_lt overflowChecks hlt'
  refine ⟨cli.retentionDays * 24 * 3600, ?_, ?_⟩
  · rw [Cli.retention, hhours, Option.bind_eq_bind, Option.bind_some, hsecs]
    rfl
  · rw [hsecs', hhours', h24, h3600]

theorem asMillis_fromSecs (secs : UInt64) :
    (Duration.fromSecs secs).asMillis = secs.toNat * 1000 := by
  simp [Duration.asMillis, Duration.fromSecs]

/-- A duration of as many seconds as configured is honoured when it fits. -/
theorem honours_of_lt {secs : UInt64} (h : cli.retentionMs < 2 ^ 64)
    (hsecs : secs.toNat = cli.retentionDays.toNat * 24 * 3600) :
    Honours cli (Duration.fromSecs secs) := by
  have hmillis : (Duration.fromSecs secs).asMillis = cli.retentionMs := by
    rw [asMillis_fromSecs, hsecs, Cli.retentionMs]
    omega
  have hcutoff : ∀ now, clockMs now < 2 ^ 63 →
      cutoffMs now (Duration.fromSecs secs) = cli.cutoff now := by
    intro now hnow
    rw [cutoffMs_eq _ hnow, hmillis, Nat.mod_eq_of_lt h, Cli.cutoff]
    omega
  refine ⟨hsecs, ?_, fun now hnow ↦ ?_, hcutoff, fun now s r hnow ↦ ?_, fun A now s r hnow ↦ ?_⟩
  · rw [UInt64.toNat_ofNat', hmillis, Nat.mod_eq_of_lt h]
  · rw [cutoffMs_eq _ hnow, toNat_saturatingSub, toNat_nowMs hnow, UInt64.toNat_ofNat']
  · rw [mem_deleteExpired, hcutoff now hnow]
  · rw [mem_pruneAccounts, hcutoff now hnow]

/-- Without overflow checks the retention is what is left of the milliseconds. -/
theorem retention_wraps (cli : Cli) :
    ∃ retention, cli.retention false = some retention ∧
      retention.asMillis % 2 ^ 64 = cli.retentionMs % 2 ^ 64 := by
  refine ⟨Duration.fromSecs (cli.retentionDays * 24 * 3600), rfl, ?_⟩
  have h24 : (24 : UInt64).toNat = 24 := rfl
  have h3600 : (3600 : UInt64).toNat = 3600 := rfl
  rw [asMillis_fromSecs, UInt64.toNat_mul, UInt64.toNat_mul, h24, h3600, Cli.retentionMs]
  omega

/-- **When the configured retention is honoured.** It is exactly while it fits 64 bits of
milliseconds, in builds of both kinds. Beyond that, the release build binds the configured cutoff at
every moment only if the remainder of the retention happens to reach back behind every clock. -/
theorem retentionHonoured_iff (cli : Cli) :
    (∀ overflowChecks, RetentionHonoured overflowChecks cli ↔ cli.retentionMs < 2 ^ 64) ∧
    ((∀ retention ∈ cli.retention false, ∀ now, clockMs now < 2 ^ 63 →
        cutoffMs now retention = cli.cutoff now)
      ↔ cli.retentionMs < 2 ^ 64 ∨ 2 ^ 63 - 1 ≤ cli.retentionMs % 2 ^ 64) := by
  constructor
  · intro overflowChecks
    constructor
    · rintro ⟨retention, -, h⟩
      have hle : cli.retentionMs ≤ retention.asMillis := by
        rw [Duration.asMillis, h.seconds, Cli.retentionMs]
        omega
      have hlt := (UInt64.ofNat retention.asMillis).toNat_lt
      rw [h.millis] at hlt
      exact hle.trans_lt hlt
    · intro h
      obtain ⟨secs, hretention, hsecs⟩ := retention_of_lt overflowChecks h
      exact ⟨_, hretention, honours_of_lt h hsecs⟩
  · obtain ⟨retention, hretention, hmillis⟩ := retention_wraps cli
    have hcutoff : ∀ now, clockMs now < 2 ^ 63 → (cutoffMs now retention = cli.cutoff now
        ↔ clockMs now - cli.retentionMs % 2 ^ 64 = clockMs now - cli.retentionMs) := by
      intro now hnow
      rw [cutoffMs_eq _ hnow, hmillis, Cli.cutoff]
      omega
    rw [hretention]
    constructor
    · intro h
      -- The last moment that fits a signed value tells the two apart.
      have hlast : clockMs ((2 ^ 63 - 1) * 1000000) = 2 ^ 63 - 1 := by decide
      have hat := (hcutoff _ (by rw [hlast]; norm_num)).mp (h retention rfl _ (by
        rw [hlast]
        norm_num))
      rw [hlast] at hat
      omega
    · intro h retention' hretention' now hnow
      obtain rfl := Option.mem_some_iff.mp hretention'
      rw [hcutoff now hnow]
      omega

namespace Reference

/-- A retention of about 584 million years, with the default cap. -/
def keepForever : Cli := ⟨100, 213503982335⟩

/-- Whatever the build, a keypackage does not survive its first day. -/
theorem not_retentionHonoured :
    (∀ overflowChecks, keepForever.retention overflowChecks
      = some (Duration.fromSecs 18446744073744000)) ∧
    (tablesAfter crates (justPublished ++ keepForever.tick (Duration.fromSecs 18446744073744000)
      86400000000000 86400000000000)).keypackages.rows = [] ∧
    ∀ overflowChecks, ¬RetentionHonoured overflowChecks keepForever := by
  have hretention : ∀ overflowChecks, keepForever.retention overflowChecks
      = some (Duration.fromSecs 18446744073744000) := by decide
  refine ⟨hretention, by decide +kernel, fun overflowChecks ↦ ?_⟩
  rintro ⟨retention, h, hhonours⟩
  obtain rfl := Option.some.inj ((hretention overflowChecks).symm.trans h)
  -- A day after the epoch the cutoff should be the epoch, and is fourteen hours later.
  exact absurd (hhonours.cutoff 86400000000000 (by decide)) (by decide)

end Reference

end ChatStore
