import ChatStore.Crates
import ChatStore.Library.Table
import Mathlib.Algebra.Group.Int.Defs
import Mathlib.Algebra.GroupWithZero.Nat

/-!
# The tables, and the clock

The three tables of the database, with the columns of the migrations. A table carries the
uniqueness of its primary key, so every value of `Tables` is a database the schema allows.

`received_at` and `updated_at` are signed 64-bit columns, filled from an unsigned clock by a cast.
They are integers here, and the casts are explicit.
-/

namespace ChatStore

open Library

/-! ## Schema -/

/-- A row of `keypackages`. -/
structure KeyPackageRow where
  deviceId : String
  receivedAt : ℤ
  payload : Bytes
  signature : Bytes
  deriving DecidableEq

/-- The primary key of `keypackages`. -/
def KeyPackageRow.key (r : KeyPackageRow) : String × ℤ := (r.deviceId, r.receivedAt)

/-- A row of `account_bundles`, whose primary key is `account_pub`. -/
structure AccountBundleRow where
  accountPub : String
  updatedAt : ℤ
  payload : Bytes
  signature : Bytes
  deriving DecidableEq

/-- A row of `account_logs`, whose primary key is `account_pub`. -/
structure AccountLogRow where
  accountPub : String
  updatedAt : ℤ
  signedLog : Bytes
  deriving DecidableEq

/-- The database. -/
@[ext] structure Tables where
  keypackages : Table KeyPackageRow KeyPackageRow.key
  accountBundles : Table AccountBundleRow AccountBundleRow.accountPub
  accountLogs : Table AccountLogRow AccountLogRow.accountPub

/-- The database as the migrations leave it. -/
def Tables.empty : Tables := ⟨Table.empty, Table.empty, Table.empty⟩

/-! ## What the store hands out -/

/-- A keypackage bundle as stored and served. -/
structure StoredKeyPackageBundle where
  payload : Bytes
  signature : Bytes
  deriving DecidableEq

/-- An account bundle as stored and served. -/
structure StoredAccountBundle where
  payload : Bytes
  signature : Bytes
  updatedAt : ℤ
  deriving DecidableEq

def KeyPackageRow.bundle (r : KeyPackageRow) : StoredKeyPackageBundle := ⟨r.payload, r.signature⟩

def AccountBundleRow.bundle (r : AccountBundleRow) : StoredAccountBundle :=
  ⟨r.payload, r.signature, r.updatedAt⟩

/-- The errors of the store, other than those of input and output. -/
inductive StoreError (A : AccountLogCrate)
  /-- A primary key is taken. -/
  | uniqueViolation
  /-- The stored account log is not a signed log. -/
  | storedLogMalformed (err : A.AccountLogError)
  /-- "stored account log no longer verifies". -/
  | storedLogInvalid (err : A.AccountLogError)
  /-- "unexpected account log outcome". -/
  | unexpectedOutcome (outcome : Outcome)

/-! ## The clock -/

/-- A reading of the server's wall clock: nanoseconds since the Unix epoch, negative before it. -/
abbrev SystemTime := ℤ

/-- The clock in milliseconds. A reading before the epoch counts as the epoch, and the narrowing to
64 bits truncates. -/
def nowMs (now : SystemTime) : UInt64 := UInt64.ofNat (now.toNat / 1000000)

/-- The cast `as i64` of an unsigned 64-bit value. -/
def asI64 (n : UInt64) : ℤ := if n.toNat < 2 ^ 63 then n.toNat else n.toNat - 2 ^ 64

/-- The timestamp a row is stamped with. -/
def stamp (now : SystemTime) : ℤ := asI64 (nowMs now)

/-- `std::time::Duration`. -/
structure Duration where
  secs : UInt64
  subsecNanos : Fin 1000000000
  deriving DecidableEq

instance neZero_nanosPerSec : NeZero 1000000000 := ⟨by decide⟩

/-- `Duration::from_secs`. -/
def Duration.fromSecs (secs : UInt64) : Duration := ⟨secs, 0⟩

/-- `Duration::as_millis`, a 128-bit value. -/
def Duration.asMillis (d : Duration) : ℕ := d.secs.toNat * 1000 + d.subsecNanos / 1000000

/-- `u64::saturating_sub`. -/
def saturatingSub (a b : UInt64) : UInt64 := UInt64.ofNat (a.toNat - b.toNat)

/-- The cutoff a prune binds: rows stamped before it are dropped. -/
def cutoffMs (now : SystemTime) (retention : Duration) : ℤ :=
  asI64 (saturatingSub (nowMs now) (UInt64.ofNat retention.asMillis))

/-- Without retention the cutoff is the present. -/
theorem cutoffMs_zero (now : SystemTime) : cutoffMs now ⟨0, 0⟩ = stamp now := by
  have h : saturatingSub (nowMs now) (UInt64.ofNat (Duration.asMillis ⟨0, 0⟩)) = nowMs now := by
    simp [saturatingSub, Duration.asMillis]
  rw [cutoffMs, stamp, h]

end ChatStore
