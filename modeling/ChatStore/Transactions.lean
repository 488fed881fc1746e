import ChatStore.Concurrent
import ChatStore.Library.Snapshot

/-!
# The statements of the store

`Concurrent` takes the steps of a method for steps on the tables themselves. What a method really
does is to send statements to SQLite, in deferred transactions on connections of their own. A
transaction reads the snapshot of its first `SELECT`. Its `INSERT` wants the write lock of the
database, and fails with `SQLITE_BUSY` when it cannot have it for the snapshot that was read.

The write lock of the store is there to prevent just that, and `transactions_serialise` says how far
it does. Whatever the interleaving, the statements do what the methods do one after the other, and
no method ever decides on an outdated row. `SQLITE_BUSY` is left for one case: a publish comes to its
`INSERT` while another one, dropped between its own `INSERT` and its `COMMIT`, has not been rolled
back. Without dropped requests no method fails (`not_failed_of_uncancelled`).
-/

namespace ChatStore

open Library Store

namespace Concurrent

variable {A : AccountLogCrate}

/-! ## The methods, statement by statement -/

/-- `Store::insert`. -/
def insertScript (now : SystemTime) (deviceId : String) (bundle : StoredKeyPackageBundle) :
    Script Tables (Answer A) :=
  .execute (fun s ↦ (insert (A := A) now deviceId bundle s).1) fun s ↦
    .done (.inserted (insert now deviceId bundle s).2)

/-- `Store::upsert_account`. -/
def upsertAccountScript (now : SystemTime) (accountPub : String) (lamport : UInt64)
    (bundle : StoredAccountBundle) : Script Tables (Answer A) :=
  .start <| .fetch fun s ↦
    if isStale lamport (accountRow accountPub s) then .done (.upserted (.ok false))
    else
      .write
        (fun s ↦
          { s with accountBundles := s.accountBundles.upsert (upsertedRow now accountPub bundle) })
        (.commit (.done (.upserted (.ok true))))

/-- `Store::put_account_log`. -/
def putAccountLogScript (now : SystemTime) (candidate : A.AccountRecord) :
    Script Tables (Answer A) :=
  .start <| .fetch fun s ↦
    match logUpdate candidate (logRow (recordKey candidate) s) with
    | .error err => .done (.put (.error err))
    | .ok update =>
      if update.outcome ≠ .updated then .done (.put (.ok update.outcome))
      else
        .write
          (fun s ↦
            { s with accountLogs := s.accountLogs.upsert (putRow now candidate update.record) })
          (.commit (.done (.put (.ok .updated))))

/-- `Store::prune_accounts`. -/
def pruneAccountsScript (now : SystemTime) (retention : Duration) : Script Tables (Answer A) :=
  .execute (fun s ↦ (pruneAccounts (A := A) now retention s).1) fun s ↦
    .done (.pruned (pruneAccounts now retention s).2)

/-- `Store::prune_key_packages`. -/
def pruneKeyPackagesScript (now : SystemTime) (maxPerIdentity : UInt64) (retention : Duration) :
    Script Tables (Answer A) :=
  .execute (deleteExpired now retention) fun _ ↦
  .execute (deleteExcess maxPerIdentity) fun _ ↦ .done (.pruned (.ok ()))

def Call.script : Call A → SystemTime → Script Tables (Answer A)
  | .insert deviceId bundle, now => insertScript now deviceId bundle
  | .upsertAccount accountPub lamport bundle, now =>
    upsertAccountScript now accountPub lamport bundle
  | .putAccountLog candidate, now => putAccountLogScript now candidate
  | .pruneAccounts retention, now => pruneAccountsScript now retention
  | .pruneKeyPackages maxPerIdentity retention, now =>
    pruneKeyPackagesScript now maxPerIdentity retention

/-! ## Statements and steps -/

theorem toSection_upsertAccountScript (now : SystemTime) (accountPub : String) (lamport : UInt64)
    (bundle : StoredAccountBundle) :
    (upsertAccountScript (A := A) now accountPub lamport bundle).toSection id
      = upsertAccountSection now accountPub lamport bundle := by
  rw [upsertAccountScript, upsertAccountSection, Script.toSection, Script.toSection]
  refine congrArg _ (funext fun _ ↦ congrArg _ (funext fun s ↦ ?_))
  rw [id_eq]
  split_ifs
  · rfl
  · rfl

theorem toSection_putAccountLogScript (now : SystemTime) (candidate : A.AccountRecord) :
    (putAccountLogScript now candidate).toSection id = putAccountLogSection now candidate := by
  rw [putAccountLogScript, putAccountLogSection, Script.toSection, Script.toSection]
  refine congrArg _ (funext fun _ ↦ congrArg _ (funext fun s ↦ ?_))
  rw [id_eq]
  rcases logUpdate candidate (logRow (recordKey candidate) s) with err | update
  · rfl
  · dsimp only
    split_ifs
    · rfl
    · rfl

theorem toSection_script (call : Call A) (now : SystemTime) :
    (storeLock A).body call now = (call.script now).toSection id := by
  induction call with
  | insert deviceId bundle => rfl
  | upsertAccount accountPub lamport bundle =>
    exact (toSection_upsertAccountScript now accountPub lamport bundle).symm
  | putAccountLog candidate => exact (toSection_putAccountLogScript now candidate).symm
  | pruneAccounts retention => rfl
  | pruneKeyPackages maxPerIdentity retention => rfl

theorem proper_upsertAccountScript (now : SystemTime) (accountPub : String) (lamport : UInt64)
    (bundle : StoredAccountBundle) :
    (upsertAccountScript (A := A) now accountPub lamport bundle).Proper .outside := by
  refine ⟨rfl, by simp, fun s ↦ ?_⟩
  dsimp only
  split_ifs
  · exact Stage.noConfusion
  · exact ⟨by simp, by simp, by simp [Script.Proper]⟩

theorem proper_putAccountLogScript (now : SystemTime) (candidate : A.AccountRecord) :
    (putAccountLogScript now candidate).Proper .outside := by
  refine ⟨rfl, by simp, fun s ↦ ?_⟩
  dsimp only
  rcases logUpdate candidate (logRow (recordKey candidate) s) with err | update
  · exact Stage.noConfusion
  · dsimp only
    split_ifs
    · exact Stage.noConfusion
    · exact ⟨by simp, by simp, by simp [Script.Proper]⟩

/-- No method drops a transaction in which it has written. -/
theorem proper_script (call : Call A) (now : SystemTime) : (call.script now).Proper .outside := by
  induction call with
  | insert deviceId bundle => exact ⟨rfl, fun _ ↦ Stage.noConfusion⟩
  | upsertAccount accountPub lamport bundle =>
    exact proper_upsertAccountScript now accountPub lamport bundle
  | putAccountLog candidate => exact proper_putAccountLogScript now candidate
  | pruneAccounts retention => exact ⟨rfl, fun _ ↦ Stage.noConfusion⟩
  | pruneKeyPackages maxPerIdentity retention =>
    exact ⟨rfl, fun _ ↦ ⟨rfl, fun _ ↦ Stage.noConfusion⟩⟩

end Concurrent

open Concurrent

variable {A : AccountLogCrate} {ι : Type} [DecidableEq ι]

/-- **The transactions of the store serialise**, whatever the interleaving and whichever calls are
dropped. -/
theorem transactions_serialise (s : Tables)
    (labels : List (Snapshot.Label (Call A) (Query A) SystemTime ι)) :
    Snapshot.Upholds (storeLock A) Call.script s labels :=
  Snapshot.upholds storeLock_sound toSection_script proper_script s labels

/-- Without dropped calls no call fails. -/
theorem not_failed_of_uncancelled (s : Tables)
    (labels : List (Snapshot.Label (Call A) (Query A) SystemTime ι))
    (h : ∀ t, .act (.cancel t) ∉ labels) (t : ι) :
    (Snapshot.after (storeLock A) Call.script s labels).phase t ≠ .returned none := by
  intro hfailed
  obtain ⟨past, u, hpre, -, hcancel, -⟩ :=
    (Snapshot.upholds storeLock_sound toSection_script proper_script s labels).failed t hfailed
  exact h u ((List.prefix_append _ _).trans hpre |>.subset hcancel)

end ChatStore
