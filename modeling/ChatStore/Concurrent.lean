import ChatStore.Library.Serialisable
import ChatStore.Reference

/-!
# The store under concurrent calls

The methods of the store, await by await. The methods that write take the store's write lock and
read the clock before anything else; `upsert_account` and `put_account_log` read and write in a
transaction, of which nothing is seen before its `COMMIT`; `prune_key_packages` deletes in two
statements. The methods that read are one `SELECT`, without the lock.

A single statement and a `COMMIT` are one step. A call may be dropped at every await: the statement
it waits for has then been executed or not, and an open transaction is rolled back.

`concurrent_calls_serialise` is the account of what such a run amounts to: the sequential methods of
the store, one after the other in the order of the lock.
-/

namespace ChatStore

open Library Store

namespace Concurrent

variable (A : AccountLogCrate)

/-! ## Calls and operations -/

/-- A call of a method that takes the write lock. -/
inductive Call
  | insert (deviceId : String) (bundle : StoredKeyPackageBundle)
  | upsertAccount (accountPub : String) (lamport : UInt64) (bundle : StoredAccountBundle)
  | putAccountLog (candidate : A.AccountRecord)
  | pruneAccounts (retention : Duration)
  | pruneKeyPackages (maxPerIdentity : UInt64) (retention : Duration)

/-- A call of a method that reads. -/
inductive Query
  | latest (deviceId : String)
  | getAccount (accountPub : String)
  | getAccountLog (addr : A.AccountAddr)

/-- What a sequential run consists of, besides the queries. -/
inductive Op
  | insert (now : SystemTime) (deviceId : String) (bundle : StoredKeyPackageBundle)
  | upsertAccount (now : SystemTime) (accountPub : String) (lamport : UInt64)
      (bundle : StoredAccountBundle)
  | putAccountLog (now : SystemTime) (candidate : A.AccountRecord)
  | pruneAccounts (now : SystemTime) (retention : Duration)
  | deleteExpired (now : SystemTime) (retention : Duration)
  | deleteExcess (maxPerIdentity : UInt64)

/-- What a method returns. -/
inductive Answer
  | inserted (result : Except (StoreError A) Unit)
  | upserted (result : Except (StoreError A) Bool)
  | put (result : Except (StoreError A) Outcome)
  | pruned (result : Except (StoreError A) Unit)
  | latest (bundle : Option StoredKeyPackageBundle)
  | account (bundle : Option StoredAccountBundle)
  | accountLog (signedLog : Option Bytes)

variable {A}

/-! ## The methods under the lock -/

/-- `Store::insert`. -/
def insertSection (now : SystemTime) (deviceId : String) (bundle : StoredKeyPackageBundle) :
    CriticalSection Tables (Answer A) :=
  .publish (fun s ↦ (insert (A := A) now deviceId bundle s).1) fun s ↦
    .done (.inserted (insert now deviceId bundle s).2)

/-- `Store::upsert_account`. -/
def upsertAccountSection (now : SystemTime) (accountPub : String) (lamport : UInt64)
    (bundle : StoredAccountBundle) : CriticalSection Tables (Answer A) :=
  -- BEGIN
  .look fun _ ↦
  -- SELECT
  .look fun s ↦
    if isStale lamport (accountRow accountPub s) then .done (.upserted (.ok false))
    else
      -- INSERT, inside the transaction
      .look fun _ ↦
      -- COMMIT
      .publish
        (fun s ↦
          { s with accountBundles := s.accountBundles.upsert (upsertedRow now accountPub bundle) })
        fun _ ↦ .done (.upserted (.ok true))

/-- `Store::put_account_log`. -/
def putAccountLogSection (now : SystemTime) (candidate : A.AccountRecord) :
    CriticalSection Tables (Answer A) :=
  -- BEGIN
  .look fun _ ↦
  -- SELECT
  .look fun s ↦
    match logUpdate candidate (logRow (recordKey candidate) s) with
    | .error err => .done (.put (.error err))
    | .ok update =>
      if update.outcome ≠ .updated then .done (.put (.ok update.outcome))
      else
        -- INSERT, inside the transaction
        .look fun _ ↦
        -- COMMIT
        .publish
          (fun s ↦
            { s with accountLogs := s.accountLogs.upsert (putRow now candidate update.record) })
          fun _ ↦ .done (.put (.ok .updated))

/-- `Store::prune_accounts`. -/
def pruneAccountsSection (now : SystemTime) (retention : Duration) :
    CriticalSection Tables (Answer A) :=
  .publish (fun s ↦ (pruneAccounts (A := A) now retention s).1) fun s ↦
    .done (.pruned (pruneAccounts now retention s).2)

/-- `Store::prune_key_packages`. -/
def pruneKeyPackagesSection (now : SystemTime) (maxPerIdentity : UInt64) (retention : Duration) :
    CriticalSection Tables (Answer A) :=
  .publish (deleteExpired now retention) fun _ ↦
  .publish (deleteExcess maxPerIdentity) fun _ ↦ .done (.pruned (.ok ()))

/-! ## The store as calls under a mutex -/

def Call.body : Call A → SystemTime → CriticalSection Tables (Answer A)
  | .insert deviceId bundle, now => insertSection now deviceId bundle
  | .upsertAccount accountPub lamport bundle, now =>
    upsertAccountSection now accountPub lamport bundle
  | .putAccountLog candidate, now => putAccountLogSection now candidate
  | .pruneAccounts retention, now => pruneAccountsSection now retention
  | .pruneKeyPackages maxPerIdentity retention, now =>
    pruneKeyPackagesSection now maxPerIdentity retention

/-- A call counts as one operation, `prune_key_packages` as its two statements. -/
def Call.ops : Call A → SystemTime → List (Op A)
  | .insert deviceId bundle, now => [.insert now deviceId bundle]
  | .upsertAccount accountPub lamport bundle, now => [.upsertAccount now accountPub lamport bundle]
  | .putAccountLog candidate, now => [.putAccountLog now candidate]
  | .pruneAccounts retention, now => [.pruneAccounts now retention]
  | .pruneKeyPackages maxPerIdentity retention, now =>
    [.deleteExpired now retention, .deleteExcess maxPerIdentity]

/-- The sequential methods of the store. -/
def Op.apply : Op A → Tables → Tables × Answer A
  | .insert now deviceId bundle, s => (Store.insert now deviceId bundle s).map id .inserted
  | .upsertAccount now accountPub lamport bundle, s =>
    (Store.upsertAccount now accountPub lamport bundle s).map id .upserted
  | .putAccountLog now candidate, s => (Store.putAccountLog now candidate s).map id .put
  | .pruneAccounts now retention, s => (Store.pruneAccounts now retention s).map id .pruned
  | .deleteExpired now retention, s => (Store.deleteExpired now retention s, .pruned (.ok ()))
  | .deleteExcess maxPerIdentity, s => (Store.deleteExcess maxPerIdentity s, .pruned (.ok ()))

def Query.read : Query A → Tables → Answer A
  | .latest deviceId, s => .latest (Store.latest deviceId s)
  | .getAccount accountPub, s => .account (Store.getAccount accountPub s)
  | .getAccountLog addr, s => .accountLog (Store.getAccountLog addr s)

variable (A) in
/-- The store and its write lock. -/
def storeLock : Mutex Tables (Call A) (Query A) (Op A) SystemTime (Answer A) where
  body := Call.body
  query := Query.read
  ops := Call.ops
  apply := Op.apply

/-! ## Each method left alone -/

theorem does_upsertAccountSection (now : SystemTime) (accountPub : String) (lamport : UInt64)
    (bundle : StoredAccountBundle) (s : Tables) :
    (upsertAccountSection (A := A) now accountPub lamport bundle).Does Op.apply
      [.upsertAccount now accountPub lamport bundle] none s := by
  have happly : Op.apply (A := A) (.upsertAccount now accountPub lamport bundle) s
      = (upsertAccount now accountPub lamport bundle s).map id .upserted := rfl
  simp only [upsertAccountSection, CriticalSection.Does]
  by_cases hstale : isStale lamport (accountRow accountPub s) = true
  · rw [upsertAccount, if_pos hstale] at happly
    rw [if_pos hstale]
    exact Or.inr ⟨_, rfl, happly⟩
  · rw [upsertAccount, if_neg hstale] at happly
    rw [if_neg hstale]
    refine ⟨_, [], rfl, congrArg Prod.fst happly, Or.inl ⟨rfl, ?_⟩⟩
    exact congrArg (fun result ↦ some result.2) happly

theorem does_putAccountLogSection (now : SystemTime) (candidate : A.AccountRecord) (s : Tables) :
    (putAccountLogSection now candidate).Does Op.apply [.putAccountLog now candidate] none s := by
  have happly : Op.apply (.putAccountLog now candidate) s
      = (putAccountLog now candidate s).map id .put := rfl
  simp only [putAccountLogSection, CriticalSection.Does]
  obtain ⟨err, hupd, hput⟩ | ⟨update, hupd, hout, hput⟩ | ⟨update, hupd, hout, hput⟩ :=
    putAccountLog_cases now candidate s
  · rw [hput] at happly
    rw [hupd]
    exact Or.inr ⟨_, rfl, happly⟩
  · rw [hput] at happly
    rw [hupd]
    simp only [if_pos hout]
    exact Or.inr ⟨_, rfl, happly⟩
  · rw [hput] at happly
    rw [hupd]
    simp only [hout, ne_eq, not_true_eq_false, if_false]
    refine ⟨_, [], rfl, congrArg Prod.fst happly, Or.inl ⟨rfl, ?_⟩⟩
    exact congrArg (fun result ↦ some result.2) happly

/-- Left alone under the lock, each method does what its sequential version does. -/
theorem storeLock_sound : (storeLock A).Sound := by
  intro call now s
  rcases call with ⟨deviceId, bundle⟩ | ⟨accountPub, lamport, bundle⟩ | candidate | retention |
    ⟨maxPerIdentity, retention⟩
  · exact ⟨_, [], rfl, rfl, Or.inl ⟨rfl, rfl⟩⟩
  · exact does_upsertAccountSection now accountPub lamport bundle s
  · exact does_putAccountLogSection now candidate s
  · exact ⟨_, [], rfl, rfl, Or.inl ⟨rfl, rfl⟩⟩
  · exact ⟨_, _, rfl, rfl, _, [], rfl, rfl, Or.inl ⟨rfl, rfl⟩⟩

/-! ## No lost update -/

/-- What one entry of a schedule does to the row of an account. -/
theorem accountRow_serial {accountPub : String} {row : AccountBundleRow} {t : ℕ}
    {action : Op A ⊕ Query A} {s : Tables}
    (h : accountRow accountPub ((storeLock A).serial.step s (t, action)).1 = some row) :
    accountRow accountPub s = some row ∨ ∃ now lamport bundle,
      action = .inl (.upsertAccount now accountPub lamport bundle) ∧
        row = upsertedRow now accountPub bundle ∧
          isStale lamport (accountRow accountPub s) = false := by
  rcases action with op | q
  · change accountRow accountPub (op.apply s).1 = some row at h
    rcases op with ⟨now, deviceId, bundle⟩ | ⟨now, key, lamport, bundle⟩ | ⟨now, candidate⟩ |
      ⟨now, retention⟩ | ⟨now, retention⟩ | maxPerIdentity
    · change (insert (A := A) now deviceId bundle s).1.accountBundles.find? accountPub = _ at h
      rw [(insert_frame now deviceId bundle s).1] at h
      exact Or.inl h
    · change accountRow accountPub (upsertAccount (A := A) now key lamport bundle s).1 = _ at h
      rw [accountRow_upsertAccount] at h
      split at h
      next hwritten =>
        obtain ⟨rfl, hstale⟩ := hwritten
        exact Or.inr ⟨now, lamport, bundle, rfl, (Option.some.inj h).symm, hstale⟩
      next => exact Or.inl h
    · change (putAccountLog now candidate s).1.accountBundles.find? accountPub = _ at h
      rw [(putAccountLog_frame now candidate s).2] at h
      exact Or.inl h
    · change accountRow accountPub (pruneAccounts (A := A) now retention s).1 = _ at h
      rw [accountRow_pruneAccounts] at h
      exact Or.inl (Option.filter_eq_some_iff.mp h).1
    · exact Or.inl h
    · exact Or.inl h
  · exact Or.inl h

/-- What one entry of a schedule does to the log of an account. -/
theorem logRow_serial {accountPub : String} {row : AccountLogRow} {t : ℕ}
    {action : Op A ⊕ Query A} {s : Tables}
    (h : logRow accountPub ((storeLock A).serial.step s (t, action)).1 = some row) :
    logRow accountPub s = some row ∨ ∃ now candidate update,
      action = .inl (.putAccountLog now candidate) ∧ recordKey candidate = accountPub ∧
        logUpdate candidate (logRow accountPub s) = .ok update ∧ update.outcome = .updated ∧
          row = putRow now candidate update.record := by
  rcases action with op | q
  · change logRow accountPub (op.apply s).1 = some row at h
    rcases op with ⟨now, deviceId, bundle⟩ | ⟨now, key, lamport, bundle⟩ | ⟨now, candidate⟩ |
      ⟨now, retention⟩ | ⟨now, retention⟩ | maxPerIdentity
    · change (insert (A := A) now deviceId bundle s).1.accountLogs.find? accountPub = _ at h
      rw [(insert_frame now deviceId bundle s).2] at h
      exact Or.inl h
    · change (upsertAccount (A := A) now key lamport bundle s).1.accountLogs.find? _ = _ at h
      rw [(upsertAccount_frame now key lamport bundle s).2] at h
      exact Or.inl h
    · change logRow accountPub (putAccountLog now candidate s).1 = _ at h
      by_cases hkey : recordKey candidate = accountPub
      · subst hkey
        obtain ⟨err, -, hput⟩ | ⟨update, -, -, hput⟩ | ⟨update, hupd, hout, hput⟩ :=
          putAccountLog_cases now candidate s
        · rw [hput] at h
          exact Or.inl h
        · rw [hput] at h
          exact Or.inl h
        · rw [hput] at h
          have hwritten := Table.find?_upsert_self s.accountLogs
            (putRow now candidate update.record)
          exact Or.inr ⟨now, candidate, update, rfl, rfl, hupd, hout,
            Option.some.inj (h.symm.trans hwritten)⟩
      · rw [logRow_putAccountLog_of_ne hkey] at h
        exact Or.inl h
    · exact Or.inl h
    · exact Or.inl h
    · exact Or.inl h
  · exact Or.inl h

/-- A step that puts another row on file is the `COMMIT` of a call that compared its bundle or log
with the row on file at this very moment. -/
structure NoLostUpdate (s : Tables) (labels : List (Mutex.Label (Call A) (Query A) SystemTime ℕ)) :
    Prop where
  account : ∀ past label, past ++ [label] <+: labels → ∀ accountPub row,
    accountRow accountPub ((storeLock A).after s (past ++ [label])).shared = some row →
      accountRow accountPub ((storeLock A).after s past).shared = some row ∨
      ∃ t now lamport bundle,
        (storeLock A).schedule s (past ++ [label]) = (storeLock A).schedule s past
          ++ [(t, .inl (.upsertAccount now accountPub lamport bundle))] ∧
        row = upsertedRow now accountPub bundle ∧
        isStale lamport (accountRow accountPub ((storeLock A).after s past).shared) = false
  log : ∀ past label, past ++ [label] <+: labels → ∀ accountPub row,
    logRow accountPub ((storeLock A).after s (past ++ [label])).shared = some row →
      logRow accountPub ((storeLock A).after s past).shared = some row ∨
      ∃ t now candidate update,
        (storeLock A).schedule s (past ++ [label]) = (storeLock A).schedule s past
          ++ [(t, .inl (.putAccountLog now candidate))] ∧
        recordKey candidate = accountPub ∧
        logUpdate candidate (logRow accountPub ((storeLock A).after s past).shared) = .ok update ∧
        update.outcome = .updated ∧ row = putRow now candidate update.record

theorem noLostUpdate (s : Tables) (labels : List (Mutex.Label (Call A) (Query A) SystemTime ℕ)) :
    NoLostUpdate s labels := by
  refine ⟨fun past label _ accountPub row hrow ↦ ?_, fun past label _ accountPub row hrow ↦ ?_⟩
  · rcases Mutex.shared_concat_cases storeLock_sound s past label with
      hsame | ⟨action, hlast, hstep⟩
    · exact Or.inl (hsame ▸ hrow)
    · obtain ⟨t, action⟩ := action
      rw [hstep] at hrow
      rcases accountRow_serial hrow with hkept | ⟨now, lamport, bundle, rfl, hwritten, hstale⟩
      · exact Or.inl hkept
      · exact Or.inr ⟨t, now, lamport, bundle, hlast, hwritten, hstale⟩
  · rcases Mutex.shared_concat_cases storeLock_sound s past label with
      hsame | ⟨action, hlast, hstep⟩
    · exact Or.inl (hsame ▸ hrow)
    · obtain ⟨t, action⟩ := action
      rw [hstep] at hrow
      rcases logRow_serial hrow with hkept | ⟨now, candidate, update, rfl, hput⟩
      · exact Or.inl hkept
      · exact Or.inr ⟨t, now, candidate, update, hlast, hput⟩

/-- **Concurrent calls are serialisable.** Whatever the order of the steps, and whichever calls are
dropped at whichever await, the calls that took the lock did their sequential methods one after the
other in that order, the reads saw the tables in between, a dropped call has happened entirely or
not at all, and nothing is overwritten by what was compared with an older row. -/
theorem concurrent_calls_serialise (s : Tables)
    (labels : List (Mutex.Label (Call A) (Query A) SystemTime ℕ)) :
    (storeLock A).Serialises s labels ∧
    (∀ turn ∈ ((storeLock A).after s labels).turns,
      (∀ maxPerIdentity retention, turn.call ≠ .pruneKeyPackages maxPerIdentity retention) →
        Mutex.writesOf turn.task ((storeLock A).schedule s labels) = [] ∨
          Mutex.writesOf turn.task ((storeLock A).schedule s labels) = turn.call.ops turn.now) ∧
    NoLostUpdate s labels := by
  have hserialises := Mutex.serialises storeLock_sound s labels
  refine ⟨hserialises, fun turn hturn hcall ↦ ?_, noLostUpdate s labels⟩
  obtain ⟨op, hop⟩ : ∃ op, turn.call.ops turn.now = [op] := by
    rcases hkind : turn.call with _ | _ | _ | _ | ⟨maxPerIdentity, retention⟩
    · exact ⟨_, rfl⟩
    · exact ⟨_, rfl⟩
    · exact ⟨_, rfl⟩
    · exact ⟨_, rfl⟩
    · exact absurd hkind (hcall maxPerIdentity retention)
  have hinitial : Mutex.writesOf turn.task ((storeLock A).schedule s labels) <+: [op] :=
    hop ▸ hserialises.initial turn hturn
  rw [hop]
  rcases List.prefix_cons_iff.mp hinitial with hnone | ⟨rest, hsome, hrest⟩
  · exact Or.inl hnone
  · rw [List.prefix_nil.mp hrest] at hsome
    exact Or.inr hsome

/-- Two publishes for one account: the first to take the lock is dropped before its `COMMIT`. -/
example :
    let stored (b : Bundle) : StoredAccountBundle := ⟨b.payload, b.signature, 0⟩
    let final := (storeLock Reference.log).after Tables.empty
      [.invoke (ι := ℕ) 0 (.upsertAccount "a" 5 (stored Reference.accountBundle5)),
        .invoke 1 (.upsertAccount "a" 6 (stored Reference.accountBundle6)),
        .lock 1 0, .advance, .advance, .advance, .cancel 1,
        .lock 0 0, .advance, .advance, .advance, .advance, .advance]
    storedLamport (accountRow "a" final.shared) = some 5 := by
  decide +kernel

end Concurrent

end ChatStore
