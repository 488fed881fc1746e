import ChatStore.Store.Tables

/-!
# Account bundles: one row per account, the lamport only grows

`upsertAccount`, `getAccount` and `pruneAccounts` of the store, and the one thing the store reads
out of a payload, its lamport. The lamport of the row on file is not a column: it is read again from
the stored payload each time a candidate is compared with it.

The lemmas describe each operation by its effect on `accountRow`, the row of one account.
-/

namespace ChatStore

open Library

/-! ## The bundle header -/

/-- `BUNDLE_DOMAIN`. -/
def bundleDomain : Bytes :=
  "libchat:account-device-bundle\x00".toList.map fun c ↦ UInt8.ofNat c.toNat

/-- `u64::from_le_bytes`. -/
def fromLeBytes (bs : Bytes) : UInt64 :=
  UInt64.ofNat (bs.foldr (fun b n ↦ b.toNat + 256 * n) 0)

/-- `payload_lamport`: the eight bytes after the domain and the version byte. -/
def payloadLamport (payload : Bytes) : Option UInt64 := do
  let rest ← payload.dropPrefix? bundleDomain
  if 9 ≤ rest.length then some (fromLeBytes ((rest.take 9).drop 1)) else none

example : payloadLamport (bundleDomain ++ [1, 42, 0, 0, 0, 0, 0, 0, 0]) = some 42 := by decide

namespace Store

/-! ## The operations -/

/-- The row of an account. -/
def accountRow (accountPub : String) (s : Tables) : Option AccountBundleRow :=
  s.accountBundles.find? accountPub

/-- The lamport of the row on file. -/
def storedLamport (row : Option AccountBundleRow) : Option UInt64 :=
  row.bind fun r ↦ payloadLamport r.payload

/-- The comparison of `upsert_account`. A row whose payload yields no lamport refuses nothing. -/
def isStale (lamport : UInt64) (row : Option AccountBundleRow) : Bool :=
  (storedLamport row).any fun stored ↦ lamport ≤ stored

/-- The row an upsert writes. The timestamp of the bundle is ignored. -/
def upsertedRow (now : SystemTime) (accountPub : String) (bundle : StoredAccountBundle) :
    AccountBundleRow :=
  ⟨accountPub, stamp now, bundle.payload, bundle.signature⟩

/-- `Store::upsert_account`. -/
def upsertAccount {A : AccountLogCrate} (now : SystemTime) (accountPub : String) (lamport : UInt64)
    (bundle : StoredAccountBundle) (s : Tables) : Tables × Except (StoreError A) Bool :=
  if isStale lamport (accountRow accountPub s) then (s, .ok false)
  else
    ({ s with accountBundles := s.accountBundles.upsert (upsertedRow now accountPub bundle) },
      .ok true)

/-- `Store::get_account`. -/
def getAccount (accountPub : String) (s : Tables) : Option StoredAccountBundle :=
  (accountRow accountPub s).map AccountBundleRow.bundle

/-- `Store::prune_accounts`. -/
def pruneAccounts {A : AccountLogCrate} (now : SystemTime) (retention : Duration) (s : Tables) :
    Tables × Except (StoreError A) Unit :=
  ({ s with
      accountBundles := s.accountBundles.deleteWhere fun r ↦
        r.updatedAt < cutoffMs now retention }, .ok ())

/-! ## Effects -/

variable {A : AccountLogCrate} {now : SystemTime} {accountPub : String} {lamport : UInt64}
  {bundle : StoredAccountBundle} {s : Tables}

theorem isStale_iff {row : Option AccountBundleRow} :
    isStale lamport row = true ↔ ∃ stored, storedLamport row = some stored ∧ lamport ≤ stored := by
  rw [isStale, Option.any_eq_true]
  simp only [decide_eq_true_eq]

/-- An account's row changes only when a newer bundle is upserted under its key. -/
theorem accountRow_upsertAccount (accountPub' : String) :
    accountRow accountPub' (upsertAccount (A := A) now accountPub lamport bundle s).1
      = if accountPub = accountPub' ∧ isStale lamport (accountRow accountPub' s) = false then
          some (upsertedRow now accountPub bundle)
        else accountRow accountPub' s := by
  rw [upsertAccount]
  by_cases hkey : accountPub = accountPub'
  · subst hkey
    cases hstale : isStale lamport (accountRow accountPub s) with
    | true => rw [if_pos rfl, if_neg (by simp)]
    | false =>
      rw [if_neg (by simp), if_pos ⟨rfl, rfl⟩]
      exact Table.find?_upsert_self s.accountBundles (upsertedRow now accountPub bundle)
  · rw [if_neg fun hc : accountPub = accountPub' ∧ _ ↦ hkey hc.1]
    split_ifs
    · rfl
    · exact Table.find?_upsert_of_ne s.accountBundles hkey

theorem upsertAccount_frame (now : SystemTime) (accountPub : String) (lamport : UInt64)
    (bundle : StoredAccountBundle) (s : Tables) :
    (upsertAccount (A := A) now accountPub lamport bundle s).1.keypackages = s.keypackages ∧
      (upsertAccount (A := A) now accountPub lamport bundle s).1.accountLogs = s.accountLogs := by
  rw [upsertAccount]
  split
  · exact ⟨rfl, rfl⟩
  · exact ⟨rfl, rfl⟩

theorem accountRow_pruneAccounts (retention : Duration) (accountPub : String) :
    accountRow accountPub (pruneAccounts (A := A) now retention s).1
      = (accountRow accountPub s).filter fun r ↦
          !decide (r.updatedAt < cutoffMs now retention) :=
  Table.find?_deleteWhere _ _ _

end Store

end ChatStore
