import ChatStore.Library.Pool
import ChatStore.Server

/-!
# The connections of the store

`Store::open` gives the store a pool: one connection for a database in memory, which lives only as
long as that connection is open, and five for a database in a file. Requests in flight compete for
them, and the methods that write compete for the write lock as well, which they take first.

`requests_complete` says that this never goes wrong. However the requests are interleaved and
however few the connections are, somebody can go on until every request that was not dropped has its
response, and that takes eleven steps for each request at most.
-/

namespace ChatStore

open Library Store Concurrent

/-! ## The methods of the store -/

/-- `Store::open`: the connections of the pool, by the path of the database. -/
def maxConnections (path : String) : ℕ :=
  let isMemory := path = ":memory:"
  if isMemory then 1 else 5

theorem maxConnections_pos (path : String) : 1 ≤ maxConnections path := by
  rw [maxConnections]
  split_ifs <;> omega

section Sections

variable {A : AccountLogCrate}

theorem within_insertSection (now : SystemTime) (deviceId : String)
    (bundle : StoredKeyPackageBundle) : (insertSection (A := A) now deviceId bundle).Within 4 :=
  ⟨3, rfl, fun _ ↦ trivial⟩

theorem within_upsertAccountSection (now : SystemTime) (accountPub : String) (lamport : UInt64)
    (bundle : StoredAccountBundle) :
    (upsertAccountSection (A := A) now accountPub lamport bundle).Within 4 := by
  refine ⟨3, rfl, fun _ ↦ ⟨2, rfl, fun s ↦ ?_⟩⟩
  dsimp only
  split_ifs
  · exact trivial
  · exact ⟨1, rfl, fun _ ↦ ⟨0, rfl, fun _ ↦ trivial⟩⟩

theorem within_putAccountLogSection (now : SystemTime) (candidate : A.AccountRecord) :
    (putAccountLogSection now candidate).Within 4 := by
  refine ⟨3, rfl, fun _ ↦ ⟨2, rfl, fun s ↦ ?_⟩⟩
  dsimp only
  rcases logUpdate candidate (logRow (recordKey candidate) s) with err | update
  · exact trivial
  · dsimp only
    split_ifs
    · exact trivial
    · exact ⟨1, rfl, fun _ ↦ ⟨0, rfl, fun _ ↦ trivial⟩⟩

theorem within_pruneAccountsSection (now : SystemTime) (retention : Duration) :
    (pruneAccountsSection (A := A) now retention).Within 4 := ⟨3, rfl, fun _ ↦ trivial⟩

theorem within_pruneKeyPackagesSection (now : SystemTime) (maxPerIdentity : UInt64)
    (retention : Duration) :
    (pruneKeyPackagesSection (A := A) now maxPerIdentity retention).Within 4 :=
  ⟨3, rfl, fun _ ↦ ⟨2, rfl, fun _ ↦ trivial⟩⟩

/-- A method under the write lock has four awaits at most. -/
theorem within_body (call : Call A) (now : SystemTime) :
    ((storeLock A).body call now).Within 4 := by
  induction call with
  | insert deviceId bundle => exact within_insertSection now deviceId bundle
  | upsertAccount accountPub lamport bundle =>
    exact within_upsertAccountSection now accountPub lamport bundle
  | putAccountLog candidate => exact within_putAccountLogSection now candidate
  | pruneAccounts retention => exact within_pruneAccountsSection now retention
  | pruneKeyPackages maxPerIdentity retention =>
    exact within_pruneKeyPackagesSection now maxPerIdentity retention

end Sections

/-! ## The server over the pool -/

variable {C : Crates} {ι : Type} [DecidableEq ι]

variable (C) in
/-- Requests interleaved in an order that the pool and the write lock allow, on a database at
`path`. -/
def Scheduled (path : String) (s : Tables) (labels : List (Pool.Label Request SystemTime ι)) :
    Prop :=
  Pool.Enabled (storeLock C.log) (Request.plan C) (maxConnections path) (Pool.State.initial s)
    labels

/-- **Requests complete.** Whatever the order in which they go on, they are never all stuck, and
they do not go on forever. -/
theorem requests_complete (path : String) (s : Tables)
    (labels : List (Pool.Label Request SystemTime ι)) (h : Scheduled C path s labels) :
    Pool.Settles (storeLock C.log) (Request.plan C) (maxConnections path) 4 s labels :=
  Pool.settles (maxConnections_pos path) within_body s labels h

/-- What the pool hands to the server is a run of the server, so its responses are those of the
service. -/
theorem accounts_of_pool {limit : ℕ} (s : Tables)
    (labels : List (Pool.Label Served SystemTime ι))
    (huncut : PrunesUncut (Pool.forwarded (storeLock C.log)
      (fun request : Served ↦ request.val.plan C) limit s labels)) :
    (Pool.after (storeLock C.log) (fun request : Served ↦ request.val.plan C) limit s labels).server
        = serverAfter C s (Pool.forwarded (storeLock C.log)
            (fun request : Served ↦ request.val.plan C) limit s labels) ∧
      Accounts C s (Pool.forwarded (storeLock C.log)
        (fun request : Served ↦ request.val.plan C) limit s labels) :=
  ⟨Pool.server_after s labels, huncut.accounts s⟩

namespace Reference

/-- A prune and a read on the one connection of a database in memory. The prune has the write lock,
but has to wait until the read gives the connection back. -/
def pruneBehindRead : List (Pool.Label Request SystemTime ℕ) :=
  [.server (.receive 0 (.pruneAccounts ⟨1000, 0⟩)),
    .server (.receive 1 (.fetchKeyPackage "device")), .connect 1, .server (.lock 0 1000000),
    .server (.select 1), .connect 0, .server .advance, .server .advance]

theorem requests_complete_pruneBehindRead :
    Pool.Settles (storeLock crates.log) (Request.plan crates) (maxConnections ":memory:") 4
      Tables.empty pruneBehindRead :=
  requests_complete ":memory:" Tables.empty pruneBehindRead
    ⟨rfl, rfl, rfl, rfl, rfl, rfl, rfl, rfl, trivial⟩

end Reference

end ChatStore
