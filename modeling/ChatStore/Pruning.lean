import ChatStore.Library.Ranking
import ChatStore.Reference

/-!
# Pruning keypackages

A prune deletes the rows older than a cutoff, and then, device by device, the rows beyond a cap. The
file describes the two statements by the values they are bound to, and says what a prune leaves: of
every device the newest rows within the cap among the unexpired ones, and nothing else.

The cap is an unsigned value of the command line, bound as a signed one. `spares_iff` says what that
costs: from `2 ^ 63` on the bound value is negative, and every row is beyond it.
-/

namespace ChatStore

open Library

namespace Store

/-! ## The statements and their bound values -/

/-- The first `DELETE` of `prune_key_packages`. -/
def deleteBefore (cutoff : ℤ) (s : Tables) : Tables :=
  { s with keypackages := s.keypackages.deleteWhere fun r ↦ r.receivedAt < cutoff }

/-- The second `DELETE` of `prune_key_packages`. -/
def deleteBeyond (cap : ℤ) (s : Tables) : Tables :=
  { s with
    keypackages := s.keypackages.deleteWhere fun r ↦
      cap < rowNumber KeyPackageRow.receivedAt KeyPackageRow.deviceId s.keypackages.rows r }

/-- Both statements. -/
def pruneBound (cutoff cap : ℤ) (s : Tables) : Tables := deleteBeyond cap (deleteBefore cutoff s)

theorem pruneKeyPackages_eq {A : AccountLogCrate} (now : SystemTime) (maxPerIdentity : UInt64)
    (retention : Duration) (s : Tables) : pruneKeyPackages (A := A) now maxPerIdentity retention s
      = (pruneBound (cutoffMs now retention) (asI64 maxPerIdentity) s, .ok ()) := rfl

/-- How many rows of a row's device are newer. -/
def newer (s : Tables) (r : KeyPackageRow) : ℕ :=
  rank KeyPackageRow.receivedAt (history r.deviceId s) r

variable {s : Tables} {cutoff cap : ℤ} {n : ℕ} {r : KeyPackageRow}

/-! ## What each statement leaves -/

theorem mem_deleteBefore :
    r ∈ (deleteBefore cutoff s).keypackages.rows
      ↔ r ∈ s.keypackages.rows ∧ cutoff ≤ r.receivedAt := by
  rw [deleteBefore, Table.rows_deleteWhere, List.mem_filter]
  simp

theorem rowNumber_eq_newer (hr : r ∈ s.keypackages.rows) :
    rowNumber KeyPackageRow.receivedAt KeyPackageRow.deviceId s.keypackages.rows r
      = newer s r + 1 :=
  rowNumber_eq_rank (nodup_receivedAt r.deviceId s) hr

/-- The rows within a cap are those with fewer newer rows. -/
theorem rows_deleteBeyond (n : ℕ) (s : Tables) : (deleteBeyond n s).keypackages.rows
    = s.keypackages.rows.filter fun r ↦ newer s r < n := by
  rw [deleteBeyond, Table.rows_deleteWhere]
  refine List.filter_congr fun r hr ↦ ?_
  rw [rowNumber_eq_newer hr, ← decide_not, decide_eq_decide]
  omega

/-- A negative cap deletes everything. -/
theorem rows_deleteBeyond_of_neg (h : cap < 0) : (deleteBeyond cap s).keypackages.rows = [] := by
  rw [deleteBeyond, Table.rows_deleteWhere, List.filter_eq_nil_iff]
  intro r _
  have hone := one_le_rowNumber KeyPackageRow.receivedAt KeyPackageRow.deviceId
    s.keypackages.rows r
  simp only [Bool.not_eq_true, Bool.not_eq_false', decide_eq_true_eq]
  omega

theorem history_deleteBefore (deviceId : String) : history deviceId (deleteBefore cutoff s)
    = (history deviceId s).filter fun r ↦ cutoff ≤ r.receivedAt := by
  rw [history, history, deleteBefore, Table.rows_deleteWhere, List.filter_comm]
  exact List.filter_congr fun r _ ↦ by rw [← decide_not, decide_eq_decide, not_lt]

theorem history_deleteBeyond (deviceId : String) : history deviceId (deleteBeyond n s)
    = largest KeyPackageRow.receivedAt n (history deviceId s) := by
  rw [history, rows_deleteBeyond, List.filter_comm, largest]
  refine List.filter_congr fun r hr ↦ ?_
  rw [newer, (mem_history.mp hr).2]

/-- Deleting old rows leaves the rank of the others. -/
theorem newer_deleteBefore (h : cutoff ≤ r.receivedAt) :
    newer (deleteBefore cutoff s) r = newer s r := by
  rw [newer, newer, history_deleteBefore]
  refine rank_filter fun r' _ hlt ↦ ?_
  simpa using h.trans hlt.le

theorem newer_deleteBeyond_le (r : KeyPackageRow) :
    newer (deleteBeyond n s) r ≤ newer s r := by
  rw [newer, newer, history_deleteBeyond, largest]
  exact rank_le_of_sublist List.filter_sublist

/-! ## What a prune leaves -/

theorem mem_pruneBound : r ∈ (pruneBound cutoff n s).keypackages.rows
    ↔ r ∈ s.keypackages.rows ∧ cutoff ≤ r.receivedAt ∧ newer s r < n := by
  rw [pruneBound, rows_deleteBeyond, List.mem_filter, mem_deleteBefore, decide_eq_true_iff,
    and_assoc]
  refine and_congr_right fun _ ↦ and_congr_right fun hage ↦ ?_
  rw [newer_deleteBefore hage]

theorem history_pruneBound (deviceId : String) : history deviceId (pruneBound cutoff n s)
    = largest KeyPackageRow.receivedAt n
        ((history deviceId s).filter fun r ↦ cutoff ≤ r.receivedAt) := by
  rw [pruneBound, history_deleteBeyond, history_deleteBefore]

theorem nodup_unexpired (cutoff : ℤ) (deviceId : String) (s : Tables) :
    (((history deviceId s).filter fun r ↦ cutoff ≤ r.receivedAt).map
      KeyPackageRow.receivedAt).Nodup :=
  (List.Sublist.map _ List.filter_sublist).nodup (nodup_receivedAt deviceId s)

/-- Deleting nothing leaves the database as it is. -/
theorem eq_of_rows_eq {s' : Tables} (hrows : s'.keypackages.rows = s.keypackages.rows)
    (hbundles : s'.accountBundles = s.accountBundles) (hlogs : s'.accountLogs = s.accountLogs) :
    s' = s :=
  Tables.ext (Table.ext hrows) hbundles hlogs

/-- The two statements commute. -/
theorem deleteBefore_deleteBeyond :
    deleteBefore cutoff (deleteBeyond n s) = pruneBound cutoff n s := by
  refine eq_of_rows_eq ?_ rfl rfl
  rw [pruneBound, rows_deleteBeyond, deleteBefore, deleteBefore, Table.rows_deleteWhere,
    Table.rows_deleteWhere, rows_deleteBeyond, List.filter_comm]
  refine List.filter_congr fun r hr ↦ ?_
  have hage : cutoff ≤ r.receivedAt := by simpa using (List.mem_filter.mp hr).2
  rw [← newer_deleteBefore hage, deleteBefore]

/-- A second prune with the same values finds nothing to delete. -/
theorem pruneBound_pruneBound :
    pruneBound cutoff n (pruneBound cutoff n s) = pruneBound cutoff n s := by
  have hage : deleteBefore cutoff (pruneBound cutoff n s) = pruneBound cutoff n s := by
    refine eq_of_rows_eq ?_ rfl rfl
    rw [deleteBefore, Table.rows_deleteWhere, List.filter_eq_self]
    intro r hr
    simpa using (mem_pruneBound.mp hr).2.1
  refine eq_of_rows_eq ?_ rfl rfl
  rw [pruneBound, hage, rows_deleteBeyond, List.filter_eq_self]
  intro r hr
  rw [decide_eq_true_iff]
  have hle := newer_deleteBeyond_le (n := n) (s := deleteBefore cutoff s) r
  obtain ⟨-, hr, hlt⟩ := mem_pruneBound.mp hr
  rw [newer_deleteBefore hr] at hle
  exact hle.trans_lt hlt

/-- **What a prune does.** Of every device it leaves exactly the `n` newest of the unexpired rows,
as they were, and it touches no other table. So it leaves `n` rows or all that are unexpired, the
order of its two statements does not matter, repeating it changes nothing, and a read between the
two statements already finds what is the latest bundle after both. -/
theorem prune_exact (cutoff : ℤ) (n : ℕ) (s : Tables) :
    (∀ deviceId, (history deviceId (pruneBound cutoff n s)).Perm
      ((orderByDesc KeyPackageRow.receivedAt
        ((history deviceId s).filter fun r ↦ cutoff ≤ r.receivedAt)).take n)) ∧
    (pruneBound cutoff n s).keypackages.rows.Sublist s.keypackages.rows ∧
    (pruneBound cutoff n s).accountBundles = s.accountBundles ∧
    (pruneBound cutoff n s).accountLogs = s.accountLogs ∧
    (∀ deviceId, (history deviceId (pruneBound cutoff n s)).length
      = min n ((history deviceId s).filter fun r ↦ cutoff ≤ r.receivedAt).length) ∧
    deleteBefore cutoff (deleteBeyond n s) = pruneBound cutoff n s ∧
    pruneBound cutoff n (pruneBound cutoff n s) = pruneBound cutoff n s ∧
    (1 ≤ n → ∀ deviceId,
      latest deviceId (deleteBefore cutoff s) = latest deviceId (pruneBound cutoff n s)) ∧
    ∀ (A : AccountLogCrate) now maxPerIdentity retention,
      cutoffMs now retention = cutoff → asI64 maxPerIdentity = n →
      pruneKeyPackages (A := A) now maxPerIdentity retention s
        = (pruneBound cutoff n s, .ok ()) := by
  refine ⟨fun deviceId ↦ ?_, ?_, rfl, rfl, fun deviceId ↦ ?_, deleteBefore_deleteBeyond,
    pruneBound_pruneBound, fun hn deviceId ↦ ?_, ?_⟩
  · rw [history_pruneBound]
    exact perm_take_orderByDesc (nodup_unexpired cutoff deviceId s) n
  · rw [pruneBound, rows_deleteBeyond, deleteBefore, Table.rows_deleteWhere]
    exact List.filter_sublist.trans List.filter_sublist
  · rw [history_pruneBound, length_largest (nodup_unexpired cutoff deviceId s)]
  · rw [latest, latest, newestRow, newestRow, history_pruneBound, history_deleteBefore,
      newest?_largest (nodup_unexpired cutoff deviceId s) hn]
  · intro A now maxPerIdentity retention hcutoff hcap
    rw [pruneKeyPackages_eq, hcutoff, hcap]

/-! ## The cap as it is configured -/

/-- A prune spares every unexpired row with fewer newer rows than the cap. -/
def Spares (A : AccountLogCrate) (now : SystemTime) (maxPerIdentity : UInt64)
    (retention : Duration) (s : Tables) : Prop :=
  ∀ r ∈ s.keypackages.rows, cutoffMs now retention ≤ r.receivedAt →
    newer s r < maxPerIdentity.toNat →
    r ∈ (pruneKeyPackages (A := A) now maxPerIdentity retention s).1.keypackages.rows

theorem asI64_of_lt {n : UInt64} (h : n.toNat < 2 ^ 63) : asI64 n = n.toNat := if_pos h

theorem asI64_neg {n : UInt64} (h : ¬n.toNat < 2 ^ 63) : asI64 n < 0 := by
  have hlt := n.toNat_lt
  rw [asI64, if_neg h]
  omega

/-- The newest row of a device has none that are newer. -/
theorem newer_newestRow {deviceId : String} (h : newestRow deviceId s = some r) :
    newer s r = 0 := by
  rw [newer, (mem_history.mp (newest?_mem h)).2]
  refine List.countP_eq_zero.mpr fun r' hr' ↦ ?_
  simpa using ord_le_of_newest? h hr'

/-- **When the cap spares what it should.** It does exactly when it fits a signed value, or when
there is nothing left to spare. -/
theorem spares_iff (A : AccountLogCrate) (now : SystemTime) (maxPerIdentity : UInt64)
    (retention : Duration) (s : Tables) : Spares A now maxPerIdentity retention s
      ↔ maxPerIdentity.toNat < 2 ^ 63 ∨
        ∀ r ∈ s.keypackages.rows, r.receivedAt < cutoffMs now retention := by
  rw [Spares, pruneKeyPackages_eq]
  by_cases hcap : maxPerIdentity.toNat < 2 ^ 63
  · simp only [hcap, true_or, iff_true, asI64_of_lt hcap]
    exact fun r hr hage hnewer ↦ mem_pruneBound.mpr ⟨hr, hage, hnewer⟩
  · simp only [hcap, false_or, pruneBound, rows_deleteBeyond_of_neg (asI64_neg hcap)]
    constructor
    · intro h r hr
      by_contra hage
      -- The newest row of the device is unexpired as well, and no cap should reach it.
      have hhist : r ∈ history r.deviceId s := mem_history.mpr ⟨hr, rfl⟩
      rcases hnew : newestRow r.deviceId s with _ | m
      · rw [newest?_eq_none_iff.mp hnew] at hhist
        exact List.not_mem_nil hhist
      · have hm := (mem_history.mp (newest?_mem hnew)).1
        have hage' := (not_lt.mp hage).trans (ord_le_of_newest? hnew hhist)
        refine List.not_mem_nil (h m hm hage' ?_)
        rw [newer_newestRow hnew]
        omega
    · intro h r hr hage
      exact absurd (h r hr) (not_lt.mpr hage)

end Store

namespace Reference

/-- One keypackage, just published. -/
def justPublished : List Event := [⟨0, deliverKeyPackage keyPackageA⟩]

/-- The largest cap that the command line accepts deletes it, whatever the retention. -/
theorem not_spares : (tablesAfter crates justPublished).keypackages.rows.length = 1 ∧
    (Store.pruneKeyPackages (A := crates.log) 0 18446744073709551615 ⟨2592000, 0⟩
      (tablesAfter crates justPublished)).1.keypackages.rows = [] ∧
    ¬Store.Spares crates.log 0 18446744073709551615 ⟨2592000, 0⟩
      (tablesAfter crates justPublished) := by
  refine ⟨by decide +kernel, by decide +kernel, fun h ↦ ?_⟩
  have hrow : Store.insertedRow 0 (crates.hexEncode publicKey.val)
      ⟨keyPackageA.payload, keyPackageA.signature⟩
      ∈ (tablesAfter crates justPublished).keypackages.rows := by decide +kernel
  have hspared := h _ hrow (by decide +kernel) (by decide +kernel)
  exact absurd hspared (by decide +kernel)

end Reference

end ChatStore
