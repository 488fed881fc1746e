import ChatStore.Store.Tables

/-!
# Keypackages: a history per device, the newest read back

`insert`, `latest` and `pruneKeyPackages` of the store. The prune is two statements, and another
connection can read between them, so each is a definition of its own.

## What each statement does to one device

Every query names a device, so the lemmas describe the statements by their effect on `history`,
the rows of one device, and on `newestRow`, the row `latest` reads. The newest row evolves on its
own: what a statement does to it depends on nothing else of the table. Recency, replay and
isolation all rest on that.
-/

namespace ChatStore

open Library

namespace Store

/-! ## The operations -/

/-- `Store::insert`. The timestamp is the store's own, and it is part of the primary key. -/
def insert {A : AccountLogCrate} (now : SystemTime) (deviceId : String)
    (bundle : StoredKeyPackageBundle) (s : Tables) : Tables × Except (StoreError A) Unit :=
  match s.keypackages.insert? ⟨deviceId, stamp now, bundle.payload, bundle.signature⟩ with
  | none => (s, .error .uniqueViolation)
  | some t => ({ s with keypackages := t }, .ok ())

/-- The rows of one device. -/
def history (deviceId : String) (s : Tables) : List KeyPackageRow :=
  s.keypackages.rows.filter fun r ↦ r.deviceId = deviceId

/-- The row of a device with the largest `received_at`. -/
def newestRow (deviceId : String) (s : Tables) : Option KeyPackageRow :=
  newest? KeyPackageRow.receivedAt (history deviceId s)

/-- `Store::latest`. -/
def latest (deviceId : String) (s : Tables) : Option StoredKeyPackageBundle :=
  (newestRow deviceId s).map KeyPackageRow.bundle

/-- The first statement of `Store::prune_key_packages`: rows older than the retention. -/
def deleteExpired (now : SystemTime) (retention : Duration) (s : Tables) : Tables :=
  { s with
    keypackages := s.keypackages.deleteWhere fun r ↦ r.receivedAt < cutoffMs now retention }

/-- The second statement of `Store::prune_key_packages`: rows beyond the cap of their device. The
cap is bound as a signed value. -/
def deleteExcess (maxPerIdentity : UInt64) (s : Tables) : Tables :=
  { s with
    keypackages := s.keypackages.deleteWhere fun r ↦
      asI64 maxPerIdentity
        < rowNumber KeyPackageRow.receivedAt KeyPackageRow.deviceId s.keypackages.rows r }

/-- `Store::prune_key_packages`. -/
def pruneKeyPackages {A : AccountLogCrate} (now : SystemTime) (maxPerIdentity : UInt64)
    (retention : Duration) (s : Tables) : Tables × Except (StoreError A) Unit :=
  (deleteExcess maxPerIdentity (deleteExpired now retention s), .ok ())

/-! ## Inserting -/

variable {A : AccountLogCrate} {now : SystemTime} {deviceId : String}
  {bundle : StoredKeyPackageBundle} {s : Tables}

/-- The row an insert adds. -/
def insertedRow (now : SystemTime) (deviceId : String) (bundle : StoredKeyPackageBundle) :
    KeyPackageRow :=
  ⟨deviceId, stamp now, bundle.payload, bundle.signature⟩

@[simp] theorem insertedRow_bundle (now : SystemTime) (deviceId : String)
    (bundle : StoredKeyPackageBundle) : (insertedRow now deviceId bundle).bundle = bundle := rfl

/-- A device has a row stamped with this millisecond. -/
def StampTaken (now : SystemTime) (deviceId : String) (s : Tables) : Prop :=
  ∃ r ∈ history deviceId s, r.receivedAt = stamp now

instance (now : SystemTime) (deviceId : String) (s : Tables) :
    Decidable (StampTaken now deviceId s) :=
  inferInstanceAs (Decidable (∃ r ∈ history deviceId s, r.receivedAt = stamp now))

theorem mem_history {r : KeyPackageRow} :
    r ∈ history deviceId s ↔ r ∈ s.keypackages.rows ∧ r.deviceId = deviceId := by
  rw [history, List.mem_filter, decide_eq_true_iff]

private theorem stampTaken_iff (bundle : StoredKeyPackageBundle) : StampTaken now deviceId s ↔
    ∃ r ∈ s.keypackages.rows, r.key = (insertedRow now deviceId bundle).key := by
  constructor
  · rintro ⟨r, hr, hstamp⟩
    obtain ⟨hmem, hdev⟩ := mem_history.mp hr
    exact ⟨r, hmem, Prod.ext hdev hstamp⟩
  · rintro ⟨r, hmem, hkey⟩
    exact ⟨r, mem_history.mpr ⟨hmem, congrArg Prod.fst hkey⟩, congrArg Prod.snd hkey⟩

/-- An insert whose millisecond is taken fails and changes nothing. -/
theorem insert_of_stampTaken (h : StampTaken now deviceId s) :
    insert (A := A) now deviceId bundle s = (s, .error .uniqueViolation) := by
  have hnone := Table.insert?_eq_none_iff.mpr ((stampTaken_iff bundle).mp h)
  rw [insert, show (⟨deviceId, stamp now, bundle.payload, bundle.signature⟩ : KeyPackageRow)
    = insertedRow now deviceId bundle from rfl, hnone]

/-- An insert whose millisecond is free succeeds and appends its row. -/
theorem insert_of_not_stampTaken (bundle : StoredKeyPackageBundle)
    (h : ¬StampTaken now deviceId s) :
    ∃ t, t.rows = s.keypackages.rows ++ [insertedRow now deviceId bundle] ∧
      insert (A := A) now deviceId bundle s = ({ s with keypackages := t }, .ok ()) := by
  rw [insert]
  cases hins : s.keypackages.insert? ⟨deviceId, stamp now, bundle.payload, bundle.signature⟩ with
  | none =>
    exact absurd ((stampTaken_iff bundle).mpr (Table.insert?_eq_none_iff.mp hins)) h
  | some t => exact ⟨t, (Table.insert?_eq_some_iff.mp hins).2, rfl⟩

theorem insert_frame (now : SystemTime) (deviceId : String) (bundle : StoredKeyPackageBundle)
    (s : Tables) : (insert (A := A) now deviceId bundle s).1.accountBundles = s.accountBundles ∧
      (insert (A := A) now deviceId bundle s).1.accountLogs = s.accountLogs := by
  rw [insert]
  split
  · exact ⟨rfl, rfl⟩
  · exact ⟨rfl, rfl⟩

/-- An insert touches the history of its own device only. -/
theorem history_insert (deviceId' : String) :
    history deviceId' (insert (A := A) now deviceId bundle s).1
      = if deviceId = deviceId' ∧ ¬StampTaken now deviceId s then
          history deviceId' s ++ [insertedRow now deviceId bundle]
        else history deviceId' s := by
  by_cases h : StampTaken now deviceId s
  · rw [insert_of_stampTaken h, if_neg fun hc ↦ hc.2 h]
  · obtain ⟨t, hrows, hins⟩ := insert_of_not_stampTaken (A := A) bundle h
    rw [hins, history, history, hrows, List.filter_append]
    by_cases hdev : deviceId = deviceId'
    · rw [if_pos ⟨hdev, h⟩, List.filter_cons_of_pos (by simp [insertedRow, hdev]),
        List.filter_nil]
    · rw [if_neg fun hc ↦ hdev hc.1, List.filter_cons_of_neg (by simp [insertedRow, hdev]),
        List.filter_nil, List.append_nil]

/-! ## The newest row -/

/-- Within a device `received_at` alone identifies a row. -/
theorem nodup_receivedAt (deviceId : String) (s : Tables) :
    ((history deviceId s).map KeyPackageRow.receivedAt).Nodup := by
  have hkey : ((history deviceId s).map KeyPackageRow.key).Nodup :=
    (List.Sublist.map _ List.filter_sublist).nodup s.keypackages.nodup_key
  have hpair : (history deviceId s).map KeyPackageRow.key
      = ((history deviceId s).map KeyPackageRow.receivedAt).map (deviceId, ·) := by
    rw [List.map_map]
    refine List.map_congr_left fun r hr ↦ ?_
    exact Prod.ext (mem_history.mp hr).2 rfl
  rw [hpair] at hkey
  exact hkey.of_map _

/-- What offering a row does to the newest one: a newer row stays. A row with the same timestamp
stays as well, because then the insert was refused. -/
def offer (r : KeyPackageRow) (newest : Option KeyPackageRow) : KeyPackageRow :=
  (newest.filter fun m ↦ r.receivedAt ≤ m.receivedAt).getD r

theorem offer_of_le {r m : KeyPackageRow} (h : r.receivedAt ≤ m.receivedAt) :
    offer r (some m) = m := by
  rw [offer, Option.filter_some_pos (by simpa using h), Option.getD_some]

theorem offer_of_lt {r : KeyPackageRow} {newest : Option KeyPackageRow}
    (h : ∀ m ∈ newest, m.receivedAt < r.receivedAt) : offer r newest = r := by
  have hfilter : (newest.filter fun m ↦ decide (r.receivedAt ≤ m.receivedAt)) = none := by
    refine Option.filter_eq_none_iff.mpr fun m hm ↦ ?_
    simpa using h m hm
  rw [offer, hfilter, Option.getD_none]

theorem newestRow_insert (deviceId' : String) :
    newestRow deviceId' (insert (A := A) now deviceId bundle s).1
      = if deviceId = deviceId' then
          some (offer (insertedRow now deviceId bundle) (newestRow deviceId' s))
        else newestRow deviceId' s := by
  have hnodup := nodup_receivedAt deviceId' (insert (A := A) now deviceId bundle s).1
  rw [newestRow, history_insert] at *
  by_cases hdev : deviceId = deviceId'
  · subst hdev
    rw [if_pos rfl]
    by_cases h : StampTaken now deviceId s
    · -- The insert is refused, and the newest row is at least as new as the one in its way.
      rw [if_neg fun hc ↦ hc.2 h]
      obtain ⟨r, hr, hstamp⟩ := h
      cases hnew : newest? KeyPackageRow.receivedAt (history deviceId s) with
      | none => rw [newest?_eq_none_iff.mp hnew] at hr; exact absurd hr List.not_mem_nil
      | some m =>
        have hle : stamp now ≤ m.receivedAt := hstamp ▸ ord_le_of_newest? hnew hr
        rw [newestRow, hnew, offer_of_le hle]
    · rw [if_pos ⟨rfl, h⟩] at hnodup ⊢
      rw [newest?_concat hnodup, offer, newestRow]
      cases hnew : newest? KeyPackageRow.receivedAt (history deviceId s) with
      | none => rfl
      | some m =>
        have hne : m.receivedAt ≠ stamp now := fun heq ↦ h ⟨m, newest?_mem hnew, heq⟩
        by_cases hlt : stamp now < m.receivedAt
        · rw [Option.filter_some_pos (by simp [insertedRow, hlt]),
            Option.filter_some_pos (by simp [insertedRow, hlt.le])]
        · have hle : ¬stamp now ≤ m.receivedAt := fun hle ↦ hlt (lt_of_le_of_ne hle hne.symm)
          rw [Option.filter_some_neg (by simp [insertedRow, hlt]),
            Option.filter_some_neg (by simp [insertedRow, hle])]
  · rw [if_neg hdev, if_neg fun hc ↦ hdev hc.1, newestRow]

/-! ## Deleting -/

theorem history_deleteExpired (retention : Duration) (deviceId : String) :
    history deviceId (deleteExpired now retention s)
      = (history deviceId s).filter fun r ↦ !decide (r.receivedAt < cutoffMs now retention) := by
  rw [history, history, deleteExpired, Table.rows_deleteWhere, List.filter_filter,
    List.filter_filter]
  exact List.filter_congr fun r _ ↦ Bool.and_comm _ _

/-- The rows of a device within the cap. -/
def withinCap (cap : ℤ) (rows : List KeyPackageRow) : List KeyPackageRow :=
  rows.filter fun r ↦
    !decide (cap < rowNumber KeyPackageRow.receivedAt KeyPackageRow.deviceId rows r)

/-- The cap looks at one device at a time. -/
theorem history_deleteExcess (maxPerIdentity : UInt64) (deviceId : String) :
    history deviceId (deleteExcess maxPerIdentity s)
      = withinCap (asI64 maxPerIdentity) (history deviceId s) := by
  rw [history, deleteExcess, Table.rows_deleteWhere, List.filter_comm, withinCap]
  refine List.filter_congr fun r hr ↦ ?_
  have hpart : (s.keypackages.rows.filter fun r' ↦ r'.deviceId = r.deviceId)
      = (history deviceId s).filter fun r' ↦ r'.deviceId = r.deviceId := by
    rw [history, List.filter_filter]
    refine List.filter_congr fun r' _ ↦ ?_
    rw [(mem_history.mp hr).2, Bool.and_self]
  rw [rowNumber_congr hpart]

theorem newestRow_deleteExpired (retention : Duration) (deviceId : String) :
    newestRow deviceId (deleteExpired now retention s)
      = (newestRow deviceId s).filter fun r ↦ !decide (r.receivedAt < cutoffMs now retention) := by
  rw [newestRow, newestRow, history_deleteExpired]
  cases hnew : newest? KeyPackageRow.receivedAt (history deviceId s) with
  | none => rw [newest?_eq_none_iff.mp hnew, List.filter_nil]; rfl
  | some m =>
    by_cases hm : m.receivedAt < cutoffMs now retention
    · -- Everything else of the device is older still.
      rw [Option.filter_some_neg (by simpa using hm), newest?_eq_none_iff,
        List.filter_eq_nil_iff]
      intro r hr
      have hle := ord_le_of_newest? hnew hr
      simpa using hle.trans_lt hm
    · rw [Option.filter_some_pos (by simpa using hm)]
      exact newest?_filter (nodup_receivedAt deviceId s) hnew (by simpa using hm)

/-- A positive cap spares the newest row, and any other cap clears the device. -/
theorem newestRow_deleteExcess (maxPerIdentity : UInt64) (deviceId : String) :
    newestRow deviceId (deleteExcess maxPerIdentity s)
      = if 1 ≤ asI64 maxPerIdentity then newestRow deviceId s else none := by
  rw [newestRow, newestRow, history_deleteExcess, withinCap]
  by_cases hcap : 1 ≤ asI64 maxPerIdentity
  · rw [if_pos hcap]
    cases hnew : newest? KeyPackageRow.receivedAt (history deviceId s) with
    | none => rw [newest?_eq_none_iff.mp hnew, List.filter_nil]; rfl
    | some m =>
      refine newest?_filter (nodup_receivedAt deviceId s) hnew ?_
      have hpart : (history deviceId s).filter (fun r ↦ r.deviceId = m.deviceId)
          = history deviceId s := by
        refine List.filter_eq_self.mpr fun r hr ↦ ?_
        rw [decide_eq_true_iff, (mem_history.mp hr).2, (mem_history.mp (newest?_mem hnew)).2]
      rw [rowNumber_newest (by rw [hpart]; exact hnew)]
      simpa using hcap
  · rw [if_neg hcap, newest?_eq_none_iff, List.filter_eq_nil_iff]
    intro r _
    have hone := one_le_rowNumber KeyPackageRow.receivedAt KeyPackageRow.deviceId
      (history deviceId s) r
    simp only [Bool.not_eq_true, Bool.not_eq_false', decide_eq_true_eq]
    omega

end Store

end ChatStore
