import ChatStore.Consistency
import ChatStore.Library.Timeline
import ChatStore.Pruning

/-!
# Keypackages as timelines

What the service keeps for a device is a timeline: which bundle was received at which millisecond.
An accepted keypackage is put there, an expiry drops what is old, and a prune trims. `timeline_step`
says that this is all that can happen, and `latest_eq` that `GET /v0/keypackage/:device_id` reads
the latest entry.

The table is not lost in the timelines: `rows_perm_of_timeline` gets its rows back.
-/

namespace ChatStore

open Library Store

namespace Store

/-- The rows of one device, by the time they were received. -/
def timelineOf (rows : List KeyPackageRow) : Timeline ℤ StoredKeyPackageBundle where
  value t := (rows.find? fun r ↦ r.receivedAt = t).map KeyPackageRow.bundle
  times := (rows.map KeyPackageRow.receivedAt).toFinset
  mem_times t := by
    rw [List.mem_toFinset, List.mem_map, Option.isSome_map, List.find?_isSome]
    simp only [decide_eq_true_eq]

/-- What a device has published, by the time it was received. -/
def timeline (deviceId : String) (s : Tables) : Timeline ℤ StoredKeyPackageBundle :=
  timelineOf (history deviceId s)

variable {rows : List KeyPackageRow} {r : KeyPackageRow} {t : ℤ} {deviceId : String} {s s' : Tables}

/-! ## Rows -/

theorem value_timelineOf (h : (rows.map KeyPackageRow.receivedAt).Nodup) (hr : r ∈ rows) :
    (timelineOf rows).value r.receivedAt = some r.bundle := by
  rw [timelineOf]
  dsimp only
  rcases hfind : rows.find? fun r' ↦ r'.receivedAt = r.receivedAt with _ | r'
  · exact absurd (List.find?_eq_none.mp hfind r hr) (by simp)
  · have hstamp : r'.receivedAt = r.receivedAt := by simpa using List.find?_some hfind
    rw [hfind, List.inj_on_of_nodup_map h (List.mem_of_find?_eq_some hfind) hr hstamp,
      Option.map_some]

theorem exists_row_of_value {b : StoredKeyPackageBundle} (h : (timelineOf rows).value t = some b) :
    ∃ r ∈ rows, r.receivedAt = t ∧ r.bundle = b := by
  obtain ⟨r, hfind, hbundle⟩ := Option.map_eq_some_iff.mp h
  exact ⟨r, List.mem_of_find?_eq_some hfind, by simpa using List.find?_some hfind, hbundle⟩

/-- The rank of a time counts the later rows. -/
theorem rank_timelineOf (h : (rows.map KeyPackageRow.receivedAt).Nodup) (r : KeyPackageRow) :
    (timelineOf rows).rank r.receivedAt = rank KeyPackageRow.receivedAt rows r := by
  have hfilter : ((timelineOf rows).times.filter (r.receivedAt < ·))
      = ((rows.map KeyPackageRow.receivedAt).filter (r.receivedAt < ·)).toFinset := by
    rw [List.toFinset_filter, timelineOf]
    simp
  rw [Timeline.rank, hfilter, List.toFinset_card_of_nodup (h.filter _), rank,
    ← List.countP_eq_length_filter, List.countP_map]
  rfl

/-- Deleting rows by their time keeps the other times. -/
theorem timelineOf_filter {p : KeyPackageRow → Bool} {P : ℤ → Prop} [DecidablePred P]
    (h : ∀ r ∈ rows, p r = true ↔ P r.receivedAt) :
    timelineOf (rows.filter p) = (timelineOf rows).keep P := by
  refine Timeline.ext fun t ↦ ?_
  rw [Timeline.keep, timelineOf, timelineOf]
  dsimp only
  induction rows with
  | nil => simp
  | cons r rows ih =>
    have hrows := ih fun r' hr' ↦ h r' (List.mem_cons_of_mem r hr')
    have hr := h r List.mem_cons_self
    by_cases ht : r.receivedAt = t
    · subst ht
      by_cases hP : P r.receivedAt
      · rw [List.filter_cons_of_pos (hr.mpr hP), List.find?_cons_of_pos (by simp),
          List.find?_cons_of_pos (by simp), if_pos hP]
      · rw [List.filter_cons_of_neg fun hp ↦ hP (hr.mp hp), hrows, if_neg hP, if_neg hP]
    · by_cases hp : p r = true
      · rw [List.filter_cons_of_pos hp, List.find?_cons_of_neg (by simpa using ht),
          List.find?_cons_of_neg (by simpa using ht), hrows]
      · rw [List.filter_cons_of_neg hp, List.find?_cons_of_neg (by simpa using ht), hrows]

theorem timelineOf_concat (r : KeyPackageRow) :
    timelineOf (rows ++ [r]) = (timelineOf rows).put r.receivedAt r.bundle := by
  refine Timeline.ext fun t ↦ ?_
  rw [Timeline.put, timelineOf, timelineOf]
  dsimp only
  rw [List.find?_append, Option.map_or]
  by_cases ht : t = r.receivedAt
  · subst ht
    rw [if_pos rfl, List.find?_cons_of_pos (by simp), Option.map_some]
  · rw [if_neg ht, List.find?_cons_of_neg (by simpa using fun h ↦ ht h.symm), List.find?_nil,
      Option.map_none, Option.or_none]

/-- Putting something at a time that is taken changes nothing. -/
theorem put_of_isSome {α : Type} {T : Timeline ℤ α} {a : α} (h : (T.value t).isSome = true) :
    T.put t a = T := by
  refine Timeline.ext fun u ↦ ?_
  rw [Timeline.put]
  dsimp only
  split_ifs with hu
  · rw [hu, Option.or_of_isSome h]
  · rfl

/-! ## Statements -/

theorem stampTaken_iff_isSome {now : SystemTime} :
    StampTaken now deviceId s ↔ ((timeline deviceId s).value (stamp now)).isSome = true := by
  rw [← Timeline.mem_times, timeline, timelineOf, List.mem_toFinset, List.mem_map]
  rfl

/-- An insert puts its bundle at its time, unless that is taken. -/
theorem timeline_insert {A : AccountLogCrate} (now : SystemTime) (deviceId' : String)
    (bundle : StoredKeyPackageBundle) :
    timeline deviceId (insert (A := A) now deviceId' bundle s).1
      = if deviceId' = deviceId then (timeline deviceId s).put (stamp now) bundle
        else timeline deviceId s := by
  rw [timeline, history_insert]
  by_cases hdev : deviceId' = deviceId
  · subst hdev
    rw [if_pos rfl]
    by_cases htaken : StampTaken now deviceId' s
    · rw [if_neg fun h ↦ h.2 htaken, put_of_isSome (stampTaken_iff_isSome.mp htaken), timeline]
    · rw [if_pos ⟨rfl, htaken⟩]
      exact timelineOf_concat _
  · rw [if_neg fun h ↦ hdev h.1, if_neg hdev, timeline]

theorem timeline_deleteExpired (now : SystemTime) (retention : Duration) :
    timeline deviceId (deleteExpired now retention s)
      = (timeline deviceId s).since (cutoffMs now retention) := by
  rw [timeline, history_deleteExpired]
  refine timelineOf_filter fun r _ ↦ ?_
  simp

/-- The cap of a prune is what is left of it as a signed value. -/
theorem timeline_deleteExcess (maxPerIdentity : UInt64) :
    timeline deviceId (deleteExcess maxPerIdentity s)
      = (timeline deviceId s).newest (asI64 maxPerIdentity).toNat := by
  rw [timeline, history_deleteExcess]
  refine timelineOf_filter fun r hr ↦ ?_
  have hpart : (history deviceId s).filter (fun r' ↦ r'.deviceId = r.deviceId)
      = history deviceId s := by
    refine List.filter_eq_self.mpr fun r' hr' ↦ ?_
    rw [decide_eq_true_iff, (mem_history.mp hr').2, (mem_history.mp hr).2]
  have hrow : rowNumber KeyPackageRow.receivedAt KeyPackageRow.deviceId (history deviceId s) r
      = rank KeyPackageRow.receivedAt (history deviceId s) r + 1 := by
    rw [rowNumber_eq_rank (by rw [hpart]; exact nodup_receivedAt deviceId s) hr, hpart]
  rw [timeline, rank_timelineOf (nodup_receivedAt deviceId s), hrow, Bool.not_eq_true',
    decide_eq_false_iff_not]
  omega

/-- The latest bundle is the last entry of the timeline. -/
theorem latest_eq (deviceId : String) (s : Tables) :
    latest deviceId s = (timeline deviceId s).latest := by
  have hnodup := nodup_receivedAt deviceId s
  rw [latest, newestRow]
  rcases hnew : newest? KeyPackageRow.receivedAt (history deviceId s) with _ | r
  · refine (Timeline.latest_eq_none_iff.mpr ?_).symm
    rw [timeline, timelineOf, newest?_eq_none_iff.mp hnew]
    rfl
  · refine (Timeline.latest_eq_some_iff.mpr ⟨r.receivedAt, ⟨?_, fun t ht ↦ ?_⟩, ?_⟩).symm
    · simpa [timeline, timelineOf] using ⟨r, newest?_mem hnew, rfl⟩
    · obtain ⟨r', hr', rfl⟩ : ∃ r' ∈ history deviceId s, r'.receivedAt = t := by
        simpa [timeline, timelineOf] using ht
      exact ord_le_of_newest? hnew hr'
    · exact value_timelineOf hnodup (newest?_mem hnew)

/-- The timelines hold all that the table does. -/
theorem rows_perm_of_timeline (h : ∀ deviceId, timeline deviceId s = timeline deviceId s') :
    s.keypackages.rows.Perm s'.keypackages.rows := by
  refine (List.perm_ext_iff_of_nodup s.keypackages.nodup_key.of_map
    s'.keypackages.nodup_key.of_map).mpr fun r ↦ ?_
  have hmem : ∀ {s s' : Tables}, (∀ deviceId, timeline deviceId s = timeline deviceId s') →
      r ∈ s.keypackages.rows → r ∈ s'.keypackages.rows := by
    intro s s' h hr
    have hvalue := value_timelineOf (nodup_receivedAt r.deviceId s) (mem_history.mpr ⟨hr, rfl⟩)
    rw [← timeline, h] at hvalue
    obtain ⟨r', hr', hstamp, hbundle⟩ := exists_row_of_value hvalue
    obtain ⟨hr', hdev⟩ := mem_history.mp hr'
    obtain ⟨deviceId', receivedAt, payload, signature⟩ := r'
    obtain ⟨rfl, rfl⟩ := StoredKeyPackageBundle.mk.inj hbundle
    obtain rfl : receivedAt = r.receivedAt := hstamp
    obtain rfl : deviceId' = r.deviceId := hdev
    exact hr'
  exact ⟨hmem h, hmem fun deviceId ↦ (h deviceId).symm⟩

end Store

/-! ## Steps -/

variable (C : Crates) (deviceId : String)

/-- What an effect does to the timeline of a device. -/
def Effect.change (now : SystemTime) :
    Effect C → Option (Timeline.Change ℤ StoredKeyPackageBundle)
  | .keypackage b =>
    if b.keyHex C = deviceId ∧ b.authentic C = true then
      some (.put (stamp now) ⟨b.payload, b.signature⟩)
    else none
  | .pruneKeyPackages maxPerIdentity retention =>
    some (.trim (cutoffMs now retention) (asI64 maxPerIdentity).toNat)
  | .nothing | .account _ | .accountLog _ _ | .pruneAccounts _ => none

/-- What a step does to the timeline of a device. An interrupted prune has only expired rows. -/
def Step.change : Step → Option (Timeline.Change ℤ StoredKeyPackageBundle)
  | .event e => (e.request.effect C).change C deviceId e.now
  | .interrupted ⟨now, .pruneKeyPackages _ retention⟩ => some (.since (cutoffMs now retention))
  | .interrupted _ => none

variable {C deviceId} {s : Tables}

theorem timeline_effect (now : SystemTime) (effect : Effect C) :
    timeline deviceId (effect.run C now s) = match effect.change C deviceId now with
      | some x => (timeline deviceId s).apply x
      | none => timeline deviceId s := by
  rcases effect with _ | b | b | ⟨addr, signed⟩ | ⟨maxPerIdentity, retention⟩ | retention
  case keypackage =>
    rw [Effect.run, Effect.change]
    rcases hauth : b.authentic C
    · obtain ⟨msg, happly⟩ := applyKeypackage_of_not_authentic (C := C) now s hauth
      rw [happly]
      simp
    · rw [applyKeypackage_of_authentic now s hauth, timeline_insert]
      by_cases hkey : b.keyHex C = deviceId
      · simp only [hkey, and_self, if_true]
        rfl
      · simp only [hkey, false_and, if_false]
  case pruneKeyPackages =>
    rw [Effect.run, timeline_deleteExcess, timeline_deleteExpired]
    rfl
  case account =>
    rw [timeline, history_effect]
    rfl
  case accountLog =>
    rw [timeline, history_effect]
    rfl
  all_goals rfl

/-- A step changes the timeline of a device as it says. -/
theorem timeline_step (s : Tables) (step : Step) :
    timeline deviceId ((durable C).step s step).1 = match step.change C deviceId with
      | some x => (timeline deviceId s).apply x
      | none => timeline deviceId s := by
  rcases step with e | ⟨now, request⟩
  · change timeline deviceId (serve C s e).1 = _
    rw [serve_fst, timeline_effect, Step.change]
  · rcases request with req | deviceId' | req | accountPub | ⟨accountAddr, body⟩ | accountAddr |
      bytes | bytes | ⟨maxPerIdentity, retention⟩ | retention
    case pruneKeyPackages => exact timeline_deleteExpired now retention
    all_goals rfl

theorem timeline_run (s : Tables) (steps : List Step) :
    timeline deviceId ((durable C).run s steps)
      = (steps.filterMap (Step.change C deviceId)).foldl Timeline.apply (timeline deviceId s) := by
  induction steps generalizing s with
  | nil => rfl
  | cons step steps ih =>
    rw [Machine.run_cons, ih, timeline_step, List.filterMap_cons]
    rcases step.change C deviceId with _ | x
    · rfl
    · rfl

end ChatStore
