import ChatStore.Recency

/-!
# Who can publish under a device

A valid signature shows that the key's holder signed the bundle once, not that it is the holder who
submits it now. The store takes a copy of an old bundle like a new one and stamps it with the
current clock, and then it is the latest.

A run with insertions is a list of tagged events. `Undisturbed` is what should hold of it whenever
the insertions come from parties that cannot sign, `Harmless` what the code needs for it: that an
inserted copy is stamped no later than the newest row of the device.
-/

namespace ChatStore

open Library Store

variable (C : Crates) (k : FixedBytes 32)

/-- An event of a run, and whether it was inserted into it. -/
structure Tagged where
  event : Event
  inserted : Bool

/-- The run with its insertions. -/
def full (ts : List Tagged) : List Event := ts.map Tagged.event

/-- The run without them. -/
def original (ts : List Tagged) : List Event :=
  (ts.filter fun t ↦ !t.inserted).map Tagged.event

/-- What is inserted are submissions of parties that cannot sign with `k`: a bundle under `k` either
fails verification, or was submitted before or served before. -/
def CannotSign (ts : List Tagged) : Prop :=
  ∀ past t, past ++ [t] <+: ts → t.inserted = true →
    t.event.request.isSubmission = true ∧
    ∀ b, t.event.deviceBundle C k = some b → b.authentic C = true →
      (∃ u ∈ past, u.event.deviceBundle C k = some b) ∨
        ∃ earlier, earlier <+: past ∧
          latest (C.hexEncode k) (tablesAfter C (full earlier)) = some ⟨b.payload, b.signature⟩

/-- At every moment the latest keypackage is what it would be without the insertions. -/
def Undisturbed (ts : List Tagged) : Prop :=
  ∀ past, past <+: ts → latest (C.hexEncode k) (tablesAfter C (full past))
    = latest (C.hexEncode k) (tablesAfter C (original past))

/-- An authentic bundle under `k` arrives with a clock reading that is not after the newest row. -/
def Event.harmless (s : Tables) (e : Event) : Prop :=
  ∀ b, e.deviceBundle C k = some b → b.authentic C = true →
    ∃ r ∈ newestRow (C.hexEncode k) s, stamp e.now ≤ r.receivedAt

/-- Every inserted event is harmless where it was inserted. -/
def Harmless (ts : List Tagged) : Prop :=
  ∀ past t, past ++ [t] <+: ts → t.inserted = true →
    t.event.harmless C k (tablesAfter C (full past))

variable {C k} {s s' : Tables} {e : Event}

/-! ## The newest row -/

/-- The newest row evolves on its own. -/
theorem newestRow_run_congr {deviceId : String} (h : newestRow deviceId s = newestRow deviceId s')
    (events : List Event) : newestRow deviceId ((service C).run s events)
      = newestRow deviceId ((service C).run s' events) := by
  have hrun : ∀ s, newestRow deviceId ((service C).run s events)
      = events.foldl (fun newest e ↦ (e.request.effect C).onNewestRow deviceId e.now newest)
          (newestRow deviceId s) := fun s ↦
    (service C).view_run (fun s e ↦ newestRow_serve deviceId s e) s events
  rw [hrun, hrun, h]

theorem newestRow_of_harmless (hHex : C.HexLaws) (hsub : e.request.isSubmission = true)
    (h : e.harmless C k s) :
    newestRow (C.hexEncode k) (serve C s e).1 = newestRow (C.hexEncode k) s := by
  rw [newestRow_serve]
  cases heffect : e.request.effect C with
  | keypackage b =>
    by_cases hown : b.keyHex C = C.hexEncode k ∧ b.authentic C = true
    · -- The offer is refused by a newer row, or by one of the same millisecond.
      have hkey : b.key = k := Subtype.ext (hHex.encode_injective hown.1)
      obtain ⟨r, hr, hle⟩ := h b (deviceBundle_eq_some_iff.mpr ⟨heffect, hkey⟩) hown.2
      rw [Effect.onNewestRow, if_pos hown, Option.mem_def.mp hr, offer_of_le hle]
    · exact if_neg hown
  | pruneKeyPackages maxPerIdentity retention =>
    rw [request_of_pruneKeyPackages heffect] at hsub
    cases hsub
  | nothing | account _ | accountLog _ _ | pruneAccounts _ => rfl

/-! ## One insertion -/

/-- The prune that drops everything older than the present, and keeps one row for each device. -/
def pruneNow (now : SystemTime) : Event := ⟨now, .pruneKeyPackages 1 ⟨0, 0⟩⟩

theorem newestRow_pruneNow (deviceId : String) (now : SystemTime) (s : Tables) :
    newestRow deviceId (serve C s (pruneNow now)).1
      = (newestRow deviceId s).filter fun r ↦ !decide (r.receivedAt < stamp now) := by
  have hcap : 1 ≤ asI64 1 := by decide
  have hprune : (pruneNow now).request.effect C = .pruneKeyPackages 1 ⟨0, 0⟩ := rfl
  rw [newestRow_serve, hprune, Effect.onNewestRow, if_pos hcap, ← cutoffMs_zero now]
  rfl

/-- An insertion stays unnoticed, whatever comes after it, exactly when it is harmless. -/
theorem unnoticed_iff_harmless (hHex : C.HexLaws) (hsub : e.request.isSubmission = true) :
    (∀ future, latest (C.hexEncode k) ((service C).run (serve C s e).1 future)
      = latest (C.hexEncode k) ((service C).run s future)) ↔ e.harmless C k s := by
  constructor
  · intro h b hbundle hauth
    by_contra hnone
    have holder : ∀ r ∈ newestRow (C.hexEncode k) s, r.receivedAt < stamp e.now :=
      fun r hr ↦ not_le.mp fun hle ↦ hnone ⟨r, hr, hle⟩
    -- The copy becomes the newest row, and a prune right now leaves nothing but the copy.
    have hpruned := h [pruneNow e.now]
    change latest _ (serve C (serve C s e).1 (pruneNow e.now)).1
      = latest _ (serve C s (pruneNow e.now)).1 at hpruned
    obtain ⟨heffect, hkey⟩ := deviceBundle_eq_some_iff.mp hbundle
    have hold : (newestRow (C.hexEncode k) s).filter
        (fun r ↦ !decide (r.receivedAt < stamp e.now)) = none := by
      refine Option.filter_eq_none_iff.mpr fun r hr ↦ ?_
      simpa using holder r hr
    have hnew : newestRow (C.hexEncode k) (serve C s e).1
        = some (insertedRow e.now (C.hexEncode k) ⟨b.payload, b.signature⟩) := by
      have hkeyHex : b.keyHex C = C.hexEncode k := by rw [Bundle.keyHex, hkey]
      rw [newestRow_serve, heffect, Effect.onNewestRow, if_pos ⟨hkeyHex, hauth⟩, offer_of_lt holder]
    rw [latest, latest, newestRow_pruneNow, newestRow_pruneNow, hold, hnew,
      Option.filter_some_pos (by simp [insertedRow])] at hpruned
    exact absurd hpruned (by simp)
  · intro h future
    rw [latest, latest, newestRow_run_congr (newestRow_of_harmless hHex hsub h)]

/-! ## Runs with insertions -/

/-- Harmless insertions leave the newest row of the device as it would be without them. -/
theorem newestRow_full (hHex : C.HexLaws) {ts : List Tagged} (hsign : CannotSign C k ts)
    (h : Harmless C k ts) {past : List Tagged} (hpast : past <+: ts) :
    newestRow (C.hexEncode k) (tablesAfter C (full past))
      = newestRow (C.hexEncode k) (tablesAfter C (original past)) := by
  induction past using List.reverseRecOn with
  | nil => rfl
  | append_singleton past t ih =>
    have hprev := ih ((List.prefix_append past [t]).trans hpast)
    have hfull : tablesAfter C (full (past ++ [t]))
        = (serve C (tablesAfter C (full past)) t.event).1 := by
      rw [full, List.map_append, List.map_singleton]
      exact tablesAfter_concat (full past) t.event
    rw [hfull]
    cases hins : t.inserted with
    | true =>
      have horiginal : original (past ++ [t]) = original past := by
        rw [original, List.filter_append, List.filter_cons_of_neg (by simp [hins]),
          List.filter_nil, List.append_nil, original]
      rw [horiginal, ← hprev]
      exact newestRow_of_harmless hHex (hsign past t hpast hins).1 (h past t hpast hins)
    | false =>
      have horiginal : tablesAfter C (original (past ++ [t]))
          = (serve C (tablesAfter C (original past)) t.event).1 := by
        rw [original, List.filter_append, List.filter_cons_of_pos (by simp [hins]),
          List.filter_nil, List.map_append, List.map_singleton]
        exact tablesAfter_concat (original past) t.event
      rw [horiginal, newestRow_serve, newestRow_serve, hprev]

/-- **When only the key's holder can publish.** Insertions by parties that cannot sign leave the
latest keypackage alone in every run in which they are harmless. For a single insertion the
condition is exact: it stays unnoticed in every continuation if and only if it is harmless. -/
theorem only_keyHolder_publishes (hHex : C.HexLaws) (k : FixedBytes 32) :
    (∀ ts, CannotSign C k ts → Harmless C k ts → Undisturbed C k ts) ∧
    ∀ s e, e.request.isSubmission = true →
      ((∀ future, latest (C.hexEncode k) ((service C).run (serve C s e).1 future)
        = latest (C.hexEncode k) ((service C).run s future)) ↔ e.harmless C k s) := by
  refine ⟨fun ts hsign h past hpast ↦ ?_, fun s e hsub ↦ unnoticed_iff_harmless hHex hsub⟩
  rw [latest, latest, newestRow_full hHex hsign h hpast]

namespace Reference

/-- A device publishes twice, and then somebody else submits a copy of its first bundle. -/
def copiedAt (now : SystemTime) : List Tagged :=
  [⟨⟨1000000, deliverKeyPackage keyPackageA⟩, false⟩,
    ⟨⟨2000000, deliverKeyPackage keyPackageB⟩, false⟩,
    ⟨⟨now, deliverKeyPackage keyPackageA⟩, true⟩]

theorem cannotSign_copiedAt (now : SystemTime) :
    CannotSign crates publicKey (copiedAt now) := by
  refine Machine.forall_moment_cons.mpr ⟨?_, Machine.forall_moment_cons.mpr
    ⟨?_, Machine.forall_moment_cons.mpr ⟨?_, Machine.forall_moment_nil⟩⟩⟩
  · intro hins
    exact absurd hins (by simp)
  · intro hins
    exact absurd hins (by simp)
  · intro _
    refine ⟨rfl, fun b hbundle _ ↦ Or.inl ⟨_, List.mem_cons_self, ?_⟩⟩
    rw [deviceBundle_eq_some_iff] at hbundle ⊢
    exact hbundle

/-- The copy, not the second bundle, is the latest. -/
theorem not_undisturbed : CannotSign crates publicKey (copiedAt 3000000) ∧
    latest (crates.hexEncode publicKey.val) (tablesAfter crates (full (copiedAt 3000000)))
      = some ⟨keyPackageA.payload, keyPackageA.signature⟩ ∧
    latest (crates.hexEncode publicKey.val) (tablesAfter crates (original (copiedAt 3000000)))
      = some ⟨keyPackageB.payload, keyPackageB.signature⟩ ∧
    ¬Undisturbed crates publicKey (copiedAt 3000000) := by
  have hfull : latest (crates.hexEncode publicKey.val)
      (tablesAfter crates (full (copiedAt 3000000)))
      = some ⟨keyPackageA.payload, keyPackageA.signature⟩ := by decide +kernel
  have horiginal : latest (crates.hexEncode publicKey.val)
      (tablesAfter crates (original (copiedAt 3000000)))
        = some ⟨keyPackageB.payload, keyPackageB.signature⟩ := by decide +kernel
  refine ⟨cannotSign_copiedAt _, hfull, horiginal, fun h ↦ ?_⟩
  have hsame := h (copiedAt 3000000) List.prefix_rfl
  rw [hfull, horiginal] at hsame
  exact absurd (Option.some.inj hsame) (by decide +kernel)

/-- The copy arrives while the clock still reads the millisecond of the second bundle. -/
theorem undisturbed_copiedAt : Undisturbed crates publicKey (copiedAt 2500000) := by
  refine (only_keyHolder_publishes hexLaws publicKey).1 _ (cannotSign_copiedAt 2500000) ?_
  refine Machine.forall_moment_cons.mpr ⟨?_, Machine.forall_moment_cons.mpr
    ⟨?_, Machine.forall_moment_cons.mpr ⟨?_, Machine.forall_moment_nil⟩⟩⟩
  · intro hins
    exact absurd hins (by simp)
  · intro hins
    exact absurd hins (by simp)
  · intro _ b _ _
    decide +kernel

end Reference

end ChatStore
