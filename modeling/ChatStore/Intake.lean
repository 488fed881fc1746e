import ChatStore.Reference
import ChatStore.Views

/-!
# Which keypackages are taken in

A valid keypackage can only fail on the primary key of its table: the device and the millisecond
the store reads off the clock. Two submissions for a device within a millisecond collide, and the
second is refused although nothing is wrong with it.

`noneRefused_iff` says that this is the only way to lose one. A run in which every valid submission
finds its millisecond free stores them all, and its answers are those the endpoint documents.
-/

namespace ChatStore

open Library Store

variable (C : Crates)

/-- No valid keypackage of a run is refused or lost. -/
structure NoneRefused (events : List Event) : Prop where
  /-- The rule succeeds, and the bundle is in the device's history. -/
  stored : ∀ past e b, past ++ [e] <+: events → e.request.effect C = .keypackage b →
    b.authentic C = true →
    (applyKeypackage C e.now b (tablesAfter C past)).2 = .ok () ∧
      insertedRow e.now (b.keyHex C) ⟨b.payload, b.signature⟩
        ∈ history (b.keyHex C) (tablesAfter C (past ++ [e]))
  /-- A post is answered with 204 or 400. -/
  answered : ∀ past now req, past ++ [⟨now, .submitKeyPackage req⟩] <+: events →
    (submitKeyPackage C now req (tablesAfter C past)).2 = .ok .noContent ∨
      ∃ msg, (submitKeyPackage C now req (tablesAfter C past)).2 = .error ⟨.badRequest, msg⟩
  /-- A delivered bundle that is valid is logged as stored. -/
  delivered : ∀ past now bytes b, past ++ [⟨now, .ingestKeypackage bytes⟩] <+: events →
    (Request.ingestKeypackage bytes).effect C = .keypackage b → b.authentic C = true →
    (ingestKeypackage C now bytes (tablesAfter C past)).2 = .stored

/-- Every valid submission of a run finds its device without a row of its millisecond. -/
def StampsFree (events : List Event) : Prop :=
  ∀ past e b, past ++ [e] <+: events → e.request.effect C = .keypackage b →
    b.authentic C = true → ¬StampTaken e.now (b.keyHex C) (tablesAfter C past)

variable {C} {now : SystemTime} {b : Bundle} {s : Tables}

/-- An accepted keypackage is in the history of its device. -/
theorem mem_history_of_accepted (h : (applyKeypackage C now b s).2 = .ok ()) :
    insertedRow now (b.keyHex C) ⟨b.payload, b.signature⟩
      ∈ history (b.keyHex C) (applyKeypackage C now b s).1 := by
  obtain ⟨hauth, hfree⟩ := applyKeypackage_eq_ok_iff.mp h
  have heffect := history_effect (C := C) (b.keyHex C) now s (.keypackage b)
  rw [Effect.run] at heffect
  rw [heffect, Effect.onHistory, if_pos ⟨rfl, hauth, hfree⟩]
  exact List.mem_append_right _ List.mem_cons_self

/-- If no valid bundle is refused, a post is answered with 204 or 400. -/
theorem submitKeyPackage_answer {req : SubmitKeyPackageRequest}
    (hstored : ∀ b, req.decode C = .ok b → b.authentic C = true →
      (applyKeypackage C now b s).2 = .ok ()) :
    (submitKeyPackage C now req s).2 = .ok .noContent ∨
      ∃ msg, (submitKeyPackage C now req s).2 = .error ⟨.badRequest, msg⟩ := by
  simp only [submitKeyPackage, thenApply]
  cases hdecode : req.decode C with
  | error err =>
    obtain ⟨msg, rfl⟩ := decodeBundle_error hdecode
    exact Or.inr ⟨msg, rfl⟩
  | ok b =>
    cases hauth : b.authentic C with
    | true =>
      refine Or.inl ?_
      change answer (applyKeypackage C now b s).2 = _
      rw [hstored b hdecode hauth]
      rfl
    | false =>
      obtain ⟨msg, happly⟩ := applyKeypackage_of_not_authentic (C := C) now s hauth
      refine Or.inr ⟨msg, ?_⟩
      change answer (applyKeypackage C now b s).2 = _
      rw [happly]
      rfl

/-- A delivered bundle that the rule takes is logged as stored. -/
theorem ingestKeypackage_stored {bytes : Bytes}
    (heffect : (Request.ingestKeypackage bytes).effect C = .keypackage b)
    (hok : (applyKeypackage C now b s).2 = .ok ()) :
    (ingestKeypackage C now bytes s).2 = .stored := by
  rw [Request.effect] at heffect
  rw [ingestKeypackage]
  cases hwire : C.decodeKeyPackage bytes with
  | none => rw [hwire] at heffect; cases heffect
  | some wire =>
    rw [hwire] at heffect
    simp only [submissionEffect] at heffect
    simp only [thenApply]
    cases hbundle : Bundle.fromBytes (A := C.log) wire.deviceId wire.payload wire.signature with
    | error err => rw [hbundle] at heffect; cases heffect
    | ok b' =>
      rw [hbundle] at heffect
      obtain rfl : b' = b := by simpa using heffect
      change logged (applyKeypackage C now b' s).2 = _
      rw [hok]
      rfl

/-- **Which runs lose no keypackage.** No valid keypackage is refused or lost exactly when each
finds its device without a row of the same millisecond. -/
theorem noneRefused_iff (events : List Event) : NoneRefused C events ↔ StampsFree C events := by
  constructor
  · intro h past e b hpre heffect hauth
    exact (applyKeypackage_eq_ok_iff.mp (h.stored past e b hpre heffect hauth).1).2
  · intro h
    have hok : ∀ past e b, past ++ [e] <+: events → e.request.effect C = .keypackage b →
        b.authentic C = true → (applyKeypackage C e.now b (tablesAfter C past)).2 = .ok () :=
      fun past e b hpre heffect hauth ↦
        applyKeypackage_eq_ok_iff.mpr ⟨hauth, h past e b hpre heffect hauth⟩
    refine ⟨?_, ?_, ?_⟩
    · intro past e b hpre heffect hauth
      refine ⟨hok past e b hpre heffect hauth, ?_⟩
      have hrun : tablesAfter C (past ++ [e])
          = (applyKeypackage C e.now b (tablesAfter C past)).1 := by
        rw [tablesAfter_concat, serve_fst, heffect]
        rfl
      rw [hrun]
      exact mem_history_of_accepted (hok past e b hpre heffect hauth)
    · intro past now req hpre
      refine submitKeyPackage_answer fun b hdecode hauth ↦ ?_
      have heffect : (Request.submitKeyPackage req).effect C = .keypackage b := by
        simp only [Request.effect, hdecode, submissionEffect]
      exact hok past ⟨now, .submitKeyPackage req⟩ b hpre heffect hauth
    · intro past now bytes b hpre heffect hauth
      have hstored := hok past ⟨now, .ingestKeypackage bytes⟩ b hpre heffect hauth
      exact ingestKeypackage_stored heffect hstored

namespace Reference

/-- The request that posts the second keypackage. -/
def secondPost : SubmitKeyPackageRequest :=
  ⟨Hex.encode publicKey.val, Base64.encode keyPackageB.payload,
    Base64.encode keyPackageB.signature.val⟩

/-- One device publishes twice within a millisecond, over either wire. -/
def sameMillisecond : List Event :=
  [⟨1000000, deliverKeyPackage keyPackageA⟩, ⟨1500000, .submitKeyPackage secondPost⟩]

/-- The second keypackage is valid, answered with 500, and lost. -/
theorem not_noneRefused : keyPackageB.authentic crates = true ∧
    (submitKeyPackage crates 1500000 secondPost
        (tablesAfter crates [⟨1000000, deliverKeyPackage keyPackageA⟩])).2
      = .error ⟨.internalServerError, "internal error"⟩ ∧
    ¬NoneRefused crates sameMillisecond := by
  have hanswer : (submitKeyPackage crates 1500000 secondPost
      (tablesAfter crates [⟨1000000, deliverKeyPackage keyPackageA⟩])).2
        = .error ⟨.internalServerError, "internal error"⟩ := by
    have hdecode : secondPost.decode crates = .ok keyPackageB := decodeBundle_eq_ok_iff.mpr
      ⟨hexLaws.decode_encode _, base64Laws.decode_encode _, base64Laws.decode_encode _⟩
    rw [submitKeyPackage, hdecode]
    decide +kernel
  refine ⟨by decide +kernel, hanswer, fun h ↦ ?_⟩
  rcases h.answered [⟨1000000, deliverKeyPackage keyPackageA⟩] 1500000 secondPost
    List.prefix_rfl with hok | ⟨msg, hbad⟩
  · rw [hanswer] at hok
    exact absurd hok (by simp)
  · rw [hanswer] at hbad
    exact absurd hbad (by simp)

end Reference

end ChatStore
