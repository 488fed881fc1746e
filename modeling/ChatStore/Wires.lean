import ChatStore.Reference

/-!
# The two write wires agree

A submission is a triple of bytes for one of the two v0 resources. It travels as protobuf over
logos-delivery, or as JSON over HTTP with its key in hexadecimal of either case. `submissions` is
the service with the wire taken away, and `wires_agree` says that the service behaves like it
whichever wire each submission takes.
-/

namespace ChatStore

open Library

variable (C : Crates)

/-! ## Submissions without a wire -/

/-- The resources with two wires. -/
inductive Resource
  | keypackage
  | account

/-- What a client wants stored, and the clock reading it is handled at. -/
structure Submission where
  now : SystemTime
  resource : Resource
  key : Bytes
  payload : Bytes
  signature : Bytes

/-- The rule of a resource. -/
def Resource.apply (now : SystemTime) :
    Resource → Bundle → Tables → Tables × Except (BundleError C.log) Unit
  | .keypackage => applyKeypackage C now
  | .account => applyAccount C now

/-- What becomes of a submission. -/
def Submission.apply (sub : Submission) (s : Tables) : Tables × Except (BundleError C.log) Unit :=
  thenApply (Bundle.fromBytes sub.key sub.payload sub.signature) (sub.resource.apply C sub.now) s

/-- The service without its wires. -/
def submissions : Machine Tables Submission (Except (BundleError C.log) Unit) :=
  ⟨fun s sub ↦ sub.apply C s⟩

/-! ## Wires -/

/-- A text is hexadecimal for some bytes, in any mix of cases. -/
def Spells (s : String) (bs : Bytes) : Prop :=
  s.toList.map Char.toLower = (C.hexEncode bs).toList.map Char.toLower

/-- The wires that can carry a submission for `key`. -/
inductive Wire (key : Bytes)
  | delivery
  | http (spelling : String) (spells : Spells C spelling key)

/-- A submission on a wire. -/
structure Carried where
  submission : Submission
  wire : Wire C submission.key

/-- The request that arrives. -/
def Carried.request (c : Carried C) : Request :=
  match c.submission.resource, c.wire with
  | .keypackage, .delivery => .ingestKeypackage
      (C.encodeKeyPackage ⟨c.submission.key, c.submission.payload, c.submission.signature⟩)
  | .keypackage, .http spelling _ => .submitKeyPackage
      ⟨spelling, C.base64Encode c.submission.payload, C.base64Encode c.submission.signature⟩
  | .account, .delivery => .ingestAccount
      (C.encodeAccount ⟨c.submission.key, c.submission.payload, c.submission.signature⟩)
  | .account, .http spelling _ => .submitAccount
      ⟨spelling, C.base64Encode c.submission.payload, C.base64Encode c.submission.signature⟩

def Carried.event (c : Carried C) : Event := ⟨c.submission.now, c.request⟩

/-- How a wire reports a verdict. -/
def Wire.report {key : Bytes} (verdict : Except (BundleError C.log) Unit) :
    Wire C key → Response C
  | .delivery => .ingested (logged verdict)
  | .http _ _ => .submitted (answer verdict)

variable {C}

/-! ## Agreement -/

/-- The HTTP decoder finds the bytes that were spelt. -/
theorem decodeBundle_of_spells (hHex : C.HexLaws) (hB64 : C.Base64Laws) {spelling : String}
    {key : Bytes} (h : Spells C spelling key) (payload signature : Bytes) :
    decodeBundle C spelling (C.base64Encode payload) (C.base64Encode signature)
      = Bundle.fromBytes key payload signature := by
  have hkey : C.hexDecode spelling = some key := by
    rw [hHex.decode_ignores_case spelling (C.hexEncode key) h, hHex.decode_encode]
  simp only [decodeBundle, hkey, hB64.decode_encode, Option.elim_some]
  rfl

/-- One carried submission is applied, and its verdict reported. -/
theorem serve_carried (hHex : C.HexLaws) (hB64 : C.Base64Laws) (hProst : C.ProstLaws)
    (c : Carried C) (s : Tables) :
    serve C s c.event
      = ((c.submission.apply C s).1, c.wire.report C (c.submission.apply C s).2) := by
  obtain ⟨⟨now, resource, key, payload, signature⟩, wire⟩ := c
  cases wire with
  | delivery =>
    cases resource with
    | keypackage =>
      simp only [Carried.event, Carried.request, serve, ingestKeypackage,
        hProst.decode_encode_keyPackage]
      rfl
    | account =>
      simp only [Carried.event, Carried.request, serve, ingestAccount,
        hProst.decode_encode_account]
      rfl
  | http spelling spells =>
    have hdecode := decodeBundle_of_spells hHex hB64 spells payload signature
    cases resource with
    | keypackage =>
      simp only [Carried.event, Carried.request, serve, submitKeyPackage,
        SubmitKeyPackageRequest.decode, hdecode]
      rfl
    | account =>
      simp only [Carried.event, Carried.request, serve, submitAccount,
        SubmitAccountRequest.decode, hdecode]
      rfl

/-- Keys and signatures of a wrong length are refused before anything else is looked at. -/
theorem apply_of_wrong_length (sub : Submission) (s : Tables) :
    (sub.key.length ≠ 32 →
      sub.apply C s = (s, .error (.invalid "key: must be 32 bytes"))) ∧
    (sub.key.length = 32 → sub.signature.length ≠ 64 →
      sub.apply C s = (s, .error (.invalid "signature: must be 64 bytes"))) := by
  constructor
  · intro hkey
    simp only [Submission.apply, Bundle.fromBytes, tryIntoArray, dif_neg hkey]
    rfl
  · intro hkey hsignature
    simp only [Submission.apply, Bundle.fromBytes, tryIntoArray, dif_pos hkey, dif_neg hsignature]
    rfl

/-- A run of carried submissions, state and verdicts. -/
theorem run_carried (hHex : C.HexLaws) (hB64 : C.Base64Laws) (hProst : C.ProstLaws)
    (cs : List (Carried C)) (s : Tables) :
    (service C).run s (cs.map (Carried.event C))
        = (submissions C).run s (cs.map Carried.submission) ∧
      ((service C).trace s (cs.map (Carried.event C))).map Machine.Entry.output
        = List.zipWith (fun c verdict ↦ c.wire.report C verdict) cs
          (((submissions C).trace s (cs.map Carried.submission)).map Machine.Entry.output) := by
  induction cs generalizing s with
  | nil => exact ⟨rfl, rfl⟩
  | cons c cs ih =>
    have hstep : (service C).step s c.event
        = ((c.submission.apply C s).1, c.wire.report C (c.submission.apply C s).2) :=
      serve_carried hHex hB64 hProst c s
    obtain ⟨hrun, htrace⟩ := ih (c.submission.apply C s).1
    rw [List.map_cons, List.map_cons, Machine.run_cons, Machine.run_cons, Machine.trace_cons,
      Machine.trace_cons, List.map_cons, List.map_cons, List.zipWith_cons_cons, Machine.entry,
      hstep]
    exact ⟨hrun, by rw [htrace]; rfl⟩

/-- **The wires are interchangeable.** Whatever wire each submission of a list takes, the tables
afterwards are those of the submissions themselves, and every answer reports the verdict of its
submission. -/
theorem wires_agree (hHex : C.HexLaws) (hB64 : C.Base64Laws) (hProst : C.ProstLaws) (s : Tables) :
    (∀ cs : List (Carried C),
      (service C).run s (cs.map (Carried.event C))
          = (submissions C).run s (cs.map Carried.submission) ∧
        ((service C).trace s (cs.map (Carried.event C))).map Machine.Entry.output
          = List.zipWith (fun c verdict ↦ c.wire.report C verdict) cs
            (((submissions C).trace s (cs.map Carried.submission)).map Machine.Entry.output)) ∧
    (∀ cs cs' : List (Carried C), cs.map Carried.submission = cs'.map Carried.submission →
      (service C).run s (cs.map (Carried.event C))
        = (service C).run s (cs'.map (Carried.event C))) ∧
    (∀ sub : Submission, (sub.key.length ≠ 32 →
        sub.apply C s = (s, .error (.invalid "key: must be 32 bytes"))) ∧
      (sub.key.length = 32 → sub.signature.length ≠ 64 →
        sub.apply C s = (s, .error (.invalid "signature: must be 64 bytes")))) ∧
    (∀ b b' : Bundle, b.keyHex C = b'.keyHex C ↔ b.key = b'.key) := by
  refine ⟨fun cs ↦ run_carried hHex hB64 hProst cs s, fun cs cs' hcs ↦ ?_,
    fun sub ↦ apply_of_wrong_length sub s, fun b b' ↦ keyHex_injective hHex⟩
  rw [(run_carried hHex hB64 hProst cs s).1, (run_carried hHex hB64 hProst cs' s).1, hcs]

namespace Reference

def accountSubmission (b : Bundle) : Submission :=
  ⟨0, .account, b.key.val, b.payload, b.signature.val⟩

/-- The public key as a client may well spell it. -/
def spelling : String := "8A88E3DD7409F195FD52DB2D3CBA5D72CA6709BF1D94121BF3748801B40F6F5C"

theorem spells_publicKey : Spells crates spelling publicKey.val := by
  rw [Spells]
  decide +kernel

/-- Two account bundles, the first over HTTP and the second over logos-delivery. -/
def httpFirst : List (Carried crates) :=
  [⟨accountSubmission accountBundle5, .http spelling spells_publicKey⟩,
    ⟨accountSubmission accountBundle6, .delivery⟩]

/-- The same with the wires exchanged. -/
def deliveryFirst : List (Carried crates) :=
  [⟨accountSubmission accountBundle5, .delivery⟩,
    ⟨accountSubmission accountBundle6, .http spelling spells_publicKey⟩]

theorem wires_agree_exchanged :
    (service crates).run Tables.empty (httpFirst.map (Carried.event crates))
      = (service crates).run Tables.empty (deliveryFirst.map (Carried.event crates)) :=
  (wires_agree hexLaws base64Laws prostLaws Tables.empty).2.1 httpFirst deliveryFirst rfl

end Reference

end ChatStore
