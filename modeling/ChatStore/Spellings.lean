import ChatStore.Convergence
import ChatStore.Recency
import ChatStore.Wires

/-!
# Reads by another spelling of the key

A submission over HTTP may spell its key in either case. The write path decodes the spelling and
files the row under the canonical lower-case one, "so the same key always lands in the same row",
while the v0 reads look their path segment up as it stands. A row is therefore found by its
canonical spelling only: `readsBack_iff` says that a client reads back what it wrote exactly when it
wrote under the canonical spelling, and, for a keypackage, in the order of the clock.
-/

namespace ChatStore

open Library Store

variable (C : Crates)

/-! ## Writing and reading a resource -/

/-- `POST` of a resource. -/
def Resource.post (spelling payload signature : String) : Resource → Request
  | .keypackage => .submitKeyPackage ⟨spelling, payload, signature⟩
  | .account => .submitAccount ⟨spelling, payload, signature⟩

/-- The bundle that an event submits for a key of a resource. -/
def Resource.submitted (k : FixedBytes 32) (e : Event) : Resource → Option Bundle
  | .keypackage => e.deviceBundle C k
  | .account => e.accountBundle C k

/-- The payload and signature that a resource has on file under a path segment. -/
def Resource.stored (path : String) (s : Tables) : Resource → Option (Bytes × Bytes)
  | .keypackage => (latest path s).map fun bundle ↦ (bundle.payload, bundle.signature)
  | .account => (getAccount path s).map fun bundle ↦ (bundle.payload, bundle.signature)

/-- The payload and signature in the answer to a `GET` of a resource. -/
def Resource.fetched (path : String) (s : Tables) : Resource → Except ApiError (String × String)
  | .keypackage => (fetchKeyPackage C path s).map fun resp ↦ (resp.payload, resp.signature)
  | .account => (fetchAccount C path s).map fun resp ↦ (resp.payload, resp.signature)

/-- The text of a resource's 404. -/
def Resource.missing : Resource → String
  | .keypackage => "no keypackage for device"
  | .account => "no account bundle for account_pub"

/-- A `GET` answers with the payload and signature of the bundle. -/
def ReadsBack (r : Resource) (path : String) (s : Tables) (b : Bundle) : Prop :=
  ∃ payload signature, r.fetched C path s = .ok (payload, signature) ∧
    C.base64Decode payload = some b.payload ∧ C.base64Decode signature = some b.signature.val

def Request.isPrune : Request → Bool
  | .pruneKeyPackages _ _ | .pruneAccounts _ => true
  | _ => false

/-- In the events that follow a run nothing is published for the key, and no prune changes what is
on file for it. -/
def Quiet (r : Resource) (k : FixedBytes 32) (past future : List Event) : Prop :=
  ∀ mid e rest, future = mid ++ e :: rest →
    ((r.submitted C k e).isSome = true →
      (serve C (tablesAfter C (past ++ mid)) e).2.accepted = false) ∧
    (e.request.isPrune = true →
      r.stored (C.hexEncode k) (serve C (tablesAfter C (past ++ mid)) e).1
        = r.stored (C.hexEncode k) (tablesAfter C (past ++ mid)))

/-- Reads find what writes stored, for every spelling of the key. -/
def ReadsFindWrites : Prop :=
  ∀ (r : Resource) past now spelling payload signature b future,
    decodeBundle C spelling payload signature = .ok b →
    (serve C (tablesAfter C past) ⟨now, r.post spelling payload signature⟩).2.accepted = true →
    Quiet C r b.key (past ++ [⟨now, r.post spelling payload signature⟩]) future →
    ReadsBack C r spelling
      (tablesAfter C (past ++ ⟨now, r.post spelling payload signature⟩ :: future)) b

/-- The event finds the key of a resource in order. Accounts have no order to keep. -/
def Resource.inOrder (k : FixedBytes 32) (s : Tables) (e : Event) : Resource → Prop
  | .keypackage => e.inOrder C k s
  | .account => True

variable {C} {r : Resource} {k : FixedBytes 32} {s : Tables} {e : Event} {b : Bundle}

theorem fetched_eq (r : Resource) (path : String) (s : Tables) :
    r.fetched C path s = (r.stored path s).elim (.error (.notFound r.missing))
      fun c ↦ .ok (C.base64Encode c.1, C.base64Encode c.2) := by
  rcases r with _ | _
  · rw [Resource.fetched, fetchKeyPackage, Resource.stored]
    rcases latest path s with _ | bundle
    · rfl
    · rfl
  · rw [Resource.fetched, fetchAccount, Resource.stored]
    rcases getAccount path s with _ | bundle
    · rfl
    · rfl

/-- What is read back is what is on file. -/
theorem readsBack_iff_stored (hB64 : C.Base64Laws) {path : String} :
    ReadsBack C r path s b ↔ r.stored path s = some (b.payload, b.signature.val) := by
  rw [ReadsBack, fetched_eq]
  rcases r.stored path s with _ | ⟨payload, signature⟩
  · exact ⟨fun ⟨_, _, h, _⟩ ↦ (nomatch h), fun h ↦ (nomatch h)⟩
  · rw [Option.elim_some, Option.some.injEq, Prod.mk.injEq]
    constructor
    · rintro ⟨_, _, hok, hpayload, hsignature⟩
      obtain ⟨rfl, rfl⟩ := Prod.mk.inj (Except.ok.inj hok)
      rw [hB64.decode_encode] at hpayload hsignature
      exact ⟨Option.some.inj hpayload, Option.some.inj hsignature⟩
    · rintro ⟨rfl, rfl⟩
      exact ⟨_, _, rfl, hB64.decode_encode _, hB64.decode_encode _⟩

/-! ## Rows are filed under canonical spellings -/

variable (C) in
/-- The rows of both v0 tables are filed under the hexadecimal of a key. -/
structure Filed (s : Tables) : Prop where
  keypackages : ∀ row ∈ s.keypackages.rows, ∃ key : FixedBytes 32, row.deviceId = C.hexEncode key
  accountBundles : ∀ row ∈ s.accountBundles.rows, ∃ key : FixedBytes 32,
    row.accountPub = C.hexEncode key

theorem Filed.after (events : List Event) : Filed C (tablesAfter C events) := by
  refine (service C).run_invariant (P := Filed C) (fun s e hs ↦ ?_) ⟨?_, ?_⟩ events
  · change Filed C (serve C s e).1
    rw [serve_fst]
    refine ⟨fun row hrow ↦ ?_, fun row hrow ↦ ?_⟩
    · rcases mem_keypackages_effect hrow with hrow | ⟨b, -, -, rfl⟩
      · exact hs.keypackages row hrow
      · exact ⟨b.key, rfl⟩
    · rcases mem_accountBundles_effect hrow with hrow | ⟨b, lamport, -, -, rfl⟩
      · exact hs.accountBundles row hrow
      · exact ⟨b.key, rfl⟩
  · intro row hrow
    cases hrow
  · intro row hrow
    cases hrow

/-- Nothing is on file under any other spelling of a key. -/
theorem Filed.stored_eq_none (hHex : C.HexLaws) (h : Filed C s) {spelling : String}
    (hspells : C.hexDecode spelling = some k.val) (hne : spelling ≠ C.hexEncode k) :
    r.stored spelling s = none := by
  have hfiled : ∀ key : FixedBytes 32, spelling ≠ C.hexEncode key := by
    rintro key rfl
    rw [hHex.decode_encode] at hspells
    exact hne (congrArg C.hexEncode (Option.some.inj hspells))
  rcases r with _ | _
  · rw [Resource.stored, latest, Option.map_eq_none_iff, Option.map_eq_none_iff]
    refine Option.eq_none_iff_forall_ne_some.mpr fun row hrow ↦ ?_
    obtain ⟨hmem, hid⟩ := mem_history.mp (newest?_mem hrow)
    obtain ⟨key, hkey⟩ := h.keypackages row hmem
    exact hfiled key (hid.symm.trans hkey)
  · rw [Resource.stored, getAccount, Option.map_eq_none_iff, Option.map_eq_none_iff]
    refine Option.eq_none_iff_forall_ne_some.mpr fun row hrow ↦ ?_
    obtain ⟨hmem, hid⟩ := Table.find?_eq_some_iff.mp hrow
    obtain ⟨key, hkey⟩ := h.accountBundles row hmem
    exact hfiled key (hid.symm.trans hkey)

/-- Two spellings of a key get the same answer exactly when both or neither is the canonical one, or
nothing is on file. -/
theorem fetched_congr_iff (hHex : C.HexLaws) (h : Filed C s) {spelling spelling' : String}
    (hspells : C.hexDecode spelling = some k.val) (hspells' : C.hexDecode spelling' = some k.val) :
    r.fetched C spelling s = r.fetched C spelling' s ↔
      ((spelling = C.hexEncode k ↔ spelling' = C.hexEncode k) ∨
        r.stored (C.hexEncode k) s = none) := by
  rw [fetched_eq, fetched_eq]
  by_cases hcanon : spelling = C.hexEncode k
  · by_cases hcanon' : spelling' = C.hexEncode k
    · simp [hcanon, hcanon']
    · rw [h.stored_eq_none hHex hspells' hcanon', hcanon]
      rcases r.stored (C.hexEncode k) s with _ | c <;> simp [hcanon']
  · rw [h.stored_eq_none hHex hspells hcanon]
    by_cases hcanon' : spelling' = C.hexEncode k
    · rw [hcanon']
      rcases r.stored (C.hexEncode k) s with _ | c <;> simp [hcanon]
    · rw [h.stored_eq_none hHex hspells' hcanon']
      simp [hcanon, hcanon']

/-! ## What one event does to a key -/

/-- Unless it is an accepted submission for the key or a prune, an event leaves the key as it is. -/
theorem stored_of_other (hHex : C.HexLaws) (s : Tables)
    (hsub : (r.submitted C k e).isSome = true → (serve C s e).2.accepted = false)
    (hprune : e.request.isPrune = false) :
    r.stored (C.hexEncode k) (serve C s e).1 = r.stored (C.hexEncode k) s := by
  rcases r with _ | _
  · have hrow := newestRow_of_other (k := k) (s := s) (e := e) hHex
      (fun b hb ↦ hsub (Option.isSome_of_eq_some hb)) fun maxPerIdentity retention heffect ↦ by
        rw [request_of_pruneKeyPackages heffect] at hprune
        cases hprune
    rw [Resource.stored, Resource.stored, latest, latest, hrow]
  · obtain ⟨b, -, heffect, hkey, -, -, hacc, -⟩ | ⟨retention, heffect, -⟩ | ⟨hrow, -, -⟩ :=
      accountRow_cases (C := C) (C.hexEncode k) s e
    · have hbundle : e.accountBundle C k = some b :=
        accountBundle_eq_some_iff.mpr ⟨heffect, Subtype.ext (hHex.encode_injective hkey)⟩
      rw [hsub (Option.isSome_of_eq_some hbundle)] at hacc
      exact absurd hacc (by simp)
    · rw [request_of_pruneAccounts heffect] at hprune
      cases hprune
    · rw [Resource.stored, Resource.stored, getAccount, getAccount, hrow]

/-- An accepted submission is what is on file for the key if it finds the key in order. -/
theorem stored_of_accepted_iff (h : r.submitted C k e = some b)
    (hacc : (serve C s e).2.accepted = true) :
    r.stored (C.hexEncode k) (serve C s e).1 = some (b.payload, b.signature.val)
      ↔ r.inOrder C k s e := by
  rcases r with _ | _
  · rw [Resource.inOrder, ← latest_of_accepted_iff h hacc, Resource.stored]
    rcases latest (C.hexEncode k) (serve C s e).1 with _ | ⟨payload, signature⟩
    · simp
    · simp
  · obtain ⟨heffect, rfl⟩ := accountBundle_eq_some_iff.mp h
    obtain ⟨b', -, heffect', -, -, -, -, hrow⟩ | ⟨retention, hprune, -⟩ | ⟨-, -, hrefused⟩ :=
      accountRow_cases (C := C) (C.hexEncode b.key) s e
    · obtain rfl := Effect.account.inj (heffect.symm.trans heffect')
      rw [Resource.stored, getAccount, hrow]
      exact ⟨fun _ ↦ trivial, fun _ ↦ rfl⟩
    · exact absurd (heffect.symm.trans hprune) (by simp)
    · rw [hrefused b heffect rfl] at hacc
      exact absurd hacc (by simp)

/-- Quiet events leave the key as it is. -/
theorem stored_of_quiet (hHex : C.HexLaws) {past future : List Event}
    (h : Quiet C r k past future) :
    r.stored (C.hexEncode k) (tablesAfter C (past ++ future))
      = r.stored (C.hexEncode k) (tablesAfter C past) := by
  induction future using List.reverseRecOn with
  | nil => rw [List.append_nil]
  | append_singleton future e ih =>
    have hquiet : Quiet C r k past future := fun mid e' rest heq ↦
      h mid e' (rest ++ [e]) (by rw [heq, List.append_assoc, List.cons_append])
    obtain ⟨hsub, hprune⟩ := h future e [] rfl
    rw [← List.append_assoc, tablesAfter_concat, ← ih hquiet]
    rcases hisPrune : e.request.isPrune
    · exact stored_of_other hHex _ hsub hisPrune
    · exact hprune hisPrune

/-! ## Reading back -/

theorem submitted_post (r : Resource) {now : SystemTime} {spelling payload signature : String}
    (h : decodeBundle C spelling payload signature = .ok b) :
    r.submitted C b.key ⟨now, r.post spelling payload signature⟩ = some b := by
  rcases r with _ | _
  · refine deviceBundle_eq_some_iff.mpr ⟨?_, rfl⟩
    simp only [Resource.post, Request.effect, SubmitKeyPackageRequest.decode, h, submissionEffect]
  · refine accountBundle_eq_some_iff.mpr ⟨?_, rfl⟩
    simp only [Resource.post, Request.effect, SubmitAccountRequest.decode, h, submissionEffect]

/-- **When a client reads back what it wrote.** After an accepted submission, and until the next one
for the key, a `GET` with the spelling of the submission answers with its bundle exactly when the
spelling is the canonical one and, for a keypackage, the submission found the device in order. In
every reachable state two spellings of a key get the same answer exactly when both or neither is
canonical, or nothing is on file. -/
theorem readsBack_iff (hHex : C.HexLaws) (hB64 : C.Base64Laws) :
    (∀ (r : Resource) past now spelling payload signature b future,
      decodeBundle C spelling payload signature = .ok b →
      (serve C (tablesAfter C past) ⟨now, r.post spelling payload signature⟩).2.accepted = true →
      Quiet C r b.key (past ++ [⟨now, r.post spelling payload signature⟩]) future →
      (ReadsBack C r spelling
          (tablesAfter C (past ++ ⟨now, r.post spelling payload signature⟩ :: future)) b
        ↔ spelling = C.hexEncode b.key ∧
          r.inOrder C b.key (tablesAfter C past) ⟨now, r.post spelling payload signature⟩)) ∧
    ∀ (r : Resource) events (k : FixedBytes 32) spelling spelling',
      C.hexDecode spelling = some k.val → C.hexDecode spelling' = some k.val →
      (r.fetched C spelling (tablesAfter C events) = r.fetched C spelling' (tablesAfter C events)
        ↔ (spelling = C.hexEncode k ↔ spelling' = C.hexEncode k) ∨
          r.stored (C.hexEncode k) (tablesAfter C events) = none) := by
  constructor
  · intro r past now spelling payload signature b future hdecode hacc hquiet
    have hspells := (decodeBundle_eq_ok_iff.mp hdecode).1
    have hsplit : past ++ ⟨now, r.post spelling payload signature⟩ :: future
        = (past ++ [⟨now, r.post spelling payload signature⟩]) ++ future := by simp
    rw [readsBack_iff_stored hB64, hsplit]
    by_cases hcanon : spelling = C.hexEncode b.key
    · subst hcanon
      rw [stored_of_quiet hHex hquiet, tablesAfter_concat,
        stored_of_accepted_iff (submitted_post r hdecode) hacc]
      simp
    · rw [(Filed.after _).stored_eq_none hHex hspells hcanon]
      simp [hcanon]
  · intro r events k spelling spelling' hspells hspells'
    exact fetched_congr_iff hHex (Filed.after events) hspells hspells'

/-! ## A spelling that is not found -/

namespace Reference

/-- A bundle of the public key for each resource. -/
def bundleFor : Resource → Bundle
  | .keypackage => keyPackageA
  | .account => accountBundle5

/-- The `POST` of that bundle under some spelling of the key. -/
def postSpelled (r : Resource) (key : String) : Event :=
  ⟨0, r.post key (Base64.encode (bundleFor r).payload) (Base64.encode (bundleFor r).signature.val)⟩

theorem decodeBundle_spelled {key : String} (h : crates.hexDecode key = some publicKey.val)
    (r : Resource) : decodeBundle crates key (Base64.encode (bundleFor r).payload)
      (Base64.encode (bundleFor r).signature.val) = .ok (bundleFor r) := by
  refine decodeBundle_eq_ok_iff.mpr
    ⟨h.trans ?_, base64Laws.decode_encode _, base64Laws.decode_encode _⟩
  rcases r with _ | _
  · rfl
  · rfl

theorem hexDecode_spelling : crates.hexDecode spelling = some publicKey.val := by decide +kernel

theorem spelling_ne : spelling ≠ crates.hexEncode publicKey.val := by decide +kernel

/-- The empty store accepts the bundle under every spelling of the key. -/
theorem accepted_postSpelled {key : String} (h : crates.hexDecode key = some publicKey.val)
    (r : Resource) : (serve crates Tables.empty (postSpelled r key)).2.accepted = true := by
  have hdecode := decodeBundle_spelled h r
  rcases r with _ | _
  · refine (accepted_of_deviceBundle (submitted_post .keypackage hdecode)).mpr
      ⟨by decide +kernel, ?_⟩
    rintro ⟨row, hrow, -⟩
    cases hrow
  · have hsubmitted : (postSpelled .account key).accountBundle crates publicKey
        = some accountBundle5 := submitted_post .account hdecode
    rw [accepted_serve, (accountBundle_eq_some_iff.mp hsubmitted).1, Effect.accepts, isOk_iff,
      applyAccount_eq_ok_iff]
    exact ⟨5, by decide +kernel, rfl⟩

/-- It is then on file under the canonical spelling. -/
theorem stored_postSpelled {key : String} (h : crates.hexDecode key = some publicKey.val)
    (r : Resource) :
    r.stored (crates.hexEncode publicKey.val) (tablesAfter crates [postSpelled r key])
      = some ((bundleFor r).payload, (bundleFor r).signature.val) := by
  have hsubmitted : r.submitted crates (bundleFor r).key (postSpelled r key) = some (bundleFor r) :=
    submitted_post r (decodeBundle_spelled h r)
  have hstored := (stored_of_accepted_iff hsubmitted (accepted_postSpelled h r)).mpr
  rcases r with _ | _
  · refine hstored ?_
    rw [Resource.inOrder, Event.inOrder, (deviceBundle_eq_some_iff.mp hsubmitted).1]
    intro _ _ _ row hrow
    cases hrow
  · exact hstored trivial

/-- Both resources accept the upper-case spelling of a key. A `GET` with the same spelling finds
nothing, and one with the canonical spelling finds the bundle. -/
theorem not_readsFindWrites :
    (∀ r : Resource, (serve crates Tables.empty (postSpelled r spelling)).2.accepted = true ∧
      r.fetched crates spelling (tablesAfter crates [postSpelled r spelling])
        = .error (.notFound r.missing) ∧
      r.fetched crates (Hex.encode publicKey.val) (tablesAfter crates [postSpelled r spelling])
        = .ok (Base64.encode (bundleFor r).payload, Base64.encode (bundleFor r).signature.val)) ∧
    ¬ReadsFindWrites crates := by
  have hmissing : ∀ r : Resource,
      r.fetched crates spelling (tablesAfter crates [postSpelled r spelling])
        = .error (.notFound r.missing) := by
    intro r
    rw [fetched_eq, (Filed.after _).stored_eq_none hexLaws hexDecode_spelling spelling_ne]
    rfl
  refine ⟨fun r ↦ ⟨accepted_postSpelled hexDecode_spelling r, hmissing r, ?_⟩, fun hreads ↦ ?_⟩
  · have hstored := stored_postSpelled hexDecode_spelling r
    rw [fetched_eq]
    exact congrArg (fun c ↦ Option.elim c _ _) hstored
  · obtain ⟨payload, signature, hok, -⟩ := hreads .account [] 0 spelling _ _ _ []
      (decodeBundle_spelled hexDecode_spelling .account)
      (accepted_postSpelled hexDecode_spelling .account) fun mid e rest heq ↦ by simp at heq
    exact absurd (hok.symm.trans (hmissing .account)) (fun h ↦ nomatch h)

/-- Of the two spellings of a `POST` only the canonical one is read back. -/
theorem readsBack_iff_publicKey :
    ¬ReadsBack crates .account spelling
        (tablesAfter crates [postSpelled .account spelling]) accountBundle5 ∧
      ReadsBack crates .account (Hex.encode publicKey.val)
        (tablesAfter crates [postSpelled .account (Hex.encode publicKey.val)]) accountBundle5 := by
  obtain ⟨hreads, -⟩ := readsBack_iff (C := crates) hexLaws base64Laws
  constructor
  · have h := hreads .account [] 0 spelling _ _ _ []
      (decodeBundle_spelled hexDecode_spelling .account)
      (accepted_postSpelled hexDecode_spelling .account) fun mid e rest heq ↦ by simp at heq
    exact fun hread ↦ absurd (h.mp hread).1 spelling_ne
  · have hdecode : crates.hexDecode (Hex.encode publicKey.val) = some publicKey.val :=
      hexLaws.decode_encode _
    have h := hreads .account [] 0 (Hex.encode publicKey.val) _ _ _ []
      (decodeBundle_spelled hdecode .account) (accepted_postSpelled hdecode .account)
      fun mid e rest heq ↦ by simp at heq
    exact h.mpr ⟨rfl, trivial⟩

end Reference

end ChatStore
