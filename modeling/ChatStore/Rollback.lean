import ChatStore.AntiReplay
import ChatStore.Consistency

/-!
# Account bundles do not roll back

The lamport of an account bundle is what protects its readers from an old one. A client that saw a
lamport, in an acknowledgement or in a bundle that was served, gets a smaller one later only if a
prune has dropped the account in between. That goes for any number of restarts, and for requests in
flight in any number: the first statement of an interrupted prune is about keypackages, so a
restart by itself drops no account.

The prune is no accident: with it the lamport is gone, so the next bundle may have any.
-/

namespace ChatStore

open Library Store

variable (C : Crates) (k : FixedBytes 32)

/-- The lamport of the account `k` that a response shows: that of a bundle that is acknowledged, or
of one that is served. -/
def showsLamport : Request → Response C → Option UInt64
  | .submitAccount req, .submitted (.ok _) =>
    (req.decode C).toOption.bind fun b ↦ if b.key = k then payloadLamport b.payload else none
  | .fetchAccount accountPub, .account (.ok response) =>
    if accountPub = C.hexEncode k then
      (C.base64Decode response.payload).bind payloadLamport
    else none
  | _, _ => none

/-- The lamport of `k` that a task of some life showed to its client. -/
def lamportIn (lives : List Life) (p : Place) : Option UInt64 :=
  (requestIn C Tables.empty lives p).bind fun request ↦
    (responseIn C Tables.empty lives p).bind (showsLamport C k request)

/-- The lamport on file for `k`. -/
def lamportOnFile (s : Tables) : Option UInt64 := storedLamport (accountRow (C.hexEncode k) s)

/-- A step is a prune that drops the account `k`. -/
def Drops (s : Tables) (step : Step) : Prop :=
  ∃ now retention row, step = .event ⟨now, .pruneAccounts retention⟩ ∧
    accountRow (C.hexEncode k) s = some row ∧ row.updatedAt < cutoffMs now retention

/-- The account `k` was dropped between two steps of a log. -/
def DroppedBetween (log : List (Place × Step)) (p q : Place) : Prop :=
  ∃ first x rest, log = first ++ x :: rest ∧ p ∈ first.map Prod.fst ∧ q ∈ rest.map Prod.fst ∧
    Drops C k (tablesAt C first) x.2

variable {C k} {s : Tables} {l : UInt64}

/-! ## One response -/

/-- What is read is what is on file. -/
theorem serve_fetchAccount (hBase64 : C.Base64Laws) (now : SystemTime) (s : Tables) :
    showsLamport C k (.fetchAccount (C.hexEncode k))
      (serve C s ⟨now, .fetchAccount (C.hexEncode k)⟩).2 = lamportOnFile C k s := by
  have hresponse : (serve C s ⟨now, .fetchAccount (C.hexEncode k)⟩).2
      = .account (fetchAccount C (C.hexEncode k) s) := rfl
  rw [hresponse, fetchAccount, getAccount, lamportOnFile]
  rcases accountRow (C.hexEncode k) s with _ | row
  · rfl
  · simp [showsLamport, storedLamport, AccountBundleRow.bundle, hBase64.decode_encode]

/-- An acknowledged bundle is newer than the one on file was, and is on file afterwards. -/
theorem lamportOnFile_of_submission {now : SystemTime} {req : SubmitAccountRequest}
    (h : showsLamport C k (.submitAccount req) (serve C s ⟨now, .submitAccount req⟩).2 = some l) :
    (∀ m ∈ lamportOnFile C k s, m < l) ∧
      lamportOnFile C k (serve C s ⟨now, .submitAccount req⟩).1 = some l := by
  have hresponse : (serve C s ⟨now, .submitAccount req⟩).2
      = .submitted (submitAccount C now req s).2 := rfl
  rcases hresult : (submitAccount C now req s).2 with err | status
  · rw [hresponse, hresult] at h
    exact absurd h (by simp [showsLamport])
  · have hacc : (serve C s ⟨now, .submitAccount req⟩).2.accepted = true := by
      rw [hresponse, hresult]
      rfl
    rw [hresponse, hresult, showsLamport] at h
    obtain ⟨b, hb, hlamport⟩ := Option.bind_eq_some_iff.mp h
    split_ifs at hlamport with hkey
    have hdecode : req.decode C = .ok b := by
      rcases hdecoded : req.decode C with err | b'
      · exact absurd (hdecoded ▸ hb) (by simp [Except.toOption])
      · obtain rfl : b' = b := by simpa [hdecoded, Except.toOption] using hb
        rfl
    have hbundle : Event.accountBundle C k ⟨now, .submitAccount req⟩ = some b := by
      refine accountBundle_eq_some_iff.mpr ⟨?_, hkey⟩
      simp only [Request.effect, submissionEffect, hdecode]
    obtain ⟨l', hvalid⟩ := exists_validLamport hbundle hacc
    obtain rfl := Option.some.inj (hlamport.symm.trans (validLamport_eq_some_iff.mp hvalid).2)
    have haccount : Event.accountLamport C k ⟨now, .submitAccount req⟩ = some l := by
      rw [accountLamport_of_bundle hbundle, hvalid]
    obtain ⟨b', hb', hl, ⟨-, -, hrefused⟩ | ⟨hnew, hrow, -⟩⟩ := accountRow_of_submission s haccount
    · exact absurd (hacc.symm.trans hrefused) (by simp)
    · refine ⟨fun m hm ↦ ?_, ?_⟩
      · by_contra hle
        have hstale := isStale_iff.mpr ⟨m, hm, UInt64.not_lt.mp hle⟩
        exact absurd (hnew.symm.trans hstale) (by simp)
      · rw [lamportOnFile, hrow, storedLamport, Option.bind_some]
        exact hl

/-! ## A run -/

variable (C k l) in
/-- The account has a row, with a lamport of at least `l`. -/
def AtLeast (s : Tables) : Prop := ∃ m, lamportOnFile C k s = some m ∧ l ≤ m

/-- An interrupted prune does not touch account bundles. -/
theorem accountRow_interrupted (accountPub : String) (s : Tables) (e : Event) :
    accountRow accountPub ((durable C).step s (.interrupted e)).1 = accountRow accountPub s := by
  obtain ⟨now, request⟩ := e
  rcases request with req | deviceId | req | accountPub' | ⟨accountAddr, body⟩ | accountAddr |
    bytes | bytes | ⟨maxPerIdentity, retention⟩ | retention
  all_goals rfl

/-- The lamport on file grows, until a prune drops the account. -/
theorem atLeast_step {step : Step} (hkept : ¬Drops C k s step) (h : AtLeast C k l s) :
    AtLeast C k l ((durable C).step s step).1 := by
  obtain ⟨m, hm, hle⟩ := h
  rcases step with e | e
  · change ∃ m, lamportOnFile C k (serve C s e).1 = some m ∧ l ≤ m
    obtain ⟨b, lamport, -, -, hvalid, hnew, -, hrow⟩ | ⟨retention, heffect, hrow⟩ | ⟨hrow, -, -⟩ :=
      accountRow_cases (C := C) (C.hexEncode k) s e
    · refine ⟨lamport, ?_, ?_⟩
      · rw [lamportOnFile, hrow, storedLamport, Option.bind_some]
        exact (validLamport_eq_some_iff.mp hvalid).2
      · by_contra hlt
        have hstale : lamport ≤ m := UInt64.le_trans (UInt64.le_of_lt (UInt64.not_le.mp hlt)) hle
        exact absurd (hnew.symm.trans (isStale_iff.mpr ⟨m, hm, hstale⟩)) (by simp)
    · -- The row is there, so the prune has kept it.
      rcases hold : accountRow (C.hexEncode k) s with _ | row
      · rw [lamportOnFile, hold] at hm
        exact absurd hm (by simp [storedLamport])
      · have hrequest := request_of_pruneAccounts heffect
        have hlate : ¬row.updatedAt < cutoffMs e.now retention := fun hexpired ↦
          hkept ⟨e.now, retention, row, by rw [← hrequest], hold, hexpired⟩
        rw [hold, Option.filter_some_pos (by simpa using hlate)] at hrow
        rw [lamportOnFile, hold] at hm
        exact ⟨m, by rw [lamportOnFile, hrow, hm], hle⟩
    · exact ⟨m, by rw [lamportOnFile, hrow]; exact hm, hle⟩
  · rw [AtLeast, lamportOnFile, accountRow_interrupted]
    exact ⟨m, hm, hle⟩

/-! ## All lives -/

section Lives

variable {lives : List Life} {log : List (Place × Step)} {p q : Place} {m : UInt64}

/-- Only submissions and reads of account bundles show a lamport. -/
theorem request_of_showsLamport {request : Request} {response : Response C}
    (h : showsLamport C k request response = some l) :
    (∃ req, request = .submitAccount req) ∨ request = .fetchAccount (C.hexEncode k) := by
  rcases request with req | deviceId | req | accountPub | ⟨accountAddr, body⟩ | accountAddr |
    bytes | bytes | ⟨maxPerIdentity, retention⟩ | retention
  case submitAccount => exact Or.inl ⟨req, rfl⟩
  case fetchAccount =>
    rcases response with result | result | (err | bundle) | result | log | result
    case account.ok =>
      rw [showsLamport] at h
      split_ifs at h with hkey
      exact Or.inr (congrArg _ hkey)
    all_goals exact absurd h (by simp [showsLamport])
  all_goals exact absurd h (by simp [showsLamport])

/-- A lamport that was shown was on file when it was. -/
theorem Recovers.lamport (hBase64 : C.Base64Laws) (hrec : Recovers C Tables.empty lives log)
    (h : lamportIn C k lives p = some l) :
    ∃ before now request later, log = before ++ (p, .event ⟨now, request⟩) :: later ∧
      requestIn C Tables.empty lives p = some request ∧
      AtLeast C k l (serve C (tablesAt C before) ⟨now, request⟩).1 ∧
      ((∃ req, request = .submitAccount req ∧ ∀ m ∈ lamportOnFile C k (tablesAt C before), m < l) ∨
        request = .fetchAccount (C.hexEncode k) ∧
          lamportOnFile C k (tablesAt C before) = some l) := by
  obtain ⟨request, hrequest, hbind⟩ := Option.bind_eq_some_iff.mp h
  obtain ⟨response, hresponse, hshows⟩ := Option.bind_eq_some_iff.mp hbind
  obtain ⟨before, now, request', later, hlog, hrequest', rfl⟩ := hrec.place hresponse
  obtain rfl := Option.some.inj (hrequest.symm.trans hrequest')
  refine ⟨before, now, request, later, hlog, hrequest, ?_⟩
  rcases request_of_showsLamport hshows with ⟨req, rfl⟩ | rfl
  · obtain ⟨hold, hfile⟩ := lamportOnFile_of_submission hshows
    exact ⟨⟨l, hfile, UInt64.le_refl l⟩, Or.inl ⟨req, rfl, hold⟩⟩
  · rw [serve_fetchAccount hBase64] at hshows
    exact ⟨⟨l, hshows, UInt64.le_refl l⟩, Or.inr ⟨rfl, hshows⟩⟩

theorem tablesAt_concat (before : List (Place × Step)) (x : Place × Step) :
    tablesAt C (before ++ [x]) = ((durable C).step (tablesAt C before) x.2).1 := by
  rw [tablesAt_append]
  rfl

/-- From one step of a log on, the lamport on file grows until the account is dropped. -/
theorem atLeast_or_dropped {start : List (Place × Step)} (hp : p ∈ start.map Prod.fst)
    (hstart : AtLeast C k l (tablesAt C start)) (mid rest : List (Place × Step))
    (hlog : log = start ++ mid ++ rest) (hq : q ∈ rest.map Prod.fst) :
    AtLeast C k l (tablesAt C (start ++ mid)) ∨ DroppedBetween C k log p q := by
  induction mid using List.reverseRecOn generalizing rest with
  | nil => exact Or.inl (by rwa [List.append_nil])
  | append_singleton mid x ih =>
    rw [← List.append_assoc] at hlog ⊢
    rw [List.append_assoc, List.singleton_append] at hlog
    rcases ih (x :: rest) hlog (List.mem_cons_of_mem _ hq) with hleast | hdropped
    · by_cases hdrops : Drops C k (tablesAt C (start ++ mid)) x.2
      · refine Or.inr ⟨start ++ mid, x, rest, hlog, ?_, hq, hdrops⟩
        rw [List.map_append]
        exact List.mem_append_left _ hp
      · rw [tablesAt_concat]
        exact Or.inl (atLeast_step hdrops hleast)
    · exact Or.inr hdropped

/-- Whatever comes later in the log finds a lamport as great, unless the account was dropped. -/
theorem Recovers.atLeast_later (hBase64 : C.Base64Laws) (hrec : Recovers C Tables.empty lives log)
    (h : lamportIn C k lives p = some l) {before later : List (Place × Step)} {step : Step}
    (hlog : log = before ++ (q, step) :: later) (hp : p ∈ before.map Prod.fst) :
    AtLeast C k l (tablesAt C before) ∨ DroppedBetween C k log p q := by
  obtain ⟨first, now, request, rest, hsplit, -, hfile, -⟩ := hrec.lamport hBase64 h
  -- The step of `p` lies in `before`, since there is no other of `p`.
  obtain ⟨⟨p', step'⟩, hmem, rfl⟩ := List.mem_map.mp hp
  obtain ⟨first', mid, rfl⟩ := List.append_of_mem hmem
  obtain ⟨rfl, heq, -⟩ := Frontend.split_unique hrec.nodup hsplit
    (hlog.trans (List.append_assoc ..)) rfl
  have hstart : AtLeast C k l (tablesAt C (first ++ [(p', step')])) := by
    rw [tablesAt_concat, ← heq]
    exact hfile
  have hmid : first ++ (p', step') :: mid = first ++ [(p', step')] ++ mid := List.append_cons ..
  rw [hmid] at hlog ⊢
  exact atLeast_or_dropped (by simp) hstart mid _ hlog (by simp)

variable (C k) in
/-- What the readers and writers of an account bundle can rely on. -/
structure NoRollback (lives : List Life) (log : List (Place × Step)) : Prop where
  /-- A lamport that is shown after another one is at least as great. -/
  order : ∀ p q l m, Precedes C Tables.empty lives p q → lamportIn C k lives p = some l →
    lamportIn C k lives q = some m → l ≤ m ∨ DroppedBetween C k log p q
  /-- A bundle that is acknowledged after a lamport was shown is newer. -/
  newer : ∀ p q l m req, Precedes C Tables.empty lives p q → lamportIn C k lives p = some l →
    requestIn C Tables.empty lives q = some (.submitAccount req) →
    lamportIn C k lives q = some m → l < m ∨ DroppedBetween C k log p q
  /-- An account that was shown is found from then on. -/
  found : ∀ p q l response, Precedes C Tables.empty lives p q → lamportIn C k lives p = some l →
    requestIn C Tables.empty lives q = some (.fetchAccount (C.hexEncode k)) →
    responseIn C Tables.empty lives q = some response →
    (∃ m, lamportIn C k lives q = some m) ∨ DroppedBetween C k log p q

/-- **Account bundles do not roll back.** Over any number of restarts, only a prune that drops the
account lets an older bundle appear after a newer one. -/
theorem accounts_do_not_roll_back (hBase64 : C.Base64Laws) (k : FixedBytes 32)
    (lives : List Life) : ∃ log, Recovers C Tables.empty lives log ∧ NoRollback C k lives log := by
  obtain ⟨log, hrec⟩ := exists_recovers (C := C) Tables.empty lives
  -- What the second of two requests finds on file.
  have hfile : ∀ p q l before step later, Precedes C Tables.empty lives p q →
      lamportIn C k lives p = some l → log = before ++ (q, step) :: later →
      AtLeast C k l (tablesAt C before) ∨ DroppedBetween C k log p q :=
    fun p q l before step later hpq hl hlog ↦
      hrec.atLeast_later hBase64 hl hlog (hrec.order p q hpq before step later hlog)
  refine ⟨log, hrec, fun p q l m hpq hl hm ↦ ?_, fun p q l m req hpq hl hreq hm ↦ ?_,
    fun p q l response hpq hl hrequest hresponse ↦ ?_⟩
  · obtain ⟨before, now, request, later, hlog, -, -, hshown⟩ := hrec.lamport hBase64 hm
    refine (hfile p q l before _ later hpq hl hlog).imp_left ?_
    rintro ⟨stored, hstored, hle⟩
    rcases hshown with ⟨-, -, hold⟩ | ⟨-, hsame⟩
    · exact UInt64.le_trans hle (UInt64.le_of_lt (hold stored hstored))
    · exact Option.some.inj (hstored.symm.trans hsame) ▸ hle
  · obtain ⟨before, now, request, later, hlog, hrequest, -, hshown⟩ := hrec.lamport hBase64 hm
    refine (hfile p q l before _ later hpq hl hlog).imp_left ?_
    rintro ⟨stored, hstored, hle⟩
    rcases hshown with ⟨-, -, hold⟩ | ⟨rfl, -⟩
    · exact UInt64.lt_of_le_of_lt hle (hold stored hstored)
    · exact absurd (hreq.symm.trans hrequest) (by simp)
  · obtain ⟨before, now, request, later, hlog, hrequest', rfl⟩ := hrec.place hresponse
    obtain rfl := Option.some.inj (hrequest.symm.trans hrequest')
    refine (hfile p q l before _ later hpq hl hlog).imp_left ?_
    rintro ⟨stored, hstored, -⟩
    refine ⟨stored, ?_⟩
    rw [lamportIn, hrequest, hresponse]
    exact (serve_fetchAccount hBase64 now _).trans hstored

end Lives

namespace Reference

def postAccount (b : Bundle) : Request :=
  .submitAccount ⟨Hex.encode b.key.val, Base64.encode b.payload, Base64.encode b.signature.val⟩

/-- A process that acknowledges a bundle, and a second one that acknowledges the next. -/
def publishTwice : List Life :=
  [⟨pruneSettings, [.http 0 (postAccount accountBundle5), .lock (.http 0) 1000000,
      .advance, .advance, .advance, .advance, .advance]⟩,
    ⟨pruneSettings, [.http 0 (postAccount accountBundle6), .lock (.http 0) 2000000,
      .advance, .advance, .advance, .advance, .advance]⟩]

theorem accounts_do_not_roll_back_publishTwice :
    lamportIn crates publicKey publishTwice (0, .http 0) = some 5 ∧
      lamportIn crates publicKey publishTwice (1, .http 0) = some 6 ∧
      ∃ log, Recovers crates Tables.empty publishTwice log ∧
        NoRollback crates publicKey publishTwice log :=
  ⟨by decide +kernel, by decide +kernel,
    accounts_do_not_roll_back base64Laws publicKey publishTwice⟩

end Reference

end ChatStore
