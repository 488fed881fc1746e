import ChatStore.AppendOnly
import ChatStore.Restart

/-!
# What clients see of an account log

A client learns of an account log when the store acknowledges it and when the store serves it.
Whatever two clients learn about one account, over any number of restarts and with any number of
requests in flight, one of the two logs extends the other. If the first client had its answer before
the second one asked, then the second log extends the first.

An account that was seen is never missing later. So a client that remembers the last log it saw can
tell a rollback of the database from every correct answer.
-/

namespace ChatStore

open Library Store

variable (C : Crates) (addr : C.log.AccountAddr)

/-- The payload of a log, if it is one of `addr`. -/
def payloadFor (addr' : C.log.AccountAddr) (signed : C.log.SignedAccountLog) : Option Bytes :=
  if C.log.addrToString addr' = C.log.addrToString addr then some (C.log.payload signed) else none

/-- The log of `addr` that a response shows: one that is acknowledged, or one that is served. -/
def showsLog : Request → Response C → Option Bytes
  | .submitAccountLog accountAddr body, .submitted (.ok _) =>
    (decodeAccountLog C accountAddr body).toOption.bind fun log ↦ payloadFor C addr log.1 log.2
  | .fetchAccountLog accountAddr, .accountLog (.ok bytes) =>
    (C.log.parseAddr accountAddr).bind fun addr' ↦
      (C.log.fromBytes bytes).toOption.bind (payloadFor C addr addr')
  | _, _ => none

/-- The log of `addr` that a task of some life showed to its client. -/
def shownIn (lives : List Life) (p : Place) : Option Bytes :=
  (requestIn C Tables.empty lives p).bind fun request ↦
    (responseIn C Tables.empty lives p).bind (showsLog C addr request)

/-- The payload on file for `addr`. -/
def logOnFile (s : Tables) : Option Bytes :=
  rowPayload C.log (logRow (C.log.addrToString addr) s)

variable {C addr} {s : Tables} {u : Bytes}

/-! ## One response -/

theorem payloadFor_eq_some_iff (hLog : C.log.Laws) {addr' : C.log.AccountAddr}
    {signed : C.log.SignedAccountLog} :
    payloadFor C addr addr' signed = some u ↔ addr' = addr ∧ C.log.payload signed = u := by
  rw [payloadFor]
  split_ifs with hsame
  · rw [Option.some.injEq]
    exact ⟨fun h ↦ ⟨hLog.addrToString_injective hsame, h⟩, fun h ↦ h.2⟩
  · exact ⟨fun h ↦ absurd h (by simp), fun h ↦ absurd (congrArg _ h.1) hsame⟩

/-- What is read is what is on file. -/
theorem serve_fetchAccountLog (hLog : C.log.Laws) {now : SystemTime} {accountAddr : String}
    (hparse : C.log.parseAddr accountAddr = some addr)
    (hrow : ValidLogRow addr (logRow (C.log.addrToString addr) s)) :
    showsLog C addr (.fetchAccountLog accountAddr) (serve C s ⟨now, .fetchAccountLog accountAddr⟩).2
      = logOnFile C addr s := by
  have hok : ChatStore.parseAddr C accountAddr = .ok addr := by
    rw [ChatStore.parseAddr, hparse]
    rfl
  rw [serve, logOnFile]
  dsimp only
  rw [fetchAccountLog, hok]
  dsimp only
  rw [getAccountLog]
  rcases hlog : logRow (C.log.addrToString addr) s with _ | r
  · rfl
  · obtain ⟨signed, record, hbytes, -⟩ := hrow r hlog
    have hself : payloadFor C addr addr signed = some (C.log.payload signed) :=
      (payloadFor_eq_some_iff hLog).mpr ⟨rfl, rfl⟩
    simp [showsLog, hparse, rowPayload, hbytes, Except.toOption, hself]

/-- Only submissions and reads of account logs show one. -/
theorem request_of_shows {request : Request} {response : Response C}
    (h : showsLog C addr request response = some u) :
    (∃ accountAddr body, request = .submitAccountLog accountAddr body) ∨
      ∃ accountAddr, request = .fetchAccountLog accountAddr := by
  rcases request with req | deviceId | req | accountPub | ⟨accountAddr, body⟩ | accountAddr |
    bytes | bytes | ⟨maxPerIdentity, retention⟩ | retention
  all_goals first
    | exact Or.inl ⟨_, _, rfl⟩
    | exact Or.inr ⟨_, rfl⟩
    | exact absurd h (by simp [showsLog])

/-- An acknowledged log has passed verification. -/
theorem validPayload_of_shows (hLog : C.log.Laws) {now : SystemTime} {accountAddr : String}
    {body : Bytes} (h : showsLog C addr (.submitAccountLog accountAddr body)
      (serve C s ⟨now, .submitAccountLog accountAddr body⟩).2 = some u) :
    (serve C s ⟨now, .submitAccountLog accountAddr body⟩).2.accepted = true ∧
      Event.validPayload C addr ⟨now, .submitAccountLog accountAddr body⟩ = some u := by
  have hresponse : (serve C s ⟨now, .submitAccountLog accountAddr body⟩).2
      = .submitted (submitAccountLog C now accountAddr body s).2 := rfl
  rcases hresult : (submitAccountLog C now accountAddr body s).2 with err | status
  · rw [hresponse, hresult] at h
    exact absurd h (by simp [showsLog])
  · have hacc : (serve C s ⟨now, .submitAccountLog accountAddr body⟩).2.accepted = true := by
      rw [hresponse, hresult]
      rfl
    rw [hresponse, hresult, showsLog] at h
    obtain ⟨⟨addr', signed⟩, hlog, hpayload⟩ := Option.bind_eq_some_iff.mp h
    obtain ⟨rfl, rfl⟩ := (payloadFor_eq_some_iff hLog).mp hpayload
    have heffect : Request.effect C (.submitAccountLog accountAddr body)
        = .accountLog addr' signed := by
      rw [Request.effect]
      rcases hdecoded : decodeAccountLog C accountAddr body with err | log
      · exact absurd (hdecoded ▸ hlog) (by simp [Except.toOption])
      · obtain rfl : log = (addr', signed) := by simpa [hdecoded, Except.toOption] using hlog
        rfl
    refine ⟨hacc, ?_⟩
    rw [validPayload_of_accepted hLog hacc, (accountLog_eq_some_iff hLog).mpr heffect]
    rfl

/-- A log that a response shows extends what was on file, and is on file afterwards. -/
theorem logOnFile_of_shows (hLog : C.log.Laws) {e : Event}
    (hrow : ValidLogRow addr (logRow (C.log.addrToString addr) s))
    (h : showsLog C addr e.request (serve C s e).2 = some u) :
    (∀ w ∈ logOnFile C addr s, w <+: u) ∧ logOnFile C addr (serve C s e).1 = some u := by
  obtain ⟨now, request⟩ := e
  rcases request_of_shows h with ⟨accountAddr, body, rfl⟩ | ⟨accountAddr, rfl⟩
  · obtain ⟨hacc, hpayload⟩ := validPayload_of_shows hLog h
    obtain ⟨hext, hfile, -, -⟩ | ⟨-, -, hrefused⟩ := logRow_of_submission hLog hpayload hrow
    · exact ⟨hext, hfile⟩
    · exact absurd (hacc.symm.trans hrefused) (by simp)
  · have hresponse : (serve C s ⟨now, .fetchAccountLog accountAddr⟩).2
        = .accountLog (fetchAccountLog C accountAddr s) := rfl
    have hparse : C.log.parseAddr accountAddr = some addr := by
      dsimp only at h
      rcases hresult : fetchAccountLog C accountAddr s with err | bytes
      · rw [hresponse, hresult] at h
        exact absurd h (by simp [showsLog])
      · rw [hresponse, hresult] at h
        obtain ⟨addr', hparse, hbind⟩ := Option.bind_eq_some_iff.mp h
        obtain ⟨signed, -, hpayload⟩ := Option.bind_eq_some_iff.mp hbind
        rw [hparse, ((payloadFor_eq_some_iff hLog).mp hpayload).1]
    dsimp only at h
    rw [serve_fetchAccountLog hLog hparse hrow] at h
    refine ⟨fun w hw ↦ ?_, h⟩
    rw [h, Option.mem_some_iff] at hw
    rw [hw]

/-! ## A run -/

variable (C addr u) in
/-- The log on file is valid and extends `u`. -/
def Extends (s : Tables) : Prop :=
  ValidLogRow addr (logRow (C.log.addrToString addr) s) ∧
    ∃ w, logOnFile C addr s = some w ∧ u <+: w

/-- An interrupted prune does not touch account logs. -/
theorem logRow_interrupted (accountPub : String) (s : Tables) (e : Event) :
    logRow accountPub ((durable C).step s (.interrupted e)).1 = logRow accountPub s := by
  obtain ⟨now, request⟩ := e
  rcases request with req | deviceId | req | accountPub' | ⟨accountAddr, body⟩ | accountAddr |
    bytes | bytes | ⟨maxPerIdentity, retention⟩ | retention
  all_goals rfl

/-- A step keeps a valid log valid. -/
theorem validLogRow_step (hLog : C.log.Laws) (s : Tables) (step : Step)
    (hrow : ValidLogRow addr (logRow (C.log.addrToString addr) s)) :
    ValidLogRow addr (logRow (C.log.addrToString addr) ((durable C).step s step).1) := by
  rcases step with e | e
  · exact (logRow_simulation hLog addr).inv_step s e hrow
  · rw [logRow_interrupted]
    exact hrow

/-- What is on file is only ever extended. -/
theorem extends_step (hLog : C.log.Laws) (s : Tables) (step : Step) (h : Extends C addr u s) :
    Extends C addr u ((durable C).step s step).1 := by
  obtain ⟨hrow, w, hw, hext⟩ := h
  refine ⟨validLogRow_step hLog s step hrow, ?_⟩
  rcases step with e | e
  · change ∃ w, logOnFile C addr (serve C s e).1 = some w ∧ u <+: w
    rcases hpayload : e.validPayload C addr with _ | p
    · rw [logOnFile, logRow_of_no_submission hLog s hpayload]
      exact ⟨w, hw, hext⟩
    · obtain ⟨hold, hfile, -, -⟩ | ⟨-, hsame, -⟩ := logRow_of_submission hLog hpayload hrow
      · exact ⟨p, hfile, hext.trans (hold w hw)⟩
      · rw [logOnFile, hsame]
        exact ⟨w, hw, hext⟩
  · rw [logOnFile, logRow_interrupted]
    exact ⟨w, hw, hext⟩

/-! ## All lives -/

section Lives

variable {lives : List Life} {log : List (Place × Step)} {p q : Place} {v : Bytes}

/-- The tables after the first steps of a log. -/
def tablesAt (C : Crates) (before : List (Place × Step)) : Tables :=
  (durable C).run Tables.empty (before.map Prod.snd)

theorem tablesAt_append (before later : List (Place × Step)) :
    tablesAt C (before ++ later) = (durable C).run (tablesAt C before) (later.map Prod.snd) := by
  rw [tablesAt, List.map_append, Machine.run_append, tablesAt]

theorem validLogRow_tablesAt (hLog : C.log.Laws) (before : List (Place × Step)) :
    ValidLogRow addr (logRow (C.log.addrToString addr) (tablesAt C before)) :=
  (durable C).run_invariant (validLogRow_step hLog) validLogRow_empty _

/-- A response is given at a place of the log, about the request of its task. -/
theorem Recovers.place (hrec : Recovers C Tables.empty lives log) {response : Response C}
    (h : responseIn C Tables.empty lives p = some response) :
    ∃ before now request later, log = before ++ (p, .event ⟨now, request⟩) :: later ∧
      requestIn C Tables.empty lives p = some request ∧
      response = (serve C (tablesAt C before) ⟨now, request⟩).2 := by
  obtain ⟨before, now, request, later, hlog, hresponse⟩ := hrec.response p response h
  refine ⟨before, now, request, later, hlog, ?_, hresponse⟩
  exact hrec.request (p, .event ⟨now, request⟩) (by rw [hlog]; simp)

/-- A log that was shown was on file when it was. -/
theorem Recovers.shown (hLog : C.log.Laws) (hrec : Recovers C Tables.empty lives log)
    (h : shownIn C addr lives p = some u) :
    ∃ before e later, log = before ++ (p, .event e) :: later ∧
      (∀ w ∈ logOnFile C addr (tablesAt C before), w <+: u) ∧
      Extends C addr u (serve C (tablesAt C before) e).1 := by
  obtain ⟨request, hrequest, hbind⟩ := Option.bind_eq_some_iff.mp h
  obtain ⟨response, hresponse, hshows⟩ := Option.bind_eq_some_iff.mp hbind
  obtain ⟨before, now, request', later, hlog, hrequest', rfl⟩ := hrec.place hresponse
  obtain rfl := Option.some.inj (hrequest.symm.trans hrequest')
  obtain ⟨hold, hfile⟩ := logOnFile_of_shows (e := ⟨now, request⟩) hLog
    (validLogRow_tablesAt hLog before) hshows
  exact ⟨before, ⟨now, request⟩, later, hlog, hold,
    validLogRow_step hLog _ (.event ⟨now, request⟩) (validLogRow_tablesAt hLog before), u, hfile,
    List.prefix_rfl⟩

/-- Whatever comes later in the log finds an extension of it. -/
theorem Recovers.extends_later (hLog : C.log.Laws) (hrec : Recovers C Tables.empty lives log)
    (h : shownIn C addr lives p = some u) {before later : List (Place × Step)}
    (hlog : log = before ++ later) (hp : p ∈ before.map Prod.fst) :
    Extends C addr u (tablesAt C before) := by
  obtain ⟨first, e, rest, hsplit, -, hext⟩ := hrec.shown hLog h
  -- The step of `p` lies in `before`, since there is no other of `p`.
  obtain ⟨⟨p', step⟩, hmem, rfl⟩ := List.mem_map.mp hp
  obtain ⟨first', rest', rfl⟩ := List.append_of_mem hmem
  rw [List.append_assoc, List.cons_append] at hlog
  obtain ⟨rfl, heq, -⟩ := Frontend.split_unique hrec.nodup hsplit hlog rfl
  rw [← heq, tablesAt_append, List.map_cons, Machine.run_cons]
  exact (durable C).run_invariant (extends_step hLog) hext _

/-- What is shown extends what was on file. -/
theorem le_of_extends (hold : ∀ w ∈ logOnFile C addr s, w <+: v)
    (h : Extends C addr u s) : u <+: v := by
  obtain ⟨-, w, hw, hext⟩ := h
  exact hext.trans (hold w hw)

variable (C addr) in
/-- What the clients of an account log can rely on. -/
structure LogConsistent (lives : List Life) : Prop where
  /-- Whatever is shown after another log was shown extends it. -/
  order : ∀ p q u v, Precedes C Tables.empty lives p q → shownIn C addr lives p = some u →
    shownIn C addr lives q = some v → u <+: v
  /-- No two clients see a fork. -/
  agree : ∀ p q u v, shownIn C addr lives p = some u → shownIn C addr lives q = some v →
    u <+: v ∨ v <+: u
  /-- A log that was shown is found from then on. -/
  found : ∀ p q u accountAddr response, Precedes C Tables.empty lives p q →
    shownIn C addr lives p = some u →
    requestIn C Tables.empty lives q = some (.fetchAccountLog accountAddr) →
    C.log.parseAddr accountAddr = some addr → responseIn C Tables.empty lives q = some response →
    ∃ v, shownIn C addr lives q = some v

/-- **Account logs survive restarts.** Acknowledged or served, an account log binds every later
answer of every later life, and no two answers fork. -/
theorem accountLogs_survive_restarts (hLog : C.log.Laws) (addr : C.log.AccountAddr)
    (lives : List Life) : LogConsistent C addr lives := by
  obtain ⟨log, hrec⟩ := exists_recovers (C := C) Tables.empty lives
  refine ⟨fun p q u v hpq hu hv ↦ ?_, fun p q u v hu hv ↦ ?_,
    fun p q u accountAddr response hpq hu hrequest hparse hresponse ↦ ?_⟩
  · obtain ⟨before, e, later, hlog, hold, -⟩ := hrec.shown hLog hv
    have hp := hrec.order p q hpq before _ later hlog
    exact le_of_extends hold (hrec.extends_later hLog hu hlog hp)
  · obtain ⟨before, e, later, hlog, hold, -⟩ := hrec.shown hLog hu
    obtain ⟨before', e', later', hlog', hold', -⟩ := hrec.shown hLog hv
    -- One of the two steps lies before the other, or they are the same.
    have hcases : p = q ∨ p ∈ before'.map Prod.fst ∨ q ∈ before.map Prod.fst := by
      rcases Frontend.split_at (hlog.symm.trans hlog') with ⟨rest, rfl⟩ | ⟨part, rfl, hcons⟩
      · exact Or.inr (Or.inr (by simp))
      · rcases part with _ | ⟨x, part⟩
        · exact Or.inl (congrArg Prod.fst (List.cons_eq_cons.mp hcons).1)
        · obtain ⟨rfl, -⟩ := List.cons_eq_cons.mp hcons
          exact Or.inr (Or.inl (by simp))
    rcases hcases with rfl | hp | hq
    · exact Or.inl (Option.some.inj (hu.symm.trans hv) ▸ List.prefix_rfl)
    · exact Or.inl (le_of_extends hold' (hrec.extends_later hLog hu hlog' hp))
    · exact Or.inr (le_of_extends hold (hrec.extends_later hLog hv hlog hq))
  · obtain ⟨before, now, request, later, hlog, hrequest', rfl⟩ := hrec.place hresponse
    obtain rfl := Option.some.inj (hrequest.symm.trans hrequest')
    have hp := hrec.order p q hpq before _ later hlog
    obtain ⟨hrow, v, hv, -⟩ := hrec.extends_later hLog hu hlog hp
    refine ⟨v, ?_⟩
    rw [shownIn, hrequest, hresponse]
    exact (serve_fetchAccountLog hLog hparse hrow).trans hv

end Lives

namespace Reference

def pruneSettings : PruneSettings := ⟨100, ⟨0, 0⟩, by decide⟩

/-- A process that acknowledges a log of two devices, and a second one that serves it. -/
def endorseThenRead : List Life :=
  [⟨pruneSettings, [.http 0 (postAccountLog accountLog23), .lock (.http 0) 1000000,
      .advance, .advance, .advance, .advance, .advance, .advance]⟩,
    ⟨pruneSettings,
      [.http 0 (.fetchAccountLog (Hex.encode publicKey.val)), .select (.http 0)]⟩]

theorem accountLogs_survive_endorseThenRead :
    ∃ v, shownIn crates publicKey endorseThenRead (1, .http 0) = some v ∧
      accountLog23.payload <+: v := by
  have hshown : shownIn crates publicKey endorseThenRead (0, .http 0)
      = some accountLog23.payload := by decide +kernel
  have hprecedes : Precedes crates Tables.empty endorseThenRead (0, .http 0) (1, .http 0) :=
    Or.inl ⟨by decide, by decide +kernel⟩
  have hrequest : requestIn crates Tables.empty endorseThenRead (1, .http 0)
      = some (.fetchAccountLog (Hex.encode publicKey.val)) := by decide +kernel
  have hparse : parseAddr (Hex.encode publicKey.val) = some publicKey := by decide +kernel
  have hanswered : (responseIn crates Tables.empty endorseThenRead (1, .http 0)).isSome = true := by
    decide +kernel
  obtain ⟨response, hresponse⟩ := Option.isSome_iff_exists.mp hanswered
  have hlog := accountLogs_survive_restarts (C := crates) log_laws publicKey endorseThenRead
  obtain ⟨v, hv⟩ := hlog.found _ _ _ _ response hprecedes hshown hrequest hparse hresponse
  exact ⟨v, hv, hlog.order _ _ _ v hprecedes hshown hv⟩

end Reference

end ChatStore
