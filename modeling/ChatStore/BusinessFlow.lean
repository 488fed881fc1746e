import ChatStore.Clients

/-!
# The business flow

The benchmark among the examples runs many copies of one flow at the same time against one server.
Each copy has keys of its own. It publishes a keypackage and reads it back, publishes an account
bundle and reads it back, publishes the same bundle again, which must be refused, and then a newer
one. It stops with an error at the first answer that is not what it should be.

`business_flows_pass` says that no copy ever stops, in whatever way their requests are interleaved,
as long as the keys are fresh and no two copies share one. The benchmark draws its keys from
sequence numbers and fills its payloads up to a given size. Neither matters here: a flow is given by
what it publishes.
-/

namespace ChatStore

open Library Store Concurrent

/-! ## The checks of the client -/

section Checks

variable (C : Crates)

variable {C} in
/-- The status of an HTTP response. -/
def Response.status : Response C → Option StatusCode
  | .submitted (.ok status) => some status
  | .keyPackage (.ok _) | .account (.ok _) | .accountLog (.ok _) => some .ok
  | .submitted (.error err) | .keyPackage (.error err) | .account (.error err)
  | .accountLog (.error err) => some err.status
  | .ingested _ | .pruned _ => none

variable {C} in
/-- `expect_status`. -/
def expectStatus (expected : StatusCode) (response : Response C) : Bool :=
  response.status = some expected

/-- `verify_response`: the texts decode, the payload is the published one, and the signature
verifies. -/
def verifyResponse (key : FixedBytes 32) (payload signature : String) (expectedPayload : Bytes) :
    Bool :=
  match C.base64Decode payload, C.base64Decode signature with
  | some payload, some signature =>
    if h : signature.length = 64 then
      payload = expectedPayload && C.verifyStrict key payload ⟨signature, h⟩
    else false
  | _, _ => false

variable {keys : Keys}

variable (keys) in
/-- What a copy of the flow publishes. -/
structure BusinessFlow where
  keypackage : OwnKeyPackage C keys
  first : OwnAccountBundle C keys
  second : OwnAccountBundle C keys
  newer : first.lamport < second.lamport

variable {C}

/-- The requests of `exercise_business_flow`. -/
def BusinessFlow.script (flow : BusinessFlow C keys) : List (Move C keys) :=
  [.publishKeyPackage flow.keypackage, .fetchKeyPackage, .publishAccount flow.first, .fetchAccount,
    .publishAccount flow.first, .publishAccount flow.second, .fetchAccount]

/-- The check on a fetched keypackage. -/
def checkKeyPackage (k : OwnKeyPackage C keys) : Response C → Bool
  | .keyPackage (.ok body) =>
    verifyResponse C keys.device body.payload body.signature k.bundle.payload
  | _ => false

/-- The check on a fetched account bundle. -/
def checkAccount (a : OwnAccountBundle C keys) : Response C → Bool
  | .account (.ok body) =>
    verifyResponse C keys.account body.payload body.signature a.bundle.payload
  | _ => false

/-- The check on the time of an account bundle, made on the first fetch only. -/
def checkUpdatedAt : Response C → Bool
  | .account (.ok body) => 0 < body.updatedAt
  | _ => false

/-- What `exercise_business_flow` checks of each answer. -/
def BusinessFlow.checks (flow : BusinessFlow C keys) : List (Response C → Bool) :=
  [expectStatus .noContent,
    fun response ↦ expectStatus .ok response && checkKeyPackage flow.keypackage response,
    expectStatus .noContent,
    fun response ↦ expectStatus .ok response && checkUpdatedAt response &&
      checkAccount flow.first response,
    expectStatus .conflict,
    expectStatus .noContent,
    fun response ↦ expectStatus .ok response && checkAccount flow.second response]

/-! ## What is expected passes -/

variable {flow : BusinessFlow C keys} {start : ℤ} {response : Response C}

theorem verifyResponse_encoded (hBase64 : C.Base64Laws) {key : FixedBytes 32} {b : Bundle}
    (hkey : b.key = key) (hauth : b.authentic C = true) :
    verifyResponse C key (C.base64Encode b.payload) (C.base64Encode b.signature) b.payload
      = true := by
  rw [Bundle.authentic, Bool.and_eq_true] at hauth
  rw [verifyResponse, hBase64.decode_encode, hBase64.decode_encode]
  dsimp only
  rw [dif_pos b.signature.2, decide_eq_true rfl, Bool.true_and, ← hkey]
  exact hauth.2

/-- The view of a flow before each of its requests. Of the three account bundles it publishes, the
second is refused. -/
theorem viewAfter_take (flow : BusinessFlow C keys) {k : ℕ} (hk : k < 7) :
    viewAfter (flow.script.take k) = ⟨if k = 0 then none else some flow.keypackage,
      if k ≤ 2 then none else if k ≤ 5 then some flow.first else some flow.second⟩ := by
  interval_cases k
  all_goals simp [BusinessFlow.script, viewAfter, View.after, View.accepts, flow.newer]

/-- The answer that a flow expects to each of its requests passes its check. -/
theorem check_of_expects (hBase64 : C.Base64Laws) (hstart : 0 < start) {k : ℕ} {move : Move C keys}
    (hmove : flow.script[k]? = some move)
    (h : (viewAfter (flow.script.take k)).Expects start move response) :
    ∃ check, flow.checks[k]? = some check ∧ check response = true := by
  have hkeypackage := verifyResponse_encoded hBase64 flow.keypackage.key flow.keypackage.authentic
  have hfirst := verifyResponse_encoded hBase64 flow.first.key
    (validLamport_eq_some_iff.mp flow.first.valid).1
  have hsecond := verifyResponse_encoded hBase64 flow.second.key
    (validLamport_eq_some_iff.mp flow.second.valid).1
  have hk : k < 7 := (List.getElem?_eq_some_iff.mp hmove).1
  rw [viewAfter_take flow hk] at h
  interval_cases k
  all_goals obtain rfl := Option.some.inj hmove
  · refine ⟨_, rfl, ?_⟩
    rw [h]
    rfl
  · refine ⟨_, rfl, ?_⟩
    rw [h]
    exact hkeypackage
  · refine ⟨_, rfl, ?_⟩
    rw [h]
    rfl
  · obtain ⟨updatedAt, hupdated, rfl⟩ := h
    refine ⟨_, rfl, (Bool.and_eq_true _ _).mpr ⟨?_, hfirst⟩⟩
    exact decide_eq_true (hstart.trans_le hupdated)
  · -- The bundle that is on file is published again.
    have hagain : View.accepts ⟨some flow.keypackage, some flow.first⟩ flow.first = false := by
      simp [View.accepts]
    refine ⟨_, rfl, ?_⟩
    rw [show response = .submitted (.error (.ofBundleError .stale)) from
      h.trans (by rw [if_neg]; exact Bool.eq_false_iff.mp hagain)]
    rfl
  · have hnewer : View.accepts ⟨some flow.keypackage, some flow.first⟩ flow.second = true := by
      simp [View.accepts, flow.newer]
    refine ⟨_, rfl, ?_⟩
    rw [show response = .submitted (.ok .noContent) from h.trans (by rw [if_pos]; exact hnewer)]
    rfl
  · obtain ⟨updatedAt, hupdated, rfl⟩ := h
    exact ⟨_, rfl, hsecond⟩

end Checks

/-! ## Many copies at once -/

section Benchmark

variable {C : Crates} {ι W : Type} [DecidableEq ι] [DecidableEq W] {s : Tables}
  {labels : List (Frontend.Label Served SystemTime ι)} {worker : ι → Option (W × ℕ)}
  {keys : W → Keys} {flow : (w : W) → BusinessFlow C (keys w)} {start : ℤ}

/-- The tasks of one copy, by their numbers. -/
def tasksOf (worker : ι → Option (W × ℕ)) (w : W) (t : ι) : Option ℕ :=
  (worker t).bind fun x ↦ if x.1 = w then some x.2 else none

/-- A run of the benchmark. -/
structure Benchmark (s : Tables) (labels : List (Frontend.Label Served SystemTime ι))
    (worker : ι → Option (W × ℕ)) (flow : (w : W) → BusinessFlow C (keys w)) (start : ℤ) :
    Prop where
  fresh : ∀ w, newestRow (C.hexEncode (keys w).device) s = none ∧
    accountRow (C.hexEncode (keys w).account) s = none
  /-- No two copies share a key. -/
  apart : ∀ w w', (keys w).device = (keys w').device ∨ (keys w).account = (keys w').account →
    w = w'
  waits : ∀ w, Frontend.Sequential (storeLock C.log)
    (fun request : Served ↦ request.val.plan C) (tasksOf worker w) s labels
  moves : ∀ t request w k, .receive t request ∈ labels → worker t = some (w, k) →
    ∃ move, (flow w).script[k]? = some move ∧ request.val = move.request
  /-- Nothing but the copies publishes under their keys, and no prune reaches back to them. -/
  others : ∀ x ∈ serverHistory C s labels, worker x.1 = none → ∀ w,
    Event.LeavesAlone C (keys w) start ⟨x.2.1, x.2.2.val⟩
  started : ∀ x ∈ serverHistory C s labels, worker x.1 ≠ none → x.2.2.val.isWrite = true →
    start ≤ stamp x.2.1

omit [DecidableEq ι] in
theorem tasksOf_eq_some_iff {w : W} {t : ι} {k : ℕ} :
    tasksOf worker w t = some k ↔ worker t = some (w, k) := by
  rw [tasksOf]
  rcases worker t with _ | ⟨w', k'⟩
  · simp
  · simp [eq_comm]

omit [DecidableEq ι] in
/-- A request publishes one keypackage at most. -/
theorem length_keyPackageStamps_le {worker : ι → Option ℕ}
    (hist : List (Frontend.Entry SystemTime ι Served)) :
    (keyPackageStamps worker hist).length ≤ hist.length := by
  induction hist with
  | nil => exact le_rfl
  | cons x hist ih =>
    rw [keyPackageStamps, List.flatMap_cons, ← keyPackageStamps, List.length_append,
      List.length_cons, Nat.add_comm]
    refine Nat.add_le_add ih ?_
    split
    · exact le_rfl
    · exact Nat.zero_le _

omit [DecidableEq ι] in
/-- A client whose first request is the only one to publish a keypackage needs no clock. -/
theorem pairwise_keyPackageStamps {worker : ι → Option ℕ}
    {hist : List (Frontend.Entry SystemTime ι Served)} {m : ℕ}
    (hplaces : Frontend.places worker hist = List.range m)
    (honly : ∀ x ∈ hist, ∀ k, worker x.1 = some k → k ≠ 0 → keyPackageStamps worker [x] = []) :
    (keyPackageStamps worker hist).Pairwise (· < ·) := by
  have hcount : (keyPackageStamps worker hist).length ≤ (Frontend.places worker hist).count 0 := by
    clear hplaces
    induction hist using List.reverseRecOn with
    | nil => exact le_rfl
    | append_singleton past x ih =>
      rw [keyPackageStamps_append, Frontend.places_concat, List.length_append, List.count_append]
      refine Nat.add_le_add (ih fun y hy ↦ honly y (List.mem_append_left _ hy)) ?_
      by_cases hzero : worker x.1 = some 0
      · rw [hzero, Option.toList_some, List.count_singleton_self]
        exact length_keyPackageStamps_le [x]
      · have hnil : keyPackageStamps worker [x] = [] := by
          rcases hk : worker x.1 with _ | k
          · rw [keyPackageStamps, List.flatMap_singleton, hk]
          · exact honly x (List.mem_append_right _ (List.mem_singleton_self x)) k hk
              fun h ↦ hzero (h ▸ hk)
        rw [hnil]
        exact Nat.zero_le _
  have hle : (keyPackageStamps worker hist).length ≤ 1 := by
    refine hcount.trans ?_
    rw [hplaces]
    exact List.nodup_iff_count_le_one.mp List.nodup_range 0
  generalize keyPackageStamps worker hist = times at hle
  rcases times with _ | ⟨t, _ | ⟨t', rest⟩⟩
  · exact List.Pairwise.nil
  · exact List.pairwise_singleton _ _
  · exact absurd hle (by simp)

/-- The requests of one copy leave the others alone. -/
theorem leavesAlone_of_move (hHex : C.HexLaws) (hBase64 : C.Base64Laws) {own other : Keys}
    (hdevice : other.device ≠ own.device) (haccount : other.account ≠ own.account)
    (move : Move C other) (now : SystemTime) :
    Event.LeavesAlone C own start ⟨now, move.request⟩ := by
  rw [Event.LeavesAlone, effect_request hHex hBase64]
  rcases move with k | _ | a | _
  · exact fun _ ↦ k.key ▸ hdevice
  · exact trivial
  · exact fun _ ↦ a.key ▸ haccount
  · exact trivial

/-- Every copy makes the requests of a session. -/
theorem Benchmark.session (hHex : C.HexLaws) (hBase64 : C.Base64Laws)
    (h : Benchmark s labels worker flow start) (huncut : PrunesUncut labels) (w : W) :
    Session s labels (tasksOf worker w) (flow w).script start := by
  have hreceived := (huncut.accounts (C := C) s).received
  refine ⟨h.fresh w, h.waits w, fun t request k hreceive hk ↦
    h.moves t request w k hreceive (tasksOf_eq_some_iff.mp hk), fun x hx hnone ↦ ?_,
    fun x hx hk ↦ h.started x hx ?_, ?_⟩
  · rcases hworker : worker x.1 with _ | ⟨w', k⟩
    · exact h.others x hx hworker w
    · obtain ⟨move, -, hrequest⟩ := h.moves x.1 x.2.2 w' k (hreceived x hx) hworker
      have hne : w' ≠ w := by
        rintro rfl
        exact absurd (hnone.symm.trans (tasksOf_eq_some_iff.mpr hworker)) (by simp)
      rw [hrequest]
      exact leavesAlone_of_move hHex hBase64 (fun heq ↦ hne (h.apart w' w (Or.inl heq)))
        (fun heq ↦ hne (h.apart w' w (Or.inr heq))) move x.2.1
  · intro hnone
    exact hk (by rw [tasksOf, hnone, Option.bind_none])
  · obtain ⟨m, hm⟩ := places_of_waits (h.waits w) huncut
    refine pairwise_keyPackageStamps hm fun x hx k hk hne ↦ ?_
    obtain ⟨move, hmove, hrequest⟩ :=
      h.moves x.1 x.2.2 w k (hreceived x hx) (tasksOf_eq_some_iff.mp hk)
    rw [keyPackageStamps_move hk hrequest]
    have hlt : k < 7 := (List.getElem?_eq_some_iff.mp hmove).1
    interval_cases k
    · exact absurd rfl hne
    all_goals
      obtain rfl := Option.some.inj hmove
      rfl

end Benchmark

namespace Reference

def ownFlow : BusinessFlow crates ownKeys where
  keypackage := ownKeyPackage
  first := ⟨accountBundle5, 5, rfl, by decide +kernel⟩
  second := ⟨accountBundle6, 6, rfl, by decide +kernel⟩
  newer := by decide

/-- The one copy whose first requests are those of `readBack`. -/
def copy (t : ℕ) : Option (Unit × ℕ) := (reader t).map fun k ↦ ((), k)

theorem benchmark_readBack :
    Benchmark Tables.empty readBack copy (fun _ ↦ ownFlow) 1 where
  fresh _ := session_readBack.fresh
  apart _ _ _ := rfl
  waits _ := by
    have htasks : tasksOf copy () = reader := by
      funext t
      rw [tasksOf, copy]
      rcases reader t with _ | k
      · rfl
      · rfl
    exact htasks ▸ waits_readBack
  moves t request w k hreceive hk := by
    obtain ⟨k', hreader, heq⟩ := Option.map_eq_some_iff.mp hk
    obtain rfl := (Prod.mk.inj heq).2
    obtain ⟨move, hmove, hrequest⟩ := session_readBack.moves t request k' hreceive hreader
    have hlt : k' < 2 := (List.getElem?_eq_some_iff.mp hmove).1
    have hscript : ownFlow.script = ownScript ++ ownFlow.script.drop 2 := rfl
    refine ⟨move, ?_, hrequest⟩
    rw [hscript, List.getElem?_append_left hlt]
    exact hmove
  others x hx hk _ := session_readBack.others x hx (Option.map_eq_none_iff.mp hk)
  started x hx hk hwrite := session_readBack.started x hx (by simpa [copy] using hk) hwrite

end Reference

end ChatStore
