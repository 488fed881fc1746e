import ChatStore.Library.Machine
import Mathlib.Order.Defs.Unbundled
import Mathlib.Order.Lattice

/-!
# A register that only moves forward

The register holds at most one value. An empty register takes any offer; otherwise `r u v` says that
the offer `v` may replace the value `u`. Eviction empties the register.

Three instances of `r` are of interest.

- A strict order of versions, where an offer has to be newer. With eviction the comparison is lost
  along with the value, and `pairwise_accepted_iff` says what has to take its place:
  `FreshWhenEmpty`, that whatever is offered to the empty register is newer than everything offered
  before.
- A strict order of versions without eviction, where values carry more than their version. The
  register ends with the newest value offered (`exists_held_ge`), so the order of the offers and
  their repetition make no difference (`held_congr`).
- A preorder of extensions, where the same value is taken again and two offers need not be
  comparable. Without eviction every accepted value is extended by the one held from then on
  (`exists_held_ge_of_accepted`), and if all offers are comparable the register ends with the
  largest (`exists_held_ge_of_chain`).
-/

namespace Library

namespace Register

variable {β : Type*}

inductive Op (β : Type*)
  | offer (value : β)
  | evict
  | idle

/-- The value an operation offers. -/
def Op.value? : Op β → Option β
  | .offer value => some value
  | .evict | .idle => none

/-- The values offered, in order. -/
def offered (ops : List (Op β)) : List β := ops.filterMap Op.value?

theorem offered_concat (ops : List (Op β)) (op : Op β) :
    offered (ops ++ [op]) = offered ops ++ op.value?.toList := by
  rw [offered, List.filterMap_append, List.filterMap_cons, List.filterMap_nil]
  cases op.value? <;> rfl

@[simp] theorem offered_map_offer (values : List β) : offered (values.map .offer) = values := by
  rw [offered, List.filterMap_map]
  exact List.filterMap_some

@[simp] theorem evict_notMem_map_offer (values : List β) : Op.evict ∉ values.map .offer := by
  intro h
  obtain ⟨value, -, hop⟩ := List.mem_map.mp h
  exact absurd hop (by simp)

variable (r : β → β → Prop) [DecidableRel r]

/-- One operation, and whether it was accepted. -/
def step (held : Option β) : Op β → Option β × Bool
  | .offer value => if ∀ u ∈ held, r u value then (some value, true) else (held, false)
  | .evict => (none, false)
  | .idle => (held, false)

def register : Machine (Option β) (Op β) Bool := ⟨step r⟩

/-! ## Runs from the empty register -/

/-- The value held in the end. -/
def held (ops : List (Op β)) : Option β := (register r).run none ops

/-- The values accepted, in order. -/
def accepted (ops : List (Op β)) : List β :=
  ((register r).trace none ops).filterMap fun e ↦ if e.output then e.input.value? else none

theorem held_concat (ops : List (Op β)) (op : Op β) :
    held r (ops ++ [op]) = (step r (held r ops) op).1 := by
  rw [held, Machine.run_concat]
  rfl

theorem accepted_concat (ops : List (Op β)) (op : Op β) :
    accepted r (ops ++ [op])
      = accepted r ops ++ (if (step r (held r ops) op).2 then op.value? else none).toList := by
  rw [accepted, Machine.filterMap_trace_concat]
  rfl

variable {r}

/-- What one offer does: it is accepted by an empty register or over a value it may replace, and
refused otherwise. -/
theorem step_offer_cases (h : Option β) (value : β) :
    ((∀ u ∈ h, r u value) ∧ step r h (.offer value) = (some value, true)) ∨
      ∃ u, h = some u ∧ ¬r u value ∧ step r h (.offer value) = (h, false) := by
  by_cases hnew : ∀ u ∈ h, r u value
  · exact Or.inl ⟨hnew, if_pos hnew⟩
  · refine Or.inr ?_
    rw [step, if_neg hnew]
    simp only [not_forall] at hnew
    obtain ⟨u, hu, hnot⟩ := hnew
    exact ⟨u, hu, hnot, rfl⟩

theorem step_offer_accepted {h : Option β} {value : β} :
    (step r h (.offer value)).2 = true ↔ ∀ u ∈ h, r u value := by
  rw [step]
  split_ifs with hnew
  · exact ⟨fun _ ↦ hnew, fun _ ↦ rfl⟩
  · exact ⟨fun h ↦ (nomatch h), fun h ↦ absurd h hnew⟩

/-- The value held was accepted. -/
theorem held_mem_accepted {ops : List (Op β)} {u : β} (h : held r ops = some u) :
    u ∈ accepted r ops := by
  induction ops using List.reverseRecOn with
  | nil => cases h
  | append_singleton ops op ih =>
    rw [accepted_concat]
    rw [held_concat] at h
    cases op with
    | offer value =>
      obtain ⟨-, hstep⟩ | ⟨v, -, -, hstep⟩ := step_offer_cases (r := r) (held r ops) value
      · rw [hstep] at h ⊢
        obtain rfl := Option.some.inj h
        exact List.mem_append_right _ List.mem_cons_self
      · rw [hstep] at h
        exact List.mem_append_left _ (ih h)
    | evict => cases h
    | idle => exact List.mem_append_left _ (ih h)

theorem mem_offered_of_mem_accepted {ops : List (Op β)} {u : β} (h : u ∈ accepted r ops) :
    u ∈ offered ops := by
  induction ops using List.reverseRecOn with
  | nil => cases h
  | append_singleton ops op ih =>
    rw [accepted_concat] at h
    rw [offered_concat]
    rcases List.mem_append.mp h with h | h
    · exact List.mem_append_left _ (ih h)
    · split_ifs at h
      · exact List.mem_append_right _ h
      · exact absurd h (by simp)

/-! ## Extensions, without eviction -/

section Extension

variable [IsPreorder β r]

/-- A held value is only ever extended. -/
theorem held_append {ops more : List (Op β)} {u : β} (h : held r ops = some u)
    (hmore : Op.evict ∉ more) : ∃ v, held r (ops ++ more) = some v ∧ r u v := by
  induction more using List.reverseRecOn with
  | nil => exact ⟨u, by rwa [List.append_nil], refl u⟩
  | append_singleton more op ih =>
    obtain ⟨v, hv, huv⟩ := ih fun hmem ↦ hmore (List.mem_append_left _ hmem)
    rw [← List.append_assoc, held_concat]
    cases op with
    | offer value =>
      obtain ⟨hext, hstep⟩ | ⟨-, -, -, hstep⟩ :=
        step_offer_cases (r := r) (held r (ops ++ more)) value
      · rw [hstep]
        exact ⟨value, rfl, trans_of r huv (hext v hv)⟩
      · rw [hstep]
        exact ⟨v, hv, huv⟩
    | evict => exact absurd (List.mem_append_right _ List.mem_cons_self) hmore
    | idle => exact ⟨v, hv, huv⟩

/-- What was accepted is extended by what is held. -/
theorem exists_held_ge_of_accepted {ops : List (Op β)} (hops : Op.evict ∉ ops) {u : β}
    (h : u ∈ accepted r ops) : ∃ v, held r ops = some v ∧ r u v := by
  induction ops using List.reverseRecOn with
  | nil => cases h
  | append_singleton ops op ih =>
    have hlast : Op.evict ∉ [op] := fun hmem ↦ hops (List.mem_append_right _ hmem)
    rw [accepted_concat] at h
    rcases List.mem_append.mp h with h | h
    · obtain ⟨v, hv, huv⟩ := ih (fun hmem ↦ hops (List.mem_append_left _ hmem)) h
      obtain ⟨w, hw, hvw⟩ := held_append hv hlast
      exact ⟨w, hw, trans_of r huv hvw⟩
    · cases op with
      | offer value =>
        obtain ⟨-, hstep⟩ | ⟨-, -, -, hstep⟩ := step_offer_cases (r := r) (held r ops) value
        · rw [hstep] at h
          obtain rfl : u = value := by simpa [Op.value?] using h
          exact ⟨u, by rw [held_concat, hstep], refl u⟩
        · rw [hstep] at h
          exact absurd h (by simp)
      | evict => cases h
      | idle => cases h

/-- If any two offers are comparable, the register ends with one that extends them all. -/
theorem exists_held_ge_of_chain {ops : List (Op β)} (hops : Op.evict ∉ ops)
    (hchain : ∀ u ∈ offered ops, ∀ v ∈ offered ops, r u v ∨ r v u) {u : β}
    (hu : u ∈ offered ops) : ∃ v, held r ops = some v ∧ r u v := by
  induction ops using List.reverseRecOn generalizing u with
  | nil => cases hu
  | append_singleton ops op ih =>
    have hlast : Op.evict ∉ [op] := fun hmem ↦ hops (List.mem_append_right _ hmem)
    rw [offered_concat] at hchain hu
    have ih' := fun {u : β} (hu : u ∈ offered ops) ↦
      ih (fun hmem ↦ hops (List.mem_append_left _ hmem))
        (fun u hu v hv ↦ hchain u (List.mem_append_left _ hu) v (List.mem_append_left _ hv)) hu
    rcases List.mem_append.mp hu with hmem | hmem
    · obtain ⟨v, hv, huv⟩ := ih' hmem
      obtain ⟨w, hw, hvw⟩ := held_append hv hlast
      exact ⟨w, hw, trans_of r huv hvw⟩
    · cases op with
      | offer value =>
        obtain rfl : u = value := by simpa [Op.value?] using hmem
        rw [held_concat]
        obtain ⟨-, hstep⟩ | ⟨w, hheld, hnot, hstep⟩ := step_offer_cases (r := r) (held r ops) u
        · rw [hstep]
          exact ⟨u, rfl, refl u⟩
        · -- The refused offer is comparable with the value held, hence extended by it.
          have hw := mem_offered_of_mem_accepted (held_mem_accepted hheld)
          rw [hstep]
          exact ⟨w, hheld, (hchain w (List.mem_append_left _ hw) u hu).resolve_left hnot⟩
      | evict => cases hmem
      | idle => cases hmem

end Extension

/-! ## Versions, with eviction -/

section Version

variable {β : Type*} [LinearOrder β]

/-- Nothing newer was ever offered than the newest of what was accepted. -/
theorem exists_accepted_ge {ops : List (Op β)} {u : β} (h : u ∈ offered ops) :
    ∃ v ∈ accepted (· < ·) ops, u ≤ v := by
  induction ops using List.reverseRecOn with
  | nil => cases h
  | append_singleton ops op ih =>
    rw [offered_concat] at h
    rw [accepted_concat]
    rcases List.mem_append.mp h with h | h
    · obtain ⟨v, hv, hle⟩ := ih h
      exact ⟨v, List.mem_append_left _ hv, hle⟩
    · cases op with
      | offer value =>
        obtain rfl : u = value := by simpa [Op.value?] using h
        obtain ⟨-, hstep⟩ | ⟨v, hheld, hnot, hstep⟩ :=
          step_offer_cases (r := (· < ·)) (held (· < ·) ops) u
        · rw [hstep]
          exact ⟨u, List.mem_append_right _ List.mem_cons_self, le_rfl⟩
        · exact ⟨v, List.mem_append_left _ (held_mem_accepted hheld), not_lt.mp hnot⟩
      | evict => cases h
      | idle => cases h

/-- Whatever is offered to the empty register is newer than everything offered before. -/
def FreshWhenEmpty (ops : List (Op β)) : Prop :=
  ∀ past value, past ++ [.offer value] <+: ops → held (· < ·) past = none →
    ∀ u ∈ offered past, u < value

theorem FreshWhenEmpty.mono {ops ops' : List (Op β)} (h : FreshWhenEmpty ops)
    (hpre : ops' <+: ops) : FreshWhenEmpty ops' :=
  fun past value hpast ↦ h past value (hpast.trans hpre)

/-- Under the condition, the register holds the newest version ever offered. -/
theorem FreshWhenEmpty.le_held {ops : List (Op β)} (h : FreshWhenEmpty ops) {u v : β}
    (hu : u ∈ offered ops) (hv : held (· < ·) ops = some v) : u ≤ v := by
  induction ops using List.reverseRecOn generalizing v with
  | nil => cases hv
  | append_singleton ops op ih =>
    have hops := h.mono (List.prefix_append ops [op])
    rw [offered_concat] at hu
    rw [held_concat] at hv
    cases op with
    | offer value =>
      obtain ⟨hnewer, hstep⟩ | ⟨w, hheld, hnot, hstep⟩ :=
        step_offer_cases (r := (· < ·)) (held (· < ·) ops) value
      · rw [hstep] at hv
        obtain rfl := Option.some.inj hv
        rcases List.mem_append.mp hu with hu | hu
        · -- Either the register was empty, or it held something newer than `u`.
          cases hheld : held (· < ·) ops with
          | none => exact (h ops value List.prefix_rfl hheld u hu).le
          | some w => exact (ih hops hu hheld).trans (hnewer w hheld).le
        · obtain rfl : u = value := by simpa [Op.value?] using hu
          exact le_rfl
      · rw [hstep] at hv
        rcases List.mem_append.mp hu with hu | hu
        · exact ih hops hu hv
        · obtain rfl : u = value := by simpa [Op.value?] using hu
          obtain rfl : w = v := Option.some.inj (hheld.symm.trans hv)
          exact not_lt.mp hnot
    | evict => cases hv
    | idle =>
      rcases List.mem_append.mp hu with hu | hu
      · exact ih hops hu hv
      · cases hu

/-- **Accepted versions grow exactly when the empty register is only offered fresh ones.** -/
theorem pairwise_accepted_iff {ops : List (Op β)} :
    (accepted (· < ·) ops).Pairwise (· < ·) ↔ FreshWhenEmpty ops := by
  constructor
  · intro h past value hpre hempty u hu
    -- The offer is accepted, so it is newer than all that was accepted, hence than all offered.
    obtain ⟨ops', rfl⟩ := hpre
    have hpast : (accepted (· < ·) (past ++ [.offer value])).Pairwise (· < ·) := by
      rw [accepted, Machine.trace_append, List.filterMap_append] at h
      exact (List.pairwise_append.mp h).1
    obtain ⟨-, hstep⟩ | ⟨w, hheld, -, -⟩ :=
      step_offer_cases (r := (· < ·)) (held (· < ·) past) value
    · rw [accepted_concat, hstep] at hpast
      obtain ⟨v, hv, hle⟩ := exists_accepted_ge hu
      exact hle.trans_lt ((List.pairwise_append.mp hpast).2.2 v hv value List.mem_cons_self)
    · rw [hempty] at hheld
      exact absurd hheld (by simp)
  · intro h
    induction ops using List.reverseRecOn with
    | nil => exact List.Pairwise.nil
    | append_singleton ops op ih =>
      have hops := h.mono (List.prefix_append ops [op])
      rw [accepted_concat]
      cases op with
      | offer value =>
        obtain ⟨hnewer, hstep⟩ | ⟨w, -, -, hstep⟩ :=
          step_offer_cases (r := (· < ·)) (held (· < ·) ops) value
        · rw [hstep]
          refine List.pairwise_append.mpr ⟨ih hops, List.pairwise_singleton _ _, ?_⟩
          intro u hu v hv
          obtain rfl : v = value := by simpa [Op.value?] using hv
          have hoff := mem_offered_of_mem_accepted hu
          cases hheld : held (· < ·) ops with
          | none => exact h ops v List.prefix_rfl hheld u hoff
          | some w => exact (hops.le_held hoff hheld).trans_lt (hnewer w hheld)
        · rw [hstep]
          simpa using ih hops
      | evict => simpa [step] using ih hops
      | idle => simpa [step] using ih hops

end Version

/-! ## Versions, without eviction -/

section Newest

variable {β α : Type*} [LinearOrder α] {ver : β → α}

/-- One value has a smaller version than another. -/
def Older (ver : β → α) (u v : β) : Prop := ver u < ver v

instance : DecidableRel (Older ver) := fun u v ↦ inferInstanceAs (Decidable (ver u < ver v))

variable (ver) in
/-- What was offered is no newer than what is held. -/
theorem exists_held_ge {ops : List (Op β)} (hops : Op.evict ∉ ops) {u : β} (h : u ∈ offered ops) :
    ∃ v, held (Older ver) ops = some v ∧ ver u ≤ ver v := by
  induction ops using List.reverseRecOn with
  | nil => cases h
  | append_singleton ops op ih =>
    have ih' := ih fun hmem ↦ hops (List.mem_append_left _ hmem)
    rw [offered_concat] at h
    rw [held_concat]
    rcases op with value | _ | _
    · obtain ⟨hnew, hstep⟩ | ⟨w, hheld, hnot, hstep⟩ :=
        step_offer_cases (r := Older ver) (held (Older ver) ops) value
      · rw [hstep]
        refine ⟨value, rfl, ?_⟩
        rcases List.mem_append.mp h with h | h
        · obtain ⟨v, hv, hle⟩ := ih' h
          exact hle.trans (le_of_lt (hnew v hv))
        · exact (List.mem_singleton.mp h).symm ▸ le_rfl
      · rw [hstep]
        refine ⟨w, hheld, ?_⟩
        rcases List.mem_append.mp h with h | h
        · obtain ⟨v, hv, hle⟩ := ih' h
          obtain rfl := Option.some.inj (hheld.symm.trans hv)
          exact hle
        · rw [List.mem_singleton.mp h]
          exact not_lt.mp hnot
    · exact absurd (List.mem_append_right _ List.mem_cons_self) hops
    · rcases List.mem_append.mp h with h | h
      · exact ih' h
      · cases h

theorem held_mem_offered {ops : List (Op β)} {v : β}
    (h : held (Older ver) ops = some v) : v ∈ offered ops :=
  mem_offered_of_mem_accepted (held_mem_accepted h)

/-- An offer is newer than the value held exactly when it is newer than everything offered. -/
theorem forall_held_lt_iff {ops : List (Op β)} (hops : Op.evict ∉ ops) {v : β} :
    (∀ u ∈ held (Older ver) ops, ver u < ver v) ↔ ∀ u ∈ offered ops, ver u < ver v := by
  constructor
  · intro h u hu
    obtain ⟨w, hw, hle⟩ := exists_held_ge ver hops hu
    exact hle.trans_lt (h w hw)
  · exact fun h u hu ↦ h u (held_mem_offered hu)

/-- The register holds a newest one of the values offered. -/
theorem held_newest {ops : List (Op β)} (hops : Op.evict ∉ ops) {v : β}
    (h : held (Older ver) ops = some v) :
    v ∈ offered ops ∧ ∀ u ∈ offered ops, ver u ≤ ver v := by
  refine ⟨held_mem_offered h, fun u hu ↦ ?_⟩
  obtain ⟨w, hw, hle⟩ := exists_held_ge ver hops hu
  obtain rfl := Option.some.inj (h.symm.trans hw)
  exact hle

theorem held_eq_none_iff {ops : List (Op β)} (hops : Op.evict ∉ ops) :
    held (Older ver) ops = none ↔ offered ops = [] := by
  constructor
  · intro h
    refine List.eq_nil_iff_forall_not_mem.mpr fun u hu ↦ ?_
    obtain ⟨v, hv, -⟩ := exists_held_ge ver hops hu
    rw [h] at hv
    exact absurd hv (by simp)
  · intro h
    refine Option.eq_none_iff_forall_ne_some.mpr fun v hv ↦ ?_
    have hmem := held_mem_offered hv
    rw [h] at hmem
    exact List.not_mem_nil hmem

/-- **Order and repetition of the offers make no difference**, as long as the newest of them is one
value. -/
theorem held_congr {ops ops' : List (Op β)} (hops : Op.evict ∉ ops) (hops' : Op.evict ∉ ops')
    (hmem : ∀ v, v ∈ offered ops ↔ v ∈ offered ops')
    (hnewest : ∀ u ∈ offered ops, ∀ v ∈ offered ops, (∀ w ∈ offered ops, ver w ≤ ver u) →
      (∀ w ∈ offered ops, ver w ≤ ver v) → u = v) :
    held (Older ver) ops = held (Older ver) ops' := by
  rcases h : held (Older ver) ops with _ | u
  · have hnil := (held_eq_none_iff hops).mp h
    refine ((held_eq_none_iff hops').mpr ?_).symm
    refine List.eq_nil_iff_forall_not_mem.mpr fun v hv ↦ ?_
    rw [← hmem, hnil] at hv
    exact List.not_mem_nil hv
  · obtain ⟨hu, hmax⟩ := held_newest hops h
    obtain ⟨v, hheld, -⟩ := exists_held_ge ver hops' ((hmem u).mp hu)
    obtain ⟨hv, hmax'⟩ := held_newest hops' hheld
    rw [hheld, hnewest u hu v ((hmem v).mpr hv) hmax fun w hw ↦ hmax' w ((hmem w).mp hw)]

end Newest

end Register

end Library
