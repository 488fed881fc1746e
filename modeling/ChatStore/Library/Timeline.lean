import Mathlib.Data.Finset.Max
import Mathlib.Data.Finset.Order
import Mathlib.Data.Int.Order.Basic
import Mathlib.Order.Bounds.Basic

/-!
# Timelines

A timeline is a finite partial function on times. One adds to it, drops what is older than a bound,
keeps the newest few, and asks for the latest.

## Trims

A trim drops what is older than `c` and keeps the `n` newest of the rest. What it keeps is decided
by the rank of a time, the number of later ones, and a weaker trim before it changes no rank that
counts: `rank_trim`. So two timelines that agree after a trim still agree after it when both are
added to, or trimmed less. `trim_foldl` is the consequence for a history of changes. All trims
before the strictest one can be left out, however many there were and whenever they came.
-/

namespace Library

/-- A finite partial function on times. -/
structure Timeline (τ α : Type*) where
  /-- What was said at a time. -/
  value : τ → Option α
  /-- The times at which something was said. -/
  times : Finset τ
  /-- There are no others. -/
  mem_times : ∀ t, t ∈ times ↔ (value t).isSome = true

namespace Timeline

variable {τ α : Type*}

/-- A timeline is determined by its values. -/
@[ext] theorem ext {s s' : Timeline τ α} (h : ∀ t, s.value t = s'.value t) : s = s' := by
  obtain ⟨value, times, hmem⟩ := s
  obtain ⟨value', times', hmem'⟩ := s'
  obtain rfl : value = value' := funext h
  obtain rfl : times = times' := Finset.ext fun t ↦ (hmem t).trans (hmem' t).symm
  rfl

/-! ## Operations -/

/-- Nothing was said. -/
def empty : Timeline τ α := ⟨fun _ ↦ none, ∅, fun _ ↦ by simp⟩

section Order

variable [LinearOrder τ]

/-- Say something at a time. What was said at that time before stays. -/
def put (t : τ) (a : α) (s : Timeline τ α) : Timeline τ α where
  value u := if u = t then (s.value t).or (some a) else s.value u
  times := insert t s.times
  mem_times u := by
    rw [Finset.mem_insert, s.mem_times]
    by_cases h : u = t
    · simp [h]
    · simp [h]

/-- Keep some of the times. -/
def keep (p : τ → Prop) [DecidablePred p] (s : Timeline τ α) : Timeline τ α where
  value u := if p u then s.value u else none
  times := s.times.filter p
  mem_times u := by
    rw [Finset.mem_filter, s.mem_times]
    by_cases h : p u
    · simp [h]
    · simp [h]

/-- The number of later times. -/
def rank (s : Timeline τ α) (t : τ) : ℕ := {u ∈ s.times | t < u}.card

/-- What was said at `c` or later. -/
def since (c : τ) (s : Timeline τ α) : Timeline τ α := s.keep (c ≤ ·)

/-- What was said at the `n` latest times. -/
def newest (n : ℕ) (s : Timeline τ α) : Timeline τ α := s.keep fun t ↦ s.rank t < n

/-- What was said at the `n` latest times that are not before `c`. -/
def trim (c : τ) (n : ℕ) (s : Timeline τ α) : Timeline τ α := (s.since c).newest n

/-- What was said last. -/
def latest (s : Timeline τ α) : Option α :=
  if h : s.times.Nonempty then s.value (s.times.max' h) else none

variable {s s' : Timeline τ α} {c c' t u : τ} {a : α} {n n' : ℕ}

theorem latest_eq_some_iff :
    s.latest = some a ↔ ∃ t, IsGreatest (s.times : Set τ) t ∧ s.value t = some a := by
  rw [latest]
  split_ifs with h
  · have hgreatest : IsGreatest (s.times : Set τ) (s.times.max' h) := s.times.isGreatest_max' h
    refine ⟨fun hvalue ↦ ⟨_, hgreatest, hvalue⟩, ?_⟩
    rintro ⟨t, ht, hvalue⟩
    rwa [← ht.unique hgreatest]
  · simp only [false_iff, not_exists, not_and]
    rintro t ⟨ht, -⟩ -
    exact h ⟨t, ht⟩

theorem latest_eq_none_iff : s.latest = none ↔ s.times = ∅ := by
  rw [latest]
  split_ifs with h
  · have hsome := (s.mem_times _).mp (s.times.max'_mem h)
    rw [Option.isSome_iff_ne_none] at hsome
    exact ⟨fun hnone ↦ absurd hnone hsome, fun hempty ↦ absurd hempty h.ne_empty⟩
  · simp [Finset.not_nonempty_iff_eq_empty.mp h]

/-! ## Ranks -/

/-- The `n` greatest elements are `n`, or all. -/
theorem card_greatest (T : Finset τ) (n : ℕ) :
    {t ∈ T | {u ∈ T | t < u}.card < n}.card = min n T.card := by
  induction T using Finset.induction_on_min with
  | empty => simp
  | insert a T hmin ih =>
    have ha : a ∉ T := fun ha ↦ lt_irrefl a (hmin a ha)
    -- The least element has all others above it, and is above none.
    have hleast : {u ∈ insert a T | a < u} = T := by
      rw [Finset.filter_insert, if_neg (lt_irrefl a)]
      exact Finset.filter_true_of_mem hmin
    have hothers : {t ∈ T | {u ∈ insert a T | t < u}.card < n}
        = {t ∈ T | {u ∈ T | t < u}.card < n} := by
      refine Finset.filter_congr fun t ht ↦ ?_
      rw [Finset.filter_insert, if_neg (lt_asymm (hmin t ht))]
    rw [Finset.filter_insert, hleast, hothers, Finset.card_insert_of_notMem ha]
    split_ifs with hcard
    · rw [Finset.card_insert_of_notMem (by simp [ha]), ih]
      omega
    · rw [ih]
      omega

theorem rank_since (h : c ≤ t) : (s.since c).rank t = s.rank t := by
  refine congrArg Finset.card ?_
  refine Finset.ext fun u ↦ ?_
  rw [since, keep, Finset.mem_filter, Finset.mem_filter, Finset.mem_filter, and_right_comm]
  exact ⟨fun hu ↦ hu.1, fun hu ↦ ⟨hu, h.trans hu.2.le⟩⟩

/-- Keeping the newest caps the ranks. -/
theorem rank_newest : (s.newest n).rank t = min n (s.rank t) := by
  rw [rank, rank, ← card_greatest]
  refine congrArg Finset.card (Finset.ext fun u ↦ ?_)
  simp only [newest, keep, Finset.mem_filter]
  -- What is above `u` is above `t`.
  have habove : t < u → {v ∈ s.times.filter (t < ·) | u < v} = {v ∈ s.times | u < v} := by
    intro htu
    rw [Finset.filter_filter]
    exact Finset.filter_congr fun v _ ↦ ⟨fun hv ↦ hv.2, fun hv ↦ ⟨htu.trans hv, hv⟩⟩
  constructor
  · rintro ⟨⟨hu, hrank⟩, htu⟩
    exact ⟨⟨hu, htu⟩, by rw [habove htu]; exact hrank⟩
  · rintro ⟨⟨hu, htu⟩, hrank⟩
    exact ⟨⟨hu, by rw [habove htu] at hrank; exact hrank⟩, htu⟩

theorem rank_trim (h : c ≤ t) : (s.trim c n).rank t = min n (s.rank t) := by
  rw [trim, rank_newest, rank_since h]

theorem rank_put :
    (s.put t a).rank u = s.rank u + if u < t ∧ t ∉ s.times then 1 else 0 := by
  rw [rank, put, Finset.filter_insert]
  by_cases hut : u < t
  · rw [if_pos hut]
    by_cases ht : t ∈ s.times
    · rw [Finset.insert_eq_of_mem (by simp [ht, hut]), if_neg fun h ↦ h.2 ht, rank, add_zero]
    · rw [Finset.card_insert_of_notMem (by simp [ht]), if_pos ⟨hut, ht⟩, rank]
  · rw [if_neg hut, if_neg fun h ↦ hut h.1, rank, add_zero]

/-! ## Trims -/

theorem value_since : (s.since c).value t = if c ≤ t then s.value t else none := rfl

/-- What a trim keeps. -/
theorem value_trim : (s.trim c n).value t = if c ≤ t ∧ s.rank t < n then s.value t else none := by
  rw [trim, newest, keep]
  dsimp only
  rw [value_since]
  by_cases hage : c ≤ t
  · rw [rank_since hage, if_pos hage]
    simp only [hage, true_and]
  · rw [if_neg hage, ite_self, if_neg fun h ↦ hage h.1]

theorem mem_trim : t ∈ (s.trim c n).times ↔ t ∈ s.times ∧ c ≤ t ∧ s.rank t < n := by
  rw [mem_times, value_trim, mem_times]
  split_ifs with h
  · exact ⟨fun ht ↦ ⟨ht, h⟩, fun ht ↦ ht.1⟩
  · exact ⟨fun ht ↦ absurd ht (by simp), fun ht ↦ absurd ht.2 h⟩

theorem trim_since (h : c ≤ c') : (s.since c).trim c' n = s.trim c' n := by
  refine Timeline.ext fun t ↦ ?_
  rw [value_trim, value_trim, value_since]
  by_cases hage : c' ≤ t
  · rw [if_pos (h.trans hage), rank_since (h.trans hage)]
  · rw [if_neg fun hkept ↦ hage hkept.1, if_neg fun hkept ↦ hage hkept.1]

/-- A weaker trim makes no difference before a trim. -/
theorem trim_trim (hc : c ≤ c') (hn : n' ≤ n) : (s.trim c n).trim c' n' = s.trim c' n' := by
  refine Timeline.ext fun t ↦ ?_
  rw [value_trim, value_trim, value_trim]
  by_cases hage : c' ≤ t
  · have hrank : (s.trim c n).rank t < n' ↔ s.rank t < n' := by
      rw [rank_trim (hc.trans hage)]
      omega
    simp only [hrank, hage, hc.trans hage, true_and]
    split_ifs with hkept hkept'
    · rfl
    · exact absurd (hkept.trans_le hn) hkept'
    · rfl
  · rw [if_neg fun hkept ↦ hage hkept.1, if_neg fun hkept ↦ hage hkept.1]

/-- A trim before something is added makes no difference to the same trim after it. What the first
one drops, the second one drops too, and also what was put in its place. -/
theorem trim_put_trim : ((s.trim c n).put t a).trim c n = (s.put t a).trim c n := by
  refine Timeline.ext fun u ↦ ?_
  rw [value_trim, value_trim]
  by_cases hage : c ≤ u
  · have hrank : ((s.trim c n).put t a).rank u < n ↔ (s.put t a).rank u < n := by
      rw [rank_put, rank_put, rank_trim hage]
      by_cases hut : u < t
      · have hkept : t ∈ (s.trim c n).times ↔ t ∈ s.times ∧ s.rank t < n := by
          rw [mem_trim, and_iff_right (hage.trans hut.le)]
        by_cases ht : t ∈ s.times
        · by_cases htrank : s.rank t < n
          · simp [hut, ht, hkept, htrank]
          · -- All that is later than `t`, and `t`, are later than `u`.
            have hlt : s.rank t ≤ s.rank u := by
              refine Finset.card_le_card fun v hv ↦ ?_
              rw [Finset.mem_filter] at hv ⊢
              exact ⟨hv.1, hut.trans hv.2⟩
            simp only [hut, ht, hkept, htrank, and_false, not_false_eq_true, and_true, if_true,
              not_true_eq_false, if_false]
            omega
        · simp only [hut, ht, hkept, false_and, not_false_eq_true, and_self, if_true]
          omega
      · simp [hut]
    simp only [hrank, hage, true_and]
    split_ifs with hkept
    · -- What is kept in the end was not dropped before.
      have hold : (s.trim c n).value u = s.value u := by
        rw [value_trim]
        by_cases hu : s.rank u < n
        · rw [if_pos ⟨hage, hu⟩]
        · exact absurd (lt_of_le_of_lt (by rw [rank_put]; omega) hkept) hu
      by_cases hut : u = t
      · subst hut
        simp only [put, if_true, hold]
      · simp only [put, if_neg hut, hold]
    · rfl
  · rw [if_neg fun hkept ↦ hage hkept.1, if_neg fun hkept ↦ hage hkept.1]

/-- Timelines that agree after a trim still do when both are added to. -/
theorem trim_put_congr (h : s.trim c n = s'.trim c n) :
    (s.put t a).trim c n = (s'.put t a).trim c n := by
  rw [← trim_put_trim, h, trim_put_trim]

/-! ## Histories of changes -/

/-- A change of a timeline. -/
inductive Change (τ α : Type*)
  | put (t : τ) (a : α)
  | since (c : τ)
  | trim (c : τ) (n : ℕ)

/-- Carry out a change. -/
def apply (s : Timeline τ α) : Change τ α → Timeline τ α
  | .put t a => s.put t a
  | .since c => s.since c
  | .trim c n => s.trim c n

/-- A change adds something. -/
def Change.isPut : Change τ α → Bool
  | .put _ _ => true
  | .since _ | .trim _ _ => false

/-- A change drops nothing that a trim to `c` and `n` would keep. -/
def Change.Within (c : τ) (n : ℕ) : Change τ α → Prop
  | .put _ _ => True
  | .since c' => c' ≤ c
  | .trim c' n' => c' ≤ c ∧ n ≤ n'

/-- **Only the strictest trim counts.** -/
theorem trim_foldl {changes : List (Change τ α)} (h : ∀ x ∈ changes, x.Within c n) :
    (changes.foldl apply s).trim c n
      = ((changes.filter Change.isPut).foldl apply s).trim c n := by
  -- The two histories agree after the trim, from wherever they do.
  suffices hsuff : ∀ s s' : Timeline τ α, s.trim c n = s'.trim c n →
      (changes.foldl apply s).trim c n
        = ((changes.filter Change.isPut).foldl apply s').trim c n from hsuff s s rfl
  induction changes with
  | nil => exact fun s s' hs ↦ hs
  | cons x changes ih =>
    intro s s' hs
    have hwithin := h x List.mem_cons_self
    have hrest := ih fun y hy ↦ h y (List.mem_cons_of_mem x hy)
    rcases x with ⟨t, a⟩ | c' | ⟨c', n'⟩
    · exact hrest _ _ (trim_put_congr hs)
    · exact hrest _ _ ((trim_since hwithin).trans hs)
    · exact hrest _ _ ((trim_trim hwithin.1 hwithin.2).trans hs)

end Order

end Timeline

end Library
