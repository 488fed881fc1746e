import ChatStore.Library.Table

/-!
# Ranks, and the largest elements of a list

The rank of an element counts the larger ones. Row numbers are ranks, and keeping the elements of
rank below `n` keeps the `n` largest. Stated with ranks, the laws of keeping the largest need no
sorting: it can be repeated, and it commutes with dropping everything below a bound.

Sorting returns in `perm_take_orderByDesc` only, which says that these are indeed the first `n`
elements in descending order.
-/

namespace Library

variable {ρ β : Type*} [LinearOrder β] (ord : ρ → β)

/-- How many elements of a list are larger. -/
def rank (l : List ρ) (r : ρ) : ℕ := l.countP fun r' ↦ ord r < ord r'

/-- The `n` largest elements of a list, in the order of the list. -/
def largest (n : ℕ) (l : List ρ) : List ρ := l.filter fun r ↦ rank ord l r < n

variable {ord} {l l' : List ρ} {r : ρ} {n : ℕ}

theorem rank_perm (h : l.Perm l') : rank ord l r = rank ord l' r := h.countP_eq _

theorem rank_le_of_sublist (h : l.Sublist l') : rank ord l r ≤ rank ord l' r := h.countP_le

/-- Whatever is smaller does not count. -/
theorem rank_filter {p : ρ → Bool} (h : ∀ r' ∈ l, ord r < ord r' → p r' = true) :
    rank ord (l.filter p) r = rank ord l r := by
  rw [rank, rank, List.countP_filter]
  refine List.countP_congr fun r' hr' ↦ ?_
  simp only [Bool.and_eq_true, decide_eq_true_eq, and_iff_left_iff_imp]
  exact h r' hr'

/-! ## Ranks in descending lists -/

theorem rank_cons_self {a : ρ} {t : List ρ} (h : (a :: t).Pairwise fun a b ↦ ord b < ord a) :
    rank ord (a :: t) a = 0 := by
  refine List.countP_eq_zero.mpr fun b hb ↦ ?_
  rw [decide_eq_true_iff]
  rcases List.mem_cons.mp hb with rfl | hb
  · exact lt_irrefl _
  · exact lt_asymm (List.rel_of_pairwise_cons h hb)

theorem rank_cons_of_mem {a b : ρ} {t : List ρ} (h : (a :: t).Pairwise fun a b ↦ ord b < ord a)
    (hb : b ∈ t) : rank ord (a :: t) b = rank ord t b + 1 :=
  List.countP_cons_of_pos (by simpa using List.rel_of_pairwise_cons h hb)

/-- In a descending list the rank is the position. -/
theorem idxOf_eq_rank [DecidableEq ρ] (h : l.Pairwise fun a b ↦ ord b < ord a) (hr : r ∈ l) :
    l.idxOf r = rank ord l r := by
  induction l with
  | nil => exact absurd hr List.not_mem_nil
  | cons a t ih =>
    by_cases hra : a = r
    · subst hra
      rw [List.idxOf_cons_self, rank_cons_self h]
    · have ht : r ∈ t := (List.mem_cons.mp hr).resolve_left fun heq ↦ hra heq.symm
      rw [List.idxOf_cons_ne _ hra, rank_cons_of_mem h ht, ih h.of_cons ht]

/-- In a descending list the largest elements come first. -/
theorem largest_eq_take (h : l.Pairwise fun a b ↦ ord b < ord a) (n : ℕ) :
    largest ord n l = l.take n := by
  induction l generalizing n with
  | nil => rw [largest, List.filter_nil, List.take_nil]
  | cons a t ih =>
    rcases n with _ | n
    · rw [List.take_zero, largest, List.filter_eq_nil_iff]
      simp
    · have htail : t.filter (fun r ↦ rank ord (a :: t) r < n + 1) = largest ord n t := by
        refine List.filter_congr fun r hr ↦ ?_
        rw [rank_cons_of_mem h hr]
        simp
      rw [largest, List.filter_cons_of_pos (by simp [rank_cons_self h]), htail, ih h.of_cons,
        List.take_succ_cons]

/-! ## Row numbers and sorting -/

variable (ord) in
theorem perm_orderByDesc (l : List ρ) : (orderByDesc ord l).Perm l := List.perm_insertionSort _ l

/-- Sorting a list without repeated values descends strictly. -/
theorem pairwise_lt_orderByDesc (h : (l.map ord).Nodup) :
    (orderByDesc ord l).Pairwise fun a b ↦ ord b < ord a := by
  have hne : (orderByDesc ord l).Pairwise fun a b ↦ ord a ≠ ord b :=
    List.pairwise_map.mp (((perm_orderByDesc ord l).map ord).nodup_iff.mpr h)
  exact (pairwise_orderByDesc ord l).imp₂ (fun a b hle hne ↦ lt_of_le_of_ne hle hne.symm) hne

/-- The row number of a row is its rank in its partition, counted from one. -/
theorem rowNumber_eq_rank [DecidableEq ρ] {π : Type*} [DecidableEq π] {part : ρ → π}
    (h : ((l.filter fun r' ↦ part r' = part r).map ord).Nodup) (hr : r ∈ l) :
    rowNumber ord part l r = rank ord (l.filter fun r' ↦ part r' = part r) r + 1 := by
  have hmem : r ∈ orderByDesc ord (l.filter fun r' ↦ part r' = part r) :=
    mem_orderByDesc.mpr (List.mem_filter.mpr ⟨hr, by simp⟩)
  rw [rowNumber, idxOf_eq_rank (pairwise_lt_orderByDesc h) hmem, rank_perm (perm_orderByDesc ord _)]

/-- **The largest elements are the first ones in descending order.** -/
theorem perm_take_orderByDesc (h : (l.map ord).Nodup) (n : ℕ) :
    (largest ord n l).Perm ((orderByDesc ord l).take n) := by
  have hrank : largest ord n l = l.filter fun r ↦ rank ord (orderByDesc ord l) r < n :=
    List.filter_congr fun r _ ↦ by rw [rank_perm (perm_orderByDesc ord l)]
  rw [hrank, ← largest_eq_take (pairwise_lt_orderByDesc h), largest]
  exact ((perm_orderByDesc ord l).filter _).symm

/-- Keeping at least one element keeps the largest. -/
theorem newest?_largest (h : (l.map ord).Nodup) (hn : 1 ≤ n) :
    newest? ord (largest ord n l) = newest? ord l := by
  rcases hnew : newest? ord l with _ | m
  · rw [newest?_eq_none_iff.mp hnew, largest, List.filter_nil]
    rfl
  · refine newest?_filter h hnew ?_
    have hrank : rank ord l m = 0 := by
      refine List.countP_eq_zero.mpr fun r hr ↦ ?_
      simpa using ord_le_of_newest? hnew hr
    rw [hrank, decide_eq_true_iff]
    exact hn

theorem length_largest (h : (l.map ord).Nodup) (n : ℕ) :
    (largest ord n l).length = min n l.length := by
  rw [(perm_take_orderByDesc h n).length_eq, List.length_take, (perm_orderByDesc ord l).length_eq]

end Library
