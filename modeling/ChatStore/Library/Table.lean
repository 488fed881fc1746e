import Mathlib.Data.List.Nodup
import Mathlib.Data.List.Sort

/-!
# Tables with a primary key

A table is a list of rows in which the primary key never repeats. The property is a field, so every
statement that changes a table has to establish it, and no later proof has to.

The statements are those of SQL: lookup by key, `INSERT` (which a taken key refuses), `INSERT … ON
CONFLICT DO UPDATE`, `DELETE … WHERE`, `ORDER BY … DESC LIMIT 1`, and the window function
`ROW_NUMBER() OVER (PARTITION BY … ORDER BY … DESC)`.
-/

namespace Library

/-- Rows identified by a primary key. -/
@[ext] structure Table (ρ : Type*) {κ : Type*} (key : ρ → κ) where
  /-- The rows, in insertion order. -/
  rows : List ρ
  /-- The primary key is unique. -/
  nodup_key : (rows.map key).Nodup

namespace Table

variable {ρ κ : Type*} {key : ρ → κ}

/-- The table without rows. -/
def empty : Table ρ key := ⟨[], List.nodup_nil⟩

/-- Rows of a table are determined by their keys. -/
theorem eq_of_key_eq (T : Table ρ key) {r r' : ρ} (hr : r ∈ T.rows) (hr' : r' ∈ T.rows)
    (h : key r = key r') : r = r' :=
  List.inj_on_of_nodup_map T.nodup_key hr hr' h

/-! ## Deleting -/

/-- `DELETE … WHERE p`. -/
def deleteWhere (T : Table ρ key) (p : ρ → Bool) : Table ρ key where
  rows := T.rows.filter fun r ↦ !p r
  nodup_key := (List.Sublist.map key List.filter_sublist).nodup T.nodup_key

@[simp] theorem rows_deleteWhere (T : Table ρ key) (p : ρ → Bool) :
    (T.deleteWhere p).rows = T.rows.filter fun r ↦ !p r := rfl

variable [DecidableEq κ]

/-! ## Lookup -/

/-- `SELECT … WHERE key = k`. -/
def find? (T : Table ρ key) (k : κ) : Option ρ := T.rows.find? fun r ↦ key r = k

theorem find?_eq_some_iff {T : Table ρ key} {k : κ} {r : ρ} :
    T.find? k = some r ↔ r ∈ T.rows ∧ key r = k := by
  constructor
  · intro h
    exact ⟨List.mem_of_find?_eq_some h, by simpa using List.find?_some h⟩
  · rintro ⟨hr, rfl⟩
    cases h : T.find? (key r) with
    | none =>
      have hnone := List.find?_eq_none.mp h r hr
      simp at hnone
    | some r' =>
      have hkey : key r' = key r := by simpa using List.find?_some h
      rw [T.eq_of_key_eq (List.mem_of_find?_eq_some h) hr hkey]

/-- Two tables with the same rows under `k` answer the lookup of `k` alike. -/
theorem find?_congr {T T' : Table ρ key} {k : κ}
    (h : ∀ r, key r = k → (r ∈ T.rows ↔ r ∈ T'.rows)) : T.find? k = T'.find? k := by
  refine Option.ext fun r ↦ ?_
  rw [find?_eq_some_iff, find?_eq_some_iff]
  constructor
  · rintro ⟨hr, hk⟩
    exact ⟨(h r hk).mp hr, hk⟩
  · rintro ⟨hr, hk⟩
    exact ⟨(h r hk).mpr hr, hk⟩

theorem find?_deleteWhere (T : Table ρ key) (p : ρ → Bool) (k : κ) :
    (T.deleteWhere p).find? k = (T.find? k).filter fun r ↦ !p r := by
  refine Option.ext fun r ↦ ?_
  rw [find?_eq_some_iff, Option.filter_eq_some_iff, find?_eq_some_iff, rows_deleteWhere,
    List.mem_filter]
  tauto

/-! ## Inserting -/

omit [DecidableEq κ] in
private theorem nodup_key_concat {T : Table ρ key} {r : ρ} (h : key r ∉ T.rows.map key) :
    ((T.rows ++ [r]).map key).Nodup := by
  rw [List.map_append, List.map_singleton]
  refine List.nodup_append.mpr ⟨T.nodup_key, List.nodup_singleton _, fun a ha b hb ↦ ?_⟩
  rw [List.mem_singleton.mp hb]
  rintro rfl
  exact h ha

/-- `INSERT INTO … VALUES r`, which fails when the key is taken. -/
def insert? (T : Table ρ key) (r : ρ) : Option (Table ρ key) :=
  if h : key r ∈ T.rows.map key then none
  else some ⟨T.rows ++ [r], nodup_key_concat h⟩

theorem insert?_eq_none_iff {T : Table ρ key} {r : ρ} :
    T.insert? r = none ↔ ∃ r' ∈ T.rows, key r' = key r := by
  rw [insert?]
  split_ifs with h
  · simpa using h
  · simpa using h

theorem insert?_eq_some_iff {T T' : Table ρ key} {r : ρ} :
    T.insert? r = some T' ↔ (∀ r' ∈ T.rows, key r' ≠ key r) ∧ T'.rows = T.rows ++ [r] := by
  rw [insert?]
  split_ifs with h
  · obtain ⟨r', hr', hk⟩ := List.mem_map.mp h
    simp only [false_iff, not_and]
    exact fun hall ↦ absurd hk (hall r' hr')
  · rw [Option.some.injEq]
    constructor
    · rintro rfl
      exact ⟨fun r' hr' hk ↦ h (List.mem_map.mpr ⟨r', hr', hk⟩), rfl⟩
    · rintro ⟨-, hrows⟩
      exact Table.ext hrows.symm

private theorem map_key_replace (l : List ρ) (r : ρ) :
    (l.map fun r' ↦ if key r' = key r then r else r').map key = l.map key := by
  rw [List.map_map]
  refine List.map_congr_left fun r' _ ↦ ?_
  by_cases hk : key r' = key r
  · rw [Function.comp_apply, if_pos hk, hk]
  · rw [Function.comp_apply, if_neg hk]

/-- `INSERT INTO … VALUES r ON CONFLICT(key) DO UPDATE SET` every other column. -/
def upsert (T : Table ρ key) (r : ρ) : Table ρ key :=
  if h : key r ∈ T.rows.map key then
    ⟨T.rows.map fun r' ↦ if key r' = key r then r else r', by
      rw [map_key_replace]
      exact T.nodup_key⟩
  else ⟨T.rows ++ [r], nodup_key_concat h⟩

/-- An upsert leaves its row and the rows under other keys, and nothing else. -/
theorem mem_upsert {T : Table ρ key} {r r' : ρ} :
    r' ∈ (T.upsert r).rows ↔ r' = r ∨ (r' ∈ T.rows ∧ key r' ≠ key r) := by
  rw [upsert]
  split_ifs with h
  · obtain ⟨r₀, hr₀, hk₀⟩ := List.mem_map.mp h
    simp only [List.mem_map]
    constructor
    · rintro ⟨r₁, hr₁, rfl⟩
      by_cases hk : key r₁ = key r
      · exact Or.inl (if_pos hk)
      · exact Or.inr (by rw [if_neg hk]; exact ⟨hr₁, hk⟩)
    · rintro (rfl | ⟨hr', hk⟩)
      · exact ⟨r₀, hr₀, if_pos hk₀⟩
      · exact ⟨r', hr', if_neg hk⟩
  · rw [List.mem_append, List.mem_singleton]
    constructor
    · rintro (hr' | rfl)
      · exact Or.inr ⟨hr', fun hk ↦ h (List.mem_map.mpr ⟨r', hr', hk⟩)⟩
      · exact Or.inl rfl
    · rintro (rfl | ⟨hr', -⟩)
      · exact Or.inr rfl
      · exact Or.inl hr'

theorem find?_upsert_self (T : Table ρ key) (r : ρ) : (T.upsert r).find? (key r) = some r :=
  find?_eq_some_iff.mpr ⟨mem_upsert.mpr (Or.inl rfl), rfl⟩

theorem find?_upsert_of_ne (T : Table ρ key) {r : ρ} {k : κ} (hk : key r ≠ k) :
    (T.upsert r).find? k = T.find? k := by
  refine find?_congr fun r' hr' ↦ ?_
  rw [mem_upsert]
  constructor
  · rintro (rfl | ⟨hmem, -⟩)
    · exact absurd hr' hk
    · exact hmem
  · exact fun hmem ↦ Or.inr ⟨hmem, fun h ↦ hk (h.symm.trans hr')⟩

end Table

/-! ## Ordering

`ord` is the column of the `ORDER BY`. Where it repeats the order among equals is unspecified; the
lemmas therefore assume that it does not, as a primary key over the partition guarantees. -/

section Ordering

variable {ρ β π : Type*} [LinearOrder β] (ord : ρ → β)

/-- `ORDER BY ord DESC`. -/
def orderByDesc (l : List ρ) : List ρ := l.insertionSort fun a b ↦ ord b ≤ ord a

/-- `ORDER BY ord DESC LIMIT 1`. -/
def newest? (l : List ρ) : Option ρ := (orderByDesc ord l).head?

/-- `ROW_NUMBER() OVER (PARTITION BY part ORDER BY ord DESC)` of the row `r`. -/
def rowNumber [DecidableEq ρ] [DecidableEq π] (part : ρ → π) (l : List ρ) (r : ρ) : ℕ :=
  (orderByDesc ord (l.filter fun r' ↦ part r' = part r)).idxOf r + 1

variable {ord}

@[simp] theorem mem_orderByDesc {l : List ρ} {r : ρ} : r ∈ orderByDesc ord l ↔ r ∈ l :=
  List.mem_insertionSort _

variable (ord) in
theorem pairwise_orderByDesc (l : List ρ) :
    (orderByDesc ord l).Pairwise fun a b ↦ ord b ≤ ord a :=
  haveI : Std.Total fun a b : ρ ↦ ord b ≤ ord a := ⟨fun a b ↦ le_total (ord b) (ord a)⟩
  haveI : IsTrans ρ fun a b ↦ ord b ≤ ord a := ⟨fun _ _ _ h h' ↦ h'.trans h⟩
  List.pairwise_insertionSort _ l

theorem newest?_eq_none_iff {l : List ρ} : newest? ord l = none ↔ l = [] := by
  rw [newest?, List.head?_eq_none_iff]
  constructor
  · intro h
    refine List.eq_nil_iff_forall_not_mem.mpr fun r hr ↦ ?_
    have hmem : r ∈ orderByDesc ord l := mem_orderByDesc.mpr hr
    rw [h] at hmem
    exact List.not_mem_nil hmem
  · rintro rfl
    rfl

theorem newest?_mem {l : List ρ} {r : ρ} (h : newest? ord l = some r) : r ∈ l :=
  mem_orderByDesc.mp (List.mem_of_mem_head? h)

theorem ord_le_of_newest? {l : List ρ} {r r' : ρ} (h : newest? ord l = some r) (hr' : r' ∈ l) :
    ord r' ≤ ord r := by
  have hsorted := pairwise_orderByDesc ord l
  have hmem : r' ∈ orderByDesc ord l := mem_orderByDesc.mpr hr'
  rw [newest?] at h
  cases hl : orderByDesc ord l with
  | nil => rw [hl] at h; simp at h
  | cons a t =>
    rw [hl] at h hsorted hmem
    obtain rfl : a = r := by simpa using h
    rcases List.mem_cons.mp hmem with rfl | ht
    · exact le_rfl
    · exact (List.pairwise_cons.mp hsorted).1 r' ht

/-- The newest row is the one with the largest `ord`. -/
theorem newest?_eq_some_iff {l : List ρ} (hl : (l.map ord).Nodup) {r : ρ} :
    newest? ord l = some r ↔ r ∈ l ∧ ∀ r' ∈ l, ord r' ≤ ord r := by
  constructor
  · exact fun h ↦ ⟨newest?_mem h, fun r' hr' ↦ ord_le_of_newest? h hr'⟩
  · rintro ⟨hr, hmax⟩
    cases h : newest? ord l with
    | none => rw [newest?_eq_none_iff.mp h] at hr; exact absurd hr List.not_mem_nil
    | some m =>
      have hm := newest?_mem h
      have hord : ord m = ord r := le_antisymm (hmax m hm) (ord_le_of_newest? h hr)
      rw [List.inj_on_of_nodup_map hl hm hr hord]

/-- Appending a row moves the newest row exactly when the new one is newer. -/
theorem newest?_concat {l : List ρ} {r : ρ} (hl : ((l ++ [r]).map ord).Nodup) :
    newest? ord (l ++ [r])
      = some (((newest? ord l).filter fun m ↦ ord r < ord m).getD r) := by
  have hl' : (l.map ord).Nodup := (List.Sublist.map ord (List.sublist_append_left l [r])).nodup hl
  have hne : ∀ m ∈ l, ord m ≠ ord r := by
    intro m hm h
    rw [List.map_append, List.nodup_append] at hl
    exact hl.2.2 (ord m) (List.mem_map_of_mem hm) (ord r) (by simp) h
  rw [newest?_eq_some_iff hl]
  cases h : newest? ord l with
  | none =>
    rw [newest?_eq_none_iff.mp h]
    simp
  | some m =>
    have hm := newest?_mem h
    have hmax := fun (r' : ρ) (hr' : r' ∈ l) ↦ ord_le_of_newest? h hr'
    by_cases hlt : ord r < ord m
    · rw [Option.filter_some_pos (by simpa using hlt), Option.getD_some]
      refine ⟨List.mem_append_left _ hm, fun r' hr' ↦ ?_⟩
      rcases List.mem_append.mp hr' with hr' | hr'
      · exact hmax r' hr'
      · rw [List.mem_singleton.mp hr']
        exact hlt.le
    · rw [Option.filter_some_neg (by simpa using hlt), Option.getD_none]
      refine ⟨List.mem_append_right _ List.mem_cons_self, fun r' hr' ↦ ?_⟩
      rcases List.mem_append.mp hr' with hr' | hr'
      · exact (hmax r' hr').trans (not_lt.mp hlt)
      · rw [List.mem_singleton.mp hr']

/-- Deleting other rows keeps the newest one. -/
theorem newest?_filter {l : List ρ} (hl : (l.map ord).Nodup) {p : ρ → Bool} {r : ρ}
    (h : newest? ord l = some r) (hp : p r = true) : newest? ord (l.filter p) = some r := by
  have hl' : ((l.filter p).map ord).Nodup :=
    (List.Sublist.map ord List.filter_sublist).nodup hl
  rw [newest?_eq_some_iff hl']
  refine ⟨List.mem_filter.mpr ⟨newest?_mem h, hp⟩, fun r' hr' ↦ ?_⟩
  exact ord_le_of_newest? h (List.mem_filter.mp hr').1

variable [DecidableEq ρ] [DecidableEq π] {part : ρ → π}

variable (ord part) in
theorem one_le_rowNumber (l : List ρ) (r : ρ) : 1 ≤ rowNumber ord part l r :=
  Nat.le_add_left 1 _

/-- The newest row of a partition has row number one. -/
theorem rowNumber_newest {l : List ρ} {r : ρ}
    (h : newest? ord (l.filter fun r' ↦ part r' = part r) = some r) :
    rowNumber ord part l r = 1 := by
  rw [newest?] at h
  rw [rowNumber]
  cases hl : orderByDesc ord (l.filter fun r' ↦ part r' = part r) with
  | nil => rw [hl] at h; simp at h
  | cons a t =>
    rw [hl] at h
    obtain rfl : a = r := by simpa using h
    rw [List.idxOf_cons_self]

/-- Row numbers of a partition only see that partition. -/
theorem rowNumber_congr {l l' : List ρ} {r : ρ}
    (h : (l.filter fun r' ↦ part r' = part r) = l'.filter fun r' ↦ part r' = part r) :
    rowNumber ord part l r = rowNumber ord part l' r := by
  rw [rowNumber, rowNumber, h]

end Ordering

end Library
