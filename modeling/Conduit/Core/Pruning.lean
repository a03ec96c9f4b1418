import Conduit.Core.Relational

/-!
# Pruning in batches

A list of rows is pruned by taking away the first of the selected ones in an order, up to a
limit.  Pruning composes: batches of the first rows that are left, one after the other, take
away what one batch of the summed limit would have taken away.
-/

namespace Conduit.Pruning

open Relational

variable {Row : Type*}

/-- Of the selected rows, so many of the first ones are gone and nothing else is. -/
structure Prunes (before : Row → Row → Prop) (selects : Row → Prop) [DecidablePred selects]
    (limit : ℕ) (rows left : List Row) : Prop where
  sublist : left.Sublist rows
  selected : ∀ row ∈ rows, row ∉ left → selects row
  counted : rows.countP (selects ·) =
    left.countP (selects ·) + min (rows.countP (selects ·)) limit
  first : ∀ row ∈ rows, row ∉ left → ∀ kept ∈ left, selects kept → before row kept

namespace Prunes

variable {before : Row → Row → Prop} {selects : Row → Prop} [DecidablePred selects]
  {limit more : ℕ} {rows middle left : List Row}

theorem refl (before : Row → Row → Prop) (selects : Row → Prop) [DecidablePred selects]
    (rows : List Row) : Prunes before selects 0 rows rows where
  sublist := .refl rows
  selected _ hrow hgone := absurd hrow hgone
  counted := by simp
  first _ hrow hgone := absurd hrow hgone

theorem trans (hprunes : Prunes before selects limit rows middle)
    (hmore : Prunes before selects more middle left) :
    Prunes before selects (limit + more) rows left where
  sublist := hmore.sublist.trans hprunes.sublist
  selected row hrow hgone := by
    by_cases hmiddle : row ∈ middle
    · exact hmore.selected row hmiddle hgone
    · exact hprunes.selected row hrow hmiddle
  counted := by
    have hcounted := hprunes.counted
    have hmoreCounted := hmore.counted
    omega
  first row hrow hgone kept hkept hselects := by
    by_cases hmiddle : row ∈ middle
    · exact hmore.first row hmiddle hgone kept hkept hselects
    · exact hprunes.first row hrow hmiddle kept (hmore.sublist.subset hkept) hselects

/-- Once the selected rows have run out, a larger limit changes nothing. -/
theorem of_le (hprunes : Prunes before selects limit rows left)
    (hfew : rows.countP (selects ·) ≤ limit) (hle : limit ≤ more) :
    Prunes before selects more rows left where
  __ := hprunes
  counted := by
    have hcounted := hprunes.counted
    omega

end Prunes

section Counting

variable [DecidableEq Row] {rows left : List Row}

/-- Counting what a list shares with a part of it is counting in the part. -/
theorem countP_mem_eq (hnodup : rows.Nodup) (hleft : left.Nodup) (hsubset : left ⊆ rows)
    (good : Row → Bool) :
    rows.countP (fun row => good row && decide (row ∈ left)) = left.countP good := by
  have hperm : (rows.filter fun row => good row && decide (row ∈ left)).Perm
      (left.filter good) := by
    rw [List.perm_ext_iff_of_nodup (hnodup.filter _) (hleft.filter _)]
    intro row
    simp only [List.mem_filter, Bool.and_eq_true, decide_eq_true_eq]
    exact ⟨fun ⟨_, hgood, hmem⟩ => ⟨hmem, hgood⟩,
      fun ⟨hmem, hgood⟩ => ⟨hsubset hmem, hgood, hmem⟩⟩
  rw [List.countP_eq_length_filter, List.countP_eq_length_filter, hperm.length_eq]

/-- What is counted is the same in a part that has all of it. -/
theorem countP_eq_of_sublist (hnodup : rows.Nodup) (hsublist : left.Sublist rows)
    {good : Row → Bool} (hgood : ∀ row ∈ rows, good row = true → row ∈ left) :
    rows.countP good = left.countP good := by
  rw [← countP_mem_eq hnodup (hnodup.sublist hsublist) hsublist.subset good]
  apply List.countP_congr
  intro row hrow
  rw [Bool.and_eq_true, decide_eq_true_eq]
  exact (and_iff_left_of_imp (hgood row hrow)).symm

theorem countP_split (left rows : List Row) (good : Row → Bool) :
    rows.countP good = rows.countP (fun row => good row && decide (row ∈ left)) +
      rows.countP (fun row => good row && decide (row ∉ left)) := by
  induction rows with
  | nil => rfl
  | cons row rows ih =>
      simp only [List.countP_cons, ih]
      by_cases hleft : row ∈ left <;> cases good row <;> simp [hleft] <;> omega

/-- How many rows were taken away. -/
theorem Prunes.countP_gone {before : Row → Row → Prop} {selects : Row → Prop}
    [DecidablePred selects] {limit : ℕ} (hprunes : Prunes before selects limit rows left)
    (hnodup : rows.Nodup) :
    rows.countP (fun row => decide (selects row) && decide (row ∉ left)) =
      min (rows.countP (selects ·)) limit := by
  have hsplit := countP_split left rows (selects ·)
  have hshared := countP_mem_eq hnodup (hnodup.sublist hprunes.sublist)
    hprunes.sublist.subset (selects ·)
  have hcounted := hprunes.counted
  omega

section Batch

variable (before : Row → Row → Prop) [DecidableRel before] (selects : Row → Prop)
  [DecidablePred selects] (limit : ℕ)

theorem countP_selectOrdered (hnodup : rows.Nodup) :
    rows.countP (fun row =>
        decide (selects row) && decide (row ∈ selectOrdered before selects limit rows)) =
      min (rows.countP (selects ·)) limit := by
  have hall : (selectOrdered before selects limit rows).countP (selects ·) =
      (selectOrdered before selects limit rows).length := by
    rw [List.countP_eq_length]
    intro row hrow
    exact decide_eq_true (mem_selectOrdered hrow).2
  rw [countP_mem_eq hnodup (nodup_selectOrdered hnodup)
    (fun row hrow => (mem_selectOrdered hrow).1), hall, length_selectOrdered]

/-- The first selected rows, up to a limit, are taken away. -/
theorem prunes_selectOrdered [Std.Total before] [IsTrans Row before] (hnodup : rows.Nodup) :
    Prunes before selects limit rows
      (rows.filter fun row => row ∉ selectOrdered before selects limit rows) := by
  have htaken : ∀ row ∈ rows,
      row ∉ (rows.filter fun row => row ∉ selectOrdered before selects limit rows) →
        row ∈ selectOrdered before selects limit rows := by
    intro row hrow hgone
    by_contra hleft
    exact hgone (List.mem_filter.mpr ⟨hrow, decide_eq_true hleft⟩)
  constructor
  · exact List.filter_sublist
  · intro row hrow hgone
    exact (mem_selectOrdered (htaken row hrow hgone)).2
  · have hsplit := countP_split (selectOrdered before selects limit rows) rows (selects ·)
    rw [countP_selectOrdered before selects limit hnodup] at hsplit
    rw [List.countP_filter]
    omega
  · intro row hrow hgone kept hkept hselects
    obtain ⟨hkeptRow, hkeptLeft⟩ := List.mem_filter.mp hkept
    rw [decide_eq_true_eq] at hkeptLeft
    exact before_of_notMem_selectOrdered hkeptRow hselects hkeptLeft (htaken row hrow hgone)

end Batch

end Counting

end Conduit.Pruning
