import Conduit.Core.Relational

/-!
# A table seen through a predicate

One party sees the rows that satisfy a predicate, and the others are hidden from
it.  A statement that selects visible rows only leaves the hidden ones as they
are, and what it does and answers is a function of the visible rows alone.
-/

namespace Conduit.Relational

variable {Row Key Index : Type*} {sees : Row → Prop} [DecidablePred sees]

theorem selectOrdered_filter {before : Row → Row → Prop} [DecidableRel before]
    {selects : Row → Prop} [DecidablePred selects] (limit : ℕ) {rows : List Row}
    (hselects : ∀ row, selects row → sees row) :
    selectOrdered before selects limit (rows.filter sees) =
      selectOrdered before selects limit rows := by
  have hboth : (rows.filter sees).filter selects = rows.filter selects := by
    rw [List.filter_filter]
    apply List.filter_congr
    intro row _
    by_cases hrow : selects row
    · simp [hrow, hselects row hrow]
    · simp [hrow]
  rw [selectOrdered, selectOrdered, hboth]

namespace Table

variable {schema : Schema Row Key Index} (sees)

def visible (table : Table schema) : List Row :=
  table.rows.filter sees

def hidden (table : Table schema) : List Row :=
  table.rows.filter fun row => ¬ sees row

variable {sees} {table left right : Table schema}

theorem mem_visible {row : Row} :
    row ∈ table.visible sees ↔ row ∈ table.rows ∧ sees row := by
  rw [visible, List.mem_filter, decide_eq_true_eq]

theorem mem_hidden {row : Row} :
    row ∈ table.hidden sees ↔ row ∈ table.rows ∧ ¬ sees row := by
  rw [hidden, List.mem_filter, decide_eq_true_eq]

/-! ## Statements on visible rows leave the hidden ones alone -/

theorem hidden_exec {update : Update schema}
    (hselects : ∀ row ∈ table.rows, update.selects row → sees row)
    (hset : ∀ row, sees row → sees (update.set row)) :
    (table.exec update).hidden sees = table.hidden sees := by
  have hkeeps : ∀ row ∈ table.rows,
      sees (if update.selects row then update.set row else row) ↔ sees row := by
    intro row hrow
    split
    · have hseen : sees row := hselects row hrow ‹_›
      exact iff_of_true (hset row hseen) hseen
    · rfl
  have hsame : ∀ row ∈ table.hidden sees,
      (if update.selects row then update.set row else row) = row := by
    intro row hrow
    obtain ⟨hmem, hunseen⟩ := mem_hidden.1 hrow
    apply if_neg
    intro hselected
    exact hunseen (hselects row hmem hselected)
  calc (table.exec update).hidden sees
      = ((table.rows.filter fun row =>
          ¬ sees (if update.selects row then update.set row else row)).map fun row =>
            if update.selects row then update.set row else row) := List.filter_map
    _ = (table.hidden sees).map fun row =>
          if update.selects row then update.set row else row := by
        rw [hidden]
        congr 1
        apply List.filter_congr
        intro row hrow
        simp only [hkeeps row hrow]
    _ = table.hidden sees := by
        conv_rhs => rw [← List.map_id (table.hidden sees)]
        exact List.map_congr_left hsame

theorem hidden_delete {selects : Row → Prop} [DecidablePred selects]
    (hselects : ∀ row, selects row → sees row) :
    (table.delete selects).hidden sees = table.hidden sees := by
  rw [hidden, hidden, delete, List.filter_filter]
  apply List.filter_congr
  intro row _
  by_cases hseen : sees row
  · simp [hseen]
  · have hunselected : ¬ selects row := fun hselected => hseen (hselects row hselected)
    simp [hseen, hunselected]

/-! ## What a statement on visible rows answers -/

theorem find?_congr {selects : Row → Bool}
    (hselects : ∀ row, selects row = true → sees row)
    (hvisible : left.visible sees = right.visible sees) :
    left.rows.find? selects = right.rows.find? selects := by
  have hview : ∀ table : Table schema,
      (table.visible sees).find? selects = table.rows.find? selects := by
    intro table
    rw [visible, List.find?_filter]
    congr 1
    funext row
    by_cases hrow : selects row = true
    · simp [hrow, hselects row hrow]
    · simp [hrow]
  rw [← hview left, hvisible, hview right]

theorem selectOrdered_congr {before : Row → Row → Prop} [DecidableRel before]
    {selects : Row → Prop} [DecidablePred selects] (limit : ℕ)
    (hselects : ∀ row, selects row → sees row)
    (hvisible : left.visible sees = right.visible sees) :
    selectOrdered before selects limit left.rows =
      selectOrdered before selects limit right.rows := by
  calc selectOrdered before selects limit left.rows
      = selectOrdered before selects limit (left.visible sees) :=
        (selectOrdered_filter limit hselects).symm
    _ = selectOrdered before selects limit right.rows := by
        rw [hvisible]
        exact selectOrdered_filter limit hselects

theorem filter_congr {selects : Row → Prop} [DecidablePred selects]
    (hleft : ∀ row ∈ left.rows, selects row → sees row)
    (hright : ∀ row ∈ right.rows, selects row → sees row)
    (hvisible : left.visible sees = right.visible sees) :
    left.rows.filter selects = right.rows.filter selects := by
  have hview : ∀ table : Table schema, (∀ row ∈ table.rows, selects row → sees row) →
      (table.visible sees).filter selects = table.rows.filter selects := by
    intro table hselects
    rw [visible, List.filter_filter]
    apply List.filter_congr
    intro row hrow
    by_cases hselected : selects row
    · simp [hselected, hselects row hrow hselected]
    · simp [hselected]
  rw [← hview left hleft, hvisible, hview right hright]

/-! ## What a statement does to the visible rows -/

theorem visible_exec {update : Update schema}
    (hset : ∀ row, sees (update.set row) ↔ sees row) :
    (table.exec update).visible sees = (table.visible sees).map fun row =>
      if update.selects row then update.set row else row := by
  calc (table.exec update).visible sees
      = ((table.rows.filter fun row =>
          sees (if update.selects row then update.set row else row)).map fun row =>
            if update.selects row then update.set row else row) := List.filter_map
    _ = _ := by
        rw [visible]
        congr 1
        apply List.filter_congr
        intro row _
        split
        · simp only [hset row]
        · rfl

theorem visible_delete {selects : Row → Prop} [DecidablePred selects] :
    (table.delete selects).visible sees =
      (table.visible sees).filter fun row => ¬ selects row := by
  rw [visible, visible, delete, List.filter_filter, List.filter_filter]
  apply List.filter_congr
  intro row _
  exact Bool.and_comm ..

section Insert

variable [DecidableEq Key] [DecidableEq Index] {table' : Table schema} {row : Row}

theorem hidden_insert (hinsert : table.insert row = .ok table') (hseen : sees row) :
    table'.hidden sees = table.hidden sees := by
  rw [hidden, (insert_eq_ok hinsert).1, List.filter_append, ← hidden]
  simp [hseen]

theorem visible_insert (hinsert : table.insert row = .ok table') (hseen : sees row) :
    table'.visible sees = table.visible sees ++ [row] := by
  rw [visible, (insert_eq_ok hinsert).1, List.filter_append, ← visible]
  simp [hseen]

/-- A visible row that clashes with no hidden one is inserted or refused for the
same reason into every table that looks the same. -/
theorem insert_congr
    (hleftKey : ∀ other ∈ left.hidden sees, schema.key other ≠ schema.key row)
    (hrightKey : ∀ other ∈ right.hidden sees, schema.key other ≠ schema.key row)
    (hleftIndex : ∀ other ∈ left.hidden sees, schema.Compatible other row)
    (hrightIndex : ∀ other ∈ right.hidden sees, schema.Compatible other row)
    (hseen : sees row) (hvisible : left.visible sees = right.visible sees) :
    (left.insert row).map (visible sees) = (right.insert row).map (visible sees) := by
  have hforall : ∀ (table : Table schema) (Accepts : Row → Prop),
      (∀ other ∈ table.hidden sees, Accepts other) →
      ((∀ other ∈ table.rows, Accepts other) ↔
        ∀ other ∈ table.visible sees, Accepts other) := by
    intro table Accepts hhidden
    constructor
    · intro hrows other hother
      exact hrows other (mem_visible.1 hother).1
    · intro hrows other hother
      by_cases hother' : sees other
      · exact hrows other (mem_visible.2 ⟨hother, hother'⟩)
      · exact hhidden other (mem_hidden.2 ⟨hother, hother'⟩)
  have hkey : (∀ other ∈ left.rows, schema.key other ≠ schema.key row) ↔
      ∀ other ∈ right.rows, schema.key other ≠ schema.key row := by
    rw [hforall left _ hleftKey, hforall right _ hrightKey, hvisible]
  have hindex : (∀ other ∈ left.rows, schema.Compatible other row) ↔
      ∀ other ∈ right.rows, schema.Compatible other row := by
    rw [hforall left _ hleftIndex, hforall right _ hrightIndex, hvisible]
  rcases hleft : left.insert row with leftErr | leftAfter
  · rcases hright : right.insert row with rightErr | rightAfter
    · have hsame : leftErr = rightErr := by
        rw [insert_eq_error hleft, insert_eq_error hright]
        simp only [hkey]
      rw [hsame]
    · obtain ⟨-, hkeys, hentries⟩ := insert_eq_ok hright
      obtain ⟨after, hok⟩ := exists_insert_eq_ok row (hkey.2 hkeys) (hindex.2 hentries)
      rw [hleft] at hok
      cases hok
  · obtain ⟨-, hkeys, hentries⟩ := insert_eq_ok hleft
    obtain ⟨rightAfter, hright⟩ :=
      exists_insert_eq_ok row (hkey.1 hkeys) (hindex.1 hentries)
    rw [hright]
    change Except.ok (leftAfter.visible sees) = Except.ok (rightAfter.visible sees)
    rw [visible_insert hleft hseen, visible_insert hright hseen, hvisible]

end Insert

end Table

end Conduit.Relational
