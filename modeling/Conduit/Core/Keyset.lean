import Mathlib.Data.List.Basic
import Mathlib.Data.List.Sort
import Mathlib.Order.Defs.Unbundled

/-!
# Keyset paging

A list is read page by page in the order of its keys.  A page goes with the position to
continue at, the key of its last item, and the next page holds what comes after that
position in the items of the moment.  The items may be different at every call: keys are
read in strictly increasing order, and a key that is there until its position has been
passed is read.
-/

namespace Conduit.Keyset

variable {Item Key : Type*} (key : Item → Key) (lt : Key → Key → Prop)

/-- The value is still ahead of a reader at that position, or at the start. -/
def After (start : Option Key) (value : Key) : Prop :=
  ∀ position ∈ start, lt position value

/-- A page of the items after a position, and the position to continue at. -/
structure IsPage (items : List Item) (start : Option Key) (page : List Item)
    (next : Option Key) : Prop where
  sorted : page.Pairwise fun first second => lt (key first) (key second)
  mem : ∀ item ∈ page, item ∈ items ∧ After lt start (key item)
  /-- What is not on the page comes after the position it goes with. -/
  rest : ∀ item ∈ items, After lt start (key item) →
    item ∈ page ∨ ∃ position ∈ next, lt position (key item)
  last : ∀ position ∈ next,
    (∃ item ∈ page, key item = position) ∧ ∀ item ∈ page, ¬ lt position (key item)

structure Call (Item Key : Type*) where
  items : List Item
  start : Option Key
  page : List Item
  next : Option Key

/-- Every call continues where the one before it stopped. -/
def IsWalk : Option Key → List (Call Item Key) → Prop
  | _, [] => True
  | start, call :: calls =>
      call.start = start ∧ IsPage key lt call.items call.start call.page call.next ∧
        (call.next = none → calls = []) ∧ IsWalk call.next calls

/-- All items read. -/
def itemsRead (calls : List (Call Item Key)) : List Item :=
  calls.flatMap Call.page

section Order

variable {key lt} [IsStrictTotalOrder Key lt] {items page : List Item}
  {start next : Option Key}

omit [IsStrictTotalOrder Key lt] in
theorem IsWalk.isPage {calls : List (Call Item Key)}
    (hwalk : IsWalk key lt start calls) {call : Call Item Key} (hcall : call ∈ calls) :
    IsPage key lt call.items call.start call.page call.next := by
  induction calls generalizing start with
  | nil => cases hcall
  | cons first calls ih =>
      obtain ⟨-, hpage, -, hcalls⟩ := hwalk
      rcases List.mem_cons.mp hcall with rfl | hcall
      · exact hpage
      · exact ih hcalls hcall

theorem After.trans {position value : Key} (hafter : After lt start position)
    (hlt : lt position value) : After lt start value := by
  intro earlier hearlier
  exact trans_of lt (hafter earlier hearlier) hlt

/-- Where a page is followed by another, its items come before all that follows. -/
theorem IsPage.lt_of_after (hpage : IsPage key lt items start page next) {item : Item}
    (hitem : item ∈ page) {value : Key} (hafter : After lt next value) (hnext : next ≠ none) :
    lt (key item) value := by
  obtain ⟨position, rfl⟩ := Option.ne_none_iff_exists'.mp hnext
  have hposition : lt position value := hafter position rfl
  have hnot := (hpage.last position rfl).2 item hitem
  rcases trichotomous_of lt (key item) position with hbefore | hsame | hbehind
  · exact trans_of lt hbefore hposition
  · rw [hsame]
    exact hposition
  · exact absurd hbehind hnot

theorem IsPage.after_of_after (hpage : IsPage key lt items start page next) {value : Key}
    (hafter : After lt next value) (hnext : next ≠ none) : After lt start value := by
  obtain ⟨position, rfl⟩ := Option.ne_none_iff_exists'.mp hnext
  obtain ⟨item, hitem, hkey⟩ := (hpage.last position rfl).1
  have hstart := (hpage.mem item hitem).2
  rw [hkey] at hstart
  exact hstart.trans (hafter position rfl)

theorem IsWalk.after {calls : List (Call Item Key)} (hwalk : IsWalk key lt start calls)
    {item : Item} (hitem : item ∈ itemsRead calls) : After lt start (key item) := by
  induction calls generalizing start with
  | nil => cases hitem
  | cons call calls ih =>
      obtain ⟨rfl, hpage, hends, hcalls⟩ := hwalk
      rcases List.mem_append.mp hitem with hitem | hitem
      · exact (hpage.mem item hitem).2
      · apply hpage.after_of_after (ih hcalls hitem)
        intro hnext
        rw [hends hnext] at hitem
        cases hitem

/-- Keys are read in strictly increasing order, whatever happens to the items. -/
theorem IsWalk.pairwise {calls : List (Call Item Key)} (hwalk : IsWalk key lt start calls) :
    (itemsRead calls).Pairwise fun first second => lt (key first) (key second) := by
  induction calls generalizing start with
  | nil => exact List.Pairwise.nil
  | cons call calls ih =>
      obtain ⟨rfl, hpage, hends, hcalls⟩ := hwalk
      refine List.pairwise_append.mpr ⟨hpage.sorted, ih hcalls, ?_⟩
      intro first hfirst second hsecond
      apply hpage.lt_of_after hfirst (hcalls.after hsecond)
      intro hnext
      rw [hends hnext] at hsecond
      cases hsecond

omit [IsStrictTotalOrder Key lt] in
/-- A key that is there at every call until its position is passed is read. -/
theorem IsWalk.complete {calls : List (Call Item Key)} (hwalk : IsWalk key lt start calls)
    {value : Key} (hafter : After lt start value)
    (hstays : ∀ call ∈ calls, After lt call.start value →
      ∃ item ∈ call.items, key item = value)
    (hpassed : ∃ call ∈ calls, ∀ position ∈ call.next, ¬ lt position value) :
    ∃ item ∈ itemsRead calls, key item = value := by
  induction calls generalizing start with
  | nil =>
      obtain ⟨call, hcall, -⟩ := hpassed
      cases hcall
  | cons call calls ih =>
      obtain ⟨rfl, hpage, hends, hcalls⟩ := hwalk
      obtain ⟨item, hitem, rfl⟩ := hstays call List.mem_cons_self hafter
      rcases hpage.rest item hitem hafter with hread | ⟨position, hposition, hlt⟩
      · exact ⟨item, List.mem_append_left _ hread, rfl⟩
      · -- The reader stops short of the key, so a later call passes it.
        have hnext : After lt call.next (key item) := by
          intro other hother
          rw [Option.mem_unique hother hposition]
          exact hlt
        obtain ⟨passing, hpassing, hbeyond⟩ := hpassed
        have hlater : passing ∈ calls := by
          rcases List.mem_cons.mp hpassing with rfl | hlater
          · exact absurd hlt (hbeyond position hposition)
          · exact hlater
        obtain ⟨other, hother, hkey⟩ := ih hcalls hnext
          (fun call hcall => hstays call (List.mem_cons_of_mem _ hcall))
          ⟨passing, hlater, hbeyond⟩
        exact ⟨other, List.mem_append_right _ hother, hkey⟩

/-- How many items are still ahead of a reader. -/
noncomputable def ahead (key : Item → Key) (lt : Key → Key → Prop) (items : List Item)
    (start : Option Key) : ℕ := by
  classical exact (items.filter fun item => After lt start (key item)).length

/-- The items ahead grow fewer with every page that is not the last. -/
theorem IsPage.ahead_lt (hpage : IsPage key lt items start page next) (hnext : next ≠ none) :
    ahead key lt items next < ahead key lt items start := by
  classical
  obtain ⟨position, rfl⟩ := Option.ne_none_iff_exists'.mp hnext
  obtain ⟨item, hitem, hkey⟩ := (hpage.last position rfl).1
  obtain ⟨hmem, hafter⟩ := hpage.mem item hitem
  have hsublist : (items.filter fun item => After lt (some position) (key item)).Sublist
      (items.filter fun item => After lt start (key item)) := by
    apply List.monotone_filter_right
    intro other hother
    rw [decide_eq_true_eq] at hother ⊢
    exact hpage.after_of_after hother hnext
  apply lt_of_le_of_ne hsublist.length_le
  intro hlength
  -- The last item of the page is ahead of its start and not of its end.
  have hstill : item ∈ items.filter fun item => After lt (some position) (key item) := by
    rw [hsublist.eq_of_length hlength, List.mem_filter, decide_eq_true_eq]
    exact ⟨hmem, hafter⟩
  rw [List.mem_filter, decide_eq_true_eq, hkey] at hstill
  exact irrefl_of lt position (hstill.2 position rfl)

/-- Cutting a sorted list of what comes after a position. -/
theorem isPage_take {sorted : List Item}
    (hsorted : sorted.Pairwise fun first second => lt (key first) (key second))
    (hmem : ∀ item, item ∈ sorted ↔ item ∈ items ∧ After lt start (key item))
    {limit : ℕ} (hlimit : 0 < limit) :
    IsPage key lt items start (sorted.take limit)
      (if limit < sorted.length then sorted[limit - 1]?.map key else none) := by
  have hcut := hsorted
  rw [← List.take_append_drop limit sorted, List.pairwise_append] at hcut
  obtain ⟨hpage, -, hcross⟩ := hcut
  have hlast : ∀ hlonger : limit < sorted.length,
      sorted[limit - 1] ∈ sorted.take limit := by
    intro hlonger
    rw [List.mem_take_iff_getElem]
    exact ⟨limit - 1, by omega, rfl⟩
  constructor
  · exact hpage
  · intro item hitem
    exact (hmem item).mp (List.mem_of_mem_take hitem)
  · intro item hitem hafter
    have hsplit := (hmem item).mpr ⟨hitem, hafter⟩
    rw [← List.take_append_drop limit sorted, List.mem_append] at hsplit
    rcases hsplit with htaken | hdropped
    · exact .inl htaken
    · right
      have hlonger : limit < sorted.length := by
        have hlength := List.length_pos_of_mem hdropped
        rw [List.length_drop] at hlength
        omega
      rw [if_pos hlonger, List.getElem?_eq_getElem (by omega)]
      exact ⟨_, rfl, hcross _ (hlast hlonger) _ hdropped⟩
  · intro position hposition
    by_cases hlonger : limit < sorted.length
    · rw [if_pos hlonger, List.getElem?_eq_getElem (by omega)] at hposition
      obtain rfl : key sorted[limit - 1] = position := Option.some.inj hposition
      refine ⟨⟨_, hlast hlonger, rfl⟩, ?_⟩
      intro item hitem hlt
      obtain ⟨index, hindex, rfl⟩ := List.mem_take_iff_getElem.mp hitem
      rcases Nat.lt_or_ge index (limit - 1) with hbefore | hsame
      · have hle := List.pairwise_iff_getElem.mp hsorted index (limit - 1) (by omega)
          (by omega) hbefore
        exact asymm_of lt hle hlt
      · have hindex' : index = limit - 1 := by omega
        subst hindex'
        exact irrefl_of lt _ hlt
    · rw [if_neg hlonger] at hposition
      cases hposition

end Order

end Conduit.Keyset
