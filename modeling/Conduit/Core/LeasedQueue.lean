import Mathlib.Data.PNat.Basic
import Mathlib.Data.Set.Insert
import Mathlib.Logic.Function.Basic
import Conduit.Core.Transition

/-!
# Leased queues

The work queue behind lease tokens, over any identifiers, owners, keys, tokens and ordered
time.  An owner submits an item, at most one under each of the owner's keys.  An item waits
until it is due, is held under a token until its lease expires, and ends finished or dead.
It may be taken as often as its budget allows; an item that is given back gets its attempt
back.

The bounds on the attempts are part of an item, so that an item which waits without
an attempt left, or is held without having spent one, cannot be written down.
-/

namespace Conduit.LeasedQueue

open Transition

variable {Id Owner Key Token Time : Type*}

inductive Item (Token Time : Type*)
  | waiting (budget : ℕ+) (spent : ℕ) (hspent : spent < budget) (due : Time)
  | held (budget : ℕ+) (spent : ℕ) (hpos : 0 < spent) (hspent : spent ≤ budget)
      (token : Token) (expires : Time)
  | finished (budget : ℕ+) (spent : ℕ) (hspent : spent ≤ budget) (since : Time)
  | dead (budget : ℕ+) (spent : ℕ) (hspent : spent ≤ budget) (since : Time)

/-- What can happen to an item. -/
inductive Move (Token Time : Type*)
  | take (token : Token) (now expires : Time)
  | extend (token : Token) (expires : Time)
  | giveBack (token : Token) (due : Time)
  | finish (token : Token) (now : Time)
  | retry (token : Token) (due : Time)
  | bury (token : Token) (now : Time)
  /-- The lease is over: the item waits again, or dies with its last attempt. -/
  | expire (now : Time)
  | cancel (now : Time)
  | revive (due : Time)

/-- The token a move hands out. -/
def Move.grants : Move Token Time → Option Token
  | .take token _ _ => some token
  | _ => none

namespace Item

/-- An item nobody has taken yet. -/
def fresh (budget : ℕ+) (due : Time) : Item Token Time :=
  .waiting budget 0 budget.pos due

/-- Only the holder of the token moves a held item, apart from expiry and
cancellation. -/
def Enabled [LE Time] : Item Token Time → Move Token Time → Prop
  | .waiting _ _ _ due, .take _ now _ => due ≤ now
  | .held _ _ _ _ token _, .extend presented _ => presented = token
  | .held _ _ _ _ token _, .giveBack presented _ => presented = token
  | .held _ _ _ _ token _, .finish presented _ => presented = token
  | .held budget spent _ _ token _, .retry presented _ => presented = token ∧ spent < budget
  | .held _ _ _ _ token _, .bury presented _ => presented = token
  | .held _ _ _ _ _ expires, .expire now => expires ≤ now
  | .waiting .., .cancel _ => True
  | .held .., .cancel _ => True
  | .dead .., .revive _ => True
  | _, _ => False

def apply : Item Token Time → Move Token Time → Item Token Time
  | .waiting budget spent hspent _, .take token _ expires =>
      .held budget (spent + 1) spent.succ_pos hspent token expires
  | .held budget spent hpos hspent token _, .extend _ expires =>
      .held budget spent hpos hspent token expires
  | .held budget spent hpos hspent _ _, .giveBack _ due =>
      .waiting budget (spent - 1) ((Nat.sub_one_lt hpos.ne').trans_le hspent) due
  | .held budget spent _ hspent _ _, .finish _ now => .finished budget spent hspent now
  | .held budget spent hpos hspent token expires, .retry _ due =>
      if hleft : spent < budget then .waiting budget spent hleft due
      else .held budget spent hpos hspent token expires
  | .held budget spent _ hspent _ _, .bury _ now => .dead budget spent hspent now
  | .held budget spent _ hspent _ _, .expire now =>
      if hleft : spent < budget then .waiting budget spent hleft now
      else .dead budget spent hspent now
  | .waiting budget spent hspent _, .cancel now => .dead budget spent hspent.le now
  | .held budget spent _ hspent _ _, .cancel now => .dead budget spent hspent now
  | .dead budget _ _ _, .revive due => fresh budget due
  | item, _ => item

end Item

/-- The items of a queue, who submitted them under which key, and the tokens it has handed
out. -/
structure Queue (Id Owner Key Token Time : Type*) where
  items : Id → Option (Item Token Time)
  origin : Id → Option (Owner × Option Key)
  issued : Set Token

inductive Action (Id Owner Key Token Time : Type*)
  | submit (id : Id) (owner : Owner) (key : Option Key) (budget : ℕ+) (due : Time)
  | move (id : Id) (move : Move Token Time)

namespace Queue

/-- The item is held under this token. -/
def Holds (queue : Queue Id Owner Key Token Time) (id : Id) (token : Token) : Prop :=
  ∃ budget spent hpos hspent expires,
    queue.items id = some (.held budget spent hpos hspent token expires)

/-- The item waits, to be taken from `due` on. -/
def Waits (queue : Queue Id Owner Key Token Time) (id : Id) (due : Time) : Prop :=
  ∃ budget spent hspent, queue.items id = some (.waiting budget spent hspent due)

/-- There is an item for the move, which it can make. -/
def Ready [LE Time] (queue : Queue Id Owner Key Token Time) (id : Id)
    (move : Move Token Time) : Prop :=
  ∃ item, queue.items id = some item ∧ item.Enabled move

/-- The id is unused, and so is the owner's key. -/
def Vacant (queue : Queue Id Owner Key Token Time) (id : Id) (owner : Owner)
    (key : Option Key) : Prop :=
  queue.items id = none ∧ ∀ other, key ≠ none → queue.origin other ≠ some (owner, key)

def Allowed [LE Time] (queue : Queue Id Owner Key Token Time) :
    Action Id Owner Key Token Time → Prop
  | .submit id owner key _ _ => queue.Vacant id owner key
  | .move id move => queue.Ready id move ∧ ∀ token ∈ move.grants, token ∉ queue.issued

variable [DecidableEq Id]

def step (queue : Queue Id Owner Key Token Time) :
    Action Id Owner Key Token Time → Queue Id Owner Key Token Time
  | .submit id owner key budget due => { queue with
      items := Function.update queue.items id (some (.fresh budget due))
      origin := Function.update queue.origin id (some (owner, key)) }
  | .move id move => { queue with
      items := Function.update queue.items id ((queue.items id).map (·.apply move))
      issued := queue.issued ∪ { token | move.grants = some token } }

end Queue

/-- The queue starts empty. -/
def machine (Id Owner Key Token Time : Type*) [DecidableEq Id] [LE Time] :
    Machine (Queue Id Owner Key Token Time) (Action Id Owner Key Token Time) where
  Init queue := (∀ id, queue.items id = none ∧ queue.origin id = none) ∧ queue.issued = ∅
  Allowed := Queue.Allowed
  step := Queue.step

/-! ## Several items at once -/

section Batch

/-- The same move of several items, one after the other. -/
def batch (ids : List Id) (move : Move Token Time) : List (Action Id Owner Key Token Time) :=
  ids.map fun id => .move id move

variable [DecidableEq Id]

/-- What one move changes. -/
theorem items_step_move (queue : Queue Id Owner Key Token Time) (id other : Id)
    (move : Move Token Time) :
    (queue.step (.move id move)).items other =
      if other = id then (queue.items id).map (·.apply move) else queue.items other := by
  change Function.update _ id _ other = _
  rw [Function.update_apply]

variable [LE Time]

/-- Moves of different items do not get in each other's way, as long as a token is
handed out once. -/
theorem allowedRun_batch {queue : Queue Id Owner Key Token Time} {ids : List Id}
    {move : Move Token Time} (hids : ids.Nodup)
    (hgrants : move.grants = none ∨ ∀ first ∈ ids, ∀ second ∈ ids, first = second)
    (henabled : ∀ id ∈ ids, queue.Allowed (.move id move)) :
    (machine Id Owner Key Token Time).AllowedRun queue (batch ids move) := by
  induction ids generalizing queue with
  | nil => trivial
  | cons id ids ih =>
      obtain ⟨hid, hrest⟩ := List.nodup_cons.mp hids
      obtain ⟨hfirst, hothers⟩ := List.forall_mem_cons.mp henabled
      refine ⟨hfirst, ih hrest (hgrants.imp_right fun hsole first hfirst second hsecond => ?_) ?_⟩
      · exact hsole first (List.mem_cons_of_mem _ hfirst) second (List.mem_cons_of_mem _ hsecond)
      · intro other hother
        obtain ⟨⟨item, hitem, hmove⟩, htoken⟩ := hothers other hother
        have hne : other ≠ id := fun heq => hid (heq ▸ hother)
        refine ⟨⟨item, ?_, hmove⟩, ?_⟩
        · exact (items_step_move queue id other move).trans ((if_neg hne).trans hitem)
        · rcases hgrants with hnone | hsole
          · simp [hnone]
          · exact absurd (hsole other (List.mem_cons_of_mem _ hother) id List.mem_cons_self) hne

theorem items_run_batch (queue : Queue Id Owner Key Token Time) {ids : List Id} (hids : ids.Nodup)
    (move : Move Token Time) (id : Id) :
    ((machine Id Owner Key Token Time).run queue (batch ids move)).items id =
      if id ∈ ids then (queue.items id).map (·.apply move) else queue.items id := by
  induction ids generalizing queue with
  | nil => rfl
  | cons first ids ih =>
      obtain ⟨hfirst, hrest⟩ := List.nodup_cons.mp hids
      refine (ih (queue.step (.move first move)) hrest).trans ?_
      rw [items_step_move]
      by_cases hsame : id = first
      · rw [hsame, if_neg hfirst, if_pos rfl, if_pos List.mem_cons_self]
      · rw [if_neg hsame]
        simp only [List.mem_cons, hsame, false_or]

theorem origin_run_batch (queue : Queue Id Owner Key Token Time) (ids : List Id)
    (move : Move Token Time) :
    ((machine Id Owner Key Token Time).run queue (batch ids move)).origin = queue.origin := by
  induction ids generalizing queue with
  | nil => rfl
  | cons first ids ih => exact ih (queue.step (.move first move))

theorem issued_run_batch (queue : Queue Id Owner Key Token Time) (ids : List Id)
    (move : Move Token Time) :
    ((machine Id Owner Key Token Time).run queue (batch ids move)).issued ⊆
      queue.issued ∪ { token | move.grants = some token } := by
  induction ids generalizing queue with
  | nil => exact Set.subset_union_left
  | cons first ids ih =>
      refine (ih (queue.step (.move first move))).trans ?_
      exact Set.union_subset subset_rfl Set.subset_union_right

end Batch

end Conduit.LeasedQueue
