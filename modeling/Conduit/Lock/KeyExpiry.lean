import Conduit.Lock.MutualExclusion

/-!
# Redlock with keys that expire

Time passes, a node drops a key once its time to live is over, and a lock is good until
the `Expiry` its `Acquire` has computed.  A node is given whole milliseconds and its clock
may run ahead by the drift factor, so the least time it keeps a key for is a little less
than the configured one.

`Acquire` reads the clock twice at its end, once for the time it took and once for the
expiry.  What passes in between is added to the expiry, while the keys do not live any
longer: the 2 ms that are taken off the validity have to cover it.
-/

namespace Conduit.Redlock

open Transition

variable {Node : Type*}

def millisecond : ℤ := 1000000

/-- The time to live a node is given with a key. -/
def Config.timeToLive (cfg : Config) : ℤ :=
  if cfg.ttl < millisecond then millisecond else cfg.ttl / millisecond * millisecond

/-- The least time a node keeps a key for. -/
def Config.keeps (cfg : Config) : ℤ :=
  cfg.timeToLive - cfg.drift

theorem Config.validity_eq (cfg : Config) (elapsed : ℤ) :
    cfg.validity elapsed = cfg.validity 0 - elapsed := by
  unfold Config.validity
  omega

/-- A key outlives the longest validity by more than a millisecond. -/
theorem Config.validity_lt_keeps (cfg : Config) :
    cfg.validity 0 + millisecond < cfg.keeps := by
  unfold Config.validity Config.keeps Config.timeToLive millisecond
  split <;> omega

/-! ## The system -/

/-- The calls with the time their current attempt began at, and the keys with the time
from which their node may drop them. -/
structure Timed (Node : Type*) where
  system : System Node
  clock : ℤ
  starts : ℕ → ℤ
  keptUntil : Node → String → ℤ

inductive TimedLabel (Node : Type*)
  | tick (duration : ℕ)
  /-- A node drops a key. -/
  | expire (node : Node) (resource : String)
  | act (label : Label Node)

section Steps

variable [DecidableEq Node]

/-- The times from which keys may be dropped, once a request of a call has ended. -/
def Timed.keep (timed : Timed Node) (call : Call Node) (event : Event) :
    Node → String → ℤ := fun other name =>
  match event, call.stage with
  | .reply reply, .setting _ _ (node :: _) =>
      if (reply.served ∧ (setNX timed.system.keys node call.resource call.value).1) ∧
          other = node ∧ name = call.resource then
        timed.clock + call.manager.cfg.keeps
      else timed.keptUntil other name
  | _, _ => timed.keptUntil other name

/-- Whether a call begins an attempt with this event. -/
def Call.begins (call : Call Node) : Event → Bool
  | .retryDelay => match call.stage with
      | .waiting _ => true
      | _ => false
  | _ => false

def Timed.act (timed : Timed Node) (label : Label Node) : Timed Node :=
  let system := timed.system.step label
  match label with
  | .acquire .. => { timed with
      system
      starts := Function.update timed.starts timed.system.calls.length timed.clock }
  | .call index event =>
      match timed.system.calls[index]? with
      | none => { timed with system }
      | some call => { timed with
          system
          starts := if call.begins event then Function.update timed.starts index timed.clock
            else timed.starts
          keptUntil := timed.keep call event }
  | .release .. | .request .. => { timed with system }

def Timed.step (timed : Timed Node) : TimedLabel Node → Timed Node
  | .tick duration => { timed with clock := timed.clock + duration }
  | .expire node resource => { timed with
      system := { timed.system with keys := write timed.system.keys node resource none } }
  | .act label => timed.act label

/-- An `Acquire` reads the clock for the time it took at most a millisecond before it
reads it again. -/
def Timed.Reads (timed : Timed Node) : Label Node → Prop
  | .call index (.loopEnds elapsed now) =>
      now = timed.clock ∧ timed.starts index + elapsed ≤ now ∧
        now ≤ timed.starts index + elapsed + millisecond
  | _ => True

/-- Managers are as in the machine without time, and no node drops a key before its time. -/
def timedMachine (Node : Type*) [DecidableEq Node] : Machine (Timed Node) (TimedLabel Node) where
  Init timed := (machine Node).Init timed.system
  Allowed timed
    | .tick _ => True
    | .expire node resource => timed.keptUntil node resource ≤ timed.clock
    | .act label => (machine Node).Allowed timed.system label ∧ timed.Reads label
  step := Timed.step

end Steps

/-- The call with that number has returned a lock on the resource which nobody has begun to
release, and its time is not over. -/
def Timed.Holds (timed : Timed Node) (index : ℕ) (resource : String) : Prop :=
  ∃ call lock, timed.system.calls[index]? = some call ∧ call.stage = .held lock ∧
    lock.resource = resource ∧ timed.clock < lock.expiry

/-! ## What a call has counted lasts -/

section Counting

variable [Fintype Node] {timed timed' : Timed Node} {index : ℕ} {call : Call Node}

/-- When the keys of the current attempt of a call may begin to disappear. -/
def Timed.deadline (timed : Timed Node) (index : ℕ) (call : Call Node) : ℤ :=
  timed.starts index + call.manager.cfg.keeps

/-- The nodes that hold the token of a call until its deadline. -/
def Timed.lasting (timed : Timed Node) (index : ℕ) (call : Call Node) : Finset Node :=
  (holding timed.system.keys call.resource call.value).filter fun node =>
    timed.deadline index call ≤ timed.keptUntil node call.resource

theorem Timed.mem_lasting {node : Node} :
    node ∈ timed.lasting index call ↔ timed.system.keys node call.resource = some call.value ∧
      timed.deadline index call ≤ timed.keptUntil node call.resource := by
  rw [lasting, Finset.mem_filter, mem_holding]

variable [DecidableEq Node]

/-- Until its deadline a call has counted at most the nodes behind it on which its token
lasts, and a holder has its token on a majority of the nodes.  The expiry of its lock does
not lie beyond the deadline. -/
def Timed.Counted (timed : Timed Node) (index : ℕ) (call : Call Node) : Prop :=
  timed.starts index ≤ timed.clock ∧
    match call.stage with
    | .setting _ acquired rest =>
        rest.Nodup ∧ (timed.clock < timed.deadline index call →
          acquired ≤ (timed.lasting index call \ rest.toFinset).card)
    | .held lock =>
        lock.expiry ≤ timed.deadline index call ∧ (timed.clock < timed.deadline index call →
          Fintype.card Node / 2 < (timed.lasting index call).card)
    | _ => True

theorem Timed.Counted.mono (hcounted : timed.Counted index call)
    (hstarts : timed'.starts index = timed.starts index) (hclock : timed.clock ≤ timed'.clock)
    (hsubset : timed'.clock < timed'.deadline index call →
      timed.lasting index call ⊆ timed'.lasting index call) : timed'.Counted index call := by
  have hdeadline : timed'.deadline index call = timed.deadline index call := by
    rw [Timed.deadline, Timed.deadline, hstarts]
  unfold Timed.Counted at hcounted ⊢
  rw [hdeadline] at hsubset ⊢
  refine ⟨hstarts.trans_le (hcounted.1.trans hclock), ?_⟩
  have hstage := hcounted.2
  split at hstage
  · refine ⟨hstage.1, fun hlive => (hstage.2 (hclock.trans_lt hlive)).trans ?_⟩
    exact_mod_cast Finset.card_le_card (Finset.sdiff_subset_sdiff (hsubset hlive) subset_rfl)
  · refine ⟨hstage.1, fun hlive => (hstage.2 (hclock.trans_lt hlive)).trans_le ?_⟩
    exact Finset.card_le_card (hsubset hlive)
  · trivial

/-- A node that drops a key in time takes nothing from a call before its deadline. -/
theorem Timed.lasting_expire {node : Node} {resource : String}
    (hdrop : timed.keptUntil node resource ≤ timed.clock)
    (hlive : timed.clock < timed.deadline index call) :
    timed.lasting index call ⊆ (timed.step (.expire node resource)).lasting index call := by
  intro other hother
  obtain ⟨hkey, hkept⟩ := mem_lasting.mp hother
  refine mem_lasting.mpr ⟨(if_neg ?_).trans hkey, hkept⟩
  rintro ⟨rfl, hsame⟩
  rw [hsame] at hkept
  omega

omit [Fintype Node] in
/-- A key that is there keeps its time. -/
theorem Timed.keep_of_holding {other : Call Node} {event : Event} {node : Node}
    {resource value : String} (hkey : timed.system.keys node resource = some value) :
    timed.keep other event node resource = timed.keptUntil node resource := by
  unfold Timed.keep
  split
  · rename_i reply attempt acquired target rest hstage
    apply if_neg
    rintro ⟨⟨-, hset⟩, rfl, rfl⟩
    unfold setNX at hset
    rw [hkey] at hset
    cases hset
  · rfl

omit [DecidableEq Node] in
theorem Timed.lasting_subset (hstarts : timed'.starts index = timed.starts index)
    (hkeys : holding timed.system.keys call.resource call.value ⊆
      holding timed'.system.keys call.resource call.value)
    (hkept : ∀ node, timed.system.keys node call.resource = some call.value →
      timed'.keptUntil node call.resource = timed.keptUntil node call.resource) :
    timed.lasting index call ⊆ timed'.lasting index call := by
  intro node hnode
  obtain ⟨hkey, hlast⟩ := mem_lasting.mp hnode
  refine mem_lasting.mpr ⟨mem_holding.mp (hkeys (mem_holding.mpr hkey)), ?_⟩
  rw [hkept node hkey, Timed.deadline, hstarts]
  exact hlast

/-- The system after an event of a call. -/
def Timed.after (timed : Timed Node) (index : ℕ) (call : Call Node) (event : Event) :
    Timed Node where
  system :=
    { timed.system with
      keys := (call.advance timed.system.keys event).1
      calls := timed.system.calls.set index
        { call with stage := (call.advance timed.system.keys event).2 } }
  clock := timed.clock
  starts := if call.begins event then Function.update timed.starts index timed.clock
    else timed.starts
  keptUntil := timed.keep call event

omit [Fintype Node] in
theorem Timed.act_call (hcall : timed.system.calls[index]? = some call) (event : Event) :
    timed.act (.call index event) = timed.after index call event := by
  simp only [Timed.act, System.step, hcall]
  rfl

/-- An event of a call takes nothing from another one. -/
theorem Timed.Counted.other {other : ℕ} {call' : Call Node} (hcounted : timed.Counted other call')
    (hne : other ≠ index) (hvalue : call'.value ≠ call.value) (event : Event) :
    (timed.after index call event).Counted other call' := by
  have hstarts : (timed.after index call event).starts other = timed.starts other := by
    rw [Timed.after]
    dsimp only
    split
    · exact Function.update_of_ne hne ..
    · rfl
  refine hcounted.mono hstarts le_rfl fun _ => Timed.lasting_subset hstarts ?_ ?_
  · exact holding_advance_subset call timed.system.keys event hvalue
  · exact fun node hkey => Timed.keep_of_holding hkey

/-- A node that takes the token keeps it until the deadline. -/
theorem Timed.mem_lasting_setNX {reply : Reply} {attempt acquired : ℤ} {node : Node}
    {rest : List Node} (hstage : call.stage = .setting attempt acquired (node :: rest))
    (hstart : timed.starts index ≤ timed.clock) (hanswered : reply = .answered)
    (hset : (setNX timed.system.keys node call.resource call.value).1 = true) :
    node ∈ (timed.after index call (.reply reply)).lasting index call := by
  rw [hanswered]
  refine mem_lasting.mpr ⟨?_, ?_⟩
  · rw [Timed.after]
    simp only [Call.advance, hstage]
    exact mem_holding.mp (mem_holding_setNX hset)
  · have hkept : (timed.after index call (.reply .answered)).keptUntil node call.resource =
        timed.clock + call.manager.cfg.keeps := by
      rw [Timed.after]
      simp only [Timed.keep, hstage, hset, Reply.served, and_self, if_true]
    rw [hkept, Timed.deadline]
    exact Int.add_le_add_right hstart _

theorem Timed.Counted.count {reply : Reply} {attempt acquired : ℤ} {node : Node}
    {rest : List Node} (hcounted : timed.Counted index call)
    (hstage : call.stage = .setting attempt acquired (node :: rest)) :
    (timed.after index call (.reply reply)).Counted index
      { call with stage := (call.advance timed.system.keys (.reply reply)).2 } := by
  obtain ⟨hstart, hstep⟩ := hcounted
  rw [hstage] at hstep
  obtain ⟨hfresh, hrest⟩ := List.nodup_cons.mp hstep.1
  have hsubset : timed.lasting index call ⊆
      (timed.after index call (.reply reply)).lasting index call := by
    refine Timed.lasting_subset rfl ?_ fun other hkey => Timed.keep_of_holding hkey
    rw [Timed.after]
    simp only [Call.advance, hstage]
    split
    · exact holding_setNX_subset ..
    · exact subset_rfl
  have hnext : (call.advance timed.system.keys (.reply reply)).2 = .setting attempt
      (if reply = Reply.answered ∧ (setNX timed.system.keys node call.resource call.value).1
        then acquired + 1 else acquired) rest := by
    rw [Call.advance, hstage]
  rw [hnext]
  refine ⟨hstart, hrest, fun hlive => ?_⟩
  have hcount := hstep.2 hlive
  split
  · rename_i hwon
    have hmem := Timed.mem_lasting_setNX hstage hstart hwon.1 hwon.2
    have hmore := card_sdiff_cons_lt hsubset hmem hfresh
    exact (Int.add_le_add_right hcount 1).trans (by exact_mod_cast hmore)
  · exact hcount.trans (by exact_mod_cast card_sdiff_cons_le hsubset node rest)

theorem Timed.Counted.win {elapsed now attempt acquired : ℤ}
    (hcounted : timed.Counted index call) (hstage : call.stage = .setting attempt acquired [])
    (hmajority : call.Majority) (hreads : timed.Reads (.call index (.loopEnds elapsed now))) :
    (timed.after index call (.loopEnds elapsed now)).Counted index
      { call with stage := (call.advance timed.system.keys (.loopEnds elapsed now)).2 } := by
  obtain ⟨hstart, hstep⟩ := hcounted
  rw [hstage] at hstep
  have hsame : (timed.after index call (.loopEnds elapsed now)).lasting index call =
      timed.lasting index call := by
    have hkeys : (call.advance timed.system.keys (.loopEnds elapsed now)).1 =
        timed.system.keys := by
      rw [Call.advance, hstage]
    unfold Timed.lasting Timed.after
    dsimp only
    rw [hkeys]
    rfl
  have hnext : (call.advance timed.system.keys (.loopEnds elapsed now)).2 =
      if call.manager.cfg.quorum ≤ acquired ∧ 0 < call.manager.cfg.validity elapsed then
        .held ⟨call.resource, call.value, now + call.manager.cfg.validity elapsed⟩
      else .clearing attempt call.manager.clients := by
    rw [Call.advance, hstage]
  rw [hnext]
  split
  · rename_i hwon
    refine ⟨hstart, ?_, fun hlive => ?_⟩
    · have hvalidity := call.manager.cfg.validity_eq elapsed
      have hkeeps := call.manager.cfg.validity_lt_keeps
      have hread := hreads.2.2
      change now + call.manager.cfg.validity elapsed ≤
        timed.starts index + call.manager.cfg.keeps
      omega
    · have hcount := hstep.2 hlive
      have hquorum := hmajority.2
      rw [List.toFinset_nil, Finset.sdiff_empty] at hcount
      change Fintype.card Node / 2 <
        ((timed.after index call (.loopEnds elapsed now)).lasting index call).card
      rw [hsame]
      omega
  · exact ⟨hstart, trivial⟩

/-- An event the call does not react to. -/
theorem Timed.Counted.unmoved {event : Event} (hcounted : timed.Counted index call)
    (hadvance : call.advance timed.system.keys event = (timed.system.keys, call.stage))
    (hbegins : call.begins event = false) :
    (timed.after index call event).Counted index
      { call with stage := (call.advance timed.system.keys event).2 } := by
  have hstarts : (timed.after index call event).starts index = timed.starts index := by
    rw [Timed.after]
    dsimp only
    rw [hbegins]
    rfl
  rw [hadvance]
  refine hcounted.mono hstarts le_rfl fun _ => Timed.lasting_subset hstarts ?_ ?_
  · rw [Timed.after]
    dsimp only
    rw [hadvance]
  · exact fun node hkey => Timed.keep_of_holding hkey

/-- What a call has counted lasts through its own events. -/
theorem Timed.Counted.own {event : Event} (hcounted : timed.Counted index call)
    (hmajority : call.Majority) (hreads : timed.Reads (.call index event)) :
    (timed.after index call event).Counted index
      { call with stage := (call.advance timed.system.keys event).2 } := by
  cases event with
  | reply reply =>
      rcases hstage : call.stage with ⟨attempt, acquired, _ | ⟨node, rest⟩⟩ |
        ⟨attempt, _ | ⟨node, rest⟩⟩ | attempt | lock | lock | err
      · exact hcounted.unmoved (by rw [Call.advance, hstage]) rfl
      · exact hcounted.count hstage
      · exact hcounted.unmoved (by rw [Call.advance, hstage]) rfl
      · rw [Call.advance, hstage]
        exact ⟨hcounted.1, trivial⟩
      all_goals exact hcounted.unmoved (by rw [Call.advance, hstage]) rfl
  | loopEnds elapsed now =>
      rcases hstage : call.stage with ⟨attempt, acquired, _ | ⟨node, rest⟩⟩ |
        ⟨attempt, _ | ⟨node, rest⟩⟩ | attempt | lock | lock | err
      · exact hcounted.win hstage hmajority hreads
      · exact hcounted.unmoved (by rw [Call.advance, hstage]) rfl
      · rw [Call.advance, hstage]
        dsimp only
        split <;> exact ⟨hcounted.1, trivial⟩
      all_goals exact hcounted.unmoved (by rw [Call.advance, hstage]) rfl
  | retryDelay =>
      by_cases hwaiting : ∃ attempt, call.stage = .waiting attempt
      · obtain ⟨attempt, hstage⟩ := hwaiting
        have hstarts : (timed.after index call .retryDelay).starts index = timed.clock := by
          simp [Timed.after, Call.begins, hstage]
        have hnext : (call.advance timed.system.keys .retryDelay).2 =
            .setting attempt 0 call.manager.clients := by
          rw [Call.advance, hstage]
        rw [hnext]
        exact ⟨hstarts.le, hmajority.1, fun _ => Int.natCast_nonneg _⟩
      · rcases hstage : call.stage with _ | _ | attempt | _ | _ | _
        case waiting => exact absurd ⟨attempt, hstage⟩ hwaiting
        all_goals
          exact hcounted.unmoved (by rw [Call.advance, hstage]) (by rw [Call.begins, hstage])
  | contextDone cause =>
      rcases hstage : call.stage with _ | _ | attempt | _ | _ | _
      case waiting =>
        rw [Call.advance, hstage]
        exact ⟨hcounted.1, trivial⟩
      all_goals exact hcounted.unmoved (by rw [Call.advance, hstage]) rfl

/-! ## The invariant -/

structure TimedInv (timed : Timed Node) : Prop where
  owned : Owned timed.system
  counted : ∀ {index : ℕ} {call : Call Node}, timed.system.calls[index]? = some call →
    timed.Counted index call

theorem TimedInv.tick (hinv : TimedInv timed) (duration : ℕ) :
    TimedInv (timed.step (.tick duration)) := by
  refine ⟨hinv.owned, fun {index call} hcall => ?_⟩
  have hclock : timed.clock ≤ timed.clock + duration := by omega
  exact (hinv.counted hcall).mono rfl hclock fun _ => subset_rfl

theorem TimedInv.expire (hinv : TimedInv timed) {node : Node} {resource : String}
    (hdrop : timed.keptUntil node resource ≤ timed.clock) :
    TimedInv (timed.step (.expire node resource)) := by
  refine ⟨{ hinv.owned with }, ?_⟩
  intro index call hcall
  exact (hinv.counted hcall).mono rfl le_rfl fun hlive => Timed.lasting_expire hdrop hlive

theorem TimedInv.event (hinv : TimedInv timed) {index : ℕ} {event : Event}
    (hallowed : (timedMachine Node).Allowed timed (.act (.call index event))) :
    TimedInv (timed.step (.act (.call index event))) := by
  rcases hcall : timed.system.calls[index]? with _ | call
  · have hsame : timed.act (.call index event) = timed := by
      simp only [Timed.act, System.step, hcall]
    rw [Timed.step, hsame]
    exact hinv
  · have howned := hinv.owned.step hallowed.1
    have hsystem : timed.system.step (.call index event) =
        (timed.after index call event).system := by
      simp only [System.step, hcall]
      rfl
    rw [Timed.step, Timed.act_call hcall]
    refine ⟨hsystem ▸ howned, ?_⟩
    intro other call' hcall'
    rcases party_of_set hcall' with ⟨rfl, rfl⟩ | ⟨hne, hother⟩
    · exact (hinv.counted hcall).own (hinv.owned.majority hcall) hallowed.2
    · refine (hinv.counted hother).other hne ?_ event
      exact fun hsame => hne (hinv.owned.values hother hcall hsame)

theorem TimedInv.acquire (hinv : TimedInv timed) {clients : List Node} {cfg : Config}
    {resource : String} {random : List UInt8}
    (hallowed : (machine Node).Allowed timed.system (.acquire clients cfg resource random)) :
    TimedInv (timed.step (.act (.acquire clients cfg resource random))) := by
  refine ⟨hinv.owned.step hallowed, ?_⟩
  intro index call hcall
  rcases party_of_join hcall with hold | ⟨rfl, rfl⟩
  · have hne : index ≠ timed.system.calls.length :=
      (List.getElem?_eq_some_iff.mp hold).1.ne
    exact (hinv.counted hold).mono (Function.update_of_ne hne ..) le_rfl fun _ =>
      Timed.lasting_subset (Function.update_of_ne hne ..) subset_rfl fun _ _ => rfl
  · have hstarts : (timed.step (.act (.acquire clients cfg resource random))).starts
        timed.system.calls.length = timed.clock := Function.update_self ..
    exact ⟨hstarts.le, hallowed.1, fun _ => Int.natCast_nonneg _⟩

theorem TimedInv.release (hinv : TimedInv timed) {index : ℕ} {clients : List Node}
    (hallowed : (machine Node).Allowed timed.system (.release index clients)) :
    TimedInv (timed.step (.act (.release index clients))) := by
  refine ⟨hinv.owned.step hallowed, ?_⟩
  rw [Timed.step, Timed.act, System.step]
  dsimp only
  split
  · exact hinv.counted
  · rename_i call hcall
    split
    · exact hinv.counted
    · rename_i lock hlock
      intro other call' hcall'
      rcases party_of_set hcall' with ⟨rfl, rfl⟩ | ⟨-, hother⟩
      · exact ⟨(hinv.counted hcall).1, trivial⟩
      · exact (hinv.counted hother).mono rfl le_rfl fun _ => subset_rfl

theorem TimedInv.request (hinv : TimedInv timed) {index : ℕ} {reply : Reply}
    (hallowed : (machine Node).Allowed timed.system (.request index reply)) :
    TimedInv (timed.step (.act (.request index reply))) := by
  refine ⟨hinv.owned.step hallowed, ?_⟩
  rw [Timed.step, Timed.act, System.step]
  dsimp only
  split
  · exact hinv.counted
  · rename_i release hrelease
    intro other call hcall
    by_cases hsame : call.value = release.lock.value
    · -- A call that releases counts nothing any more.
      refine ⟨(hinv.counted hcall).1, ?_⟩
      rw [hinv.owned.releasing hcall (List.mem_of_getElem? hrelease) hsame]
      trivial
    · refine (hinv.counted hcall).mono rfl le_rfl fun _ =>
        Timed.lasting_subset rfl ?_ fun _ _ => rfl
      exact holding_release_subset release timed.system.keys reply hsame

theorem timedInv_of_reachable (hreach : (timedMachine Node).Reachable timed) : TimedInv timed := by
  apply hreach.invariant TimedInv
  · intro initial hinit
    have hnone : ∀ index : ℕ, initial.system.calls[index]? = none := by
      rw [hinit.1]
      exact fun _ => rfl
    refine ⟨.init hinit.1 hinit.2, fun {index call} hcall => ?_⟩
    cases (hnone index).symm.trans hcall
  · intro before label _ hallowed hinv
    cases label with
    | tick duration => exact hinv.tick duration
    | expire node resource => exact hinv.expire hallowed
    | act label =>
        cases label with
        | acquire clients cfg resource random => exact hinv.acquire hallowed.1
        | call index event => exact hinv.event hallowed
        | release index clients => exact hinv.release hallowed.1
        | request index reply => exact hinv.request hallowed.1

/-- Two locks on a resource that are both within their expiry are the same: until then the
keys of their calls last on a majority of the nodes each. -/
theorem unexpired_holders_eq (hreach : (timedMachine Node).Reachable timed)
    {first second : ℕ} {resource : String} (hfirst : timed.Holds first resource)
    (hsecond : timed.Holds second resource) : first = second := by
  have hinv := timedInv_of_reachable hreach
  have hheld : ∀ {index : ℕ}, timed.Holds index resource →
      ∃ call, timed.system.calls[index]? = some call ∧ Fintype.card Node / 2 <
        (holding timed.system.keys resource call.value).card := by
    rintro index ⟨call, lock, hcall, hstage, hresource, hvalid⟩
    have hown := hinv.owned.lock hcall (congrArg Stage.lock hstage)
    have hcounted := (hinv.counted hcall).2
    rw [hstage] at hcounted
    refine ⟨call, hcall, (hcounted.2 (hvalid.trans_le hcounted.1)).trans_le ?_⟩
    rw [← hresource, hown.1]
    exact Finset.card_le_card (Finset.filter_subset ..)
  obtain ⟨call, hcall, hmine⟩ := hheld hfirst
  obtain ⟨call', hcall', hyours⟩ := hheld hsecond
  exact hinv.owned.eq_of_majorities hcall hcall' hmine hyours

end Counting

/-- One call takes the lock and never releases it; once the nodes have dropped its keys,
another call takes it. -/
def handover {Node : Type*} (nodes : List Node) : List (TimedLabel Node) :=
  let cfg : Config := ⟨0, 0, 0, 0, .finite 0⟩
  let take (index : ℕ) (now : ℤ) : List (TimedLabel Node) :=
    [.act (.call index (.reply .answered)), .act (.call index (.reply .answered)),
      .act (.call index (.reply .answered)), .act (.call index (.loopEnds 0 now))]
  .act (.acquire nodes cfg "job" (List.replicate 16 1)) :: take 0 0 ++
    .tick 9900000000 :: nodes.map (.expire · "job") ++
    .act (.acquire nodes cfg "job" (List.replicate 16 2)) :: take 1 9900000000

def handedOver : Timed (Fin 3) :=
  (timedMachine (Fin 3)).run ⟨⟨fun _ _ => none, [], []⟩, 0, fun _ => 0, fun _ _ => 0⟩
    (handover (List.finRange 3))

theorem reachable_handedOver : (timedMachine (Fin 3)).Reachable handedOver := by
  refine Machine.Reachable.run (.start ⟨rfl, rfl⟩) ?_
  refine ⟨⟨⟨by decide, by decide, by decide, by decide, by decide⟩, trivial⟩,
    ⟨trivial, trivial⟩, ⟨trivial, trivial⟩, ⟨trivial, trivial⟩, ⟨trivial, ?_⟩,
    trivial, ?_, ?_, ?_, ⟨⟨by decide, by decide, by decide, by decide, ?_⟩, trivial⟩,
    ⟨trivial, trivial⟩, ⟨trivial, trivial⟩, ⟨trivial, trivial⟩, ⟨trivial, ?_⟩, trivial⟩
  · exact ⟨by decide +kernel, by decide +kernel, by decide +kernel⟩
  · change Timed.keptUntil _ _ _ ≤ Timed.clock _
    decide +kernel
  · change Timed.keptUntil _ _ _ ≤ Timed.clock _
    decide +kernel
  · change Timed.keptUntil _ _ _ ≤ Timed.clock _
    decide +kernel
  · decide +kernel
  · exact ⟨by decide +kernel, by decide +kernel, by decide +kernel⟩

theorem unexpired_holders_eq_handedOver :
    handedOver.Holds 1 "job" ∧ ¬ handedOver.Holds 0 "job" := by
  have hstage : handedOver.system.calls[1]?.map Call.stage =
      some (.held ⟨"job", generateToken (List.replicate 16 2), 19798000000⟩) := by
    decide +kernel
  obtain ⟨call, hcall, hheld⟩ := Option.map_eq_some_iff.mp hstage
  have hholds : handedOver.Holds 1 "job" := ⟨call, _, hcall, hheld, rfl, by decide +kernel⟩
  refine ⟨hholds, ?_⟩
  intro hother
  exact absurd (unexpired_holders_eq reachable_handedOver hholds hother) (by decide)

end Conduit.Redlock
