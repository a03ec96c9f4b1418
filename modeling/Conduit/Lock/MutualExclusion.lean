import Conduit.Core.Transition
import Conduit.Lock.Redlock

/-!
# Mutual exclusion of the Redlock manager

Any number of `Acquire` and `Release` calls run against the same nodes, one request at a
time in any order.  Keys do not expire and nodes do not lose them.  A call that counts a
node has its token there, and nothing but its own script takes the token away, so a holder
has a majority of the nodes for as long as it holds the lock.
-/

namespace Conduit.Redlock

open Transition

variable {Node : Type*}

/-! ## The system -/

structure System (Node : Type*) where
  keys : Keys Node
  calls : List (Call Node)
  releases : List (Release Node)

inductive Label (Node : Type*)
  | acquire (clients : List Node) (cfg : Config) (resource : String) (random : List UInt8)
  | call (index : ℕ) (event : Event)
  /-- Somebody releases the lock that a call returned, perhaps not for the first time. -/
  | release (index : ℕ) (clients : List Node)
  | request (index : ℕ) (reply : Reply)

/-- The lock a call has returned. -/
def Stage.lock : Stage Node → Option Lock
  | .held lock | .releasing lock => some lock
  | _ => none

def System.step [DecidableEq Node] (system : System Node) : Label Node → System Node
  | .acquire clients cfg resource random =>
      { system with
        calls := system.calls ++
          [.start (newManager clients cfg) resource (generateToken random)] }
  | .call index event =>
      match system.calls[index]? with
      | none => system
      | some call =>
          let result := call.advance system.keys event
          { system with
            keys := result.1
            calls := system.calls.set index { call with stage := result.2 } }
  | .release index clients =>
      match system.calls[index]? with
      | none => system
      | some call =>
          match call.stage.lock with
          | none => system
          | some lock =>
              { system with
                calls := system.calls.set index { call with stage := .releasing lock }
                releases := system.releases ++ [⟨lock, clients, []⟩] }
  | .request index reply =>
      match system.releases[index]? with
      | none => system
      | some release =>
          let result := release.advance system.keys reply
          { system with
            keys := result.1
            releases := system.releases.set index result.2 }

/-- Every manager talks to all nodes, each of them once, with the default quorum; no token
is drawn twice. -/
def machine (Node : Type*) [DecidableEq Node] : Machine (System Node) (Label Node) where
  Init system := system.calls = [] ∧ system.releases = []
  Allowed system label :=
    match label with
    | .acquire clients cfg _ random =>
        clients.Nodup ∧ (∀ node, node ∈ clients) ∧ cfg.quorum ≤ 0 ∧ random.length = 16 ∧
          ∀ call ∈ system.calls, call.value ≠ generateToken random
    | _ => True
  step := System.step

/-- The call with that number has returned a lock on the resource that nobody has begun to
release. -/
def System.Holds (system : System Node) (index : ℕ) (resource : String) : Prop :=
  ∃ call lock, system.calls[index]? = some call ∧ call.stage = .held lock ∧
    lock.resource = resource

/-! ## Whose token is whose

This part does not depend on the keys. -/

section Ownership

variable [Fintype Node] [DecidableEq Node]

/-- The manager of a call was built with the default quorum. -/
def Call.Majority (call : Call Node) : Prop :=
  call.manager.clients.Nodup ∧ call.manager.cfg.quorum = Fintype.card Node / 2 + 1

/-- A manager that talks to all nodes has the majority of them for its default quorum. -/
theorem majority_start {clients : List Node} {cfg : Config} (hnodup : clients.Nodup)
    (hall : ∀ node, node ∈ clients) (hquorum : cfg.quorum ≤ 0) (resource value : String) :
    (Call.start (newManager clients cfg) resource value).Majority := by
  have huniv : clients.toFinset = Finset.univ := by
    ext node
    simp [hall node]
  have hlength : clients.length = Fintype.card Node := by
    rw [← List.toFinset_card_of_nodup hnodup, huniv, Finset.card_univ]
  refine ⟨hnodup, ?_⟩
  rw [Call.start, newManager, if_pos hquorum, hlength]

omit [Fintype Node] in
theorem Release.lock_advance (release : Release Node) (keys : Keys Node) (reply : Reply) :
    (release.advance keys reply).2.lock = release.lock := by
  unfold Release.advance
  split <;> rfl

omit [Fintype Node] in
/-- A lock that is being released stays so. -/
theorem Call.advance_releasing {call : Call Node} {lock : Lock}
    (hstage : call.stage = .releasing lock) (keys : Keys Node) (event : Event) :
    (call.advance keys event).2 = .releasing lock := by
  unfold Call.advance
  rw [hstage]
  cases event <;> rfl

/-- Tokens belong to one call each, calls return locks of their own, and only locks that a
call has let go are being released. -/
structure Owned (system : System Node) : Prop where
  values : ∀ {index other : ℕ} {call call' : Call Node},
    system.calls[index]? = some call → system.calls[other]? = some call' →
      call.value = call'.value → index = other
  majority : ∀ {index : ℕ} {call : Call Node},
    system.calls[index]? = some call → call.Majority
  lock : ∀ {index : ℕ} {call : Call Node} {lock : Lock}, system.calls[index]? = some call →
    call.stage.lock = some lock → lock.resource = call.resource ∧ lock.value = call.value
  released : ∀ release ∈ system.releases, ∃ (index : ℕ) (call : Call Node),
    system.calls[index]? = some call ∧ call.stage = .releasing release.lock ∧
      call.value = release.lock.value

omit [DecidableEq Node] in
/-- The call whose lock is being released has let it go. -/
theorem Owned.releasing {system : System Node} (howned : Owned system) {index : ℕ}
    {call : Call Node} (hcall : system.calls[index]? = some call) {release : Release Node}
    (hrelease : release ∈ system.releases) (hsame : call.value = release.lock.value) :
    call.stage = .releasing release.lock := by
  obtain ⟨owner, holder, hholder, hreleasing, hvalue⟩ := howned.released release hrelease
  rw [howned.values hcall hholder (hsame.trans hvalue.symm), hholder] at hcall
  exact Option.some.inj hcall ▸ hreleasing

omit [DecidableEq Node] in
/-- A call moves to another stage. -/
theorem Owned.move {system : System Node} (howned : Owned system) {index : ℕ}
    {call : Call Node} (hcall : system.calls[index]? = some call) (keys : Keys Node)
    {stage : Stage Node}
    (hlock : ∀ lock, stage.lock = some lock →
      lock.resource = call.resource ∧ lock.value = call.value)
    (hreleasing : ∀ lock, call.stage = .releasing lock → stage = .releasing lock)
    {releases : List (Release Node)}
    (hreleases : ∀ release ∈ releases, release ∈ system.releases ∨
      stage = .releasing release.lock ∧ call.value = release.lock.value) :
    Owned ⟨keys, system.calls.set index { call with stage }, releases⟩ := by
  have hlength : index < system.calls.length := (List.getElem?_eq_some_iff.mp hcall).1
  have hmoved : (system.calls.set index { call with stage })[index]? =
      some { call with stage } := List.getElem?_set_self hlength
  have hbefore : ∀ {other : ℕ} {call' : Call Node},
      (system.calls.set index { call with stage })[other]? = some call' →
        ∃ before, system.calls[other]? = some before ∧ before.value = call'.value ∧
          (before.Majority → call'.Majority) := by
    intro other call' hcall'
    rcases party_of_set hcall' with ⟨rfl, rfl⟩ | ⟨-, hother⟩
    · exact ⟨call, hcall, rfl, id⟩
    · exact ⟨call', hother, rfl, id⟩
  constructor
  · intro first second call₁ call₂ hfirst hsecond hsame
    obtain ⟨before₁, hbefore₁, hvalue₁, -⟩ := hbefore hfirst
    obtain ⟨before₂, hbefore₂, hvalue₂, -⟩ := hbefore hsecond
    exact howned.values hbefore₁ hbefore₂ (by rw [hvalue₁, hvalue₂, hsame])
  · intro other call' hcall'
    obtain ⟨before, hmem, -, hmajority⟩ := hbefore hcall'
    exact hmajority (howned.majority hmem)
  · intro other call' lock hcall' hstage
    rcases party_of_set hcall' with ⟨-, rfl⟩ | ⟨-, hother⟩
    · exact hlock lock hstage
    · exact howned.lock hother hstage
  · intro release hrelease
    rcases hreleases release hrelease with hold | hnew
    · obtain ⟨other, call', hcall', hstage, hvalue⟩ := howned.released release hold
      by_cases hsame : other = index
      · rw [hsame, hcall] at hcall'
        cases hcall'
        exact ⟨index, { call with stage }, hmoved, hreleasing _ hstage, hvalue⟩
      · exact ⟨other, call', (List.getElem?_set_ne (Ne.symm hsame)).trans hcall', hstage, hvalue⟩
    · exact ⟨index, { call with stage }, hmoved, hnew⟩

omit [Fintype Node] in
/-- A call returns a lock on its own resource, with its own token. -/
theorem Call.lock_advance {call : Call Node} {keys : Keys Node} {event : Event} {lock : Lock}
    (hkeeps : ∀ lock, call.stage.lock = some lock →
      lock.resource = call.resource ∧ lock.value = call.value)
    (hlock : (call.advance keys event).2.lock = some lock) :
    lock.resource = call.resource ∧ lock.value = call.value := by
  unfold Call.advance at hlock
  split at hlock <;> split at hlock
  · cases hlock
  · cases hlock
  · exact hkeeps lock hlock
  · dsimp only at hlock
    split at hlock
    · cases hlock
      exact ⟨rfl, rfl⟩
    · cases hlock
  · dsimp only at hlock
    split at hlock <;> cases hlock
  · exact hkeeps lock hlock
  · cases hlock
  · exact hkeeps lock hlock
  · cases hlock
  · exact hkeeps lock hlock

theorem Owned.acquire {system : System Node} (howned : Owned system) {clients : List Node}
    {cfg : Config} {resource : String} {random : List UInt8}
    (hallowed : (machine Node).Allowed system (.acquire clients cfg resource random)) :
    Owned (system.step (.acquire clients cfg resource random)) := by
  obtain ⟨hnodup, hall, hquorum, -, hfresh⟩ := hallowed
  constructor
  · intro index other call call' hcall hcall' hsame
    rcases party_of_join hcall with hcall | ⟨rfl, rfl⟩ <;>
      rcases party_of_join hcall' with hcall' | ⟨rfl, rfl⟩
    · exact howned.values hcall hcall' hsame
    · exact absurd hsame (hfresh call (List.mem_of_getElem? hcall))
    · exact absurd hsame.symm (hfresh call' (List.mem_of_getElem? hcall'))
    · rfl
  · intro index call hcall
    rcases party_of_join hcall with hcall | ⟨-, rfl⟩
    · exact howned.majority hcall
    · exact majority_start hnodup hall hquorum resource _
  · intro index call lock hcall hlock
    rcases party_of_join hcall with hcall | ⟨-, rfl⟩
    · exact howned.lock hcall hlock
    · cases hlock
  · intro release hrelease
    obtain ⟨index, call, hcall, hreleasing⟩ := howned.released release hrelease
    exact ⟨index, call, party_join hcall _, hreleasing⟩

theorem Owned.step {system : System Node} (howned : Owned system) {label : Label Node}
    (hallowed : (machine Node).Allowed system label) : Owned (system.step label) := by
  cases label with
  | acquire clients cfg resource random => exact howned.acquire hallowed
  | call index event =>
      rw [System.step]
      split
      · exact howned
      · rename_i call hcall
        refine howned.move hcall _ ?_ ?_ fun release hrelease => .inl hrelease
        · exact fun lock => Call.lock_advance fun lock hlock => howned.lock hcall hlock
        · exact fun lock hstage => Call.advance_releasing hstage system.keys event
  | release index clients =>
      rw [System.step]
      split
      · exact howned
      · rename_i call hcall
        split
        · exact howned
        · rename_i lock hlock
          have hown := howned.lock hcall hlock
          refine howned.move hcall _ ?_ ?_ ?_
          · intro lock' hlock'
            cases hlock'
            exact hown
          · intro lock' hstage
            rw [hstage] at hlock
            exact congrArg Stage.releasing (Option.some.inj hlock).symm
          · intro release hrelease
            rcases List.mem_append.mp hrelease with hold | hnew
            · exact .inl hold
            · rw [List.mem_singleton.mp hnew]
              exact .inr ⟨rfl, hown.2.symm⟩
  | request index reply =>
      rw [System.step]
      split
      · exact howned
      · rename_i release hrelease
        refine ⟨howned.values, howned.majority, howned.lock, ?_⟩
        intro release' hrelease'
        rcases List.mem_or_eq_of_mem_set hrelease' with hold | rfl
        · exact howned.released release' hold
        · rw [Release.lock_advance]
          exact howned.released release (List.mem_of_getElem? hrelease)

end Ownership

/-! ## What a call counts is there -/

section Counting

variable [Fintype Node] [DecidableEq Node]

/-- A call has counted at most the nodes behind it that hold its token, and a holder has
its token on a majority of the nodes. -/
def Call.Counted (call : Call Node) (keys : Keys Node) : Prop :=
  match call.stage with
  | .setting _ acquired rest =>
      rest.Nodup ∧
        acquired ≤ (holding keys call.resource call.value \ rest.toFinset).card
  | .held _ => Fintype.card Node / 2 < (holding keys call.resource call.value).card
  | .releasing .. | .clearing .. | .waiting .. | .failed .. => True

theorem Call.Counted.mono {call : Call Node} {keys keys' : Keys Node}
    (hcounted : call.Counted keys)
    (hsubset : holding keys call.resource call.value ⊆
      holding keys' call.resource call.value) : call.Counted keys' := by
  unfold Counted at hcounted ⊢
  split at hcounted
  · refine ⟨hcounted.1, hcounted.2.trans ?_⟩
    exact_mod_cast Finset.card_le_card (Finset.sdiff_subset_sdiff hsubset subset_rfl)
  · exact hcounted.trans_le (Finset.card_le_card hsubset)
  all_goals trivial

/-- One step of a call leaves the tokens of the others where they are. -/
theorem holding_advance_subset (call : Call Node) (keys : Keys Node)
    (event : Event) {resource value : String} (hne : value ≠ call.value) :
    holding keys resource value ⊆ holding (call.advance keys event).1 resource value := by
  unfold Call.advance
  split <;> split
  · dsimp only
    split
    · exact holding_setNX_subset ..
    · exact subset_rfl
  · dsimp only
    split
    · exact holding_compareAndDelete_subset _ hne
    · exact subset_rfl
  all_goals exact subset_rfl

theorem holding_release_subset (release : Release Node) (keys : Keys Node) (reply : Reply)
    {resource value : String} (hne : value ≠ release.lock.value) :
    holding keys resource value ⊆
      holding (release.advance keys reply).1 resource value := by
  unfold Release.advance
  split
  · exact subset_rfl
  · dsimp only
    split
    · exact holding_compareAndDelete_subset _ hne
    · exact subset_rfl

omit [Fintype Node] in
theorem card_sdiff_cons_le {before after : Finset Node} (hsubset : before ⊆ after) (node : Node)
    (rest : List Node) :
    (before \ (node :: rest).toFinset).card ≤ (after \ rest.toFinset).card := by
  apply Finset.card_le_card
  apply Finset.sdiff_subset_sdiff hsubset
  rw [List.toFinset_cons]
  exact Finset.subset_insert ..

omit [Fintype Node] in
/-- Counting one more node. -/
theorem card_sdiff_cons_lt {before after : Finset Node} (hsubset : before ⊆ after) {node : Node}
    {rest : List Node} (hnode : node ∈ after) (hfresh : node ∉ rest) :
    (before \ (node :: rest).toFinset).card < (after \ rest.toFinset).card := by
  apply Finset.card_lt_card
  refine (Finset.ssubset_iff_of_subset ?_).mpr ⟨node, ?_, ?_⟩
  · apply Finset.sdiff_subset_sdiff hsubset
    rw [List.toFinset_cons]
    exact Finset.subset_insert ..
  · rw [Finset.mem_sdiff, List.mem_toFinset]
    exact ⟨hnode, hfresh⟩
  · simp

theorem Call.Counted.count {call : Call Node} {keys : Keys Node} {attempt acquired : ℤ}
    {node : Node} {rest : List Node} (hcounted : call.Counted keys)
    (hstage : call.stage = .setting attempt acquired (node :: rest)) (reply : Reply) :
    { call with
      stage := .setting attempt
        (if reply = Reply.answered ∧ (setNX keys node call.resource call.value).1 then
          acquired + 1 else acquired) rest }.Counted
      (if reply.served then (setNX keys node call.resource call.value).2
        else keys) := by
  rw [Counted, hstage] at hcounted
  obtain ⟨hnodup, hcount⟩ := hcounted
  obtain ⟨hfresh, hrest⟩ := List.nodup_cons.mp hnodup
  have hsubset : holding keys call.resource call.value ⊆
      holding (if reply.served then (setNX keys node call.resource call.value).2 else keys)
        call.resource call.value := by
    split
    · exact holding_setNX_subset ..
    · exact subset_rfl
  refine ⟨hrest, ?_⟩
  dsimp only
  split
  · rename_i hanswered
    rw [hanswered.1] at hsubset ⊢
    have hmore := card_sdiff_cons_lt hsubset (mem_holding_setNX hanswered.2) hfresh
    exact (Int.add_le_add_right hcount 1).trans (by exact_mod_cast hmore)
  · exact hcount.trans (by exact_mod_cast card_sdiff_cons_le hsubset node rest)

/-- A call that has asked every node and counted a quorum holds a majority. -/
theorem Call.Counted.win {call : Call Node} {keys : Keys Node} {attempt acquired : ℤ}
    (hcounted : call.Counted keys) (hstage : call.stage = .setting attempt acquired [])
    (hmajority : call.Majority) (hwon : call.manager.cfg.quorum ≤ acquired) (expiry : ℤ) :
    { call with stage := .held ⟨call.resource, call.value, expiry⟩ }.Counted keys := by
  rw [Counted, hstage] at hcounted
  have hcount := hcounted.2
  rw [List.toFinset_nil, Finset.sdiff_empty] at hcount
  have hquorum := hmajority.2
  change Fintype.card Node / 2 < (holding keys call.resource call.value).card
  omega

theorem Call.Counted.advance {call : Call Node} {keys : Keys Node}
    (hcounted : call.Counted keys) (hmajority : call.Majority) (event : Event) :
    { call with stage := (call.advance keys event).2 }.Counted
      (call.advance keys event).1 := by
  unfold Call.advance
  split <;> split
  · rename_i hstage
    exact hcounted.count hstage _
  · trivial
  · exact hcounted
  · rename_i hstage
    dsimp only
    split
    · rename_i hwon
      exact hcounted.win hstage hmajority hwon.1 _
    · trivial
  · dsimp only
    split <;> trivial
  · exact hcounted
  · exact ⟨hmajority.1, Int.natCast_nonneg _⟩
  · exact hcounted
  · trivial
  · exact hcounted

/-! ## The invariant -/

structure Inv (system : System Node) : Prop where
  owned : Owned system
  counted : ∀ {index : ℕ} {call : Call Node},
    system.calls[index]? = some call → call.Counted system.keys

theorem Inv.acquire {system : System Node} (hinv : Inv system) {clients : List Node}
    {cfg : Config} {resource : String} {random : List UInt8}
    (hallowed : (machine Node).Allowed system (.acquire clients cfg resource random)) :
    Inv (system.step (.acquire clients cfg resource random)) := by
  refine ⟨hinv.owned.step hallowed, fun {index call} hcall => ?_⟩
  rcases party_of_join hcall with hcall | ⟨-, rfl⟩
  · exact hinv.counted hcall
  · exact ⟨hallowed.1, Int.natCast_nonneg _⟩

theorem Inv.call {system : System Node} (hinv : Inv system) (index : ℕ) (event : Event) :
    Inv (system.step (.call index event)) := by
  refine ⟨hinv.owned.step trivial, ?_⟩
  rw [System.step]
  split
  · exact hinv.counted
  · rename_i call hcall
    intro other call' hcall'
    rcases party_of_set hcall' with ⟨-, rfl⟩ | ⟨hne, hother⟩
    · exact (hinv.counted hcall).advance (hinv.owned.majority hcall) event
    · apply (hinv.counted hother).mono
      apply holding_advance_subset
      exact fun hsame => hne (hinv.owned.values hother hcall hsame)

theorem Inv.release {system : System Node} (hinv : Inv system) (index : ℕ)
    (clients : List Node) : Inv (system.step (.release index clients)) := by
  refine ⟨hinv.owned.step trivial, ?_⟩
  rw [System.step]
  split
  · exact hinv.counted
  · rename_i call hcall
    split
    · exact hinv.counted
    · intro other call' hcall'
      rcases party_of_set hcall' with ⟨-, rfl⟩ | ⟨-, hother⟩
      · trivial
      · exact hinv.counted hother

theorem Inv.request {system : System Node} (hinv : Inv system) (index : ℕ)
    (reply : Reply) : Inv (system.step (.request index reply)) := by
  refine ⟨hinv.owned.step trivial, ?_⟩
  rw [System.step]
  split
  · exact hinv.counted
  · rename_i release hrelease
    intro other call hcall
    by_cases hsame : call.value = release.lock.value
    · -- A call that releases counts nothing any more.
      rw [Call.Counted, hinv.owned.releasing hcall (List.mem_of_getElem? hrelease) hsame]
      trivial
    · exact (hinv.counted hcall).mono (holding_release_subset release _ reply hsame)

omit [DecidableEq Node] in
theorem Owned.init {system : System Node} (hcalls : system.calls = [])
    (hreleases : system.releases = []) : Owned system := by
  constructor
  · intro index other call call' hcall
    rw [hcalls] at hcall
    cases hcall
  · intro index call hcall
    rw [hcalls] at hcall
    cases hcall
  · intro index call lock hcall
    rw [hcalls] at hcall
    cases hcall
  · intro release hrelease
    rw [hreleases] at hrelease
    cases hrelease

theorem inv_of_reachable {system : System Node}
    (hreach : (machine Node).Reachable system) : Inv system := by
  apply hreach.invariant Inv
  · intro initial hinit
    refine ⟨.init hinit.1 hinit.2, fun {index call} hcall => ?_⟩
    rw [hinit.1] at hcall
    cases hcall
  · intro before label _ hallowed hinv
    cases label with
    | acquire clients cfg resource random => exact hinv.acquire hallowed
    | call index event => exact hinv.call index event
    | release index clients => exact hinv.release index clients
    | request index reply => exact hinv.request index reply

/-- Two majorities have a node in common, and that node holds one token. -/
theorem Owned.eq_of_majorities {system : System Node} (howned : Owned system) {first second : ℕ}
    {call call' : Call Node} (hcall : system.calls[first]? = some call)
    (hcall' : system.calls[second]? = some call') {resource : String}
    (hmine : Fintype.card Node / 2 < (holding system.keys resource call.value).card)
    (hyours : Fintype.card Node / 2 < (holding system.keys resource call'.value).card) :
    first = second := by
  have hoverlap : (holding system.keys resource call.value ∩
      holding system.keys resource call'.value).Nonempty := by
    apply Finset.inter_nonempty_of_card_lt_card_add_card (Finset.subset_univ _)
      (Finset.subset_univ _)
    rw [Finset.card_univ]
    omega
  obtain ⟨node, hnode⟩ := hoverlap
  obtain ⟨hleft, hright⟩ := Finset.mem_inter.mp hnode
  exact howned.values hcall hcall' (eq_of_mem_holding hleft hright)

theorem holders_eq {system : System Node} (hreach : (machine Node).Reachable system)
    {first second : ℕ} {resource : String} (hfirst : system.Holds first resource)
    (hsecond : system.Holds second resource) : first = second := by
  have hinv := inv_of_reachable hreach
  have hheld : ∀ {index : ℕ}, system.Holds index resource →
      ∃ call, system.calls[index]? = some call ∧
        Fintype.card Node / 2 < (holding system.keys resource call.value).card := by
    rintro index ⟨call, lock, hcall, hstage, hresource⟩
    have hcounted := hinv.counted hcall
    rw [Call.Counted, hstage] at hcounted
    rw [← (hinv.owned.lock hcall (congrArg Stage.lock hstage)).1, hresource] at hcounted
    exact ⟨call, hcall, hcounted⟩
  obtain ⟨call, hcall, hmine⟩ := hheld hfirst
  obtain ⟨call', hcall', hyours⟩ := hheld hsecond
  exact hinv.owned.eq_of_majorities hcall hcall' hmine hyours

end Counting

/-- One call takes all three nodes although the reply of the first is lost, another one
takes none, and the release of what it did not get fails halfway. -/
def contention : List (Label (Fin 3)) :=
  let cfg : Config := ⟨0, 0, 0, 0, .finite 0⟩
  let nodes : List (Fin 3) := [0, 1, 2]
  let lost : Reply := .failed true "i/o timeout"
  [.acquire nodes cfg "job" (List.replicate 16 1),
    .acquire nodes cfg "job" (List.replicate 16 2),
    .call 0 (.reply lost), .call 0 (.reply .answered), .call 1 (.reply .answered),
    .call 0 (.reply .answered), .call 1 (.reply .answered), .call 1 (.reply lost),
    .call 0 (.loopEnds 5 100), .call 1 (.loopEnds 5 101), .call 1 (.reply lost)]

def contended : System (Fin 3) :=
  (machine (Fin 3)).run ⟨fun _ _ => none, [], []⟩ contention

theorem reachable_contended : (machine (Fin 3)).Reachable contended := by
  refine Machine.Reachable.run (.start ⟨rfl, rfl⟩) ?_
  refine ⟨?_, ?_, trivial, trivial, trivial, trivial, trivial, trivial, trivial, trivial,
    trivial, trivial⟩
  · exact ⟨by decide, by decide, by decide, by decide, by decide⟩
  · exact ⟨by decide, by decide, by decide, by decide, by decide +kernel⟩

theorem holders_eq_contended :
    contended.Holds 0 "job" ∧ ¬ contended.Holds 1 "job" := by
  have hstage : contended.calls[0]?.map Call.stage =
      some (.held ⟨"job", generateToken (List.replicate 16 1), 9898000095⟩) := by
    decide +kernel
  obtain ⟨call, hcall, hheld⟩ := Option.map_eq_some_iff.mp hstage
  have hholds : contended.Holds 0 "job" := ⟨call, _, hcall, hheld, rfl⟩
  refine ⟨hholds, ?_⟩
  intro hother
  exact absurd (holders_eq reachable_contended hholds hother) (by decide)

end Conduit.Redlock
