import Conduit.Core.Transition
import Mathlib.Data.List.Basic

/-!
# Waking the claims that wait

A `ClaimJob` request takes the waker's channel, tries to claim a job and, if there is none,
waits for the channel it took to be closed.  `Wake` closes the channel and puts a fresh one
in its place.  Any number of requests and wakes run concurrently; a step below is what one
of them does before another can come between, so the mutex is held from one step to the
next and a channel can be seen closed before it is replaced.

Beside the program's own state the system keeps what each wake announced and, for every
request, how many wakes had happened when it last took the channel and which jobs had been
committed when it last claimed.
-/

namespace Conduit.Waker

open Transition

variable {Job : Type*}

/-! ## The system -/

/-- Where a request stands.  Channels are numbered in the order in which they are made. -/
inductive Stage
  | taking
  | claiming (channel : ℕ)
  | blocked (channel : ℕ)
  | returned
  deriving DecidableEq

structure Loop (Job : Type*) where
  stage : Stage
  /-- The number of wakes that had happened when the request last took the channel. -/
  wakes : ℕ
  /-- The jobs that had been committed when the request last claimed. -/
  seen : List Job

/-- Who is between `Lock` and `Unlock`, and how far. -/
inductive Holder (Job : Type*)
  | reading (index : ℕ)
  | closing (jobs : List Job)
  | swapping

structure System (Job : Type*) where
  mu : Option (Holder Job)
  ch : ℕ
  /-- Every `close` of a channel, the latest first. -/
  closed : List ℕ
  /-- For every wake that has closed its channel, the jobs it announced. -/
  announced : List (List Job)
  committed : List Job
  loops : List (Loop Job)

/-- How `Claim` and the look at the deadline after it can end. -/
inductive Outcome
  | claimed
  | failed
  | expired
  | nothing
  deriving DecidableEq

inductive Label (Job : Type*)
  | commit (job : Job)
  | request
  /-- `C` locks the mutex, then reads the channel and unlocks. -/
  | lock (index : ℕ)
  | take (index : ℕ)
  | claim (index : ℕ) (outcome : Outcome)
  /-- The three cases of the `select`. -/
  | woken (index : ℕ)
  | timer (index : ℕ)
  | contextDone (index : ℕ)
  /-- `Wake` locks the mutex, closes the channel, then swaps it and unlocks. -/
  | wake (jobs : List Job)
  | close
  | swap

/-- A fresh waker, with some jobs in the store and nobody waiting. -/
def newWaker (committed : List Job) : System Job :=
  { mu := none, ch := 0, closed := [], announced := [], committed := committed, loops := [] }

def Loop.start : Loop Job := ⟨.taking, 0, []⟩

def Loop.claim (committed : List Job) (outcome : Outcome) (loop : Loop Job) : Loop Job :=
  match loop.stage with
  | .claiming channel =>
      { loop with
        stage := if outcome = .nothing then .blocked channel else .returned
        seen := committed }
  | _ => loop

namespace System

def step (system : System Job) : Label Job → System Job
  | .commit job => { system with committed := job :: system.committed }
  | .request => { system with loops := system.loops ++ [.start] }
  | .lock index => { system with mu := some (.reading index) }
  | .take index =>
      { system with
        mu := none
        loops := system.loops.modify index fun loop =>
          { loop with stage := .claiming system.ch, wakes := system.announced.length } }
  | .claim index outcome =>
      { system with
        loops := system.loops.modify index (.claim system.committed outcome) }
  | .woken index | .timer index =>
      { system with
        loops := system.loops.modify index fun loop => { loop with stage := .taking } }
  | .contextDone index =>
      { system with
        loops := system.loops.modify index fun loop => { loop with stage := .returned } }
  | .wake jobs => { system with mu := some (.closing jobs) }
  | .close =>
      match system.mu with
      | some (.closing jobs) =>
          { system with
            mu := some .swapping
            closed := system.ch :: system.closed
            announced := system.announced ++ [jobs] }
      | _ => system
  | .swap => { system with mu := none, ch := system.ch + 1 }

/-- The request with that number exists and stands where `Here` says. -/
def LoopAt (system : System Job) (index : ℕ) (Here : Stage → Prop) : Prop :=
  ∃ loop, system.loops[index]? = some loop ∧ Here loop.stage

end System

/-- The mutex is locked when it is free, a closed channel is ready to receive from, and a
job is committed before the wake that announces it. -/
def machine (Job : Type*) : Machine (System Job) (Label Job) where
  Init system := ∃ committed, system = newWaker committed
  Allowed system label :=
    match label with
    | .commit _ | .request => True
    | .lock index => system.mu = none ∧ system.LoopAt index (· = .taking)
    | .take index => system.mu = some (.reading index)
    | .claim index _ => system.LoopAt index fun stage => ∃ channel, stage = .claiming channel
    | .woken index =>
        system.LoopAt index fun stage => ∃ channel ∈ system.closed, stage = .blocked channel
    | .timer index | .contextDone index =>
        system.LoopAt index fun stage => ∃ channel, stage = .blocked channel
    | .wake jobs => system.mu = none ∧ ∀ job ∈ jobs, job ∈ system.committed
    | .close => ∃ jobs, system.mu = some (.closing jobs)
    | .swap => system.mu = some .swapping
  step := System.step

/-! ## The invariant -/

/-- What a request has seen, given what was announced: the number of its channel is the
number of wakes before it, and its claim came after the commits those wakes announced. -/
def Loop.Informed (announced : List (List Job)) (loop : Loop Job) : Prop :=
  match loop.stage with
  | .taking | .returned => True
  | .claiming channel => loop.wakes = channel ∧ channel ≤ announced.length
  | .blocked channel =>
      loop.wakes = channel ∧ channel ≤ announced.length ∧
        ∀ job ∈ (announced.take channel).flatten, job ∈ loop.seen

/-- The number of the channel that the next wake will close. -/
def System.nextOpen (system : System Job) : ℕ :=
  match system.mu with
  | some .swapping => system.ch + 1
  | _ => system.ch

structure Inv (system : System Job) : Prop where
  nextOpen : system.nextOpen = system.announced.length
  closed : ∀ channel, channel ∈ system.closed ↔ channel < system.announced.length
  nodup : system.closed.Nodup
  announced : ∀ job ∈ system.announced.flatten, job ∈ system.committed
  closing : ∀ jobs, system.mu = some (.closing jobs) → ∀ job ∈ jobs, job ∈ system.committed
  reading : ∀ index, system.mu = some (.reading index) → system.LoopAt index (· = .taking)
  loops : ∀ loop ∈ system.loops, loop.Informed system.announced

theorem Loop.Informed.append {announced : List (List Job)} {loop : Loop Job}
    (hinformed : loop.Informed announced) (jobs : List Job) :
    loop.Informed (announced ++ [jobs]) := by
  unfold Informed at hinformed ⊢
  have hlength : announced.length ≤ (announced ++ [jobs]).length := by
    rw [List.length_append]
    exact Nat.le_add_right _ _
  split at hinformed
  · trivial
  · trivial
  · exact ⟨hinformed.1, Nat.le_trans hinformed.2 hlength⟩
  · rw [List.take_append_of_le_length hinformed.2.1]
    exact ⟨hinformed.1, Nat.le_trans hinformed.2.1 hlength, hinformed.2.2⟩

theorem Loop.Informed.claim {announced : List (List Job)} {committed : List Job}
    {loop : Loop Job} (hinformed : loop.Informed announced)
    (hcommitted : ∀ job ∈ announced.flatten, job ∈ committed) (outcome : Outcome) :
    (loop.claim committed outcome).Informed announced := by
  unfold Loop.claim
  split
  · rename_i channel hstage
    simp only [Informed, hstage] at hinformed
    by_cases hnothing : outcome = .nothing
    · simp only [Informed, hnothing, if_true]
      refine ⟨hinformed.1, hinformed.2, fun job hjob => hcommitted job ?_⟩
      obtain ⟨jobs, hjobs, hmem⟩ := List.mem_flatten.mp hjob
      exact List.mem_flatten.mpr ⟨jobs, List.mem_of_mem_take hjobs, hmem⟩
    · simp [Informed, hnothing]
  · exact hinformed

/-- A property of all requests survives a change of one of them that keeps it. -/
theorem forall_mem_modify {P : Loop Job → Prop} {loops : List (Loop Job)} {index : ℕ}
    {change : Loop Job → Loop Job} (hall : ∀ loop ∈ loops, P loop)
    (hchange : ∀ loop, P loop → P (change loop)) :
    ∀ loop ∈ loops.modify index change, P loop := by
  intro loop hloop
  obtain ⟨position, hposition⟩ := List.mem_iff_getElem?.mp hloop
  rw [List.getElem?_modify, Option.map_eq_map, Option.map_eq_some_iff] at hposition
  obtain ⟨before, hbefore, rfl⟩ := hposition
  have hP : P before := hall before (List.mem_of_getElem? hbefore)
  by_cases hindex : index = position
  · rw [if_pos hindex]
    exact hchange before hP
  · rw [if_neg hindex]
    exact hP

theorem getElem?_modify_of_ne {loop : Loop Job} {loops : List (Loop Job)} {index other : ℕ}
    (hloop : loops[index]? = some loop) (hother : other ≠ index)
    (change : Loop Job → Loop Job) : (loops.modify other change)[index]? = some loop := by
  rw [List.getElem?_modify, hloop, Option.map_eq_map, Option.map_some, if_neg hother]

theorem getElem?_modify_self {loop : Loop Job} {loops : List (Loop Job)} {index : ℕ}
    (hloop : loops[index]? = some loop) (change : Loop Job → Loop Job) :
    (loops.modify index change)[index]? = some (change loop) := by
  rw [List.getElem?_modify, hloop, Option.map_eq_map, Option.map_some, if_pos rfl]

/-- Unless a wake is about to swap it, the channel is the one after the last wake's. -/
theorem Inv.ch_eq {system : System Job} (hinv : Inv system)
    (hmu : system.mu ≠ some .swapping) : system.ch = system.announced.length := by
  rw [← hinv.nextOpen]
  unfold System.nextOpen
  split
  · contradiction
  · rfl

/-- Only a request that is in `C` reads the channel. -/
theorem Inv.ne_of_reading {system : System Job} (hinv : Inv system) {index : ℕ}
    {loop : Loop Job} (hloop : system.loops[index]? = some loop)
    (hstage : loop.stage ≠ .taking) {reader : ℕ}
    (hreader : system.mu = some (.reading reader)) : reader ≠ index := by
  intro hequal
  obtain ⟨loop', hloop', htaking⟩ := hinv.reading reader hreader
  rw [hequal, hloop, Option.some.injEq] at hloop'
  rw [← hloop'] at htaking
  exact hstage htaking

/-- A step of a request that is not in `C` keeps the invariant if it keeps the request
informed. -/
theorem Inv.modify {system : System Job} (hinv : Inv system) {index : ℕ}
    (hat : system.LoopAt index (· ≠ .taking)) {change : Loop Job → Loop Job}
    (hchange : ∀ loop, loop.Informed system.announced →
      (change loop).Informed system.announced) :
    Inv { system with loops := system.loops.modify index change } where
  __ := hinv
  reading reader hreader := by
    obtain ⟨away, haway, hstage⟩ := hat
    obtain ⟨loop, hloop, htaking⟩ := hinv.reading reader hreader
    have hother := hinv.ne_of_reading haway hstage hreader
    exact ⟨loop, getElem?_modify_of_ne hloop hother.symm change, htaking⟩
  loops := forall_mem_modify hinv.loops hchange

theorem inv_init {system : System Job} (hinit : (machine Job).Init system) : Inv system := by
  obtain ⟨committed, rfl⟩ := hinit
  constructor <;> simp [System.nextOpen, newWaker]

theorem Inv.take {system : System Job} (hinv : Inv system) {index : ℕ}
    (hmu : system.mu = some (.reading index)) : Inv (system.step (.take index)) where
  nextOpen := hinv.ch_eq (by simp [hmu])
  __ := hinv
  closing jobs hjobs := by cases hjobs
  reading reader hreader := by cases hreader
  loops := by
    have hnext := hinv.ch_eq (by simp [hmu])
    apply forall_mem_modify hinv.loops
    intro loop _
    exact ⟨hnext.symm, Nat.le_of_eq hnext⟩

theorem Inv.close {system : System Job} (hinv : Inv system) {jobs : List Job}
    (hmu : system.mu = some (.closing jobs)) : Inv (system.step .close) := by
  have hnext := hinv.ch_eq (by simp [hmu])
  simp only [System.step, hmu]
  constructor
  · show system.ch + 1 = (system.announced ++ [jobs]).length
    rw [List.length_append, hnext, List.length_singleton]
  · intro channel
    show channel ∈ system.ch :: system.closed ↔ channel < (system.announced ++ [jobs]).length
    rw [List.mem_cons, hinv.closed, List.length_append, List.length_singleton]
    omega
  · show (system.ch :: system.closed).Nodup
    rw [List.nodup_cons, hinv.closed]
    exact ⟨by omega, hinv.nodup⟩
  · intro job hjob
    rw [List.flatten_append, List.mem_append] at hjob
    rcases hjob with hold | hnew
    · exact hinv.announced job hold
    · exact hinv.closing jobs hmu job (by simpa using hnew)
  · intro _ hjobs
    cases hjobs
  · intro _ hreading
    cases hreading
  · intro loop hloop
    exact (hinv.loops loop hloop).append jobs

theorem Inv.swap {system : System Job} (hinv : Inv system)
    (hmu : system.mu = some .swapping) : Inv (system.step .swap) where
  nextOpen := by
    have hopen := hinv.nextOpen
    rw [System.nextOpen, hmu] at hopen
    exact hopen
  __ := hinv
  closing jobs hjobs := by cases hjobs
  reading reader hreader := by cases hreader

/-- Locking the free mutex keeps the invariant when the new holder is where it should be. -/
theorem Inv.locked {system : System Job} (hinv : Inv system) (hmu : system.mu = none)
    {holder : Holder Job} (hswapping : holder ≠ .swapping)
    (hclosing : ∀ jobs, holder = .closing jobs → ∀ job ∈ jobs, job ∈ system.committed)
    (hreading : ∀ index, holder = .reading index → system.LoopAt index (· = .taking)) :
    Inv { system with mu := some holder } where
  nextOpen := by
    rw [← hinv.ch_eq (by simp [hmu])]
    unfold System.nextOpen
    split
    · rename_i hholder
      exact absurd (Option.some.inj hholder) hswapping
    · rfl
  __ := hinv
  closing jobs hjobs := hclosing jobs (Option.some.inj hjobs)
  reading index hindex := hreading index (Option.some.inj hindex)

theorem Inv.commit {system : System Job} (hinv : Inv system) (job : Job) :
    Inv (system.step (.commit job)) where
  __ := hinv
  announced other hother := List.mem_cons_of_mem job (hinv.announced other hother)
  closing jobs hjobs other hother :=
    List.mem_cons_of_mem job (hinv.closing jobs hjobs other hother)

theorem Inv.request {system : System Job} (hinv : Inv system) :
    Inv (system.step .request) where
  __ := hinv
  reading index hindex := by
    obtain ⟨loop, hloop, hstage⟩ := hinv.reading index hindex
    exact ⟨loop, party_join hloop Loop.start, hstage⟩
  loops loop hloop := by
    rcases List.mem_append.mp hloop with hold | hnew
    · exact hinv.loops loop hold
    · rw [List.mem_singleton.mp hnew]
      trivial

theorem inv_step {system : System Job} {label : Label Job}
    (hallowed : (machine Job).Allowed system label) (hinv : Inv system) :
    Inv ((machine Job).step system label) := by
  cases label with
  | commit job => exact hinv.commit job
  | request => exact hinv.request
  | lock index =>
      apply hinv.locked hallowed.1
      · intro hholder
        cases hholder
      · intro jobs hholder
        cases hholder
      · intro reader hholder
        cases hholder
        exact hallowed.2
  | take index => exact hinv.take hallowed
  | claim index outcome =>
      obtain ⟨loop, hloop, channel, hstage⟩ := hallowed
      apply hinv.modify ⟨loop, hloop, by simp [hstage]⟩
      intro loop hinformed
      exact hinformed.claim hinv.announced outcome
  | woken index =>
      obtain ⟨loop, hloop, channel, -, hstage⟩ := hallowed
      exact hinv.modify ⟨loop, hloop, by simp [hstage]⟩ fun _ _ => trivial
  | timer index | contextDone index =>
      obtain ⟨loop, hloop, channel, hstage⟩ := hallowed
      exact hinv.modify ⟨loop, hloop, by simp [hstage]⟩ fun _ _ => trivial
  | wake jobs =>
      apply hinv.locked hallowed.1
      · intro hholder
        cases hholder
      · intro announced hholder
        cases hholder
        exact hallowed.2
      · intro reader hholder
        cases hholder
  | close =>
      obtain ⟨jobs, hmu⟩ := hallowed
      exact hinv.close hmu
  | swap => exact hinv.swap hallowed

theorem inv_of_reachable {system : System Job} (hreach : (machine Job).Reachable system) :
    Inv system :=
  hreach.invariant Inv (fun _ => inv_init) fun _ _ _ hallowed hinv => inv_step hallowed hinv

/-! ## No wake is lost -/

/-- What the holder of the mutex still does before it unlocks. -/
def System.unlocking (system : System Job) : List (Label Job) :=
  match system.mu with
  | none => []
  | some (.reading index) => [.take index]
  | some (.closing _) => [.close, .swap]
  | some .swapping => [.swap]

/-- A blocked request goes back to `C` for its next claim: no step but the end of its
context takes it anywhere else, it can be received from its channel now, and nothing but
the mutex's holder stands between it and the claim. -/
structure System.ClaimsAgain (system : System Job) (index : ℕ) (loop : Loop Job) : Prop where
  onward : ∀ label, (machine Job).Allowed system label → label ≠ .contextDone index →
    ((machine Job).step system label).loops[index]? = some loop ∨
      ((machine Job).step system label).loops[index]? = some { loop with stage := .taking }
  woken : (machine Job).Allowed system (.woken index)
  claiming :
    (machine Job).AllowedRun system
        (system.unlocking ++ [.woken index, .lock index, .take index]) ∧
      ((machine Job).run system
        (system.unlocking ++ [.woken index, .lock index, .take index])).LoopAt index
          fun stage => ∃ channel, stage = .claiming channel

section Blocked

variable {system : System Job} {index channel : ℕ} {loop : Loop Job}

theorem Inv.onward (hinv : Inv system) (hloop : system.loops[index]? = some loop)
    (hstage : loop.stage = .blocked channel) {label : Label Job}
    (hallowed : (machine Job).Allowed system label) (hcancel : label ≠ .contextDone index) :
    ((machine Job).step system label).loops[index]? = some loop ∨
      ((machine Job).step system label).loops[index]? = some { loop with stage := .taking } := by
  have haway : loop.stage ≠ .taking := by simp [hstage]
  cases label with
  | commit job => exact .inl hloop
  | request => exact .inl (party_join hloop Loop.start)
  | lock other => exact .inl hloop
  | take other =>
      exact .inl (getElem?_modify_of_ne hloop (hinv.ne_of_reading hloop haway hallowed) _)
  | claim other outcome =>
      obtain ⟨claimer, hclaimer, at_, hat⟩ := hallowed
      have hother : other ≠ index := by
        intro hequal
        rw [hequal, hloop, Option.some.injEq] at hclaimer
        rw [← hclaimer, hstage] at hat
        cases hat
      exact .inl (getElem?_modify_of_ne hloop hother _)
  | woken other | timer other =>
      by_cases hother : other = index
      · rw [hother]
        exact .inr (getElem?_modify_self hloop _)
      · exact .inl (getElem?_modify_of_ne hloop hother _)
  | contextDone other =>
      have hother : other ≠ index := fun hequal => hcancel (by rw [hequal])
      exact .inl (getElem?_modify_of_ne hloop hother _)
  | wake jobs => exact .inl hloop
  | close =>
      obtain ⟨jobs, hmu⟩ := hallowed
      left
      simpa only [machine, System.step, hmu] using hloop
  | swap => exact .inl hloop

/-- The holder of the mutex can always go on until it unlocks, and what it does leaves a
blocked request where it is. -/
theorem Inv.run_unlocking (hinv : Inv system) (hloop : system.loops[index]? = some loop)
    (hstage : loop.stage ≠ .taking) :
    (machine Job).AllowedRun system system.unlocking ∧
      ((machine Job).run system system.unlocking).mu = none ∧
      ((machine Job).run system system.unlocking).loops[index]? = some loop ∧
      ∀ channel ∈ system.closed,
        channel ∈ ((machine Job).run system system.unlocking).closed := by
  unfold System.unlocking
  split
  · rename_i hmu
    exact ⟨trivial, hmu, hloop, fun _ hclosed => hclosed⟩
  · rename_i reader hmu
    refine ⟨⟨hmu, trivial⟩, rfl, ?_, fun _ hclosed => hclosed⟩
    exact getElem?_modify_of_ne hloop (hinv.ne_of_reading hloop hstage hmu) _
  · rename_i jobs hmu
    have hclose : (machine Job).step system .close =
        { system with
          mu := some .swapping
          closed := system.ch :: system.closed
          announced := system.announced ++ [jobs] } := by
      simp only [machine, System.step, hmu]
    simp only [Machine.AllowedRun, Machine.run, List.foldl_cons, List.foldl_nil, hclose]
    exact ⟨⟨⟨jobs, hmu⟩, rfl, trivial⟩, rfl, hloop, fun _ => List.mem_cons_of_mem _⟩
  · rename_i hmu
    exact ⟨⟨hmu, trivial⟩, rfl, hloop, fun _ hclosed => hclosed⟩

/-- With the mutex free a blocked request whose channel is closed gets to its next claim. -/
theorem claiming_of_unlocked (hmu : system.mu = none)
    (hloop : system.loops[index]? = some loop) (hstage : loop.stage = .blocked channel)
    (hclosed : channel ∈ system.closed) :
    (machine Job).AllowedRun system [.woken index, .lock index, .take index] ∧
      ((machine Job).run system [.woken index, .lock index, .take index]).LoopAt index
        fun stage => ∃ channel, stage = .claiming channel := by
  have htaking := getElem?_modify_self hloop fun loop => { loop with stage := .taking }
  constructor
  · exact ⟨⟨loop, hloop, channel, hclosed, hstage⟩, ⟨hmu, _, htaking, rfl⟩, rfl, trivial⟩
  · exact ⟨_, getElem?_modify_self htaking _, system.ch, rfl⟩

theorem Inv.claimsAgain (hinv : Inv system) (hloop : system.loops[index]? = some loop)
    (hstage : loop.stage = .blocked channel) (hclosed : channel ∈ system.closed) :
    system.ClaimsAgain index loop where
  onward _ hallowed hcancel := hinv.onward hloop hstage hallowed hcancel
  woken := ⟨loop, hloop, channel, hclosed, hstage⟩
  claiming := by
    obtain ⟨hallowed, hmu, hloop', hclosed'⟩ :=
      hinv.run_unlocking hloop (by simp [hstage])
    have htail := claiming_of_unlocked hmu hloop' hstage (hclosed' channel hclosed)
    rw [Machine.run_append]
    exact ⟨hallowed.append htail.1, htail.2⟩

end Blocked

/-- Whatever the interleaving, a request that is blocked on an open channel took it after
the last wake, so its claim could see every job announced so far; if its channel is closed
it claims again.  No channel is closed twice. -/
theorem no_wake_lost {system : System Job} (hreach : (machine Job).Reachable system) :
    system.closed.Nodup ∧
      ∀ index loop channel, system.loops[index]? = some loop →
        loop.stage = .blocked channel →
          (channel ∉ system.closed → loop.wakes = system.announced.length) ∧
          (∀ job ∈ system.announced.flatten, job ∈ loop.seen ∨ channel ∈ system.closed) ∧
          (channel ∈ system.closed → system.ClaimsAgain index loop) := by
  have hinv := inv_of_reachable hreach
  refine ⟨hinv.nodup, ?_⟩
  intro index loop channel hloop hstage
  have hinformed := hinv.loops loop (List.mem_of_getElem? hloop)
  simp only [Loop.Informed, hstage] at hinformed
  obtain ⟨hwakes, hlength, hseen⟩ := hinformed
  have hopen : channel ∉ system.closed → channel = system.announced.length := by
    intro hopen
    rw [hinv.closed] at hopen
    omega
  refine ⟨fun hnot => hwakes.trans (hopen hnot), ?_, hinv.claimsAgain hloop hstage⟩
  intro job hjob
  by_cases hclosed : channel ∈ system.closed
  · exact .inr hclosed
  · left
    apply hseen
    rw [hopen hclosed, List.take_length]
    exact hjob

/-- A job is committed and announced while one request waits and another has already
looked in vain but is not waiting yet. -/
def twoRequests : List (Label ℕ) :=
  [.request, .request, .lock 0, .take 0, .claim 0 .nothing, .lock 1, .take 1, .commit 7,
    .wake [7], .close, .claim 1 .nothing, .swap]

theorem no_wake_lost_twoRequests :
    ((machine ℕ).run (newWaker []) twoRequests).loops[0]? = some ⟨.blocked 0, 0, []⟩ ∧
      ((machine ℕ).run (newWaker []) twoRequests).closed = [0] ∧
      ((machine ℕ).run (newWaker []) twoRequests).ClaimsAgain 0 ⟨.blocked 0, 0, []⟩ := by
  have hstart : (machine ℕ).Reachable (newWaker []) := .start ⟨[], rfl⟩
  have hallowed : (machine ℕ).AllowedRun (newWaker []) twoRequests := by
    refine ⟨trivial, trivial, ⟨rfl, _, rfl, rfl⟩, rfl, ⟨_, rfl, 0, rfl⟩, ⟨rfl, _, rfl, rfl⟩,
      rfl, trivial, ⟨rfl, ?_⟩, ⟨_, rfl⟩, ⟨_, rfl, 0, rfl⟩, rfl, trivial⟩
    decide
  refine ⟨rfl, rfl, ?_⟩
  exact ((no_wake_lost (hstart.run hallowed)).2 0 _ 0 rfl rfl).2.2 (by decide)

end Conduit.Waker
