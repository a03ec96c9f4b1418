import Conduit.Core.Transition
import Conduit.Lock.Advisory

/-!
# Who owns an advisory lock

A caller keeps the `Lock` that `Acquire` returned and hands it to `Release` later, perhaps
more than once and perhaps after the session that took the lock has failed.  Neither the
map nor the session knows which acquisition a lock belongs to, so the system here keeps a
record of them next to the program's state.
-/

namespace Conduit.AdvisoryLock

open Transition

/-! ## The system -/

/-- A successful `Acquire`. -/
structure Acquisition where
  lock : Lock
  released : Bool
  /-- Its lock is still there. -/
  live : Bool
  deriving DecidableEq

structure System where
  advisory : Advisory
  acquisitions : List Acquisition

inductive Label
  | acquire (server : Server) (resource : String)
  /-- The lock of the acquisition with that number is released. -/
  | release (server : Server) (index : ℕ)
  | close

/-- A lock is gone once its resource is off the map. -/
def System.settle (system : System) (after : Advisory) (released : Option ℕ) :
    List Acquisition :=
  system.acquisitions.mapIdx fun index acquisition =>
    { acquisition with
      released := acquisition.released || decide (released = some index)
      live := acquisition.live && decide (acquisition.lock.resource ∈ after.held) }

def System.step (system : System) : Label → System
  | .acquire server resource =>
      let result := system.advisory.acquire server resource
      { advisory := result.2
        acquisitions := system.settle result.2 none ++
          match result.1 with
          | .ok lock => [⟨lock, false, true⟩]
          | .error _ => [] }
  | .release server index =>
      match system.acquisitions[index]? with
      | none => system
      | some acquisition =>
          let after := (system.advisory.release server acquisition.lock).2
          { advisory := after, acquisitions := system.settle after (some index) }
  | .close =>
      { advisory := system.advisory.close
        acquisitions := system.settle system.advisory.close none }

/-- Any callers, in any order: locks may be released twice, late or never. -/
def machine : Machine System Label where
  Init system := system = ⟨newAdvisory, []⟩
  Allowed _ _ := True
  step := System.step

/-- The lock of an acquisition is on the map and in the session. -/
def Acquisition.Present (acquisition : Acquisition) (advisory : Advisory) : Prop :=
  acquisition.live = true ∧ acquisition.lock.resource ∈ advisory.held ∧
    advisoryKey acquisition.lock.resource ∈ advisory.locks

/-- A release leaves alone the locks that other acquisitions of the same resource took and
have not released. -/
def KeepsOthers (system : System) (server : Server) (index : ℕ) : Prop :=
  ∀ acquisition, system.acquisitions[index]? = some acquisition →
    ∀ other held, system.acquisitions[other]? = some held → other ≠ index →
      held.lock.resource = acquisition.lock.resource → held.released = false →
        held.Present system.advisory →
          ∃ kept, (system.step (.release server index)).acquisitions[other]? = some kept ∧
            kept.Present (system.step (.release server index)).advisory

/-- The resource is free, or the acquisition is the one that has it. -/
def Owned (system : System) (index : ℕ) : Prop :=
  ∀ acquisition, system.acquisitions[index]? = some acquisition →
    acquisition.lock.resource ∈ system.advisory.held → acquisition.live = true

/-! ## The invariant -/

structure Inv (system : System) : Prop where
  agrees : system.advisory.Agrees
  held : ∀ resource ∈ system.advisory.held, ∃ (index : ℕ) (acquisition : Acquisition),
    system.acquisitions[index]? = some acquisition ∧ acquisition.live = true ∧
      acquisition.lock.resource = resource
  live : ∀ (index : ℕ) (acquisition : Acquisition),
    system.acquisitions[index]? = some acquisition → acquisition.live = true →
      acquisition.lock.resource ∈ system.advisory.held ∧ acquisition.released = false
  unique : ∀ (left right : ℕ) (first second : Acquisition),
    system.acquisitions[left]? = some first → system.acquisitions[right]? = some second →
      first.live = true → second.live = true →
      first.lock.resource = second.lock.resource → left = right

section Step

variable {system : System}

theorem settle_eq_some {after : Advisory} {released : Option ℕ} {index : ℕ}
    {settled : Acquisition}
    (hsettled : (system.settle after released)[index]? = some settled) :
    ∃ acquisition, system.acquisitions[index]? = some acquisition ∧
      settled.lock = acquisition.lock ∧
      (settled.live = true ↔
        acquisition.live = true ∧ acquisition.lock.resource ∈ after.held) ∧
      (settled.released = false ↔
        acquisition.released = false ∧ released ≠ some index) := by
  rw [System.settle, List.getElem?_mapIdx, Option.map_eq_some_iff] at hsettled
  obtain ⟨acquisition, hacquisition, rfl⟩ := hsettled
  exact ⟨acquisition, hacquisition, rfl, by simp, by simp⟩

theorem exists_settle {after : Advisory} {index : ℕ} {acquisition : Acquisition}
    (hacquisition : system.acquisitions[index]? = some acquisition)
    (hlive : acquisition.live = true) (hheld : acquisition.lock.resource ∈ after.held)
    (released : Option ℕ) :
    ∃ settled, (system.settle after released)[index]? = some settled ∧
      settled.lock = acquisition.lock ∧ settled.live = true := by
  rw [System.settle, List.getElem?_mapIdx, hacquisition]
  exact ⟨_, rfl, rfl, by simp [hlive, hheld]⟩

/-- A step that takes nothing new. -/
theorem Inv.settle (hinv : Inv system) {after : Advisory} (hagrees : after.Agrees)
    (hsubset : after.held ⊆ system.advisory.held) {released : Option ℕ}
    (hreleased : ∀ index acquisition, released = some index →
      system.acquisitions[index]? = some acquisition →
        acquisition.lock.resource ∉ after.held) :
    Inv ⟨after, system.settle after released⟩ := by
  refine ⟨hagrees, ?_, ?_, ?_⟩
  · intro resource hresource
    obtain ⟨index, acquisition, hacquisition, hlive, rfl⟩ :=
      hinv.held resource (hsubset hresource)
    obtain ⟨settled, hsettled, hlock, hsettledLive⟩ :=
      exists_settle hacquisition hlive hresource released
    exact ⟨index, settled, hsettled, hsettledLive, congrArg Lock.resource hlock⟩
  · intro index settled hsettled hlive
    obtain ⟨acquisition, hacquisition, hlock, hliveIff, hreleasedIff⟩ :=
      settle_eq_some hsettled
    obtain ⟨hwasLive, hheld⟩ := hliveIff.1 hlive
    refine ⟨hlock ▸ hheld, hreleasedIff.2 ⟨(hinv.live _ _ hacquisition hwasLive).2, ?_⟩⟩
    intro hindex
    exact hreleased index acquisition hindex hacquisition hheld
  · intro left right first second hfirst hsecond hfirstLive hsecondLive hsame
    obtain ⟨before, hbefore, hlock, hliveIff, -⟩ := settle_eq_some hfirst
    obtain ⟨before', hbefore', hlock', hliveIff', -⟩ := settle_eq_some hsecond
    rw [hlock, hlock'] at hsame
    exact hinv.unique left right before before' hbefore hbefore' (hliveIff.1 hfirstLive).1
      (hliveIff'.1 hsecondLive).1 hsame

/-- An acquisition that is live after a step that released none was so before. -/
theorem Inv.live_of_settle (hinv : Inv system) {after : Advisory} {index : ℕ}
    {acquisition : Acquisition}
    (hsettled : (system.settle after none)[index]? = some acquisition)
    (hlive : acquisition.live = true) :
    ∃ before, system.acquisitions[index]? = some before ∧ before.live = true ∧
      before.lock = acquisition.lock ∧ acquisition.released = false ∧
      acquisition.lock.resource ∈ system.advisory.held := by
  obtain ⟨before, hbefore, hlock, hliveIff, hreleasedIff⟩ := settle_eq_some hsettled
  have hwasLive := (hliveIff.1 hlive).1
  obtain ⟨hheld, hunreleased⟩ := hinv.live index before hbefore hwasLive
  rw [← hlock] at hheld
  exact ⟨before, hbefore, hwasLive, hlock.symm, hreleasedIff.2 ⟨hunreleased, nofun⟩, hheld⟩

/-- A step that takes a resource that was free. -/
theorem Inv.push (hinv : Inv system) {after : Advisory} (hagrees : after.Agrees)
    {lock : Lock} (hfree : lock.resource ∉ system.advisory.held)
    (hheld : after.held = insert lock.resource system.advisory.held) :
    Inv ⟨after, system.settle after none ++ [⟨lock, false, true⟩]⟩ := by
  refine ⟨hagrees, ?_, ?_, ?_⟩
  · intro resource hresource
    rw [hheld] at hresource
    rcases Finset.mem_insert.mp hresource with rfl | hold
    · exact ⟨(system.settle after none).length, ⟨lock, false, true⟩, by simp, rfl, rfl⟩
    · obtain ⟨index, acquisition, hacquisition, hlive, rfl⟩ := hinv.held resource hold
      obtain ⟨settled, hsettled, hlock, hsettledLive⟩ := exists_settle hacquisition hlive
        (hheld ▸ Finset.mem_insert_of_mem hold) none
      exact ⟨index, settled, party_join hsettled _, hsettledLive,
        congrArg Lock.resource hlock⟩
  · intro index acquisition hacquisition hlive
    rcases party_of_join hacquisition with hold | ⟨-, rfl⟩
    · obtain ⟨-, -, -, -, hunreleased, hmem⟩ := hinv.live_of_settle hold hlive
      rw [hheld]
      exact ⟨Finset.mem_insert_of_mem hmem, hunreleased⟩
    · rw [hheld]
      exact ⟨Finset.mem_insert_self _ _, rfl⟩
  · intro left right first second hfirst hsecond hfirstLive hsecondLive hsame
    rcases party_of_join hfirst with hfirst | ⟨hleft, rfl⟩
    · obtain ⟨before, hbefore, hwasLive, hlock, -, hmem⟩ :=
        hinv.live_of_settle hfirst hfirstLive
      rcases party_of_join hsecond with hsecond | ⟨-, rfl⟩
      · obtain ⟨before', hbefore', hwasLive', hlock', -⟩ :=
          hinv.live_of_settle hsecond hsecondLive
        rw [← hlock, ← hlock'] at hsame
        exact hinv.unique left right before before' hbefore hbefore' hwasLive hwasLive' hsame
      · rw [hsame] at hmem
        exact absurd hmem hfree
    · rcases party_of_join hsecond with hsecond | ⟨hright, -⟩
      · obtain ⟨-, -, -, -, -, hmem⟩ := hinv.live_of_settle hsecond hsecondLive
        rw [← hsame] at hmem
        exact absurd hmem hfree
      · rw [hleft, hright]

theorem Inv.step (hinv : Inv system) (label : Label) : Inv (system.step label) := by
  cases label with
  | acquire server resource =>
      have hagrees := hinv.agrees.acquire server resource
      rcases Advisory.acquire_cases system.advisory server resource with
        ⟨hfree, hok, hheld, -⟩ | ⟨⟨err, herr⟩, hafter⟩
      · rw [System.step, hok]
        exact hinv.push hagrees hfree hheld
      · rw [System.step, herr]
        dsimp only
        rw [List.append_nil]
        refine hinv.settle hagrees ?_ nofun
        rcases hafter with ⟨hheld, -⟩ | hafter
        · rw [hheld]
        · rw [hafter]
          exact Finset.empty_subset _
  | release server index =>
      rw [System.step]
      split
      · exact hinv
      · rename_i acquisition hacquisition
        have hsubset := hinv.agrees.release_held_subset server acquisition.lock
        refine hinv.settle (hinv.agrees.release server acquisition.lock)
          (hsubset.trans (Finset.erase_subset _ _)) ?_
        rintro other found ⟨⟩ hfound
        rw [Option.some.inj (hfound.symm.trans hacquisition)]
        exact fun hmem => Finset.notMem_erase _ _ (hsubset hmem)
  | close => exact hinv.settle hinv.agrees.close system.advisory.close_held_subset nofun

theorem inv (hreach : machine.Reachable system) : Inv system := by
  refine hreach.invariant Inv ?_ fun _ label _ _ hinv => hinv.step label
  rintro _ rfl
  refine ⟨Advisory.agrees_newAdvisory, ?_, ?_, ?_⟩
  · intro resource hresource
    cases hresource
  · intro index acquisition hacquisition
    cases hacquisition
  · intro left right first second hfirst
    cases hfirst

theorem Inv.present_of_live (hinv : Inv system) {index : ℕ} {acquisition : Acquisition}
    (hacquisition : system.acquisitions[index]? = some acquisition)
    (hlive : acquisition.live = true) : acquisition.Present system.advisory := by
  have hheld := (hinv.live index acquisition hacquisition hlive).1
  refine ⟨hlive, hheld, ?_⟩
  rw [hinv.agrees]
  exact Multiset.mem_map_of_mem advisoryKey hheld

/-- In any state that callers can bring about, a release leaves the locks of others alone
exactly when it is by the acquisition that has the resource, or nobody has it. -/
theorem keeps_others_iff (hreach : machine.Reachable system) (server : Server) (index : ℕ) :
    KeepsOthers system server index ↔ Owned system index := by
  have hinv := inv hreach
  constructor
  · intro hkeeps acquisition hacquisition hmem
    obtain ⟨other, held, hheld, hlive, hsame⟩ := hinv.held _ hmem
    by_cases hother : other = index
    · rw [hother, hacquisition] at hheld
      rw [Option.some.inj hheld]
      exact hlive
    -- The resource belongs to another acquisition, and is off the map all the same.
    · exfalso
      obtain ⟨kept, hkept, -, hkeptHeld, -⟩ := hkeeps acquisition hacquisition other held hheld
        hother hsame (hinv.live other held hheld hlive).2 (hinv.present_of_live hheld hlive)
      rw [System.step, hacquisition] at hkept hkeptHeld
      obtain ⟨before, hbefore, hlock, -⟩ := settle_eq_some hkept
      rw [Option.some.inj (hbefore.symm.trans hheld)] at hlock
      have hoff := hinv.agrees.release_held_subset server acquisition.lock hkeptHeld
      rw [hlock, hsame] at hoff
      exact Finset.notMem_erase _ _ hoff
  · intro howned acquisition hacquisition other held hheld hother hsame _ hpresent
    have hlive := howned acquisition hacquisition (hsame ▸ hpresent.2.1)
    exact absurd (hinv.unique other index held acquisition hheld hacquisition hpresent.1
      hlive hsame) hother

end Step

/-! ## A stale lock -/

/-- A database that answers, with no other session about. -/
def answering : Server := ⟨.ok (), .ok (), true⟩

/-- A database that fails the query. -/
def failing : Server := ⟨.ok (), .error "connection reset", true⟩

/-- A job takes its lock, the session fails on the lock of another job, and the first job's
lock is taken again. -/
def retakenRun : List Label :=
  [.acquire answering "job:exec:1", .acquire failing "job:exec:2",
    .acquire answering "job:exec:1"]

theorem reachable_retakenRun :
    machine.Reachable (machine.run ⟨newAdvisory, []⟩ retakenRun) :=
  Machine.Reachable.run (.start rfl) ⟨trivial, trivial, trivial, trivial⟩

/-- The two acquisitions, of which the second has the lock. -/
theorem acquisitions_retakenRun :
    (machine.run ⟨newAdvisory, []⟩ retakenRun).acquisitions =
      [⟨⟨"job:exec:1"⟩, false, false⟩, ⟨⟨"job:exec:1"⟩, false, true⟩] := by
  decide +kernel

theorem keeps_others_retakenRun :
    KeepsOthers (machine.run ⟨newAdvisory, []⟩ retakenRun) answering 1 := by
  refine (keeps_others_iff reachable_retakenRun answering 1).2 ?_
  intro acquisition hacquisition _
  rw [acquisitions_retakenRun] at hacquisition
  cases hacquisition
  rfl

/-- The first acquisition releases the lock of the second. -/
theorem not_forall_keeps_others :
    ¬ ∀ system server index, machine.Reachable system → KeepsOthers system server index := by
  intro hall
  have hkeeps := hall _ answering 0 reachable_retakenRun
  have hpresent : Acquisition.Present ⟨⟨"job:exec:1"⟩, false, true⟩
      (machine.run ⟨newAdvisory, []⟩ retakenRun).advisory :=
    ⟨rfl, by decide +kernel, by decide +kernel⟩
  obtain ⟨kept, hkept, hlive, -⟩ := hkeeps ⟨⟨"job:exec:1"⟩, false, false⟩
    (by rw [acquisitions_retakenRun]; rfl) 1 ⟨⟨"job:exec:1"⟩, false, true⟩
    (by rw [acquisitions_retakenRun]; rfl) (by decide) rfl rfl hpresent
  have hgone : ((machine.run ⟨newAdvisory, []⟩ retakenRun).step
      (.release answering 0)).acquisitions =
      [⟨⟨"job:exec:1"⟩, true, false⟩, ⟨⟨"job:exec:1"⟩, false, false⟩] := by
    decide +kernel
  rw [hgone] at hkept
  cases hkept
  cases hlive

end Conduit.AdvisoryLock
