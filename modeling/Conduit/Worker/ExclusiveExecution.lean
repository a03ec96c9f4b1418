import Conduit.Jobs.Machine
import Conduit.Lock.AdvisoryCluster
import Conduit.Worker.Run

/-!
# One run of a job at a time

`jobWorker.Run` takes the execution lock of its job before it claims and runs it, and
releases the lock when it returns.  With advisory locks the runs of all instances meet in
the database.  An instance has one session for all its locks, so a run loses its lock with
the session: when the database ends it, when a query of any other run of the instance fails,
or when the process dies, and its runs with it.

As long as no session is lost under a run that goes on, runs of the same job are never past
the lock at the same time.
-/

namespace Conduit.ExclusiveExecution

open Transition AdvisoryLock JobWorker Models
open JobStore (jobs)
open JobMachine (plainEnv plainJob)

/-! ## Runs and their locks -/

/-- The stages of a run between `Acquire` and its return. -/
def locked : Stage → Bool
  | .claim | .claimWrite _ | .execute | .record _ | .complete | .failRead .. | .failWrite .. =>
      true
  | .wait | .sleep | .allow | .lock | .release .. | .returned => false

/-- A run on an instance, with the acquisition its deferred `Release` is for. -/
structure LockedRun where
  owner : ℕ
  execution : Execution
  held : Option ℕ

structure System where
  cluster : Cluster
  runs : List LockedRun

inductive Action
  /-- Anything but `lockMgr.Acquire`. -/
  | goes (label : JobWorker.Label)
  /-- `Acquire` gets no connection from the pool. -/
  | unconnected
  | acquires (query : Query)
  | releases (query : Query)

inductive Label
  | begin (owner : ℕ) (execution : Execution)
  | run (number : ℕ) (action : Action)
  | connect (owner : ℕ)
  | ends (session : ℕ)
  /-- The process of an instance dies and is started again. -/
  | crash (owner : ℕ)

namespace LockedRun

variable (run : LockedRun) (cluster : Cluster)

def resource : String := "job:exec:" ++ run.execution.job.id

def act : Action → Cluster × LockedRun
  | .goes label => (cluster, { run with execution := run.execution.step label })
  | .unconnected => (cluster, { run with execution := run.execution.lock false })
  | .acquires query =>
      let acquired := cluster.acquired run.owner query run.resource
      (cluster.step (.acquire run.owner query run.resource),
        { run with
          execution := run.execution.lock acquired
          held := if acquired then some cluster.taken.length else none })
  | .releases query =>
      match run.held with
      | none => (cluster, run)
      | some index => (cluster.step (.release index query), { run with held := none })

def Allowed : Action → Prop
  | .goes label => run.execution.Allowed label ∧
      (run.execution.stage = .lock → ∀ turn, label ≠ .step turn)
  | .unconnected => run.execution.stage = .lock ∧
      (cluster.instances run.owner).advisory.conn = none
  | .acquires query => run.execution.stage = .lock ∧
      clusterMachine.Allowed cluster (.acquire run.owner query run.resource)
  | .releases query => run.execution.stage = .returned ∧
      cluster.Answers (cluster.instances run.owner).session query

def stop : LockedRun :=
  { run with execution := { run.execution with stage := .returned }, held := none }

end LockedRun

namespace System

variable (system : System)

def step : Label → System
  | .begin owner execution => { system with runs := system.runs ++ [⟨owner, execution, none⟩] }
  | .run number action =>
      match system.runs[number]? with
      | none => system
      | some run =>
          let result := run.act system.cluster action
          ⟨result.1, system.runs.set number result.2⟩
  | .connect owner => { system with cluster := system.cluster.step (.connect owner) }
  | .ends session => { system with cluster := system.cluster.step (.ends session) }
  | .crash owner =>
      { cluster := system.cluster.step (.close owner)
        runs := system.runs.map fun run => if run.owner = owner then run.stop else run }

/-- No other run of the instance relies on a lock. -/
def Alone (number owner : ℕ) : Prop :=
  ∀ (other : ℕ) run, system.runs[other]? = some run → other ≠ number → run.owner = owner →
    run.held = none

/-- A query on a session that other runs rely on is answered, and the database does not end
such a session. -/
def SessionsLast : Label → Prop
  | .run number (.acquires query) | .run number (.releases query) =>
      ∀ run, system.runs[number]? = some run →
        query = .answered ∨ system.Alone number run.owner
  | .ends session => ∀ run ∈ system.runs, run.held ≠ none →
      (system.cluster.instances run.owner).session ≠ session
  | _ => True

end System

def machine : Machine System Label where
  Init system := clusterMachine.Init system.cluster ∧ system.runs = []
  Allowed system
    | .begin _ execution => Begins execution
    | .run number action => ∃ run, system.runs[number]? = some run ∧
        run.Allowed system.cluster action
    | .connect owner => clusterMachine.Allowed system.cluster (.connect owner)
    | .ends _ => True
    | .crash _ => True
  step := System.step

/-! ## A run on its own -/

section OneRun

variable {execution : Execution}

/-- A run claims its own job. -/
def ClaimsOwn (execution : Execution) : Prop :=
  ∀ claimed, execution.stage = .claimWrite claimed → claimed.id = execution.job.id

theorem claimsOwn_of_stage (hstage : ∀ claimed, execution.stage ≠ .claimWrite claimed) :
    ClaimsOwn execution :=
  fun claimed hclaim => absurd hclaim (hstage claimed)

/-- A run stays with its job. -/
theorem ClaimsOwn.step (hown : ClaimsOwn execution) (label : JobWorker.Label) :
    (execution.step label).job.id = execution.job.id ∧ ClaimsOwn (execution.step label) := by
  cases label with
  | cancel | others table | reports breaker | renew env => exact ⟨rfl, hown⟩
  | step turn =>
      rw [Execution.step, Execution.advance]
      cases hstage : execution.stage with
      | claim =>
          refine ⟨rfl, fun claimed hclaim => ?_⟩
          dsimp only [Execution.claim] at hclaim ⊢
          split at hclaim
          · cases hclaim
          · split at hclaim
            · cases hclaim
            · split at hclaim
              · cases hclaim
                rfl
              · cases hclaim
      | claimWrite claimed =>
          dsimp only [Execution.claimWrite]
          split
          · exact ⟨rfl, claimsOwn_of_stage (by simp)⟩
          · split
            · exact ⟨hown claimed hstage, claimsOwn_of_stage (by simp)⟩
            · exact ⟨rfl, claimsOwn_of_stage (by simp)⟩
      | wait =>
          refine ⟨rfl, claimsOwn_of_stage fun claimed => ?_⟩
          dsimp only [Execution.wait]
          split
          · simp
          · split
            · split <;> simp
            · simp
      | sleep =>
          refine ⟨rfl, claimsOwn_of_stage fun claimed => ?_⟩
          dsimp only [Execution.sleep]
          split
          · simp
          · split <;> simp
      | allow =>
          refine ⟨rfl, claimsOwn_of_stage fun claimed => ?_⟩
          dsimp only [Execution.allow]
          split <;> simp
      | lock =>
          refine ⟨rfl, claimsOwn_of_stage fun claimed => ?_⟩
          dsimp only [Execution.lock]
          split <;> simp
      | record result =>
          dsimp only [Execution.record]
          split <;> exact ⟨rfl, claimsOwn_of_stage (by simp)⟩
      | complete =>
          dsimp only [Execution.complete]
          split <;> exact ⟨rfl, claimsOwn_of_stage (by simp [Execution.miss])⟩
      | failRead errMsg permanent =>
          dsimp only [Execution.failRead]
          split
          · exact ⟨rfl, claimsOwn_of_stage (by simp [Execution.miss])⟩
          · refine ⟨rfl, claimsOwn_of_stage fun claimed => ?_⟩
            dsimp only
            split <;> simp
      | failWrite errMsg permanent job =>
          dsimp only [Execution.failWrite]
          split <;> exact ⟨rfl, claimsOwn_of_stage (by simp [Execution.miss])⟩
      | release reason retryAfter => exact ⟨rfl, claimsOwn_of_stage (by simp [Execution.release])⟩
      | execute => exact ⟨rfl, claimsOwn_of_stage (by simp [Execution.handle])⟩
      | returned => exact ⟨rfl, hown⟩

/-- Only `Acquire` takes a run past the lock. -/
theorem locked_of_step (label : JobWorker.Label)
    (hlabel : execution.stage = .lock → ∀ turn, label ≠ .step turn)
    (hlocked : locked (execution.step label).stage = true) :
    locked execution.stage = true := by
  cases label with
  | cancel | others table | reports breaker | renew env => exact hlocked
  | step turn =>
      rw [Execution.step, Execution.advance] at hlocked
      cases hstage : execution.stage with
      | claim | claimWrite claimed | execute | record result | complete
        | failRead errMsg permanent | failWrite errMsg permanent job => rfl
      | lock => exact absurd rfl (hlabel hstage turn)
      | wait =>
          simp only [hstage, Execution.wait] at hlocked
          split at hlocked
          · exact hlocked
          · split at hlocked
            · split at hlocked <;> exact hlocked
            · exact hlocked
      | sleep =>
          simp only [hstage, Execution.sleep] at hlocked
          split at hlocked
          · exact hlocked
          · split at hlocked <;> exact hlocked
      | allow =>
          simp only [hstage, Execution.allow] at hlocked
          split at hlocked <;> exact hlocked
      | release reason retryAfter =>
          simp only [hstage, Execution.release] at hlocked
          exact hlocked
      | returned =>
          simp only [hstage] at hlocked
          exact hlocked

end OneRun

/-! ## What a lock rests on -/

/-- An acquisition of an instance that is not released, on the session the instance is
connected to. -/
structure Backs (cluster : Cluster) (owner : ℕ) (resource : String) (acquisition : Taken) :
    Prop where
  ofOwner : acquisition.owner = owner
  ofResource : acquisition.lock.resource = resource
  unreleased : acquisition.released = false
  connected : (cluster.instances owner).advisory.conn ≠ none
  session : acquisition.session = (cluster.instances owner).session
  alive : cluster.sessions acquisition.session ≠ none

section Backing

variable {cluster after : Cluster} {owner caller : ℕ} {resource : String} {acquisition : Taken}

theorem Backs.mono (hbacks : Backs cluster owner resource acquisition)
    (hconn : (cluster.instances owner).advisory.conn ≠ none →
      (after.instances owner).advisory.conn ≠ none)
    (hsession : (after.instances owner).session = (cluster.instances owner).session)
    (halive : cluster.sessions acquisition.session ≠ none →
      after.sessions acquisition.session ≠ none) :
    Backs after owner resource acquisition :=
  ⟨hbacks.ofOwner, hbacks.ofResource, hbacks.unreleased, hconn hbacks.connected,
    hbacks.session.trans hsession.symm, halive hbacks.alive⟩

/-- A call of an instance takes the locks away from itself at most. -/
theorem Backs.call (hbacks : Backs cluster owner resource acquisition) {advisory : Advisory}
    (hinstances : after.instances = cluster.setAdvisory caller advisory)
    (hconn : owner = caller → (cluster.instances caller).advisory.conn ≠ none →
      advisory.conn ≠ none)
    (halive : cluster.sessions acquisition.session ≠ none →
      after.sessions acquisition.session ≠ none) :
    Backs after owner resource acquisition := by
  refine hbacks.mono ?_ ?_ halive
  · intro hconnected
    rw [hinstances]
    by_cases hsame : owner = caller
    · rw [hsame, setAdvisory_self]
      exact hconn hsame (hsame ▸ hconnected)
    · rw [setAdvisory_of_ne cluster advisory hsame]
      exact hconnected
  · rw [hinstances]
    exact session_setAdvisory ..

theorem Backs.connect (hbacks : Backs cluster owner resource acquisition)
    (hconn : (cluster.instances caller).advisory.conn = none) :
    Backs (cluster.step (.connect caller)) owner resource acquisition := by
  have hne : owner ≠ caller := by
    intro hsame
    exact hbacks.connected (hsame ▸ hconn)
  have hinstance : (cluster.step (.connect caller)).instances owner = cluster.instances owner :=
    Function.update_of_ne hne ..
  refine hbacks.mono ?_ (by rw [hinstance]) fun halive => ?_
  · rw [hinstance]
    exact id
  · change Function.update cluster.sessions cluster.opened (some 0) acquisition.session ≠ none
    by_cases hnew : acquisition.session = cluster.opened
    · rw [hnew, Function.update_self]
      exact Option.some_ne_none _
    · rw [Function.update_of_ne hnew]
      exact halive

theorem Backs.ends (hbacks : Backs cluster owner resource acquisition) {session : ℕ}
    (hother : (cluster.instances owner).session ≠ session) :
    Backs (cluster.step (.ends session)) owner resource acquisition := by
  refine hbacks.mono id rfl fun halive => ?_
  have hne : acquisition.session ≠ session := hbacks.session ▸ hother
  change Function.update cluster.sessions session none acquisition.session ≠ none
  rw [Function.update_of_ne hne]
  exact halive

theorem Backs.close (hbacks : Backs cluster owner resource acquisition)
    (hother : owner ≠ caller) :
    Backs (cluster.step (.close caller)) owner resource acquisition :=
  hbacks.call rfl (fun hsame => absurd hsame hother) id

theorem Backs.acquire (hinv : ClusterInv cluster)
    (hbacks : Backs cluster owner resource acquisition) {query : Query} {wanted : String}
    (hallowed : clusterMachine.Allowed cluster (.acquire caller query wanted))
    (hlast : query = .answered ∨ owner ≠ caller) :
    Backs (cluster.step (.acquire caller query wanted)) owner resource acquisition := by
  cases hinv.acquireOutcome hallowed with
  | refused _ hafter =>
      rw [hafter]
      exact hbacks
  | lost _ hquery hafter =>
      rw [hafter]
      refine hbacks.call rfl (fun hsame => ?_) (change_ne_none ..).mpr
      exact absurd hsame (hlast.resolve_left hquery)
  | granted locks _ _ _ _ _ _ hafter =>
      rw [hafter]
      refine hbacks.call rfl (fun _ _ => Option.some_ne_none _) ?_
      exact (change_ne_none cluster _ _ true _).mpr

theorem Backs.release (hbacks : Backs cluster owner resource acquisition) {query : Query}
    {index : ℕ} {released : Taken} (hreleased : cluster.taken[index]? = some released)
    (hlast : query = .answered ∨ owner ≠ released.owner) :
    Backs (cluster.step (.release index query)) owner resource acquisition := by
  simp only [Cluster.step, hreleased]
  refine hbacks.call rfl (fun hsame hconn => ?_) (change_ne_none ..).mpr
  obtain ⟨locks, hlocks⟩ := Option.ne_none_iff_exists'.mp hconn
  rw [hlast.resolve_right (not_not.mpr hsame), release_of_conn hlocks]
  split
  · exact hconn
  · exact Option.some_ne_none _

/-- A run that gets the lock is backed by the new acquisition. -/
theorem backs_acquired (hinv : ClusterInv cluster) {query : Query}
    (hallowed : clusterMachine.Allowed cluster (.acquire owner query resource))
    (hacquired : cluster.acquired owner query resource = true) :
    ∃ acquisition, (cluster.step (.acquire owner query resource)).taken =
        cluster.taken ++ [acquisition] ∧
      Backs (cluster.step (.acquire owner query resource)) owner resource acquisition := by
  cases hinv.acquireOutcome hallowed with
  | refused hrefused | lost hrefused => exact absurd hacquired (by rw [hrefused]; decide)
  | granted locks _ _ _ _ hsession _ hafter =>
      rw [hafter]
      refine ⟨_, rfl, rfl, rfl, rfl, ?_, ?_, ?_⟩
      · change (cluster.setAdvisory owner _ owner).advisory.conn ≠ none
        rw [setAdvisory_self]
        exact Option.some_ne_none _
      · exact (session_setAdvisory ..).symm
      · apply (change_ne_none cluster _ _ true _).mpr
        rw [hsession]
        exact Option.some_ne_none _

end Backing

/-! ## All runs -/

structure RunInv (cluster : Cluster) (run : LockedRun) : Prop where
  claims : ClaimsOwn run.execution
  holds : locked run.execution.stage = true → run.held ≠ none
  backed : ∀ index, run.held = some index → ∃ acquisition,
    cluster.taken[index]? = some acquisition ∧ Backs cluster run.owner run.resource acquisition

structure Inv (system : System) : Prop where
  cluster : ClusterInv system.cluster
  runs : ∀ (number : ℕ) run, system.runs[number]? = some run → RunInv system.cluster run
  /-- No two runs are to release one acquisition. -/
  apart : ∀ (left right index : ℕ) first second, system.runs[left]? = some first →
    system.runs[right]? = some second → first.held = some index →
      second.held = some index → left = right

section Steps

variable {system : System} {cluster after : Cluster} {number : ℕ} {run : LockedRun}

theorem RunInv.mono (hrun : RunInv cluster run)
    (hbacked : ∀ index acquisition, run.held = some index →
      cluster.taken[index]? = some acquisition →
      Backs cluster run.owner run.resource acquisition →
        after.taken[index]? = some acquisition ∧
          Backs after run.owner run.resource acquisition) : RunInv after run := by
  refine ⟨hrun.claims, hrun.holds, fun index hheld => ?_⟩
  obtain ⟨acquisition, htaken, hbacks⟩ := hrun.backed index hheld
  exact ⟨acquisition, hbacked index acquisition hheld htaken hbacks⟩

/-- A run without a lock. -/
theorem runInv_of_held_eq_none (hclaims : ClaimsOwn run.execution)
    (hlocked : locked run.execution.stage = false) (hheld : run.held = none) :
    RunInv cluster run := by
  refine ⟨hclaims, fun htrue => ?_, fun index hsome => ?_⟩
  · rw [hlocked] at htrue
    cases htrue
  · rw [hheld] at hsome
    cases hsome

/-- One run moves, and the others keep what they rest on. -/
theorem Inv.move (hinv : Inv system) {moved : LockedRun} (hcluster : ClusterInv after)
    (hmoved : RunInv after moved)
    (hothers : ∀ (other : ℕ) party, system.runs[other]? = some party → other ≠ number →
      RunInv after party ∧ ∀ index, moved.held = some index → party.held ≠ some index) :
    Inv ⟨after, system.runs.set number moved⟩ := by
  refine ⟨hcluster, fun other party hparty => ?_, ?_⟩
  · rcases party_of_set hparty with ⟨-, rfl⟩ | ⟨hne, hold⟩
    · exact hmoved
    · exact (hothers other party hold hne).1
  · intro left right index first second hfirst hsecond hleft hright
    rcases party_of_set hfirst with ⟨hmine, rfl⟩ | ⟨hne, hold⟩
    · rcases party_of_set hsecond with ⟨hyours, -⟩ | ⟨hne', hold'⟩
      · exact hmine.trans hyours.symm
      · exact absurd hright ((hothers right second hold' hne').2 index hleft)
    · rcases party_of_set hsecond with ⟨-, rfl⟩ | ⟨hne', hold'⟩
      · exact absurd hleft ((hothers left first hold hne).2 index hright)
      · exact hinv.apart left right index first second hold hold' hleft hright

/-- A run moves without touching the locks. -/
theorem Inv.goes (hinv : Inv system) (hrun : system.runs[number]? = some run)
    {execution : Execution} (hid : execution.job.id = run.execution.job.id)
    (hclaims : ClaimsOwn execution)
    (hlocked : locked execution.stage = true → locked run.execution.stage = true) :
    Inv { system with runs := system.runs.set number { run with execution } } := by
  have hold := hinv.runs number run hrun
  have hresource : ({ run with execution } : LockedRun).resource = run.resource := by
    rw [LockedRun.resource, LockedRun.resource, hid]
  refine hinv.move hinv.cluster ⟨hclaims, hold.holds ∘ hlocked, fun index hheld => ?_⟩ ?_
  · rw [hresource]
    exact hold.backed index hheld
  · intro other party hparty hne
    refine ⟨hinv.runs other party hparty, fun index hheld hother => hne ?_⟩
    exact hinv.apart other number index party run hparty hrun hother hheld

/-- Where a query may fail, the runs that rely on a lock are those of other instances. -/
theorem answered_or_ne {query : Query} {owner : ℕ}
    (hlast : query = .answered ∨ system.Alone number owner) {other : ℕ} {party : LockedRun}
    (hparty : system.runs[other]? = some party) (hne : other ≠ number)
    (hheld : party.held ≠ none) : query = .answered ∨ party.owner ≠ owner :=
  hlast.imp_right fun halone hsame => hheld (halone other party hparty hne hsame)

theorem Inv.acquires (hinv : Inv system) {query : Query}
    (hallowed : clusterMachine.Allowed system.cluster (.acquire run.owner query run.resource))
    (hlast : query = .answered ∨ system.Alone number run.owner) :
    Inv ⟨(run.act system.cluster (.acquires query)).1,
      system.runs.set number (run.act system.cluster (.acquires query)).2⟩ := by
  have hothers : ∀ (other : ℕ) party, system.runs[other]? = some party → other ≠ number →
      RunInv (system.cluster.step (.acquire run.owner query run.resource)) party := by
    intro other party hparty hne
    refine (hinv.runs other party hparty).mono fun index acquisition hheld htaken hbacks => ?_
    refine ⟨?_, hbacks.acquire hinv.cluster hallowed (answered_or_ne hlast hparty hne ?_)⟩
    · rw [Cluster.step, List.getElem?_append_left (List.getElem?_eq_some_iff.mp htaken).1]
      exact htaken
    · rw [hheld]
      exact Option.some_ne_none _
  refine hinv.move (hinv.cluster.acquire hallowed) ?_ ?_
  · cases hacquired : system.cluster.acquired run.owner query run.resource with
    | false =>
        apply runInv_of_held_eq_none
        · exact claimsOwn_of_stage (by simp [LockedRun.act, hacquired, Execution.lock])
        · simp [LockedRun.act, hacquired, Execution.lock, locked]
        · simp [LockedRun.act, hacquired]
    | true =>
        obtain ⟨acquisition, htaken, hbacks⟩ :=
          backs_acquired hinv.cluster hallowed hacquired
        refine ⟨claimsOwn_of_stage ?_, fun _ => ?_, fun index hheld => ?_⟩
        · simp [LockedRun.act, hacquired, Execution.lock]
        · simp [LockedRun.act, hacquired]
        · have hindex : system.cluster.taken.length = index := by
            simpa [LockedRun.act, hacquired] using hheld
          refine ⟨acquisition, ?_, hbacks⟩
          rw [← hindex]
          change (system.cluster.step _).taken[_]? = _
          rw [htaken, List.getElem?_concat_length]
  · intro other party hparty hne
    refine ⟨hothers other party hparty hne, fun index hheld hother => ?_⟩
    -- What another run is to release was there before.
    obtain ⟨acquisition, htaken, -⟩ := (hinv.runs other party hparty).backed index hother
    have hless := (List.getElem?_eq_some_iff.mp htaken).1
    simp only [LockedRun.act] at hheld
    split at hheld
    · exact absurd (Option.some.inj hheld) hless.ne'
    · cases hheld

theorem Inv.releases (hinv : Inv system) (hrun : system.runs[number]? = some run)
    {query : Query} (hstage : run.execution.stage = .returned)
    (hanswers : system.cluster.Answers (system.cluster.instances run.owner).session query)
    (hlast : query = .answered ∨ system.Alone number run.owner) :
    Inv ⟨(run.act system.cluster (.releases query)).1,
      system.runs.set number (run.act system.cluster (.releases query)).2⟩ := by
  have hold := hinv.runs number run hrun
  rw [LockedRun.act]
  cases hheld : run.held with
  | none =>
      refine hinv.move hinv.cluster hold fun other party hparty _ => ?_
      refine ⟨hinv.runs other party hparty, fun index hsome => ?_⟩
      cases hheld.symm.trans hsome
  | some index =>
      obtain ⟨acquisition, htaken, hbacks⟩ := hold.backed index hheld
      have howner := hbacks.ofOwner
      refine hinv.move (hinv.cluster.release ?_) ?_ ?_
      · intro found hfound
        rw [htaken] at hfound
        cases hfound
        refine ⟨?_, fun _ => ⟨?_, hbacks.unreleased⟩⟩
        · rw [howner]
          exact hanswers
        · rw [howner]
          exact hbacks.session
      · exact runInv_of_held_eq_none hold.claims (by rw [hstage]; rfl) rfl
      · intro other party hparty hne
        refine ⟨?_, fun found hsome => absurd hsome.symm (Option.some_ne_none found)⟩
        refine (hinv.runs other party hparty).mono fun found taken hother hfound hbacks' => ?_
        have hdistinct : found ≠ index := by
          rintro rfl
          exact hne (hinv.apart other number found party run hparty hrun hother hheld)
        refine ⟨?_, hbacks'.release htaken ?_⟩
        · simp only [Cluster.step, htaken]
          rw [List.getElem?_set_ne hdistinct.symm]
          exact hfound
        · rw [howner]
          apply answered_or_ne hlast hparty hne
          rw [hother]
          exact Option.some_ne_none _

theorem Inv.act (hinv : Inv system) {action : Action} (hrun : system.runs[number]? = some run)
    (hallowed : run.Allowed system.cluster action)
    (hlast : system.SessionsLast (.run number action)) :
    Inv (system.step (.run number action)) := by
  simp only [System.step, hrun]
  cases action with
  | goes label =>
      obtain ⟨hid, hclaims⟩ := (hinv.runs number run hrun).claims.step label
      exact hinv.goes hrun hid hclaims (locked_of_step label hallowed.2)
  | unconnected =>
      refine hinv.goes hrun rfl (claimsOwn_of_stage (by simp [Execution.lock])) fun hlocked => ?_
      simp [Execution.lock, locked] at hlocked
  | acquires query => exact hinv.acquires hallowed.2 (hlast run hrun)
  | releases query => exact hinv.releases hrun hallowed.1 hallowed.2 (hlast run hrun)

theorem Inv.begin (hinv : Inv system) {execution : Execution} (hbegins : Begins execution)
    (owner : ℕ) : Inv (system.step (.begin owner execution)) := by
  have hnew : RunInv system.cluster ⟨owner, execution, none⟩ := by
    apply runInv_of_held_eq_none
    · exact claimsOwn_of_stage (by simp [hbegins.1])
    · rw [hbegins.1]
      rfl
    · rfl
  refine ⟨hinv.cluster, fun other party hparty => ?_, ?_⟩
  · rcases party_of_join hparty with hold | ⟨-, rfl⟩
    · exact hinv.runs other party hold
    · exact hnew
  · intro left right index first second hfirst hsecond hleft hright
    rcases party_of_join hfirst with hold | ⟨-, rfl⟩
    · rcases party_of_join hsecond with hold' | ⟨-, rfl⟩
      · exact hinv.apart left right index first second hold hold' hleft hright
      · cases hright
    · cases hleft

theorem Inv.connect (hinv : Inv system) {owner : ℕ}
    (hconn : (system.cluster.instances owner).advisory.conn = none) :
    Inv (system.step (.connect owner)) := by
  refine ⟨hinv.cluster.connect hconn, fun other party hparty => ?_, hinv.apart⟩
  refine (hinv.runs other party hparty).mono fun index acquisition _ htaken hbacks => ?_
  exact ⟨htaken, hbacks.connect hconn⟩

theorem Inv.ends (hinv : Inv system) {session : ℕ}
    (hlast : system.SessionsLast (.ends session)) : Inv (system.step (.ends session)) := by
  refine ⟨hinv.cluster.ends session, fun other party hparty => ?_, hinv.apart⟩
  refine (hinv.runs other party hparty).mono fun index acquisition hheld htaken hbacks => ?_
  refine ⟨htaken, hbacks.ends (hlast party (List.mem_of_getElem? hparty) ?_)⟩
  rw [hheld]
  exact Option.some_ne_none _

/-- A crash takes the runs of the instance with it. -/
theorem run_of_crash {owner other : ℕ} {party : LockedRun}
    (hparty : (system.step (.crash owner)).runs[other]? = some party) :
    ∃ before, system.runs[other]? = some before ∧
      (before.owner = owner ∧ party = before.stop ∨ before.owner ≠ owner ∧ party = before) := by
  rw [System.step, List.getElem?_map] at hparty
  obtain ⟨before, hbefore, hparty⟩ := Option.map_eq_some_iff.mp hparty
  refine ⟨before, hbefore, ?_⟩
  by_cases howner : before.owner = owner
  · rw [if_pos howner] at hparty
    exact .inl ⟨howner, hparty.symm⟩
  · rw [if_neg howner] at hparty
    exact .inr ⟨howner, hparty.symm⟩

theorem Inv.crash (hinv : Inv system) (owner : ℕ) : Inv (system.step (.crash owner)) := by
  refine ⟨hinv.cluster.close owner, fun other party hparty => ?_, ?_⟩
  · obtain ⟨before, hbefore, ⟨-, rfl⟩ | ⟨hother, rfl⟩⟩ := run_of_crash hparty
    · exact runInv_of_held_eq_none (claimsOwn_of_stage (by simp [LockedRun.stop])) rfl rfl
    · refine (hinv.runs other party hbefore).mono fun index acquisition _ htaken hbacks => ?_
      exact ⟨htaken, hbacks.close hother⟩
  · intro left right index first second hfirst hsecond hleft hright
    obtain ⟨before, hbefore, ⟨-, rfl⟩ | ⟨-, rfl⟩⟩ := run_of_crash hfirst
    · cases hleft
    obtain ⟨before', hbefore', ⟨-, rfl⟩ | ⟨-, rfl⟩⟩ := run_of_crash hsecond
    · cases hright
    exact hinv.apart left right index first second hbefore hbefore' hleft hright

theorem inv_of_reachable (hreach : (machine.restrict System.SessionsLast).Reachable system) :
    Inv system := by
  apply hreach.invariant Inv
  · rintro initial ⟨hcluster, hruns⟩
    refine ⟨clusterInv (.start hcluster), fun number run hrun => ?_, ?_⟩
    · rw [hruns] at hrun
      cases hrun
    · intro left right index first second hfirst
      rw [hruns] at hfirst
      cases hfirst
  · rintro before label - ⟨hallowed, hlast⟩ hinv
    cases label with
    | begin owner execution => exact hinv.begin hallowed owner
    | run number action =>
        obtain ⟨run, hrun, hallowed⟩ := hallowed
        exact hinv.act hrun hallowed hlast
    | connect owner => exact hinv.connect hallowed
    | ends session => exact hinv.ends hlast
    | crash owner => exact hinv.crash owner

/-- Of the runs of a job on all instances, at most one is past the execution lock. -/
theorem locked_runs_eq (hreach : (machine.restrict System.SessionsLast).Reachable system)
    {left right : ℕ} {first second : LockedRun} (hfirst : system.runs[left]? = some first)
    (hsecond : system.runs[right]? = some second)
    (hleft : locked first.execution.stage = true)
    (hright : locked second.execution.stage = true)
    (hjob : first.execution.job.id = second.execution.job.id) : left = right := by
  have hinv := inv_of_reachable hreach
  have hprotected : ∀ (number : ℕ) run, system.runs[number]? = some run →
      locked run.execution.stage = true → ∃ index, run.held = some index ∧
        system.cluster.Protected index run.resource := by
    intro number run hrun hlocked
    have hholds := hinv.runs number run hrun
    obtain ⟨index, hheld⟩ := Option.ne_none_iff_exists'.mp (hholds.holds hlocked)
    obtain ⟨acquisition, htaken, hbacks⟩ := hholds.backed index hheld
    exact ⟨index, hheld, acquisition, htaken, hbacks.ofResource, hbacks.unreleased,
      hbacks.alive⟩
  obtain ⟨mine, hmine, hprotectedMine⟩ := hprotected left first hfirst hleft
  obtain ⟨yours, hyours, hprotectedYours⟩ := hprotected right second hsecond hright
  have hresource : first.resource = second.resource := by
    rw [LockedRun.resource, LockedRun.resource, hjob]
  rw [hresource] at hprotectedMine
  have hsame := hinv.cluster.protected_eq hprotectedMine hprotectedYours
  rw [← hsame] at hyours
  exact hinv.apart left right mine first second hfirst hsecond hmine hyours

end Steps

/-- A claimed job, about to be run. -/
def startedRun : Execution where
  cfg := ⟨minute, second, ["report"], id⟩
  table := .empty jobs
  breaker := CircuitBreaker.new ⟨1, 1, second, 1⟩
  cancelled := false
  job := { plainJob with id := "1", state := .running }
  stage := .wait
  handled := none
  missed := false

def goesOn (number : ℕ) : Label :=
  .run number (.goes (.step ⟨plainEnv 0 0 "", true, false, .ok⟩))

/-- Two instances run the same job and the second is turned away.  The first one dies, its
session ends, and another run of the second gets the lock. -/
def inherited : System :=
  machine.run ⟨⟨fun _ => none, 0, fun _ => ⟨newAdvisory, 0⟩, []⟩, []⟩
    [.begin 0 startedRun, goesOn 0, goesOn 0, .connect 0, .run 0 (.acquires .answered),
      .begin 1 startedRun, goesOn 1, goesOn 1, .connect 1, .run 1 (.acquires .answered),
      .crash 0, .ends 0,
      .begin 1 startedRun, goesOn 2, goesOn 2, .run 2 (.acquires .answered), goesOn 2]

theorem allowed_goesOn {system : System} {number : ℕ} {run : LockedRun}
    (hrun : system.runs[number]? = some run) (hstage : run.execution.stage ≠ .lock) :
    (machine.restrict System.SessionsLast).Allowed system (goesOn number) :=
  ⟨⟨run, hrun, trivial, fun hlock => absurd hlock hstage⟩, trivial⟩

theorem allowed_acquires {system : System} {number : ℕ} {run : LockedRun}
    (hrun : system.runs[number]? = some run) (hstage : run.execution.stage = .lock)
    (hconn : (system.cluster.instances run.owner).advisory.conn ≠ none)
    (halive : system.cluster.sessions (system.cluster.instances run.owner).session ≠ none) :
    (machine.restrict System.SessionsLast).Allowed system
      (.run number (.acquires .answered)) :=
  ⟨⟨run, hrun, hstage, hconn, fun hgone => absurd hgone halive⟩, fun _ _ => .inl rfl⟩

theorem allowed_ends {system : System} (hheld : ∀ run ∈ system.runs, run.held = none)
    (session : ℕ) : (machine.restrict System.SessionsLast).Allowed system (.ends session) :=
  ⟨trivial, fun run hrun hsome => absurd (hheld run hrun) hsome⟩

theorem reachable_inherited :
    (machine.restrict System.SessionsLast).Reachable inherited := by
  have hbegins : Begins startedRun := ⟨rfl, rfl, rfl⟩
  refine Machine.Reachable.run (.start ⟨⟨rfl, rfl, fun _ => rfl, rfl⟩, rfl⟩) ?_
  refine ⟨⟨hbegins, trivial⟩, allowed_goesOn rfl ?_, allowed_goesOn rfl ?_, ⟨rfl, trivial⟩,
    allowed_acquires rfl ?_ ?_ ?_, ⟨hbegins, trivial⟩, allowed_goesOn rfl ?_,
    allowed_goesOn rfl ?_, ⟨rfl, trivial⟩, allowed_acquires rfl ?_ ?_ ?_, ⟨trivial, trivial⟩,
    allowed_ends ?_ 0, ⟨hbegins, trivial⟩, allowed_goesOn rfl ?_, allowed_goesOn rfl ?_,
    allowed_acquires rfl ?_ ?_ ?_, allowed_goesOn rfl ?_, trivial⟩
  all_goals decide +kernel

/-- The new run executes the job, and no other one can. -/
theorem locked_runs_eq_inherited :
    (∃ run, inherited.runs[2]? = some run ∧ run.execution.stage = .execute) ∧
      ∀ (number : ℕ) run, inherited.runs[number]? = some run →
        run.execution.job.id = "1" → locked run.execution.stage = true → number = 2 := by
  obtain ⟨heir, hheir, hstage, hid⟩ : ∃ run, inherited.runs[2]? = some run ∧
      run.execution.stage = .execute ∧ run.execution.job.id = "1" :=
    ⟨_, rfl, by decide +kernel, by decide +kernel⟩
  refine ⟨⟨heir, hheir, hstage⟩, fun number run hrun hjob hlocked => ?_⟩
  exact locked_runs_eq reachable_inherited hrun hheir hlocked (by rw [hstage]; rfl)
    (hjob.trans hid.symm)

end Conduit.ExclusiveExecution
