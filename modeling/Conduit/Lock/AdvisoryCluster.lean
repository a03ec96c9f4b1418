import Conduit.Core.Transition
import Conduit.Lock.Advisory

/-!
# Advisory locks of several instances

Every instance has an `Advisory` of its own; the database grants a key to one session at a
time.  An instance that discards its connection closes it in the background, so a session
with locks may outlive the instance's interest in it, and the database may end a session
without the instance noticing before its next query fails.  A query that fails for the
instance may have been served.

An acquisition is protected for as long as its session is alive and nobody has released it.
A release is by the name of the resource only; that it does not hit a later acquisition of
the same resource is what the callers have to see to.
-/

namespace Conduit.AdvisoryLock

open Transition

/-! ## The system -/

inductive Query
  | answered
  | failed (served : Bool) (cause : String)
  deriving DecidableEq

def Query.result : Query → Except String Unit
  | .answered => .ok ()
  | .failed _ cause => .error cause

def Query.served : Query → Bool
  | .answered => true
  | .failed served _ => served

/-- An instance, with the number of the session its connection is for. -/
structure Instance where
  advisory : Advisory
  session : ℕ

/-- A successful `Acquire` of an instance. -/
structure Taken where
  owner : ℕ
  session : ℕ
  lock : Lock
  released : Bool
  deriving DecidableEq

structure Cluster where
  /-- The sessions that are alive, with the locks the database counts for them. -/
  sessions : ℕ → Option (Multiset Int64)
  opened : ℕ
  instances : ℕ → Instance
  taken : List Taken

inductive ClusterLabel
  /-- `session` opens a connection for an instance. -/
  | connect (owner : ℕ)
  | acquire (owner : ℕ) (query : Query) (resource : String)
  /-- The lock of the acquisition with that number is released. -/
  | release (index : ℕ) (query : Query)
  | close (owner : ℕ)
  /-- The database ends a session. -/
  | ends (session : ℕ)

namespace Cluster

variable (cluster : Cluster)

/-- No other session holds the key. -/
def free (session : ℕ) (key : Int64) : Bool :=
  decide (∀ other < cluster.opened, other ≠ session →
    ∀ locks ∈ cluster.sessions other, key ∉ locks)

/-- `pg_try_advisory_lock` and `pg_advisory_unlock`, on a session that may be gone. -/
def change (session : ℕ) (serves : Bool) (edit : Multiset Int64 → Multiset Int64) :
    ℕ → Option (Multiset Int64) :=
  if serves then Function.update cluster.sessions session ((cluster.sessions session).map edit)
  else cluster.sessions

def setAdvisory (owner : ℕ) (advisory : Advisory) : ℕ → Instance :=
  Function.update cluster.instances owner { cluster.instances owner with advisory }

/-- What an instance sees of the database during a call. -/
def server (owner : ℕ) (query : Query) (resource : String) : Server where
  pool := .error "closed pool"
  query := query.result
  free := cluster.free (cluster.instances owner).session (advisoryKey resource)

/-- Whether a query for a lock reaches the database and is granted. -/
def grants (owner : ℕ) (query : Query) (resource : String) : Bool :=
  let party := cluster.instances owner
  decide (resource ∉ party.advisory.held) && query.served &&
    (decide (advisoryKey resource ∈ (cluster.sessions party.session).getD 0) ||
      cluster.free party.session (advisoryKey resource))

/-- Whether `Acquire` returns a lock. -/
def acquired (owner : ℕ) (query : Query) (resource : String) : Bool :=
  ((cluster.instances owner).advisory.acquire
    (cluster.server owner query resource) resource).1.isOk

def step : ClusterLabel → Cluster
  | .connect owner => { cluster with
      sessions := Function.update cluster.sessions cluster.opened (some 0)
      opened := cluster.opened + 1
      instances := Function.update cluster.instances owner
        ⟨{ (cluster.instances owner).advisory with conn := some 0 }, cluster.opened⟩ }
  | .acquire owner query resource =>
      let party := cluster.instances owner
      let result := party.advisory.acquire (cluster.server owner query resource) resource
      { cluster with
        sessions := cluster.change party.session (cluster.grants owner query resource)
          (advisoryKey resource ::ₘ ·)
        instances := cluster.setAdvisory owner result.2
        taken := cluster.taken ++
          match result.1 with
          | .ok lock => [⟨owner, party.session, lock, false⟩]
          | .error _ => [] }
  | .release index query =>
      match cluster.taken[index]? with
      | none => cluster
      | some acquisition =>
          let owner := acquisition.owner
          let party := cluster.instances owner
          let resource := acquisition.lock.resource
          { cluster with
            sessions := cluster.change party.session
              (decide (resource ∈ party.advisory.held) && query.served)
              (·.erase (advisoryKey resource))
            instances := cluster.setAdvisory owner
              (party.advisory.release (cluster.server owner query resource) acquisition.lock).2
            taken := cluster.taken.set index { acquisition with released := true } }
  | .close owner => { cluster with
      instances := cluster.setAdvisory owner (cluster.instances owner).advisory.close }
  | .ends session => { cluster with
      sessions := Function.update cluster.sessions session none }

/-- A query on a session that is gone fails. -/
def Answers (session : ℕ) (query : Query) : Prop :=
  cluster.sessions session = none → ∃ cause, query = .failed false cause

/-- The resource is not on the map of the instance, or the acquisition that is being
released put it there. -/
def Owns (acquisition : Taken) : Prop :=
  acquisition.lock.resource ∈ (cluster.instances acquisition.owner).advisory.held →
    acquisition.session = (cluster.instances acquisition.owner).session ∧
      acquisition.released = false

end Cluster

/-- Any number of instances that start without a connection.  A call on an instance without
a connection either opens one first or has no effect. -/
def clusterMachine : Machine Cluster ClusterLabel where
  Init cluster := cluster.sessions = (fun _ => none) ∧ cluster.opened = 0 ∧
    (∀ owner, (cluster.instances owner).advisory = newAdvisory) ∧ cluster.taken = []
  Allowed cluster
    | .connect owner => (cluster.instances owner).advisory.conn = none
    | .acquire owner query _ => (cluster.instances owner).advisory.conn ≠ none ∧
        cluster.Answers (cluster.instances owner).session query
    | .release index query => ∀ acquisition ∈ cluster.taken[index]?,
        cluster.Answers (cluster.instances acquisition.owner).session query ∧
          cluster.Owns acquisition
    | .close _ => True
    | .ends _ => True
  step := Cluster.step

/-- The acquisition has not been released and its session is alive. -/
def Cluster.Protected (cluster : Cluster) (index : ℕ) (resource : String) : Prop :=
  ∃ acquisition, cluster.taken[index]? = some acquisition ∧
    acquisition.lock.resource = resource ∧ acquisition.released = false ∧
    cluster.sessions acquisition.session ≠ none

/-! ## Calls on a connection -/

section Calls

variable {advisory : Advisory} {locks : Multiset Int64}

theorem acquire_of_conn (hconn : advisory.conn = some locks) (server : Server)
    (resource : String) :
    advisory.acquire server resource =
      if resource ∈ advisory.held then (.error (.alreadyHeld resource), advisory)
      else match server.query with
        | .error cause => (.error (.tryLock resource cause), newAdvisory)
        | .ok _ =>
            if advisoryKey resource ∈ locks ∨ server.free = true then
              (.ok ⟨resource⟩,
                ⟨some (advisoryKey resource ::ₘ locks), insert resource advisory.held⟩)
            else (.error (.heldElsewhere resource), advisory) := by
  have hopened : ({ advisory with conn := some locks } : Advisory) = advisory := by
    rw [← hconn]
  unfold Advisory.acquire Advisory.session
  rw [hconn]
  dsimp only
  rw [hopened]
  split
  · rfl
  · rcases server.query with cause | _
    · rw [← hopened]
      rfl
    · rfl

theorem release_of_conn (hconn : advisory.conn = some locks) (server : Server) (lock : Lock) :
    (advisory.release server lock).2 =
      if lock.resource ∉ advisory.held then advisory
      else match server.query with
        | .error _ => newAdvisory
        | .ok _ => ⟨some (locks.erase (advisoryKey lock.resource)),
            advisory.held.erase lock.resource⟩ := by
  unfold Advisory.release Advisory.session
  rw [hconn]
  split
  · rfl
  · rcases server.query with cause | _ <;> rfl

/-- Without a connection nothing is held. -/
theorem held_of_conn_eq_none (hagrees : advisory.Agrees) (hconn : advisory.conn = none) :
    advisory.held = ∅ := by
  by_contra hne
  obtain ⟨resource, hmem⟩ := Finset.nonempty_iff_ne_empty.mpr hne
  exact hagrees.conn_ne_none hmem hconn

end Calls

/-! ## The database -/

section Database

variable {sessions sessions' : ℕ → Option (Multiset Int64)}

/-- The session is alive and holds the key. -/
def Has (sessions : ℕ → Option (Multiset Int64)) (session : ℕ) (key : Int64) : Prop :=
  ∃ locks, sessions session = some locks ∧ key ∈ locks

/-- A key is held by one session at a time. -/
def Exclusive (sessions : ℕ → Option (Multiset Int64)) : Prop :=
  ∀ session other key, Has sessions session key → Has sessions other key → session = other

theorem Exclusive.mono (hexclusive : Exclusive sessions)
    (hhas : ∀ session key, Has sessions' session key → Has sessions session key) :
    Exclusive sessions' :=
  fun _ _ _ hsession hother => hexclusive _ _ _ (hhas _ _ hsession) (hhas _ _ hother)

/-- The database grants a key that no other session holds. -/
theorem Exclusive.grant (hexclusive : Exclusive sessions) {owner : ℕ} {key : Int64}
    (hfree : ∀ other, Has sessions other key → other = owner)
    (hhas : ∀ session other, Has sessions' session other →
      Has sessions session other ∨ session = owner ∧ other = key) : Exclusive sessions' := by
  intro session other shared hsession hother
  rcases hhas _ _ hsession with hold | ⟨rfl, rfl⟩
  · rcases hhas _ _ hother with hold' | ⟨rfl, rfl⟩
    · exact hexclusive _ _ _ hold hold'
    · exact hfree session hold
  · rcases hhas _ _ hother with hold' | ⟨rfl, -⟩
    · exact (hfree other hold').symm
    · rfl

variable (cluster : Cluster)

theorem setAdvisory_self (owner : ℕ) (advisory : Advisory) :
    cluster.setAdvisory owner advisory owner = { cluster.instances owner with advisory } :=
  Function.update_self ..

theorem setAdvisory_of_ne {owner other : ℕ} (advisory : Advisory) (hne : other ≠ owner) :
    cluster.setAdvisory owner advisory other = cluster.instances other :=
  Function.update_of_ne hne ..

/-- A call leaves every instance on its session. -/
theorem session_setAdvisory (owner : ℕ) (advisory : Advisory) (other : ℕ) :
    (cluster.setAdvisory owner advisory other).session = (cluster.instances other).session := by
  by_cases hsame : other = owner
  · rw [hsame, setAdvisory_self]
  · rw [setAdvisory_of_ne cluster advisory hsame]

theorem change_apply (session other : ℕ) (serves : Bool)
    (edit : Multiset Int64 → Multiset Int64) :
    cluster.change session serves edit other =
      if serves = true ∧ other = session then (cluster.sessions session).map edit
      else cluster.sessions other := by
  unfold Cluster.change
  cases serves with
  | false => rfl
  | true =>
      rw [if_pos rfl, Function.update_apply]
      simp only [true_and]

/-- A query on a session leaves it alive or dead. -/
theorem change_ne_none (session other : ℕ) (serves : Bool)
    (edit : Multiset Int64 → Multiset Int64) :
    cluster.change session serves edit other ≠ none ↔ cluster.sessions other ≠ none := by
  rw [change_apply]
  split
  · rename_i hsame
    rw [hsame.2, ne_eq, Option.map_eq_none_iff]
  · rfl

theorem has_change_cons {session other : ℕ} {serves : Bool} {key key' : Int64} :
    Has (cluster.change session serves (key ::ₘ ·)) other key' →
      Has cluster.sessions other key' ∨ serves = true ∧ other = session ∧ key' = key := by
  rintro ⟨locks, hlocks, hmem⟩
  rw [change_apply] at hlocks
  split at hlocks
  · rename_i hsame
    obtain ⟨before, hbefore, rfl⟩ := Option.map_eq_some_iff.mp hlocks
    rcases Multiset.mem_cons.mp hmem with rfl | hold
    · exact .inr ⟨hsame.1, hsame.2, rfl⟩
    · exact .inl ⟨before, hsame.2 ▸ hbefore, hold⟩
  · exact .inl ⟨locks, hlocks, hmem⟩

theorem has_change_cons_of_has {session other : ℕ} {serves : Bool} {key key' : Int64}
    (hhas : Has cluster.sessions other key') :
    Has (cluster.change session serves (key ::ₘ ·)) other key' := by
  obtain ⟨locks, hlocks, hmem⟩ := hhas
  rw [Has, change_apply]
  split
  · rename_i hsame
    rw [hsame.2] at hlocks
    exact ⟨key ::ₘ locks, by rw [hlocks, Option.map_some], Multiset.mem_cons_of_mem hmem⟩
  · exact ⟨locks, hlocks, hmem⟩

theorem has_of_change_erase {session other : ℕ} {serves : Bool} {key key' : Int64} :
    Has (cluster.change session serves (·.erase key)) other key' →
      Has cluster.sessions other key' := by
  rintro ⟨locks, hlocks, hmem⟩
  rw [change_apply] at hlocks
  split at hlocks
  · rename_i hsame
    obtain ⟨before, hbefore, rfl⟩ := Option.map_eq_some_iff.mp hlocks
    exact ⟨before, hsame.2 ▸ hbefore, Multiset.mem_of_mem_erase hmem⟩
  · exact ⟨locks, hlocks, hmem⟩

end Database

/-! ## The invariant -/

structure ClusterInv (cluster : Cluster) : Prop where
  bounded : ∀ session, cluster.opened ≤ session → cluster.sessions session = none
  exclusive : Exclusive cluster.sessions
  agrees : ∀ owner, (cluster.instances owner).advisory.Agrees
  connected : ∀ owner, (cluster.instances owner).advisory.conn ≠ none →
    (cluster.instances owner).session < cluster.opened
  /-- An instance and the database agree on the locks of a session that is alive. -/
  view : ∀ owner locks, (cluster.instances owner).advisory.conn ≠ none →
    cluster.sessions (cluster.instances owner).session = some locks →
      (cluster.instances owner).advisory.conn = some locks
  apart : ∀ owner other, (cluster.instances owner).advisory.conn ≠ none →
    (cluster.instances other).advisory.conn ≠ none →
      (cluster.instances owner).session = (cluster.instances other).session → owner = other
  past : ∀ (index : ℕ) acquisition, cluster.taken[index]? = some acquisition →
    acquisition.session < cluster.opened
  guarded : ∀ (index : ℕ) acquisition, cluster.taken[index]? = some acquisition →
    acquisition.released = false → cluster.sessions acquisition.session ≠ none →
      Has cluster.sessions acquisition.session (advisoryKey acquisition.lock.resource)
  /-- On the session of a connection, what is not released is on the map. -/
  current : ∀ (index : ℕ) acquisition owner, cluster.taken[index]? = some acquisition →
    acquisition.released = false → (cluster.instances owner).advisory.conn ≠ none →
      acquisition.session = (cluster.instances owner).session →
        acquisition.lock.resource ∈ (cluster.instances owner).advisory.held
  unique : ∀ (left right : ℕ) first second, cluster.taken[left]? = some first →
    cluster.taken[right]? = some second → first.released = false → second.released = false →
      first.session = second.session → first.lock.resource = second.lock.resource →
        left = right

section Steps

variable {cluster : Cluster}

theorem ClusterInv.connect (hinv : ClusterInv cluster) {owner : ℕ}
    (hconn : (cluster.instances owner).advisory.conn = none) :
    ClusterInv (cluster.step (.connect owner)) := by
  have hheld := held_of_conn_eq_none (hinv.agrees owner) hconn
  have hfresh : ∀ session, session < cluster.opened →
      Function.update cluster.sessions cluster.opened (some 0) session =
        cluster.sessions session :=
    fun session hless => Function.update_of_ne hless.ne ..
  have hhas : ∀ session key,
      Has (Function.update cluster.sessions cluster.opened (some 0)) session key →
        Has cluster.sessions session key := by
    rintro session key ⟨locks, hlocks, hmem⟩
    by_cases hnew : session = cluster.opened
    · rw [hnew, Function.update_self, Option.some.injEq] at hlocks
      rw [← hlocks] at hmem
      exact absurd hmem (Multiset.notMem_zero key)
    · rw [Function.update_of_ne hnew] at hlocks
      exact ⟨locks, hlocks, hmem⟩
  have hother : ∀ other, other ≠ owner →
      (cluster.step (.connect owner)).instances other = cluster.instances other :=
    fun other hne => Function.update_of_ne hne ..
  have hself : (cluster.step (.connect owner)).instances owner =
      ⟨{ (cluster.instances owner).advisory with conn := some 0 }, cluster.opened⟩ :=
    Function.update_self ..
  have hbelow : ∀ other, other ≠ owner →
      ((cluster.step (.connect owner)).instances other).advisory.conn ≠ none →
      ((cluster.step (.connect owner)).instances other).session < cluster.opened := by
    intro other hne hconnected
    rw [hother other hne] at hconnected ⊢
    exact hinv.connected other hconnected
  constructor
  · intro session hbound
    have hne : session ≠ cluster.opened := (Nat.lt_of_succ_le hbound).ne'
    exact (Function.update_of_ne hne ..).trans (hinv.bounded session (Nat.le_of_succ_le hbound))
  · exact hinv.exclusive.mono hhas
  · intro other
    by_cases hsame : other = owner
    · rw [hsame, hself, Advisory.Agrees, hheld]
      rfl
    · rw [hother other hsame]
      exact hinv.agrees other
  · intro other hconnected
    by_cases hsame : other = owner
    · rw [hsame, hself]
      exact Nat.lt_succ_self _
    · exact (hbelow other hsame hconnected).trans (Nat.lt_succ_self _)
  · intro other locks hconnected hlocks
    by_cases hsame : other = owner
    · rw [hsame, hself] at hlocks ⊢
      have hempty : Function.update cluster.sessions cluster.opened (some 0) cluster.opened =
          some 0 := Function.update_self ..
      exact hempty.symm.trans hlocks
    · have hless := hbelow other hsame hconnected
      rw [hother other hsame] at hless hconnected hlocks ⊢
      exact hinv.view other locks hconnected ((hfresh _ hless).symm.trans hlocks)
  · intro first second hfirst hsecond hsame
    by_cases hleft : first = owner <;> by_cases hright : second = owner
    · rw [hleft, hright]
    · have hless := hbelow second hright hsecond
      rw [← hsame, hleft, hself] at hless
      exact absurd hless (lt_irrefl _)
    · have hless := hbelow first hleft hfirst
      rw [hsame, hright, hself] at hless
      exact absurd hless (lt_irrefl _)
    · rw [hother first hleft] at hfirst hsame
      rw [hother second hright] at hsecond hsame
      exact hinv.apart first second hfirst hsecond hsame
  · intro index acquisition htaken
    exact (hinv.past index acquisition htaken).trans (Nat.lt_succ_self _)
  · intro index acquisition htaken hreleased halive
    have hless := hinv.past index acquisition htaken
    have hsession := hfresh acquisition.session hless
    obtain ⟨locks, hlocks, hmem⟩ :=
      hinv.guarded index acquisition htaken hreleased (hsession ▸ halive)
    exact ⟨locks, hsession.trans hlocks, hmem⟩
  · intro index acquisition other htaken hreleased hconnected hsame
    by_cases howner : other = owner
    · rw [howner, hself] at hsame
      exact absurd hsame (hinv.past index acquisition htaken).ne
    · rw [hother other howner] at hconnected hsame ⊢
      exact hinv.current index acquisition other htaken hreleased hconnected hsame
  · exact hinv.unique

/-- A call of an instance changes its own map and session, releases what it releases and
takes a resource that was not on the map. -/
theorem ClusterInv.move (hinv : ClusterInv cluster) {owner : ℕ} {advisory : Advisory}
    {sessions : ℕ → Option (Multiset Int64)} {taken : List Taken}
    (hconn : (cluster.instances owner).advisory.conn ≠ none)
    (halive : ∀ session, sessions session ≠ none → cluster.sessions session ≠ none)
    (hothers : ∀ session, session ≠ (cluster.instances owner).session →
      sessions session = cluster.sessions session)
    (hexclusive : Exclusive sessions) (hagrees : advisory.Agrees)
    (hview : ∀ locks, advisory.conn ≠ none →
      sessions (cluster.instances owner).session = some locks → advisory.conn = some locks)
    (hpast : ∀ (index : ℕ) acquisition, taken[index]? = some acquisition →
      acquisition.session < cluster.opened)
    (htaken : ∀ (index : ℕ) acquisition, taken[index]? = some acquisition →
      acquisition.released = false → cluster.taken[index]? = some acquisition ∨
        index = cluster.taken.length ∧
          acquisition.session = (cluster.instances owner).session ∧
          acquisition.lock.resource ∉ (cluster.instances owner).advisory.held)
    (hguarded : ∀ (index : ℕ) acquisition, taken[index]? = some acquisition →
      acquisition.released = false → sessions acquisition.session ≠ none →
        Has sessions acquisition.session (advisoryKey acquisition.lock.resource))
    (hcurrent : ∀ (index : ℕ) acquisition, taken[index]? = some acquisition →
      acquisition.released = false → advisory.conn ≠ none →
        acquisition.session = (cluster.instances owner).session →
          acquisition.lock.resource ∈ advisory.held) :
    ClusterInv { cluster with
      sessions, instances := cluster.setAdvisory owner advisory, taken } := by
  have hother : ∀ other, other ≠ owner →
      cluster.setAdvisory owner advisory other = cluster.instances other :=
    fun other hne => setAdvisory_of_ne cluster advisory hne
  have hself := setAdvisory_self cluster owner advisory
  have hsession := session_setAdvisory cluster owner advisory
  have hconnected : ∀ other,
      (cluster.setAdvisory owner advisory other).advisory.conn ≠ none →
        (cluster.instances other).advisory.conn ≠ none := by
    intro other hother'
    by_cases hsame : other = owner
    · rw [hsame]
      exact hconn
    · rw [hother other hsame] at hother'
      exact hother'
  constructor
  · intro session hbound
    by_contra hne
    exact halive session hne (hinv.bounded session hbound)
  · exact hexclusive
  · intro other
    by_cases hsame : other = owner
    · change (cluster.setAdvisory owner advisory other).advisory.Agrees
      rw [hsame, hself]
      exact hagrees
    · change (cluster.setAdvisory owner advisory other).advisory.Agrees
      rw [hother other hsame]
      exact hinv.agrees other
  · intro other hconn'
    exact (hsession other).trans_lt (hinv.connected other (hconnected other hconn'))
  · intro other locks hconn' hlocks
    change (cluster.setAdvisory owner advisory other).advisory.conn = some locks
    change sessions (cluster.setAdvisory owner advisory other).session = some locks at hlocks
    change (cluster.setAdvisory owner advisory other).advisory.conn ≠ none at hconn'
    rw [hsession other] at hlocks
    by_cases hsame : other = owner
    · rw [hsame, hself] at hconn' ⊢
      rw [hsame] at hlocks
      exact hview locks hconn' hlocks
    · have hold := hconnected other hconn'
      have hapart : (cluster.instances other).session ≠ (cluster.instances owner).session :=
        fun heq => hsame (hinv.apart other owner hold hconn heq)
      rw [hothers _ hapart] at hlocks
      rw [hother other hsame]
      exact hinv.view other locks hold hlocks
  · intro first second hfirst hsecond hsame
    refine hinv.apart first second (hconnected first hfirst) (hconnected second hsecond) ?_
    exact (hsession first).symm.trans (hsame.trans (hsession second))
  · exact hpast
  · exact hguarded
  · intro index acquisition other hacquisition hreleased hconn' hsame
    change acquisition.lock.resource ∈ (cluster.setAdvisory owner advisory other).advisory.held
    change (cluster.setAdvisory owner advisory other).advisory.conn ≠ none at hconn'
    replace hsame := hsame.trans (hsession other)
    by_cases howner : other = owner
    · rw [howner, hself] at hconn' ⊢
      rw [howner] at hsame
      exact hcurrent index acquisition hacquisition hreleased hconn' hsame
    · have hold := hconnected other hconn'
      rw [hother other howner]
      rcases htaken index acquisition hacquisition hreleased with hbefore | ⟨-, hnew, -⟩
      · exact hinv.current index acquisition other hbefore hreleased hold hsame
      · exact absurd (hinv.apart other owner hold hconn (hsame.symm.trans hnew)) howner
  · intro left right first second hfirst hsecond hfirstReleased hsecondReleased hsame hresource
    rcases htaken left first hfirst hfirstReleased with hold | ⟨hleft, hnew, hfree⟩
    · rcases htaken right second hsecond hsecondReleased with hold' | ⟨hright, hnew', hfree'⟩
      · exact hinv.unique left right first second hold hold' hfirstReleased hsecondReleased hsame
          hresource
      · have hmem := hinv.current left first owner hold hfirstReleased hconn (hsame.trans hnew')
        rw [hresource] at hmem
        exact absurd hmem hfree'
    · rcases htaken right second hsecond hsecondReleased with hold' | ⟨hright, -⟩
      · have hmem := hinv.current right second owner hold' hsecondReleased hconn
          (hsame.symm.trans hnew)
        rw [← hresource] at hmem
        exact absurd hmem hfree
      · rw [hleft, hright]

/-- Nothing that is held is lost when another resource is taken off the session. -/
theorem Advisory.Agrees.mem_erase {advisory : Advisory} (hagrees : advisory.Agrees)
    {resource other : String} (hresource : resource ∈ advisory.held)
    (hother : other ∈ advisory.held) (hne : other ≠ resource) :
    advisoryKey other ∈ advisory.locks.erase (advisoryKey resource) := by
  rw [hagrees, ← Multiset.map_erase_of_mem advisoryKey advisory.held.val hresource,
    ← Finset.erase_val]
  exact Multiset.mem_map_of_mem advisoryKey (Finset.mem_erase.mpr ⟨hne, hother⟩)

/-- What the database has for an instance whose query it served. -/
theorem ClusterInv.conn_of_served (hinv : ClusterInv cluster) {owner : ℕ} {query : Query}
    (hconn : (cluster.instances owner).advisory.conn ≠ none)
    (hanswers : cluster.Answers (cluster.instances owner).session query)
    (hserved : query.served = true) :
    ∃ locks, cluster.sessions (cluster.instances owner).session = some locks ∧
      (cluster.instances owner).advisory.conn = some locks := by
  rcases hsession : cluster.sessions (cluster.instances owner).session with _ | locks
  · obtain ⟨cause, rfl⟩ := hanswers hsession
    cases hserved
  · exact ⟨locks, rfl, hinv.view owner locks hconn hsession⟩

/-- A free key is held by no other session. -/
theorem ClusterInv.eq_of_free (hinv : ClusterInv cluster) {session other : ℕ} {key : Int64}
    (hfree : cluster.free session key = true) (hhas : Has cluster.sessions other key) :
    other = session := by
  obtain ⟨locks, hlocks, hmem⟩ := hhas
  by_contra hne
  have hopened : other < cluster.opened := by
    by_contra hbound
    rw [hinv.bounded other (Nat.le_of_not_lt hbound)] at hlocks
    cases hlocks
  exact of_decide_eq_true hfree other hopened hne locks hlocks hmem

/-- A key is granted to a session only if no other session holds it. -/
theorem ClusterInv.exclusive_grant (hinv : ClusterInv cluster) (owner : ℕ) (query : Query)
    (resource : String) :
    Exclusive (cluster.change (cluster.instances owner).session
      (cluster.grants owner query resource) (advisoryKey resource ::ₘ ·)) := by
  cases hgrants : cluster.grants owner query resource with
  | false => exact hinv.exclusive
  | true =>
      have hgranted : advisoryKey resource ∈
            (cluster.sessions (cluster.instances owner).session).getD 0 ∨
          cluster.free (cluster.instances owner).session (advisoryKey resource) = true := by
        simp only [Cluster.grants, Bool.and_eq_true, Bool.or_eq_true, decide_eq_true_eq] at hgrants
        exact hgrants.2
      have hsole : ∀ other, Has cluster.sessions other (advisoryKey resource) →
          other = (cluster.instances owner).session := by
        intro other hhas
        rcases hgranted with hown | hfree
        · refine hinv.exclusive _ _ _ hhas ?_
          rcases hsession : cluster.sessions (cluster.instances owner).session with _ | locks
          · rw [hsession] at hown
            exact absurd hown (Multiset.notMem_zero _)
          · rw [hsession] at hown
            exact ⟨locks, hsession, hown⟩
        · exact hinv.eq_of_free hfree hhas
      refine hinv.exclusive.grant hsole fun session key hhas => ?_
      exact (has_change_cons cluster hhas).imp_right fun hnew => hnew.2

theorem step_acquire_eq_self {owner : ℕ} {query : Query} {resource : String} {err : LockError}
    (hresult : (cluster.instances owner).advisory.acquire
      (cluster.server owner query resource) resource =
        (.error err, (cluster.instances owner).advisory))
    (hgrants : cluster.grants owner query resource = false) :
    cluster.step (.acquire owner query resource) = cluster := by
  have hinstances : cluster.setAdvisory owner (cluster.instances owner).advisory =
      cluster.instances := Function.update_eq_self ..
  simp only [Cluster.step, hresult, hgrants, Cluster.change, hinstances, List.append_nil]
  rfl

/-- What an `Acquire` on a connection does: it takes nothing and leaves everything as it is,
it loses the connection, or it takes the lock. -/
inductive AcquireOutcome (cluster after : Cluster) (owner : ℕ) (query : Query)
    (resource : String) (acquired : Bool) : Prop
  | refused (hacquired : acquired = false) (hafter : after = cluster)
  | lost (hacquired : acquired = false) (hquery : query ≠ .answered)
      (hafter : after = { cluster with
        sessions := cluster.change (cluster.instances owner).session
          (cluster.grants owner query resource) (advisoryKey resource ::ₘ ·)
        instances := cluster.setAdvisory owner newAdvisory })
  | granted (locks : Multiset Int64) (hacquired : acquired = true) (hquery : query = .answered)
      (hfresh : resource ∉ (cluster.instances owner).advisory.held)
      (hgrants : cluster.grants owner query resource = true)
      (hsession : cluster.sessions (cluster.instances owner).session = some locks)
      (hresult : (cluster.instances owner).advisory.acquire
        (cluster.server owner query resource) resource =
          (.ok ⟨resource⟩, ⟨some (advisoryKey resource ::ₘ locks),
            insert resource (cluster.instances owner).advisory.held⟩))
      (hafter : after = { cluster with
        sessions := cluster.change (cluster.instances owner).session true
          (advisoryKey resource ::ₘ ·)
        instances := cluster.setAdvisory owner ⟨some (advisoryKey resource ::ₘ locks),
          insert resource (cluster.instances owner).advisory.held⟩
        taken := cluster.taken ++
          [⟨owner, (cluster.instances owner).session, ⟨resource⟩, false⟩] })

theorem ClusterInv.acquireOutcome (hinv : ClusterInv cluster) {owner : ℕ} {query : Query}
    {resource : String}
    (hallowed : clusterMachine.Allowed cluster (.acquire owner query resource)) :
    AcquireOutcome cluster (cluster.step (.acquire owner query resource)) owner query resource
      (cluster.acquired owner query resource) := by
  obtain ⟨hconn, hanswers⟩ := hallowed
  obtain ⟨locks, hlocks⟩ := Option.ne_none_iff_exists'.mp hconn
  have hacquire := acquire_of_conn hlocks (cluster.server owner query resource) resource
  by_cases hheld : resource ∈ (cluster.instances owner).advisory.held
  · rw [if_pos hheld] at hacquire
    refine .refused (by rw [Cluster.acquired, hacquire]; rfl) ?_
    exact step_acquire_eq_self hacquire (by simp [Cluster.grants, hheld])
  rw [if_neg hheld] at hacquire
  cases query with
  | failed served cause =>
      have hresult : (cluster.instances owner).advisory.acquire
          (cluster.server owner (.failed served cause) resource) resource =
            (.error (.tryLock resource cause), newAdvisory) := hacquire
      refine .lost (by rw [Cluster.acquired, hresult]; rfl) (by simp) ?_
      simp only [Cluster.step, hresult, List.append_nil]
  | answered =>
      obtain ⟨counted, hsession, hcounted⟩ := hinv.conn_of_served hconn hanswers rfl
      rw [hlocks, Option.some.injEq] at hcounted
      rw [← hcounted] at hsession
      have hgrants : cluster.grants owner .answered resource =
          decide (advisoryKey resource ∈ locks ∨
            cluster.free (cluster.instances owner).session (advisoryKey resource) = true) := by
        simp [Cluster.grants, hheld, Query.served, hsession]
      by_cases hgranted : advisoryKey resource ∈ locks ∨
          cluster.free (cluster.instances owner).session (advisoryKey resource) = true
      · have hresult : (cluster.instances owner).advisory.acquire
            (cluster.server owner .answered resource) resource =
              (.ok ⟨resource⟩, ⟨some (advisoryKey resource ::ₘ locks),
                insert resource (cluster.instances owner).advisory.held⟩) :=
          hacquire.trans (if_pos hgranted)
        have hserves : cluster.grants owner .answered resource = true :=
          hgrants.trans (decide_eq_true hgranted)
        refine .granted locks (by rw [Cluster.acquired, hresult]; rfl) rfl hheld hserves
          hsession hresult ?_
        simp only [Cluster.step, hresult, hserves]
      · have hresult := hacquire.trans (if_neg hgranted)
        refine .refused (by rw [Cluster.acquired, hresult]; rfl) ?_
        exact step_acquire_eq_self hresult (hgrants.trans (decide_eq_false hgranted))

/-- A lock more on a session takes none of the others away. -/
theorem ClusterInv.guarded_grant (hinv : ClusterInv cluster) (session : ℕ) (serves : Bool)
    (key : Int64) {index : ℕ} {acquisition : Taken}
    (htaken : cluster.taken[index]? = some acquisition) (hreleased : acquisition.released = false)
    (halive : cluster.change session serves (key ::ₘ ·) acquisition.session ≠ none) :
    Has (cluster.change session serves (key ::ₘ ·)) acquisition.session
      (advisoryKey acquisition.lock.resource) :=
  has_change_cons_of_has cluster
    (hinv.guarded index acquisition htaken hreleased ((change_ne_none ..).mp halive))

theorem ClusterInv.acquire (hinv : ClusterInv cluster) {owner : ℕ} {query : Query}
    {resource : String}
    (hallowed : clusterMachine.Allowed cluster (.acquire owner query resource)) :
    ClusterInv (cluster.step (.acquire owner query resource)) := by
  have hconn := hallowed.1
  have hexclusive := hinv.exclusive_grant owner query resource
  cases hinv.acquireOutcome hallowed with
  | refused _ hafter =>
      rw [hafter]
      exact hinv
  | lost _ _ hafter =>
      rw [hafter]
      refine hinv.move hconn ?_ ?_ hexclusive Advisory.agrees_newAdvisory ?_ hinv.past ?_ ?_ ?_
      · exact fun session => (change_ne_none ..).mp
      · exact fun session hne => (change_apply ..).trans (if_neg fun hsame => hne hsame.2)
      · exact fun _ hnone => absurd rfl hnone
      · exact fun index acquisition htaken _ => .inl htaken
      · exact fun index acquisition => hinv.guarded_grant _ _ _
      · exact fun _ _ _ _ hnone => absurd rfl hnone
  | granted locks _ _ hfresh hgrants hsession hresult hafter =>
      have hnew : cluster.change (cluster.instances owner).session true
          (advisoryKey resource ::ₘ ·) (cluster.instances owner).session =
            some (advisoryKey resource ::ₘ locks) := by
        rw [change_apply, if_pos ⟨rfl, rfl⟩, hsession, Option.map_some]
      have hagrees := (hinv.agrees owner).acquire (cluster.server owner query resource) resource
      rw [hresult] at hagrees
      rw [hgrants] at hexclusive
      rw [hafter]
      refine hinv.move hconn ?_ ?_ hexclusive hagrees ?_ ?_ ?_ ?_ ?_
      · exact fun session => (change_ne_none ..).mp
      · exact fun session hne => (change_apply ..).trans (if_neg fun hsame => hne hsame.2)
      · exact fun found _ hfound => hnew.symm.trans hfound
      · intro index acquisition htaken
        rcases party_of_join htaken with hold | ⟨-, rfl⟩
        · exact hinv.past index acquisition hold
        · exact hinv.connected owner hconn
      · intro index acquisition htaken _
        rcases party_of_join htaken with hold | ⟨hindex, rfl⟩
        · exact .inl hold
        · exact .inr ⟨hindex, rfl, hfresh⟩
      · intro index acquisition htaken hreleased halive
        rcases party_of_join htaken with hold | ⟨-, rfl⟩
        · exact hinv.guarded_grant _ _ _ hold hreleased halive
        · exact ⟨_, hnew, Multiset.mem_cons_self ..⟩
      · intro index acquisition htaken hreleased _ hsame
        rcases party_of_join htaken with hold | ⟨-, rfl⟩
        · exact Finset.mem_insert_of_mem
            (hinv.current index acquisition owner hold hreleased hconn hsame)
        · exact Finset.mem_insert_self ..

/-- An acquisition that is not released after another one is marked so was there before. -/
theorem taken_of_mark {index other : ℕ} {acquisition found : Taken}
    (hfound : (cluster.taken.set index { acquisition with released := true })[other]? =
      some found) (hreleased : found.released = false) :
    other ≠ index ∧ cluster.taken[other]? = some found := by
  rcases party_of_set hfound with ⟨-, rfl⟩ | hold
  · cases hreleased
  · exact hold

theorem session_of_mark {index other : ℕ} {acquisition found : Taken}
    (hacquisition : cluster.taken[index]? = some acquisition)
    (hfound : (cluster.taken.set index { acquisition with released := true })[other]? =
      some found) :
    ∃ before, cluster.taken[other]? = some before ∧ before.session = found.session := by
  rcases party_of_set hfound with ⟨rfl, rfl⟩ | ⟨-, hold⟩
  · exact ⟨acquisition, hacquisition, rfl⟩
  · exact ⟨found, hold, rfl⟩

/-- A release that finds the resource off the map. -/
theorem ClusterInv.mark (hinv : ClusterInv cluster) {index : ℕ} {acquisition : Taken}
    (hacquisition : cluster.taken[index]? = some acquisition) :
    ClusterInv { cluster with
      taken := cluster.taken.set index { acquisition with released := true } } := by
  refine ⟨hinv.bounded, hinv.exclusive, hinv.agrees, hinv.connected, hinv.view, hinv.apart,
    ?_, ?_, ?_, ?_⟩
  · intro other found hfound
    obtain ⟨before, hbefore, hsession⟩ := session_of_mark hacquisition hfound
    exact hsession ▸ hinv.past other before hbefore
  · intro other found hfound hreleased
    exact hinv.guarded other found (taken_of_mark hfound hreleased).2 hreleased
  · intro other found owner hfound hreleased
    exact hinv.current other found owner (taken_of_mark hfound hreleased).2 hreleased
  · intro left right first second hfirst hsecond hleft hright
    exact hinv.unique left right first second (taken_of_mark hfirst hleft).2
      (taken_of_mark hsecond hright).2 hleft hright

/-- What is not released is still held once another acquisition of the session is. -/
theorem ClusterInv.guarded_erase (hinv : ClusterInv cluster) {index other : ℕ}
    {acquisition found : Taken} (hacquisition : cluster.taken[index]? = some acquisition)
    (hfound : cluster.taken[other]? = some found) (hne : other ≠ index)
    (hreleased : found.released = false)
    (hheld : acquisition.lock.resource ∈
      (cluster.instances acquisition.owner).advisory.held)
    (howns : cluster.Owns acquisition) (serves : Bool)
    (halive : cluster.sessions found.session ≠ none) :
    Has (cluster.change (cluster.instances acquisition.owner).session serves
      (·.erase (advisoryKey acquisition.lock.resource))) found.session
      (advisoryKey found.lock.resource) := by
  obtain ⟨hsession, hunreleased⟩ := howns hheld
  have hconn := (hinv.agrees acquisition.owner).conn_ne_none hheld
  rw [Has, change_apply]
  split
  · rename_i hsame
    obtain ⟨locks, hlocks⟩ := Option.ne_none_iff_exists'.mp halive
    rw [hsame.2] at hlocks
    have hcounted := hinv.view acquisition.owner locks hconn hlocks
    have hmem := hinv.current other found acquisition.owner hfound hreleased hconn hsame.2
    have hdistinct : found.lock.resource ≠ acquisition.lock.resource := fun heq =>
      hne (hinv.unique other index found acquisition hfound hacquisition hreleased hunreleased
        (hsame.2.trans hsession.symm) heq)
    have hkept := (hinv.agrees acquisition.owner).mem_erase hheld hmem hdistinct
    rw [Advisory.locks, hcounted] at hkept
    exact ⟨locks.erase _, by rw [hlocks, Option.map_some], hkept⟩
  · exact hinv.guarded other found hfound hreleased halive

theorem ClusterInv.release (hinv : ClusterInv cluster) {index : ℕ} {query : Query}
    (hallowed : clusterMachine.Allowed cluster (.release index query)) :
    ClusterInv (cluster.step (.release index query)) := by
  rcases hacquisition : cluster.taken[index]? with _ | acquisition
  · have hsame : cluster.step (.release index query) = cluster := by
      rw [Cluster.step, hacquisition]
    rw [hsame]
    exact hinv
  obtain ⟨hanswers, howns⟩ := hallowed acquisition hacquisition
  simp only [Cluster.step, hacquisition]
  by_cases hheld : acquisition.lock.resource ∈
      (cluster.instances acquisition.owner).advisory.held
  · have hconn := (hinv.agrees acquisition.owner).conn_ne_none hheld
    obtain ⟨locks, hlocks⟩ := Option.ne_none_iff_exists'.mp hconn
    have hagrees := (hinv.agrees acquisition.owner).release
      (cluster.server acquisition.owner query acquisition.lock.resource) acquisition.lock
    rw [release_of_conn hlocks, if_neg (not_not.mpr hheld)] at hagrees ⊢
    rw [decide_eq_true hheld, Bool.true_and]
    refine hinv.move hconn ?_ ?_ ?_ hagrees ?_ ?_ ?_ ?_ ?_
    · exact fun session => (change_ne_none ..).mp
    · exact fun session hne => (change_apply ..).trans (if_neg fun hsame => hne hsame.2)
    · exact hinv.exclusive.mono fun session key => has_of_change_erase cluster
    · intro found hconn' hfound
      cases query with
      | failed served cause => exact absurd rfl hconn'
      | answered =>
          obtain ⟨counted, hsession, hcounted⟩ := hinv.conn_of_served hconn hanswers rfl
          rw [hlocks, Option.some.injEq] at hcounted
          rw [change_apply, if_pos ⟨rfl, rfl⟩, hsession, ← hcounted] at hfound
          exact hfound
    · intro other found hfound
      obtain ⟨before, hbefore, hsession⟩ := session_of_mark hacquisition hfound
      exact hsession ▸ hinv.past other before hbefore
    · exact fun other found hfound hreleased => .inl (taken_of_mark hfound hreleased).2
    · intro other found hfound hreleased halive
      obtain ⟨hne, hold⟩ := taken_of_mark hfound hreleased
      exact hinv.guarded_erase hacquisition hold hne hreleased hheld howns _
        ((change_ne_none ..).mp halive)
    · intro other found hfound hreleased hconn' hsame
      obtain ⟨hne, hold⟩ := taken_of_mark hfound hreleased
      obtain ⟨hsession, hunreleased⟩ := howns hheld
      have hmem := hinv.current other found acquisition.owner hold hreleased hconn hsame
      have hdistinct : found.lock.resource ≠ acquisition.lock.resource := fun heq =>
        hne (hinv.unique other index found acquisition hold hacquisition hreleased hunreleased
          (hsame.trans hsession.symm) heq)
      cases query with
      | failed served cause => exact absurd rfl hconn'
      | answered => exact Finset.mem_erase.mpr ⟨hdistinct, hmem⟩
  · have hsame : ((cluster.instances acquisition.owner).advisory.release
        (cluster.server acquisition.owner query acquisition.lock.resource)
          acquisition.lock).2 = (cluster.instances acquisition.owner).advisory := by
      rw [Advisory.release, if_pos hheld]
    have hinstances : cluster.setAdvisory acquisition.owner
        (cluster.instances acquisition.owner).advisory = cluster.instances :=
      Function.update_eq_self ..
    rw [hsame, decide_eq_false hheld, Bool.false_and, hinstances]
    exact hinv.mark hacquisition

theorem ClusterInv.close (hinv : ClusterInv cluster) (owner : ℕ) :
    ClusterInv (cluster.step (.close owner)) := by
  rw [Cluster.step, Advisory.close, Advisory.discard]
  split
  · have hinstances : cluster.setAdvisory owner (cluster.instances owner).advisory =
        cluster.instances := Function.update_eq_self ..
    rw [hinstances]
    exact hinv
  · rename_i locks hlocks
    refine hinv.move (by simp [hlocks]) (fun _ => id) (fun _ _ => rfl) hinv.exclusive
      Advisory.agrees_newAdvisory ?_ hinv.past ?_ hinv.guarded ?_
    · exact fun _ hnone => absurd rfl hnone
    · exact fun index acquisition htaken _ => .inl htaken
    · exact fun _ _ _ _ hnone => absurd rfl hnone

/-- A session that ends takes its locks with it. -/
theorem ClusterInv.ends (hinv : ClusterInv cluster) (session : ℕ) :
    ClusterInv (cluster.step (.ends session)) := by
  have hkept : ∀ other, Function.update cluster.sessions session none other ≠ none →
      Function.update cluster.sessions session none other = cluster.sessions other := by
    intro other halive
    by_cases hsame : other = session
    · rw [hsame, Function.update_self] at halive
      exact absurd rfl halive
    · exact Function.update_of_ne hsame ..
  refine ⟨?_, ?_, hinv.agrees, hinv.connected, ?_, hinv.apart, hinv.past, ?_, hinv.current,
    hinv.unique⟩
  · intro other hbound
    by_contra halive
    exact halive ((hkept other halive).trans (hinv.bounded other hbound))
  · refine hinv.exclusive.mono ?_
    rintro other key ⟨locks, hlocks, hmem⟩
    have halive := Option.ne_none_iff_exists'.mpr ⟨locks, hlocks⟩
    exact ⟨locks, (hkept other halive).symm.trans hlocks, hmem⟩
  · intro owner locks hconn hlocks
    have halive := Option.ne_none_iff_exists'.mpr ⟨locks, hlocks⟩
    exact hinv.view owner locks hconn ((hkept _ halive).symm.trans hlocks)
  · intro index acquisition htaken hreleased halive
    have hsame := hkept _ halive
    obtain ⟨locks, hlocks, hmem⟩ :=
      hinv.guarded index acquisition htaken hreleased (hsame ▸ halive)
    exact ⟨locks, hsame.trans hlocks, hmem⟩

theorem clusterInv (hreach : clusterMachine.Reachable cluster) : ClusterInv cluster := by
  apply hreach.invariant ClusterInv
  · rintro initial ⟨hsessions, hopened, hinstances, htaken⟩
    have hconn : ∀ owner, (initial.instances owner).advisory.conn = none := by
      intro owner
      rw [hinstances owner]
      rfl
    have hnone : ∀ index : ℕ, initial.taken[index]? = none := by
      rw [htaken]
      exact fun _ => rfl
    constructor
    · intro session _
      rw [hsessions]
    · rintro session other key ⟨locks, hlocks, -⟩
      rw [hsessions] at hlocks
      cases hlocks
    · intro owner
      rw [hinstances owner]
      exact Advisory.agrees_newAdvisory
    · exact fun owner hconn' => absurd (hconn owner) hconn'
    · exact fun owner _ hconn' => absurd (hconn owner) hconn'
    · exact fun owner _ hconn' => absurd (hconn owner) hconn'
    · intro index acquisition hacquisition
      cases (hnone index).symm.trans hacquisition
    · intro index acquisition hacquisition
      cases (hnone index).symm.trans hacquisition
    · intro index acquisition _ hacquisition
      cases (hnone index).symm.trans hacquisition
    · intro left right first second hfirst
      cases (hnone left).symm.trans hfirst
  · intro before label _ hallowed hinv
    cases label with
    | connect owner => exact hinv.connect hallowed
    | acquire owner query resource => exact hinv.acquire hallowed
    | release index query => exact hinv.release hallowed
    | close owner => exact hinv.close owner
    | ends session => exact hinv.ends session

theorem ClusterInv.protected_eq (hinv : ClusterInv cluster) {left right : ℕ}
    {resource : String} (hleft : cluster.Protected left resource)
    (hright : cluster.Protected right resource) : left = right := by
  obtain ⟨first, hfirst, hfirstResource, hfirstReleased, hfirstAlive⟩ := hleft
  obtain ⟨second, hsecond, hsecondResource, hsecondReleased, hsecondAlive⟩ := hright
  have hmine := hinv.guarded left first hfirst hfirstReleased hfirstAlive
  have hyours := hinv.guarded right second hsecond hsecondReleased hsecondAlive
  rw [hfirstResource] at hmine
  rw [hsecondResource] at hyours
  exact hinv.unique left right first second hfirst hsecond hfirstReleased hsecondReleased
    (hinv.exclusive _ _ _ hmine hyours) (hfirstResource.trans hsecondResource.symm)

/-- Across all instances, two acquisitions of a resource that are not released and whose
sessions are both alive are the same one. -/
theorem protected_acquisitions_eq (hreach : clusterMachine.Reachable cluster) {left right : ℕ}
    {resource : String} (hleft : cluster.Protected left resource)
    (hright : cluster.Protected right resource) : left = right :=
  (clusterInv hreach).protected_eq hleft hright

end Steps

/-- Two instances want the same job.  The second gets it when the session of the first has
ended, which the first has not noticed yet. -/
def takeoverRun : List ClusterLabel :=
  [.connect 0, .acquire 0 .answered "job:exec:1", .connect 1,
    .acquire 1 .answered "job:exec:1", .ends 0, .acquire 1 .answered "job:exec:1"]

def takenOver : Cluster :=
  clusterMachine.run ⟨fun _ => none, 0, fun _ => ⟨newAdvisory, 0⟩, []⟩ takeoverRun

theorem reachable_takenOver : clusterMachine.Reachable takenOver := by
  refine Machine.Reachable.run (.start ⟨rfl, rfl, fun _ => rfl, rfl⟩) ?_
  exact ⟨rfl, ⟨by decide +kernel, fun hgone => absurd hgone (by decide +kernel)⟩, rfl,
    ⟨by decide +kernel, fun hgone => absurd hgone (by decide +kernel)⟩, trivial,
    ⟨by decide +kernel, fun hgone => absurd hgone (by decide +kernel)⟩, trivial⟩

theorem taken_takenOver : takenOver.taken =
    [⟨0, 0, ⟨"job:exec:1"⟩, false⟩, ⟨1, 1, ⟨"job:exec:1"⟩, false⟩] := by
  decide +kernel

theorem protected_acquisitions_eq_takenOver :
    takenOver.Protected 1 "job:exec:1" ∧ ¬ takenOver.Protected 0 "job:exec:1" := by
  have hprotected : takenOver.Protected 1 "job:exec:1" := by
    refine ⟨⟨1, 1, ⟨"job:exec:1"⟩, false⟩, by rw [taken_takenOver]; rfl, rfl, rfl, ?_⟩
    decide +kernel
  refine ⟨hprotected, fun hother => ?_⟩
  exact absurd (protected_acquisitions_eq reachable_takenOver hprotected hother) (by decide)

end Conduit.AdvisoryLock
