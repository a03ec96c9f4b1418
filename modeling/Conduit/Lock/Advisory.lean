import Mathlib.Data.Finset.Basic
import Mathlib.Data.Multiset.MapFold
import Mathlib.Data.Multiset.AddSub

/-!
# Advisory locks

`lock.Advisory` guards the execution of a job with advisory locks of one database session.
The session counts how often it took a key, and the map `held` keeps the process from
taking a resource twice.  A failed query, or `Close`, ends the session and empties the map.
-/

namespace Conduit.AdvisoryLock

/-! ## Keys -/

/-- `hash/fnv` with `New64a`. -/
def fnv64a (bytes : List UInt8) : UInt64 :=
  bytes.foldl (fun hash byte => (hash ^^^ byte.toUInt64) * 1099511628211)
    14695981039346656037

def advisoryKey (resource : String) : Int64 :=
  (fnv64a resource.toUTF8.data.toList).toInt64

/-! ## Calls -/

/-- A `lock.Lock`; an advisory lock leaves `Value` and `Expiry` at their zero values. -/
structure Lock where
  resource : String
  deriving DecidableEq

inductive LockError
  | alreadyHeld (resource : String)
  | session (cause : String)
  | tryLock (resource cause : String)
  | heldElsewhere (resource : String)
  | release (resource cause : String)
  deriving DecidableEq

def LockError.message : LockError → String
  | .alreadyHeld resource => "lock: " ++ resource ++ " is already held by this process"
  | .session cause => "lock: acquire advisory lock session: " ++ cause
  | .tryLock resource cause => "lock: try advisory lock on " ++ resource ++ ": " ++ cause
  | .heldElsewhere resource => "lock: " ++ resource ++ " is held by another instance"
  | .release resource cause =>
      "lock: release advisory lock on " ++ resource ++ ": " ++ cause

/-- What the pool and the database answer during one call. -/
structure Server where
  /-- `pool.Acquire`. -/
  pool : Except String Unit
  /-- Whether the query fails. -/
  query : Except String Unit
  /-- No other session holds the key. -/
  free : Bool

structure Advisory where
  /-- The dedicated connection, by the locks the server counts for its session. -/
  conn : Option (Multiset Int64)
  held : Finset String
  deriving DecidableEq

namespace Advisory

variable (advisory : Advisory)

def locks : Multiset Int64 := advisory.conn.getD 0

def session (pool : Except String Unit) : Except LockError (Multiset Int64) :=
  match advisory.conn with
  | some locks => .ok locks
  | none =>
      match pool with
      | .error cause => .error (.session cause)
      | .ok _ => .ok 0

/-- Without a connection there is nothing to end, and `held` is left alone. -/
def discard : Advisory :=
  match advisory.conn with
  | none => advisory
  | some _ => { conn := none, held := ∅ }

/-- `Acquire`.  A session may take a key it already has. -/
def acquire (server : Server) (resource : String) : Except LockError Lock × Advisory :=
  if resource ∈ advisory.held then (.error (.alreadyHeld resource), advisory)
  else
    match advisory.session server.pool with
    | .error err => (.error err, advisory)
    | .ok locks =>
        let opened : Advisory := { advisory with conn := some locks }
        match server.query with
        | .error cause => (.error (.tryLock resource cause), opened.discard)
        | .ok _ =>
            if advisoryKey resource ∈ locks ∨ server.free = true then
              (.ok ⟨resource⟩,
                { conn := some (advisoryKey resource ::ₘ locks)
                  held := insert resource advisory.held })
            else (.error (.heldElsewhere resource), opened)

/-- `Release`.  All it knows of the lock is the name of the resource. -/
def release (server : Server) (lock : Lock) : Except LockError Unit × Advisory :=
  if lock.resource ∉ advisory.held then (.ok (), advisory)
  else
    let erased : Advisory := { advisory with held := advisory.held.erase lock.resource }
    match erased.session server.pool with
    | .error err => (.error err, erased)
    | .ok locks =>
        let opened : Advisory := { erased with conn := some locks }
        match server.query with
        | .error cause => (.error (.release lock.resource cause), opened.discard)
        | .ok _ =>
            (.ok (), { opened with conn := some (locks.erase (advisoryKey lock.resource)) })

def close : Advisory := advisory.discard

end Advisory

def newAdvisory : Advisory where
  conn := none
  held := ∅

/-! ## What a call leaves behind -/

namespace Advisory

variable {advisory : Advisory}

/-- The server holds one lock for each resource of the map. -/
def Agrees (advisory : Advisory) : Prop :=
  advisory.locks = advisory.held.val.map advisoryKey

theorem agrees_newAdvisory : newAdvisory.Agrees := rfl

theorem Agrees.conn_ne_none (hagrees : advisory.Agrees) {resource : String}
    (hheld : resource ∈ advisory.held) : advisory.conn ≠ none := by
  intro hconn
  rw [Agrees, locks, hconn] at hagrees
  have hempty : advisory.held.val = 0 := Multiset.map_eq_zero.mp hagrees.symm
  rw [← Finset.mem_val, hempty] at hheld
  exact Multiset.notMem_zero resource hheld

theorem locks_eq_of_session {pool : Except String Unit} {locks : Multiset Int64}
    (hsession : advisory.session pool = .ok locks) : locks = advisory.locks := by
  unfold session at hsession
  rw [Advisory.locks]
  split at hsession
  · rename_i hconn
    rw [hconn]
    exact (Except.ok.inj hsession).symm
  · rename_i hconn
    rw [hconn]
    split at hsession
    · cases hsession
    · exact (Except.ok.inj hsession).symm

theorem discard_opened (advisory : Advisory) (locks : Multiset Int64) :
    ({ advisory with conn := some locks } : Advisory).discard = newAdvisory := rfl

/-- `Acquire` takes the lock, or fails and leaves everything or nothing. -/
theorem acquire_cases (advisory : Advisory) (server : Server) (resource : String) :
    let after := (advisory.acquire server resource).2
    (resource ∉ advisory.held ∧ (advisory.acquire server resource).1 = .ok ⟨resource⟩ ∧
      after.held = insert resource advisory.held ∧
      after.locks = advisoryKey resource ::ₘ advisory.locks) ∨
    (∃ err, (advisory.acquire server resource).1 = .error err) ∧
      (after.held = advisory.held ∧ after.locks = advisory.locks ∨ after = newAdvisory) := by
  intro after
  by_cases hheld : resource ∈ advisory.held
  · dsimp only [after, acquire]
    rw [if_pos hheld]
    exact .inr ⟨⟨_, rfl⟩, .inl ⟨rfl, rfl⟩⟩
  dsimp only [after, acquire]
  rw [if_neg hheld]
  rcases hsession : advisory.session server.pool with err | locks
  · exact .inr ⟨⟨_, rfl⟩, .inl ⟨rfl, rfl⟩⟩
  have hlocks := locks_eq_of_session hsession
  rcases server.query with cause | -
  · exact .inr ⟨⟨_, rfl⟩, .inr (discard_opened advisory locks)⟩
  dsimp only
  split
  · exact .inl ⟨hheld, rfl, rfl, congrArg (advisoryKey resource ::ₘ ·) hlocks⟩
  · exact .inr ⟨⟨_, rfl⟩, .inl ⟨rfl, hlocks⟩⟩

/-- `Release` takes the resource off the map and off the session, whoever put it there. -/
theorem release_cases (hagrees : advisory.Agrees) (server : Server) (lock : Lock) :
    let after := (advisory.release server lock).2
    (lock.resource ∉ advisory.held ∧ after = advisory) ∨
    lock.resource ∈ advisory.held ∧
      (after.held = advisory.held.erase lock.resource ∧
          after.locks = advisory.locks.erase (advisoryKey lock.resource) ∨
        after = newAdvisory) := by
  intro after
  by_cases hheld : lock.resource ∈ advisory.held
  · refine .inr ⟨hheld, ?_⟩
    dsimp only [after, release]
    rw [if_neg (not_not.mpr hheld)]
    rcases hsession : ({ advisory with held := advisory.held.erase lock.resource } :
        Advisory).session server.pool with err | locks
    · unfold session at hsession
      split at hsession
      · cases hsession
      · rename_i hconn
        exact absurd hconn (hagrees.conn_ne_none hheld)
    have hlocks : locks = advisory.locks := locks_eq_of_session hsession
    rcases server.query with cause | -
    · exact .inr rfl
    · exact .inl ⟨rfl, congrArg (Multiset.erase · (advisoryKey lock.resource)) hlocks⟩
  · dsimp only [after, release]
    rw [if_pos hheld]
    exact .inl ⟨hheld, rfl⟩

theorem Agrees.acquire (hagrees : advisory.Agrees) (server : Server) (resource : String) :
    (advisory.acquire server resource).2.Agrees := by
  rcases acquire_cases advisory server resource with ⟨hnew, -, hheld, hlocks⟩ |
    ⟨-, ⟨hheld, hlocks⟩ | hafter⟩
  · rw [Agrees, hlocks, hheld, Finset.insert_val_of_notMem hnew, Multiset.map_cons, hagrees]
  · rw [Agrees, hlocks, hheld]
    exact hagrees
  · rw [hafter]
    exact agrees_newAdvisory

theorem Agrees.release (hagrees : advisory.Agrees) (server : Server) (lock : Lock) :
    (advisory.release server lock).2.Agrees := by
  rcases release_cases hagrees server lock with ⟨-, hafter⟩ |
    ⟨hmem, ⟨hheld, hlocks⟩ | hafter⟩
  · rw [hafter]
    exact hagrees
  · rw [Agrees, hlocks, hheld, Finset.erase_val, hagrees]
    exact (Multiset.map_erase_of_mem advisoryKey advisory.held.val hmem).symm
  · rw [hafter]
    exact agrees_newAdvisory

/-- Whatever happens to the session, the resource is off the map. -/
theorem Agrees.release_held_subset (hagrees : advisory.Agrees) (server : Server)
    (lock : Lock) :
    (advisory.release server lock).2.held ⊆ advisory.held.erase lock.resource := by
  rcases release_cases hagrees server lock with ⟨hfree, hafter⟩ |
    ⟨-, ⟨hheld, -⟩ | hafter⟩
  · rw [hafter, Finset.erase_eq_of_notMem hfree]
  · rw [hheld]
  · rw [hafter]
    exact Finset.empty_subset _

theorem Agrees.close (hagrees : advisory.Agrees) : advisory.close.Agrees := by
  rw [Advisory.close, discard]
  split
  · exact hagrees
  · exact agrees_newAdvisory

theorem close_held_subset (advisory : Advisory) : advisory.close.held ⊆ advisory.held := by
  rw [close, discard]
  split
  · exact subset_rfl
  · exact Finset.empty_subset _

end Advisory

end Conduit.AdvisoryLock
