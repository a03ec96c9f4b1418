import Mathlib.Data.Fintype.Card
import Conduit.Core.Binary64

/-!
# Redlock

`lock.Manager` takes a lock on a resource by setting a key on a majority of independent
Redis nodes.  An `Acquire` draws one token and tries several times with it: it sends a
`SetNX` to each node in turn, counts the nodes that took the token, and if they are too few
sends each node a script that deletes the key where it still holds the token.  `Release`
sends the same script.  Every request is a step of its own here, and may fail with or
without having reached its node.
-/

namespace Conduit.Redlock

open Binary64

variable {Node : Type*}

/-! ## The manager -/

/-- Durations are in nanoseconds. -/
structure Config where
  quorum : ℤ
  ttl : ℤ
  retryCount : ℤ
  retryDelay : ℤ
  driftFactor : Double

structure Manager (Node : Type*) where
  clients : List Node
  cfg : Config

def newManager (clients : List Node) (cfg : Config) : Manager Node where
  clients
  cfg :=
    { quorum := if cfg.quorum ≤ 0 then clients.length / 2 + 1 else cfg.quorum
      ttl := if cfg.ttl ≤ 0 then 10000000000 else cfg.ttl
      retryCount := if cfg.retryCount ≤ 0 then 3 else cfg.retryCount
      retryDelay := if cfg.retryDelay ≤ 0 then 200000000 else cfg.retryDelay
      driftFactor :=
        if cfg.driftFactor.le (.finite 0) then .ofRat (1 / 100) else cfg.driftFactor }

structure Lock where
  resource : String
  value : String
  expiry : ℤ
  deriving DecidableEq

inductive AcquireError
  | context (cause : String)
  | exhausted (resource : String) (attempts : ℤ)
  deriving DecidableEq

def AcquireError.message : AcquireError → String
  | .context cause => cause
  | .exhausted resource attempts =>
      "lock: could not acquire lock on " ++ resource ++ " after " ++ toString attempts ++
        " attempts"

def hexDigit (value : ℕ) : Char :=
  Char.ofNat (if value < 10 then 48 + value else 87 + value)

/-- `generateToken` on the bytes the random source delivers. -/
def generateToken (random : List UInt8) : String :=
  String.ofList (random.flatMap fun byte =>
    [hexDigit (byte.toNat / 16), hexDigit (byte.toNat % 16)])

/-- What the clocks may drift apart while a key lives.  A product out of range becomes the
least integer, as on amd64. -/
def Config.drift (cfg : Config) : ℤ :=
  ((Double.ofInt cfg.ttl).mul cfg.driftFactor).toInt64.getD (-2 ^ 63)

/-- How long a lock taken in `elapsed` is still good for. -/
def Config.validity (cfg : Config) (elapsed : ℤ) : ℤ :=
  cfg.ttl - elapsed - (cfg.drift + 2000000)

/-! ## The nodes -/

/-- The values the nodes hold, by key. -/
abbrev Keys (Node : Type*) := Node → String → Option String

section Nodes

variable [DecidableEq Node] (keys : Keys Node) (node : Node) (resource value : String)

def write (content : Option String) : Keys Node := fun other name =>
  if other = node ∧ name = resource then content else keys other name

/-- `SET key value NX`. -/
def setNX : Bool × Keys Node :=
  match keys node resource with
  | none => (true, write keys node resource (some value))
  | some _ => (false, keys)

/-- `releaseScript`. -/
def compareAndDelete : Keys Node :=
  if keys node resource = some value then write keys node resource none else keys

end Nodes

/-- How a request ends for its sender.  A failed one may have been served all the same. -/
inductive Reply
  | answered
  | failed (served : Bool) (cause : String)
  deriving DecidableEq

def Reply.served : Reply → Bool
  | .answered => true
  | .failed served _ => served

/-! ## Acquire -/

/-- Where an `Acquire` stands; `rest` are the clients its loop has still to send to. -/
inductive Stage (Node : Type*)
  | setting (attempt acquired : ℤ) (rest : List Node)
  | clearing (attempt : ℤ) (rest : List Node)
  | waiting (attempt : ℤ)
  | held (lock : Lock)
  /-- A `Release` of the lock has begun. -/
  | releasing (lock : Lock)
  | failed (err : AcquireError)
  deriving DecidableEq

structure Call (Node : Type*) where
  manager : Manager Node
  resource : String
  value : String
  stage : Stage Node

/-- An `Acquire` that has drawn its token. -/
def Call.start (manager : Manager Node) (resource value : String) : Call Node where
  manager
  resource
  value
  stage := .setting 0 0 manager.clients

inductive Event
  /-- The next request of a loop over the clients ends. -/
  | reply (reply : Reply)
  /-- A loop over the clients is done, `elapsed` after it began. -/
  | loopEnds (elapsed now : ℤ)
  | retryDelay
  | contextDone (cause : String)

section Acquire

variable [DecidableEq Node] (keys : Keys Node)

/-- The stage a call moves to and what its request does to the nodes. -/
def Call.advance (call : Call Node) : Event → Keys Node × Stage Node
  | .reply reply =>
      match call.stage with
      | .setting attempt acquired (node :: rest) =>
          let result := setNX keys node call.resource call.value
          (if reply.served then result.2 else keys,
            .setting attempt (if reply = .answered ∧ result.1 then acquired + 1 else acquired)
              rest)
      | .clearing attempt (node :: rest) =>
          (if reply.served then compareAndDelete keys node call.resource call.value else keys,
            .clearing attempt rest)
      | stage => (keys, stage)
  | .loopEnds elapsed now =>
      match call.stage with
      | .setting attempt acquired [] =>
          let validity := call.manager.cfg.validity elapsed
          (keys,
            if call.manager.cfg.quorum ≤ acquired ∧ 0 < validity then
              .held ⟨call.resource, call.value, now + validity⟩
            else .clearing attempt call.manager.clients)
      | .clearing attempt [] =>
          (keys,
            if attempt + 1 < call.manager.cfg.retryCount then .waiting (attempt + 1)
            else .failed (.exhausted call.resource call.manager.cfg.retryCount))
      | stage => (keys, stage)
  | .retryDelay =>
      match call.stage with
      | .waiting attempt => (keys, .setting attempt 0 call.manager.clients)
      | stage => (keys, stage)
  | .contextDone cause =>
      match call.stage with
      | .waiting _ => (keys, .failed (.context cause))
      | stage => (keys, stage)

end Acquire

/-! ## Release -/

/-- A `Release` in progress and the errors it has met. -/
structure Release (Node : Type*) where
  lock : Lock
  rest : List Node
  errs : List String

def Release.advance [DecidableEq Node] (keys : Keys Node) (release : Release Node)
    (reply : Reply) : Keys Node × Release Node :=
  match release.rest with
  | [] => (keys, release)
  | node :: rest =>
      (if reply.served then
          compareAndDelete keys node release.lock.resource release.lock.value
        else keys,
        { release with
          rest
          errs := match reply with
            | .answered => release.errs
            | .failed _ cause => release.errs ++ [cause] })

/-! ## The nodes that hold a token -/

section Holding

variable [Fintype Node] {keys : Keys Node}

/-- The nodes on which a resource has a given value. -/
def holding (keys : Keys Node) (resource value : String) : Finset Node :=
  Finset.univ.filter fun node => keys node resource = some value

@[simp]
theorem mem_holding {resource value : String} {node : Node} :
    node ∈ holding keys resource value ↔ keys node resource = some value := by
  simp [holding]

variable [DecidableEq Node]

theorem holding_write_subset {node : Node} {name resource value : String}
    {content : Option String} (hother : keys node name ≠ some value) :
    holding keys resource value ⊆ holding (write keys node name content) resource value := by
  intro other hother'
  rw [mem_holding] at hother' ⊢
  rw [write, if_neg]
  · exact hother'
  · intro hsame
    rw [hsame.1, hsame.2] at hother'
    exact hother hother'

/-- A node takes a token only where it has none. -/
theorem holding_setNX_subset (node : Node) (name token resource value : String) :
    holding keys resource value ⊆ holding (setNX keys node name token).2 resource value := by
  rw [setNX]
  split
  · rename_i hfree
    apply holding_write_subset
    rw [hfree]
    exact Option.some_ne_none value |>.symm
  · exact subset_rfl

/-- The script takes no token but its own. -/
theorem holding_compareAndDelete_subset (node : Node) {name token resource value : String}
    (hne : value ≠ token) :
    holding keys resource value ⊆
      holding (compareAndDelete keys node name token) resource value := by
  rw [compareAndDelete]
  split
  · rename_i hown
    apply holding_write_subset
    rw [hown]
    intro hsame
    exact hne (Option.some.inj hsame).symm
  · exact subset_rfl

/-- A `SetNX` that succeeds leaves its token on the node. -/
theorem mem_holding_setNX {node : Node} {resource value : String}
    (hset : (setNX keys node resource value).1 = true) :
    node ∈ holding (setNX keys node resource value).2 resource value := by
  unfold setNX at hset ⊢
  split at hset
  · rw [mem_holding]
    exact if_pos ⟨rfl, rfl⟩
  · exact absurd hset Bool.false_ne_true

omit [DecidableEq Node] in
/-- A node holds one token at a time. -/
theorem eq_of_mem_holding {node : Node} {resource value other : String}
    (hvalue : node ∈ holding keys resource value)
    (hother : node ∈ holding keys resource other) : value = other := by
  rw [mem_holding] at hvalue hother
  exact Option.some.inj (hvalue.symm.trans hother)

end Holding

end Conduit.Redlock
