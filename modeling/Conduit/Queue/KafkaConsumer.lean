import Conduit.Jobs.Machine
import Conduit.Worker.Pool

/-!
# The Kafka consumer

`ConsumeClaim` handles the messages of a partition one after the other and marks those for
which `Handle` returns no error.  A session of the consumer group starts at the committed
offset and commits the highest offset it has marked, so a message that was refused is
committed away by the next one that is not.

The partition here is one topic partition of one consumer group.  Instances come and go: a
session that has been followed by another may still handle messages, but what it commits is
rejected.  What each session answered is recorded, the latest answer first.  What is assumed
of Kafka and of the client library is `Broker`, and that the log is kept.
-/

namespace Conduit.KafkaConsumer

open Models Transition JobService JobWorker WorkerPool
open JobMachine (plainEnv plainJob)

/-! ## The handler -/

/-- What became of a message. -/
inductive Verdict
  /-- Its value is not the JSON of a job. -/
  | malformed
  /-- Its queue is not one of the instance's. -/
  | foreign
  | accepted
  | refused
  deriving DecidableEq

/-- `Handle` returns no error, and the message is marked. -/
def Verdict.taken : Verdict → Bool
  | .malformed | .foreign | .accepted => true
  | .refused => false

/-- `kafkaJobHandler.claims`. -/
def claims (queues : List String) (queue : String) : Bool :=
  if queues = [] then true
  else if queue = "" then defaultQueue ∈ queues
  else queue ∈ queues

/-- `kafkaJobHandler.Handle`; a message is the job it decodes to, if it does. -/
def handle (queues : List String) (pool : Pool Job) (submission : Pool.Submission) :
    Option Job → Verdict × Pool Job
  | none => (.malformed, pool)
  | some job =>
      if claims queues job.task.queue = true then
        let submitted := pool.submit submission job
        (if submitted.1 then .accepted else .refused, submitted.2)
      else (.foreign, pool)

/-! ## Sessions -/

structure Session where
  /-- The filter of the instance. -/
  queues : List String
  start : ℕ
  /-- The offset it would commit. -/
  marked : ℕ
  verdicts : List Verdict

/-- The offset of the next message. -/
def Session.next (session : Session) : ℕ :=
  session.start + session.verdicts.length

def Session.verdictAt (session : Session) (offset : ℕ) : Option Verdict :=
  if session.start ≤ offset then session.verdicts.reverse[offset - session.start]? else none

/-- A turn of the loop of `ConsumeClaim`. -/
def Session.consume (session : Session) (pool : Pool Job) (submission : Pool.Submission)
    (message : Option Job) : Session :=
  let verdict := (handle session.queues pool submission message).1
  { session with
    marked := if verdict.taken then max session.marked (session.next + 1) else session.marked
    verdicts := verdict :: session.verdicts }

structure Partition where
  log : List (Option Job)
  committed : ℕ
  sessions : List Session

inductive Label
  | publish (message : Option Job)
  /-- The group rebalances, and an instance with this filter is given the partition from an
  offset on. -/
  | join (queues : List String) (start : ℕ)
  /-- A session handles its next message, its pool being in this state. -/
  | consume (index : ℕ) (pool : Pool Job) (submission : Pool.Submission)
  /-- The group's offset is set for a session. -/
  | commit (index offset : ℕ)

namespace Partition

def step (partition : Partition) : Label → Partition
  | .publish message => { partition with log := partition.log ++ [message] }
  | .join queues start => { partition with
      sessions := partition.sessions ++ [⟨queues, start, start, []⟩] }
  | .consume index pool submission =>
      match partition.sessions[index]? with
      | none => partition
      | some session =>
          match partition.log[session.next]? with
          | none => partition
          | some message => { partition with
              sessions := partition.sessions.set index
                (session.consume pool submission message) }
  | .commit _ offset => { partition with committed := offset }

end Partition

/-- A session starts at the committed offset.  It commits the offset after the highest it has
marked, and only as long as it is the latest: Kafka rejects the commit of an earlier
generation of the group. -/
def Broker (partition : Partition) : Label → Prop
  | .join _ start => start = partition.committed
  | .commit index offset => index + 1 = partition.sessions.length ∧
      ∃ session, partition.sessions[index]? = some session ∧ offset = session.marked
  | .publish _ | .consume .. => True

def machine : Machine Partition Label where
  Init partition := partition.committed = 0 ∧ partition.sessions = []
  Allowed := Broker
  step := Partition.step

/-! ## What a session has taken -/

/-- How many of the answers there are up to the last one that marked its message. -/
def takenLength : List Verdict → ℕ
  | [] => 0
  | verdict :: older => if verdict.taken then older.length + 1 else takenLength older

theorem takenLength_le (verdicts : List Verdict) : takenLength verdicts ≤ verdicts.length := by
  induction verdicts with
  | nil => exact le_rfl
  | cons verdict older ih =>
      rw [takenLength, List.length_cons]
      split
      · exact le_rfl
      · exact ih.trans (Nat.le_succ _)

theorem lt_takenLength_iff (verdicts : List Verdict) (index : ℕ) :
    index < takenLength verdicts ↔
      ∃ later, index ≤ later ∧ ∃ verdict, verdicts.reverse[later]? = some verdict ∧
        verdict.taken = true := by
  induction verdicts with
  | nil => simp [takenLength]
  | cons verdict older ih =>
      have hlatest : (verdict :: older).reverse[older.length]? = some verdict := by simp
      rw [takenLength]
      split
      · rename_i htaken
        constructor
        · intro hindex
          exact ⟨older.length, Nat.lt_succ_iff.mp hindex, verdict, hlatest, htaken⟩
        · rintro ⟨later, hlater, other, hother, -⟩
          have hless := (List.getElem?_eq_some_iff.mp hother).1
          rw [List.length_reverse, List.length_cons] at hless
          exact hlater.trans_lt hless
      · rename_i hrefused
        rw [ih]
        constructor
        · rintro ⟨later, hlater, other, hother, htaken⟩
          refine ⟨later, hlater, other, ?_, htaken⟩
          rw [List.reverse_cons]
          exact party_join hother verdict
        · rintro ⟨later, hlater, other, hother, htaken⟩
          rw [List.reverse_cons] at hother
          rcases party_of_join hother with hold | ⟨-, rfl⟩
          · exact ⟨later, hlater, other, hold, htaken⟩
          · exact absurd htaken hrefused

namespace Session

variable {session : Session} {pool : Pool Job} {submission : Pool.Submission}
  {message : Option Job} {offset : ℕ} {verdict : Verdict}

theorem verdictAt_eq_some_iff : session.verdictAt offset = some verdict ↔
    session.start ≤ offset ∧
      session.verdicts.reverse[offset - session.start]? = some verdict := by
  rw [verdictAt]
  split
  · rename_i hstart
    exact (and_iff_right hstart).symm
  · rename_i hstart
    exact iff_of_false nofun fun hboth => hstart hboth.1

/-- Every message from the start on has an answer. -/
theorem exists_verdictAt (hstart : session.start ≤ offset) (hnext : offset < session.next) :
    ∃ verdict, session.verdictAt offset = some verdict := by
  have hindex : offset - session.start < session.verdicts.reverse.length := by
    rw [List.length_reverse]
    rw [next] at hnext
    omega
  exact ⟨_, verdictAt_eq_some_iff.mpr ⟨hstart, List.getElem?_eq_getElem hindex⟩⟩

/-- The answers a turn leaves: those there were, and one to the next message. -/
theorem verdictAt_consume : (session.consume pool submission message).verdictAt offset =
      some verdict ↔
    session.verdictAt offset = some verdict ∨
      offset = session.next ∧ verdict = (handle session.queues pool submission message).1 := by
  have hverdicts : (session.consume pool submission message).verdicts.reverse =
      session.verdicts.reverse ++ [(handle session.queues pool submission message).1] :=
    List.reverse_cons
  rw [verdictAt_eq_some_iff, verdictAt_eq_some_iff, hverdicts]
  change session.start ≤ offset ∧ _ ↔ _
  constructor
  · rintro ⟨hstart, hget⟩
    rcases party_of_join hget with hold | ⟨hindex, rfl⟩
    · exact .inl ⟨hstart, hold⟩
    · refine .inr ⟨?_, rfl⟩
      change offset - session.start = _ at hindex
      rw [List.length_reverse] at hindex
      rw [next]
      omega
  · rintro (⟨hstart, hold⟩ | ⟨rfl, rfl⟩)
    · exact ⟨hstart, party_join hold _⟩
    · refine ⟨Nat.le_add_right _ _, ?_⟩
      change (_ ++ _)[session.next - session.start]? = _
      rw [next, Nat.add_sub_cancel_left, ← List.length_reverse]
      simp

end Session

/-! ## Steps -/

/-- What a step leads to. -/
inductive Stepped (before : Partition) : Partition → Prop
  | same : Stepped before before
  | published (message : Option Job) :
      Stepped before { before with log := before.log ++ [message] }
  | joined (queues : List String) :
      Stepped before { before with
        sessions := before.sessions ++ [⟨queues, before.committed, before.committed, []⟩] }
  | consumed {index : ℕ} {session : Session} (hsession : before.sessions[index]? = some session)
      (pool : Pool Job) (submission : Pool.Submission) {message : Option Job}
      (hmessage : before.log[session.next]? = some message) :
      Stepped before { before with
        sessions := before.sessions.set index (session.consume pool submission message) }
  | committed {index : ℕ} {session : Session} (hsession : before.sessions[index]? = some session)
      (hlast : index + 1 = before.sessions.length) :
      Stepped before { before with committed := session.marked }

theorem stepped {before : Partition} {label : Label} (hbroker : Broker before label) :
    Stepped before (before.step label) := by
  cases label with
  | publish message => exact .published message
  | join queues start =>
      obtain rfl : start = before.committed := hbroker
      exact .joined queues
  | consume index pool submission =>
      rw [Partition.step]
      split
      · exact .same
      · split
        · exact .same
        · exact .consumed ‹_› pool submission ‹_›
  | commit index offset =>
      obtain ⟨hlast, session, hsession, rfl⟩ := hbroker
      exact .committed hsession hlast

/-! ## Every committed message has been answered -/

/-- The answer is one the handler gives to the message. -/
def Answers (queues : List String) : Option Job → Verdict → Prop
  | none, verdict => verdict = .malformed
  | some job, verdict =>
      if claims queues job.task.queue = true then verdict = .accepted ∨ verdict = .refused
      else verdict = .foreign

theorem answers_handle (queues : List String) (pool : Pool Job) (submission : Pool.Submission)
    (message : Option Job) : Answers queues message (handle queues pool submission message).1 := by
  cases message with
  | none => rfl
  | some job =>
      rw [handle, Answers]
      split
      · dsimp only
        split
        · exact .inl rfl
        · exact .inr rfl
      · rfl

structure SessionOk (partition : Partition) (session : Session) : Prop where
  started : session.start ≤ partition.committed
  marked : session.marked = session.start + takenLength session.verdicts
  answers : ∀ {offset verdict}, session.verdictAt offset = some verdict →
    ∃ message, partition.log[offset]? = some message ∧ Answers session.queues message verdict

structure Inv (partition : Partition) : Prop where
  session : ∀ {index : ℕ} {session : Session}, partition.sessions[index]? = some session →
    SessionOk partition session
  current : ∀ {index : ℕ} {session : Session}, partition.sessions[index]? = some session →
    index + 1 = partition.sessions.length → partition.committed ≤ session.marked
  covered : ∀ {offset : ℕ}, offset < partition.committed →
    ∃ session ∈ partition.sessions, ∃ verdict, session.verdictAt offset = some verdict

section Invariant

variable {partition : Partition}

theorem Session.marked_consume {session : Session} (pool : Pool Job)
    (submission : Pool.Submission) (message : Option Job)
    (hmarked : session.marked = session.start + takenLength session.verdicts) :
    session.marked ≤ (session.consume pool submission message).marked ∧
      (session.consume pool submission message).marked =
        session.start + takenLength (session.consume pool submission message).verdicts := by
  have hle := takenLength_le session.verdicts
  dsimp only [consume]
  rw [takenLength, next]
  split
  · omega
  · exact ⟨le_rfl, hmarked⟩

theorem SessionOk.consume {session : Session} (hok : SessionOk partition session)
    (pool : Pool Job) (submission : Pool.Submission) {message : Option Job}
    (hmessage : partition.log[session.next]? = some message) :
    SessionOk partition (session.consume pool submission message) where
  started := hok.started
  marked := (Session.marked_consume pool submission message hok.marked).2
  answers := by
    intro offset verdict hverdict
    rcases Session.verdictAt_consume.mp hverdict with hold | ⟨rfl, rfl⟩
    · exact hok.answers hold
    · exact ⟨message, hmessage, answers_handle session.queues pool submission message⟩

theorem Inv.publish (hinv : Inv partition) (message : Option Job) :
    Inv { partition with log := partition.log ++ [message] } where
  session := by
    intro index session hsession
    obtain ⟨hstarted, hmarked, hanswers⟩ := hinv.session hsession
    refine ⟨hstarted, hmarked, fun hverdict => ?_⟩
    obtain ⟨answered, hlog, hanswer⟩ := hanswers hverdict
    exact ⟨answered, party_join hlog message, hanswer⟩
  __ := hinv

theorem Inv.join (hinv : Inv partition) (queues : List String) :
    Inv { partition with
      sessions := partition.sessions ++
        [⟨queues, partition.committed, partition.committed, []⟩] } where
  session := by
    intro index session hsession
    rcases party_of_join hsession with hold | ⟨-, rfl⟩
    · exact { hinv.session hold with }
    · refine ⟨le_rfl, rfl, fun hverdict => ?_⟩
      have hnone := (Session.verdictAt_eq_some_iff.mp hverdict).2
      simp at hnone
  current := by
    intro index session hsession hlast
    rcases party_of_join hsession with hold | ⟨-, rfl⟩
    · have hindex := (List.getElem?_eq_some_iff.mp hold).1
      rw [List.length_append, List.length_singleton] at hlast
      omega
    · exact le_rfl
  covered := by
    intro offset hoffset
    obtain ⟨session, hsession, hverdict⟩ := hinv.covered hoffset
    exact ⟨session, List.mem_append_left _ hsession, hverdict⟩

theorem Inv.consume (hinv : Inv partition) {index : ℕ} {session : Session}
    (hsession : partition.sessions[index]? = some session) (pool : Pool Job)
    (submission : Pool.Submission) {message : Option Job}
    (hmessage : partition.log[session.next]? = some message) :
    Inv { partition with
      sessions := partition.sessions.set index (session.consume pool submission message) } where
  session := by
    intro number other hother
    rcases party_of_set hother with ⟨-, rfl⟩ | ⟨-, hold⟩
    · exact { (hinv.session hsession).consume pool submission hmessage with }
    · exact { hinv.session hold with }
  current := by
    intro number other hother hlast
    rw [List.length_set] at hlast
    rcases party_of_set hother with ⟨rfl, rfl⟩ | ⟨-, hold⟩
    · exact (hinv.current hsession hlast).trans
        (Session.marked_consume pool submission message (hinv.session hsession).marked).1
    · exact hinv.current hold hlast
  covered := by
    intro offset hoffset
    obtain ⟨other, hother, verdict, hverdict⟩ := hinv.covered hoffset
    obtain ⟨number, hnumber⟩ := List.mem_iff_getElem?.mp hother
    by_cases hsame : number = index
    · subst hsame
      obtain rfl : session = other := Option.some.inj (hsession.symm.trans hnumber)
      refine ⟨_, List.mem_set ((List.getElem?_eq_some_iff.mp hsession).1) _, verdict, ?_⟩
      exact Session.verdictAt_consume.mpr (.inl hverdict)
    · refine ⟨other, List.mem_of_getElem? (i := number) ?_, verdict, hverdict⟩
      rw [List.getElem?_set_ne (Ne.symm hsame), hnumber]

theorem Inv.commit (hinv : Inv partition) {index : ℕ} {session : Session}
    (hsession : partition.sessions[index]? = some session)
    (hlast : index + 1 = partition.sessions.length) :
    Inv { partition with committed := session.marked } where
  session := by
    intro number other hother
    obtain ⟨hstarted, hmarked, hanswers⟩ := hinv.session hother
    exact ⟨hstarted.trans (hinv.current hsession hlast), hmarked, hanswers⟩
  current := by
    intro number other hother hnumber
    obtain rfl : number = index := Nat.succ.inj (hnumber.trans hlast.symm)
    obtain rfl : session = other := Option.some.inj (hsession.symm.trans hother)
    exact le_rfl
  covered := by
    intro offset hoffset
    have hok := hinv.session hsession
    -- what the session did not start with, it has answered itself
    by_cases hstart : offset < session.start
    · exact hinv.covered (hstart.trans_le hok.started)
    · have hnext : offset < session.next := by
        have hle := takenLength_le session.verdicts
        have hmarked := hok.marked
        change offset < session.marked at hoffset
        rw [Session.next]
        omega
      exact ⟨session, List.mem_of_getElem? hsession,
        Session.exists_verdictAt (not_lt.mp hstart) hnext⟩

theorem Inv.step (hinv : Inv partition) {after : Partition} (hstepped : Stepped partition after) :
    Inv after := by
  cases hstepped with
  | same => exact hinv
  | published message => exact hinv.publish message
  | joined queues => exact hinv.join queues
  | consumed hsession pool submission hmessage =>
      exact hinv.consume hsession pool submission hmessage
  | committed hsession hlast => exact hinv.commit hsession hlast

theorem inv (hreach : machine.Reachable partition) : Inv partition := by
  apply hreach.invariant
  · rintro ⟨log, committed, sessions⟩ ⟨hcommitted, hsessions⟩
    obtain rfl : committed = 0 := hcommitted
    obtain rfl : sessions = [] := hsessions
    exact ⟨nofun, nofun, nofun⟩
  · intro before label _ hallowed hbefore
    exact hbefore.step (stepped hallowed)

end Invariant

/-- A row stored by `Enqueue` is in the filter of `ClaimNextJob` exactly if the consumer
with the same queues takes its message. -/
theorem claims_delivered (queues : List String) (env : Env) (now : ℤ) (job : Job) :
    claims queues (delivered (prepareJob env job)).task.queue = true ↔
      queues = [] ∨ (createRow now (prepareJob env job)).taskQueue ∈ queues := by
  have hqueue : (prepareJob env job).task.queue ≠ "" := by
    dsimp only [prepareJob]
    split
    · decide
    · assumption
  change claims queues (prepareJob env job).task.queue = true ↔
    queues = [] ∨ (prepareJob env job).task.queue ∈ queues
  rw [claims, if_neg hqueue]
  by_cases hnone : queues = []
  · rw [if_pos hnone]
    exact iff_of_true rfl (.inl hnone)
  · rw [if_neg hnone, decide_eq_true_eq]
    exact (or_iff_right hnone).symm

/-- Whatever sessions there have been, a message of `Enqueue` the group has committed was
offered to the pool of an instance, unless the instance that had it does not claim the
queue of the job, and then `ClaimNextJob` with its filter does not either. -/
theorem committed_message_offered {partition : Partition} (hreach : machine.Reachable partition)
    {offset : ℕ} (hoffset : offset < partition.committed) {env : Env} {job : Job}
    (hmessage : partition.log[offset]? = some (some (delivered (prepareJob env job)))) (now : ℤ) :
    (∀ queues, claims queues (delivered (prepareJob env job)).task.queue = true ↔
      queues = [] ∨ (createRow now (prepareJob env job)).taskQueue ∈ queues) ∧
    ∃ session ∈ partition.sessions, ∃ verdict, session.verdictAt offset = some verdict ∧
      if session.queues = [] ∨ (createRow now (prepareJob env job)).taskQueue ∈ session.queues
      then verdict = .accepted ∨ verdict = .refused
      else verdict = .foreign := by
  refine ⟨fun queues => claims_delivered queues env now job, ?_⟩
  obtain ⟨session, hsession, verdict, hverdict⟩ := (inv hreach).covered hoffset
  obtain ⟨index, hindex⟩ := List.mem_iff_getElem?.mp hsession
  obtain ⟨message, hlog, hanswers⟩ := ((inv hreach).session hindex).answers hverdict
  obtain rfl := Option.some.inj (hlog.symm.trans hmessage)
  refine ⟨session, hsession, verdict, hverdict, ?_⟩
  rw [Answers] at hanswers
  split
  · rename_i hfilter
    rwa [if_pos ((claims_delivered session.queues env now job).mpr hfilter)] at hanswers
  · rename_i hfilter
    rwa [if_neg (mt (claims_delivered session.queues env now job).mp hfilter)] at hanswers

/-- A partition with two messages of the same job, a session that refuses the first, its
pool being full, and accepts the second. -/
def overtaken : Partition :=
  let message := some (delivered (prepareJob (plainEnv 0 0 "job") plainJob))
  machine.run ⟨[message, message], 0, []⟩
    [.join [] 0, .consume 0 (newPool ⟨1, 0⟩) ⟨false, false, true⟩,
      .consume 0 (newPool ⟨1, 1⟩) ⟨false, false, true⟩]

theorem reachable_overtaken : machine.Reachable overtaken := by
  exact Machine.Reachable.run (.start ⟨rfl, rfl⟩) ⟨rfl, trivial, trivial, trivial⟩

theorem broker_overtaken : machine.Allowed overtaken (.commit 0 2) :=
  ⟨rfl, _, rfl, rfl⟩

/-- The refused message is committed, and was offered. -/
theorem committed_message_offered_overtaken :
    (overtaken.step (.commit 0 2)).committed = 2 ∧
      ∃ session ∈ overtaken.sessions, ∃ verdict, session.verdictAt 0 = some verdict ∧
        (verdict = .accepted ∨ verdict = .refused) := by
  have hreach : machine.Reachable (machine.step overtaken (.commit 0 2)) :=
    reachable_overtaken.next _ broker_overtaken
  have hcommitted : 0 < (machine.step overtaken (.commit 0 2)).committed := Nat.zero_lt_two
  obtain ⟨-, session, hsession, verdict, hverdict, hanswer⟩ :=
    committed_message_offered hreach hcommitted rfl 0
  refine ⟨rfl, session, hsession, verdict, hverdict, ?_⟩
  obtain rfl : session = ⟨[], 0, 2, [.accepted, .refused]⟩ := List.mem_singleton.mp hsession
  exact hanswer

/-! ## A refused message -/

/-- A message the session refused is below its mark exactly if it took a later one. -/
theorem SessionOk.lt_marked_iff {partition : Partition} {session : Session}
    (hok : SessionOk partition session) {offset : ℕ}
    (hrefused : session.verdictAt offset = some .refused) :
    offset < session.marked ↔
      ∃ later, offset < later ∧ ∃ verdict, session.verdictAt later = some verdict ∧
        verdict ≠ .refused := by
  obtain ⟨hstart, hget⟩ := Session.verdictAt_eq_some_iff.mp hrefused
  have hindex : offset < session.marked ↔
      offset - session.start < takenLength session.verdicts := by
    rw [hok.marked]
    omega
  rw [hindex, lt_takenLength_iff]
  constructor
  · rintro ⟨later, hlater, verdict, hverdict, htaken⟩
    have hne : verdict ≠ .refused := by
      rintro rfl
      cases htaken
    have hlater' : later ≠ offset - session.start := by
      rintro rfl
      exact hne (Option.some.inj (hverdict.symm.trans hget))
    refine ⟨session.start + later, by omega, verdict, ?_, hne⟩
    rw [Session.verdictAt_eq_some_iff, Nat.add_sub_cancel_left]
    exact ⟨Nat.le_add_right _ _, hverdict⟩
  · rintro ⟨later, hlater, verdict, hverdict, hne⟩
    obtain ⟨-, hother⟩ := Session.verdictAt_eq_some_iff.mp hverdict
    refine ⟨later - session.start, by omega, verdict, hother, ?_⟩
    cases verdict with
    | refused => exact absurd rfl hne
    | malformed | foreign | accepted => rfl

/-- Sessions that join later start no earlier than what was committed. -/
structure Onward (least count : ℕ) (partition : Partition) : Prop where
  committed : least ≤ partition.committed
  start : ∀ {number : ℕ} {session : Session}, count ≤ number →
    partition.sessions[number]? = some session → least ≤ session.start

theorem Onward.step {least count : ℕ} {before after : Partition}
    (honward : Onward least count before) (hinv : Inv before)
    (hstepped : Stepped before after) : Onward least count after := by
  cases hstepped with
  | same => exact honward
  | published message => exact ⟨honward.committed, honward.start⟩
  | joined queues =>
      refine ⟨honward.committed, fun hnumber hsession => ?_⟩
      rcases party_of_join hsession with hold | ⟨-, rfl⟩
      · exact honward.start hnumber hold
      · exact honward.committed
  | consumed hsession pool submission hmessage =>
      refine ⟨honward.committed, fun hnumber hother => ?_⟩
      rcases party_of_set hother with ⟨rfl, rfl⟩ | ⟨-, hold⟩
      · have hstart := honward.start hnumber hsession
        exact hstart
      · exact honward.start hnumber hold
  | committed hsession hlast =>
      exact ⟨honward.committed.trans (hinv.current hsession hlast), honward.start⟩

theorem reachable_onward {least count : ℕ} {partition : Partition} {labels : List Label}
    (hallowed : machine.AllowedRun partition labels) (hreach : machine.Reachable partition)
    (honward : Onward least count partition) :
    Onward least count (machine.run partition labels) := by
  induction labels generalizing partition with
  | nil => exact honward
  | cons label labels ih =>
      exact ih hallowed.2 (hreach.next label hallowed.1)
        (honward.step (inv hreach) (stepped hallowed.1))

/-- When the latest session commits its mark, a message it refused is given to the next
session again if it took no message after it.  If it took one, no session that joins later is
given the refused message, whatever happens. -/
theorem refused_message_redelivered_iff {partition : Partition}
    (hreach : machine.Reachable partition) {index : ℕ} {session : Session}
    (hsession : partition.sessions[index]? = some session)
    (hlast : index + 1 = partition.sessions.length) {offset : ℕ}
    (hrefused : session.verdictAt offset = some .refused) :
    machine.Allowed partition (.commit index session.marked) ∧
    ((∃ later, offset < later ∧ ∃ verdict, session.verdictAt later = some verdict ∧
        verdict ≠ .refused) →
      ∀ labels, machine.AllowedRun (partition.step (.commit index session.marked)) labels →
      ∀ number joined, partition.sessions.length ≤ number →
        (machine.run (partition.step (.commit index session.marked))
          labels).sessions[number]? = some joined →
        joined.verdictAt offset = none) ∧
    ((∀ later verdict, offset < later → session.verdictAt later = some verdict →
        verdict = .refused) →
      ∀ queues start, machine.Allowed (partition.step (.commit index session.marked))
        (.join queues start) → start ≤ offset) := by
  have hbroker : machine.Allowed partition (.commit index session.marked) :=
    ⟨hlast, session, hsession, rfl⟩
  have hmarked := ((inv hreach).session hsession).lt_marked_iff hrefused
  refine ⟨hbroker, ?_, ?_⟩
  · intro htaken labels hallowed number joined hnumber hjoined
    have honward : Onward session.marked partition.sessions.length
        (partition.step (.commit index session.marked)) := by
      refine ⟨le_rfl, fun hcount hother => ?_⟩
      exact absurd (List.getElem?_eq_some_iff.mp hother).1 (not_lt.mpr hcount)
    have hstart :=
      (reachable_onward hallowed (hreach.next _ hbroker) honward).start hnumber hjoined
    rw [Session.verdictAt, if_neg]
    exact not_le.mpr ((hmarked.mpr htaken).trans_le hstart)
  · intro hnone queues start hjoin
    obtain rfl : start = session.marked := hjoin
    refine not_lt.mp fun hbelow => ?_
    obtain ⟨later, hlater, verdict, hverdict, hne⟩ := hmarked.mp hbelow
    exact hne (hnone later verdict hlater hverdict)

/-- No later session is given the message that was overtaken. -/
theorem refused_message_redelivered_iff_overtaken :
    overtaken.sessions.length = 1 ∧
      ∀ labels, machine.AllowedRun (overtaken.step (.commit 0 2)) labels →
        ∀ joined, (machine.run (overtaken.step (.commit 0 2)) labels).sessions[1]? =
          some joined → joined.verdictAt 0 = none := by
  refine ⟨rfl, fun labels hallowed joined hjoined => ?_⟩
  have hsession : overtaken.sessions[0]? = some ⟨[], 0, 2, [.accepted, .refused]⟩ := rfl
  have hlater : ∃ later, 0 < later ∧ ∃ verdict,
      Session.verdictAt ⟨[], 0, 2, [.accepted, .refused]⟩ later = some verdict ∧
        verdict ≠ .refused :=
    ⟨1, Nat.one_pos, .accepted, rfl, nofun⟩
  exact (refused_message_redelivered_iff reachable_overtaken hsession rfl rfl).2.1
    hlater labels hallowed 1 joined le_rfl hjoined

end Conduit.KafkaConsumer
