import Conduit.Api.TenantIntegrity
import Conduit.Api.TenantView

/-!
# Tenant confidentiality

A tenant sends one request after the other, and nothing else goes on.  The
responses are a function of its own rows, with one exception: reporting a failure
looks the job up by its id alone, so the tenant learns whether any tenant has a job
of that id.
-/

namespace Conduit.Noninterference

open Models Relational JobStore JobService JobCalls
open JobMachine (plainEnv plainJob)
open ScheduleStore
open Scheduler (Database)
open Api
open TenantIntegrity (openServer)

/-! ## Sequences of requests -/

/-- A request with what its turns read from outside the database.  A long poll
has a turn for each attempt; when `later` runs out the client has gone away. -/
structure Exchange where
  lookup : Option (List KeyRow)
  header : String
  requestID : String
  request : Request
  env : Env
  later : List Env

/-- The context of a request once its tenant is known. -/
def Exchange.context (exchange : Exchange) (server : Server) (tenant : String) : Context where
  server := server
  tenant := tenant
  requestID := exchange.requestID

/-- Run what is left of a request after a turn. -/
def finish (context : Context) (request : Request) :
    Turn → List Env → Option Response × Database
  | turn, [] => (turn.response, turn.database)
  | turn, env :: later =>
      match turn.next with
      | none => (turn.response, turn.database)
      | some progress =>
          finish context request (request.resume context env turn.database progress) later

def serve (server : Server) (database : Database) (exchange : Exchange) :
    Option Response × Database :=
  match authenticate server exchange.lookup exchange.header with
  | .error err =>
      (some (respondError (exchange.context server "") err), database)
  | .ok tenant =>
      finish (exchange.context server tenant) exchange.request
        (exchange.request.start (exchange.context server tenant) exchange.env database)
        exchange.later

def responses (server : Server) : Database → List Exchange → List (Option Response)
  | _, [] => []
  | database, exchange :: rest =>
      (serve server database exchange).1 ::
        responses server (serve server database exchange).2 rest

/-! ## The rows of other tenants -/

/-- The rows of every other tenant are the same. -/
structure Frames (tenant : String) (before after : Database) : Prop where
  jobs : after.jobs.hidden (Owns tenant) = before.jobs.hidden (Owns tenant)
  schedules : after.schedules.hidden (OwnsSchedule tenant) =
    before.schedules.hidden (OwnsSchedule tenant)

section Frames

variable {tenant : String} {request : Request} {before middle after : Database}

theorem Frames.trans (hfirst : Frames tenant before middle)
    (hsecond : Frames tenant middle after) : Frames tenant before after :=
  ⟨hsecond.jobs.trans hfirst.jobs, hsecond.schedules.trans hfirst.schedules⟩

theorem Frames.presentsOwn (hframes : Frames tenant before after)
    (hown : request.PresentsOwn tenant before.jobs) :
    request.PresentsOwn tenant after.jobs := by
  intro leaseToken htoken hne row hrow hstate hheld
  by_contra hforeign
  have hhidden : row ∈ after.jobs.hidden (Owns tenant) :=
    Table.mem_hidden.2 ⟨hrow, hforeign⟩
  rw [hframes.jobs] at hhidden
  exact hforeign
    (hown leaseToken htoken hne row (Table.mem_hidden.1 hhidden).1 hstate hheld)

theorem Frames.unrelated (hframes : Frames tenant before after) {env : Env}
    (hunrelated : Unrelated tenant request env before) :
    Unrelated tenant request env after := by
  refine ⟨hframes.presentsOwn hunrelated.presentsOwn, ?_, ?_⟩
  · rw [hframes.jobs]
    exact hunrelated.jobID
  · rw [hframes.schedules]
    exact hunrelated.scheduleID

end Frames

section Finish

variable {context : Context} {request : Request} (htenant : context.tenant ≠ "")
include htenant

theorem frames_of_scoped {env : Env} {database : Database} {turn : Turn}
    (hscoped : turn.Scoped context env database request)
    (hown : request.PresentsOwn context.tenant database.jobs) :
    Frames context.tenant database turn.database :=
  ⟨hscoped.jobs htenant hown, hscoped.schedules⟩

theorem frames_finish {turn : Turn} (later : List Env)
    (hown : request.PresentsOwn context.tenant turn.database.jobs)
    (hnext : ∀ progress ∈ turn.next, progress.Of context.tenant request) :
    Frames context.tenant turn.database (finish context request turn later).2 := by
  induction later generalizing turn with
  | nil => exact ⟨rfl, rfl⟩
  | cons env later ih =>
      rw [finish]
      split
      · exact ⟨rfl, rfl⟩
      · rename_i progress hprogress
        have hscoped : (request.resume context env turn.database progress).Scoped context env
            turn.database request := scoped_resume htenant (hnext progress hprogress)
        have hframes := frames_of_scoped htenant hscoped hown
        exact hframes.trans (ih (hframes.presentsOwn hown) fun progress hprogress =>
          (hscoped.next progress hprogress).1)

/-- Turns the tenant cannot tell apart go on that way. -/
theorem finish_alike {left right : Turn} (later : List Env)
    (halike : TurnsAlike context.tenant left right)
    (hnext : ∀ progress ∈ left.next, progress.Of context.tenant request)
    (hownLeft : request.PresentsOwn context.tenant left.database.jobs)
    (hownRight : request.PresentsOwn context.tenant right.database.jobs)
    (hleft : ∀ env ∈ later, Unrelated context.tenant request env left.database)
    (hright : ∀ env ∈ later, Unrelated context.tenant request env right.database) :
    (finish context request left later).1 = (finish context request right later).1 ∧
      Agree context.tenant (finish context request left later).2
        (finish context request right later).2 := by
  induction later generalizing left right with
  | nil => exact ⟨halike.response, halike.agree⟩
  | cons env later ih =>
      rw [finish, finish, ← halike.next]
      split
      · exact ⟨halike.response, halike.agree⟩
      · rename_i progress hprogress
        have hof := hnext progress hprogress
        have hleftScoped : (request.resume context env left.database progress).Scoped context
            env left.database request := scoped_resume htenant hof
        have hrightScoped : (request.resume context env right.database progress).Scoped
            context env right.database request := scoped_resume htenant hof
        have hleftFrames := frames_of_scoped htenant hleftScoped hownLeft
        have hrightFrames := frames_of_scoped htenant hrightScoped hownRight
        apply ih
        · exact alike_resume halike.agree htenant (hleft env (List.mem_cons_self ..))
            (hright env (List.mem_cons_self ..)) hof
        · intro later hlater
          exact (hleftScoped.next later hlater).1
        · exact hleftFrames.presentsOwn hownLeft
        · exact hrightFrames.presentsOwn hownRight
        · intro other hother
          exact hleftFrames.unrelated (hleft other (List.mem_cons_of_mem _ hother))
        · intro other hother
          exact hrightFrames.unrelated (hright other (List.mem_cons_of_mem _ hother))

end Finish

/-! ## Reporting a failure -/

/-- Some other tenant has a job of that id. -/
def ForeignJob (tenant : String) (database : Database) (id : String) : Prop :=
  ∃ row ∈ database.jobs.hidden (Owns tenant), row.id = id

/-- The write of a `Fail` whose lease is on no row. -/
theorem effect_failWrite_lost (env : Env) {table : JobTable} {id leaseToken : String}
    (errMsg : String) (permanent : Bool) (job : Job) (htoken : leaseToken ≠ "")
    (hlost : ∀ row ∈ table.rows, ¬ Statement.Holds id leaseToken row) :
    (Call.failWrite id leaseToken errMsg permanent job).effect env table =
      { table, reply := some (.error .leaseLost) } := by
  have hstatement : failClaimedJobStatement env.dbNow id leaseToken errMsg
      (failNextRun env job permanent) =
      some (.failClaimedJob id leaseToken errMsg (failNextRun env job permanent) env.dbNow) :=
    if_neg htoken
  have haffected : table.affected (Statement.failClaimedJob id leaseToken errMsg
      (failNextRun env job permanent) env.dbNow).update = [] := by
    apply List.filter_eq_nil_iff.2
    intro row hrow
    rw [decide_eq_true_eq]
    exact hlost row hrow
  have hanswer : (Call.failWrite id leaseToken errMsg permanent job).answer env table =
      .error .leaseLost := by
    simp only [Call.answer, failClaimedJob, hstatement, execOr, haffected, if_true]
  simp only [Call.effect, Call.updateEffect, Call.statement, hstatement, Call.afterStatement,
    hanswer, haffected, Table.exec_eq_self haffected]
  rfl

theorem finish_of_none {context : Context} {request : Request} {turn : Turn}
    (later : List Env) (hnext : turn.next = none) :
    finish context request turn later = (turn.response, turn.database) := by
  cases later with
  | nil => rfl
  | cons env later => rw [finish, hnext]

section Fail

variable {context : Context} {env : Env} {database : Database} {id : String}
  {body : FailRequest} (hbody : body.leaseToken ≠ "")
include hbody

theorem start_failJob :
    (Request.failJob id (.ok body)).start context env database =
      runCall context env database (.failJob id (.ok body))
        (.fail id body.leaseToken body.message (!body.retry)) :=
  if_neg hbody

theorem start_failJob_found {row : Row} (hrow : row ∈ database.jobs.rows)
    (hid : row.id = id) :
    (Request.failJob id (.ok body)).start context env database = {
      effect := {
        table := database.jobs
        next := some (.failWrite id body.leaseToken body.message (!body.retry)
          (scanJob row)) }
      schedules := database.schedules
      next := some (.call (.failWrite id body.leaseToken body.message (!body.retry)
        (scanJob row))) } := by
  rw [start_failJob hbody, runCall]
  simp only [Call.effect, ← hid, getJob_anyTenant hrow, readEffect]
  rfl

/-- A job that is not there. -/
theorem finish_failJob_absent (later : List Env)
    (habsent : ∀ row ∈ database.jobs.rows, row.id ≠ id) :
    finish context (.failJob id (.ok body))
        ((Request.failJob id (.ok body)).start context env database) later =
      (some (respondError context .jobNotFound), database) := by
  have hturn : (Request.failJob id (.ok body)).start context env database =
      { effect := { table := database.jobs, reply := some (.error .jobNotFound) }
        schedules := database.schedules
        response := some (respondError context .jobNotFound) } := by
    rw [start_failJob hbody, runCall]
    simp only [Call.effect, getJob_absent habsent, readEffect]
    rfl
  rw [hturn]
  exact finish_of_none later rfl

/-- A job of another tenant.  It is found, and then the lease is not held. -/
theorem finish_failJob_foreign (later : List Env)
    (hown : (Request.failJob id (.ok body)).PresentsOwn context.tenant database.jobs)
    (hforeign : ForeignJob context.tenant database id) :
    finish context (.failJob id (.ok body))
        ((Request.failJob id (.ok body)).start context env database) later =
      (if later = [] then none else some (respondError context .leaseLost), database) := by
  obtain ⟨row, hhidden, hid⟩ := hforeign
  obtain ⟨hrow, hunowned⟩ := Table.mem_hidden.1 hhidden
  have hlost : ∀ other ∈ database.jobs.rows,
      ¬ Statement.Holds id body.leaseToken other := by
    intro other hother hholds
    have hsame := database.jobs.key_unique hother hrow (hholds.1.trans hid.symm)
    rw [hsame] at hholds
    exact hunowned (hown body.leaseToken rfl hbody row hrow hholds.2.1 hholds.2.2)
  rw [start_failJob_found hbody hrow hid]
  cases later with
  | nil => rfl
  | cons env later =>
      have hwrite := effect_failWrite_lost env body.message (!body.retry) (scanJob row)
        hbody hlost
      simp only [finish, Request.resume, runCall, Turn.database, hwrite]
      exact finish_of_none later rfl

/-- A job of the tenant itself. -/
theorem alike_start_failJob {left right : Database}
    (hagree : Agree context.tenant left right) {row : Row}
    (hrow : row ∈ left.jobs.visible (Owns context.tenant)) (hid : row.id = id) :
    TurnsAlike context.tenant ((Request.failJob id (.ok body)).start context env left)
      ((Request.failJob id (.ok body)).start context env right) := by
  have hleft := (Table.mem_visible.1 hrow).1
  rw [hagree.jobs] at hrow
  have hright := (Table.mem_visible.1 hrow).1
  rw [start_failJob_found hbody hleft hid, start_failJob_found hbody hright hid]
  exact ⟨rfl, rfl, hagree⟩

end Fail

/-! ## One exchange -/

/-- The request is one of the tenant, and nothing it presents or mints is on a row
of another tenant. -/
structure Permitted (server : Server) (tenant : String) (database : Database)
    (exchange : Exchange) : Prop where
  authenticated : authenticate server exchange.lookup exchange.header = .ok tenant
  unrelated : ∀ env ∈ exchange.env :: exchange.later,
    Unrelated tenant exchange.request env database

/-- When the exchange reports the failure of a job, another tenant has a job of
that id in both databases or in neither. -/
def SameForeignJob (tenant : String) (left right : Database) (exchange : Exchange) : Prop :=
  ∀ id body, exchange.request = .failJob id (.ok body) → body.leaseToken ≠ "" →
    (ForeignJob tenant left id ↔ ForeignJob tenant right id)

section Serve

variable {server : Server} {tenant : String} {left right database : Database}
  {exchange : Exchange}

theorem Permitted.presentsOwn (hpermitted : Permitted server tenant database exchange) :
    exchange.request.PresentsOwn tenant database.jobs :=
  (hpermitted.unrelated exchange.env (List.mem_cons_self ..)).presentsOwn

theorem Permitted.serve_eq (hpermitted : Permitted server tenant database exchange) :
    serve server database exchange =
      finish (exchange.context server tenant) exchange.request
        (exchange.request.start (exchange.context server tenant)
          exchange.env database) exchange.later := by
  unfold serve
  rw [hpermitted.authenticated]

theorem Permitted.scoped_start (hpermitted : Permitted server tenant database exchange) :
    (exchange.request.start (exchange.context server tenant)
      exchange.env database).Scoped (exchange.context server tenant)
      exchange.env database exchange.request :=
  Api.scoped_start (authenticate_ne_empty hpermitted.authenticated)

theorem Permitted.frames (hpermitted : Permitted server tenant database exchange) :
    Frames tenant database (serve server database exchange).2 := by
  have htenant := authenticate_ne_empty hpermitted.authenticated
  rw [hpermitted.serve_eq]
  have hscoped := hpermitted.scoped_start
  have hframes := frames_of_scoped htenant hscoped hpermitted.presentsOwn
  exact hframes.trans (frames_finish htenant exchange.later
    (hframes.presentsOwn hpermitted.presentsOwn)
    fun progress hprogress => (hscoped.next progress hprogress).1)

theorem Permitted.of_frames (hpermitted : Permitted server tenant database exchange)
    {after : Database} (hframes : Frames tenant database after) :
    Permitted server tenant after exchange :=
  ⟨hpermitted.authenticated, fun env henv => hframes.unrelated (hpermitted.unrelated env henv)⟩

theorem absent_of_unowned {id : String}
    (hunowned : ∀ row ∈ database.jobs.visible (Owns tenant), row.id ≠ id)
    (hforeign : ¬ ForeignJob tenant database id) :
    ∀ row ∈ database.jobs.rows, row.id ≠ id := by
  intro row hrow hid
  by_cases howns : Owns tenant row
  · exact hunowned row (Table.mem_visible.2 ⟨hrow, howns⟩) hid
  · exact hforeign ⟨row, Table.mem_hidden.2 ⟨hrow, howns⟩, hid⟩

/-- Turns that look alike make exchanges that do. -/
theorem serve_alike_of_start (hleft : Permitted server tenant left exchange)
    (hright : Permitted server tenant right exchange)
    (halike : TurnsAlike tenant
      (exchange.request.start (exchange.context server tenant)
        exchange.env left)
      (exchange.request.start (exchange.context server tenant)
        exchange.env right)) :
    (serve server left exchange).1 = (serve server right exchange).1 ∧
      Agree tenant (serve server left exchange).2 (serve server right exchange).2 := by
  have htenant := authenticate_ne_empty hleft.authenticated
  rw [hleft.serve_eq, hright.serve_eq]
  have hleftScoped := hleft.scoped_start
  have hleftFrames := frames_of_scoped htenant hleftScoped hleft.presentsOwn
  have hrightFrames := frames_of_scoped htenant hright.scoped_start hright.presentsOwn
  apply finish_alike htenant exchange.later halike
  · intro progress hprogress
    exact (hleftScoped.next progress hprogress).1
  · exact hleftFrames.presentsOwn hleft.presentsOwn
  · exact hrightFrames.presentsOwn hright.presentsOwn
  · intro env henv
    exact hleftFrames.unrelated (hleft.unrelated env (List.mem_cons_of_mem _ henv))
  · intro env henv
    exact hrightFrames.unrelated (hright.unrelated env (List.mem_cons_of_mem _ henv))

theorem Permitted.serve_foreign (hpermitted : Permitted server tenant database exchange)
    {id : String} {body : FailRequest} (hrequest : exchange.request = .failJob id (.ok body))
    (hbody : body.leaseToken ≠ "") (hforeign : ForeignJob tenant database id) :
    serve server database exchange =
      (if exchange.later = [] then none else some (respondError
        (exchange.context server tenant) .leaseLost), database) := by
  have hown := hpermitted.presentsOwn
  rw [hrequest] at hown
  rw [hpermitted.serve_eq, hrequest]
  exact finish_failJob_foreign hbody exchange.later hown hforeign

theorem Permitted.serve_absent (hpermitted : Permitted server tenant database exchange)
    {id : String} {body : FailRequest} (hrequest : exchange.request = .failJob id (.ok body))
    (hbody : body.leaseToken ≠ "") (habsent : ∀ row ∈ database.jobs.rows, row.id ≠ id) :
    serve server database exchange =
      (some (respondError (exchange.context server tenant) .jobNotFound),
        database) := by
  rw [hpermitted.serve_eq, hrequest]
  exact finish_failJob_absent hbody exchange.later habsent

/-- An exchange shows the tenant nothing of the rows it does not own, unless it
reports the failure of a job only one of the databases has. -/
theorem serve_alike (hagree : Agree tenant left right)
    (hleft : Permitted server tenant left exchange)
    (hright : Permitted server tenant right exchange)
    (hsame : SameForeignJob tenant left right exchange) :
    (serve server left exchange).1 = (serve server right exchange).1 ∧
      Agree tenant (serve server left exchange).2 (serve server right exchange).2 := by
  have htenant := authenticate_ne_empty hleft.authenticated
  by_cases hfail : ∃ id body,
      exchange.request = .failJob id (.ok body) ∧ body.leaseToken ≠ ""
  · obtain ⟨id, body, hrequest, hbody⟩ := hfail
    by_cases howned : ∃ row ∈ left.jobs.visible (Owns tenant), row.id = id
    · obtain ⟨row, hrow, hid⟩ := howned
      apply serve_alike_of_start hleft hright
      rw [hrequest]
      have hagreeHere : Agree (exchange.context server tenant).tenant left right := hagree
      exact alike_start_failJob hbody hagreeHere hrow hid
    · have hunownedLeft : ∀ row ∈ left.jobs.visible (Owns tenant), row.id ≠ id :=
        fun row hrow hid => howned ⟨row, hrow, hid⟩
      have hunownedRight := hunownedLeft
      rw [hagree.jobs] at hunownedRight
      have hiff := hsame id body hrequest hbody
      by_cases hforeign : ForeignJob tenant left id
      · rw [hleft.serve_foreign hrequest hbody hforeign,
          hright.serve_foreign hrequest hbody (hiff.1 hforeign)]
        exact ⟨rfl, hagree⟩
      · rw [hleft.serve_absent hrequest hbody (absent_of_unowned hunownedLeft hforeign),
          hright.serve_absent hrequest hbody
            (absent_of_unowned hunownedRight fun hright => hforeign (hiff.2 hright))]
        exact ⟨rfl, hagree⟩
  · apply serve_alike_of_start hleft hright
    have hagreeHere : Agree (exchange.context server tenant).tenant left right := hagree
    apply alike_start hagreeHere htenant
      (hleft.unrelated exchange.env (List.mem_cons_self ..))
      (hright.unrelated exchange.env (List.mem_cons_self ..))
    intro id body hrequest
    by_contra hbody
    exact hfail ⟨id, body, hrequest, hbody⟩

/-- A job of another tenant that only one database has is answered differently. -/
theorem serve_ne_of_foreign (hagree : Agree tenant left right)
    (hleft : Permitted server tenant left exchange)
    (hright : Permitted server tenant right exchange)
    {id : String} {body : FailRequest} (hrequest : exchange.request = .failJob id (.ok body))
    (hbody : body.leaseToken ≠ "") (hforeign : ForeignJob tenant left id)
    (hnone : ¬ ForeignJob tenant right id) :
    (serve server left exchange).1 ≠ (serve server right exchange).1 := by
  obtain ⟨row, hhidden, hid⟩ := hforeign
  obtain ⟨hrow, hunowned⟩ := Table.mem_hidden.1 hhidden
  have habsent : ∀ other ∈ right.jobs.rows, other.id ≠ id := by
    apply absent_of_unowned _ hnone
    rw [← hagree.jobs]
    intro other hother hotherID
    obtain ⟨hmem, howns⟩ := Table.mem_visible.1 hother
    rw [left.jobs.key_unique hmem hrow (hotherID.trans hid.symm)] at howns
    exact hunowned howns
  rw [hleft.serve_foreign hrequest hbody ⟨row, hhidden, hid⟩,
    hright.serve_absent hrequest hbody habsent]
  intro hresponse
  change (if exchange.later = [] then none else some _) = some _ at hresponse
  split at hresponse
  · cases hresponse
  · have hstatus := congrArg Response.status (Option.some.inj hresponse)
    change (409 : ℕ) = 404 at hstatus
    omega

theorem sameForeignJob_of_serve (hagree : Agree tenant left right)
    (hleft : Permitted server tenant left exchange)
    (hright : Permitted server tenant right exchange)
    (hresponse : (serve server left exchange).1 = (serve server right exchange).1) :
    SameForeignJob tenant left right exchange := by
  intro id body hrequest hbody
  constructor
  · intro hforeign
    by_contra hnone
    exact serve_ne_of_foreign hagree hleft hright hrequest hbody hforeign hnone hresponse
  · intro hforeign
    by_contra hnone
    exact serve_ne_of_foreign hagree.symm hright hleft hrequest hbody hforeign hnone
      hresponse.symm

end Serve

/-! ## Every sequence -/

theorem SameForeignJob.of_frames {tenant : String} {left right left' right' : Database}
    {exchange : Exchange} (hleft : Frames tenant left left')
    (hright : Frames tenant right right') :
    SameForeignJob tenant left' right' exchange ↔ SameForeignJob tenant left right exchange := by
  simp only [SameForeignJob, ForeignJob, hleft.jobs, hright.jobs]

/-- Databases that agree on the rows of the tenant answer every sequence of its
requests alike, precisely when no failure is reported of a job that another tenant
has in one of them and no tenant has in the other. -/
theorem confidential_iff {server : Server} {tenant : String} {left right : Database}
    (exchanges : List Exchange) (hagree : Agree tenant left right)
    (hleft : ∀ exchange ∈ exchanges, Permitted server tenant left exchange)
    (hright : ∀ exchange ∈ exchanges, Permitted server tenant right exchange) :
    responses server left exchanges = responses server right exchanges ↔
      ∀ exchange ∈ exchanges, SameForeignJob tenant left right exchange := by
  induction exchanges generalizing left right with
  | nil =>
      constructor
      · intro _ exchange hexchange
        cases hexchange
      · intro _
        rfl
  | cons exchange rest ih =>
      have hleftHead := hleft exchange (List.mem_cons_self ..)
      have hrightHead := hright exchange (List.mem_cons_self ..)
      have hrest : SameForeignJob tenant left right exchange →
          (responses server (serve server left exchange).2 rest =
              responses server (serve server right exchange).2 rest ↔
            ∀ other ∈ rest, SameForeignJob tenant left right other) := by
        intro hsame
        rw [ih (serve_alike hagree hleftHead hrightHead hsame).2]
        · simp only [SameForeignJob.of_frames hleftHead.frames hrightHead.frames]
        · intro other hother
          exact (hleft other (List.mem_cons_of_mem _ hother)).of_frames hleftHead.frames
        · intro other hother
          exact (hright other (List.mem_cons_of_mem _ hother)).of_frames hrightHead.frames
      rw [responses, responses, List.cons.injEq, List.forall_mem_cons]
      constructor
      · rintro ⟨hresponse, hresponses⟩
        have hsame := sameForeignJob_of_serve hagree hleftHead hrightHead hresponse
        exact ⟨hsame, (hrest hsame).1 hresponses⟩
      · rintro ⟨hsame, hothers⟩
        exact ⟨(serve_alike hagree hleftHead hrightHead hsame).1, (hrest hsame).2 hothers⟩

/-- A database in which another tenant has one job. -/
def acmeDatabase (jobID : String) : Database where
  jobs := ((Call.enqueue { plainJob with tenantID := "acme" }).effect
    (plainEnv 1 0 jobID) (Table.empty jobs)).table
  schedules := Table.empty schedules

/-- The default tenant enqueues a job, claims it and reports that it failed. -/
def failedJob : List Exchange :=
  [⟨none, "", "r-1", .enqueueJob (.ok ⟨"", plainJob.task, none, none⟩),
      plainEnv 2 0 "job-2", []⟩,
    ⟨none, "", "r-2", .claimJob (.ok ⟨[], [], 0, 0⟩), plainEnv 3 minute "job-3", []⟩,
    ⟨none, "", "r-3", .failJob "job-2" (.ok ⟨newLeaseToken fun _ => 3, "", true⟩),
      plainEnv 4 minute "job-4", [plainEnv 4 minute "job-4"]⟩]

/-- A failure reported of a job under a lease the job does not have. -/
def probe (id : String) : Exchange :=
  ⟨none, "", "r-1", .failJob id (.ok ⟨"token", "", true⟩),
    plainEnv 2 0 "job-2", [plainEnv 2 0 "job-2"]⟩

theorem rows_acmeDatabase (id : String) : (acmeDatabase id).jobs.rows =
    [createRow 0 (prepareJob (plainEnv 1 0 id) { plainJob with tenantID := "acme" })] := by
  rfl

theorem permitted_acmeDatabase {id : String} {exchanges : List Exchange}
    (hexchanges : ∀ exchange ∈ exchanges, exchange.lookup = none ∧ exchange.header = "" ∧
      ∀ env ∈ exchange.env :: exchange.later, env.jobID ≠ id) :
    ∀ exchange ∈ exchanges, Permitted openServer "default" (acmeDatabase id) exchange := by
  intro exchange hexchange
  obtain ⟨hlookup, hheader, hfresh⟩ := hexchanges exchange hexchange
  constructor
  · rw [hlookup, hheader]
    rfl
  · intro env henv
    constructor
    · intro leaseToken htoken hne row hrow hstate hheld
      rw [rows_acmeDatabase, List.mem_singleton] at hrow
      rw [hrow] at hheld
      cases hheld
    · intro row hrow
      have hmem := (Table.mem_hidden.1 hrow).1
      rw [rows_acmeDatabase, List.mem_singleton] at hmem
      rw [hmem]
      exact (hfresh env henv).symm
    · intro row hrow
      cases hrow

theorem foreignJob_acmeDatabase {id other : String} :
    ForeignJob "default" (acmeDatabase id) other ↔ id = other := by
  have hhidden : (acmeDatabase id).jobs.hidden (Owns "default") =
      (acmeDatabase id).jobs.rows := by
    apply List.filter_eq_self.2
    intro row hrow
    rw [rows_acmeDatabase, List.mem_singleton] at hrow
    rw [hrow]
    rfl
  rw [ForeignJob, hhidden, rows_acmeDatabase]
  simp only [List.mem_singleton, exists_eq_left]
  rfl

theorem agree_acmeDatabase (id other : String) :
    Agree "default" (acmeDatabase id) (acmeDatabase other) :=
  ⟨rfl, rfl⟩

/-- Jobs of another tenant under different ids do not show in the life of a job. -/
theorem confidential_failedJob :
    responses openServer (acmeDatabase "job-1") failedJob =
        responses openServer (acmeDatabase "job-9") failedJob ∧
      (responses openServer (acmeDatabase "job-1") failedJob).map
        (Option.map Response.status) = [some 201, some 200, some 200] := by
  refine ⟨?_, by decide +kernel⟩
  apply (confidential_iff failedJob (agree_acmeDatabase ..)
    (permitted_acmeDatabase (by decide)) (permitted_acmeDatabase (by decide))).2
  intro exchange hexchange id body hrequest _
  rw [foreignJob_acmeDatabase, foreignJob_acmeDatabase]
  have hid : id = "job-2" := by
    simp only [failedJob, List.mem_cons, List.not_mem_nil, or_false] at hexchange
    rcases hexchange with rfl | rfl | rfl
    · cases hrequest
    · cases hrequest
    · cases hrequest
      rfl
  rw [hid]
  decide

/-- A tenant that reports the failure of a job it does not have learns whether
another tenant has it. -/
theorem not_forall_confidential :
    ¬ ∀ (server : Server) (tenant : String) (left right : Database)
      (exchanges : List Exchange), Agree tenant left right →
      (∀ exchange ∈ exchanges, Permitted server tenant left exchange) →
      (∀ exchange ∈ exchanges, Permitted server tenant right exchange) →
      responses server left exchanges = responses server right exchanges := by
  intro hconfidential
  have hresponses := hconfidential openServer "default" (acmeDatabase "job-1")
    (acmeDatabase "job-9") [probe "job-1"] (agree_acmeDatabase ..)
    (permitted_acmeDatabase (by decide)) (permitted_acmeDatabase (by decide))
  have hstatuses := congrArg (List.map (Option.map Response.status)) hresponses
  have hleft : (responses openServer (acmeDatabase "job-1") [probe "job-1"]).map
      (Option.map Response.status) = [some 409] := by
    decide +kernel
  have hright : (responses openServer (acmeDatabase "job-9") [probe "job-1"]).map
      (Option.map Response.status) = [some 404] := by
    decide +kernel
  rw [hleft, hright] at hstatuses
  cases hstatuses

end Conduit.Noninterference
