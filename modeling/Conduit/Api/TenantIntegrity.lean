import Conduit.Api.Provenance
import Conduit.Jobs.RetryBudget

/-!
# Tenant integrity

One tenant sends requests to the API while everything else goes on: other tenants
and the background work run any calls on the job table, and anything may happen
to the schedules.  The world keeps, besides the tables and what is under way, the
lease tokens the tenant was handed in responses to its claims.

No turn of a request of the tenant creates, changes or deletes a row of another
tenant, and no response holds anything of one.
-/

namespace Conduit.TenantIntegrity

open Models Relational JobStore JobService JobCalls
open JobMachine (FreshToken Starts step_cases plainEnv)
open IdempotentEnqueue (AnyTable)
open ScheduleStore
open Scheduler (Database)
open Transition Api

/-! ## The machine -/

/-- A request of the tenant between two of its statements. -/
structure Pending where
  context : Context
  request : Request
  progress : Progress

structure World where
  /-- The job table, and the calls of everybody else. -/
  others : JobMachine.World
  schedules : ScheduleTable
  requests : List Pending
  /-- The tokens in responses to claims of the tenant. -/
  issued : List String

inductive Label
  /-- The tenant sends a request, which runs its first turn. -/
  | request (lookup : Option (List KeyRow)) (header requestID : String) (env : Env)
      (request : Request)
  /-- A request goes on. -/
  | resume (env : Env) (index : ℕ)
  /-- The client of a request goes away, or its server stops. -/
  | drop (index : ℕ)
  /-- Somebody else runs a statement on the job table or stops. -/
  | others (label : JobMachine.Label)
  /-- Somebody else changes the schedules. -/
  | schedules (table : ScheduleTable)

/-- A turn of a request of the tenant, and the other requests under way. -/
structure Move where
  context : Context
  request : Request
  env : Env
  turn : Turn
  rest : List Pending

def issuedToken (response : Response) : Option String :=
  match response.body with
  | .claim _ leaseToken _ => some leaseToken
  | _ => none

namespace World

def database (world : World) : Database where
  jobs := world.others.jobs
  schedules := world.schedules

/-- The turn a label stands for, when it is one of the tenant's. -/
def move (server : Server) (world : World) : Label → Option Move
  | .request lookup header requestID env request =>
      match authenticate server lookup header with
      | .error _ => none
      | .ok tenant =>
          let context : Context := { server, tenant, requestID }
          some {
            context, request, env
            turn := request.start context env world.database
            rest := world.requests }
  | .resume env index =>
      world.requests[index]?.map fun pending => {
        context := pending.context
        request := pending.request
        env
        turn := pending.request.resume pending.context env world.database pending.progress
        rest := world.requests.eraseIdx index }
  | _ => none

def make (world : World) (move : Move) : World where
  others := world.others.absorb move.turn.effect
  schedules := move.turn.schedules
  requests := (move.turn.next.map (Pending.mk move.context move.request)).toList ++ move.rest
  issued := (move.turn.response.bind issuedToken).toList ++ world.issued

def step (server : Server) (world : World) (label : Label) : World :=
  match world.move server label with
  | some move => world.make move
  | none =>
      match label with
      | .drop index => { world with requests := world.requests.eraseIdx index }
      | .others label => { world with others := world.others.step label }
      | .schedules table => { world with schedules := table }
      | _ => world

end World

/-- What everybody else may do with the job table: minted tokens are new, and jobs
are enqueued as the callers of `Enqueue` build them. -/
def OtherCalls (world : JobMachine.World) (env : Env) (call : Call) : Prop :=
  FreshToken world env call ∧ ∀ job, call = .enqueue job → FromCaller job

/-- The tenant presents no token but those it was handed, and a claim mints a new
one.  A run may start from any tables; tokens of earlier responses to the tenant
are then on its own rows. -/
def machine (server : Server) (tenant : String) : Machine World Label where
  Init world := world.requests = [] ∧ world.others.calls = [] ∧ world.others.messages = [] ∧
    (∀ row ∈ world.others.jobs.rows, ∀ leaseToken ∈ row.leaseToken,
      leaseToken ∈ world.others.minted ∧ (leaseToken ∈ world.issued → Owns tenant row)) ∧
    ∀ leaseToken ∈ world.issued, leaseToken ∈ world.others.minted
  Allowed world
    | .request lookup header _ env request =>
        authenticate server lookup header = .ok tenant ∧
          (∀ leaseToken ∈ request.leaseToken, leaseToken = "" ∨ leaseToken ∈ world.issued) ∧
          (request.claims = true → newLeaseToken env.random ∉ world.others.minted)
    | .resume env index => ∀ pending ∈ world.requests[index]?,
        pending.request.claims = true → newLeaseToken env.random ∉ world.others.minted
    | .drop _ => True
    | .others label => (JobMachine.machine AnyTable OtherCalls).Allowed world.others label
    | .schedules _ => True
  step := World.step server

/-! ## Tokens -/

/-- A token on a row is one it had before, or one the call claims with. -/
theorem leaseToken_of_does {env : Env} {table after : JobTable} {call : Call}
    {events : List Event} (hdoes : call.Does env table after events)
    (hinserts : ∀ job, call.Inserts job → job.leaseToken = "") {row : Row}
    (hrow : row ∈ after.rows) {leaseToken : String}
    (htoken : row.leaseToken = some leaseToken) :
    (∃ old ∈ table.rows, old.leaseToken = some leaseToken ∧
      old.tenantID = row.tenantID) ∨ Grants env call leaseToken := by
  cases leased_of_does hdoes hinserts hrow htoken with
  | kept hold => exact .inl ⟨row, hold, htoken, rfl⟩
  | renewed old hold hheld id lease expires dbNow hrenews hset =>
      refine .inl ⟨old, hold, hheld, ?_⟩
      rw [hset, Statement.set_tenantID]
  | claimed hgrants hevent hstate => exact .inr hgrants

/-- The only token a request grants is the one its claim mints. -/
theorem granted_of_makes (table : JobTable) {tenant : String} {request : Request} {env : Env}
    {call : Call} (hmakes : Makes tenant request call) {leaseToken : String}
    (hgrants : Grants env call leaseToken) :
    leaseToken = newLeaseToken env.random ∧ request.claims = true ∧
      leaseToken ∈ (call.effect env table).minted.toList := by
  rcases hgrants with ⟨⟨leaseDuration, filter, rfl⟩, rfl⟩ | ⟨job, rfl, -⟩
  · cases hmakes with
    | claim body => exact ⟨rfl, rfl, List.mem_singleton_self _⟩
  · cases hmakes

/-- What a `Fail` of the tenant read survives a statement that does not grant its
token to anybody. -/
theorem read_effect {tenant : String} {request : Request} {progress : Progress} {env : Env}
    {table : JobTable} {call : Call} (hof : progress.Of tenant request)
    (hread : progress.Read table)
    (hgrants : ∀ leaseToken ∈ request.leaseToken, ¬ Grants env call leaseToken)
    (hinserts : ∀ job, call.Inserts job → job.leaseToken = "") :
    progress.Read (call.effect env table).table := by
  cases progress with
  | claim => trivial
  | call made =>
      cases made with
      | failWrite id leaseToken errMsg permanent job =>
          cases hof.1 with
          | failWrite id body =>
              exact readOf_of_does hread (hgrants body.leaseToken rfl) hinserts
                (effect_does env table call)
      | _ => trivial

/-- Nothing is left of a request that presents an empty token. -/
theorem leaseToken_ne_empty_of_next {context : Context} {env : Env} {database : Database}
    {request : Request} {progress : Progress}
    (hnext : (request.start context env database).next = some progress)
    {leaseToken : String} (htoken : request.leaseToken = some leaseToken) :
    leaseToken ≠ "" := by
  intro hempty
  cases request with
  | heartbeatJob id body | completeJob id body | failJob id body =>
      cases body with
      | error message => cases htoken
      | ok body =>
          cases htoken
          simp only [Request.start, heartbeatJob, completeJob, failJob, withLease] at hnext
          rw [if_pos hempty] at hnext
          cases hnext
  | _ => cases htoken

/-! ## The invariant -/

/-- What is known of the calls of everybody else. -/
def OtherCall (minted issued : List String) : Call → Prop
  | .kafkaWrite job => job.leaseToken ∈ minted ∧ job.leaseToken ∉ issued
  | .enqueue job | .enqueueInsert job => job.leaseToken = ""
  | _ => True

structure PendingOk (tenant : String) (issued : List String) (table : JobTable)
    (pending : Pending) : Prop where
  actsFor : pending.context.tenant = tenant
  nonempty : tenant ≠ ""
  presents : ∀ leaseToken ∈ pending.request.leaseToken, leaseToken ∈ issued
  progress : pending.progress.Of tenant pending.request
  read : pending.progress.Read table

structure TenantInv (tenant : String) (world : World) : Prop where
  rows : ∀ row ∈ world.others.jobs.rows, ∀ leaseToken ∈ row.leaseToken,
    leaseToken ∈ world.others.minted ∧ (leaseToken ∈ world.issued → Owns tenant row)
  issued : ∀ leaseToken ∈ world.issued, leaseToken ∈ world.others.minted
  calls : ∀ call ∈ world.others.calls, OtherCall world.others.minted world.issued call
  requests : ∀ pending ∈ world.requests,
    PendingOk tenant world.issued world.others.jobs pending

section Others

variable {minted issued : List String} {env : Env} {table : JobTable} {call : Call}

theorem OtherCall.inserts (hcall : OtherCall minted issued call) {job : Job}
    (hinserts : call.Inserts job) : job.leaseToken = "" := by
  rcases hinserts with rfl | ⟨requested, rfl, rfl, -⟩
  · exact hcall
  · rw [withTenant_leaseToken]
    exact hcall

theorem OtherCall.notMem_issued (hcall : OtherCall minted issued call)
    (hissued : ∀ leaseToken ∈ issued, leaseToken ∈ minted)
    (hfresh : call.mints = true → newLeaseToken env.random ∉ minted) {leaseToken : String}
    (hgrants : Grants env call leaseToken) : leaseToken ∉ issued := by
  rcases hgrants with ⟨⟨leaseDuration, filter, rfl⟩, rfl⟩ | ⟨job, rfl, rfl⟩
  · intro hmem
    exact hfresh rfl (hissued _ hmem)
  · exact hcall.2

theorem OtherCall.mem_minted (hcall : OtherCall minted issued call) {leaseToken : String}
    (hgrants : Grants env call leaseToken) :
    leaseToken ∈ (call.effect env table).minted.toList ++ minted := by
  rcases hgrants with ⟨⟨leaseDuration, filter, rfl⟩, rfl⟩ | ⟨job, rfl, rfl⟩
  · exact List.mem_append_left _ (List.mem_singleton_self _)
  · exact List.mem_append_right _ hcall.1

/-- A call under way stays as it is while tokens are minted, and handed out the
moment they are. -/
theorem OtherCall.mono {minted' issued' : List String} (hcall : OtherCall minted issued call)
    (hminted : ∀ leaseToken ∈ minted, leaseToken ∈ minted')
    (hissued : ∀ leaseToken ∈ minted, leaseToken ∈ issued' → leaseToken ∈ issued) :
    OtherCall minted' issued' call := by
  cases call with
  | kafkaWrite job =>
      refine ⟨hminted _ hcall.1, ?_⟩
      intro hmem
      exact hcall.2 (hissued _ hcall.1 hmem)
  | enqueue job | enqueueInsert job => exact hcall
  | _ => trivial

theorem OtherCall.next (hcall : OtherCall minted issued call)
    (hissued : ∀ leaseToken ∈ issued, leaseToken ∈ minted)
    (hfresh : call.mints = true → newLeaseToken env.random ∉ minted) {next : Call}
    (hnext : (call.effect env table).next = some next) :
    OtherCall ((call.effect env table).minted.toList ++ minted) issued next := by
  cases effect_leads hnext with
  | kafkaWrite message lease hclaims hread =>
      rw [effect_minted_kafkaClaim hclaims]
      refine ⟨List.mem_append_left _ (List.mem_singleton_self _), ?_⟩
      intro hmem
      exact hfresh rfl (hissued _ hmem)
  | enqueueInsert job hkey =>
      change (withTenant job).leaseToken = ""
      rw [withTenant_leaseToken]
      exact hcall
  | _ => trivial

end Others

section Steps

variable {tenant : String} {server : Server} {world : World}

/-- Somebody else runs a statement. -/
theorem TenantInv.perform (hinv : TenantInv tenant world) {env : Env} {call : Call}
    {calls : List Call} (hcalls : ∀ other ∈ calls, other ∈ world.others.calls)
    (hcall : OtherCall world.others.minted world.issued call)
    (hfresh : call.mints = true → newLeaseToken env.random ∉ world.others.minted) :
    TenantInv tenant { world with
      others := { world.others with calls }.perform env call } := by
  have hminted : ∀ leaseToken ∈ world.others.minted, leaseToken ∈
      (call.effect env world.others.jobs).minted.toList ++ world.others.minted :=
    fun leaseToken hmem => List.mem_append_right _ hmem
  constructor
  · intro row hrow leaseToken htoken
    rcases leaseToken_of_does (effect_does env world.others.jobs call)
      (fun job => hcall.inserts) hrow htoken with ⟨old, hold, hheld, howner⟩ | hgrants
    · obtain ⟨hmem, howns⟩ := hinv.rows old hold leaseToken hheld
      refine ⟨hminted _ hmem, ?_⟩
      intro hissued
      exact howner.symm.trans (howns hissued)
    · refine ⟨hcall.mem_minted hgrants, ?_⟩
      intro hissued
      exact absurd hissued (hcall.notMem_issued hinv.issued hfresh hgrants)
  · intro leaseToken hissued
    exact hminted _ (hinv.issued leaseToken hissued)
  · intro other hother
    rcases List.mem_append.1 hother with hnext | hold
    · exact hcall.next hinv.issued hfresh (Option.mem_toList.1 hnext)
    · exact (hinv.calls other (hcalls other hold)).mono hminted fun _ _ hissued => hissued
  · intro pending hpending
    have hok := hinv.requests pending hpending
    refine ⟨hok.actsFor, hok.nonempty, hok.presents, hok.progress, ?_⟩
    apply read_effect hok.progress hok.read
    · intro leaseToken htoken hgrants
      exact hcall.notMem_issued hinv.issued hfresh hgrants (hok.presents leaseToken htoken)
    · exact fun job => hcall.inserts

theorem TenantInv.others (hinv : TenantInv tenant world) {label : JobMachine.Label}
    (hallowed : (JobMachine.machine AnyTable OtherCalls).Allowed world.others label) :
    TenantInv tenant { world with others := world.others.step label } := by
  rcases step_cases hallowed with ⟨env, call, hstarts, hmay, hstep⟩ |
    ⟨env, call, calls, hperm, hmay, hstep⟩ | ⟨calls, hsublist, hstep⟩
  · rw [hstep]
    apply hinv.perform (fun other hother => hother) _ hmay.1
    have hinitial := hstarts.initial
    cases call with
    | enqueue job => exact (hmay.2 job rfl).leaseToken
    | kafkaWrite | enqueueInsert => cases hinitial
    | _ => trivial
  · rw [hstep]
    apply hinv.perform _ (hinv.calls call (hperm.mem_iff.1 (List.mem_cons_self ..))) hmay.1
    intro other hother
    exact hperm.mem_iff.1 (List.mem_cons_of_mem _ hother)
  · rw [hstep]
    refine ⟨hinv.rows, hinv.issued, ?_, hinv.requests⟩
    intro call hcall
    exact hinv.calls call (hsublist.subset hcall)

/-! ## Turns of the tenant -/

/-- What is known of a turn of the tenant before it is made. -/
structure MoveOk (tenant : String) (world : World) (move : Move) : Prop where
  actsFor : move.context.tenant = tenant
  nonempty : tenant ≠ ""
  presentsOwn : move.request.PresentsOwn tenant world.others.jobs
  presents : move.turn.next ≠ none → ∀ leaseToken ∈ move.request.leaseToken,
    leaseToken ∈ world.issued
  fresh : move.request.claims = true → newLeaseToken move.env.random ∉ world.others.minted
  inScope : move.turn.Scoped move.context move.env world.database move.request
  confined : move.turn.Confined move.context move.env move.request world.database
  rest : ∀ pending ∈ move.rest, pending ∈ world.requests

theorem TenantInv.presentsOwn (hinv : TenantInv tenant world) {request : Request}
    (hpresents : ∀ leaseToken ∈ request.leaseToken,
      leaseToken = "" ∨ leaseToken ∈ world.issued) :
    request.PresentsOwn tenant world.others.jobs := by
  intro leaseToken htoken hne row hrow _ hheld
  have hissued := (hpresents leaseToken htoken).resolve_left hne
  exact (hinv.rows row hrow leaseToken hheld).2 hissued

theorem TenantInv.moveOk (hinv : TenantInv tenant world) {label : Label} {move : Move}
    (hallowed : (machine server tenant).Allowed world label)
    (hmove : world.move server label = some move) : MoveOk tenant world move := by
  cases label with
  | request lookup header requestID env request =>
      obtain ⟨hauth, hpresents, hfresh⟩ := hallowed
      unfold World.move at hmove
      simp only [hauth, Option.some.injEq] at hmove
      rw [← hmove]
      have htenant := authenticate_ne_empty hauth
      have hown : request.PresentsOwn tenant world.database.jobs := hinv.presentsOwn hpresents
      refine ⟨rfl, htenant, hown, ?_, hfresh, scoped_start htenant,
        confined_start htenant hown, fun pending hpending => hpending⟩
      intro hnext leaseToken htoken
      obtain ⟨progress, hprogress⟩ := Option.ne_none_iff_exists'.1 hnext
      exact (hpresents leaseToken htoken).resolve_left
        (leaseToken_ne_empty_of_next hprogress htoken)
  | resume env index =>
      obtain ⟨pending, hpending, rfl⟩ := Option.map_eq_some_iff.1 hmove
      have hok := hinv.requests pending (List.mem_of_getElem? hpending)
      obtain ⟨rfl, htenant, hpresents, hprogress, hread⟩ := hok
      have hown : pending.request.PresentsOwn pending.context.tenant world.database.jobs :=
        hinv.presentsOwn fun leaseToken htoken => .inr (hpresents leaseToken htoken)
      exact ⟨rfl, htenant, hown, fun _ => hpresents, hallowed pending hpending,
        scoped_resume htenant hprogress, confined_resume htenant hown hprogress hread,
        fun other hother => List.mem_of_mem_eraseIdx hother⟩
  | drop | others | schedules => cases hmove

section Make

variable {move : Move} (hinv : TenantInv tenant world) (hok : MoveOk tenant world move)
include hok

/-- A token on a row is one it had before, or the one this claim minted. -/
theorem MoveOk.leaseToken {row : Row} (hrow : row ∈ move.turn.effect.table.rows)
    {leaseToken : String} (htoken : row.leaseToken = some leaseToken) :
    (∃ old ∈ world.others.jobs.rows, old.leaseToken = some leaseToken ∧
      old.tenantID = row.tenantID) ∨
    (leaseToken = newLeaseToken move.env.random ∧ move.request.claims = true ∧
      leaseToken ∈ move.turn.effect.minted.toList) := by
  rcases hok.inScope.ran with hnone | ⟨call, hmakes, heffect⟩
  · rw [hnone] at hrow
    exact .inl ⟨row, hrow, htoken, rfl⟩
  · rw [heffect] at hrow ⊢
    rw [hok.actsFor] at hmakes
    rcases leaseToken_of_does (effect_does move.env world.others.jobs call)
      (fun job hinserts => (hmakes.enqueuedFor hok.nonempty hinserts).leaseToken)
      hrow htoken with hold | hgrants
    · exact .inl hold
    · exact .inr (granted_of_makes world.others.jobs hmakes hgrants)

/-- The token a response hands out is the one this claim minted. -/
theorem MoveOk.issued {leaseToken : String}
    (hissued : leaseToken ∈ move.turn.response.bind issuedToken) :
    leaseToken = newLeaseToken move.env.random ∧ move.request.claims = true ∧
      ∃ row ∈ move.turn.effect.table.rows, row.leaseToken = some leaseToken := by
  obtain ⟨response, hresponse, htoken⟩ := Option.bind_eq_some_iff.1 hissued
  cases hok.confined response hresponse with
  | claim body hrequest row hrow howns hminted =>
      cases htoken
      rw [hrequest]
      exact ⟨rfl, rfl, row, hrow, hminted⟩
  | fixed status body hbody =>
      simp only [List.mem_cons, List.not_mem_nil, or_false] at hbody
      rcases hbody with rfl | rfl | rfl | rfl <;> cases htoken
  | _ => cases htoken

theorem MoveOk.unminted {leaseToken : String}
    (hissued : leaseToken ∈ move.turn.response.bind issuedToken) :
    leaseToken ∉ world.others.minted := by
  obtain ⟨rfl, hclaims, -⟩ := hok.issued hissued
  exact hok.fresh hclaims

include hinv

theorem TenantInv.make_rows {row : Row} (hrow : row ∈ move.turn.effect.table.rows)
    {leaseToken : String} (htoken : row.leaseToken = some leaseToken) :
    leaseToken ∈ (world.make move).others.minted ∧
      (leaseToken ∈ (world.make move).issued → Owns tenant row) := by
  constructor
  · rcases hok.leaseToken hrow htoken with ⟨old, hold, hheld, -⟩ | ⟨-, -, hminted⟩
    · exact List.mem_append_right _ (hinv.rows old hold leaseToken hheld).1
    · exact List.mem_append_left _ hminted
  · intro hissued
    rcases List.mem_append.1 hissued with hnew | hold
    · -- A foreign row would have been there before, with a token not minted yet.
      have hunminted := hok.unminted (Option.mem_toList.1 hnew)
      by_contra hforeign
      have hhidden : row ∈ move.turn.effect.table.hidden (Owns tenant) :=
        Table.mem_hidden.2 ⟨hrow, hforeign⟩
      have hframe := hok.inScope.jobs
      rw [hok.actsFor] at hframe
      rw [hframe hok.nonempty hok.presentsOwn] at hhidden
      exact hunminted (hinv.rows row (Table.mem_hidden.1 hhidden).1 leaseToken htoken).1
    · rcases hok.leaseToken hrow htoken with ⟨old, hbefore, hheld, howner⟩ |
        ⟨rfl, hclaims, -⟩
      · exact howner.symm.trans ((hinv.rows old hbefore leaseToken hheld).2 hold)
      · exact absurd (hinv.issued _ hold) (hok.fresh hclaims)

theorem TenantInv.make_read {pending : Pending}
    (hpending : PendingOk tenant world.issued world.others.jobs pending) :
    pending.progress.Read move.turn.effect.table := by
  rcases hok.inScope.ran with hnone | ⟨call, hmakes, heffect⟩
  · rw [hnone]
    exact hpending.read
  · rw [heffect]
    rw [hok.actsFor] at hmakes
    apply read_effect hpending.progress hpending.read
    · intro leaseToken htoken hgrants
      have hminted := hinv.issued leaseToken (hpending.presents leaseToken htoken)
      obtain ⟨rfl, hclaims, -⟩ := granted_of_makes world.others.jobs hmakes hgrants
      exact hok.fresh hclaims hminted
    · intro job hinserts
      exact (hmakes.enqueuedFor hok.nonempty hinserts).leaseToken

theorem TenantInv.make : TenantInv tenant (world.make move) := by
  have hminted : ∀ leaseToken ∈ world.others.minted,
      leaseToken ∈ (world.make move).others.minted :=
    fun leaseToken hmem => List.mem_append_right _ hmem
  have hissued : ∀ leaseToken ∈ world.issued, leaseToken ∈ (world.make move).issued :=
    fun leaseToken hmem => List.mem_append_right _ hmem
  constructor
  · intro row hrow leaseToken htoken
    exact hinv.make_rows hok hrow htoken
  · intro leaseToken hmem
    rcases List.mem_append.1 hmem with hnew | hold
    · obtain ⟨-, -, row, hrow, htoken⟩ := hok.issued (Option.mem_toList.1 hnew)
      exact (hinv.make_rows hok hrow htoken).1
    · exact hminted _ (hinv.issued leaseToken hold)
  · intro call hcall
    apply (hinv.calls call hcall).mono hminted
    intro leaseToken hbefore hmem
    rcases List.mem_append.1 hmem with hnew | hold
    · exact absurd hbefore (hok.unminted (Option.mem_toList.1 hnew))
    · exact hold
  · intro pending hpending
    rcases List.mem_append.1 hpending with hnew | hrest
    · obtain ⟨progress, hprogress, rfl⟩ := Option.map_eq_some_iff.1 (Option.mem_toList.1 hnew)
      obtain ⟨hof, hread⟩ := hok.inScope.next progress hprogress
      rw [hok.actsFor] at hof
      refine ⟨hok.actsFor, hok.nonempty, ?_, hof, hread⟩
      intro leaseToken htoken
      exact hissued _ (hok.presents (by simp [hprogress]) leaseToken htoken)
    · have hbefore := hinv.requests pending (hok.rest pending hrest)
      refine ⟨hbefore.actsFor, hbefore.nonempty, ?_, hbefore.progress,
        hinv.make_read hok hbefore⟩
      intro leaseToken htoken
      exact hissued _ (hbefore.presents leaseToken htoken)

end Make

theorem TenantInv.step (hinv : TenantInv tenant world) {label : Label}
    (hallowed : (machine server tenant).Allowed world label) :
    TenantInv tenant (world.step server label) := by
  unfold World.step
  split
  · rename_i move hmove
    exact hinv.make (hinv.moveOk hallowed hmove)
  · cases label with
    | request | resume => exact hinv
    | drop index =>
        refine ⟨hinv.rows, hinv.issued, hinv.calls, ?_⟩
        intro pending hpending
        exact hinv.requests pending (List.mem_of_mem_eraseIdx hpending)
    | others label => exact hinv.others hallowed
    | schedules table => exact { hinv with }

theorem tenantInv (hreach : (machine server tenant).Reachable world) :
    TenantInv tenant world := by
  apply hreach.invariant (TenantInv tenant)
  · rintro initial ⟨hrequests, hcalls, -, hrows, hissued⟩
    refine ⟨hrows, hissued, ?_, ?_⟩
    · rw [hcalls]
      intro call hcall
      cases hcall
    · rw [hrequests]
      intro pending hpending
      cases hpending
  · intro before label _ hallowed hinv
    exact hinv.step hallowed

end Steps

/-! ## Integrity -/

/-- Along every run, a turn of a request of the tenant leaves the rows of all
other tenants as they are, in both tables, and its response holds nothing of
them. -/
theorem tenant_integrity {server : Server} {tenant : String} {world : World}
    (hreach : (machine server tenant).Reachable world) {label : Label}
    (hallowed : (machine server tenant).Allowed world label) {move : Move}
    (hmove : world.move server label = some move) :
    let after := (machine server tenant).step world label
    move.context.tenant = tenant ∧
      after.others.jobs.hidden (Owns tenant) = world.others.jobs.hidden (Owns tenant) ∧
      after.schedules.hidden (OwnsSchedule tenant) =
        world.schedules.hidden (OwnsSchedule tenant) ∧
      ∀ response ∈ move.turn.response,
        FromTenant move.context move.env move.request world.database after.database
          response := by
  have hok := (tenantInv hreach).moveOk hallowed hmove
  have hjobs := hok.inScope.jobs
  have hschedules := hok.inScope.schedules
  rw [hok.actsFor] at hjobs hschedules
  intro after
  have hafter : after = world.make move := by
    change world.step server label = world.make move
    unfold World.step
    rw [hmove]
  rw [hafter]
  exact ⟨hok.actsFor, hjobs hok.nonempty hok.presentsOwn, hschedules, hok.confined⟩

/-! ## A run -/

/-- A server without API keys, so that every request acts for the default tenant. -/
def openServer : Server where
  lease := 5 * minute
  maxClaimWait := 0
  apiKeys := []
  hashKey _ := []
  collate _ _ := true
  quote := String.ofList

def emptyWorld : World where
  others := JobMachine.emptyWorld
  schedules := Table.empty schedules
  requests := []
  issued := []

/-- Another tenant enqueues a job, then the default tenant enqueues one and claims
it. -/
def sharedRun : List Label :=
  [.others (.issue (plainEnv 1 0 "job-1")
      (.enqueue { JobMachine.plainJob with tenantID := "acme" })),
    .request none "" "r-1" (plainEnv 2 0 "job-2")
      (.enqueueJob (.ok ⟨"", JobMachine.plainJob.task, none, none⟩)),
    .request none "" "r-2" (plainEnv 3 minute "") (.claimJob (.ok ⟨[], [], 0, 0⟩))]

def completion : Label :=
  .request none "" "r-3" (plainEnv 4 minute "")
    (.completeJob "job-2" (.ok ⟨newLeaseToken fun _ => 3, none⟩))

theorem allowedRun_sharedRun :
    (machine openServer "default").AllowedRun emptyWorld sharedRun := by
  refine ⟨⟨⟨rfl, ?_⟩, ?_, ?_⟩, ⟨rfl, ?_, ?_⟩, ⟨rfl, ?_, ?_⟩, trivial⟩
  · rintro message lease ⟨⟩
  · rintro ⟨⟩
  · rintro job ⟨⟩
    exact ⟨rfl, rfl, rfl, rfl, rfl, rfl, rfl, rfl, rfl, rfl⟩
  · rintro leaseToken ⟨⟩
  · rintro ⟨⟩
  · rintro leaseToken ⟨⟩
  · intro _
    decide +kernel

theorem tenant_integrity_sharedRun :
    let world := (machine openServer "default").run emptyWorld sharedRun
    ∃ move, world.move openServer completion = some move ∧
      move.turn.response = some ⟨200, .state .completed⟩ ∧
      (world.others.jobs.hidden (Owns "default")).map Row.id = ["job-1"] ∧
      ((machine openServer "default").step world completion).others.jobs.hidden
        (Owns "default") = world.others.jobs.hidden (Owns "default") := by
  intro world
  have hreach : (machine openServer "default").Reachable world := by
    apply Machine.Reachable.run _ allowedRun_sharedRun
    apply Machine.Reachable.start
    refine ⟨rfl, rfl, rfl, ?_, ?_⟩
    · rintro row ⟨⟩
    · rintro leaseToken ⟨⟩
  have hallowed : (machine openServer "default").Allowed world completion := by
    refine ⟨rfl, ?_, ?_⟩
    · rintro leaseToken ⟨⟩
      right
      decide +kernel
    · rintro ⟨⟩
  refine ⟨_, rfl, by decide +kernel, by decide +kernel, ?_⟩
  exact (tenant_integrity hreach hallowed rfl).2.1

end Conduit.TenantIntegrity
