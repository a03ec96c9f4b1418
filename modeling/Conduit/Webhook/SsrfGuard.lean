import Conduit.Webhook.Executor

/-!
# What the webhook executor connects to

Every URL that is requested has been checked, and the redirects are bounded.  The addresses
are another matter: a host that is an address is dialled as it was checked, but a name is
looked up again, so that the check holds of what is dialled exactly if the second answer is
as good as the first.
-/

namespace Conduit.Webhook

/-- Requests go to accepted addresses and checked URLs only, and there are no more of them
than the redirects allow. -/
def Guarded (library : Library) (executor : Executor) (requests : List Sent) : Prop :=
  (∀ sent ∈ requests, validateAddr executor sent.addr = .ok () ∧
    validateURL library executor sent.checked sent.url = .ok ()) ∧
  (requests.length : ℤ) ≤ executor.maxRedirects + 1

/-! ## The course of the requests -/

section Course

variable (library : Library) (executor : Executor)

/-- The client looks a host name up to connect for the URL, that of the proxy if need be. -/
def looksUp (url : URL) : Bool :=
  library.usesProxy url || (library.parseAddr url.hostname).isNone

/-- Where the client goes after an answer: a redirect, while they are allowed, to a URL that
the check accepts. -/
def redirectTo (via : ℕ) (hop : Hop) : Option URL :=
  match hop.answer with
  | .error _ => none
  | .ok response =>
      match response.redirect with
      | some (.ok next) =>
          if executor.maxRedirects ≤ via + 1 then none
          else if validateURL library executor hop.lookup next = .ok () then some next
          else none
      | _ => none

/-- The network answers with this hop when the client, after `via` requests and about to
request the first URL, comes to request the second. -/
inductive Reaches : ℕ → URL → List Hop → URL → Hop → Prop
  | first (via : ℕ) (url : URL) (hop : Hop) (hops : List Hop) :
      Reaches via url (hop :: hops) url hop
  | redirected {via : ℕ} {url next target : URL} {hop last : Hop} {hops : List Hop} {addr : Addr}
      (hdial : hop.dial = .ok addr) (hnext : redirectTo library executor via hop = some next)
      (hreaches : Reaches (via + 1) next hops target last) :
      Reaches via url (hop :: hops) target last

/-- The URL of the first request for a job, if its metadata pass the checks. -/
def firstURL (job : Models.Job) (lookup : Lookup) : Option URL :=
  let targetURL := String.ofList (metadata job "url")
  let upper := library.toUpper (String.ofList (metadata job "method"))
  if targetURL = "" ∨ upper ∉ ["", "POST", "PUT", "PATCH"] then none
  else
    match library.parseURL targetURL with
    | .error _ => none
    | .ok url => if validateURL library executor lookup url = .ok () then some url else none

/-- Wherever the client looks a host name up, the address it gets is an accepted one. -/
def NamesAccepted (job : Models.Job) (lookup : Lookup) (hops : List Hop) : Prop :=
  ∀ url ∈ firstURL library executor job lookup, ∀ target hop addr,
    Reaches library executor 0 url hops target hop → looksUp library target = true →
      hop.dial = .ok addr → validateAddr executor addr = .ok ()

/-- The job has no URL that may be requested, or the client cannot connect. -/
def Unsent (job : Models.Job) (lookup : Lookup) (hops : List Hop) : Prop :=
  ∀ url ∈ firstURL library executor job lookup, ∀ hop ∈ hops.head?, ∀ addr,
    hop.dial ≠ .ok addr

end Course

section Requests

variable {library : Library} {executor : Executor}

/-- A host that is an address is checked by that address. -/
theorem validateAddr_of_validateURL {lookup : Lookup} {url : URL} {addr : Addr}
    (hvalid : validateURL library executor lookup url = .ok ())
    (haddr : library.parseAddr url.hostname = some addr) :
    validateAddr executor addr = .ok () := by
  unfold validateURL at hvalid
  rw [haddr] at hvalid
  split at hvalid
  · cases hvalid
  split at hvalid
  · cases hvalid
  split at hvalid
  · cases hvalid
  split at hvalid
  · cases hvalid
  · exact hvalid

theorem connect_of_looksUp {url : URL} (hlooks : looksUp library url = true) (hop : Hop) :
    connect library url hop = hop.dial := by
  rw [looksUp, Bool.or_eq_true, Option.isNone_iff_eq_none] at hlooks
  rw [connect]
  split
  · rfl
  · rename_i hproxy
    rw [hlooks.resolve_left hproxy]

/-- What is dialled for a host that is an address. -/
theorem connect_of_not_looksUp {url : URL} (hlooks : looksUp library url = false) (hop : Hop) :
    ∃ addr, library.parseAddr url.hostname = some addr ∧
      connect library url hop = hop.dial.map fun _ => addr := by
  rw [looksUp, Bool.or_eq_false_iff, Option.isNone_eq_false_iff, Option.isSome_iff_exists]
    at hlooks
  obtain ⟨hproxy, addr, haddr⟩ := hlooks
  refine ⟨addr, haddr, ?_⟩
  rw [connect, hproxy, haddr]
  rfl

theorem exists_dial_iff (library : Library) (url : URL) (hop : Hop) :
    (∃ addr, connect library url hop = .ok addr) ↔ ∃ addr, hop.dial = .ok addr := by
  cases hlooks : looksUp library url with
  | true => rw [connect_of_looksUp hlooks]
  | false =>
      obtain ⟨addr, -, hconnect⟩ := connect_of_not_looksUp hlooks hop
      rw [hconnect]
      cases hop.dial with
      | error cause =>
          constructor
          · rintro ⟨addr, hok⟩
            cases hok
          · rintro ⟨addr, hok⟩
            cases hok
      | ok dialled => exact ⟨fun _ => ⟨dialled, rfl⟩, fun _ => ⟨addr, rfl⟩⟩

theorem redirectTo_eq_some {via : ℕ} {hop : Hop} {next : URL}
    (hnext : redirectTo library executor via hop = some next) :
    (via : ℤ) + 1 < executor.maxRedirects ∧
      validateURL library executor hop.lookup next = .ok () := by
  unfold redirectTo at hnext
  split at hnext
  · cases hnext
  · split at hnext
    · split at hnext
      · cases hnext
      · rename_i hfew
        split at hnext
        · rename_i hvalid
          cases hnext
          exact ⟨not_le.mp hfew, hvalid⟩
        · cases hnext
    · cases hnext

/-- One request of the client, and those of the redirect it follows. -/
theorem follow_cons (library : Library) (executor : Executor) (via : ℕ) (url : URL)
    (checked : Lookup) (hop : Hop) (hops : List Hop) :
    (follow library executor via url checked (hop :: hops)).1 =
      match connect library url hop with
      | .error _ => []
      | .ok addr => ⟨url, addr, checked⟩ ::
          (redirectTo library executor via hop).elim []
            fun next => (follow library executor (via + 1) next hop.lookup hops).1 := by
  rw [follow, redirectTo]
  cases connect library url hop with
  | error cause => rfl
  | ok addr =>
      dsimp only
      cases hop.answer with
      | error cause => rfl
      | ok response =>
          dsimp only
          cases response.redirect with
          | none => rfl
          | some location =>
              cases location with
              | error cause => rfl
              | ok next =>
                  dsimp only
                  split
                  · rfl
                  · cases hvalid : validateURL library executor hop.lookup next with
                    | error err => rfl
                    | ok _ => rfl

/-- A request is for a checked URL and goes where a host that is an address says. -/
structure SentOk (library : Library) (executor : Executor) (sent : Sent) : Prop where
  valid : validateURL library executor sent.checked sent.url = .ok ()
  literal : looksUp library sent.url = false →
    library.parseAddr sent.url.hostname = some sent.addr

theorem SentOk.accepted {sent : Sent} (hsent : SentOk library executor sent)
    (hlooks : looksUp library sent.url = false) : validateAddr executor sent.addr = .ok () :=
  validateAddr_of_validateURL hsent.valid (hsent.literal hlooks)

theorem sentOk_of_connect {url : URL} {checked : Lookup} {hop : Hop} {addr : Addr}
    (hvalid : validateURL library executor checked url = .ok ())
    (hconnect : connect library url hop = .ok addr) :
    SentOk library executor ⟨url, addr, checked⟩ := by
  refine ⟨hvalid, fun hlooks => ?_⟩
  obtain ⟨literal, hliteral, hdial⟩ := connect_of_not_looksUp hlooks hop
  rw [hconnect] at hdial
  cases hop_dial : hop.dial with
  | error cause =>
      rw [hop_dial] at hdial
      cases hdial
  | ok dialled =>
      rw [hop_dial] at hdial
      rw [Except.ok.inj hdial]
      exact hliteral

theorem sentOk_follow {via : ℕ} {url : URL} {checked : Lookup} {hops : List Hop}
    (hvalid : validateURL library executor checked url = .ok ()) :
    ∀ sent ∈ (follow library executor via url checked hops).1,
      SentOk library executor sent := by
  induction hops generalizing via url checked with
  | nil => exact fun sent hsent => absurd hsent List.not_mem_nil
  | cons hop hops ih =>
      intro sent hsent
      rw [follow_cons] at hsent
      cases hconnect : connect library url hop with
      | error cause =>
          rw [hconnect] at hsent
          cases hsent
      | ok addr =>
          rw [hconnect] at hsent
          rcases List.mem_cons.mp hsent with rfl | hsent
          · exact sentOk_of_connect hvalid hconnect
          · cases hnext : redirectTo library executor via hop with
            | none =>
                rw [hnext] at hsent
                cases hsent
            | some next =>
                rw [hnext] at hsent
                exact ih (redirectTo_eq_some hnext).2 sent hsent

theorem length_follow (library : Library) (executor : Executor) (via : ℕ) (url : URL)
    (checked : Lookup) (hops : List Hop) :
    ((follow library executor via url checked hops).1.length : ℤ) ≤
      max 1 (executor.maxRedirects - via) := by
  induction hops generalizing via url checked with
  | nil => simp [follow]
  | cons hop hops ih =>
      rw [follow_cons]
      cases connect library url hop with
      | error cause => simp
      | ok addr =>
          dsimp only
          cases hnext : redirectTo library executor via hop with
          | none => simp
          | some next =>
              have hfew := (redirectTo_eq_some hnext).1
              have hrest := ih (via + 1) next hop.lookup
              rw [List.length_cons, Option.elim_some]
              push_cast at hrest ⊢
              omega

/-- The requests that are sent are those the client comes to and can connect for. -/
theorem exists_mem_follow_iff {via : ℕ} {url target : URL} {checked : Lookup} {hops : List Hop}
    {addr : Addr} :
    (∃ lookup, ⟨target, addr, lookup⟩ ∈ (follow library executor via url checked hops).1) ↔
      ∃ hop, Reaches library executor via url hops target hop ∧
        connect library target hop = .ok addr := by
  constructor
  · rintro ⟨lookup, hsent⟩
    induction hops generalizing via url checked with
    | nil => cases hsent
    | cons hop hops ih =>
        rw [follow_cons] at hsent
        cases hconnect : connect library url hop with
        | error cause =>
            rw [hconnect] at hsent
            cases hsent
        | ok dialled =>
            rw [hconnect] at hsent
            rcases List.mem_cons.mp hsent with heq | hsent
            · cases heq
              exact ⟨hop, .first .., hconnect⟩
            · cases hnext : redirectTo library executor via hop with
              | none =>
                  rw [hnext] at hsent
                  cases hsent
              | some next =>
                  rw [hnext] at hsent
                  obtain ⟨last, hreaches, hlast⟩ := ih hsent
                  obtain ⟨dialled, hdial⟩ := (exists_dial_iff library url hop).mp ⟨_, hconnect⟩
                  exact ⟨last, .redirected hdial hnext hreaches, hlast⟩
  · rintro ⟨last, hreaches, hlast⟩
    induction hreaches generalizing checked with
    | first via url hop hops =>
        refine ⟨checked, ?_⟩
        rw [follow_cons, hlast]
        exact List.mem_cons_self
    | @redirected via url next target hop last hops dialled hdial hnext hreaches ih =>
        obtain ⟨lookup, hsent⟩ := @ih hop.lookup hlast
        obtain ⟨connected, hconnect⟩ := (exists_dial_iff library url hop).mpr ⟨dialled, hdial⟩
        refine ⟨lookup, ?_⟩
        rw [follow_cons, hconnect, hnext]
        exact List.mem_cons_of_mem _ hsent

end Requests

/-! ## The requests of a handler -/

section Handler

variable (library : Library) (executor : Executor) (job : Models.Job) (lookup : Lookup)
  (hops : List Hop)

/-- The requests of a handler are those of its client, from the first URL on. -/
theorem handler_eq :
    (handler library executor job lookup hops).1 =
      (firstURL library executor job lookup).elim []
        fun url => (follow library executor 0 url lookup hops).1 := by
  rw [handler, firstURL]
  generalize library.toUpper (String.ofList (metadata job "method")) = upper
  dsimp only
  split
  · rename_i hempty
    rw [if_pos (.inl hempty)]
    rfl
  · rename_i htarget
    cases library.parseURL (String.ofList (metadata job "url")) with
    | error cause => simp
    | ok url =>
        cases hvalid : validateURL library executor lookup url with
        | error err => simp [hvalid]
        | ok _ =>
            by_cases hupper : upper = ""
            · simp [htarget, hvalid, hupper]
            · by_cases hmethod : upper ≠ "POST" ∧ upper ≠ "PUT" ∧ upper ≠ "PATCH"
              · simp [hvalid, hupper, hmethod]
              · simp [htarget, hvalid, hupper, hmethod]

theorem validateURL_of_firstURL {url : URL}
    (hfirst : firstURL library executor job lookup = some url) :
    validateURL library executor lookup url = .ok () := by
  rw [firstURL] at hfirst
  split at hfirst
  · cases hfirst
  · split at hfirst
    · cases hfirst
    · split at hfirst
      · rename_i hvalid
        cases hfirst
        exact hvalid
      · cases hfirst

theorem sentOk_handler :
    ∀ sent ∈ (handler library executor job lookup hops).1, SentOk library executor sent := by
  rw [handler_eq]
  cases hfirst : firstURL library executor job lookup with
  | none => exact fun sent hsent => absurd hsent List.not_mem_nil
  | some url => exact sentOk_follow (validateURL_of_firstURL library executor job lookup hfirst)

/-- A redirect too many is never followed, but the first request is always sent. -/
theorem length_handler :
    ((handler library executor job lookup hops).1.length : ℤ) ≤
      max 1 executor.maxRedirects := by
  rw [handler_eq]
  cases firstURL library executor job lookup with
  | none => simp
  | some url => simpa using length_follow library executor 0 url lookup hops

/-- The addresses are accepted ones exactly if those the client looks up are. -/
theorem forall_accepted_iff :
    (∀ sent ∈ (handler library executor job lookup hops).1,
        validateAddr executor sent.addr = .ok ()) ↔
      NamesAccepted library executor job lookup hops := by
  constructor
  · intro haccepted url hfirst target hop addr hreaches hlooks hdial
    rw [handler_eq, Option.mem_def.mp hfirst] at haccepted
    rw [← connect_of_looksUp hlooks hop] at hdial
    obtain ⟨checked, hsent⟩ := exists_mem_follow_iff.mpr ⟨hop, hreaches, hdial⟩
    exact haccepted _ hsent
  · intro hnames sent hsent
    cases hlooks : looksUp library sent.url with
    | false => exact (sentOk_handler library executor job lookup hops sent hsent).accepted hlooks
    | true =>
        rw [handler_eq] at hsent
        cases hfirst : firstURL library executor job lookup with
        | none =>
            rw [hfirst] at hsent
            cases hsent
        | some url =>
            rw [hfirst] at hsent
            obtain ⟨hop, hreaches, hconnect⟩ := exists_mem_follow_iff.mp ⟨sent.checked, hsent⟩
            rw [connect_of_looksUp hlooks] at hconnect
            exact hnames url hfirst sent.url hop sent.addr hreaches hlooks hconnect

/-- Nothing is sent exactly if there is no first request. -/
theorem handler_eq_nil_iff :
    (handler library executor job lookup hops).1 = [] ↔
      Unsent library executor job lookup hops := by
  rw [handler_eq, Unsent]
  cases firstURL library executor job lookup with
  | none => simp
  | some url =>
      cases hops with
      | nil => simp [follow]
      | cons hop hops =>
          have hdial := exists_dial_iff library url hop
          rw [Option.elim_some, follow_cons]
          cases hconnect : connect library url hop with
          | error cause =>
              rw [hconnect] at hdial
              simpa using hdial
          | ok addr =>
              rw [hconnect] at hdial
              simpa using hdial

end Handler

/-- The requests for a job are guarded exactly if the client gets accepted addresses for the
host names it comes to look up and the bound on redirects is not negative. -/
theorem guarded_iff (library : Library) (cfg : Config) (job : Models.Job) (lookup : Lookup)
    (hops : List Hop) :
    Guarded library (newExecutorWithConfig cfg)
        (handler library (newExecutorWithConfig cfg) job lookup hops).1 ↔
      NamesAccepted library (newExecutorWithConfig cfg) job lookup hops ∧
        (0 ≤ cfg.maxRedirects ∨ cfg.maxRedirects = -1 ∧
          Unsent library (newExecutorWithConfig cfg) job lookup hops) := by
  rw [← forall_accepted_iff, ← handler_eq_nil_iff]
  have hsent := sentOk_handler library (newExecutorWithConfig cfg) job lookup hops
  have hlength := length_handler library (newExecutorWithConfig cfg) job lookup hops
  generalize (handler library (newExecutorWithConfig cfg) job lookup hops).1 = requests at *
  have haddresses : (∀ sent ∈ requests,
      validateAddr (newExecutorWithConfig cfg) sent.addr = .ok () ∧
        validateURL library (newExecutorWithConfig cfg) sent.checked sent.url = .ok ()) ↔
      ∀ sent ∈ requests, validateAddr (newExecutorWithConfig cfg) sent.addr = .ok () :=
    forall₂_congr fun sent hmem => and_iff_left (hsent sent hmem).valid
  have hcount : (requests.length : ℤ) ≤ cfg.maxRedirects + 1 ↔
      0 ≤ cfg.maxRedirects ∨ cfg.maxRedirects = -1 ∧ requests = [] := by
    rw [← List.length_eq_zero_iff]
    change (requests.length : ℤ) ≤ max 1 cfg.maxRedirects at hlength
    omega
  exact and_congr haddresses hcount

/-! ## A name that is bound again -/

/-- A library that reads one URL. -/
def exampleLibrary : Library where
  parseURL text :=
    if text = "https://hooks.example.com/" then .ok ⟨"https", none, "hooks.example.com"⟩
    else .error "invalid URI"
  parseAddr _ := none
  equalFold left right := left = right
  toUpper text := text
  formatAddr _ := ""
  quote text := text
  usesProxy _ := false

def exampleJob : Models.Job where
  id := "job-1"
  tenantID := "default"
  idempotencyKey := ""
  task := {
    id := "", name := "webhook", payload := none, retryCount := 0, maxRetries := 3,
    timeout := 0, cronExpression := "", queue := "",
    metadata := some (Finmap.singleton "url" "https://hooks.example.com/"), priority := 0 }
  state := .running
  attempt := 1
  scheduledAt := none
  startedAt := none
  leaseExpiresAt := none
  leaseToken := "lease-1"
  completedAt := none
  lastError := ""
  metadata := none
  createdAt := 0
  updatedAt := 0

/-- The network connects the client to the given address, and the server accepts. -/
def answeredFrom (addr : Addr) : List Hop :=
  [⟨.ok addr, .ok ⟨200, [], none⟩, .ok []⟩]

/-- One request goes out, to the address the client has looked up. -/
theorem handler_answeredFrom (addr : Addr) :
    (handler exampleLibrary (newExecutorWithConfig ⟨0, 0, false⟩) exampleJob
        (.ok [.v4 0x5db8d822]) (answeredFrom addr)).1 =
      [⟨⟨"https", none, "hooks.example.com"⟩, addr, .ok [.v4 0x5db8d822]⟩] := by
  rfl

/-- Both lookups of the name give the same public address. -/
theorem guarded_steadyName :
    Guarded exampleLibrary (newExecutorWithConfig ⟨0, 0, false⟩)
      (handler exampleLibrary (newExecutorWithConfig ⟨0, 0, false⟩) exampleJob
        (.ok [.v4 0x5db8d822]) (answeredFrom (.v4 0x5db8d822))).1 := by
  rw [guarded_iff]
  refine ⟨?_, .inl (by decide)⟩
  intro url _ target hop addr hreaches _ hdial
  cases hreaches with
  | first => cases hdial; rfl
  | redirected _ hnext _ => cases hnext

/-- The lookup of the check gives a public address, that of the client the loopback one. -/
theorem not_forall_guarded :
    ¬ ∀ (library : Library) (cfg : Config) (job : Models.Job) (lookup : Lookup)
        (hops : List Hop), cfg.allowPrivateNetworks = false →
      Guarded library (newExecutorWithConfig cfg)
        (handler library (newExecutorWithConfig cfg) job lookup hops).1 := by
  intro hguarded
  have hrebound := hguarded exampleLibrary ⟨0, 0, false⟩ exampleJob (.ok [.v4 0x5db8d822])
    (answeredFrom (.v4 0x7f000001)) rfl
  rw [handler_answeredFrom] at hrebound
  have haccepted := (hrebound.1 _ List.mem_cons_self).1
  cases haccepted

end Conduit.Webhook
