import Conduit.Scheduler.Cron
import Conduit.Store.Models

/-!
# The webhook executor

`webhook.Executor` sends a job to the URL in its metadata.  The URL and every redirect are
checked first, with a lookup of the host name for the check alone: the client looks the name
up again when it connects.  The servers and the resolver may answer anything at any time.
-/

namespace Conduit.Webhook

open Models

/-! ## Addresses -/

/-- A `netip.Addr`, whose zero value is no address. -/
inductive Addr
  | zero
  | v4 (bits : BitVec 32)
  | v6 (bits : BitVec 128) (zone : String)
  deriving DecidableEq

namespace Addr

/-- An IPv4 address inside an IPv6 one counts as what it is. -/
def unmap : Addr → Addr
  | .v6 bits zone =>
      if bits.extractLsb' 32 96 = 0xffff then .v4 (bits.extractLsb' 0 32) else .v6 bits zone
  | addr => addr

/-- Whether the address is in one of some networks, each a mask and the bits under it. -/
def within (addr : Addr) (v4 : List (BitVec 32 × BitVec 32))
    (v6 : List (BitVec 128 × BitVec 128)) : Bool :=
  match addr.unmap with
  | .zero => false
  | .v4 bits => v4.any fun network => bits &&& network.1 = network.2
  | .v6 bits _ => v6.any fun network => bits &&& network.1 = network.2

def isLoopback (addr : Addr) : Bool :=
  addr.within [(0xff000000, 0x7f000000)] [(BitVec.allOnes 128, 1)]

def isPrivate (addr : Addr) : Bool :=
  addr.within
    [(0xff000000, 0x0a000000), (0xfff00000, 0xac100000), (0xffff0000, 0xc0a80000)]
    [(0xfe <<< 120, 0xfc <<< 120)]

def isLinkLocalUnicast (addr : Addr) : Bool :=
  addr.within [(0xffff0000, 0xa9fe0000)] [(0xffc0 <<< 112, 0xfe80 <<< 112)]

def isLinkLocalMulticast (addr : Addr) : Bool :=
  addr.within [(0xffffff00, 0xe0000000)] [(0xff0f <<< 112, 0xff02 <<< 112)]

def isMulticast (addr : Addr) : Bool :=
  addr.within [(0xf0000000, 0xe0000000)] [(0xff <<< 120, 0xff <<< 120)]

/-- `IsUnspecified`, which compares the address as it is. -/
def isUnspecified (addr : Addr) : Bool :=
  addr = .v4 0 ∨ addr = .v6 0 ""

end Addr

/-! ## Checking a URL -/

/-- The parts of a parsed URL that the executor looks at. -/
structure URL where
  scheme : String
  user : Option String
  hostname : String
  deriving DecidableEq

/-- What the standard library does with text. -/
structure Library where
  parseURL : String → Except String URL
  parseAddr : String → Option Addr
  equalFold : String → String → Bool
  toUpper : String → String
  formatAddr : Addr → String
  /-- The `%q` verb of `fmt`. -/
  quote : String → String
  /-- `http.ProxyFromEnvironment`, which the default transport asks, has a proxy. -/
  usesProxy : URL → Bool

inductive URLError
  | scheme
  | userinfo
  | hostRequired
  | localhost
  | resolve (hostname cause : String)
  | noAddresses (hostname : String)
  | notPublic (addr : Addr)
  deriving DecidableEq

def URLError.message (library : Library) : URLError → String
  | .scheme => "url scheme must be http or https"
  | .userinfo => "url userinfo is not allowed"
  | .hostRequired => "url host is required"
  | .localhost => "localhost is not allowed"
  | .resolve hostname cause => "resolve host " ++ library.quote hostname ++ ": " ++ cause
  | .noAddresses hostname => "host " ++ library.quote hostname ++ " resolved to no addresses"
  | .notPublic addr => "address " ++ library.formatAddr addr ++ " is not public"

/-- The configuration of an executor that makes its own client. -/
structure Config where
  timeout : ℤ
  maxRedirects : ℤ
  allowPrivateNetworks : Bool

structure Executor where
  timeout : ℤ
  maxRedirects : ℤ
  allowPrivateNetworks : Bool

def newExecutorWithConfig (cfg : Config) : Executor where
  timeout := if cfg.timeout ≤ 0 then 10 * second else cfg.timeout
  maxRedirects := cfg.maxRedirects
  allowPrivateNetworks := cfg.allowPrivateNetworks

/-- What the resolver answers to one lookup. -/
abbrev Lookup := Except String (List Addr)

section Check

variable (library : Library) (executor : Executor)

def validateAddr (addr : Addr) : Except URLError Unit :=
  if executor.allowPrivateNetworks then .ok ()
  else if addr.isLoopback || addr.isPrivate || addr.isLinkLocalUnicast ||
      addr.isLinkLocalMulticast || addr.isMulticast || addr.isUnspecified then
    .error (.notPublic addr)
  else .ok ()

/-- `validateURL`; the lookup is not made for a host that is an address. -/
def validateURL (lookup : Lookup) (url : URL) : Except URLError Unit :=
  if url.scheme ≠ "http" ∧ url.scheme ≠ "https" then .error .scheme
  else if url.user ≠ none then .error .userinfo
  else if url.hostname = "" then .error .hostRequired
  else if library.equalFold url.hostname "localhost" then .error .localhost
  else
    match library.parseAddr url.hostname with
    | some addr => validateAddr executor addr
    | none =>
        match lookup with
        | .error cause => .error (.resolve url.hostname cause)
        | .ok addrs =>
            if addrs = [] then .error (.noAddresses url.hostname)
            else addrs.forM (validateAddr executor)

end Check

/-! ## Sending a request -/

/-- A response, with its `Location` resolved against the URL it came from. -/
structure Response where
  status : ℤ
  body : List UInt8
  location : Option (Except String URL)

/-- Where a response redirects to. -/
def Response.redirect (response : Response) : Option (Except String URL) :=
  if response.status ∈ [301, 302, 303, 307, 308] then response.location else none

/-- What the network does with one request. -/
structure Hop where
  /-- The address the client gets for a host name, that of the proxy if there is one, and
  connects to. -/
  dial : Except String Addr
  answer : Except String Response
  /-- The lookup with which a redirect in the answer is checked. -/
  lookup : Lookup

/-- A request that went out: to which address, and the lookup its URL was checked with. -/
structure Sent where
  url : URL
  addr : Addr
  checked : Lookup

inductive DoError
  | transport (cause : String)
  | location (cause : String)
  | redirect (err : URLError)
  deriving DecidableEq

/-- How far a call of the client has come. -/
inductive Progress
  | underway
  | failed (err : DoError)
  | response (response : Response)

section Client

variable (library : Library) (executor : Executor)

/-- The address a request for a URL goes to: a host that is an address is not looked up. -/
def connect (url : URL) (hop : Hop) : Except String Addr :=
  if library.usesProxy url then hop.dial
  else
    match library.parseAddr url.hostname with
    | some addr => hop.dial.map fun _ => addr
    | none => hop.dial

/-- `client.Do` with the executor's `CheckRedirect`, after `via` requests and for a URL
that has been checked. -/
def follow : ℕ → URL → Lookup → List Hop → List Sent × Progress
  | _, _, _, [] => ([], .underway)
  | via, url, checked, hop :: hops =>
      match connect library url hop with
      | .error cause => ([], .failed (.transport cause))
      | .ok addr =>
          match hop.answer with
          | .error cause => ([⟨url, addr, checked⟩], .failed (.transport cause))
          | .ok response =>
              match response.redirect with
              | none => ([⟨url, addr, checked⟩], .response response)
              | some (.error cause) => ([⟨url, addr, checked⟩], .failed (.location cause))
              | some (.ok next) =>
                  if executor.maxRedirects ≤ via + 1 then
                    ([⟨url, addr, checked⟩], .response response)
                  else
                    match validateURL library executor hop.lookup next with
                    | .error err => ([⟨url, addr, checked⟩], .failed (.redirect err))
                    | .ok _ =>
                        let rest := follow (via + 1) next hop.lookup hops
                        (⟨url, addr, checked⟩ :: rest.1, rest.2)

/-! ## Handling a job -/

inductive HandlerError
  | urlRequired
  | invalidURL (cause : String)
  | unsafeURL (err : URLError)
  | unsupportedMethod (method : String)
  | requestFailed (err : DoError)
  /-- The status of the response and what was read of its body. -/
  | status (code : ℤ) (body : List UInt8)
  deriving DecidableEq

/-- Errors that wrap `retry.ErrNoRetry`. -/
def HandlerError.noRetry : HandlerError → Bool
  | .urlRequired | .invalidURL _ | .unsafeURL _ | .unsupportedMethod _ => true
  | .requestFailed _ => false
  | .status code _ => !(code = 408 ∨ code = 429 ∨ 500 ≤ code)

/-- An absent key reads as the empty string. -/
def metadata (job : Job) (name : String) : List Char :=
  Cron.trimSpace (((job.task.metadata.bind (·.lookup name)).getD "").toList)

def maxErrorBodyBytes : ℕ := 4096

/-- What the handler makes of the client's answer, if there is one yet. -/
def conclude : Progress → Option (Except HandlerError Unit)
  | .underway => none
  | .failed err => some (.error (.requestFailed err))
  | .response response =>
      if 200 ≤ response.status ∧ response.status < 300 then some (.ok ())
      else some (.error (.status response.status (response.body.take maxErrorBodyBytes)))

/-- `Handler`: the requests it sends and its result; `lookup` is for the check of the URL. -/
def handler (job : Job) (lookup : Lookup) (hops : List Hop) :
    List Sent × Option (Except HandlerError Unit) :=
  let targetURL := String.ofList (metadata job "url")
  if targetURL = "" then ([], some (.error .urlRequired))
  else
    match library.parseURL targetURL with
    | .error cause => ([], some (.error (.invalidURL cause)))
    | .ok url =>
        match validateURL library executor lookup url with
        | .error err => ([], some (.error (.unsafeURL err)))
        | .ok _ =>
            let upper := library.toUpper (String.ofList (metadata job "method"))
            let method := if upper = "" then "POST" else upper
            if method ≠ "POST" ∧ method ≠ "PUT" ∧ method ≠ "PATCH" then
              ([], some (.error (.unsupportedMethod method)))
            else
              let run := follow library executor 0 url lookup hops
              (run.1, conclude run.2)

end Client

end Conduit.Webhook
