import Hcpp.Http.HttpClient

/-!
# Intercept rules and service keepers

`http_handler::find` (httpserver.cpp) looks up the rule for a host; the three
service keepers turn a request's host, port and rule into a connection:
`http_svc_keeper`, `hack_sk` around it, and `mitm_svc` behind a MITM tunnel.
-/

namespace Hcpp

/-- intercept.h -/
structure InterceptSet where
  host : List Char
  svc : List Char
  url : List Char
  realHost : List Char
  doh : Bool
  dohProvider : List Char
  mitm : Bool
  closeSni : Bool
  sniHost : List Char
deriving DecidableEq, Repr

/-- `InterceptSet{}` -/
def InterceptSet.empty : InterceptSet where
  host := []
  svc := []
  url := []
  realHost := []
  doh := false
  dohProvider := []
  mitm := false
  closeSni := false
  sniHost := []

/-- A regex of `regx_filter_` is the predicate `regex_match` computes for it. -/
structure HttpHandler where
  baseHandlers : List (List Char × (List Char → List Char))
  directFilter : List (List Char × InterceptSet)
  regxFilter : List ((List Char → Bool) × InterceptSet)

/-- `http_handler::find`: both filters are asked for `host.data()`. -/
def HttpHandler.find (h : HttpHandler) (host : List Char) : Option InterceptSet :=
  match h.directFilter.find? fun i => i.1 = cString host with
  | some i => some i.2
  | none => (h.regxFilter.find? fun i => i.1 (cString host)).map Prod.snd

/-- The locals `host`, `svc` and `is` of `http_do`. -/
structure Selected where
  host : List Char
  svc : List Char
  is : Option InterceptSet
deriving DecidableEq, Repr

/-- `""`, `""` and `nullptr` -/
def Selected.init : Selected := ⟨[], [], none⟩

/-- The rule for the request; the one in use is kept when host and port are those
of the request before.  The host that is kept is the substituted one. -/
def select (h : HttpHandler) (c : Selected) (req : HttpRequest) : Selected × HttpRequest :=
  if req.host = c.host ∧ req.port = c.svc then (c, req)
  else
    match h.find req.host with
    | some opt =>
      if opt.url ≠ [] then
        (⟨opt.url, req.port, some { opt with host := opt.url }⟩, { req with host := opt.url })
      else (⟨req.host, req.port, some opt⟩, req)
    | none => (⟨req.host, req.port, some .empty⟩, req)

/-! ## Service keepers -/

/-- What `http_do` asks its service keeper for. -/
inductive Call where
  | wait (svcHost svcService : List Char) (is : Option InterceptSet)
  | waitTunnel (svcHost svcService : List Char) (is : Option InterceptSet)
deriving DecidableEq, Repr

def Call.is : Call → Option InterceptSet
  | wait _ _ is => is
  | waitTunnel _ _ is => is

def Call.host : Call → List Char
  | wait host _ _ => host
  | waitTunnel host _ _ => host

/-- A call of `make_socket`. -/
structure Dial where
  host : List Char
  service : List Char
  useDoh : Bool
deriving DecidableEq, Repr

/-- What a keeper hands out: a socket, or `failed_mem` (`none`), whose reads and
writes throw. -/
abbrev Upstream := Option Memory

/-- `http_svc_keeper`; nothing ever assigns `host_` and `service_`. -/
structure HttpSvcKeeper where
  m : Option Upstream
  host : List Char
  service : List Char
deriving DecidableEq, Repr

def HttpSvcKeeper.init : HttpSvcKeeper := ⟨none, [], []⟩

/-- `mitm` holds the memory `make_memory` made. -/
inductive Keeper where
  | httpSvc (sk : HttpSvcKeeper)
  | hack (sk : HttpSvcKeeper)
  | mitm (m : Option Memory)
deriving DecidableEq, Repr

/-- `is ? is->doh_ : false` -/
def useDoh (is : Option InterceptSet) : Bool :=
  match is with
  | some is => is.doh
  | none => false

/-- `http_svc_keeper::wait` up to `make_socket`. -/
def HttpSvcKeeper.dial (sk : HttpSvcKeeper) (host service : List Char) (is : Option InterceptSet) :
    Option Dial :=
  if sk.m.isSome ∧ sk.host = host ∧ sk.service = service then none
  else some ⟨host, service, useDoh is⟩

/-- The `make_socket` call that serves the keeper's answer.  A `socket_tunnel`
dials without the third argument; a `channel_tunnel` leaves it to `make_memory`
of the MITM server. -/
def Keeper.dial : Keeper → Call → Option Dial
  | .httpSvc sk, .wait host service is => sk.dial host service is
  | .httpSvc _, .waitTunnel host service _ => some ⟨host, service, false⟩
  | .hack sk, .wait host service is => sk.dial host service is
  | .hack _, .waitTunnel host service is =>
    match is with
    | some is => if is.mitm then some ⟨host, service, is.doh⟩ else some ⟨host, service, false⟩
    | none => some ⟨host, service, false⟩
  | .mitm _, .wait _ _ _ => none
  | .mitm _, .waitTunnel host service _ => some ⟨host, service, false⟩

/-- What comes of a `make_socket`: the resolver throws, no endpoint answers, or a
peer that will send these segments and take so many bytes. -/
inductive Peer where
  | throws
  | refused
  | accepts (incoming : List (List Char)) (room : Option Nat)
deriving DecidableEq, Repr

def makeSocket (net : Dial → Peer) (d : Dial) : Outcome Upstream :=
  match net d with
  | .throws => .throws
  | .refused => .ret none
  | .accepts incoming room => .ret (some (Memory.fresh .plain incoming room))

def HttpSvcKeeper.wait (net : Dial → Peer) (sk : HttpSvcKeeper) (host service : List Char)
    (is : Option InterceptSet) : Outcome (HttpSvcKeeper × Upstream) :=
  match sk.dial host service is with
  | none => .ret (sk, sk.m.getD none)
  | some d => do
    let w ← makeSocket net d
    return ({ sk with m := some w }, w)

/-- `service_keeper::wait` -/
def Keeper.wait (net : Dial → Peer) (host service : List Char) (is : Option InterceptSet) :
    Keeper → Outcome (Keeper × Upstream)
  | .httpSvc sk => do
    let (sk, w) ← sk.wait net host service is
    return (.httpSvc sk, w)
  | .hack sk => do
    let (sk, w) ← sk.wait net host service is
    return (.hack sk, w)
  | .mitm m =>
    match m with
    | none => .throws
    | some w => .ret (.mitm m, some w)

/-- The keeper after `http_do` used the memory it handed out. -/
def Keeper.put (w : Memory) : Keeper → Keeper
  | .httpSvc sk => .httpSvc { sk with m := some (some w) }
  | .hack sk => .hack { sk with m := some (some w) }
  | .mitm _ => .mitm (some w)

end Hcpp
