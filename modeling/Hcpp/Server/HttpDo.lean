import Hcpp.Http.BodyMode
import Hcpp.Server.Intercept

/-!
# `http_do`

The loop of httpserver.cpp that serves one client connection.  A pass of the
loop reads a request head, selects the intercept rule, and then hands the
connection to a tunnel, relays the request and its response, or answers itself.

The order in which `req.headers_` is iterated is not specified: it is a
parameter, any permutation of the entries.
-/

namespace Hcpp

open Memory

/-! ## The proxied request -/

/-- The iteration order of an `unordered_map`. -/
structure HashOrder where
  order : Headers → Headers
  perm : ∀ h, (order h).Perm h

/-- `req_line`: the request line, the header lines without those of `Host` and
`Proxy-Connection`, and a `Host` of its own. -/
def reqLine (o : HashOrder) (req : HttpRequest) : List Char :=
  let headers := (req.headers.erase "proxy-connection".toList).erase "host".toList
  req.methodStr ++ " ".toList ++ req.url ++ " ".toList ++ req.version ++ crlf ++
    (o.order headers).flatMap Prod.snd ++ "Host: ".toList ++ req.host ++ crlfcrlf

def requestMode (req : HttpRequest) : BodyMode :=
  if req.chunkCoding then .chunked
  else if req.bodySize > 0 then .length req.bodySize
  else .none

/-- `c->second.find("close")` -/
def asksClose (h : Headers) : Bool :=
  match h.find "connection".toList with
  | some c => (Search.find "close".toList c).isSome
  | none => false

/-- `alive` is that of the upstream memory. -/
def responseMode (rp : HttpResponse) (alive : Bool) : BodyMode :=
  if rp.chunkCoding then .chunked
  else if rp.bodySize > 0 then .length rp.bodySize
  else if !alive then .untilClose
  else .none

/-- `while (true)` over the reads until one is empty; that one is written too. -/
def relayRest : Nat → Memory → Memory → Outcome (Memory × Memory)
  | 0, _, _ => .spins
  | fuel + 1, w, ss => do
    let (w, str) ← w.asyncLoadSome (1024 * 4)
    let ss := ss.asyncWriteAll str
    if str = [] then .ret (w, ss) else relayRest fuel (w.removeSome str.length) ss

def relayUntilClose (fuel : Nat) (w ss : Memory) : Outcome (Memory × Memory) :=
  let w := w.mergeSome
  let str := w.getSome
  if str ≠ [] then relayRest fuel (w.removeSome str.length) (ss.asyncWriteAll str)
  else relayRest fuel w ss

/-- Relay the body that is next in `self`. -/
def relayBody (fuel : Nat) (mode : BodyMode) (self to_ : Memory) : Outcome (Memory × Memory) :=
  match mode with
  | .chunked => do
    let (self, to_, _) ← transferChunk fuel self to_
    return (self, to_)
  | .length n => transferMsgBody fuel self to_ n
  | .untilClose => relayUntilClose fuel self to_
  | .none => .ret (self, to_)

/-- `w->close(); ss->close();` -/
def closeBoth (rp : HttpResponse) (w ss : Memory) : Memory × Memory :=
  if asksClose rp.headers then (w.close, ss.close) else (w, ss)

/-- The response: both memories, and whether its head was accepted. -/
def relayResponse (fuel : Nat) (w ss : Memory) : Outcome (Memory × Memory × Bool) := do
  let (w, rp, accepted) ← parserResponse w
  if accepted then
    let (w, ss) := closeBoth rp w ss
    let ss := ss.asyncWriteAll (rp.responseLine ++ rp.responseHeaderStr)
    let (w, ss) ← relayBody fuel (responseMode rp w.alive) w ss
    return (w, ss, true)
  else return (w, ss, false)

/-- The request and its response. -/
def relay (fuel : Nat) (o : HashOrder) (req : HttpRequest) (ss : Memory) (w : Upstream) :
    Outcome (Memory × Memory × Bool) :=
  match w with
  | none => .throws
  | some w => do
    let (ss, w) ← relayBody fuel (requestMode req) ss (w.asyncWriteAll (reqLine o req))
    relayResponse fuel w ss

/-! ## One pass of the loop -/

structure Session where
  ss : Memory
  selected : Selected
  sk : Keeper
deriving DecidableEq, Repr

/-- What a pass ends with: `co_return` or `break`, or the next pass.  `answered` is
the upstream memory the request went to, if it went to one. -/
inductive Turn where
  | ended
  | next (s : Session) (answered : Option Memory)
deriving DecidableEq, Repr

/-- What came of the head: whether both parsers accepted it. -/
structure Accepted where
  ss : Memory
  selected : Selected
  req : HttpRequest
  accepted : Bool
deriving DecidableEq, Repr

/-- The head of a request; `req` is what `make_request` gave. -/
def acceptHead (h : HttpHandler) (s : Selected) (ss : Memory) (req : HttpRequest) :
    Outcome Accepted := do
  let (ss, p) ← parserRequestLine ss req
  match p with
  | none => return ⟨ss, s, req, false⟩
  | some (req, headerEnd) =>
    let (s, req) := select h s req
    let (ss, p) ← parserRequestHeaders ss req headerEnd
    match p with
    | none => return ⟨ss, s, req, false⟩
    | some req => return ⟨ss, s, req, true⟩

/-- The call of the service keeper, for a request that is not answered here. -/
def callFor (a : Accepted) : Option Call :=
  if a.req.method = .connect then some (.waitTunnel a.req.host a.req.port a.selected.is)
  else if a.req.host ≠ [] then some (.wait a.req.host a.req.port a.selected.is)
  else none

def badRequestPage : List Char :=
  ("HTTP/1.1 400 Bad Request\r\nContent-Type: text/html; charset=utf-8\r\n" ++
    "Content-Length: 16\r\n\r\nBad Request!").toList

def errorPage : List Char := "HTTP/1.1 500 Error\r\n\r\n".toList

def helloPage : List Char :=
  ("HTTP/1.1 200 OK\r\nContent-Type: text/html; charset=utf-8\r\n" ++
    "Content-Length: 16\r\n\r\nHello,from http!").toList

/-- The end of a pass: `has_error_` is still set unless the request was relayed. -/
def errorTail (hasError : Bool) (ss : Memory) : Memory :=
  ss.asyncWriteAll (if hasError then badRequestPage else errorPage)

/-- A request without a host.  After a handler's answer the pass goes on to its tail. -/
def answerLocal (h : HttpHandler) (req : HttpRequest) (ss : Memory) : Memory :=
  match h.baseHandlers.find? fun p => p.1 = req.url.take req.urlParamStart with
  | some p => errorTail req.hasError (ss.asyncWriteAll (p.2 req.url))
  | none => ss.asyncWriteAll helloPage

/-- What is done with an accepted head. -/
def serve (h : HttpHandler) (o : HashOrder) (net : Dial → Peer) (fuel : Nat) (sk : Keeper)
    (a : Accepted) : Outcome Turn :=
  match callFor a with
  | some (.waitTunnel _ _ _) => .ret .ended
  | some (.wait host service is) => do
    let (sk, w) ← sk.wait net host service is
    let (w, ss, accepted) ← relay fuel o a.req a.ss w
    let ss := if accepted then ss else errorTail false ss
    return .next ⟨ss, a.selected, sk.put w⟩ (some w)
  | none => .ret (.next ⟨answerLocal h a.req a.ss, a.selected, sk⟩ none)

/-- One pass of `while (true)`. -/
def httpDoTurn (h : HttpHandler) (o : HashOrder) (make : HttpRequest) (net : Dial → Peer)
    (fuel : Nat) (s : Session) : Outcome Turn :=
  if !s.ss.reset.ok then .ret .ended
  else do
    let a ← acceptHead h s.selected s.ss.reset make
    if a.accepted then serve h o net fuel s.sk a
    else return .next ⟨errorTail a.req.hasError a.ss, a.selected, s.sk⟩ none

/-! ## The connection -/

/-- A pass with the peers that are dialled in it and the fuel of its loops. -/
structure Pass where
  net : Dial → Peer
  fuel : Nat

/-- The step of `http_do` that ends with the next pass. -/
def httpDoStep (h : HttpHandler) (o : HashOrder) (make : HttpRequest) (s : Session) (p : Pass) :
    Option Session :=
  match httpDoTurn h o make p.net p.fuel s with
  | .ret (.next s _) => some s
  | _ => none

/-- `http_do` before its first pass. -/
def Session.init (ss : Memory) (sk : Keeper) : Session := ⟨ss, .init, sk⟩

end Hcpp
