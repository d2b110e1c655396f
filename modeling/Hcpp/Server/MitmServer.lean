import Hcpp.Lib.Runs
import Hcpp.Server.HttpDo

/-!
# The MITM server

A CONNECT whose rule says `mitm_` is not tunnelled: `channel_tunnel::make_tunnel`
(mitm_svc.cpp) answers it, takes the socket out of the client's memory and sends
it through a channel to `mimt_https_server::wait_c` (httpserver.cpp), which starts
an `https_client` session for it.  The session connects to the server, gets or
makes a certificate for the host, shakes hands with the client and goes on to
`http_do`.

The tunnels run on the threads of the proxy, the listener takes one socket after
the other, and the sessions run interleaved on one thread of their own, which
owns `server_subject_map`.  A state of `MitmServer` keeps where each connection
is, and an action is one of them going on to its next suspension.

The keys, the signatures and the handshakes are OpenSSL's: `Tls` gives what the
code asks of them, and an action carries what a handshake came to.
-/

namespace Hcpp

/-- ssl_socket_wrap.h -/
structure SubjectIdentify where
  pkeyPem : List Char
  certPem : List Char
deriving DecidableEq, Repr

/-- An entry of a certificate's `subjectAltName`. -/
inductive GeneralName where
  | dns (name : List Char)
  | other
deriving DecidableEq, Repr

/-- A certificate of a chain as the verify callback sees it: what OpenSSL has found out
so far, the alternative names (`none`: no such extension), its key and the rest of it. -/
structure ChainCert where
  preverified : Bool
  altNames : Option (List GeneralName)
  pubkeyPem : List Char
  der : List Char
deriving DecidableEq, Repr

/-- `hostNameVerification host cert` is `ssl::host_name_verification(host)`, asked with the
`preverified` of the certificate; `makeFakeServerId r names ca` makes a certificate with
these `subjectAltName`s, signed by `ca`, with `r` for what is drawn at random. -/
structure Tls where
  Random : Type
  hostNameVerification : List Char → ChainCert → Bool
  makeFakeServerId : Random → List (List Char) → SubjectIdentify → SubjectIdentify

structure PartCertInfo where
  dnsName : List (List Char)
  pubkey : List Char
deriving DecidableEq, Repr

namespace Mitm

/-- `pci.dns_name_.push_back(dns_name)`: a `std::string` of a C string. -/
def addName (names : List (List Char)) : GeneralName → List (List Char)
  | .dns name => names ++ [cString name]
  | .other => names

/-- The callback of `add_SAN_collector`. -/
def sanCollector (pci : PartCertInfo) (cert : ChainCert) : PartCertInfo × Bool :=
  if cert.preverified then
    match cert.altNames with
    | some names => (⟨names.foldl addName pci.dnsName, cert.pubkeyPem⟩, true)
    | none => (pci, true)
  else (pci, false)

/-- `verify_fun` of `make_memory`; `verify_fun_` is only set where the names are wanted. -/
def verifyFun (tls : Tls) (host : List Char) (collects : Bool) (pci : PartCertInfo)
    (cert : ChainCert) : PartCertInfo × Bool :=
  if tls.hostNameVerification host cert then
    if collects then sanCollector pci cert else (pci, true)
  else (pci, false)

/-- The handshake calls back for one certificate after the other, and fails with the first
that is refused. -/
def verifyChain (tls : Tls) (host : List Char) (collects : Bool) :
    PartCertInfo → List ChainCert → PartCertInfo × Bool
  | pci, [] => (pci, true)
  | pci, cert :: chain =>
    match verifyFun tls host collects pci cert with
    | (pci, true) => verifyChain tls host collects pci chain
    | (pci, false) => (pci, false)

/-- What `make_memory` sets up before its handshake: whom it connects to, and the server
name it sends, if it sends one. -/
structure Target where
  dial : Dial
  sni : Option (List Char)
deriving DecidableEq, Repr

/-- `close_sni` goes before `set_sni_host`; without either no name is set at all. -/
def sniOf (is : InterceptSet) : Option (List Char) :=
  if is.closeSni then none
  else if is.sniHost ≠ [] then some (cString is.sniHost)
  else none

/-- What comes of a connection to the server: `make_socket` throws or has no socket, or the
server is there, shows a chain and goes on with the handshake or breaks it off; then this is
what it will send. -/
inductive Answer where
  | throws
  | refused
  | accepts (chain : List ChainCert) (completes : Bool) (incoming : List (List Char))
      (room : Option Nat)
deriving DecidableEq, Repr

/-- `mitm_svc::make_memory`: the names it collected and `m_`. -/
def makeMemory (tls : Tls) (host : List Char) (collects : Bool) :
    Answer → Outcome (PartCertInfo × Memory)
  | .throws => .throws
  | .refused => .throws
  | .accepts chain completes incoming room =>
    match verifyChain tls host collects ⟨[], []⟩ chain with
    | (pci, true) => if completes then .ret (pci, .fresh .ssl incoming room) else .throws
    | (_, false) => .throws

/-- A `tcp_socket` that is moved from one owner to the next. -/
structure TcpSocket where
  incoming : List (List Char)
  room : Option Nat
deriving DecidableEq, Repr

/-- `memory::check`: a plain memory gives its socket away and keeps what it has loaded; for
an SSL stream nothing is implemented. -/
def check (m : Memory) : Option TcpSocket :=
  match m.kind with
  | .plain => some ⟨m.incoming, m.room⟩
  | .ssl => none

/-- mitm_svc.h -/
structure ChannelClient where
  host : List Char
  service : List Char
  sock : Option TcpSocket
  is : Option InterceptSet
deriving DecidableEq, Repr

/-- `auto is = cc->is_; if (!is) is = std::make_shared<InterceptSet>();` -/
def ChannelClient.rule (cc : ChannelClient) : InterceptSet := cc.is.getD .empty

/-- Where a connection is, from its CONNECT on. -/
inductive Stage where
  /-- `make_tunnel` writes the 200 head to `m` -/
  | replying (m : Memory) (host service : List Char) (is : InterceptSet)
  /-- in the channel, or in `async_send` behind it -/
  | sent
  /-- the `https_client` of the listener, on its way to `init_` -/
  | accepted (cc : ChannelClient)
  /-- `make_memory` for a host of `server_subject_map`; the iterator is as old as `age` -/
  | known (cc : ChannelClient) (up : Target) (age : Nat)
  /-- `make_memory` for a host that is not in the map -/
  | collecting (cc : ChannelClient) (up : Target)
  /-- `channel_client::make`: the handshake with the client -/
  | offering (cc : ChannelClient) (up : Target) (m : Memory) (si : SubjectIdentify)
  /-- `http_do` behind `init` -/
  | serving (cc : ChannelClient) (up : Target) (m : Memory) (si : SubjectIdentify) (ss : Memory)
  /-- an exception left the session, or there was no socket -/
  | over
  /-- an iterator was used after the map had grown -/
  | undefined
deriving DecidableEq, Repr

/-- The client a session is for. -/
def Stage.client : Stage → Option ChannelClient
  | .accepted cc => some cc
  | .known cc _ _ => some cc
  | .collecting cc _ => some cc
  | .offering cc _ _ _ => some cc
  | .serving cc _ _ _ _ => some cc
  | _ => none

end Mitm

open Mitm

/-- The proxy's side of the channel, the channel, and the MITM server.  The first ten of
`channel` are in its buffer, those behind them wait in `async_send`. -/
structure MitmServer (C : Type) where
  stage : C → Option Stage
  channel : List (C × ChannelClient)
  subjectMap : List Char → Option SubjectIdentify
  /-- how often `server_subject_map` has been rehashed -/
  age : Nat

namespace MitmServer

inductive Act (tls : Tls) (C : Type) where
  /-- `http_do` of a client has accepted a head and asks its `hack_sk` for a tunnel -/
  | connect (c : C) (a : Accepted)
  /-- the 200 head is written; `check` and `async_send` -/
  | reply (c : C)
  /-- `c->async_receive()` in `wait_c` -/
  | receive
  /-- `init_` up to `make_memory` -/
  | init (c : C)
  /-- `make_memory` ends, and the identity is there; the insert may rehash the map -/
  | upstream (c : C) (answer : Mitm.Answer) (r : tls.Random) (rehashes : Bool)
  /-- the handshake with the client fails, or the client will send this -/
  | handshake (c : C) (client : Option (List (List Char) × Option Nat))

variable {C : Type} [DecidableEq C] {tls : Tls}

def init : MitmServer C where
  stage := fun _ => none
  channel := []
  subjectMap := fun _ => none
  age := 0

def setStage (s : MitmServer C) (c : C) (st : Stage) : MitmServer C :=
  { s with stage := Function.update s.stage c (some st) }

/-- `hack_sk::wait_tunnel` makes a `channel_tunnel`. -/
def toChannel (a : Accepted) : Option (List Char × List Char × InterceptSet) :=
  match callFor a with
  | some (.waitTunnel host service (some is)) =>
    if a.accepted ∧ is.mitm then some (host, service, is) else none
  | _ => none

/-- `server_subject_map.insert`: an entry that is there stays. -/
def insertSubject (s : MitmServer C) (host : List Char) (si : SubjectIdentify) (rehashes : Bool) :
    MitmServer C :=
  match s.subjectMap host with
  | some _ => s
  | none =>
    { s with
      subjectMap := Function.update s.subjectMap host (some si)
      age := if rehashes then s.age + 1 else s.age }

/-- `none`: the action cannot be taken here. -/
def step (ca : SubjectIdentify) (s : MitmServer C) : Act tls C → Option (MitmServer C)
  | .connect c a =>
    match s.stage c, toChannel a with
    | none, some (host, service, is) => some (s.setStage c (.replying a.ss host service is))
    | _, _ => none
  | .reply c =>
    match s.stage c with
    | some (.replying m host service is) =>
      let m := m.asyncWriteAll "HTTP/1.1 200 OK\r\n\r\n".toList
      some { s.setStage c .sent with
        channel := s.channel ++ [(c, ⟨host, service, check m, some is⟩)] }
    | _ => none
  | .receive =>
    match s.channel with
    | (c, cc) :: rest =>
      some { s.setStage c (if cc.sock.isSome then .accepted cc else .over) with channel := rest }
    | [] => none
  | .init c =>
    match s.stage c with
    | some (.accepted cc) =>
      let up : Target := ⟨⟨cc.host, cc.service, cc.rule.doh⟩, sniOf cc.rule⟩
      match s.subjectMap cc.host with
      | some _ => some (s.setStage c (.known cc up s.age))
      | none => some (s.setStage c (.collecting cc up))
    | _ => none
  | .upstream c answer r rehashes =>
    match s.stage c with
    | some (.known cc up age) =>
      match makeMemory tls cc.host false answer with
      | .ret (_, m) =>
        -- `i->second`, behind the suspension
        if age = s.age then
          some (s.setStage c (.offering cc up m ((s.subjectMap cc.host).getD ⟨[], []⟩)))
        else some (s.setStage c .undefined)
      | _ => some (s.setStage c .over)
    | some (.collecting cc up) =>
      match makeMemory tls cc.host true answer with
      | .ret (pci, m) =>
        let si := tls.makeFakeServerId r pci.dnsName ca
        some ((s.insertSubject cc.host si rehashes).setStage c (.offering cc up m si))
      | _ => some (s.setStage c .over)
    | _ => none
  | .handshake c client =>
    match s.stage c with
    | some (.offering cc up m si) =>
      match client with
      | some (incoming, room) =>
        some (s.setStage c (.serving cc up m si (.fresh .ssl incoming room)))
      | none => some (s.setStage c .over)
    | _ => none

end MitmServer

end Hcpp
