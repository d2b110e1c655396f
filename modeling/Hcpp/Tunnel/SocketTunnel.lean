import Hcpp.Lib.Runs
import Hcpp.Mem.BlockBuffer

/-!
# `socket_tunnel`: the relay of a CONNECT connection

tunnel.cpp: `make_tunnel` connects to the server, spawns `bind_read` and
`bind_write` and writes the 200 head itself.  `bind_read` loops over
`socket_tunnel::read` (server to client) and `bind_write` over
`socket_tunnel::write` (client to server) while both sides are ok.

The three run interleaved: a state of `Tunnel` keeps where each of them is, and
an `Act` is one of them going on to its next suspension, or one write operation
taking some more of its bytes.  The client memory is the one the head parsers
used; the server side is a `simple_tunnel_mem`, which keeps no blocks.
-/

namespace Hcpp

/-- `simple_tunnel_mem` -/
structure TunnelMem where
  buffSize : Nat
  readOk : Bool
  writeOk : Bool
  incoming : List (List Char)
  written : List Char
deriving DecidableEq, Repr

namespace TunnelMem

def make (incoming : List (List Char)) : TunnelMem where
  buffSize := 1024 * 4 * 4
  readOk := true
  writeOk := true
  incoming := incoming
  written := []

def asyncLoadSome (s : TunnelMem) (maxN : Nat) : TunnelMem × List Char :=
  match Feed.pull (min s.buffSize maxN) s.incoming with
  | none => ({ s with readOk := false }, [])
  | some (r, incoming) => ({ s with incoming := incoming }, r)

def ok (s : TunnelMem) : Bool := s.readOk && s.writeOk

end TunnelMem

/-- Where `bind_read` or `bind_write` is: at the test of its loop, waiting for a
load, writing `data` of which `rest` is not written yet, or behind its loop. -/
inductive Phase where
  | top
  | loading
  | writing (data rest : List Char)
  | done
deriving DecidableEq, Repr

/-- Who wrote a byte to the client. -/
inductive Sender where
  | head
  | server
deriving DecidableEq, Repr

structure Tunnel where
  c : Memory
  s : TunnelMem
  bindRead : Phase
  bindWrite : Phase
  /-- what `make_tunnel` still has to write of the 200 head -/
  head : List Char
  toClient : List (Sender × Char)
deriving DecidableEq, Repr

inductive Act where
  /-- the tests of the two loops -/
  | readTop
  | writeTop
  /-- the two loads complete, or fail -/
  | readLoad
  | writeLoad
  | readError
  | writeError
  /-- `k + 1` more bytes are written, or the write fails -/
  | toClient (k : Nat)
  | toServer (k : Nat)
  | headToClient (k : Nat)
  | toClientFails
  | toServerFails
  | headFails
  /-- a write is complete -/
  | readDone
  | writeDone
deriving DecidableEq, Repr

namespace Tunnel

def tunnelHead : List Char := "HTTP/1.1 200 OK\r\n\r\n".toList

/-- After `make_tunnel` has connected and spawned the two loops. -/
def start (c : Memory) (s : TunnelMem) : Tunnel where
  c := c
  s := s
  bindRead := .top
  bindWrite := .top
  head := tunnelHead
  toClient := []

def ok (t : Tunnel) : Bool := t.c.ok && t.s.ok

/-- An empty write to the client shuts an SSL stream down. -/
def shutClient (c : Memory) (data : List Char) : Memory :=
  match c.kind with
  | .plain => c
  | .ssl => if data = [] then { c with writeOk := false } else c

/-- `none`: the action cannot be taken here. -/
def step (t : Tunnel) : Act → Option Tunnel
  | .readTop =>
    match t.bindRead with
    | .top => some { t with bindRead := if t.ok then .loading else .done }
    | _ => none
  | .writeTop =>
    match t.bindWrite with
    | .top => some { t with bindWrite := if t.ok then .loading else .done }
    | _ => none
  | .readLoad =>
    match t.bindRead with
    | .loading =>
      let (s, data) := t.s.asyncLoadSome (1024 * 4)
      some { t with s := s, bindRead := .writing data data }
    | _ => none
  | .writeLoad =>
    match t.bindWrite with
    | .loading =>
      -- 4096 bytes are never refused
      let (c, data) := t.c.readSome (1024 * 4)
      some { t with c := c, bindWrite := .writing data data }
    | _ => none
  | .readError =>
    match t.bindRead with
    | .loading => some { t with s := { t.s with readOk := false }, bindRead := .writing [] [] }
    | _ => none
  | .writeError =>
    match t.bindWrite with
    | .loading => some { t with c := { t.c with readOk := false }, bindWrite := .writing [] [] }
    | _ => none
  | .toClient k =>
    match t.bindRead with
    | .writing data rest =>
      if k < rest.length then
        some { t with
          bindRead := .writing data (rest.drop (k + 1))
          toClient := t.toClient ++ (rest.take (k + 1)).map fun c => (.server, c) }
      else none
    | _ => none
  | .toServer k =>
    match t.bindWrite with
    | .writing data rest =>
      if k < rest.length then
        some { t with
          bindWrite := .writing data (rest.drop (k + 1))
          s := { t.s with written := t.s.written ++ rest.take (k + 1) } }
      else none
    | _ => none
  | .headToClient k =>
    if k < t.head.length then
      some { t with
        head := t.head.drop (k + 1)
        toClient := t.toClient ++ (t.head.take (k + 1)).map fun c => (.head, c) }
    else none
  | .toClientFails =>
    match t.bindRead with
    | .writing data _ =>
        some { t with c := { t.c with writeOk := false }, bindRead := .writing data [] }
    | _ => none
  | .toServerFails =>
    match t.bindWrite with
    | .writing data _ =>
        some { t with s := { t.s with writeOk := false }, bindWrite := .writing data [] }
    | _ => none
  | .headFails => some { t with c := { t.c with writeOk := false }, head := [] }
  | .readDone =>
    match t.bindRead with
    | .writing data [] => some { t with c := shutClient t.c data, bindRead := .top }
    | _ => none
  | .writeDone =>
    match t.bindWrite with
    | .writing data [] => some { t with c := t.c.removeSome data.length, bindWrite := .top }
    | _ => none

/-- What a loop has read and not written yet. -/
def inFlight : Phase → List Char
  | .writing _ rest => rest
  | _ => []

/-- The server's bytes among those written to the client. -/
def fromServer (t : Tunnel) : List Char :=
  (t.toClient.filter fun x => x.1 = .server).map Prod.snd

end Tunnel

end Hcpp
