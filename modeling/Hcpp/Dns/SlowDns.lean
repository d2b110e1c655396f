import Hcpp.Lib.Runs
import Mathlib.Logic.Function.Basic
import Mathlib.Tactic.Simps.Basic

/-!
# `slow_dns`: the resolver's cache and its running resolutions

`slow_dns_imp::resolve` (dns.cpp) looks in `edp_cache_`, and on a miss spawns
`async_resolve` with a fresh channel and waits for the channel or a timer.
`async_resolve` registers the channel in `resolve_running_`; the first one to
register a key resolves it, puts the answer into `edp_cache_` and sends it to
every channel registered by then.

Each critical section (under `smutex_` or `rmutex_`) is one action of `step`;
a run is any interleaving of the actions of any number of calls.  `K` are the
keys (`host_edp`), `L` the endpoint lists, `C` names the calls: a call makes
one channel, so `C` names the channels as well.
-/

namespace Hcpp.Dns

/-- The branch of `async_resolve` that produced a list: `hcpp::resolve` over the
providers, or `tcp_resolver`.  The code does not keep it; it is a ghost. -/
inductive Source where
  | doh
  | system
deriving DecidableEq, Repr

/-- An endpoint list with the branch it came from. -/
structure Answer (L : Type) where
  source : Source
  edps : L
deriving DecidableEq, Repr

/-- The caller's side: `cc->async_receive() || t.async_wait()`. -/
inductive Waiter (L : Type) where
  | receiving
  | returned (a : Answer L)
  | timedOut
deriving DecidableEq, Repr

/-- The spawned `async_resolve`. -/
inductive Task (L : Type) where
  | notSpawned
  | spawned
  | joined
  | resolving
  | resolved (a : Answer L)
  | inserted (a : Answer L)
  | finished
  | failed
deriving DecidableEq, Repr

structure Call (K L : Type) where
  hedp : K
  doh : Bool
  waiter : Waiter L
  task : Task L
deriving DecidableEq, Repr

/-- A channel with room for one message; `sent` keeps every message it took. -/
structure Channel (L : Type) where
  buff : List (Answer L)
  sent : List (Answer L)
deriving DecidableEq, Repr

structure SlowDns (K L C : Type) where
  edpCache : K → Option (Answer L)
  resolveRunning : K → Option (List C)
  calls : C → Option (Call K L)
  chan : C → Channel L

inductive Act (K L C : Type) where
  /-- `resolve` is entered and looks in `edp_cache_` -/
  | call (c : C) (hedp : K) (doh : Bool)
  /-- `async_resolve` looks in `resolve_running_` -/
  | register (c : C)
  /-- the resolver of the call's branch returns `el` -/
  | resolveOk (c : C) (el : L)
  /-- it throws: the `catch` block -/
  | resolveFail (c : C)
  /-- `edp_cache_.insert` -/
  | insert (c : C)
  /-- the channels of the key get the list -/
  | notify (c : C)
  | receive (c : C)
  | timeout (c : C)
  /-- `slow_dns::remove_svc` -/
  | removeSvc (hedp : K)
deriving DecidableEq, Repr

/-- `try_send`: refused, without an error, when the one place is taken. -/
def Channel.trySend {L : Type} (a : Answer L) (ch : Channel L) : Channel L :=
  if ch.buff.length < 1 then { buff := ch.buff ++ [a], sent := ch.sent ++ [a] } else ch

def Channel.empty {L : Type} : Channel L := { buff := [], sent := [] }

namespace SlowDns

variable {K L C : Type} [DecidableEq K] [DecidableEq C]

/-- No call yet; the cache may have been filled by `load_hm`. -/
def init (cache : K → Option (Answer L)) : SlowDns K L C where
  edpCache := cache
  resolveRunning := fun _ => none
  calls := fun _ => none
  chan := fun _ => .empty

@[simps -fullyApplied] def setCall (s : SlowDns K L C) (c : C) (call : Call K L) : SlowDns K L C :=
  { s with calls := Function.update s.calls c (some call) }

@[simps -fullyApplied] def setRunning (s : SlowDns K L C) (hedp : K) (l : Option (List C)) :
    SlowDns K L C :=
  { s with resolveRunning := Function.update s.resolveRunning hedp l }

@[simps -fullyApplied] def setCache (s : SlowDns K L C) (hedp : K) (a : Option (Answer L)) :
    SlowDns K L C :=
  { s with edpCache := Function.update s.edpCache hedp a }

@[simps -fullyApplied] def setChan (s : SlowDns K L C) (c : C) (ch : Channel L) : SlowDns K L C :=
  { s with chan := Function.update s.chan c ch }

/-- `ranges::for_each(channel_list->second, sd)` -/
def sendAll (s : SlowDns K L C) (a : Answer L) (l : List C) : SlowDns K L C :=
  l.foldl (fun s c => s.setChan c ((s.chan c).trySend a)) s

def dohSource (doh : Bool) : Source := if doh then .doh else .system

/-- `none`: the action cannot be taken here.  `notify` without an entry in
`resolve_running_` would dereference `end()`; it has no successor either. -/
def step (s : SlowDns K L C) : Act K L C → Option (SlowDns K L C)
  | .call c hedp doh =>
    match s.calls c with
    | some _ => none
    | none =>
      match s.edpCache hedp with
      | some a => some (s.setCall c ⟨hedp, doh, .returned a, .notSpawned⟩)
      | none => some (s.setCall c ⟨hedp, doh, .receiving, .spawned⟩)
  | .register c =>
    match s.calls c with
    | some ⟨hedp, doh, w, .spawned⟩ =>
      match s.resolveRunning hedp with
      | some l => some ((s.setRunning hedp (some (l ++ [c]))).setCall c ⟨hedp, doh, w, .joined⟩)
      | none => some ((s.setRunning hedp (some [c])).setCall c ⟨hedp, doh, w, .resolving⟩)
    | _ => none
  | .resolveOk c el =>
    match s.calls c with
    | some ⟨hedp, doh, w, .resolving⟩ =>
      some (s.setCall c ⟨hedp, doh, w, .resolved ⟨dohSource doh, el⟩⟩)
    | _ => none
  | .resolveFail c =>
    match s.calls c with
    | some ⟨hedp, doh, w, .resolving⟩ =>
      some ((s.setRunning hedp none).setCall c ⟨hedp, doh, w, .failed⟩)
    | _ => none
  | .insert c =>
    match s.calls c with
    | some ⟨hedp, doh, w, .resolved a⟩ =>
      match s.edpCache hedp with
      | some a' => some (s.setCall c ⟨hedp, doh, w, .inserted a'⟩)
      | none => some ((s.setCache hedp (some a)).setCall c ⟨hedp, doh, w, .inserted a⟩)
    | _ => none
  | .notify c =>
    match s.calls c with
    | some ⟨hedp, doh, w, .inserted a⟩ =>
      match s.resolveRunning hedp with
      | some l =>
        some (((s.sendAll a l).setRunning hedp none).setCall c ⟨hedp, doh, w, .finished⟩)
      | none => none
    | _ => none
  | .receive c =>
    match s.calls c, (s.chan c).buff with
    | some ⟨hedp, doh, .receiving, t⟩, a :: rest =>
      some ((s.setChan c { s.chan c with buff := rest }).setCall c ⟨hedp, doh, .returned a, t⟩)
    | _, _ => none
  | .timeout c =>
    match s.calls c with
    | some ⟨hedp, doh, .receiving, t⟩ => some (s.setCall c ⟨hedp, doh, .timedOut, t⟩)
    | _ => none
  | .removeSvc hedp => some (s.setCache hedp none)

end SlowDns

end Hcpp.Dns
