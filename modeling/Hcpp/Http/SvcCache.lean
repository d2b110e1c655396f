import Hcpp.Lib.Runs
import Mathlib.Logic.Function.Basic
import Mathlib.Tactic.Simps.Basic

/-!
# `svc_cache`: one memory for many requesters

`svc_cache` (http_svc_keeper.cpp) keeps a memory for a `host:service` and a queue
of the requesters that want it; the front of the queue is the one that has it.
The state is that of one `host:service`, and every critical section (under
`shm_c_` or `shm_rq_`) is one action of `step`, so that a run is any interleaving
of the actions of any number of requesters.

`C` names the requesters, each with the channel it waits on, and `M` the
memories that `mem_factory_` makes.  The lookup, the check of what it found and
the `erase` are one action: the code uses the iterator outside the lock.
-/

namespace Hcpp

/-- The flags of a memory that `return_back` looks at. -/
structure PoolMem where
  ok : Bool
  alive : Bool
deriving DecidableEq, Repr

/-- A call of `get_endpoint`, from its start until its requester gives the memory back. -/
inductive Requester (C M : Type) where
  /-- `co_await mem_factory_->create(host, service)` -/
  | creating
  /-- it has a memory and is on its way to the queue -/
  | found (m : M)
  /-- it made the queue and is on its way to `c->async_send` -/
  | first (m : M)
  /-- it was pushed on the queue -/
  | waiting
  | holds (m : M)
  /-- nothing was made, `c` is closed: `return_back` of a `failed_mem` -/
  | refused
  /-- in the `else` branch of `return_back`, with the queue it took -/
  | tearing (q : List C)
  | over
deriving DecidableEq, Repr

structure SvcCache (C M : Type) where
  cache : Option M
  requestQueue : Option (List C)
  requesters : C → Option (Requester C M)
  closed : C → Bool
  mems : M → Option PoolMem

inductive PoolAct (C M : Type) where
  /-- `get_endpoint` is called and looks in `cache_` -/
  | getEndpoint (c : C)
  | created (c : C) (m : M)
  | createFailed (c : C)
  /-- the section of `get_endpoint` under `shm_rq_` -/
  | enqueue (c : C)
  | send (c : C)
  /-- the section of `return_back` under `shm_rq_` -/
  | returnBack (c : C)
  /-- `remove_endpoint`, and the channels of the queue are closed -/
  | tearDown (c : C)
  /-- a memory stops being ok, or alive -/
  | spoil (m : M) (flags : PoolMem)
deriving DecidableEq, Repr

namespace SvcCache

variable {C M : Type} [DecidableEq C] [DecidableEq M]

def init : SvcCache C M where
  cache := none
  requestQueue := none
  requesters := fun _ => none
  closed := fun _ => false
  mems := fun _ => none

@[simps -fullyApplied] def setCache (s : SvcCache C M) (m : Option M) : SvcCache C M :=
  { s with cache := m }

@[simps -fullyApplied] def setQueue (s : SvcCache C M) (q : Option (List C)) : SvcCache C M :=
  { s with requestQueue := q }

@[simps -fullyApplied] def setReq (s : SvcCache C M) (c : C) (r : Requester C M) : SvcCache C M :=
  { s with requesters := Function.update s.requesters c (some r) }

@[simps -fullyApplied] def setMem (s : SvcCache C M) (m : M) (f : PoolMem) : SvcCache C M :=
  { s with mems := Function.update s.mems m (some f) }

/-- `close` on the channels; a requester that waits on one gets an error. -/
@[simps -fullyApplied] def closeAll (s : SvcCache C M) (q : List C) : SvcCache C M :=
  { s with
    closed := fun c => decide (c ∈ q) || s.closed c
    requesters := fun c => if c ∈ q ∧ s.requesters c = some .waiting then some .over
      else s.requesters c }

/-- `m->ok()` -/
def ok (s : SvcCache C M) (m : M) : Bool := (s.mems m).any PoolMem.ok

/-- `m->ok() && m->alive()` -/
def good (s : SvcCache C M) (m : M) : Bool := (s.mems m).any fun f => f.ok && f.alive

/-- The value reaches the requester, if it still waits for one. -/
def deliver (s : SvcCache C M) (c : C) (m : M) : SvcCache C M :=
  if s.requesters c = some .waiting then s.setReq c (.holds m) else s

/-- `while (!q.empty())`: the first whose channel takes the memory. -/
def handOn (s : SvcCache C M) (m : M) : List C → SvcCache C M
  | [] => s.setQueue none
  | c :: q => if s.closed c then handOn s m q else (s.setQueue (some (c :: q))).deliver c m

/-- `none`: the action cannot be taken here; `returnBack` of a good memory has no
successor either where one of its asserts fails. -/
def step (s : SvcCache C M) : PoolAct C M → Option (SvcCache C M)
  | .getEndpoint c =>
    match s.requesters c with
    | some _ => none
    | none =>
      match s.cache with
      | some m =>
        if s.ok m then some (s.setReq c (.found m))
        else some ((s.setCache none).setReq c .creating)
      | none => some (s.setReq c .creating)
  | .created c m =>
    match s.requesters c, s.mems m with
    | some .creating, none =>
      some (((s.setMem m ⟨true, true⟩).setCache (s.cache.or (some m))).setReq c (.found m))
    | _, _ => none
  | .createFailed c =>
    match s.requesters c with
    | some .creating => some ((s.closeAll [c]).setReq c .refused)
    | _ => none
  | .enqueue c =>
    match s.requesters c with
    | some (.found m) =>
      match s.requestQueue with
      | some q => some ((s.setQueue (some (q ++ [c]))).setReq c .waiting)
      | none => some ((s.setQueue (some [c])).setReq c (.first m))
    | _ => none
  | .send c =>
    match s.requesters c with
    | some (.first m) => some (s.setReq c (if s.closed c then .over else .holds m))
    | _ => none
  | .returnBack c =>
    match s.requesters c with
    | some (.holds m) =>
      if s.good m then
        match s.requestQueue with
        | some (_ :: q) => some ((s.setReq c .over).handOn m q)
        | _ => none
      else some ((s.setQueue none).setReq c (.tearing (s.requestQueue.getD [])))
    | some .refused => some ((s.setQueue none).setReq c (.tearing (s.requestQueue.getD [])))
    | _ => none
  | .tearDown c =>
    match s.requesters c with
    | some (.tearing q) => some (((s.setCache none).setReq c .over).closeAll q)
    | _ => none
  | .spoil m flags =>
    match s.mems m with
    | some f => some (s.setMem m ⟨f.ok && flags.ok, f.alive && flags.alive⟩)
    | none => none

end SvcCache

end Hcpp
