import Hcpp.Lib.Feed
import Mathlib.Tactic.Simps.Basic

/-!
# `memory`: the buffered sockets

`socket_memory` (socket_wrap.cpp) and `ssl_sock_mem` (ssl_socket_wrap.cpp) keep
what they read in blocks ordered by their offset in the stream.  `get_some`
looks up the block of `read_index_`, `remove_some` advances `read_index_` and
erases the blocks behind it, and both loads append a block at `write_index_`.
The two classes share all of this; they differ in `async_write_all`.

The peer is part of the state: `incoming` is what it will still send, one
segment a read, and then it closes; `room` is how many more bytes it will take
before its side breaks (`none`: it takes everything); `written` is what it took.
-/

namespace Hcpp

/-- How a coroutine ends: it returns, an exception leaves it, it is still looping
when the fuel is spent, or it did what C++ leaves undefined. -/
inductive Outcome (α : Type) where
  | ret (a : α)
  | throws
  | spins
  | undefined
deriving DecidableEq, Repr

namespace Outcome

variable {α β : Type}

def bind (x : Outcome α) (f : α → Outcome β) : Outcome β :=
  match x with
  | ret a => f a
  | throws => throws
  | spins => spins
  | undefined => undefined

instance : Monad Outcome where
  pure := ret
  bind := bind

@[simp] theorem pure_eq (a : α) : (pure a : Outcome α) = ret a := rfl
-- by rewriting, not `rfl`: the kernel is not to unfold the loops behind a bind
@[simp] theorem ret_bind (a : α) (f : α → Outcome β) : (ret a >>= f) = f a := by
  simp only [Bind.bind, Outcome.bind]

@[simp] theorem throws_bind (f : α → Outcome β) : ((throws : Outcome α) >>= f) = throws := by
  simp only [Bind.bind, Outcome.bind]

@[simp] theorem spins_bind (f : α → Outcome β) : ((spins : Outcome α) >>= f) = spins := by
  simp only [Bind.bind, Outcome.bind]

@[simp] theorem undefined_bind (f : α → Outcome β) :
    ((undefined : Outcome α) >>= f) = undefined := by
  simp only [Bind.bind, Outcome.bind]

/-- What returns neither loops for ever nor is undefined. -/
theorem ret_ends (a : α) : ret a ≠ spins ∧ ret a ≠ undefined := ⟨nofun, nofun⟩

theorem throws_ends : (throws : Outcome α) ≠ spins ∧ (throws : Outcome α) ≠ undefined :=
  ⟨nofun, nofun⟩

/-- What returned after a sequence returned from both parts. -/
theorem bind_eq_ret {x : Outcome α} {f : α → Outcome β} {b : β} :
    (x >>= f) = ret b ↔ ∃ a, x = ret a ∧ f a = ret b := by
  cases x <;> simp

/-- What a guard lets pass. -/
theorem guard_eq_ret {c : Prop} [Decidable c] {a b : α} :
    (if c then ret a else undefined) = ret b ↔ c ∧ a = b := by
  by_cases h : c
  · simp [h]
  · simp [h]

end Outcome

/-- `socket_memory` or `ssl_sock_mem` -/
inductive SockKind where
  | plain
  | ssl
deriving DecidableEq, Repr

structure MemBlock where
  begin_ : Nat
  data : List Char
deriving DecidableEq, Repr

structure Memory where
  kind : SockKind
  buffs : List MemBlock
  readIndex : Nat
  writeIndex : Nat
  readOk : Bool
  writeOk : Bool
  closed : Bool
  incoming : List (List Char)
  room : Option Nat
  written : List Char
deriving DecidableEq, Repr

/-- A `size_t` taken as an `int` and compared as a `size_t` again. -/
def narrow (n : Nat) : Nat :=
  if n % 2 ^ 32 < 2 ^ 31 then n % 2 ^ 32 else n % 2 ^ 32 + (2 ^ 64 - 2 ^ 32)

namespace MemBlock

def end_ (b : MemBlock) : Nat := b.begin_ + b.data.length

/-- `operator<(const mem_block &, int)` -/
def ltKey (fk : MemBlock) (lk : Nat) : Bool := !decide (fk.begin_ + fk.data.length > lk)

/-- `operator<(int, const mem_block &)` -/
def keyLt (lk : Nat) (fk : MemBlock) : Bool := decide (lk < fk.begin_)

/-- `set::emplace`: the element with this `begin_`, and the set. -/
def emplace (b : MemBlock) : List MemBlock → MemBlock × List MemBlock
  | [] => (b, [b])
  | c :: cs =>
    if b.begin_ < c.begin_ then (b, b :: c :: cs)
    else if c.begin_ < b.begin_ then ((emplace b cs).1, c :: (emplace b cs).2)
    else (c, c :: cs)

/-- `set::find` of the offset `key`: the first block that is not below it, if it
is not above it either. -/
def find (key : Nat) (bs : List MemBlock) : Option MemBlock :=
  match bs.dropWhile fun fk => fk.ltKey (narrow key) with
  | [] => none
  | fk :: _ => if keyLt (narrow key) fk then none else some fk

end MemBlock

namespace Memory

/-- A memory around a fresh socket. -/
def fresh (kind : SockKind) (incoming : List (List Char)) (room : Option Nat) : Memory where
  kind := kind
  buffs := []
  readIndex := 0
  writeIndex := 0
  readOk := true
  writeOk := true
  closed := false
  incoming := incoming
  room := room
  written := []

/-- Append a block at `write_index_`; the block found there is returned. -/
def store (m : Memory) (r : List Char) (incoming : List (List Char)) : Memory × List Char :=
  let b := MemBlock.emplace ⟨m.writeIndex, r⟩ m.buffs
  ({ m with writeIndex := m.writeIndex + r.length, buffs := b.2, incoming := incoming }, b.1.data)

/-- `std::string::max_size()` -/
def maxSize : Nat := 2 ^ 62 - 1

/-- `async_read_some` into a string of `maxN` bytes, and the block. -/
def readSome (m : Memory) (maxN : Nat) : Memory × List Char :=
  match Feed.pull maxN m.incoming with
  | none => ({ m with readOk := false }, [])
  | some (r, incoming) => m.store r incoming

/-- `r.resize(max_n)` throws a `length_error` where no string is that long. -/
def asyncLoadSome (m : Memory) (maxN : Nat) : Outcome (Memory × List Char) :=
  if maxN > maxSize then .throws else .ret (m.readSome maxN)

/-- `async_read_until` reads into a buffer of its own: what it read before the
peer closed is lost with it. -/
def asyncLoadUntil (m : Memory) (d : List Char) : Outcome (Memory × List Char) :=
  if d.length > 512 then .throws
  else
    match Feed.pullUntil d [] m.incoming with
    | none => .ret ({ m with readOk := false, incoming := [] }, [])
    | some (r, n, incoming) =>
      if n = 0 then .ret ({ m with readOk := false, incoming := incoming }, [])
      else
        let (m, data) := m.store r incoming
        .ret (m, data.take n)

/-- `async_write` of the whole of `s` to the peer. -/
def send (m : Memory) (s : List Char) : Memory :=
  match m.room with
  | none => { m with written := m.written ++ s }
  | some k =>
    if s.length ≤ k then { m with written := m.written ++ s, room := some (k - s.length) }
    else { m with written := m.written ++ s.take k, room := some 0, writeOk := false }

/-- On an SSL stream an empty write shuts the stream down; the peer answers it, so that
`shutdown` does not throw. -/
def asyncWriteAll (m : Memory) (s : List Char) : Memory :=
  match m.kind with
  | .plain => m.send s
  | .ssl => if s = [] then { m.send s with writeOk := false, room := some 0 } else m.send s

def getSome (m : Memory) : List Char :=
  match MemBlock.find m.readIndex m.buffs with
  | none => []
  | some i => i.data.drop (m.readIndex - i.begin_)

def removeSome (m : Memory) (n : Nat) : Memory :=
  { m with
    readIndex := m.readIndex + n
    buffs := m.buffs.dropWhile fun i => decide (i.begin_ + i.data.length ≤ m.readIndex + n) }

/-- One block for all of them; its offset is that of the first. -/
def mergeSome (m : Memory) : Memory :=
  match m.buffs with
  | b :: c :: cs => { m with buffs := [⟨b.begin_, (b :: c :: cs).flatMap MemBlock.data⟩] }
  | _ => m

def reset (m : Memory) : Memory := { m with readIndex := 0, writeIndex := 0, buffs := [] }

def ok (m : Memory) : Bool := m.readOk && m.writeOk

def close (m : Memory) : Memory := { m with closed := true }

def alive (m : Memory) : Bool := !m.closed

theorem asyncLoadSome_of_le {m : Memory} {maxN : Nat} (h : maxN ≤ maxSize) :
    m.asyncLoadSome maxN = .ret (m.readSome maxN) := if_neg (Nat.not_lt.mpr h)

theorem asyncLoadSome_of_gt {m : Memory} {maxN : Nat} (h : maxSize < maxN) :
    m.asyncLoadSome maxN = .throws := if_pos h

/-- The reads of 4096 bytes. -/
@[simp] theorem asyncLoadSome_page (m : Memory) :
    m.asyncLoadSome (1024 * 4) = .ret (m.readSome (1024 * 4)) :=
  asyncLoadSome_of_le (by decide)

end Memory

theorem ok_iff {m : Memory} : m.ok = true ↔ m.readOk = true ∧ m.writeOk = true := by
  unfold Memory.ok
  exact Bool.and_eq_true_iff

end Hcpp
