import Hcpp.Mem.Kmp

/-!
# `transfer_mem` and `transfer_mem_until`

The two loops of hmemory.h that move bytes from one memory to another: a given
number of them, and up to a pattern.  Both start with the cached bytes and go
on with reads.  A loop takes fuel, one unit an iteration.
-/

namespace Hcpp

/-- The conversion of an integer to `size_t`. -/
def toSizeT (x : Int) : Nat := (x % 2 ^ 64).toNat

def crlf : List Char := ['\r', '\n']

def crlfcrlf : List Char := ['\r', '\n', '\r', '\n']

/-- `while (nx < total_bytes)` -/
def transferMemLoop (totalBytes : Nat) :
    Nat → Memory → Memory → Nat → Outcome (Memory × Memory × Nat)
  | 0, _, _, _ => .spins
  | fuel + 1, from_, to_, nx =>
    if nx < totalBytes then do
      let (from_, str) ← from_.asyncLoadSome (totalBytes - nx)
      let to_ := to_.asyncWriteAll str
      transferMemLoop totalBytes fuel (from_.removeSome str.length) to_ (nx + str.length)
    else .ret (from_, to_, nx)

def transferMem (fuel : Nat) (from_ to_ : Memory) (totalBytes : Nat) :
    Outcome (Memory × Memory × Nat) :=
  let from_ := from_.mergeSome
  let somStr := from_.getSome
  if 0 < totalBytes ∧ 0 < somStr.length then
    let somStr := if somStr.length > totalBytes then somStr.take totalBytes else somStr
    transferMemLoop totalBytes fuel (from_.removeSome somStr.length) (to_.asyncWriteAll somStr)
      somStr.length
  else transferMemLoop totalBytes fuel from_ to_ 0

/-- `while (true)`: the cached bytes end inside a match, so read on. -/
def transferMemUntilLoop (pattern : List Char) :
    Nat → Memory → Memory → Kmp → List Char → Nat → Nat → Outcome (Memory × Memory × Nat)
  | 0, _, _, _, _, _, _ => .spins
  | fuel + 1, from_, to_, kmp, somStr, checkedLen, n => do
    let checkedLen := checkedLen + somStr.length
    let to_ := to_.asyncWriteAll somStr
    let n := n + somStr.length
    let (from_, somStr) ← (from_.removeSome somStr.length).asyncLoadSome (1024 * 4)
    let (kmp, p) ← kmp.search somStr
    if toSizeT (somStr.length - (p - checkedLen)) < pattern.length then
      transferMemUntilLoop pattern fuel from_ to_ kmp somStr checkedLen n
    else
      let somStr := somStr.take (toSizeT (p - checkedLen + pattern.length))
      .ret (from_.removeSome somStr.length, to_.asyncWriteAll somStr, n + somStr.length)

def transferMemUntil (fuel : Nat) (from_ to_ : Memory) (pattern : List Char) :
    Outcome (Memory × Memory × Nat) := do
  let from_ := from_.mergeSome
  let somStr := from_.getSome
  let kmp ← Kmp.make pattern
  let (kmp, p) ← kmp.search somStr
  if p < 0 then
    -- nothing of the pattern is cached: the rest comes from one load
    let to_ := to_.asyncWriteAll somStr
    let (from_, line) ← (from_.removeSome somStr.length).asyncLoadUntil pattern
    .ret (from_.removeSome line.length, to_.asyncWriteAll line, somStr.length + line.length)
  else if toSizeT (somStr.length - p) < pattern.length then
    transferMemUntilLoop pattern fuel from_ to_ kmp somStr 0 0
  else
    -- the pattern is cached: write the cache
    .ret (from_.removeSome somStr.length, to_.asyncWriteAll somStr, somStr.length)

end Hcpp
