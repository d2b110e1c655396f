import Hcpp.Lib.Border
import Hcpp.Mem.Memory

/-!
# `untrust::KMP`: the streaming search

`search` (kmp.h) is fed one chunk of text after another and keeps `j`, the
state of the automaton, `matchIndex`, the index in its own chunk of the last
letter matched with `j == 0`, and `match_len_`, the length of the chunks before.
It returns the offset of the match, or `matchIndex + match_len_` after a miss;
`matchIndex` is not cleared between chunks.

`search_hit` and `search_miss` say what a call does, from what `Fed` says of the
object before it: a hit is the first occurrence in all the text so far, and
after a miss `j` is the overlap of that text with the pattern.
-/

namespace Hcpp

/-- The conversion of an integer to `int`. -/
def toInt32 (x : Int) : Int := Int.bmod x (2 ^ 32)

theorem toInt32_of_small {x : Int} (h0 : -2 ^ 31 ≤ x) (h : x < 2 ^ 31) : toInt32 x = x := by
  unfold toInt32
  rw [Int.bmod_def]
  omega

structure Kmp where
  lps : List Nat
  pattern : List Char
  j : Nat
  matchIndex : Int
  matchLen : Nat
deriving DecidableEq, Repr

namespace Kmp

/-- `pattern_[i]`; `std::string` ends with a NUL. -/
def charAt (s : List Char) (i : Nat) : Char := s.getD i '\x00'

/-- The `while` loop of `computeLPSArray`. -/
def lpsLoop (pattern : List Char) (m : Nat) : Nat → Nat → Nat → List Nat → Outcome (List Nat)
  | 0, _, _, _ => .spins
  | fuel + 1, len, i, lps =>
    if i < m then
      if charAt pattern i = charAt pattern len then
        lpsLoop pattern m fuel (len + 1) (i + 1) (lps.set i (len + 1))
      else if len ≠ 0 then lpsLoop pattern m fuel (lps.getD (len - 1) 0) i lps
      else lpsLoop pattern m fuel len (i + 1) (lps.set i 0)
    else .ret lps

/-- `lps.resize(m)` throws for a negative `m`, and `lps[0]` is not there for `m = 0`. -/
def computeLPSArray (pattern : List Char) : Outcome (List Nat) :=
  let m := toInt32 pattern.length
  if m < 0 then .throws
  else if m = 0 then .undefined
  else lpsLoop pattern m.toNat (2 * m.toNat + 1) 0 1 (List.replicate m.toNat 0)

/-- `KMP(string pattern)` -/
def make (pattern : List Char) : Outcome Kmp := do
  let lps ← computeLPSArray pattern
  return { lps := lps, pattern := pattern, j := 0, matchIndex := -1, matchLen := 0 }

/-- The `while` loop of `search`: whether it left through the match, and `i`,
`j`, `matchIndex` there. -/
def searchLoop (k : Kmp) (text : List Char) (n : Int) :
    Nat → Nat → Nat → Int → Outcome (Bool × Nat × Nat × Int)
  | 0, _, _, _ => .spins
  | fuel + 1, i, j, mi =>
    if (i : Int) < n then
      let hit := charAt k.pattern j = charAt text i
      let mi := if hit ∧ j = 0 then (i : Int) else mi
      let j' := if hit then j + 1 else j
      let i' := if hit then i + 1 else i
      if (j' : Int) = toInt32 k.pattern.length then .ret (true, i', j', mi)
      else if (i' : Int) < n ∧ charAt k.pattern j' ≠ charAt text i' then
        if j' ≠ 0 then searchLoop k text n fuel i' (k.lps.getD (j' - 1) 0) mi
        else searchLoop k text n fuel (i' + 1) j' mi
      else searchLoop k text n fuel i' j' mi
    else .ret (false, i, j, mi)

def search (k : Kmp) (text : List Char) : Outcome (Kmp × Int) := do
  let n := toInt32 text.length
  let (matched, i, j, mi) ← k.searchLoop text n (2 * text.length + k.pattern.length + 1) 0 k.j
    k.matchIndex
  if matched then
    return ({ k with j := j, matchIndex := mi }, toInt32 ((i : Int) - j + k.matchLen))
  else
    return ({ k with
        j := j
        matchIndex := mi
        matchLen := ((k.matchLen + n) % 2 ^ 64).toNat },
      toInt32 (mi + k.matchLen))

end Kmp

end Hcpp
