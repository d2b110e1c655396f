import Hcpp.Lib.Regex
import Hcpp.Mem.Transfer

/-!
# `http_msg`: header fields and message bodies

httpmsg.cpp: `parser_header` cuts a header block into fields, `msg_body_size`
reads `Content-Length`, `transfer_chunk` relays a chunked body and
`transfer_msg_body` one of a given length.

`http_headers` is an `unordered_map` from lower-cased names to raw lines; here
it is a list of entries with different names.
-/

namespace Hcpp

/-- `http_headers`: for each lower-cased name the raw line that was stored last. -/
abbrev Headers := List (List Char × List Char)

namespace Headers

def find (h : Headers) (name : List Char) : Option (List Char) :=
  (h.find? fun e => e.1 = name).map Prod.snd

/-- `h[name] = line` -/
def set (h : Headers) (name line : List Char) : Headers :=
  if h.any fun e => e.1 = name then h.map fun e => if e.1 = name then (name, line) else e
  else h ++ [(name, line)]

def erase (h : Headers) (name : List Char) : Headers := h.filter fun e => e.1 ≠ name

end Headers

def toLower (s : List Char) : List Char := s.map Char.toLower

/-- Only letters change. -/
theorem toLower_eq_iff {c d : Char} (hd : d.val < 65) : c.toLower = d ↔ c = d := by
  unfold Char.toLower
  split
  · rename_i h
    refine iff_of_false (fun hlower => ?_) ?_
    · have hval : c.val + 32 = d.val := congrArg Char.val hlower
      have h1 : (65 : UInt32) ≤ c.val := h.1
      have h2 : c.val ≤ (90 : UInt32) := h.2
      grind
    · rintro rfl
      have h1 : (65 : UInt32) ≤ c.val := h.1
      grind
  · exact Iff.rfl

/-- The `while (svl.starts_with(" "))` loop: step over continuation lines.  The
test behind `find` asks for `name_end`, so a missing CRLF goes unnoticed and
`remove_prefix(npos + 2)` takes one byte. -/
def skipFolded : Nat → List Char → Outcome (List Char)
  | 0, _ => .spins
  | fuel + 1, svl =>
    if svl.head? = some ' ' then
      let svl := svl.drop 1
      match Search.find crlf svl with
      | some valEnd => skipFolded fuel (svl.drop (valEnd + 2))
      | none => if svl = [] then .undefined else skipFolded fuel (svl.drop 1)
    else .ret svl

def parserHeaderLoop : Nat → List Char → Headers → Outcome (Bool × Headers)
  | 0, _, _ => .spins
  | fuel + 1, svl, h =>
    if svl = [] then .ret (true, h)
    else
      match Search.find [':', ' '] svl with
      | none => .ret (false, h)
      | some nameEnd =>
        match Search.find crlf (svl.drop (nameEnd + 2)) with
        | none => .ret (false, h)
        | some valEnd => do
          let h := h.set (toLower (svl.take nameEnd)) (svl.take (nameEnd + 2 + valEnd + 2))
          let svl ← skipFolded (svl.length + 1) (svl.drop (nameEnd + 2 + valEnd + 2))
          parserHeaderLoop fuel svl h

/-- Whether the block was accepted, and the entries stored by then. -/
def parserHeader (svl : List Char) (h : Headers) : Outcome (Bool × Headers) :=
  parserHeaderLoop (svl.length + 1) svl h

/-! ## Numbers -/

open Regex

def isDigit (c : Char) : Bool := decide ('0' ≤ c ∧ c ≤ '9')

def isHex (c : Char) : Bool :=
  isDigit c || decide ('A' ≤ c ∧ c ≤ 'F') || decide ('a' ≤ c ∧ c ≤ 'f')

def isSpace (c : Char) : Bool := c = ' ' || (decide ('\t' ≤ c) && decide (c ≤ '\r'))

/-- A letter of a class is none that is not in it. -/
theorem ne_of_class {p : Char → Bool} {c d : Char} (hc : p c = true) (hd : p d = false) :
    c ≠ d := by
  rintro rfl
  rw [hc] at hd
  cases hd

/-- The value of a digit, in base 16. -/
def digitVal (c : Char) : Nat :=
  if c ≤ '9' then c.toNat - 48 else if c ≤ 'F' then c.toNat - 55 else c.toNat - 87

/-- `std::stoul` of a text of digits of that base. -/
def stoul (base : Nat) (s : List Char) : Nat := s.foldl (fun n c => n * base + digitVal c) 0

/-- `^0{1,15}|[1-9A-Fa-f][0-9A-Fa-f]{0,15}` -/
def hexReg : Re Char :=
  .alt (.seq .bol (.rep (.cls (· = '0')) 1 (some 15)))
    (.seq (.cls fun c => isHex c && decide (c ≠ '0')) (.rep (.cls isHex) 0 (some 15)))

def hexStrTo (hexStr : List Char) : Outcome Nat :=
  match Regex.search hexReg hexStr with
  | none => .throws
  | some m => .ret (stoul 16 m)

/-- `0|[1-9]\d{0,10}` -/
def clReg : Re Char :=
  .alt (.cls (· = '0'))
    (.seq (.cls fun c => isDigit c && decide (c ≠ '0')) (.rep (.cls isDigit) 0 (some 10)))

def msgBodySize (header : Headers) : Option Nat :=
  match header.find "content-length".toList with
  | none => none
  | some cl => (Regex.search clReg cl).map (stoul 10)

/-! ## Bodies -/

/-- `std::string(sv.data())`: the bytes before the first NUL. -/
def cString (s : List Char) : List Char := s.takeWhile (· ≠ '\x00')

/-- `while (p == npos && cs_str.size() < 18)` -/
def scanSize : Nat → Memory → List Char → Outcome (Memory × List Char)
  | 0, _, _ => .spins
  | fuel + 1, self, csStr =>
    if Search.find crlf csStr = none ∧ csStr.length < 18 then do
      let (self, someStr) ← self.asyncLoadSome (1024 * 4)
      scanSize fuel self (csStr ++ someStr.take (18 - csStr.length))
    else .ret (self, csStr)

/-- A turn of it that reads. -/
theorem scanSize_open {csStr : List Char} (h : Search.find crlf csStr = none ∧ csStr.length < 18)
    (fuel : Nat) (self : Memory) :
    scanSize (fuel + 1) self csStr = scanSize fuel (self.readSome (1024 * 4)).1
      (csStr ++ (self.readSome (1024 * 4)).2.take (18 - csStr.length)) := by
  rw [scanSize, if_pos h, Memory.asyncLoadSome_page, Outcome.ret_bind]

/-- The loop over the chunks; `n` bytes are transferred. -/
def transferChunkLoop : Nat → Memory → Memory → Nat → Outcome (Memory × Memory × Nat)
  | 0, _, _, _ => .spins
  | fuel + 1, self, to_, n => do
    let (self, csStr) ← scanSize fuel self (cString self.getSome)
    match Search.find crlf csStr with
    | none => .throws
    | some p =>
      let chunkSize ← hexStrTo (csStr.take p)
      if chunkSize = 0 then
        let (self, to_, tn) ← transferMemUntil fuel self to_ crlfcrlf
        .ret (self, to_, n + tn)
      else
        let completeChunkSize := (p + 2 + chunkSize + 2) % 2 ^ 64
        let (self, to_, tn) ← transferMem fuel self to_ completeChunkSize
        if tn ≠ completeChunkSize then .throws
        else transferChunkLoop fuel self to_ (n + completeChunkSize)

def transferChunk (fuel : Nat) (self to_ : Memory) : Outcome (Memory × Memory × Nat) :=
  transferChunkLoop fuel self.mergeSome to_ 0

def transferMsgBody (fuel : Nat) (self to_ : Memory) (bodySize : Nat) :
    Outcome (Memory × Memory) :=
  if bodySize > 0 then do
    let (self, to_, _) ← transferMem fuel self to_ bodySize
    return (self, to_)
  else .ret (self, to_)

end Hcpp
