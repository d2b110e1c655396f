import Hcpp.Dns.Qname

/-!
# `dnshttps`: DNS over HTTPS

dnshttps.cc: `get` sends the query of a name as a GET request, takes the reply
off the memory when its head has a `Content-Length`, and hands it to
`parse_rfc8484`, which collects the answers.  The pass over the CNAME records
stands under `if (false)` and is left out: the set of names is that of the
question alone.  `raw` is written and never read, and is left out with it.
-/

namespace Hcpp.Dns

/-! ## The query -/

def b64 : List Char :=
  "ABCDEFGHIJKLMNOPQRSTUVWXYZabcdefghijklmnopqrstuvwxyz0123456789-_".toList

/-- `b64[i]` -/
def b64At (i : Nat) : Char := b64.getD i nul

/-- `while (len--)`, in 32 bits, and the characters that are left over. -/
def b64Loop : List Char → Nat → Nat → List Char → List Char
  | [], bits, charCount, dst =>
    if charCount ≠ 0 then
      let bits := (bits <<< (16 - 8 * charCount)) % 2 ^ 32
      let dst := dst ++ [b64At (bits >>> 18), b64At ((bits >>> 12) &&& 0x3f)]
      if charCount = 1 then dst else dst ++ [b64At ((bits >>> 6) &&& 0x3f)]
    else dst
  | c :: src, bits, charCount, dst =>
    let bits := (bits + c.toNat) % 2 ^ 32
    if charCount + 1 = 3 then
      b64Loop src 0 0 (dst ++ [b64At (bits >>> 18), b64At ((bits >>> 12) &&& 0x3f),
        b64At ((bits >>> 6) &&& 0x3f), b64At (bits &&& 0x3f)])
    else b64Loop src ((bits <<< 8) % 2 ^ 32) (charCount + 1) dst

def b64urlEncode (src : List Char) : List Char :=
  if src.length ≥ (2 ^ 32 - 1) / 2 then [] else b64Loop src 0 0 []

/-- A number of 16 bits in the order of the network. -/
def be16 (n : Nat) : List Char := [Char.ofNat (n / 256 % 256), Char.ofNat (n % 256)]

def typeA : Nat := 1
def typeNS : Nat := 2
def typeCNAME : Nat := 5
def typeMX : Nat := 15
def typeAAAA : Nat := 28
def classIN : Nat := 1

/-- `qhdr`: the id, which is in the order of the host, `rd`, and one question. -/
def queryHeader (id : Nat) : List Char :=
  [Char.ofNat (id % 256), Char.ofNat (id / 256 % 256), Char.ofNat 1, nul] ++ be16 1 ++
    be16 0 ++ be16 0 ++ be16 0

/-- `now` is the clock's count. -/
def makeQuery (now : Nat) (name : List Char) (qtype : Nat) : Outcome (List Char) := do
  let (_, qname) ← host2qname name
  if qname.length = 0 then .ret []
  else .ret (b64urlEncode (queryHeader (now % 0xffff) ++ qname ++ be16 qtype ++ be16 classIN))

def getRequest (dnsHost query : List Char) : List Char :=
  "GET /dns-query?dns=".toList ++ query ++ " HTTP/1.1\r\nHost: ".toList ++ dnsHost ++
    "\r\nUser-Agent: harddns 0.58 github.com/stealth/harddns\r\n".toList ++
    "Connection: Keep-Alive\r\n".toList ++ "Accept: application/dns-message\r\n".toList ++
    "\r\n\r\n".toList

/-! ## The reply -/

/-- `strtoul` where the value is not needed beyond 64 bits: a number that does not fit
is the greatest one. -/
def strtoul (base : Nat) (s : List Char) : Nat :=
  let s := s.dropWhile isSpace
  let neg := s.head? = some '-'
  let s := if s.head? = some '-' ∨ s.head? = some '+' then s.drop 1 else s
  let s := if base = 16 ∧ (s.take 2 = ['0', 'x'] ∨ s.take 2 = ['0', 'X']) ∧
      (s.drop 2).head?.any isHex then s.drop 2 else s
  let n := stoul base (s.takeWhile fun c => if base = 16 then isHex c else isDigit c)
  if n ≥ 2 ^ 64 then 2 ^ 64 - 1 else if neg then (2 ^ 64 - n) % 2 ^ 64 else n

/-- `answer_t`; the numbers are those of the message, in the order of the host. -/
structure AnswerT where
  name : List Char
  qtype : Nat
  qclass : Nat
  ttl : Nat
  rdata : List Char
deriving DecidableEq, Repr

/-- `dns_reply`: the answers under the keys 0, 1, 2, … -/
abbrev DnsReply := List AnswerT

/-- `result[acnt] = a`, where `acnt` is a key or the next one. -/
def DnsReply.put (result : DnsReply) (acnt : Nat) (a : AnswerT) : DnsReply :=
  if acnt < result.length then result.set acnt a else result ++ [a]

/-- A load of 16 bits; the terminating NUL may be read too. -/
def load16 (s : List Char) (idx : Nat) : Outcome Nat := do
  let hi ← charAt s idx
  let lo ← charAt s (idx + 1)
  .ret (hi.toNat * 256 + lo.toNat)

def load32 (s : List Char) (idx : Nat) : Outcome Nat := do
  let hi ← load16 s idx
  let lo ← load16 s (idx + 2)
  .ret (hi * 65536 + lo)

/-- The chunked branch: what the chunks hold, or `none` where it returns -1. -/
def chunkLoop (reply : List Char) : Nat → Nat → List Char → Outcome (Option (List Char))
  | 0, _, _ => .spins
  | fuel + 1, idx, dnsReply =>
    match Search.find crlf (reply.drop idx) with
    | none => .ret none
    | some n =>
      let nl := idx + n
      if nl + 2 > reply.length then .ret none
      else
        let cl := strtoul 16 (reply.drop idx)
        if cl = 0 then .ret (some dnsReply)
        else if cl > 65535 ∨ nl + 2 + cl + 2 > reply.length then .ret none
        else
          chunkLoop reply fuel (nl + 2 + (cl + 2)) (dnsReply ++ (reply.drop (nl + 2)).take cl)

def chunkedBody (reply : List Char) : Outcome (Option (List Char)) :=
  match Search.find crlfcrlf reply with
  | none => .ret none
  | some idx =>
    if idx + 4 ≥ reply.length then .ret none
    else chunkLoop reply (reply.length + 1) (idx + 4) []

/-- `dns_reply`: the message in the reply.  An index `npos` is `none`. -/
def replyBody (reply : List Char) (contentIdx : Option Nat) (cl : Nat) :
    Outcome (Option (List Char)) :=
  match contentIdx with
  | none => chunkedBody reply
  | some idx =>
    if cl > 0 then
      if idx > reply.length then .throws
      else if (reply.drop idx).length < cl then .ret none
      else .ret (some (reply.drop idx))
    else chunkedBody reply

/-- The bytes in decimal, with dots between them. -/
def dotted (s : List Char) : List Char :=
  (s.flatMap fun i => Nat.toDigits 10 (i.toNat % 256) ++ ['.']).dropLast

/-- One turn of the second `for (int i = 0;; ++i)`, up to the choice of the type:
`none` where it returns -1, else the answer without `rdata`, `aname`, the place of the
record's data and its length. -/
def recordHead (dnsReply : List Char) (idx : Nat) :
    Outcome (Option (AnswerT × List Char × Nat × Nat)) := do
  let (qnlen, aname) ← qname2host dnsReply idx
  if qnlen < 0 then .ret none
  else if idx + qnlen.toNat + 10 ≥ dnsReply.length then .ret none
  else do
    let idx := idx + qnlen.toNat
    let qtype ← load16 dnsReply idx
    let qclass ← load16 dnsReply (idx + 2)
    let ttl ← load32 dnsReply (idx + 4)
    let rdlen ← load16 dnsReply (idx + 8)
    let idx := idx + 10
    if idx + rdlen > dnsReply.length ∨ qclass ≠ classIN ∨ rdlen = 0 then .ret none
    else do
      let (n, _) ← host2qname aname
      if n ≤ 0 then .ret none
      -- `sanas.back()` of an empty view
      else if aname = [] then .undefined
      else
        let sanas := if aname.getLast? = some '.' then aname.dropLast else aname
        .ret (some (⟨sanas, qtype, qclass, ttl, []⟩, aname, idx, rdlen))

/-- The records.  The address of an AAAA record is read through a pointer into a string
that is gone: undefined. -/
def recordLoop (dnsReply fqdn : List Char) (type : Nat) :
    Nat → Nat → Nat → DnsReply → Bool → Outcome (Int × DnsReply)
  | 0, _, _, _, _ => .spins
  | fuel + 1, idx, acnt, result, hasAnswer =>
    if idx ≥ dnsReply.length then .ret (if hasAnswer then 1 else 0, result)
    else do
      match ← recordHead dnsReply idx with
      | none => .ret (-1, result)
      | some (dnsAns, aname, idx, rdlen) =>
        if dnsAns.qtype = typeA ∧ lcs aname = fqdn then
          if rdlen ≠ 4 then .ret (-1, result)
          else
            let rdata := dotted ((dnsReply.drop idx).take 4)
            recordLoop dnsReply fqdn type fuel (idx + rdlen) (acnt + 1)
              (result.put acnt { dnsAns with rdata := rdata }) true
        else if dnsAns.qtype = typeAAAA ∧ lcs aname = fqdn then
          if rdlen ≠ 16 then .ret (-1, result) else .undefined
        else if dnsAns.qtype = typeCNAME then do
          let (n, cname) ← qname2host dnsReply idx
          if n ≤ 0 then .ret (-1, result)
          else do
            let (n, qcname) ← host2qname cname
            if n ≤ 0 then .ret (-1, result)
            else
              recordLoop dnsReply fqdn type fuel (idx + rdlen) (acnt + 1)
                (result.put acnt { dnsAns with rdata := qcname }) hasAnswer
        else if (dnsAns.qtype = typeNS ∨ dnsAns.qtype = typeMX) ∧ dnsAns.qtype = type then
          recordLoop dnsReply fqdn type fuel (idx + rdlen) (acnt + 1)
            (result.put acnt { dnsAns with rdata := (dnsReply.drop idx).take rdlen }) true
        else recordLoop dnsReply fqdn type fuel (idx + rdlen) acnt result hasAnswer

/-- The message, from its header on: the value returned, and `result`. -/
def parseMessage (name : List Char) (type : Nat) (result : DnsReply) (dnsReply : List Char) :
    Outcome (Int × DnsReply) :=
  if dnsReply.length < 12 + 5 then .ret (-1, result)
  else do
    -- `qr` is the high bit of the third byte, `rcode` the low half of the fourth
    let flags ← charAt dnsReply 2
    let codes ← charAt dnsReply 3
    if flags.toNat / 128 % 2 ≠ 1 then .ret (-1, result)
    else if codes.toNat % 16 ≠ 0 then .ret (-1, result)
    else do
      let (qnlen, tmp) ← qname2host dnsReply 12
      if qnlen ≤ 0 ∨ 12 + qnlen.toNat + 4 ≥ dnsReply.length then .ret (-1, result)
      else if lcs (name ++ ['.']) ≠ lcs tmp then .ret (-1, result)
      else
        recordLoop dnsReply (lcs tmp) type (dnsReply.length + 1) (12 + qnlen.toNat + 4) 0 result
          false

def parseRfc8484 (name : List Char) (type : Nat) (result : DnsReply) (reply : List Char)
    (contentIdx : Option Nat) (cl : Nat) : Outcome (Int × DnsReply) := do
  match ← replyBody reply contentIdx cl with
  | none => .ret (-1, result)
  | some dnsReply => parseMessage name type result dnsReply

/-! ## The exchange -/

/-- `while (cli < cl)`.  A read of nothing is one of a peer that has closed, and so are
all reads after it: a turn for each missing byte, and one more, is enough. -/
def bodyLoop (cl : Nat) : Nat → Memory → List Char → Nat → Outcome (Memory × List Char)
  | 0, _, _, _ => .spins
  | fuel + 1, m, reply, cli =>
    if cli < cl then do
      let (m, bf2n) ← m.asyncLoadSome (1024 * 4)
      bodyLoop cl fuel (m.removeSome bf2n.length) (reply ++ bf2n) (cli + bf2n.length)
    else .ret (m, reply)

/-- The `Content-Length` of a head, as `get` looks for it. -/
def contentLength (reply : List Char) : Option Nat :=
  match Search.find "Content-Length:".toList reply with
  | none => none
  | some idx => some (strtoul 10 (reply.drop (idx + 15)))

/-- What `parse_rfc8484` returns is not looked at. -/
def get (m : Memory) (dnsHost : List Char) (now : Nat) (name : List Char) (qtype : Nat)
    (result : DnsReply) : Outcome (Int × DnsReply) :=
  if ¬ validName name then .ret (-1, result)
  else do
    let query ← makeQuery now name qtype
    if query.length = 0 then .ret (-1, result)
    else do
      let m := m.asyncWriteAll (getRequest dnsHost query)
      let (m, reply) ← m.asyncLoadUntil crlfcrlf
      let contentIdx := reply.length
      let m := m.removeSome reply.length
      match contentLength reply with
      | none => .ret (-1, result)
      | some cl =>
        if cl > 65535 then .ret (-1, result)
        else do
          let sv2 := m.getSome
          let (_, reply) ← bodyLoop cl (cl + 1) (m.removeSome sv2.length) (reply ++ sv2) sv2.length
          let (_, result) ← parseRfc8484 name qtype result reply (some contentIdx) cl
          .ret (0, result)

def getA (m : Memory) (dnsHost : List Char) (now : Nat) (name : List Char) (dr : DnsReply) :
    Outcome (Int × DnsReply) :=
  get m dnsHost now name typeA dr

end Hcpp.Dns
