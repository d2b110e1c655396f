import Hcpp.Http.HeaderFields
import Hcpp.Http.ResponseHead

/-!
# Response heads and the body they announce

`ResponseHead.Follows` is RFC 2616 section 4.4: which body follows the head of
the response to a request.  The parser looks at less than that: at the first
line of the last field of a name, in which it searches for `chunked` and for
digits (`SeesChunked`, `readLength`).
-/

namespace Hcpp

open Memory Regex

/-! ## The number of a `Content-Length` line -/

/-- The first run of digits of the text as `msg_body_size` reads it: 0 when it
begins with 0, and 11 digits of it at most. -/
def readNumber (s : List Char) : Option Nat :=
  match s.dropWhile fun c => !isDigit c with
  | [] => none
  | c :: t => if c = '0' then some 0 else some (stoul 10 (c :: (t.takeWhile isDigit).take 10))

theorem head?_clReg_cons (len : Nat) (c : Char) (t : List Char) :
    (ways len clReg (c :: t)).head? =
      if c = '0' then some ([], t)
      else if isDigit c then some ([], t.drop (min 10 (t.takeWhile isDigit).length))
      else none := by
  unfold clReg
  rw [head?_ways_alt]
  by_cases h0 : c = '0'
  · rw [if_pos h0, ways, clsWays, if_pos (by simpa using h0)]
    rfl
  · have h1 : (ways len (.cls fun x => decide (x = '0')) (c :: t)).head? = none := by
      rw [ways, clsWays, if_neg (by simpa using h0)]
      rfl
    rw [if_neg h0, h1, Option.none_or]
    by_cases hd : isDigit c
    · rw [if_pos hd, head?_ways_cls_rep len isDigit 10 t (by simp [hd, h0])]
    · rw [if_neg hd, ways, ways, clsWays, if_neg (by simp [hd])]
      rfl

/-- **The number as it is read.** -/
theorem search_clReg (s : List Char) : (Regex.search clReg s).map (stoul 10) = readNumber s := by
  have hno : ∀ c t, isDigit c = false → (ways s.length clReg (c :: t)).head? = none := by
    intro c t hc
    have h0 : c ≠ '0' := by
      rintro rfl
      exact absurd hc (by decide)
    rw [head?_clReg_cons, if_neg h0, if_neg (by simp [hc])]
  have hyes : ∀ c t, isDigit c = true → (ways s.length clReg (c :: t)).head? =
      some ([], if c = '0' then t else t.drop (min 10 (t.takeWhile isDigit).length)) := by
    intro c t hc
    rw [head?_clReg_cons, if_pos hc]
    by_cases h0 : c = '0'
    · rw [if_pos h0, if_pos h0]
    · rw [if_neg h0, if_neg h0]
  rw [search_at_class isDigit s rfl hno hyes]
  unfold readNumber
  cases s.dropWhile fun c => !isDigit c with
  | nil => rfl
  | cons c t =>
    by_cases h0 : c = '0'
    · simp [h0, stoul, digitVal]
    · simp only [if_neg h0, take_behind_takeWhile, Option.map_some]

/-! ## The grammar of a response head -/

structure ResponseHead where
  version : List Char
  /-- the three digits of the status code -/
  code : List Char
  reason : List Char
  lines : List HeaderLine
  version_text : ∀ c ∈ version, c ≠ '\r' ∧ c ≠ '\n'
  code_text : code.length = 3 ∧ ∀ c ∈ code, isDigit c = true
  reason_text : ∀ c ∈ reason, c ≠ '\r' ∧ c ≠ '\n'

/-- What is relayed behind a head. -/
inductive BodyMode where
  | chunked
  | length (n : Nat)
  | untilClose
  | none
deriving DecidableEq, Repr

namespace BodyMode

/-- A body of `n` bytes; one of 0 bytes is none. -/
def ofLength (n : Nat) : BodyMode := if n = 0 then .none else .length n

end BodyMode

namespace ResponseHead

def statusLine (head : ResponseHead) : List Char :=
  head.version ++ " ".toList ++ head.code ++ " ".toList ++ head.reason ++ crlf

def encode (head : ResponseHead) : List Char :=
  head.statusLine ++ (linesText head.lines ++ crlf)

def status (head : ResponseHead) : Nat := stoul 10 head.code

/-! ### What RFC 2616 section 4.4 asks for -/

/-- The response to a request of that method has no body, whatever its fields say. -/
def Bodiless (method : List Char) (head : ResponseHead) : Prop :=
  method = "HEAD".toList ∨ (100 ≤ head.status ∧ head.status < 200) ∨ head.status = 204 ∨
    head.status = 304

/-- `Transfer-Encoding` has the token `chunked`, in any letter case. -/
def Chunked (head : ResponseHead) : Prop :=
  ∃ f ∈ fieldsNamed head.lines "transfer-encoding".toList,
    ∃ t ∈ f.tokens, toLower t = "chunked".toList

structure Follows (method : List Char) (head : ResponseHead) (mode : BodyMode) : Prop where
  bodiless : Bodiless method head → mode = .none
  chunked : ¬ Bodiless method head → head.Chunked → mode = .chunked
  length : ¬ Bodiless method head → ¬ head.Chunked →
    ∀ f ∈ fieldsNamed head.lines "content-length".toList, ∀ n, f.number = some n →
      mode = .ofLength n
  close : ¬ Bodiless method head → ¬ head.Chunked →
    fieldsNamed head.lines "content-length".toList = [] → mode = .untilClose

/-! ### What the parser sees of it -/

/-- The entries `parser_header` stores. -/
def stored (head : ResponseHead) : List Entry := (entries head.lines).getD []

/-- The last entry for `Transfer-Encoding` has `chunked` in its text. -/
def SeesChunked (head : ResponseHead) : Prop :=
  ∃ e, lastEntry head.stored "transfer-encoding".toList = some e ∧ "chunked".toList <:+: e.line

/-- The number read in the last entry for `Content-Length`; 0 for none. -/
def readLength (head : ResponseHead) : Nat :=
  match lastEntry head.stored "content-length".toList with
  | some e => (readNumber e.line).getD 0
  | none => 0

/-- The last entry for `Connection` has `close` in its text. -/
def SeesClose (head : ResponseHead) : Prop :=
  ∃ e, lastEntry head.stored "connection".toList = some e ∧ "close".toList <:+: e.line

theorem hasChunked_iff (head : ResponseHead) :
    hasChunked (storeEntries [] head.stored) = true ↔ head.SeesChunked := by
  unfold hasChunked SeesChunked
  rw [find_stored]
  cases lastEntry head.stored "transfer-encoding".toList with
  | none => simp
  | some e => simp [Search.isSome_find_iff]

theorem msgBodySize_eq (head : ResponseHead) :
    (msgBodySize (storeEntries [] head.stored)).getD 0 = head.readLength := by
  unfold msgBodySize readLength
  rw [find_stored]
  cases lastEntry head.stored "content-length".toList with
  | none => rfl
  | some e =>
    simp only [Option.map_some]
    rw [search_clReg]

/-- The response as the parsers leave it. -/
def parsed (head : ResponseHead) : HttpResponse where
  headers := storeEntries [] head.stored
  bodySize := (bodyFields (storeEntries [] head.stored)).2
  chunkCoding := (bodyFields (storeEntries [] head.stored)).1
  responseLine := head.statusLine
  responseHeaderStr := linesText head.lines ++ crlf

theorem parsed_chunkCoding (head : ResponseHead) :
    head.parsed.chunkCoding = true ↔ head.SeesChunked := by
  rw [← hasChunked_iff]
  show (bodyFields (storeEntries [] head.stored)).1 = true ↔ _
  unfold bodyFields
  cases hasChunked (storeEntries [] head.stored) with
  | true => rw [if_pos rfl]
  | false =>
    rw [if_neg (by decide)]
    cases msgBodySize (storeEntries [] head.stored) <;> rfl

theorem parsed_bodySize {head : ResponseHead} (h : ¬ head.SeesChunked) :
    head.parsed.bodySize = head.readLength := by
  rw [← hasChunked_iff] at h
  rw [← msgBodySize_eq]
  show (bodyFields (storeEntries [] head.stored)).2 = _
  unfold bodyFields
  rw [if_neg h]
  cases msgBodySize (storeEntries [] head.stored) <;> rfl

/-! ### Reading it -/

theorem firstLine_encode {head : ResponseHead} {x : List Char} (hx : IsHead x x)
    (hpre : firstLine x <+: head.encode) : firstLine x = head.statusLine := by
  obtain ⟨i, hi, -⟩ := hx
  obtain ⟨p, hp⟩ : ∃ p, Search.find crlf x = some p := by
    apply Search.exists_find
    exact (show crlf <:+: crlfcrlf from ⟨[], crlf, rfl⟩).trans (Search.isInfix_of_find hi)
  have hfl : firstLine x = x.take (p + 2) := by
    unfold firstLine
    rw [hp]
  have hcr : '\r' ∉ head.version ++ " ".toList ++ head.code ++ " ".toList ++ head.reason := by
    simp only [List.mem_append, not_or]
    refine ⟨⟨⟨⟨fun h => (head.version_text _ h).1 rfl, by decide⟩, fun h => ?_⟩, by decide⟩,
      fun h => (head.reason_text _ h).1 rfl⟩
    exact absurd (head.code_text.2 _ h) (by decide)
  have hhead : Search.find crlf head.encode = some (head.statusLine.length - 2) := by
    have hfind : Search.find crlf (_ ++ crlf ++ (linesText head.lines ++ crlf)) = some _ :=
      Search.find_of_not_mem hcr
    have hlen : head.statusLine.length - 2 =
        (head.version ++ " ".toList ++ head.code ++ " ".toList ++ head.reason).length := by
      rw [statusLine, List.length_append]
      rfl
    rw [hlen]
    exact hfind
  have hline : Search.find crlf (x.take (p + 2)) = some p := Search.find_take hp
  obtain ⟨t, ht⟩ := hpre
  rw [hfl] at ht ⊢
  have hboth := Search.find_append_of_some (b := t) hline
  rw [ht, hhead, Option.some.injEq] at hboth
  have hle := Search.find_add_length_le hline
  have h2 : crlf.length = 2 := rfl
  have hlen : (x.take (p + 2)).length = p + 2 := by
    rw [List.length_take] at hle ⊢
    omega
  have hst : 2 ≤ head.statusLine.length := by
    rw [statusLine, List.length_append]
    exact Nat.le_add_left _ _
  calc x.take (p + 2) = head.encode.take (p + 2) := by rw [← ht, List.take_left' hlen]
    _ = head.statusLine := by
      rw [encode]
      exact List.take_left' (by omega)

/-- **A delivered head is parsed into its fields.** -/
theorem parserResponse_encode {head : ResponseHead} {m : Memory} (h : m.WF)
    (hsize : head.encode.length < 2 ^ 64) {r : List Char} {incoming : List (List Char)}
    (hd : Delivers m head.encode r incoming) :
    ∃ m', parserResponse m = .ret (m', head.parsed, true) ∧ m'.WF ∧
      m'.unread = (m.unread ++ r).drop head.encode.length ∧ m'.incoming = incoming ∧
      m'.frame = m.frame ∧ m'.writeIndex = m.writeIndex + r.length := by
  obtain ⟨m', headers, hheader, hparse, hwf, hu, hin, hfr, hwi⟩ :=
    parserResponse_of_delivers h hsize hd
  obtain ⟨hn, -, i, hi, hcut⟩ := isHead_of_pullUntil hd.load
  have hfull : IsHead (r.take head.encode.length) (r.take head.encode.length) := by
    refine ⟨i, ?_, ?_⟩
    · rw [hcut]
      exact Search.find_take hi
    · rw [hcut, List.take_take, Nat.min_self]
  have hline := firstLine_encode hfull hd.status
  have hll : lineLength head.encode r = head.statusLine.length := by rw [lineLength, hline]
  have hdrop : head.encode.drop head.statusLine.length = linesText head.lines ++ crlf :=
    List.drop_left
  have hblock : (linesText head.lines ++ crlf).take
      (head.encode.length - head.statusLine.length - 2) = linesText head.lines := by
    apply List.take_left'
    simp [encode, crlf]
  rw [hll, hdrop, hblock] at hheader
  obtain ⟨es, hes, rfl⟩ := parserHeader_accepted hheader
  have hstored : head.stored = es := by rw [stored, hes, Option.getD_some]
  rw [hll, hdrop, hline, ← hstored] at hparse
  exact ⟨m', hparse, hwf, hu, hin, hfr, hwi⟩

end ResponseHead

end Hcpp
