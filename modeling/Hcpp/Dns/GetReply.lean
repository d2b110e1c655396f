import Hcpp.Dns.RecordTurns
import Hcpp.Mem.BufferRuns
import Hcpp.Mem.Writes

/-!
# `get` on a well-formed reply

`Reply.looked` says when the records of the reply to the query of `name` are read:
`valid_name` takes the name, the head has a `Content-Length:`, and the question is
the name with a dot behind it.  Then `get` collects what the record loop does, and
else nothing (`getA_eq`); but where bytes that came with a head of 2^31 bytes or
more are not found again, it waits for them (`getA_lost`).
-/

namespace Hcpp.Dns

open DomainName Memory

/-- What a provider is asked, and what comes back: an HTTP response with a DNS message,
in the segments in which it arrives.  `room` is that of the connection. -/
structure Reply where
  host : List Char
  now : Nat
  room : Option Nat
  head : List Char
  body : List Char
  segments : List (List Char)
  msg : Message
  canonical : Name

namespace Reply

/-- The `ssl_sock_mem` that the query is sent over. -/
def memory (rp : Reply) : Memory := fresh .ssl rp.segments rp.room

/-- The reply to the query of `name`: its head ends at the first empty line; when that
announces a length, the body is the message and has this length. -/
structure WellFormed (name : List Char) (rp : Reply) : Prop where
  msg : rp.msg.WellFormed
  question : lcs (name ++ ['.']) = lcs (text rp.msg.question) ∨
    lcs name = lcs (text rp.msg.question)
  canonical : rp.msg.Canonical rp.canonical
  segments : rp.segments.flatten = rp.head ++ rp.body
  head : ∃ i, Search.find crlfcrlf (rp.head ++ rp.body) = some i ∧ rp.head.length = i + 4
  counted : ∀ cl, contentLength rp.head = some cl →
    cl = rp.msg.bytes.length ∧ rp.body = rp.msg.bytes

/-- The name is asked for, and the body of the reply is taken. -/
def fetched (name : List Char) (rp : Reply) : Bool :=
  validName name && (contentLength rp.head).isSome

/-- The reply is parsed, and its question passes. -/
def looked (name : List Char) (rp : Reply) : Bool :=
  rp.fetched name && decide (lcs (name ++ ['.']) = lcs (text rp.msg.question))

/-- What was read together with the head is found again behind it: its offset, taken as
an `int` and back, is one of the block. -/
def Finds (rp : Reply) : Prop :=
  ∀ r n segs, Feed.pullUntil crlfcrlf [] rp.segments = some (r, n, segs) →
    r.length = n ∨ narrow n < r.length

end Reply

/-! ## The message -/

section Parse

variable {m : Message} {name : List Char}

theorem drop_header (m : Message) :
    m.bytes.drop 12 = m.questionBytes ++ m.records.flatMap Record.bytes :=
  List.drop_left' (length_header m)

theorem drop_start (m : Message) : m.bytes.drop m.start = m.records.flatMap Record.bytes := by
  rw [Message.start, ← List.drop_drop, drop_header, List.drop_left]

theorem length_questionBytes (m : Message) :
    m.questionBytes.length = (wire m.question).length + 5 := by
  simp [Message.questionBytes, Written.bytes, Ending.bytes]

theorem length_bytes (m : Message) :
    m.bytes.length = m.start + (m.records.flatMap Record.bytes).length := by
  rw [Message.bytes, Message.start, List.length_append, List.length_append, length_header,
    Nat.add_assoc]

theorem placed_eq (o : Nat) (rs : List Record) : (placed o rs).map Prod.snd = rs := by
  induction rs generalizing o with
  | nil => rfl
  | cons r rs ih => rw [placed, List.map_cons, ih]

/-- Every record is placed somewhere. -/
theorem exists_placed {o : Nat} {rs : List Record} {r : Record} (h : r ∈ rs) :
    ∃ p ∈ placed o rs, p.2 = r := by
  rw [← placed_eq o rs] at h
  exact List.mem_map.mp h

/-- **A well-formed message is parsed to its records** when its question is the name with a
dot behind it, and rejected otherwise. -/
theorem parseMessage_scan (hm : m.WellFormed) :
    (parseMessage name typeA [] m.bytes >>= fun p => .ret p.2) =
      if lcs (name ++ ['.']) = lcs (text m.question) then
        scan m.bytes (lcs (text m.question)) m.placedRecords []
      else .ret [] := by
  have hstart : m.start = 12 + ((wire m.question).length + 1) + 4 := by
    rw [Message.start, length_questionBytes]
    omega
  have hlen := length_bytes m
  have hresponse := hm.response
  have hname := hm.question
  have hflags : m.bytes.getD 2 nul = Char.ofNat m.flags := rfl
  have hcodes : m.bytes.getD 3 nul = Char.ofNat m.codes := rfl
  have hq : Written.bytes ⟨m.question, .root⟩ <+: m.bytes.drop 12 := by
    rw [drop_header, Message.questionBytes, List.append_assoc]
    exact List.prefix_append _ _
  rw [parseMessage_asked, asked_stands (by rw [hflags, toNat_byte _ m.flags.isLt]; exact hresponse)
    (by rw [hcodes, toNat_byte _ m.codes.isLt]; exact hm.noError) hq (by omega), ← hstart]
  by_cases hsame : lcs (name ++ ['.']) = lcs (text m.question)
  · rw [if_pos hsame]
    by_cases hmore : m.start < m.bytes.length
    · rw [if_pos ⟨hmore, hsame⟩]
      refine recordLoop_scan m.records _ m.start [] false (drop_start m) ?_ ?_ (by omega)
      · intro r hr
        obtain ⟨p, hp, rfl⟩ := exists_placed (o := m.start) hr
        exact hm.lengthA p hp
      · intro r hr
        obtain ⟨p, hp, rfl⟩ := exists_placed (o := m.start) hr
        exact hm.lengthAAAA p hp
    · -- no record follows the question
      have hnil : m.records = [] := by
        cases hrs : m.records with
        | nil => rfl
        | cons r rs =>
          rw [hrs, List.flatMap_cons, List.length_append, r.length_bytes] at hlen
          omega
      have hplaced : m.placedRecords = [] := by
        rw [Message.placedRecords, hnil]
        rfl
      rw [if_neg fun h => hmore h.1, hplaced]
      rfl
  · rw [if_neg hsame, if_neg fun h => hsame h.2]
    rfl

end Parse

/-! ## The transfer -/

section Body

variable {m : Memory} {cl : Nat}

/-- The loop brings all that is still to come, when that is what is missing; by
induction on the fuel. -/
theorem bodyLoop_all (fuel : Nat) (reply : List Char) (cli : Nat) (h : m.WF) (hu : m.unread = [])
    (hlen : cli + m.incoming.flatten.length = cl) (hfuel : cl - cli < fuel) :
    ∃ m', bodyLoop cl fuel m reply cli = .ret (m', reply ++ m.incoming.flatten) := by
  induction fuel generalizing m reply cli with
  | zero => omega
  | succ fuel ih =>
    rw [bodyLoop]
    by_cases hlt : cli < cl
    · have hne : m.incoming.flatten ≠ [] := List.ne_nil_of_length_pos (by omega)
      obtain ⟨r, segs, hp⟩ : ∃ r segs, Feed.pull (1024 * 4) m.incoming = some (r, segs) :=
        Feed.exists_pull hne
      have hr := Feed.ne_nil_of_pull (by decide) hp
      have hpos := List.length_pos_of_ne_nil hr
      have hflat := Feed.flatten_of_pull hp
      obtain ⟨hwf1, hu1⟩ := append_removeSome h hu hr segs
      have hinc : ((m.append r segs).removeSome r.length).incoming = segs := rfl
      rw [← hflat, List.length_append] at hlen
      rw [if_pos hlt, asyncLoadSome_page, Outcome.ret_bind, readSome_of_pull h hp]
      obtain ⟨m', hloop⟩ := ih (reply ++ r) (cli + r.length) hwf1 hu1
        (by rw [hinc]; omega) (by omega)
      refine ⟨m', ?_⟩
      rw [hinc, List.append_assoc, hflat] at hloop
      exact hloop
    · have hnil : m.incoming.flatten = [] := List.length_eq_zero_iff.mp (by omega)
      exact ⟨m, by rw [if_neg hlt, hnil, List.append_nil]⟩

/-- It never ends when less is to come than is missing. -/
theorem bodyLoop_short (fuel : Nat) (reply : List Char) (cli : Nat) (h : m.WF)
    (hlen : cli + m.incoming.flatten.length < cl) :
    bodyLoop cl fuel m reply cli = .spins := by
  induction fuel generalizing m reply cli with
  | zero => rfl
  | succ fuel ih =>
    rw [bodyLoop, if_pos (by omega), asyncLoadSome_page, Outcome.ret_bind]
    cases hp : Feed.pull (1024 * 4) m.incoming with
    | none =>
      have hclosed := Feed.pull_eq_none_iff.mp hp
      rw [readSome_of_closed hclosed]
      have hwf : ({ m with readOk := false } : Memory).WF := ⟨h.chain, h.base_le, h.inFirst⟩
      have hwf1 := (removeSome_spec hwf (n := 0) (Nat.zero_le _)).1
      exact ih _ _ hwf1 hlen
    | some p =>
      obtain ⟨r, segs⟩ := p
      have hr := Feed.ne_nil_of_pull (by decide) hp
      have hflat := Feed.flatten_of_pull hp
      have hwf := h.append hr segs
      have hunread := unread_append h r segs
      obtain ⟨hwf1, -⟩ := removeSome_spec hwf (n := r.length) (by
        rw [hunread, List.length_append]
        omega)
      have hinc : ((m.append r segs).removeSome r.length).incoming = segs := rfl
      rw [← hflat, List.length_append] at hlen
      rw [readSome_of_pull h hp]
      exact ih _ _ hwf1 (by rw [hinc]; omega)

end Body

/-! ## `get` -/

section Query

/-- The encoder writes something for each byte. -/
theorem length_b64Loop (src : List Char) (bits charCount : Nat) (dst : List Char) :
    dst.length + (if src = [] ∧ charCount = 0 then 0 else 1) ≤
      (b64Loop src bits charCount dst).length := by
  induction src generalizing bits charCount dst with
  | nil =>
    rw [b64Loop]
    by_cases h : charCount = 0
    · simp [h]
    · simp only [h, and_false, if_false, ne_eq, not_false_eq_true, if_true]
      split <;> simp only [List.length_append, List.length_cons, List.length_nil] <;> omega
  | cons c src ih =>
    rw [b64Loop, if_neg fun h => List.cons_ne_nil _ _ h.1]
    split
    · refine Nat.le_trans ?_ (ih _ _ _)
      simp only [List.length_append, List.length_cons, List.length_nil]
      omega
    · refine Nat.le_trans ?_ (ih _ _ _)
      rw [if_neg fun h => Nat.succ_ne_zero _ h.2]

theorem makeQuery_ne_nil {name : List Char} (now : Nat) (hs : ShortLabels name)
    (hv : validName name = true) :
    ∃ query, makeQuery now name typeA = .ret query ∧ query.length ≠ 0 := by
  have hlen : name.length ≤ 254 := by
    by_contra hlong
    rw [validName, if_pos (.inl (by omega))] at hv
    cases hv
  obtain ⟨w, hw, hret⟩ := host2qname_encoded hs (by omega)
  have hpos := hw.length_pos
  have hle := hw.length_le
  refine ⟨b64urlEncode (queryHeader (now % 0xffff) ++ w ++ be16 typeA ++ be16 classIN), ?_, ?_⟩
  · rw [makeQuery, hret, Outcome.ret_bind]
    exact if_neg (by omega)
  · have hsrc : (queryHeader (now % 0xffff) ++ w ++ be16 typeA ++ be16 classIN).length =
        16 + w.length := by
      simp [queryHeader]
      omega
    rw [b64urlEncode, if_neg (by omega)]
    have hloop := length_b64Loop (queryHeader (now % 0xffff) ++ w ++ be16 typeA ++ be16 classIN)
      0 0 []
    rw [if_neg] at hloop
    · omega
    · rintro ⟨hnil, -⟩
      rw [hnil, List.length_nil] at hsrc
      omega

end Query

section Get

variable {name : List Char} {rp : Reply}

theorem Reply.WellFormed.shortLabels (hw : rp.WellFormed name) : ShortLabels name := by
  rcases hw.question with h | h
  · exact ((shortLabels_text _).congr h.symm).of_append
  · exact (shortLabels_text _).congr h.symm

/-- What the read of the head brings. -/
theorem Reply.WellFormed.head_read (hw : rp.WellFormed name) :
    ∃ rest segs, Feed.pullUntil crlfcrlf [] rp.segments =
        some (rp.head ++ rest, rp.head.length, segs) ∧ rest ++ segs.flatten = rp.body := by
  obtain ⟨i, hi, hlen⟩ := hw.head
  rw [← hw.segments] at hi
  have hnone : ¬ crlfcrlf <:+: ([] : List Char) := by decide
  obtain ⟨r, n, segs, hp⟩ := Feed.exists_pullUntil hnone (Search.isInfix_of_find hi)
  obtain ⟨hn, htake, j, hj, rfl⟩ := Feed.take_of_pullUntil hp
  obtain ⟨hr, -⟩ := Feed.pullUntil_spec hp
  rw [List.nil_append] at htake hj hr
  rw [hj] at hi
  obtain rfl := Option.some.inj hi
  have h4 : crlfcrlf.length = 4 := rfl
  rw [h4, ← hlen] at hp hn htake
  rw [hw.segments, List.take_left] at htake
  have hsplit : rp.head ++ r.drop rp.head.length = r := by
    have h := List.take_append_drop rp.head.length r
    rw [htake] at h
    exact h
  refine ⟨r.drop rp.head.length, segs, by rw [hsplit]; exact hp, ?_⟩
  rw [← hsplit, hw.segments, List.append_assoc] at hr
  exact List.append_cancel_left hr

/-- `get_some` on one block. -/
theorem getSome_block {m : Memory} {r : List Char} (h : m.buffs = [⟨0, r⟩]) :
    m.getSome = if narrow m.readIndex < r.length then r.drop m.readIndex else [] := by
  unfold getSome MemBlock.find
  rw [h]
  by_cases hlt : narrow m.readIndex < r.length
  · simp [MemBlock.ltKey, MemBlock.keyLt, hlt]
  · simp [MemBlock.ltKey, hlt]

theorem wf_written (rp : Reply) (request : List Char) : (rp.memory.asyncWriteAll request).WF := by
  show (rp.memory.takes [request]).WF
  exact (wf_fresh .ssl rp.segments rp.room).takes _

/-- The memory behind the head: the rest of what was read with it is unread, and
`get_some` gives it, or nothing. -/
theorem memory_behind_head (rp : Reply) (request rest : List Char) (segs : List (List Char))
    (hne : rp.head ++ rest ≠ []) :
    ∃ m, ((rp.memory.asyncWriteAll request).append (rp.head ++ rest) segs).removeSome
        rp.head.length = m ∧
      m.WF ∧ m.unread = rest ∧ m.incoming = segs ∧
      m.getSome = if rest = [] ∨ narrow rp.head.length < (rp.head ++ rest).length then rest
        else [] := by
  have hwf := wf_written rp request
  obtain ⟨hbuffs, hread, hwrite, -⟩ := takes_buffer rp.memory [request]
  rw [takes_cons, takes_nil] at hbuffs hread hwrite
  generalize rp.memory.asyncWriteAll request = m1 at hwf hbuffs hread hwrite ⊢
  have hbuffs : m1.buffs = [] := hbuffs
  have hread : m1.readIndex = 0 := hread
  have hwrite : m1.writeIndex = 0 := hwrite
  have hu : (m1.append (rp.head ++ rest) segs).unread = rp.head ++ rest := by
    rw [unread_append hwf, unread, hbuffs]
    simp
  obtain ⟨hwf2, hu2⟩ := removeSome_spec (hwf.append hne segs) (n := rp.head.length) (by
    rw [hu, List.length_append]
    omega)
  rw [hu, List.drop_left] at hu2
  refine ⟨_, rfl, hwf2, hu2, rfl, ?_⟩
  have hindex : ((m1.append (rp.head ++ rest) segs).removeSome rp.head.length).readIndex =
      rp.head.length := by
    rw [removeSome, append_readIndex, hread, Nat.zero_add]
  by_cases hrest : rest = []
  · rw [if_pos (.inl hrest)]
    have hnil := hwf2.buffs_eq_nil (hu2.trans hrest)
    rw [getSome, hnil, hrest]
    rfl
  · have hblock : ((m1.append (rp.head ++ rest) segs).removeSome rp.head.length).buffs =
        [⟨0, rp.head ++ rest⟩] := by
      simp only [removeSome, append_buffs, append_readIndex, hbuffs, hread, hwrite,
        List.nil_append, Nat.zero_add]
      have hlong : ¬ 0 + (rp.head ++ rest).length ≤ rp.head.length := by
        have hpos := List.length_pos_of_ne_nil hrest
        rw [List.length_append]
        omega
      rw [List.dropWhile_cons_of_neg (by rw [decide_eq_true_eq]; exact hlong)]
    rw [getSome_block hblock, hindex, List.drop_left]
    by_cases hlt : narrow rp.head.length < (rp.head ++ rest).length
    · rw [if_pos hlt, if_pos (.inr hlt)]
    · rw [if_neg hlt, if_neg]
      rintro (h | h)
      · exact hrest h
      · exact hlt h

/-- A body behind the head, with its length, is the message. -/
theorem parseRfc8484_counted (name : List Char) (type : Nat) (result : DnsReply)
    (head : List Char) {body : List Char} (hne : body ≠ []) :
    parseRfc8484 name type result (head ++ body) (some head.length) body.length =
      parseMessage name type result body := by
  have hpos := List.length_pos_of_ne_nil hne
  rw [parseRfc8484, replyBody]
  simp only [List.drop_left]
  rw [if_pos hpos, if_neg (by rw [List.length_append]; omega), if_neg (Nat.lt_irrefl _),
    Outcome.ret_bind]

/-- **A reply whose body is taken** is parsed, or waited for without end when the bytes
that came with the head are not found. -/
theorem getA_fetched (hw : rp.WellFormed name) (h : rp.fetched name = true) :
    ∃ rest segs, Feed.pullUntil crlfcrlf [] rp.segments =
        some (rp.head ++ rest, rp.head.length, segs) ∧
      getA rp.memory rp.host rp.now name [] =
        if rest = [] ∨ narrow rp.head.length < (rp.head ++ rest).length then
          parseMessage name typeA [] rp.msg.bytes >>= fun p => .ret (0, p.2)
        else .spins := by
  obtain ⟨hv, hcl⟩ := Bool.and_eq_true_iff.mp h
  obtain ⟨cl, hcl⟩ := Option.isSome_iff_exists.mp hcl
  obtain ⟨rfl, hbody⟩ := hw.counted cl hcl
  obtain ⟨rest, segs, hp, hflat⟩ := hw.head_read
  refine ⟨rest, segs, hp, ?_⟩
  obtain ⟨query, hquery, hlen⟩ := makeQuery_ne_nil rp.now hw.shortLabels hv
  have hsize := hw.msg.size
  have hhead : 4 ≤ rp.head.length := by
    obtain ⟨i, -, hi⟩ := hw.head
    omega
  have hne : rp.head ++ rest ≠ [] := by
    intro hnil
    rw [List.append_eq_nil_iff] at hnil
    rw [hnil.1, List.length_nil] at hhead
    omega
  have hwf := wf_written rp (getRequest rp.host query)
  have hinc : (rp.memory.asyncWriteAll (getRequest rp.host query)).incoming = rp.segments :=
    (takes_buffer rp.memory [getRequest rp.host query]).2.2.2
  obtain ⟨m2, hm2, hwf2, hu2, hinc2, hget⟩ :=
    memory_behind_head rp (getRequest rp.host query) rest segs hne
  rw [getA, get, if_neg (by rw [hv]; exact not_not.mpr rfl), hquery, Outcome.ret_bind,
    if_neg hlen]
  simp only
  rw [asyncLoadUntil_of_pull hwf (by decide) (by decide) (by rw [hinc]; exact hp),
    Outcome.ret_bind]
  simp only [List.take_left, hm2, hcl]
  rw [if_neg (by omega), hget]
  have hlenbody := congrArg List.length hflat
  rw [hbody, List.length_append] at hlenbody
  by_cases hfinds : rest = [] ∨ narrow rp.head.length < (rp.head ++ rest).length
  · rw [if_pos hfinds, if_pos hfinds]
    obtain ⟨hwf3, hu3⟩ := removeSome_spec hwf2 (n := rest.length) (by rw [hu2])
    rw [hu2, List.drop_length] at hu3
    have hinc3 : (m2.removeSome rest.length).incoming = segs := hinc2
    have hmissing : rest.length + (m2.removeSome rest.length).incoming.flatten.length =
        rp.msg.bytes.length := by
      rw [hinc3]
      exact hlenbody
    obtain ⟨m4, hloop⟩ := bodyLoop_all (rp.msg.bytes.length + 1) (rp.head ++ rest) rest.length
      hwf3 hu3 hmissing (by omega)
    rw [hinc3, List.append_assoc, hflat, hbody] at hloop
    rw [hloop, Outcome.ret_bind]
    simp only
    have hmsg : rp.msg.bytes ≠ [] := List.append_ne_nil_of_left_ne_nil (List.cons_ne_nil _ _) _
    rw [parseRfc8484_counted name typeA [] rp.head hmsg]
  · rw [if_neg hfinds, if_neg hfinds]
    have hrest : rest ≠ [] := fun h => hfinds (.inl h)
    have hpos := List.length_pos_of_ne_nil hrest
    obtain ⟨hwf3, -⟩ := removeSome_spec hwf2 (n := ([] : List Char).length) (Nat.zero_le _)
    have hinc3 : (m2.removeSome ([] : List Char).length).incoming = segs := hinc2
    rw [bodyLoop_short _ _ _ hwf3 (by rw [hinc3, List.length_nil]; omega)]
    rfl

/-- A reply whose body is not taken leaves the answers as they are. -/
theorem getA_unfetched (hw : rp.WellFormed name) (h : rp.fetched name = false) :
    getA rp.memory rp.host rp.now name [] = .ret (-1, []) := by
  rw [getA, get]
  cases hv : validName name with
  | false => rfl
  | true =>
    rw [Reply.fetched, hv, Bool.true_and] at h
    have hcl : contentLength rp.head = none := by
      cases hcl : contentLength rp.head with
      | none => rfl
      | some cl =>
        rw [hcl] at h
        cases h
    obtain ⟨rest, segs, hp, -⟩ := hw.head_read
    obtain ⟨query, hquery, hlen⟩ := makeQuery_ne_nil rp.now hw.shortLabels hv
    have hinc : (rp.memory.asyncWriteAll (getRequest rp.host query)).incoming = rp.segments :=
      (takes_buffer rp.memory [getRequest rp.host query]).2.2.2
    rw [if_neg (not_not.mpr rfl), hquery, Outcome.ret_bind, if_neg hlen]
    simp only
    rw [asyncLoadUntil_of_pull (wf_written rp _) (by decide) (by decide) (by rw [hinc]; exact hp),
      Outcome.ret_bind]
    simp only [List.take_left, hcl]

/-! ## The answers of a reply -/

/-- The records of the reply that the loop goes past. -/
def Reply.passed (rp : Reply) : List (Nat × Record) := walked rp.msg.bytes rp.msg.placedRecords

/-- The queried name as the reply's question has it, in lower case. -/
def Reply.fqdn (rp : Reply) : List Char := lcs (text rp.msg.question)

/-- Nothing undefined is met among the records. -/
structure Reply.Defined (rp : Reply) : Prop where
  dangling : ∀ p ∈ rp.passed, dangling rp.msg.bytes rp.fqdn p = false
  misread : ∀ p ∈ stopper rp.msg.bytes rp.msg.placedRecords, misread rp.msg.bytes p.1 = false

def Reply.answers (name : List Char) (rp : Reply) : DnsReply :=
  if rp.looked name then rp.passed.filterMap (answerOf rp.msg.bytes rp.fqdn) else []

theorem finds_iff {rest : List Char} {segs : List (List Char)}
    (hp : Feed.pullUntil crlfcrlf [] rp.segments =
      some (rp.head ++ rest, rp.head.length, segs)) :
    rp.Finds ↔ rest = [] ∨ narrow rp.head.length < (rp.head ++ rest).length := by
  have hnil : (rp.head ++ rest).length = rp.head.length ↔ rest = [] := by
    rw [List.length_append, ← List.length_eq_zero_iff]
    omega
  constructor
  · intro h
    rcases h _ _ _ hp with h | h
    · exact .inl (hnil.mp h)
    · exact .inr h
  · intro h r n segs' hp'
    rw [hp] at hp'
    cases hp'
    rcases h with h | h
    · exact .inl (hnil.mpr h)
    · exact .inr h

/-- **What `get_A` gives for a well-formed reply.** -/
theorem getA_eq_ret_iff (hw : rp.WellFormed name) {dr : DnsReply} :
    (∃ v, getA rp.memory rp.host rp.now name [] = .ret (v, dr)) ↔
      (rp.fetched name = true → rp.Finds) ∧ (rp.looked name = true → rp.Defined) ∧
        dr = rp.answers name := by
  cases hf : rp.fetched name with
  | false =>
    have hl : rp.looked name = false := by
      rw [Reply.looked, hf, Bool.false_and]
    rw [getA_unfetched hw hf, Reply.answers, hl]
    simp [eq_comm]
  | true =>
    obtain ⟨rest, segs, hp, hget⟩ := getA_fetched hw hf
    by_cases hfinds : rp.Finds
    · have hsnd : ∀ x : Outcome (Int × DnsReply), (∃ v, (x >>= fun p => .ret ((0 : Int), p.2)) =
          .ret (v, dr)) ↔ (x >>= fun p => .ret p.2) = .ret dr := by
        intro x
        cases x <;> simp
      rw [hget, if_pos ((finds_iff hp).mp hfinds), hsnd, parseMessage_scan hw.msg]
      by_cases hq : lcs (name ++ ['.']) = lcs (text rp.msg.question)
      · have hl : rp.looked name = true := by
          rw [Reply.looked, hf, Bool.true_and]
          exact decide_eq_true hq
        rw [if_pos hq, scan_eq_ret_iff, Reply.answers, if_pos hl, List.nil_append]
        constructor
        · rintro ⟨h1, h2, h3⟩
          exact ⟨fun _ => hfinds, fun _ => ⟨h1, h2⟩, h3⟩
        · rintro ⟨-, hd, h3⟩
          exact ⟨(hd hl).dangling, (hd hl).misread, h3⟩
      · have hl : rp.looked name = false := by
          rw [Reply.looked, hf, Bool.true_and]
          exact decide_eq_false hq
        rw [if_neg hq, Reply.answers, hl]
        simp [hfinds, eq_comm]
    · rw [hget, if_neg fun h => hfinds ((finds_iff hp).mpr h)]
      simp [hfinds]

end Get

end Hcpp.Dns
