import Hcpp.Http.HeaderBlock
import Hcpp.Http.LineGrammar
import Hcpp.Http.ResponseHead
import Hcpp.Mem.TransferSpec

/-!
# Taking a request head off the client memory

`http_do` resets the client memory before each head, so the head is read with
nothing cached: `parserRequestLine_of_load` and `parserRequestHeaders_of_load`
say what the two parsers do then.  `TakesHead` collects what holds of the
memory behind an accepted head: the bytes that came behind the head in its last
read are unread, and nothing else is.
-/

namespace Hcpp

open Memory

variable {m : Memory} {r : List Char} {n : Nat} {incoming : List (List Char)}

/-- The request line parser when a head is delivered. -/
theorem parserRequestLine_of_load (h : m.WF)
    (hp : Feed.pullUntil crlfcrlf [] m.incoming = some (r, n, incoming)) (hn : n < 2 ^ 64)
    (req : HttpRequest) :
    parserRequestLine m req =
      match parserLine (firstLine (r.take n)) req with
      | none => .ret (m.append r incoming, none)
      | some req' => .ret ((m.append r incoming).removeSome (firstLine (r.take n)).length,
          some (req', n - (firstLine (r.take n)).length - 2)) := by
  obtain ⟨-, hle, hlen, hll⟩ := lengths_of_pullUntil hp
  have h1 : toSizeT ((n : Int) - (firstLine (r.take n)).length - 2) =
      n - (firstLine (r.take n)).length - 2 := by
    unfold toSizeT
    omega
  rw [parserRequestLine, asyncLoadUntil_of_pull h (by decide) (by decide) hp]
  cases hl : parserLine (firstLine (r.take n)) req with
  | none => simp only [Outcome.ret_bind, Outcome.pure_eq, hl]
  | some req' => simp only [Outcome.ret_bind, Outcome.pure_eq, hlen, h1, hl]

/-- The peer closed before the head was complete. -/
theorem parserRequestLine_of_none (hp : Feed.pullUntil crlfcrlf [] m.incoming = none)
    (req : HttpRequest) :
    parserRequestLine m req = .ret ({ m with readOk := false, incoming := [] }, none) := by
  have hf : firstLine [] = [] := by decide
  have hline : parserLine [] req = none := rfl
  rw [parserRequestLine, asyncLoadUntil_of_none (by decide) hp]
  simp only [Outcome.ret_bind, Outcome.pure_eq, hf, hline]

/-- What an accepted head leaves: `rest` behind it is unread, `incoming` is to come. -/
structure TakesHead (m m' : Memory) (rest : List Char) (incoming : List (List Char)) : Prop where
  wf : m'.WF
  unread : m'.unread = rest
  incoming : m'.incoming = incoming
  frame : m'.frame = m.frame
  offsets : m'.writeIndex + m'.incoming.flatten.length =
    m.writeIndex + m.incoming.flatten.length

/-- Both parsers accept: the head is off the memory. -/
theorem takesHead_of_parsers (h : m.WF) (hu : m.unread = [])
    (hp : Feed.pullUntil crlfcrlf [] m.incoming = some (r, n, incoming)) (hn : n < 2 ^ 64)
    {req req1 req2 req3 : HttpRequest} {headerEnd : Nat} {m1 m2 : Memory}
    (hline : parserRequestLine m req = .ret (m1, some (req1, headerEnd)))
    (hheaders : parserRequestHeaders m1 req2 headerEnd = .ret (m2, some req3)) :
    TakesHead m m2 (r.drop n) incoming := by
  obtain ⟨hne, hle, hlen, hll⟩ := lengths_of_pullUntil hp
  have hwf := h.append hne incoming
  have hur : (m.append r incoming).unread = r := by rw [unread_append h, hu, List.nil_append]
  rw [parserRequestLine_of_load h hp hn] at hline
  cases hpl : parserLine (firstLine (r.take n)) req with
  | none =>
    rw [hpl] at hline
    cases hline
  | some req' =>
    rw [hpl] at hline
    simp only [Outcome.ret.injEq, Prod.mk.injEq, Option.some.injEq] at hline
    obtain ⟨rfl, -, rfl⟩ := hline
    obtain ⟨hwf1, hu1⟩ := removeSome_spec hwf (n := (firstLine (r.take n)).length)
      (by rw [hur]; omega)
    rw [hur] at hu1
    obtain ⟨hwf2, hu2⟩ := removeSome_spec hwf1 (n := n - (firstLine (r.take n)).length)
      (by rw [hu1, List.length_drop]; omega)
    have h2 : toSizeT (((n - (firstLine (r.take n)).length - 2 : Nat) : Int) + 2) =
        n - (firstLine (r.take n)).length := by
      unfold toSizeT
      omega
    rw [parserRequestHeaders, Outcome.bind_eq_ret] at hheaders
    obtain ⟨⟨ok, headers⟩, -, hret⟩ := hheaders
    cases ok with
    | false => simp at hret
    | true =>
      simp only [if_true, h2, Outcome.pure_eq, Outcome.ret.injEq, Prod.mk.injEq] at hret
      obtain ⟨rfl, -⟩ := hret
      refine ⟨hwf2, ?_, rfl, rfl, ?_⟩
      · rw [hu2, hu1, List.drop_drop]
        congr 1
        omega
      · have hflat := congrArg List.length (Feed.pullUntil_spec hp).1
        rw [List.length_append, List.nil_append] at hflat
        show m.writeIndex + r.length + incoming.flatten.length = _
        omega

/-! ## The head as text -/

structure RequestHead where
  line : RequestLine
  lines : List HeaderLine

def RequestHead.encode (head : RequestHead) : List Char :=
  head.line.text ++ crlf ++ (linesText head.lines ++ crlf)

/-- A head is read back in one way, and ends where it ends. -/
theorem RequestHead.encode_cut {a b : RequestHead} {x y : List Char}
    (h : a.encode ++ x = b.encode ++ y) : a = b ∧ x = y := by
  unfold encode at h
  rw [List.append_assoc (_ ++ crlf), List.append_assoc (_ ++ crlf)] at h
  obtain ⟨hline, hrest⟩ := crlf_cut a.line.text_noCrlf b.line.text_noCrlf h
  obtain ⟨hlines, hxy⟩ := linesText_cut hrest
  cases a
  cases b
  refine ⟨?_, hxy⟩
  rw [RequestHead.mk.injEq]
  exact ⟨RequestLine.text_injective hline, hlines⟩

theorem RequestHead.encode_injective {a b : RequestHead} (h : a.encode = b.encode) : a = b :=
  (encode_cut (x := []) (y := []) (by rw [h])).1

theorem RequestHead.ends_crlfcrlf (head : RequestHead) :
    ∃ s, head.encode = s ++ crlfcrlf := by
  unfold encode
  rcases List.eq_nil_or_concat head.lines with hnil | ⟨ls, l, hl⟩
  · refine ⟨head.line.text, ?_⟩
    rw [hnil]
    simp [crlf, crlfcrlf]
  · refine ⟨head.line.text ++ crlf ++ linesText ls ++ l.text, ?_⟩
    rw [hl]
    simp [crlf, crlfcrlf]

/-- The first CRLFCRLF of a stream that begins with a head ends the head. -/
theorem RequestHead.find_encode (head : RequestHead) (x : List Char) :
    ∃ i, Search.find crlfcrlf (head.encode ++ x) = some i ∧ i + 4 = head.encode.length := by
  obtain ⟨s, hs⟩ := head.ends_crlfcrlf
  obtain ⟨i, hi⟩ : ∃ i, Search.find crlfcrlf (head.encode ++ x) = some i := by
    apply Search.exists_find
    exact ⟨s, x, by rw [hs]⟩
  have hle := Search.find_add_length_le hi
  have h4 : crlfcrlf.length = 4 := rfl
  rw [h4] at hle
  refine ⟨i, hi, ?_⟩
  -- what is cut there is a line and a block again
  obtain ⟨t, ls, hblock, ht⟩ := exists_block (Search.find_take hi)
    (show ((head.encode ++ x).take (i + 4)).length = i + 4 by rw [List.length_take]; omega)
  have hsplit := List.take_append_drop (i + 4) (head.encode ++ x)
  rw [show i + crlfcrlf.length = i + 4 from rfl] at hblock
  rw [hblock] at hsplit
  unfold encode at hsplit
  rw [List.append_assoc (_ ++ crlf), List.append_assoc (head.line.text ++ crlf)] at hsplit
  obtain ⟨rfl, hrest⟩ := crlf_cut ht head.line.text_noCrlf hsplit
  obtain ⟨rfl, -⟩ := linesText_cut hrest
  have hlen := congrArg List.length hblock
  rw [List.length_take] at hlen
  unfold encode
  omega

/-- The load of a head that is next on the stream. -/
theorem RequestHead.pullUntil_encode {head : RequestHead} {x : List Char} {segs : List (List Char)}
    (h : segs.flatten = head.encode ++ x) :
    ∃ r incoming, Feed.pullUntil crlfcrlf [] segs = some (r, head.encode.length, incoming) ∧
      r.take head.encode.length = head.encode ∧
      r.drop head.encode.length ++ incoming.flatten = x := by
  obtain ⟨i, hi, hlen⟩ := head.find_encode x
  have hin : crlfcrlf <:+: [] ++ segs.flatten := by
    rw [List.nil_append, h]
    exact Search.isInfix_of_find hi
  obtain ⟨r, n, incoming, hp⟩ := Feed.exists_pullUntil (by decide) hin
  obtain ⟨hn, htake, j, hj, hnj⟩ := Feed.take_of_pullUntil hp
  have hflat := (Feed.pullUntil_spec hp).1
  rw [List.nil_append, h] at hj htake hflat
  rw [hi, Option.some.injEq] at hj
  have h4 : crlfcrlf.length = 4 := rfl
  obtain rfl : n = head.encode.length := by omega
  refine ⟨r, incoming, hp, by rw [htake, List.take_left], ?_⟩
  have hdrop := congrArg (List.drop head.encode.length) hflat
  rw [List.drop_append_of_le_length hn, List.drop_left] at hdrop
  exact hdrop

theorem firstLine_block {s : List Char} (hs : ¬ crlf <:+: s) (t : List Char) :
    firstLine (s ++ crlf ++ t) = s ++ crlf := by
  have hfind : Search.find crlf (s ++ crlf ++ t) = some s.length :=
    Search.find_pair_end (by decide) hs t
  unfold firstLine
  rw [hfind]
  exact List.take_left' (by rw [List.length_append]; rfl)

/-- **An accepted head**: the text that was loaded is a request line and a block, the
line gives the request its fields, and the block is what the header parser finds. -/
theorem parserRequestLine_accepted (h : m.WF) (hu : m.unread = []) (hidx : m.readIndex = 0)
    (hp : Feed.pullUntil crlfcrlf [] m.incoming = some (r, n, incoming)) (hn : n < 2 ^ 31)
    {req req1 : HttpRequest} {headerEnd : Nat} {m1 : Memory}
    (hline : parserRequestLine m req = .ret (m1, some (req1, headerEnd)))
    (hm : req1.method ≠ .connect) :
    ∃ head : RequestHead, r.take n = head.encode ∧ TakesLine head.line req req1 ∧
      headerEnd = (linesText head.lines).length ∧
      m1.getSome.take headerEnd = linesText head.lines := by
  obtain ⟨-, -, i, hi, hcut⟩ := isHead_of_pullUntil hp
  obtain ⟨hne, hle, hlen, -⟩ := lengths_of_pullUntil hp
  have hii : i + 4 = n := by
    have h4 := Search.find_add_length_le hi
    have hc : crlfcrlf.length = 4 := rfl
    have := congrArg List.length hcut
    rw [hlen, List.length_take] at this
    omega
  obtain ⟨s, ls, hblock, hs⟩ := exists_block (by rw [hcut]; exact Search.find_take hi)
    (show (r.take n).length = i + 4 by omega)
  have hfirst : firstLine (r.take n) = s ++ crlf := by
    rw [hblock]
    exact firstLine_block hs _
  have hblen := congrArg List.length hblock
  have hc : crlf.length = 2 := rfl
  rw [hlen] at hblen
  simp only [List.length_append, hc] at hblen
  rw [parserRequestLine_of_load h hp (by omega), hfirst] at hline
  cases hpl : parserLine (s ++ crlf) req with
  | none =>
    rw [hpl] at hline
    cases hline
  | some req' =>
    rw [hpl] at hline
    simp only [Outcome.ret.injEq, Prod.mk.injEq, Option.some.injEq] at hline
    obtain ⟨rfl, rfl, rfl⟩ := hline
    obtain ⟨l, rfl, htakes⟩ := parserLine_accepted hs hpl hm
    have hL : (l.text ++ crlf).length = l.text.length + 2 := by rw [List.length_append, hc]
    have hcut2 : n - (l.text ++ crlf).length - 2 = (linesText ls).length := by omega
    refine ⟨⟨l, ls⟩, hblock, htakes, hcut2, ?_⟩
    have hwf := h.append hne incoming
    have hur : (m.append r incoming).unread = r := by rw [unread_append h, hu, List.nil_append]
    obtain ⟨hwf1, hu1⟩ := removeSome_spec hwf (n := (l.text ++ crlf).length) (by rw [hur]; omega)
    have hone : ((m.append r incoming).removeSome (l.text ++ crlf).length).buffs.length ≤ 1 := by
      apply (length_buffs_removeSome _ _).trans
      rw [append_buffs, h.buffs_eq_nil hu]
      exact Nat.le_refl 1
    have hsmall :
        ((m.append r incoming).removeSome (l.text ++ crlf).length).readIndex < 2 ^ 31 := by
      show m.readIndex + (l.text ++ crlf).length < 2 ^ 31
      omega
    rw [getSome_eq_unread hwf1 hsmall hone, hu1, hur]
    have hrest : (r.drop (l.text ++ crlf).length).take (n - (l.text ++ crlf).length) =
        linesText ls ++ crlf := by
      rw [← List.drop_take, hblock]
      exact List.drop_left
    rw [hcut2]
    calc (r.drop (l.text ++ crlf).length).take (linesText ls).length
        = ((r.drop (l.text ++ crlf).length).take (n - (l.text ++ crlf).length)).take
            (linesText ls).length := by
          rw [List.take_take]
          congr 1
          omega
      _ = linesText ls := by
          rw [hrest]
          exact List.take_left

/-- What the header parser stores of that block. -/
theorem parserRequestHeaders_accepted {m1 m2 : Memory} {ls : List HeaderLine} {headerEnd : Nat}
    {req req' : HttpRequest} (hblock : m1.getSome.take headerEnd = linesText ls)
    (hheaders : parserRequestHeaders m1 req headerEnd = .ret (m2, some req')) :
    ∃ es, entries ls = some es ∧ req' = { req with
      headers := storeEntries req.headers es
      chunkCoding := (bodyFields (storeEntries req.headers es)).1
      bodySize := (bodyFields (storeEntries req.headers es)).2 } := by
  rw [parserRequestHeaders, hblock, Outcome.bind_eq_ret] at hheaders
  obtain ⟨⟨accepted, headers⟩, hp, hret⟩ := hheaders
  cases accepted with
  | false => simp at hret
  | true =>
    obtain ⟨es, hes, rfl⟩ := parserHeader_accepted hp
    simp only [if_true, Outcome.pure_eq, Outcome.ret.injEq, Prod.mk.injEq,
      Option.some.injEq] at hret
    exact ⟨es, hes, hret.2.symm⟩

end Hcpp
