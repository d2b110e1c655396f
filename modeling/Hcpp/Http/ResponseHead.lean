import Hcpp.Http.HttpSvcKeeper
import Hcpp.Mem.BlockBuffer

/-!
# Where the response head is read

The lengths of the status line and of the header block are those of the head
the last load *delivered*; the bytes are taken at the read position.  The two
agree when nothing was cached, and otherwise only by coincidence:
`parserResponse_exact_iff` states the coincidence that is needed.
-/

namespace Hcpp

open Memory

/-- The head of the bytes `s`: up to and including the first CRLFCRLF. -/
def IsHead (e s : List Char) : Prop :=
  ∃ i, Search.find crlfcrlf s = some i ∧ e = s.take (i + 4)

/-- The parsers take `e` off the memory and keep it in the response. -/
def ReadsHead (m : Memory) (e : List Char) : Prop :=
  ∃ m' r accepted, parserResponse m = .ret (m', r, accepted) ∧
    r.responseLine ++ r.responseHeaderStr = e ∧ m'.stream = m.stream.drop e.length

/-- The length of the status line of the head that was delivered. -/
def lineLength (e r : List Char) : Nat := (firstLine (r.take e.length)).length

/-- What the load must deliver for that: a head as long as `e`, whose status line
begins `e`; the rest of `e` must then be in the block `get_some` finds, and
`parser_header` must accept it. -/
structure Delivers (m : Memory) (e r : List Char) (incoming : List (List Char)) : Prop where
  load : Feed.pullUntil crlfcrlf [] m.incoming = some (r, e.length, incoming)
  status : firstLine (r.take e.length) <+: e
  block : e.drop (lineLength e r) <+: ((m.append r incoming).removeSome (lineLength e r)).getSome
  accepted : ∃ h, parserHeader ((e.drop (lineLength e r)).take (e.length - lineLength e r - 2)) [] =
    .ret (true, h)

/-- The first line of a head ends at least two bytes before the head. -/
theorem length_firstLine {t e : List Char} (he : IsHead e t) :
    (firstLine e).length + 2 ≤ e.length ∧ firstLine e <+: e ∧ ¬ crlfcrlf <:+: firstLine e := by
  obtain ⟨i, hi, rfl⟩ := he
  have hle := Search.find_add_length_le hi
  have h4 : crlfcrlf.length = 4 := rfl
  rw [h4] at hle
  have hlen : (t.take (i + 4)).length = i + 4 := by
    rw [List.length_take]
    omega
  obtain ⟨-, hp, -⟩ := Search.find_eq_some_iff.mp (Search.find_take hi)
  rw [h4] at hp
  -- CRLF occurs where CRLFCRLF does, and its first occurrence is no later
  have hcr : crlf <+: (t.take (i + 4)).drop i := List.IsPrefix.trans (by decide) hp
  obtain ⟨p, hf⟩ := Search.exists_find (hcr.isInfix.trans (List.drop_suffix _ _).isInfix)
  obtain ⟨-, -, hmin⟩ := Search.find_eq_some_iff.mp hf
  have hpi : p ≤ i := by
    by_contra hlt
    exact hmin i (by omega) hcr
  have hline : firstLine (t.take (i + 4)) = (t.take (i + 4)).take (p + 2) := by
    simp only [firstLine, hf]
  refine ⟨?_, ?_, ?_⟩
  · rw [hline, List.length_take, hlen]
    omega
  · rw [hline]
    exact List.take_prefix _ _
  · rw [hline]
    intro hin
    obtain ⟨k, hk⟩ := Search.exists_find hin
    have hkle := Search.find_add_length_le hk
    rw [List.length_take, hlen, h4] at hkle
    obtain ⟨-, hk', -⟩ := Search.find_eq_some_iff.mp hk
    apply hmin k (by omega)
    apply List.IsPrefix.trans (List.IsPrefix.trans (by decide) hk')
    exact (List.take_prefix _ _).drop k

theorem isHead_of_pullUntil {r : List Char} {n : Nat} {segs segs' : List (List Char)}
    (hp : Feed.pullUntil crlfcrlf [] segs = some (r, n, segs')) :
    n ≤ r.length ∧ 4 ≤ n ∧ IsHead (r.take n) r := by
  obtain ⟨-, i, hi, rfl⟩ := Feed.pullUntil_spec hp
  have hle := Search.find_add_length_le hi
  have h4 : crlfcrlf.length = 4 := rfl
  exact ⟨hle, by omega, i, hi, by rw [h4]⟩

/-- The read that brings a head, the head in it, and its first line. -/
theorem lengths_of_pullUntil {r : List Char} {n : Nat} {segs segs' : List (List Char)}
    (hp : Feed.pullUntil crlfcrlf [] segs = some (r, n, segs')) :
    r ≠ [] ∧ n ≤ r.length ∧ (r.take n).length = n ∧ (firstLine (r.take n)).length + 2 ≤ n := by
  obtain ⟨hn, hn4, hhead⟩ := isHead_of_pullUntil hp
  obtain ⟨hll, -, -⟩ := length_firstLine hhead
  have hlen : (r.take n).length = n := by
    rw [List.length_take]
    omega
  rw [hlen] at hll
  refine ⟨?_, hn, hlen, hll⟩
  rintro rfl
  rw [List.length_nil] at hn
  omega

/-- The parsers, when a head is delivered. -/
theorem parserResponse_of_load {m : Memory} (h : m.WF) {r : List Char} {n : Nat}
    {incoming : List (List Char)}
    (hp : Feed.pullUntil crlfcrlf [] m.incoming = some (r, n, incoming)) (line : List Char)
    (hline : line = firstLine (r.take n)) (m1 : Memory)
    (hm1 : m1 = (m.append r incoming).removeSome line.length) (hsmall : n < 2 ^ 64) :
    parserResponse m = (do
      let r := { HttpResponse.empty with
        responseLine := line
        responseHeaderStr := m1.getSome.take (n - line.length) }
      let (accepted, headers) ← parserHeader (m1.getSome.take (n - line.length - 2)) []
      if accepted then
        .ret (m1.removeSome (n - line.length), { r with
          headers := headers
          chunkCoding := (bodyFields headers).1
          bodySize := (bodyFields headers).2 }, true)
      else .ret (m1, { r with headers := headers }, false)) := by
  obtain ⟨-, hn, hlen, hll⟩ := lengths_of_pullUntil hp
  rw [← hline] at hll
  have h1 : toSizeT ((n : Int) - line.length - 2) = n - line.length - 2 := by
    unfold toSizeT
    omega
  have h2 : toSizeT (((n - line.length - 2 : Nat) : Int) + 2) = n - line.length := by
    unfold toSizeT
    omega
  rw [parserResponse, parserResponseLine, asyncLoadUntil_of_pull h (by decide) (by decide) hp]
  simp only [Outcome.ret_bind, Outcome.pure_eq, ← hline, hlen, h1, parserResponseHeaders, h2, ← hm1]
  rfl

theorem IsHead.length {e t : List Char} (he : IsHead e t) :
    4 ≤ e.length ∧ e.length ≤ t.length ∧ e <+: t ∧ crlfcrlf <:+: e := by
  obtain ⟨i, hi, rfl⟩ := he
  have hle := Search.find_add_length_le hi
  have h4 : crlfcrlf.length = 4 := rfl
  have hin := Search.isInfix_of_find (Search.find_take hi)
  rw [h4] at hle hin
  refine ⟨?_, ?_, List.take_prefix _ _, hin⟩ <;> rw [List.length_take] <;> omega

/-- A peer that closes before a head is complete leaves the parsers nothing. -/
theorem parserResponse_of_none {m : Memory}
    (hp : Feed.pullUntil crlfcrlf [] m.incoming = none) {m' : Memory} {r : HttpResponse}
    {accepted : Bool} (hret : parserResponse m = .ret (m', r, accepted)) :
    r.responseLine ++ r.responseHeaderStr = [] := by
  have hf : firstLine [] = [] := by decide
  have h1 : toSizeT (((0 : Nat) : Int) - (0 : Nat) - 2) = 2 ^ 64 - 2 := by
    unfold toSizeT
    omega
  have h2 : toSizeT (((2 ^ 64 - 2 : Nat) : Int) + 2) = 0 := by
    unfold toSizeT
    omega
  rw [parserResponse, parserResponseLine, asyncLoadUntil_of_none (by decide) hp] at hret
  simp only [Outcome.ret_bind, Outcome.pure_eq, hf, List.length_nil, h1, parserResponseHeaders, h2,
    List.take_zero, Outcome.bind_eq_ret] at hret
  obtain ⟨⟨ok, headers⟩, -, hret⟩ := hret
  cases ok
  · simp only [Bool.false_eq_true, if_false, Outcome.ret.injEq, Prod.mk.injEq] at hret
    rw [← hret.2.1]
    rfl
  · simp only [if_true, Outcome.ret.injEq, Prod.mk.injEq] at hret
    rw [← hret.2.1]
    rfl

/-- Removing unread bytes removes them from the stream. -/
theorem stream_removeSome {m : Memory} (h : m.WF) {n : Nat} (hn : n ≤ m.unread.length) :
    (m.removeSome n).stream = m.stream.drop n := by
  rw [stream, (removeSome_spec h hn).2, stream, List.drop_append_of_le_length hn]
  rfl

theorem stream_append {m : Memory} (h : m.WF) {r : List Char} {incoming : List (List Char)}
    (hr : r ++ incoming.flatten = m.incoming.flatten) :
    (m.append r incoming).stream = m.stream := by
  rw [stream, unread_append h, append_incoming, List.append_assoc, hr]
  rfl

section Head

variable {m : Memory} {e : List Char}

/-- **What the parsers make of a delivered head**: the header block they accept, and
the memory behind it. -/
theorem parserResponse_of_delivers (h : m.WF) (hsize : e.length < 2 ^ 64) {r : List Char}
    {incoming : List (List Char)} (hd : Delivers m e r incoming) :
    ∃ m' headers, parserHeader
        ((e.drop (lineLength e r)).take (e.length - lineLength e r - 2)) [] = .ret (true, headers) ∧
      parserResponse m = .ret (m', {
        headers := headers
        bodySize := (bodyFields headers).2
        chunkCoding := (bodyFields headers).1
        responseLine := firstLine (r.take e.length)
        responseHeaderStr := e.drop (lineLength e r) }, true) ∧
      m'.WF ∧ m'.unread = (m.unread ++ r).drop e.length ∧ m'.incoming = incoming ∧
      m'.frame = m.frame ∧ m'.writeIndex = m.writeIndex + r.length := by
  obtain ⟨hr, hn, hlen, hll⟩ := lengths_of_pullUntil hd.load
  have hwf := h.append hr incoming
  have hul : (m.append r incoming).unread.length = m.unread.length + r.length := by
    rw [unread_append h, List.length_append]
  obtain ⟨hwf1, hu1⟩ := removeSome_spec hwf (n := lineLength e r) (by rw [lineLength]; omega)
  have hparse := parserResponse_of_load h hd.load _ rfl _ rfl (by omega)
  obtain ⟨headers, hacc⟩ := hd.accepted
  have hblock := List.prefix_iff_eq_take.mp hd.block
  rw [List.length_drop] at hblock
  have htwo : ((m.append r incoming).removeSome (lineLength e r)).getSome.take
      (e.length - lineLength e r - 2) =
        (e.drop (lineLength e r)).take (e.length - lineLength e r - 2) := by
    rw [hblock, List.take_take]
    congr 1
    omega
  have hul1 : e.length - lineLength e r ≤
      ((m.append r incoming).removeSome (lineLength e r)).unread.length := by
    rw [hu1, List.length_drop, lineLength]
    omega
  obtain ⟨hwf2, hu2⟩ := removeSome_spec hwf1 hul1
  unfold lineLength at htwo hblock hacc hwf2 hu1 hu2 ⊢
  rw [htwo, hacc, ← hblock] at hparse
  refine ⟨_, headers, hacc, hparse, hwf2, ?_, rfl, rfl, rfl⟩
  rw [hu2, hu1, unread_append h, List.drop_drop]
  congr 1
  omega

theorem readsHead_of_delivers (h : m.WF) (he : IsHead e m.stream) (hsize : m.stream.length < 2 ^ 64)
    {r : List Char} {incoming : List (List Char)} (hd : Delivers m e r incoming) :
    ReadsHead m e := by
  obtain ⟨-, hele, -, -⟩ := he.length
  obtain ⟨hn, -, -⟩ := isHead_of_pullUntil hd.load
  obtain ⟨m', headers, -, hparse, -, hu, hin, -⟩ := parserResponse_of_delivers h (by omega) hd
  refine ⟨m', _, _, hparse, ?_, ?_⟩
  · have hst := List.prefix_iff_eq_take.mp hd.status
    conv_rhs => rw [← List.take_append_drop (lineLength e r) e]
    unfold lineLength
    rw [← hst]
  · have hflat : r ++ incoming.flatten = m.incoming.flatten := (Feed.pullUntil_spec hd.load).1
    unfold Memory.stream
    rw [hu, hin, ← hflat, ← List.append_assoc]
    refine (List.drop_append_of_le_length ?_).symm
    rw [List.length_append]
    omega

theorem delivers_of_readsHead (h : m.WF) (he : IsHead e m.stream) (hsize : m.stream.length < 2 ^ 64)
    (hr : ReadsHead m e) : ∃ r incoming, Delivers m e r incoming := by
  obtain ⟨m', resp, accepted, hret, hcat, hst⟩ := hr
  obtain ⟨he4, hele, hpre, hin⟩ := he.length
  cases hp : Feed.pullUntil crlfcrlf [] m.incoming with
  | none =>
    rw [← hcat, parserResponse_of_none hp hret] at he4
    simp at he4
  | some x =>
    obtain ⟨r, n, incoming⟩ := x
    obtain ⟨hne, hn, hlen, hll⟩ := lengths_of_pullUntil hp
    obtain ⟨-, -, hno⟩ := length_firstLine (isHead_of_pullUntil hp).2.2
    have hflat : r ++ incoming.flatten = m.incoming.flatten := (Feed.pullUntil_spec hp).1
    have hwf := h.append hne incoming
    have hul : (m.append r incoming).unread.length = m.unread.length + r.length := by
      rw [unread_append h, List.length_append]
    have hns : n ≤ m.stream.length := by
      rw [stream, ← hflat]
      simp only [List.length_append]
      omega
    obtain ⟨hwf1, hu1⟩ := removeSome_spec hwf (n := (firstLine (r.take n)).length) (by omega)
    rw [parserResponse_of_load h hp _ rfl _ rfl (by omega), Outcome.bind_eq_ret] at hret
    obtain ⟨⟨ok, headers⟩, hparse, hret⟩ := hret
    cases ok with
    | false =>
      simp only [Bool.false_eq_true, if_false, Outcome.ret.injEq, Prod.mk.injEq] at hret
      obtain ⟨rfl, rfl, -⟩ := hret
      -- only the line is consumed, and it is no head
      rw [stream_removeSome hwf (by omega), stream_append h hflat] at hst
      have hl := congrArg List.length hst
      have hc := congrArg List.length hcat
      rw [List.length_drop, List.length_drop] at hl
      simp only [List.length_append] at hc
      have hnil := List.eq_nil_of_length_eq_zero (show (((m.append r incoming).removeSome
        (firstLine (r.take n)).length).getSome.take (n - (firstLine (r.take n)).length)).length = 0
          by omega)
      rw [hnil, List.append_nil] at hcat
      rw [← hcat] at hin
      exact absurd hin hno
    | true =>
      simp only [if_true, Outcome.ret.injEq, Prod.mk.injEq] at hret
      obtain ⟨rfl, rfl, -⟩ := hret
      have hul1 : n - (firstLine (r.take n)).length ≤
          ((m.append r incoming).removeSome (firstLine (r.take n)).length).unread.length := by
        rw [hu1, List.length_drop]
        omega
      rw [stream_removeSome hwf1 hul1, stream_removeSome hwf (by omega), stream_append h hflat,
        List.drop_drop] at hst
      have hl := congrArg List.length hst
      rw [List.length_drop, List.length_drop] at hl
      obtain rfl : n = e.length := by omega
      simp only at hcat
      have hcut :
          ((m.append r incoming).removeSome (firstLine (r.take e.length)).length).getSome.take
          (e.length - (firstLine (r.take e.length)).length) =
            e.drop (firstLine (r.take e.length)).length := by
        have := congrArg (List.drop (firstLine (r.take e.length)).length) hcat
        rw [List.drop_left] at this
        exact this
      refine ⟨r, incoming, hp, ⟨_, hcat⟩, ?_, headers, ?_⟩
      · rw [lineLength, ← hcut]
        exact List.take_prefix _ _
      · rw [lineLength, ← hcut, List.take_take, Nat.min_eq_left (by omega)]
        exact hparse

/-- **The head at the read position is read** if and only if the load delivers
one that agrees with it as `Delivers` says. -/
theorem parserResponse_exact_iff (h : m.WF) (he : IsHead e m.stream)
    (hsize : m.stream.length < 2 ^ 64) :
    ReadsHead m e ↔ ∃ r incoming, Delivers m e r incoming :=
  ⟨delivers_of_readsHead h he hsize, fun ⟨_, _, hd⟩ => readsHead_of_delivers h he hsize hd⟩

end Head

/-! ## Two connections -/

theorem parserResponse_exact_fresh :
    ReadsHead (fresh .plain ["HTTP/1.1 200 OK\r\nA: b\r".toList, "\n\r\nxy".toList] none)
      "HTTP/1.1 200 OK\r\nA: b\r\n\r\n".toList := by
  refine (parserResponse_exact_iff (wf_fresh _ _ _) ⟨21, by decide, by decide⟩ (by decide)).mpr ?_
  refine ⟨"HTTP/1.1 200 OK\r\nA: b\r\n\r\nxy".toList, [], by decide, by decide, by decide, ?_⟩
  exact ⟨[("a".toList, "A: b\r\n".toList)], by decide⟩

/-- A `100` head and the final head come in one read: after the first has been
read, the second is not. -/
theorem parserResponse_skips_cached :
    ¬ ∀ (kind : SockKind) (incoming : List (List Char)) (m : Memory) (r : HttpResponse)
      (e : List Char), parserResponse (fresh kind incoming none) = .ret (m, r, true) →
      IsHead e m.stream → ReadsHead m e := by
  intro hall
  let m : Memory := { fresh .plain ["xy".toList] none with
    buffs := [⟨0, "HTTP/1.1 100 C\r\n\r\nHTTP/1.1 200 OK\r\n\r\n".toList⟩]
    readIndex := 18
    writeIndex := 37 }
  let r : HttpResponse := { HttpResponse.empty with
    responseLine := "HTTP/1.1 100 C\r\n".toList
    responseHeaderStr := "\r\n".toList }
  have hret : parserResponse (fresh .plain
      ["HTTP/1.1 100 C\r\n\r\nHTTP/1.1 200 OK\r\n\r\n".toList, "xy".toList] none) =
        .ret (m, r, true) := by decide
  have hwf : m.WF := ⟨⟨rfl, by decide, rfl⟩, by decide, by rintro c cs ⟨⟩; decide⟩
  have he : IsHead "HTTP/1.1 200 OK\r\n\r\n".toList m.stream := ⟨15, by decide, by decide⟩
  obtain ⟨r', inc', hd⟩ := delivers_of_readsHead hwf he (by decide) (hall _ _ m r _ hret he)
  have hnone : Feed.pullUntil crlfcrlf [] m.incoming = none := by decide
  have hload := hd.load
  rw [hnone] at hload
  cases hload

end Hcpp
