import Hcpp.Server.HttpDo

/-!
# The body `http_do` relays behind a response head

Which body is relayed is settled by what the parser sees of the head and by
whether the upstream is to be closed; neither the request's method nor the
status code are looked at.  `ModeOk` says for which requests and heads this
follows RFC 2616 section 4.4.
-/

namespace Hcpp

open Memory

namespace ResponseHead

/-- The mode `http_do` chooses; `closed` is that of the upstream memory. -/
def relayedMode (head : ResponseHead) (closed : Bool) : BodyMode :=
  responseMode head.parsed (!(closed || asksClose head.parsed.headers))

/-- The connection is taken to end with the body. -/
def Closes (head : ResponseHead) (closed : Bool) : Prop := closed = true ∨ head.SeesClose

theorem asksClose_iff (head : ResponseHead) :
    asksClose head.parsed.headers = true ↔ head.SeesClose := by
  show asksClose (storeEntries [] head.stored) = true ↔ _
  unfold asksClose SeesClose
  rw [find_stored]
  cases lastEntry head.stored "connection".toList with
  | none => simp
  | some e => simp [Search.isSome_find_iff]

/-! ### The four modes -/

section Modes

variable {head : ResponseHead} {closed : Bool}

theorem relayedMode_eq_chunked : head.relayedMode closed = .chunked ↔ head.SeesChunked := by
  rw [← parsed_chunkCoding]
  unfold relayedMode responseMode
  by_cases hc : head.parsed.chunkCoding = true
  · simp [hc]
  · rw [if_neg hc]
    by_cases hb : head.parsed.bodySize > 0
    · simp [hb, hc]
    · rw [if_neg hb]
      by_cases ha : !!(closed || asksClose head.parsed.headers)
      · rw [if_pos ha]
        simp [hc]
      · rw [if_neg ha]
        simp [hc]

theorem relayedMode_of_not_chunked (h : ¬ head.SeesChunked) (closed : Bool) :
    (head.readLength > 0 → head.relayedMode closed = .length head.readLength) ∧
      (head.readLength = 0 → head.Closes closed → head.relayedMode closed = .untilClose) ∧
      (head.readLength = 0 → ¬ head.Closes closed → head.relayedMode closed = .none) := by
  have hb := parsed_bodySize h
  rw [← parsed_chunkCoding] at h
  have ha : (!!(closed || asksClose head.parsed.headers)) = true ↔ head.Closes closed := by
    unfold Closes
    rw [Bool.not_not, Bool.or_eq_true, asksClose_iff]
  unfold relayedMode responseMode
  rw [if_neg h, hb]
  refine ⟨fun hl => if_pos hl, fun hl hcl => ?_, fun hl hcl => ?_⟩
  · rw [if_neg (by omega), if_pos (ha.mpr hcl)]
  · rw [if_neg (by omega), if_neg fun h => hcl (ha.mp h)]

theorem relayedMode_eq_ofLength {n : Nat} :
    head.relayedMode closed = .ofLength n ↔
      ¬ head.SeesChunked ∧ head.readLength = n ∧ (n = 0 → ¬ head.Closes closed) := by
  by_cases hc : head.SeesChunked
  · rw [relayedMode_eq_chunked.mpr hc]
    unfold BodyMode.ofLength
    by_cases hn : n = 0 <;> simp [hn, hc]
  · obtain ⟨h1, h2, h3⟩ := relayedMode_of_not_chunked hc closed
    by_cases hl : head.readLength > 0
    · rw [h1 hl]
      unfold BodyMode.ofLength
      by_cases hn : n = 0
      · simp only [hn, if_true, reduceCtorEq, false_iff]
        omega
      · simp [hn, hc]
    · have h0 : head.readLength = 0 := by omega
      unfold BodyMode.ofLength
      by_cases hcl : head.Closes closed
      · rw [h2 h0 hcl]
        by_cases hn : n = 0
        · simp [hn, hcl]
        · simp [hn, h0, Ne.symm hn]
      · rw [h3 h0 hcl]
        by_cases hn : n = 0
        · simp [hn, hcl, hc, h0]
        · simp [hn, h0, Ne.symm hn]

theorem relayedMode_eq_untilClose :
    head.relayedMode closed = .untilClose ↔
      ¬ head.SeesChunked ∧ head.readLength = 0 ∧ head.Closes closed := by
  by_cases hc : head.SeesChunked
  · rw [relayedMode_eq_chunked.mpr hc]
    simp [hc]
  · obtain ⟨h1, h2, h3⟩ := relayedMode_of_not_chunked hc closed
    by_cases hl : head.readLength > 0
    · rw [h1 hl]
      simp only [reduceCtorEq, false_iff]
      omega
    · have h0 : head.readLength = 0 := by omega
      by_cases hcl : head.Closes closed
      · rw [h2 h0 hcl]
        simp [hc, h0, hcl]
      · rw [h3 h0 hcl]
        simp [hcl]

end Modes

/-- Where the choice follows the RFC: a response that must not have a body is not
given one by its fields; the token `chunked` is spelled so that it is seen, and
is not seen where it is no token; a `Content-Length` is read as the number it is;
and a body without a length comes with a `Connection: close`. -/
structure ModeOk (method : List Char) (head : ResponseHead) (closed : Bool) : Prop where
  bodiless : Bodiless method head →
    ¬ head.SeesChunked ∧ head.readLength = 0 ∧ ¬ head.Closes closed
  chunked : ¬ Bodiless method head → head.Chunked → head.SeesChunked
  length : ¬ Bodiless method head → ¬ head.Chunked →
    ∀ f ∈ fieldsNamed head.lines "content-length".toList, ∀ n, f.number = some n →
      ¬ head.SeesChunked ∧ head.readLength = n ∧ (n = 0 → ¬ head.Closes closed)
  close : ¬ Bodiless method head → ¬ head.Chunked →
    fieldsNamed head.lines "content-length".toList = [] →
      ¬ head.SeesChunked ∧ head.readLength = 0 ∧ head.Closes closed

theorem follows_iff (method : List Char) (head : ResponseHead) (closed : Bool) :
    Follows method head (head.relayedMode closed) ↔ ModeOk method head closed := by
  have hnone : head.relayedMode closed = .none ↔
      ¬ head.SeesChunked ∧ head.readLength = 0 ∧ ¬ head.Closes closed := by
    have h : head.relayedMode closed = .ofLength 0 ↔ _ := relayedMode_eq_ofLength
    simpa [BodyMode.ofLength] using h
  constructor
  · intro hf
    refine ⟨fun hb => hnone.mp (hf.bodiless hb), fun hb hc => ?_, fun hb hc f hf' n hn => ?_,
      fun hb hc hno => ?_⟩
    · exact relayedMode_eq_chunked.mp (hf.chunked hb hc)
    · exact relayedMode_eq_ofLength.mp (hf.length hb hc f hf' n hn)
    · exact relayedMode_eq_untilClose.mp (hf.close hb hc hno)
  · intro hm
    refine ⟨fun hb => hnone.mpr (hm.bodiless hb), fun hb hc => ?_, fun hb hc f hf' n hn => ?_,
      fun hb hc hno => ?_⟩
    · exact relayedMode_eq_chunked.mpr (hm.chunked hb hc)
    · exact relayedMode_eq_ofLength.mpr (hm.length hb hc f hf' n hn)
    · exact relayedMode_eq_untilClose.mpr (hm.close hb hc hno)

end ResponseHead

/-! ## The response as it is relayed -/

/-- Both memories when the head has been relayed. -/
def headRelayed (head : ResponseHead) (w ss : Memory) : Memory × Memory :=
  ((closeBoth head.parsed w ss).1, (closeBoth head.parsed w ss).2.asyncWriteAll head.encode)

theorem alive_closeBoth (rp : HttpResponse) (w ss : Memory) :
    (closeBoth rp w ss).1.alive = !(w.closed || asksClose rp.headers) := by
  unfold closeBoth
  by_cases hc : asksClose rp.headers = true
  · rw [if_pos hc, hc, Bool.or_true]
    rfl
  · rw [if_neg hc, Bool.eq_false_iff.mpr hc, Bool.or_false]
    rfl

section Relay

variable {head : ResponseHead} {w ss : Memory} {r : List Char} {incoming : List (List Char)}

/-- The response behind a delivered head. -/
theorem relayResponse_of_delivers (h : w.WF) (hsize : head.encode.length < 2 ^ 64)
    (hd : Delivers w head.encode r incoming) :
    ∃ w', w'.WF ∧ w'.unread = (w.unread ++ r).drop head.encode.length ∧ w'.incoming = incoming ∧
      w'.frame = w.frame ∧ w'.writeIndex = w.writeIndex + r.length ∧
      ∀ fuel ss, relayResponse fuel w ss = (do
        let (w, ss) ← relayBody fuel (head.relayedMode w.closed)
          (headRelayed head w' ss).1 (headRelayed head w' ss).2
        return (w, ss, true)) := by
  obtain ⟨w', hparse, hwf, hu, hin, hfr, hwi⟩ := ResponseHead.parserResponse_encode h hsize hd
  have hclosed : w'.closed = w.closed := by
    have := congrArg (fun f => f.2.2.2.1) hfr
    exact this
  refine ⟨w', hwf, hu, hin, hfr, hwi, fun fuel ss => ?_⟩
  unfold relayResponse
  rw [hparse]
  simp only [Outcome.ret_bind, if_true]
  have hmsg : head.parsed.responseLine ++ head.parsed.responseHeaderStr = head.encode := rfl
  rw [hmsg, alive_closeBoth, hclosed]
  rfl

/-- **The body that is relayed**, and when it is the one RFC 2616 section 4.4 asks for. -/
theorem relayedMode_follows_iff (h : w.WF) (hsize : head.encode.length < 2 ^ 64)
    (hd : Delivers w head.encode r incoming) (ss : Memory) (method : List Char) :
    (∃ w', w'.unread = (w.unread ++ r).drop head.encode.length ∧ w'.incoming = incoming ∧
      ∀ fuel, relayResponse fuel w ss = (do
        let (w, ss) ← relayBody fuel (head.relayedMode w.closed)
          (headRelayed head w' ss).1 (headRelayed head w' ss).2
        return (w, ss, true))) ∧
      (head.Follows method (head.relayedMode w.closed) ↔ head.ModeOk method w.closed) := by
  obtain ⟨w', -, hu, hin, -, -, hrelay⟩ := relayResponse_of_delivers h hsize hd
  exact ⟨⟨w', hu, hin, fun fuel => hrelay fuel ss⟩, ResponseHead.follows_iff method head w.closed⟩

end Relay

/-- `HTTP/1.1 200 OK` with `Content-Length: 5` -/
def fiveBytes : ResponseHead where
  version := "HTTP/1.1".toList
  code := "200".toList
  reason := "OK".toList
  lines := [⟨"Content-Length: 5".toList, by decide, by decide⟩]
  version_text := by decide
  code_text := by decide
  reason_text := by decide

theorem fiveBytes_modeOk : fiveBytes.ModeOk "GET".toList false := by
  have hte : fieldsNamed fiveBytes.lines "transfer-encoding".toList = [] := rfl
  have hcl : fieldsNamed fiveBytes.lines "content-length".toList =
      [⟨⟨"Content-Length: 5".toList, by decide, by decide⟩, []⟩] := rfl
  have hsees : ¬ fiveBytes.SeesChunked := by
    rintro ⟨e, he, -⟩
    cases (show none = some e from he)
  have hbody : ¬ ResponseHead.Bodiless "GET".toList fiveBytes := by
    unfold ResponseHead.Bodiless
    decide
  refine ⟨fun h => absurd h hbody, fun _ h => ?_, fun _ _ f hf n hn => ?_, fun _ _ h => ?_⟩
  · obtain ⟨f, hf, -⟩ := h
    rw [hte] at hf
    cases hf
  · rw [hcl, List.mem_singleton] at hf
    rw [hf, show Field.number _ = some 5 by decide, Option.some.injEq] at hn
    subst hn
    exact ⟨hsees, by decide, fun h => absurd h (by decide)⟩
  · rw [hcl] at h
    cases h

/-- The response to a GET, delivered in two reads. -/
theorem relayedMode_follows_get :
    fiveBytes.Follows "GET".toList (fiveBytes.relayedMode false) := by
  let w := fresh .plain ["HTTP/1.1 200 OK\r\nContent-Len".toList, "gth: 5\r\n\r\nhe".toList] none
  have hd : Delivers w fiveBytes.encode
      "HTTP/1.1 200 OK\r\nContent-Length: 5\r\n\r\nhe".toList [] := by
    refine ⟨by decide, by decide, by decide, ?_⟩
    exact ⟨[("content-length".toList, "Content-Length: 5\r\n".toList)], by decide⟩
  exact (relayedMode_follows_iff (wf_fresh _ _ _) (by decide) hd (fresh .plain [] none)
    "GET".toList).2.mpr fiveBytes_modeOk

/-- To a HEAD the same response has no body; five bytes are relayed as one. -/
theorem relayedMode_ignores_method :
    ¬ ∀ (method : List Char) (head : ResponseHead),
      head.Follows method (head.relayedMode false) := by
  intro hall
  have h := (hall "HEAD".toList fiveBytes).bodiless (Or.inl rfl)
  revert h
  decide

end Hcpp
