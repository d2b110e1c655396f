import Hcpp.Server.OneResponse

/-!
# The requests on a client stream

Two levels: the client's bytes, cut into reads, and the requests they are the
text of.  A pass of `http_do` processes the first request that is left, takes
its bytes off the stream and nothing else, when nothing of it is cached before
the pass: the buffer is reset there (`RequestOk`).  Over a run these are all the
requests, in order (`framing_run`).
-/

namespace Hcpp

open Memory Runs

/-! ## Requests as text -/

/-- `Transfer-Encoding` has the token `chunked`, in any letter case. -/
def RequestHead.Chunked (head : RequestHead) : Prop :=
  ∃ f ∈ fieldsNamed head.lines "transfer-encoding".toList,
    ∃ t ∈ f.tokens, toLower t = "chunked".toList

/-- A request that is not a CONNECT, with the body its head announces. -/
structure ClientRequest where
  head : RequestHead
  body : List Char
  method : head.line.method ≠ "CONNECT".toList
  chunked : head.Chunked → ∃ b : ChunkedBody, body = b.encode
  length : ¬ head.Chunked → ∀ f ∈ fieldsNamed head.lines "content-length".toList,
    f.number = some body.length
  none : ¬ head.Chunked → fieldsNamed head.lines "content-length".toList = [] → body = []

def ClientRequest.encode (q : ClientRequest) : List Char := q.head.encode ++ q.body

/-- The text of the requests, one behind the other. -/
def requestsText (qs : List ClientRequest) : List Char := qs.flatMap ClientRequest.encode

/-- The session, and the requests that are left on the client's stream. -/
structure Framed where
  session : Session
  left : List ClientRequest

def framedStep (h : HttpHandler) (o : HashOrder) (make : HttpRequest) (f : Framed) (p : Pass) :
    Option Framed :=
  (httpDoStep h o make f.session p).map fun s => ⟨s, f.left.tail⟩

/-! ## The condition, and what a pass does under it -/

/-- The mode that is read off stored header fields. -/
def fieldsMode (headers : Headers) : BodyMode :=
  if (bodyFields headers).1 then .chunked
  else if (bodyFields headers).2 > 0 then .length (bodyFields headers).2
  else .none

/-- The upstream of a request answers. -/
structure UpstreamOk (s : Session) (p : Pass) (host service : List Char)
    (is : Option InterceptSet) : Prop where
  answers : ∃ sk w, s.sk.wait p.net host service is = .ret (sk, some w) ∧
    w.writeIndex + w.incoming.flatten.length + 1 < p.fuel ∧ ∃ head body, Responds w head body

/-- When a pass processes `q`: nothing is cached that `reset` would drop; the parsers
take the head; the body is behind it, framed as it is seen; a request without a host,
whose body nobody reads, has none; and another one is answered. -/
structure RequestOk (h : HttpHandler) (make : HttpRequest) (s : Session) (p : Pass)
    (q : ClientRequest) : Prop where
  ok : s.ss.ok = true
  uncached : s.ss.unread = []
  small : s.ss.incoming.flatten.length < 2 ^ 31
  fuel : s.ss.incoming.flatten.length + 1 < p.fuel
  accepted : ∃ own headers, parserLine (q.head.line.text ++ crlf) make = some own ∧
    parserHeader (linesText q.head.lines) make.headers = .ret (true, headers) ∧
    BodyBehind s.ss (fieldsMode headers) q.body ∧
    ((select h s.selected own).2.host = [] → q.body = []) ∧
    ((select h s.selected own).2.host ≠ [] →
      UpstreamOk s p (select h s.selected own).2.host own.port (select h s.selected own).1.is)

/-- The first request that is left meets the condition. -/
def FramedOk (h : HttpHandler) (make : HttpRequest) (f : Framed) (p : Pass) : Prop :=
  ∃ q qs, f.left = q :: qs ∧ RequestOk h make f.session p q

/-- The pass accepts the head of `q`, and behind what was written upstream before goes this
head, as it is rewritten, and the body of `q`, and nothing else. -/
def Processes (h : HttpHandler) (o : HashOrder) (make : HttpRequest) (s : Session) (p : Pass)
    (q : ClientRequest) : Prop :=
  ∃ a es own, acceptHead h s.selected s.ss.reset make = .ret a ∧ a.accepted = true ∧
    AcceptedAs h s.selected make a q.head es own ∧
    ((a.req.host = [] ∧ q.body = [] ∧
        ∃ s', httpDoTurn h o make p.net p.fuel s = .ret (.next s' none)) ∨
      ∃ sk w s' w', s.sk.wait p.net a.req.host a.req.port a.selected.is = .ret (sk, some w) ∧
        httpDoTurn h o make p.net p.fuel s = .ret (.next s' (some w')) ∧
        (w'.writeOk = true → w'.written = w.written ++ reqLine o a.req ++ q.body))

/-- The pass processes the first request that is left. -/
def ProcessesFirst (h : HttpHandler) (o : HashOrder) (make : HttpRequest) (f : Framed) (p : Pass) :
    Prop :=
  ∃ q qs, f.left = q :: qs ∧ Processes h o make f.session p q

/-- What is left on the stream is the text of the requests that are left. -/
structure OnStream (f : Framed) : Prop where
  text : f.session.ss.stream = requestsText f.left
  keeper : f.session.sk.WF

section Pass

variable {h : HttpHandler} {o : HashOrder} {make : HttpRequest} {s : Session} {p : Pass}
  {q : ClientRequest}

/-- The head that is next on the stream, when the parsers take it. -/
theorem acceptHead_encode (sel : Selected) {m : Memory} {head : RequestHead} {x : List Char}
    (hm : m.WF) (hu : m.unread = []) (hidx : m.readIndex = 0)
    (hst : m.incoming.flatten = head.encode ++ x) (hsmall : m.incoming.flatten.length < 2 ^ 31)
    {own : HttpRequest} {headers : Headers}
    (hline : parserLine (head.line.text ++ crlf) make = some own) (hmeth : own.method ≠ .connect)
    (hheaders : parserHeader (linesText head.lines) make.headers = .ret (true, headers)) :
    ∃ a es, acceptHead h sel m make = .ret a ∧ a.accepted = true ∧
      AcceptedAs h sel make a head es own ∧ a.req.headers = headers ∧
      a.req.method ≠ .connect ∧ a.ss.stream = x := by
  obtain ⟨r, incoming, hp, htake, hdrop⟩ := RequestHead.pullUntil_encode hst
  have hlen := congrArg List.length hst
  rw [List.length_append] at hlen
  have hfirst : firstLine (r.take head.encode.length) = head.line.text ++ crlf := by
    rw [htake]
    exact firstLine_block head.line.text_noCrlf _
  have hreqline := parserRequestLine_of_load hm hp (by omega) make
  rw [hfirst, hline] at hreqline
  simp only at hreqline
  obtain ⟨head', hhead', htakes, -, hblock⟩ :=
    parserRequestLine_accepted hm hu hidx hp (by omega) hreqline hmeth
  obtain rfl : head = head' := RequestHead.encode_injective (htake.symm.trans hhead')
  have hsel := select_req h sel own
  have hown : (select h sel own).2.headers = make.headers := by
    rw [hsel]
    exact htakes.headers
  -- so the header parser accepts too
  obtain ⟨m2, req, hblockacc, hreq, hmethod⟩ : ∃ m2 req, parserRequestHeaders
      ((m.append r incoming).removeSome (head.line.text ++ crlf).length) (select h sel own).2
        (head.encode.length - (head.line.text ++ crlf).length - 2) = .ret (m2, some req) ∧
      req.headers = headers ∧ req.method = (select h sel own).2.method := by
    unfold parserRequestHeaders
    rw [hblock, hown, hheaders, Outcome.ret_bind]
    exact ⟨_, _, rfl, rfl, rfl⟩
  obtain ⟨a, ha, hacc, rfl⟩ : ∃ a, acceptHead h sel m make = .ret a ∧ a.accepted = true ∧
      a.req = req := by
    refine ⟨⟨m2, (select h sel own).1, req, true⟩, ?_, rfl, rfl⟩
    unfold acceptHead
    simp only [hreqline, Outcome.ret_bind, hblockacc]
    rfl
  have hmeth' : a.req.method ≠ .connect := by
    rw [hmethod, hsel]
    exact hmeth
  obtain ⟨head'', es, own', hhead'', has, ⟨m1, headerEnd, hline'⟩, htakes'⟩ :=
    acceptHead_spec hm hu hidx hp (by omega) ha hacc hmeth'
  obtain rfl : head = head'' := RequestHead.encode_injective (htake.symm.trans hhead'')
  rw [hreqline] at hline'
  cases hline'
  exact ⟨a, es, ha, hacc, has, hreq, hmeth',
    by rw [stream, htakes'.unread, htakes'.incoming, hdrop]⟩

theorem requestMode_eq {a : Accepted} {sel : Selected} {head : RequestHead} {es : List Entry}
    {own : HttpRequest} (has : AcceptedAs h sel make a head es own) :
    requestMode a.req = fieldsMode a.req.headers := by
  have hbody := has.body
  rw [← has.headers, Prod.ext_iff] at hbody
  unfold requestMode fieldsMode
  rw [← hbody.1, ← hbody.2]

theorem answerLocal_stream (h : HttpHandler) (req : HttpRequest) (ss : Memory) :
    (answerLocal h req ss).stream = ss.stream := by
  have htakes : ∃ ws, answerLocal h req ss = ss.takes ws := by
    unfold answerLocal
    split
    · exact ⟨[_, _], rfl⟩
    · exact ⟨[_], rfl⟩
  obtain ⟨ws, hws⟩ := htakes
  rw [hws]
  exact congrArg Feed.bytes (takes_reads ss ws).1

/-- **A pass processes the request that is next**, and leaves the rest of the stream. -/
theorem processes_pass {x : List Char} (o : HashOrder) (hwf : s.sk.WF)
    (hst : s.ss.stream = q.encode ++ x) (hok : RequestOk h make s p q) :
    Processes h o make s p q ∧
      ∃ s', httpDoStep h o make s p = some s' ∧ s'.ss.stream = x ∧ s'.sk.WF := by
  obtain ⟨own, headers, hline, hheaders, hbody, hlocal, hup⟩ := hok.accepted
  have hsmall := hok.small
  have hfuel := hok.fuel
  have hin : s.ss.reset.incoming.flatten = q.head.encode ++ (q.body ++ x) := by
    rw [stream, hok.uncached, List.nil_append, ClientRequest.encode, List.append_assoc] at hst
    exact hst
  have hmeth : own.method ≠ .connect := by
    rw [parserLine_method hline]
    unfold getMethod
    rw [if_neg q.method]
    intro h
    cases h
  obtain ⟨a, es, ha, hacc, has, hreq, hmethod, hstream⟩ := acceptHead_encode (h := h)
    s.selected (wf_reset s.ss) (unread_reset s.ss) rfl hin hsmall hline hmeth hheaders
  obtain ⟨hss, hoff, -, -, -, hbehind⟩ := accepted_ss hsmall ha hacc
  have hmode := requestMode_eq has
  rw [hreq] at hmode
  have hturn : httpDoTurn h o make p.net p.fuel s = serve h o p.net p.fuel s.sk a :=
    httpDoTurn_of_accepted hok.ok ha hacc
  have hhost := has.host
  have hport := has.port
  have hselected := has.selected
  by_cases hnil : a.req.host = []
  · -- answered here
    have hq : q.body = [] := hlocal (by rw [← hhost, hnil])
    have hserve : serve h o p.net p.fuel s.sk a =
        .ret (.next ⟨answerLocal h a.req a.ss, a.selected, s.sk⟩ none) := by
      unfold serve
      rw [callFor_none.mpr ⟨hmethod, hnil⟩]
    rw [hserve] at hturn
    refine ⟨⟨a, es, own, ha, hacc, has, Or.inl ⟨hnil, hq, _, hturn⟩⟩, _,
      httpDoStep_eq_some.mpr ⟨_, hturn⟩, ?_, hwf⟩
    rw [answerLocal_stream, hstream, hq, List.nil_append]
  · obtain ⟨sk, w, hwait, hwfuel, head, body, hresp⟩ := (hup (by rw [← hhost]; exact hnil)).answers
    rw [← hhost, ← hport, ← hselected] at hwait
    have hw : w.WF := by
      rcases Keeper.wait_cases p.net a.req.host a.req.port a.selected.is s.sk hwf with
        h | ⟨_, u, h, hu⟩
      · rw [hwait] at h
        cases h
      · rw [hwait] at h
        cases h
        exact hu w rfl
    obtain ⟨ss', w', hrelay, hans⟩ := relay_spec o hss (by omega)
      (by rw [hmode]; exact hbehind hbody) (by omega) hw hresp hwfuel
    have hserve : serve h o p.net p.fuel s.sk a =
        .ret (.next ⟨ss', a.selected, sk.put w'⟩ (some w')) := by
      unfold serve
      rw [callFor_wait.mpr ⟨hmethod, hnil, rfl, rfl, rfl⟩]
      simp only [hwait, Outcome.ret_bind, hrelay]
      rfl
    rw [hserve] at hturn
    refine ⟨⟨a, es, own, ha, hacc, has,
      Or.inr ⟨sk, w, _, w', hwait, hturn, hans.sent⟩⟩, _,
      httpDoStep_eq_some.mpr ⟨_, hturn⟩, ?_, Keeper.wf_put hans.wf sk⟩
    rw [hans.stream, hstream]
    exact List.drop_left

/-- The same for a step of the two levels. -/
theorem processes_step {f : Framed} (hi : OnStream f) (hok : FramedOk h make f p) :
    ProcessesFirst h o make f p ∧ ∃ f', framedStep h o make f p = some f' ∧ OnStream f' := by
  obtain ⟨q, qs, hleft, hreq⟩ := hok
  have htext := hi.text
  rw [hleft, requestsText, List.flatMap_cons] at htext
  obtain ⟨hp, s', hstep, hstream, hwf⟩ := processes_pass o hi.keeper htext hreq
  refine ⟨⟨q, qs, hleft, hp⟩, ⟨s', qs⟩, ?_, hstream, hwf⟩
  unfold framedStep
  rw [hstep, hleft]
  rfl

/-- A pass takes one request off those that are left. -/
theorem left_of_run {ps : List Pass} {f f' : Framed}
    (hs : run (framedStep h o make) f ps = some f') : f'.left = f.left.drop ps.length := by
  induction ps generalizing f with
  | nil =>
    rw [run_nil, Option.some.injEq] at hs
    rw [← hs]
    rfl
  | cons p ps ih =>
    obtain ⟨f1, hstep, hrun⟩ := run_cons_eq_some.mp hs
    obtain ⟨s1, -, hf1⟩ := Option.map_eq_some_iff.mp hstep
    rw [ih hrun, ← hf1, List.length_cons, List.drop_tail]

/-- Without an end of headers in the reads to come, no head is accepted. -/
theorem acceptHead_rejects {sel : Selected} {ss : Memory} {a : Accepted}
    (hno : ¬ crlfcrlf <:+: ss.incoming.flatten) (ha : acceptHead h sel ss.reset make = .ret a) :
    a.accepted = false := by
  by_contra hacc
  obtain ⟨m1, req, headerEnd, hline, -⟩ :=
    acceptHead_accepted ha (Bool.eq_true_of_not_eq_false hacc)
  have hpull : Feed.pullUntil crlfcrlf [] ss.reset.incoming = none :=
    Feed.pullUntil_eq_none (show ¬ crlfcrlf <:+: [] ++ ss.incoming.flatten from hno)
  rw [parserRequestLine_of_none hpull] at hline
  cases hline

/-- **The requests of a connection**: in every run whose passes all meet the condition,
each pass processes the request that is next, and what is left on the stream is the
text of those behind; when none is left, no head is accepted any more. -/
theorem framing_run {ss : Memory} {sk : Keeper} (hsk : sk.WF) {reqs : List ClientRequest}
    (hst : ss.stream = requestsText reqs) {ps : List Pass}
    (hC : Meets (framedStep h o make) (FramedOk h make) ⟨.init ss sk, reqs⟩ ps) :
    Meets (framedStep h o make) (ProcessesFirst h o make) ⟨.init ss sk, reqs⟩ ps ∧
      ∃ s, run (framedStep h o make) ⟨.init ss sk, reqs⟩ ps = some ⟨s, reqs.drop ps.length⟩ ∧
        s.ss.stream = requestsText (reqs.drop ps.length) ∧
        (reqs.drop ps.length = [] → ∀ a, acceptHead h s.selected s.ss.reset make = .ret a →
          a.accepted = false) := by
  obtain ⟨⟨⟨s, left⟩, hrun, hon⟩, hP⟩ := run_total (P := ProcessesFirst h o make)
    (fun f p => processes_step) (⟨hst, hsk⟩ : OnStream ⟨.init ss sk, reqs⟩) hC
  obtain rfl : left = reqs.drop ps.length := left_of_run hrun
  refine ⟨hP, s, hrun, hon.text, fun hnil a ha => ?_⟩
  have htext := hon.text
  simp only [hnil] at htext
  obtain ⟨-, hin⟩ := List.append_eq_nil_iff.mp htext
  refine acceptHead_rejects ?_ ha
  rw [hin]
  decide

end Pass

/-! ## Two requests -/

theorem get_noSp : ' ' ∉ "GET".toList := by decide

theorem get_noCrlf : ¬ crlf <:+: "GET".toList := by decide

theorem http11_text : ∀ c ∈ "HTTP/1.1".toList, c ≠ ' ' ∧ c ≠ '\r' ∧ c ≠ '\n' := by decide

theorem urlA_noSp : ' ' ∉ "http://a/".toList := by decide

theorem urlA_noCrlf : ¬ crlf <:+: "http://a/".toList := by decide

/-- `GET target HTTP/1.1`, without header lines. -/
def getClient (target : List Char) (h1 : ' ' ∉ target) (h2 : ¬ crlf <:+: target) :
    ClientRequest where
  head := ⟨⟨"GET".toList, target, "HTTP/1.1".toList, get_noSp, h1, http11_text,
    get_noCrlf, h2⟩, []⟩
  body := []
  method := show "GET".toList ≠ "CONNECT".toList by decide
  chunked := by
    rintro ⟨f, hf, -⟩
    cases hf
  length := by
    intro _ f hf
    cases hf
  none := fun _ _ => rfl

def getA : ClientRequest := getClient "http://a/".toList urlA_noSp urlA_noCrlf

def getB : ClientRequest := getClient "http://b/".toList (by decide) (by decide)

/-- Each in a read of its own: the first is processed, and the second is left. -/
theorem framing_two_reads :
    ∃ s, run (framedStep ⟨[], [], []⟩ ⟨id, List.Perm.refl⟩ (.make [] []))
        ⟨.init (fresh .plain [getA.encode, getB.encode] none) (.httpSvc .init), [getA, getB]⟩
        [⟨fun _ => .accepts fiveBytesPeer none, 100⟩] = some ⟨s, [getB]⟩ ∧
      s.ss.stream = requestsText [getB] := by
  have hsk : (Keeper.httpSvc .init).WF := by rintro w' ⟨⟩
  let ss := fresh .plain [getA.encode, getB.encode] none
  let p : Pass := ⟨fun _ => .accepts fiveBytesPeer none, 100⟩
  have hpull : Feed.pullUntil crlfcrlf [] ss.incoming = some (getA.encode, 26, [getB.encode]) := by
    decide
  have hselect : select ⟨[], [], []⟩ .init (getRequest "a".toList) =
      (⟨"a".toList, "80".toList, some .empty⟩, getRequest "a".toList) := rfl
  have hok : FramedOk ⟨[], [], []⟩ (.make [] []) ⟨.init ss (.httpSvc .init), [getA, getB]⟩ p := by
    refine ⟨getA, [getB], rfl, rfl, rfl, by decide, by decide, getRequest "a".toList, [],
      by decide +kernel, by decide, fun r n incoming hr => ?_, fun hnil => rfl, fun _ => ?_⟩
    · cases hpull.symm.trans hr
      exact ⟨by decide, rfl⟩
    · exact ⟨_, _, rfl, by decide, fiveBytes, "hello".toList, responds_fiveBytes⟩
  have hC : Meets (framedStep ⟨[], [], []⟩ ⟨id, List.Perm.refl⟩ (.make [] []))
      (FramedOk ⟨[], [], []⟩ (.make [] [])) ⟨.init ss (.httpSvc .init), [getA, getB]⟩ [p] :=
    ⟨hok, fun _ _ => trivial⟩
  obtain ⟨-, s, hrun, hst, -⟩ := framing_run hsk (show ss.stream = _ by decide) hC
  exact ⟨s, hrun, hst⟩

/-- Both in one read: the second is dropped with the buffer. -/
theorem framing_one_read :
    ¬ ∀ (incoming : List (List Char)) (reqs : List ClientRequest) (ps : List Pass),
      incoming.flatten = requestsText reqs → ps.length = reqs.length →
      (∀ p ∈ ps, p = ⟨fun _ => .accepts fiveBytesPeer none, 100⟩) →
      Meets (framedStep ⟨[], [], []⟩ ⟨id, List.Perm.refl⟩ (.make [] []))
        (ProcessesFirst ⟨[], [], []⟩ ⟨id, List.Perm.refl⟩ (.make [] []))
        ⟨.init (fresh .plain incoming none) (.httpSvc .init), reqs⟩ ps := by
  intro hall
  let p : Pass := ⟨fun _ => .accepts fiveBytesPeer none, 100⟩
  let s0 : Session := .init (fresh .plain [getA.encode ++ getB.encode] none) (.httpSvc .init)
  let step := httpDoStep ⟨[], [], []⟩ ⟨id, List.Perm.refl⟩ (.make [] []) s0 p
  -- the first pass answers `getA`, and nothing is left to read
  have hread : step.map (·.ss.incoming) = some [] := by decide +kernel
  obtain ⟨s1, hs1, hin⟩ := Option.map_eq_some_iff.mp hread
  have h := hall [getA.encode ++ getB.encode] [getA, getB] [p, p] (by decide) rfl (by simp [p])
  have hnext : framedStep ⟨[], [], []⟩ ⟨id, List.Perm.refl⟩ (.make [] []) ⟨s0, [getA, getB]⟩ p =
      some ⟨s1, [getB]⟩ := by
    unfold framedStep
    rw [show httpDoStep _ _ _ _ _ = some s1 from hs1]
    rfl
  obtain ⟨q, qs, -, a, -, -, ha, htrue, -⟩ := (h.2 _ hnext).1
  have hfalse := acceptHead_rejects (by rw [hin]; decide) ha
  rw [hfalse] at htrue
  cases htrue

end Hcpp
