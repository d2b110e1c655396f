import Hcpp.Lib.Runs
import Hcpp.Server.AcceptHead
import Hcpp.Server.HttpDoSteps
import Hcpp.Server.RelayBody

/-!
# One response for a request

A pass of `http_do` that accepts a head answers it with one response when the
page of its own answers it, or when the upstream sends a response whose body is
chosen as RFC 2616 section 4.4 asks for and is all there (`AnswerOk`).  Then
what a connection has written is one response for each head it accepted
(`oneResponse_run`).
-/

namespace Hcpp

open Memory Runs

/-! ## Responses -/

/-- `body` is what the head announces; a body that only the end of the connection
ends is not announced. -/
structure ResponseHead.Announces (method : List Char) (head : ResponseHead) (body : List Char) :
    Prop where
  bodiless : Bodiless method head → body = []
  chunked : ¬ Bodiless method head → head.Chunked → ∃ b : ChunkedBody, body = b.encode
  length : ¬ Bodiless method head → ¬ head.Chunked →
    fieldsNamed head.lines "content-length".toList ≠ [] ∧
      ∀ f ∈ fieldsNamed head.lines "content-length".toList, f.number = some body.length

/-- One status line with its header block and the body that it announces. -/
def IsResponse (method text : List Char) : Prop :=
  ∃ (head : ResponseHead) (body : List Char), text = head.encode ++ body ∧
    head.Announces method body

theorem not_isResponse_nil (method : List Char) : ¬ IsResponse method [] := by
  rintro ⟨head, body, h, -⟩
  have hlen := congrArg List.length h
  have h2 : crlf.length = 2 := rfl
  unfold ResponseHead.encode ResponseHead.statusLine at hlen
  simp only [List.length_nil, List.length_append, h2] at hlen
  omega

/-- The head of `helloPage`. -/
def helloHead : ResponseHead where
  version := "HTTP/1.1".toList
  code := "200".toList
  reason := "OK".toList
  lines := [⟨"Content-Type: text/html; charset=utf-8".toList, by decide, by decide⟩,
    ⟨"Content-Length: 16".toList, by decide, by decide⟩]
  version_text := fiveBytes.version_text
  code_text := fiveBytes.code_text
  reason_text := fiveBytes.reason_text

theorem isResponse_helloPage {method : List Char} (hm : method ≠ "HEAD".toList) :
    IsResponse method helloPage := by
  have hbody : ¬ ResponseHead.Bodiless method helloHead := by
    have hstatus : helloHead.status = 200 := by decide
    unfold ResponseHead.Bodiless
    rw [hstatus]
    rintro (h | h | h | h)
    · exact hm h
    · omega
    · omega
    · omega
  have hte : ¬ helloHead.Chunked := by
    rintro ⟨f, hf, -⟩
    cases hf
  refine ⟨helloHead, "Hello,from http!".toList, by decide, fun h => absurd h hbody,
    fun _ h => absurd h hte, fun _ _ => ?_⟩
  have hcl : fieldsNamed helloHead.lines "content-length".toList =
      [⟨⟨"Content-Length: 16".toList, by decide, by decide⟩, []⟩] := rfl
  rw [hcl]
  refine ⟨by simp, fun f hf => ?_⟩
  rw [List.mem_singleton] at hf
  rw [hf]
  decide

/-- The body that is relayed is the announced one, where the mode follows the RFC
and the end of the body is not that of the connection. -/
theorem announces_of_modeOk {method : List Char} {head : ResponseHead} {closed : Bool}
    {f : Feed Char} {body : List Char} (hm : head.ModeOk method closed)
    (hnum : ∀ f ∈ fieldsNamed head.lines "content-length".toList, ∃ n, f.number = some n)
    (hclose : head.relayedMode closed ≠ .untilClose)
    (hb : BodyAt (head.relayedMode closed) f body) :
    head.Announces method body := by
  have hf := (ResponseHead.follows_iff method head closed).mpr hm
  refine ⟨fun h => ?_, fun h hc => ?_, fun h hc => ⟨fun hno => ?_, fun g hg => ?_⟩⟩
  · have hmoved := hb.moved
    rw [hf.bodiless h] at hmoved
    exact hmoved
  · have hmoved := hb.moved
    rw [hf.chunked h hc] at hmoved
    obtain ⟨b, hbody, -⟩ := hmoved
    exact ⟨b, hbody.symm⟩
  · exact hclose (hf.close h hc hno)
  · obtain ⟨n, hn⟩ := hnum g hg
    have hmoved := hb.moved
    rw [hf.length h hc g hg n hn] at hmoved
    unfold BodyMode.ofLength at hmoved
    by_cases h0 : n = 0
    · rw [if_pos h0] at hmoved
      rw [hn, h0, show body = [] from hmoved]
      rfl
    · rw [if_neg h0] at hmoved
      rw [hn, show body.length = n from hmoved]

/-! ## The condition -/

/-- The body behind the head that comes next on the stream. -/
def BodyBehind (m : Memory) (mode : BodyMode) (body : List Char) : Prop :=
  ∀ r n incoming, Feed.pullUntil crlfcrlf [] m.incoming = some (r, n, incoming) →
    BodyAt mode ⟨r.drop n, incoming⟩ body

/-- The request's body is there and is seen, and the upstream sends a response that
is relayed as the RFC asks for; where the end of its body is that of the connection,
the client is an SSL stream, which the last, empty write shuts down. -/
structure AnsweredBy (ss w : Memory) (fuel : Nat) (req : HttpRequest) : Prop where
  request : ∃ body, BodyBehind ss (requestMode req) body
  fuel : w.writeIndex + w.incoming.flatten.length + 1 < fuel
  response : ∃ head body, Responds w head body ∧
    ((head.relayedMode w.closed = .untilClose ∧ ss.kind = .ssl) ∨
      (head.relayedMode w.closed ≠ .untilClose ∧ head.ModeOk req.methodStr w.closed ∧
        ∀ f ∈ fieldsNamed head.lines "content-length".toList, ∃ n, f.number = some n))

/-- When a pass answers the head it accepts with one response. -/
structure AnswerOk (h : HttpHandler) (make : HttpRequest) (s : Session) (p : Pass) : Prop where
  small : s.ss.incoming.flatten.length < 2 ^ 31
  fuel : s.ss.incoming.flatten.length + 1 < p.fuel
  here : ∀ a, acceptHead h s.selected s.ss.reset make = .ret a → a.accepted = true →
    callFor a = none →
      (h.baseHandlers.find? fun e => e.1 = a.req.url.take a.req.urlParamStart) = none ∧
        a.req.methodStr ≠ "HEAD".toList
  upstream : ∀ a host service is sk w, acceptHead h s.selected s.ss.reset make = .ret a →
    a.accepted = true → callFor a = some (.wait host service is) →
    s.sk.wait p.net host service is = .ret (sk, some w) → AnsweredBy s.ss w p.fuel a.req

/-- A pass that accepts a head ends the connection, or goes on when it has written
one response; a connection that is not ok ends with the next pass. -/
def OneResponse (h : HttpHandler) (o : HashOrder) (make : HttpRequest) (s : Session) (p : Pass) :
    Prop :=
  ∀ a, s.ss.ok = true → acceptHead h s.selected s.ss.reset make = .ret a → a.accepted = true →
    httpDoTurn h o make p.net p.fuel s = .throws ∨
      httpDoTurn h o make p.net p.fuel s = .ret .ended ∨
      ∃ s' answered, httpDoTurn h o make p.net p.fuel s = .ret (.next s' answered) ∧
        (s'.ss.ok = true → ∃ resp, s'.ss.written = s.ss.written ++ resp ∧
          IsResponse a.req.methodStr resp)

/-! ## One pass -/

/-- The memory a keeper holds is well formed. -/
def Keeper.WF : Keeper → Prop
  | .httpSvc sk => ∀ w, sk.m = some (some w) → w.WF
  | .hack sk => ∀ w, sk.m = some (some w) → w.WF
  | .mitm m => ∀ w, m = some w → w.WF

theorem Keeper.wf_put {w : Memory} (h : w.WF) (sk : Keeper) : (sk.put w).WF := by
  cases sk <;> rintro w' hw' <;> cases hw' <;> exact h

theorem HttpSvcKeeper.wait_cases (net : Dial → Peer) (sk : HttpSvcKeeper) (host service : List Char)
    (is : Option InterceptSet) :
    sk.wait net host service is = .throws ∨ ∃ sk' u, sk.wait net host service is = .ret (sk', u) ∧
      ((∀ w, sk.m = some (some w) → w.WF) → ∀ w, u = some w → w.WF) := by
  unfold HttpSvcKeeper.wait
  cases sk.dial host service is with
  | none =>
    refine Or.inr ⟨sk, sk.m.getD none, rfl, fun hsk w hw => hsk w ?_⟩
    cases hm : sk.m with
    | none =>
      rw [hm] at hw
      cases hw
    | some u =>
      rw [hm, Option.getD_some] at hw
      rw [hw]
  | some d =>
    simp only
    unfold makeSocket
    cases net d with
    | throws => exact Or.inl (Outcome.throws_bind _)
    | refused => exact Or.inr ⟨_, none, Outcome.ret_bind _ _, fun _ w hw => by cases hw⟩
    | accepts incoming room =>
      refine Or.inr ⟨_, some (fresh .plain incoming room), Outcome.ret_bind _ _, fun _ w hw => ?_⟩
      cases hw
      exact wf_fresh _ _ _

/-- The keeper throws, or hands out a memory that is well formed, or `failed_mem`. -/
theorem Keeper.wait_cases (net : Dial → Peer) (host service : List Char)
    (is : Option InterceptSet) (sk : Keeper) (hsk : sk.WF) :
    sk.wait net host service is = .throws ∨ ∃ sk' u, sk.wait net host service is = .ret (sk', u) ∧
      ∀ w, u = some w → w.WF := by
  cases sk with
  | httpSvc sk =>
    rcases HttpSvcKeeper.wait_cases net sk host service is with h | ⟨sk', u, h, hwf⟩
    · exact Or.inl (by rw [Keeper.wait, h, Outcome.throws_bind])
    · exact Or.inr ⟨.httpSvc sk', u, by rw [Keeper.wait, h, Outcome.ret_bind]; rfl, hwf hsk⟩
  | hack sk =>
    rcases HttpSvcKeeper.wait_cases net sk host service is with h | ⟨sk', u, h, hwf⟩
    · exact Or.inl (by rw [Keeper.wait, h, Outcome.throws_bind])
    · exact Or.inr ⟨.hack sk', u, by rw [Keeper.wait, h, Outcome.ret_bind]; rfl, hwf hsk⟩
  | mitm m =>
    cases m with
    | none => exact Or.inl rfl
    | some w =>
      refine Or.inr ⟨.mitm (some w), some w, rfl, fun w' hw' => ?_⟩
      cases hw'
      exact hsk w rfl

section Pass

variable {h : HttpHandler} {o : HashOrder} {make : HttpRequest} {s : Session} {p : Pass}
  {a : Accepted}

/-- The memory of an accepted head: its buffer, and its side of the connection. -/
theorem accepted_ss (hsmall : s.ss.incoming.flatten.length < 2 ^ 31)
    (ha : acceptHead h s.selected s.ss.reset make = .ret a) (hacc : a.accepted = true) :
    a.ss.WF ∧ a.ss.writeIndex + a.ss.incoming.flatten.length = s.ss.incoming.flatten.length ∧
      a.ss.written = s.ss.written ∧ a.ss.kind = s.ss.kind ∧ a.ss.ok = s.ss.ok ∧
      ∀ {mode : BodyMode} {body : List Char},
        BodyBehind s.ss mode body → BodyAt mode a.ss.feed body := by
  obtain ⟨r, n, incoming, hp, htakes⟩ := acceptHead_takes (wf_reset s.ss) (unread_reset s.ss)
    (show s.ss.incoming.flatten.length < 2 ^ 64 by omega) ha hacc
  have hfr := htakes.frame
  simp only [frame, Prod.mk.injEq] at hfr
  refine ⟨htakes.wf, ?_, hfr.2.2.2.2.2, hfr.1, ?_, fun hb => ?_⟩
  · rw [htakes.offsets]
    exact Nat.zero_add _
  · rw [Memory.ok, hfr.2.1, hfr.2.2.1]
    rfl
  · have hfeed : a.ss.feed = ⟨r.drop n, incoming⟩ := by
      rw [feed, htakes.unread, htakes.incoming]
    rw [hfeed]
    exact hb r n incoming hp

/-- A request that is answered here. -/
theorem serve_here (hok : AnswerOk h make s p)
    (ha : acceptHead h s.selected s.ss.reset make = .ret a) (hacc : a.accepted = true)
    (hc : callFor a = none) :
    ∃ s', serve h o p.net p.fuel s.sk a = .ret (.next s' none) ∧ s'.sk = s.sk ∧
      (s'.ss.ok = true → ∃ resp, s'.ss.written = s.ss.written ++ resp ∧
        IsResponse a.req.methodStr resp) := by
  obtain ⟨hno, hm⟩ := hok.here a ha hacc hc
  obtain ⟨-, -, hwritten, -, -, -⟩ := accepted_ss hok.small ha hacc
  refine ⟨⟨answerLocal h a.req a.ss, a.selected, s.sk⟩, ?_, rfl, fun hw => ?_⟩
  · unfold serve
    rw [hc]
  · have hpage : answerLocal h a.req a.ss = a.ss.takes [helloPage] := by
      unfold answerLocal
      rw [hno]
      rfl
    simp only [hpage] at hw ⊢
    refine ⟨helloPage, ?_, isResponse_helloPage hm⟩
    rw [(writeOk_takes (ok_iff.mp hw).2).2, hwritten]
    simp

/-- A request that is sent on. -/
theorem serve_upstream (hwf : s.sk.WF) (hok : AnswerOk h make s p)
    (ha : acceptHead h s.selected s.ss.reset make = .ret a) (hacc : a.accepted = true)
    {host service : List Char} {is : Option InterceptSet}
    (hc : callFor a = some (.wait host service is)) :
    serve h o p.net p.fuel s.sk a = .throws ∨
      ∃ s' w', serve h o p.net p.fuel s.sk a = .ret (.next s' (some w')) ∧ s'.sk.WF ∧
        (s'.ss.ok = true → ∃ resp, s'.ss.written = s.ss.written ++ resp ∧
          IsResponse a.req.methodStr resp) := by
  obtain ⟨hss, hoff, hwritten, hkind, -, hbody⟩ := accepted_ss hok.small ha hacc
  have hsmall := hok.small
  have hfuel := hok.fuel
  rcases Keeper.wait_cases p.net host service is s.sk hwf with hw | ⟨sk', u, hw, huwf⟩
  · left
    unfold serve
    rw [hc]
    simp only [hw, Outcome.throws_bind]
  · cases u with
    | none =>
      left
      unfold serve
      rw [hc]
      simp only [hw, Outcome.ret_bind]
      rfl
    | some w =>
      obtain ⟨⟨reqBody, hreq⟩, hwfuel, head, body, hresp, hmode⟩ :=
        hok.upstream a host service is sk' w ha hacc hc hw
      obtain ⟨ss', w', hrelay, hans⟩ := relay_spec o hss (by omega) (hbody hreq) (by omega)
        (huwf w rfl) hresp hwfuel
      refine Or.inr ⟨⟨ss', a.selected, sk'.put w'⟩, w', ?_, Keeper.wf_put hans.wf sk',
        fun hgood => ?_⟩
      · unfold serve
        rw [hc]
        simp only [hw, hrelay, Outcome.ret_bind]
        rfl
      · obtain ⟨-, hwok⟩ := ok_iff.mp hgood
        rcases hmode with ⟨hun, hssl⟩ | ⟨hun, hmode, hnum⟩
        · -- the client is shut down with the body
          have hshut := hans.shut hun (hkind.trans hssl)
          rw [show ss'.writeOk = true from hwok] at hshut
          cases hshut
        · refine ⟨head.encode ++ body, ?_, head, body, rfl, ?_⟩
          · rw [hans.answer hwok, hwritten]
          · obtain ⟨r, incoming, -, hb⟩ := hresp.delivered
            exact announces_of_modeOk hmode hnum hun hb

/-- **What a pass does** under the condition: it ends, or writes one response. -/
theorem oneResponse_pass (hwf : s.sk.WF) (hok : AnswerOk h make s p) :
    OneResponse h o make s p := by
  intro a hss ha hacc
  rw [httpDoTurn_of_accepted hss ha hacc]
  cases hc : callFor a with
  | none =>
    obtain ⟨s', heq, -, hresp⟩ := serve_here (o := o) hok ha hacc hc
    exact Or.inr (Or.inr ⟨s', none, heq, hresp⟩)
  | some c =>
    cases c with
    | waitTunnel host service is =>
      right
      left
      unfold serve
      rw [hc]
    | wait host service is =>
      rcases serve_upstream (o := o) hwf hok ha hacc hc with hthrow | ⟨s', w', heq, -, hresp⟩
      · exact Or.inl hthrow
      · exact Or.inr (Or.inr ⟨s', some w', heq, hresp⟩)

end Pass

/-! ## The connection -/

/-- The request whose head the next pass accepts. -/
def acceptedRequest (h : HttpHandler) (make : HttpRequest) (s : Session) : Option HttpRequest :=
  match acceptHead h s.selected s.ss.reset make with
  | .ret a => if a.accepted then some a.req else none
  | _ => none

/-- The requests of a run, one for a pass; `none` where the head was rejected. -/
def requests (h : HttpHandler) (o : HashOrder) (make : HttpRequest) :
    Session → List Pass → List (Option HttpRequest)
  | _, [] => []
  | s, p :: ps => acceptedRequest h make s ::
    match httpDoStep h o make s p with
    | some s' => requests h o make s' ps
    | none => []

/-- The response to a request; nothing is asked of what a rejected head got. -/
def AnswersTo (req : Option HttpRequest) (resp : List Char) : Prop :=
  ∀ r, req = some r → IsResponse r.methodStr resp

section Connection

variable {h : HttpHandler} {o : HashOrder} {make : HttpRequest} {s : Session}

theorem asyncLoadUntil_side {m m' : Memory} {d x : List Char}
    (hl : m.asyncLoadUntil d = .ret (m', x)) : m'.written = m.written := by
  unfold asyncLoadUntil at hl
  split at hl
  · cases hl
  · split at hl
    · cases hl
      rfl
    · split at hl
      · cases hl
        rfl
      · cases hl
        rfl

/-- Reading a head writes nothing. -/
theorem acceptHead_written {sel : Selected} {m : Memory} {a : Accepted}
    (ha : acceptHead h sel m make = .ret a) : a.ss.written = m.written := by
  unfold acceptHead at ha
  obtain ⟨⟨m1, q⟩, hline, ha⟩ := Outcome.bind_eq_ret.mp ha
  have hm1 : m1.written = m.written := by
    unfold parserRequestLine at hline
    obtain ⟨⟨m2, msg⟩, hload, hline⟩ := Outcome.bind_eq_ret.mp hline
    have hw := asyncLoadUntil_side hload
    simp only at hline
    split at hline <;> cases hline <;> exact hw
  cases q with
  | none =>
    cases ha
    exact hm1
  | some q =>
    obtain ⟨⟨m2, r⟩, hheaders, ha⟩ := Outcome.bind_eq_ret.mp ha
    have hm2 : m2.written = m1.written := by
      unfold parserRequestHeaders at hheaders
      obtain ⟨⟨ok, headers⟩, -, hheaders⟩ := Outcome.bind_eq_ret.mp hheaders
      simp only at hheaders
      split at hheaders <;> cases hheaders <;> rfl
    cases r <;> cases ha <;> exact hm2.trans hm1

theorem acceptedRequest_of_ret {a : Accepted}
    (ha : acceptHead h s.selected s.ss.reset make = .ret a) :
    acceptedRequest h make s = if a.accepted then some a.req else none := by
  unfold acceptedRequest
  rw [ha]

/-- A pass that goes on keeps the keeper's memory well formed, and what it has
written answers the head it accepted. -/
theorem answers_step {s' : Session} {p : Pass} (hwf : s.sk.WF) (hok : AnswerOk h make s p)
    (hs : httpDoStep h o make s p = some s') :
    s'.sk.WF ∧ (s'.ss.ok = true → ∃ resp, s'.ss.written = s.ss.written ++ resp ∧
      AnswersTo (acceptedRequest h make s) resp) := by
  obtain ⟨answered, ht⟩ := httpDoStep_eq_some.mp hs
  cases httpDoTurn_cases ht with
  | @rejected hss a ha hacc =>
    refine ⟨hwf, fun hgood => ?_⟩
    obtain ⟨page, hpage⟩ : ∃ page, errorTail a.req.hasError a.ss = a.ss.takes [page] := ⟨_, rfl⟩
    simp only [hpage] at hgood ⊢
    refine ⟨page, ?_, fun r hr => ?_⟩
    · rw [(writeOk_takes (ok_iff.mp hgood).2).2, acceptHead_written ha]
      simp [reset]
    · rw [acceptedRequest_of_ret ha, hacc] at hr
      cases hr
  | @served hss a _ ha hacc hby =>
    rw [httpDoTurn_of_accepted hss ha hacc] at ht
    have hreq : acceptedRequest h make s = some a.req := by
      rw [acceptedRequest_of_ret ha, if_pos hacc]
    have hanswers : ∀ resp, IsResponse a.req.methodStr resp →
        AnswersTo (acceptedRequest h make s) resp := by
      intro resp hresp r hr
      rw [hreq, Option.some.injEq] at hr
      exact hr ▸ hresp
    cases hc : callFor a with
    | none =>
      obtain ⟨s1, heq, hsk, hresp⟩ := serve_here (o := o) hok ha hacc hc
      rw [heq, Outcome.ret.injEq, Turn.next.injEq] at ht
      obtain ⟨rfl, -⟩ := ht
      refine ⟨hsk ▸ hwf, fun hgood => ?_⟩
      obtain ⟨resp, hw, hr⟩ := hresp hgood
      exact ⟨resp, hw, hanswers resp hr⟩
    | some c =>
      cases c with
      | waitTunnel host service is =>
        unfold serve at ht
        rw [hc] at ht
        cases ht
      | wait host service is =>
        rcases serve_upstream (o := o) hwf hok ha hacc hc with hthrow | ⟨s1, w', heq, hsk, hresp⟩
        · rw [hthrow] at ht
          cases ht
        · rw [heq, Outcome.ret.injEq, Turn.next.injEq] at ht
          obtain ⟨rfl, -⟩ := ht
          refine ⟨hsk, fun hgood => ?_⟩
          obtain ⟨resp, hw, hr⟩ := hresp hgood
          exact ⟨resp, hw, hanswers resp hr⟩

/-- A pass is only made by a session that is ok. -/
theorem ok_of_step {s' : Session} {p : Pass} (hs : httpDoStep h o make s p = some s') :
    s.ss.ok = true := by
  obtain ⟨answered, ht⟩ := httpDoStep_eq_some.mp hs
  cases httpDoTurn_cases ht with
  | rejected hss _ _ => exact hss
  | served hss _ _ _ => exact hss

/-- What a run has written, by induction on its passes. -/
theorem answers_run {ps : List Pass} : ∀ {s s' : Session}, s.sk.WF →
    Meets (httpDoStep h o make) (AnswerOk h make) s ps →
    run (httpDoStep h o make) s ps = some s' →
    s'.sk.WF ∧ (s'.ss.ok = true → ∃ resps, s'.ss.written = s.ss.written ++ resps.flatten ∧
      List.Forall₂ AnswersTo (requests h o make s ps) resps) := by
  induction ps with
  | nil =>
    intro s s' hwf _ hs
    rw [run_nil, Option.some.injEq] at hs
    subst hs
    exact ⟨hwf, fun _ => ⟨[], by simp, .nil⟩⟩
  | cons p ps ih =>
    intro s s' hwf hC hs
    obtain ⟨s1, hstep, hrun⟩ := run_cons_eq_some.mp hs
    obtain ⟨hwf1, hone⟩ := answers_step hwf hC.1 hstep
    obtain ⟨hwf', hrest⟩ := ih hwf1 (hC.2 s1 hstep) hrun
    refine ⟨hwf', fun hgood => ?_⟩
    obtain ⟨resps, hwritten, hall⟩ := hrest hgood
    have hgood1 : s1.ss.ok = true := by
      cases ps with
      | nil =>
        rw [run_nil, Option.some.injEq] at hrun
        exact hrun ▸ hgood
      | cons q qs =>
        obtain ⟨s2, hstep2, -⟩ := run_cons_eq_some.mp hrun
        exact ok_of_step hstep2
    obtain ⟨resp, hresp, hans⟩ := hone hgood1
    refine ⟨resp :: resps, ?_, ?_⟩
    · rw [hwritten, hresp, List.flatten_cons, List.append_assoc]
    · rw [requests, hstep]
      exact .cons hans hall

/-- **One response for a request**: in every run whose passes all meet the condition,
what is written is one response for each accepted head, in order; and the next pass
that meets it ends the connection or writes one response. -/
theorem oneResponse_run {ss : Memory} {sk : Keeper} (hsk : sk.WF) {ps : List Pass}
    (hC : Meets (httpDoStep h o make) (AnswerOk h make) (.init ss sk) ps)
    (hs : run (httpDoStep h o make) (.init ss sk) ps = some s) :
    (s.ss.ok = true → ∃ resps, s.ss.written = ss.written ++ resps.flatten ∧
      List.Forall₂ AnswersTo (requests h o make (.init ss sk) ps) resps) ∧
    ∀ p, AnswerOk h make s p → OneResponse h o make s p := by
  obtain ⟨hwf, hwritten⟩ := answers_run hsk hC hs
  exact ⟨hwritten, fun p hp => oneResponse_pass hwf hp⟩

end Connection

/-! ## Two upstreams -/

/-- No rule was found for `host`. -/
def emptySelected (host : List Char) : Selected := ⟨host, "80".toList, some .empty⟩

/-- An upstream that sends five bytes, in two reads. -/
def fiveBytesPeer : List (List Char) :=
  ["HTTP/1.1 200 OK\r\nContent-Length: 5\r\n\r\nhe".toList, "llo".toList]

theorem responds_fiveBytes :
    Responds (fresh .plain fiveBytesPeer none) fiveBytes "hello".toList := by
  have hmode : fiveBytes.relayedMode false = .length 5 := by decide
  have hd : Delivers (fresh .plain fiveBytesPeer none) fiveBytes.encode
      "HTTP/1.1 200 OK\r\nContent-Length: 5\r\n\r\nhe".toList ["llo".toList] := by
    refine ⟨by decide, by decide, by decide, ?_⟩
    exact ⟨[("content-length".toList, "Content-Length: 5\r\n".toList)], by decide⟩
  refine ⟨by decide, _, _, hd, ?_⟩
  show BodyAt (fiveBytes.relayedMode false) _ _
  rw [hmode]
  exact ⟨by decide, rfl⟩

/-- The response is all there: it is the one that is written. -/
theorem oneResponse_fiveBytes :
    OneResponse ⟨[], [], []⟩ ⟨id, List.Perm.refl⟩ (.make [] [])
      (.init (fresh .plain ["GET http://a/ HT".toList, "TP/1.1\r\n\r\n".toList] none)
        (.httpSvc .init)) ⟨fun _ => .accepts fiveBytesPeer none, 100⟩ := by
  let ss := fresh .plain ["GET http://a/ HT".toList, "TP/1.1\r\n\r\n".toList] none
  let a : Accepted := ⟨{ ss with readIndex := 26, writeIndex := 26, incoming := [] },
    emptySelected "a".toList, getRequest "a".toList, true⟩
  have hsk : (Keeper.httpSvc .init).WF := by rintro w' ⟨⟩
  have ha : acceptHead ⟨[], [], []⟩ .init ss.reset (.make [] []) = .ret a := by decide +kernel
  have hpull : Feed.pullUntil crlfcrlf [] ss.incoming =
      some ("GET http://a/ HTTP/1.1\r\n\r\n".toList, 26, []) := by decide
  have hC : Meets (httpDoStep ⟨[], [], []⟩ ⟨id, List.Perm.refl⟩ (.make [] []))
      (AnswerOk ⟨[], [], []⟩ (.make [] [])) (.init ss (.httpSvc .init)) [] := trivial
  refine (oneResponse_run hsk hC rfl).2 _ ⟨by decide, by decide, ?_, ?_⟩
  · intro a' ha' _ hc
    cases ha.symm.trans ha'
    cases hc
  · intro a' host service is sk' w' ha' _ hc hw
    cases ha.symm.trans ha'
    cases hc
    cases hw
    refine ⟨⟨[], fun r n incoming hr => ?_⟩, by decide, fiveBytes, "hello".toList,
      responds_fiveBytes, Or.inr ⟨by decide, fiveBytes_modeOk, fun f hf => ⟨5, ?_⟩⟩⟩
    · cases hpull.symm.trans hr
      exact ⟨by decide, rfl⟩
    · rw [show fieldsNamed fiveBytes.lines "content-length".toList =
        [⟨⟨"Content-Length: 5".toList, by decide, by decide⟩, []⟩] from rfl,
        List.mem_singleton] at hf
      rw [hf]
      decide

/-- The upstream closes at once: nothing is written, and the next head is read. -/
theorem oneResponse_silent_upstream :
    ¬ ∀ (h : HttpHandler) (o : HashOrder) (ss : Memory) (ps : List Pass) (s : Session) (p : Pass),
      run (httpDoStep h o (.make [] [])) (.init ss (.httpSvc .init)) ps = some s →
      OneResponse h o (.make [] []) s p := by
  intro hall
  let ss := fresh .plain ["GET http://a/ HTTP/1.1\r\n\r\n".toList] none
  let ss' : Memory := { ss with readIndex := 26, writeIndex := 26, incoming := [] }
  let w : Memory := { fresh .plain [] none with
    readOk := false, written := "GET / HTTP/1.1\r\nHost: a\r\n\r\n".toList }
  have ha : acceptHead ⟨[], [], []⟩ .init ss.reset (.make [] []) =
      .ret ⟨ss', emptySelected "a".toList, getRequest "a".toList, true⟩ := by decide +kernel
  have hturn : httpDoTurn ⟨[], [], []⟩ ⟨id, List.Perm.refl⟩ (.make [] [])
      (fun _ => .accepts [] none) 1 (.init ss (.httpSvc .init)) =
        .ret (.next ⟨ss', emptySelected "a".toList, .httpSvc ⟨some (some w), [], []⟩⟩
          (some w)) := by
    decide +kernel
  have hone := hall ⟨[], [], []⟩ ⟨id, List.Perm.refl⟩ ss [] _ ⟨fun _ => .accepts [] none, 1⟩ rfl _
    rfl ha rfl
  simp only [hturn] at hone
  rcases hone with h | h | ⟨s', answered, h, hresp⟩
  · cases h
  · cases h
  · cases h
    obtain ⟨resp, hwritten, hisr⟩ := hresp rfl
    obtain rfl : resp = [] := hwritten.symm
    exact not_isResponse_nil _ hisr

end Hcpp
