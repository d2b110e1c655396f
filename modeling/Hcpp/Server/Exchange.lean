import Hcpp.Server.ClientFraming

/-!
# A connection from end to end

What the client gets for a stream of requests: for each, in order, the bytes that the
upstream of this request answered with, or the page of the proxy itself, and nothing else.
Each upstream gets the rewritten head and the body of its request, and nothing else either.
This puts the framing of the requests and the relay of bodies and responses together; a
pass has to meet the condition of the framing (`FramedOk`), and no handler of the proxy
may answer, since such an answer is followed by an error page.
-/

namespace Hcpp

open Memory Runs

/-- A request, what was sent to its upstream, and what the client got. -/
structure Exchange where
  request : ClientRequest
  sent : List Char
  answer : List Char

/-- The pass `p` made this exchange. -/
inductive Exchanged (h : HttpHandler) (o : HashOrder) (make : HttpRequest) (s : Session)
    (p : Pass) : Exchange → Prop where
  /-- the upstream `w` got the request, and its response was passed on -/
  | upstream {q : ClientRequest} {a : Accepted} {es : List Entry} {own : HttpRequest}
      {sk : Keeper} {s' : Session} {w w' : Memory} {head : ResponseHead} {body : List Char}
      (has : AcceptedAs h s.selected make a q.head es own)
      (hwait : s.sk.wait p.net a.req.host a.req.port a.selected.is = .ret (sk, some w))
      (hresp : Responds w head body)
      (hturn : httpDoTurn h o make p.net p.fuel s = .ret (.next s' (some w')))
      (hsent : w'.writeOk = true → w'.written = w.written ++ (reqLine o a.req ++ q.body)) :
      Exchanged h o make s p ⟨q, reqLine o a.req ++ q.body, head.encode ++ body⟩
  /-- the request names no host -/
  | here {q : ClientRequest} {a : Accepted} {es : List Entry} {own : HttpRequest}
      {s' : Session} (has : AcceptedAs h s.selected make a q.head es own)
      (hhost : a.req.host = []) (hbody : q.body = [])
      (hturn : httpDoTurn h o make p.net p.fuel s = .ret (.next s' none)) :
      Exchanged h o make s p ⟨q, [], helloPage⟩

/-- The request that is next meets the condition of the framing, and is not one for a
handler of the proxy. -/
structure ExchangeOk (h : HttpHandler) (make : HttpRequest) (f : Framed) (p : Pass) : Prop where
  framed : FramedOk h make f p
  handlers : ∀ a, acceptHead h f.session.selected f.session.ss.reset make = .ret a →
    a.accepted = true → a.req.host = [] →
    (h.baseHandlers.find? fun e => e.1 = a.req.url.take a.req.urlParamStart) = none

section Pass

variable {h : HttpHandler} {o : HashOrder} {make : HttpRequest} {s : Session} {p : Pass}
  {q : ClientRequest}

/-- What a pass that answers here has written. -/
theorem answerLocal_written {req : HttpRequest} {ss : Memory}
    (hno : (h.baseHandlers.find? fun e => e.1 = req.url.take req.urlParamStart) = none)
    (hok : (answerLocal h req ss).ok = true) :
    (answerLocal h req ss).written = ss.written ++ helloPage := by
  have hpage : answerLocal h req ss = ss.takes [helloPage] := by
    unfold answerLocal
    rw [hno]
    rfl
  rw [hpage] at hok ⊢
  rw [(writeOk_takes (ok_iff.mp hok).2).2]
  simp

/-- What a pass that goes to an upstream has written, and what the upstream got. -/
theorem exchange_upstream {x : List Char} (hwf : s.sk.WF) (hst : s.ss.stream = q.encode ++ x)
    (hok : RequestOk h make s p q) {a : Accepted} {es : List Entry} {own : HttpRequest}
    (ha : acceptHead h s.selected s.ss.reset make = .ret a) (hacc : a.accepted = true)
    (has : AcceptedAs h s.selected make a q.head es own) (hne : a.req.host ≠ []) {s' : Session}
    {w' : Memory} (hturn : httpDoTurn h o make p.net p.fuel s = .ret (.next s' (some w'))) :
    ∃ exch, Exchanged h o make s p exch ∧ exch.request = q ∧
      (s'.ss.ok = true → s'.ss.written = s.ss.written ++ exch.answer) := by
  obtain ⟨own', headers, hline, hheaders, hbody, -, hup⟩ := hok.accepted
  have hsmall := hok.small
  have hfuel := hok.fuel
  obtain ⟨hss, hoff, hwritten, -, -, hbehind⟩ := accepted_ss hsmall ha hacc
  -- the parsers give what the condition says they give
  have hin : s.ss.reset.incoming.flatten = q.head.encode ++ (q.body ++ x) := by
    rw [stream, hok.uncached, List.nil_append, ClientRequest.encode, List.append_assoc] at hst
    exact hst
  have hmeth : own'.method ≠ .connect := by
    rw [parserLine_method hline]
    unfold getMethod
    rw [if_neg q.method]
    intro h
    cases h
  obtain ⟨a', es', ha', -, has', hreq', hmethod, -⟩ := acceptHead_encode (h := h) s.selected
    (wf_reset s.ss) (unread_reset s.ss) rfl hin hsmall hline hmeth hheaders
  rw [ha, Outcome.ret.injEq] at ha'
  subst ha'
  have hmode := requestMode_eq has
  rw [hreq'] at hmode
  obtain ⟨sk, w, hwait, hwfuel, head, body, hresp⟩ :=
    (hup (by rw [← has'.host]; exact hne)).answers
  rw [← has'.host, ← has'.port, ← has'.selected] at hwait
  have hw : w.WF := by
    rcases Keeper.wait_cases p.net a.req.host a.req.port a.selected.is s.sk hwf with
      h | ⟨_, u, h, hu⟩
    · rw [hwait] at h
      cases h
    · rw [hwait] at h
      cases h
      exact hu w rfl
  obtain ⟨ss1, w1, hrelay, hans⟩ := relay_spec o hss (by omega)
    (by rw [hmode]; exact hbehind hbody) (by omega) hw hresp hwfuel
  have hserve : serve h o p.net p.fuel s.sk a =
      .ret (.next ⟨ss1, a.selected, sk.put w1⟩ (some w1)) := by
    unfold serve
    rw [callFor_wait.mpr ⟨hmethod, hne, rfl, rfl, rfl⟩]
    simp only [hwait, Outcome.ret_bind, hrelay]
    rfl
  have hturn' := hturn
  rw [httpDoTurn_of_accepted hok.ok ha hacc, hserve] at hturn'
  cases hturn'
  refine ⟨_, .upstream has hwait hresp hturn ?_, rfl, ?_⟩
  · intro hgood
    rw [hans.sent hgood, List.append_assoc]
  · intro hgood
    rw [hans.answer (ok_iff.mp hgood).2, hwritten]

/-- **One pass**: the exchange it makes, and what it has written to the client. -/
theorem exchange_pass {x : List Char} (o : HashOrder) (hwf : s.sk.WF)
    (hst : s.ss.stream = q.encode ++ x) (hok : RequestOk h make s p q)
    (hno : ∀ a, acceptHead h s.selected s.ss.reset make = .ret a → a.accepted = true →
      a.req.host = [] →
      (h.baseHandlers.find? fun e => e.1 = a.req.url.take a.req.urlParamStart) = none) :
    ∃ s' exch, httpDoStep h o make s p = some s' ∧ s'.ss.stream = x ∧ s'.sk.WF ∧
      Exchanged h o make s p exch ∧ exch.request = q ∧
      (s'.ss.ok = true → s'.ss.written = s.ss.written ++ exch.answer) := by
  obtain ⟨⟨a, es, own, ha, hacc, has, hcase⟩, s', hstep, hstream, hwf'⟩ :=
    processes_pass o hwf hst hok
  obtain ⟨answered, hret⟩ := httpDoStep_eq_some.mp hstep
  refine ⟨s', ?_⟩
  by_cases hnil : a.req.host = []
  · have hbody : q.body = [] ∧ ∃ s1, httpDoTurn h o make p.net p.fuel s = .ret (.next s1 none) := by
      rcases hcase with ⟨-, hq, hturn⟩ | ⟨-, -, s1, w1, -, hturn, -⟩
      · exact ⟨hq, hturn⟩
      · cases httpDoTurn_cases hturn with
        | served _ ha' _ hby =>
          rw [ha, Outcome.ret.injEq] at ha'
          subst ha'
          cases hby with
          | upstream _ hne _ _ => exact absurd hnil hne
    obtain ⟨hq, s1, hturn⟩ := hbody
    rw [hret] at hturn
    cases hturn
    refine ⟨⟨q, [], helloPage⟩, hstep, hstream, hwf', .here has hnil hq hret, rfl, fun hgood => ?_⟩
    cases httpDoTurn_cases hret with
    | rejected _ ha' hacc' =>
      rw [ha, Outcome.ret.injEq] at ha'
      rw [← ha', hacc] at hacc'
      cases hacc'
    | served _ ha' _ hby =>
      rw [ha, Outcome.ret.injEq] at ha'
      subst ha'
      cases hby with
      | here _ _ =>
        rw [answerLocal_written (hno a ha hacc hnil) hgood]
        rw [(accepted_ss hok.small ha hacc).2.2.1]
  · obtain ⟨w', hturn⟩ : ∃ w', httpDoTurn h o make p.net p.fuel s = .ret (.next s' (some w')) := by
      rcases hcase with ⟨hh, -⟩ | ⟨-, -, s1, w1, -, hturn, -⟩
      · exact absurd hh hnil
      · rw [hret] at hturn
        cases hturn
        exact ⟨w1, hret⟩
    obtain ⟨exch, hex, hq, hwritten⟩ := exchange_upstream hwf hst hok ha hacc has hnil hturn
    exact ⟨exch, hstep, hstream, hwf', hex, hq, hwritten⟩

/-- The states and passes of a run. -/
def visits (h : HttpHandler) (o : HashOrder) (make : HttpRequest) :
    Framed → List Pass → List (Framed × Pass) :=
  trace (framedStep h o make) fun f p => [(f, p)]

/-- The exchanges of a run, by induction on its passes. -/
theorem exchanges_from {ps : List Pass} : ∀ {f : Framed}, OnStream f →
    Meets (framedStep h o make) (ExchangeOk h make) f ps →
    ∃ f' xs, run (framedStep h o make) f ps = some f' ∧ OnStream f' ∧
      f.left = xs.map Exchange.request ++ f'.left ∧
      List.Forall₂ (fun v => Exchanged h o make v.1.session v.2) (visits h o make f ps) xs ∧
      (f'.session.ss.ok = true → f'.session.ss.written =
        f.session.ss.written ++ xs.flatMap Exchange.answer) := by
  induction ps with
  | nil =>
    intro f hon _
    exact ⟨f, [], rfl, hon, rfl, .nil, fun _ => by simp⟩
  | cons p ps ih =>
    rintro f hon ⟨⟨⟨q, qs, hleft, hreq⟩, hno⟩, hrest⟩
    have htext := hon.text
    rw [hleft, requestsText, List.flatMap_cons] at htext
    obtain ⟨s1, exch, hstep, hstream, hwf, hex, hq, hwritten⟩ :=
      exchange_pass o hon.keeper htext hreq hno
    have hframed : framedStep h o make f p = some ⟨s1, qs⟩ := by
      unfold framedStep
      rw [hstep, hleft]
      rfl
    obtain ⟨f', xs, hrun, hon', hleft', hall, hwritten'⟩ :=
      ih (f := ⟨s1, qs⟩) ⟨hstream, hwf⟩ (hrest _ hframed)
    refine ⟨f', exch :: xs, run_cons_eq_some.mpr ⟨_, hframed, hrun⟩, hon', ?_, ?_, ?_⟩
    · rw [hleft, List.map_cons, List.cons_append, ← hleft', hq]
    · rw [visits, trace_cons hframed]
      exact .cons hex hall
    · intro hgood
      -- a session that is ok at the end was ok all the time
      have hgood1 : s1.ss.ok = true := by
        cases ps with
        | nil =>
          rw [run_nil, Option.some.injEq] at hrun
          rw [← hrun] at hgood
          exact hgood
        | cons p' ps =>
          obtain ⟨f2, hstep2, -⟩ := run_cons_eq_some.mp hrun
          obtain ⟨s2, hs2, -⟩ := Option.map_eq_some_iff.mp hstep2
          exact ok_of_step hs2
      rw [hwritten' hgood, hwritten hgood1, List.flatMap_cons, List.append_assoc]

/-- **A connection from end to end**: in every run whose passes meet the condition, there is
one exchange for each pass, with the request that was next; and as long as the client takes
what is written, it has got their answers, in order, and nothing else. -/
theorem exchanges_run {ss : Memory} {sk : Keeper} (hsk : sk.WF) {reqs : List ClientRequest}
    (hst : ss.stream = requestsText reqs) {ps : List Pass}
    (hC : Meets (framedStep h o make) (ExchangeOk h make) ⟨.init ss sk, reqs⟩ ps) :
    ∃ s xs, run (framedStep h o make) ⟨.init ss sk, reqs⟩ ps =
        some ⟨s, reqs.drop ps.length⟩ ∧
      s.ss.stream = requestsText (reqs.drop ps.length) ∧
      xs.map Exchange.request = reqs.take ps.length ∧
      List.Forall₂ (fun v => Exchanged h o make v.1.session v.2)
        (visits h o make ⟨.init ss sk, reqs⟩ ps) xs ∧
      (s.ss.ok = true → s.ss.written = ss.written ++ xs.flatMap Exchange.answer) := by
  obtain ⟨⟨s, left⟩, xs, hrun, hon, hreqs, hall, hwritten⟩ :=
    exchanges_from (⟨hst, hsk⟩ : OnStream ⟨.init ss sk, reqs⟩) hC
  obtain rfl : left = reqs.drop ps.length := left_of_run hrun
  refine ⟨s, xs, hrun, hon.text, ?_, hall, hwritten⟩
  have hcut : reqs.take ps.length ++ reqs.drop ps.length =
      xs.map Exchange.request ++ reqs.drop ps.length := by
    rw [List.take_append_drop]
    exact hreqs
  exact (List.append_cancel_right hcut).symm

end Pass

/-- The upstream of the first of two requests answers: the client has got its five bytes. -/
theorem exchanges_two_reads : ∃ s, run (framedStep ⟨[], [], []⟩ ⟨id, List.Perm.refl⟩ (.make [] []))
      ⟨.init (fresh .plain [getA.encode, getB.encode] none) (.httpSvc .init), [getA, getB]⟩
      [⟨fun _ => .accepts fiveBytesPeer none, 100⟩] = some ⟨s, [getB]⟩ ∧
    ∃ x : Exchange, x.request = getA ∧ x.answer = s.ss.written ∧
      s.ss.written = "HTTP/1.1 200 OK\r\nContent-Length: 5\r\n\r\nhello".toList := by
  have hsk : (Keeper.httpSvc .init).WF := by rintro w' ⟨⟩
  let ss := fresh .plain [getA.encode, getB.encode] none
  let p : Pass := ⟨fun _ => .accepts fiveBytesPeer none, 100⟩
  have hpull : Feed.pullUntil crlfcrlf [] ss.incoming = some (getA.encode, 26, [getB.encode]) := by
    decide
  have hok : FramedOk ⟨[], [], []⟩ (.make [] []) ⟨.init ss (.httpSvc .init), [getA, getB]⟩ p := by
    refine ⟨getA, [getB], rfl, rfl, rfl, by decide, by decide, getRequest "a".toList, [],
      by decide +kernel, by decide, fun r n incoming hr => ?_, fun hnil => rfl, fun _ => ?_⟩
    · cases hpull.symm.trans hr
      exact ⟨by decide, rfl⟩
    · exact ⟨_, _, rfl, by decide, fiveBytes, "hello".toList, responds_fiveBytes⟩
  have hC : Meets (framedStep ⟨[], [], []⟩ ⟨id, List.Perm.refl⟩ (.make [] []))
      (ExchangeOk ⟨[], [], []⟩ (.make [] [])) ⟨.init ss (.httpSvc .init), [getA, getB]⟩ [p] :=
    ⟨⟨hok, fun _ _ _ _ => rfl⟩, fun _ _ => trivial⟩
  obtain ⟨s, xs, hrun, -, hreqs, -, hwritten⟩ :=
    exchanges_run hsk (show ss.stream = _ by decide) hC
  have hvalue : (run (framedStep ⟨[], [], []⟩ ⟨id, List.Perm.refl⟩ (.make [] []))
      ⟨.init ss (.httpSvc .init), [getA, getB]⟩ [p]).map
        (fun f => (f.session.ss.ok, f.session.ss.written)) =
      some (true, "HTTP/1.1 200 OK\r\nContent-Length: 5\r\n\r\nhello".toList) := by
    decide +kernel
  rw [hrun, Option.map_some, Option.some.injEq, Prod.mk.injEq] at hvalue
  obtain ⟨x, rfl⟩ : ∃ x, xs = [x] :=
    List.length_eq_one_iff.mp (by simpa using congrArg List.length hreqs)
  have hall := hwritten hvalue.1
  simp only [List.flatMap_cons, List.flatMap_nil, List.append_nil] at hall
  exact ⟨s, hrun, x, List.head_eq_of_cons_eq hreqs, hall.symm, hvalue.2⟩

end Hcpp
