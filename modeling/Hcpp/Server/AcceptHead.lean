import Hcpp.Http.RequestHead
import Hcpp.Server.HttpDo

/-!
# An accepted request head

What `http_do` has of a request when both parsers accepted its head: the head as
text, what its line gave the request, the entries of its block, and what the
selection of the intercept rule made of the host.
-/

namespace Hcpp

open Memory

variable {hd : HttpHandler} {sel : Selected} {m : Memory} {make : HttpRequest} {a : Accepted}

theorem acceptHead_accepted (ha : acceptHead hd sel m make = .ret a) (hacc : a.accepted = true) :
    ∃ m1 req headerEnd, parserRequestLine m make = .ret (m1, some (req, headerEnd)) ∧
      parserRequestHeaders m1 (select hd sel req).2 headerEnd = .ret (a.ss, some a.req) ∧
      a.selected = (select hd sel req).1 := by
  unfold acceptHead at ha
  obtain ⟨⟨m1, p⟩, hline, ha⟩ := Outcome.bind_eq_ret.mp ha
  cases p with
  | none =>
    simp only [Outcome.pure_eq, Outcome.ret.injEq] at ha
    rw [← ha] at hacc
    cases hacc
  | some q =>
    obtain ⟨req, headerEnd⟩ := q
    simp only at ha
    obtain ⟨⟨m2, p⟩, hheaders, ha⟩ := Outcome.bind_eq_ret.mp ha
    cases p with
    | none =>
      simp only [Outcome.pure_eq, Outcome.ret.injEq] at ha
      rw [← ha] at hacc
      cases hacc
    | some req' =>
      simp only [Outcome.pure_eq, Outcome.ret.injEq] at ha
      subst ha
      exact ⟨m1, req, headerEnd, hline, hheaders, rfl⟩

/-- The header parser leaves what the line gave. -/
theorem parserRequestHeaders_req {m1 m2 : Memory} {req req' : HttpRequest} {headerEnd : Nat}
    (hheaders : parserRequestHeaders m1 req headerEnd = .ret (m2, some req')) :
    req'.method = req.method ∧ req'.host = req.host ∧ req'.port = req.port := by
  rw [parserRequestHeaders] at hheaders
  obtain ⟨⟨accepted, headers⟩, -, hret⟩ := Outcome.bind_eq_ret.mp hheaders
  cases accepted with
  | false => simp at hret
  | true =>
    simp only [if_true, Outcome.pure_eq, Outcome.ret.injEq, Prod.mk.injEq,
      Option.some.injEq] at hret
    rw [← hret.2]
    exact ⟨rfl, rfl, rfl⟩

/-- The selection changes the host only. -/
theorem select_req (hd : HttpHandler) (sel : Selected) (req : HttpRequest) :
    (select hd sel req).2 = { req with host := (select hd sel req).2.host } := by
  unfold select
  by_cases hc : req.host = sel.host ∧ req.port = sel.svc
  · rw [if_pos hc]
  · rw [if_neg hc]
    cases hd.find req.host with
    | none => rfl
    | some opt =>
      simp only
      by_cases hurl : opt.url ≠ []
      · rw [if_pos hurl]
      · rw [if_neg hurl]

/-- Behind an accepted head, what came with it is unread. -/
theorem acceptHead_takes (h : m.WF) (hu : m.unread = [])
    (hsize : m.incoming.flatten.length < 2 ^ 64) (ha : acceptHead hd sel m make = .ret a)
    (hacc : a.accepted = true) :
    ∃ r n incoming, Feed.pullUntil crlfcrlf [] m.incoming = some (r, n, incoming) ∧
      TakesHead m a.ss (r.drop n) incoming := by
  obtain ⟨m1, req, headerEnd, hline, hheaders, -⟩ := acceptHead_accepted ha hacc
  cases hp : Feed.pullUntil crlfcrlf [] m.incoming with
  | none =>
    rw [parserRequestLine_of_none hp] at hline
    cases hline
  | some q =>
    obtain ⟨r, n, incoming⟩ := q
    have hflat := congrArg List.length (Feed.pullUntil_spec hp).1
    rw [List.length_append, List.nil_append] at hflat
    obtain ⟨hn, -, -⟩ := isHead_of_pullUntil hp
    exact ⟨r, n, incoming, rfl, takesHead_of_parsers h hu hp (by omega) hline hheaders⟩

/-- The request that was accepted. -/
structure AcceptedAs (hd : HttpHandler) (sel : Selected) (make : HttpRequest) (a : Accepted)
    (head : RequestHead) (es : List Entry) (own : HttpRequest) : Prop where
  line : TakesLine head.line make own
  entries : Hcpp.entries head.lines = some es
  selected : a.selected = (select hd sel own).1
  host : a.req.host = (select hd sel own).2.host
  port : a.req.port = own.port
  methodStr : a.req.methodStr = own.methodStr
  url : a.req.url = own.url
  version : a.req.version = own.version
  headers : a.req.headers = storeEntries make.headers es
  body : (a.req.chunkCoding, a.req.bodySize) = bodyFields (storeEntries make.headers es)

section Spec

variable {r : List Char} {n : Nat} {incoming : List (List Char)}

/-- **What an accepted head is.** -/
theorem acceptHead_spec (h : m.WF) (hu : m.unread = []) (hidx : m.readIndex = 0)
    (hp : Feed.pullUntil crlfcrlf [] m.incoming = some (r, n, incoming)) (hn : n < 2 ^ 31)
    (ha : acceptHead hd sel m make = .ret a) (hacc : a.accepted = true)
    (hm : a.req.method ≠ .connect) :
    ∃ head es own, r.take n = head.encode ∧ AcceptedAs hd sel make a head es own ∧
      (∃ m1 headerEnd, parserRequestLine m make = .ret (m1, some (own, headerEnd))) ∧
      TakesHead m a.ss (r.drop n) incoming := by
  obtain ⟨m1, own, headerEnd, hline, hheaders, hsel⟩ := acceptHead_accepted ha hacc
  have hreq := select_req hd sel own
  have hmeth : own.method ≠ .connect := by
    intro hc
    apply hm
    rw [(parserRequestHeaders_req hheaders).1, hreq]
    exact hc
  obtain ⟨head, hhead, htakes, -, hblock⟩ := parserRequestLine_accepted h hu hidx hp hn hline hmeth
  obtain ⟨es, hes, hreq'⟩ := parserRequestHeaders_accepted hblock hheaders
  refine ⟨head, es, own, hhead, ?_, ⟨m1, headerEnd, hline⟩,
    takesHead_of_parsers h hu hp (by omega) hline hheaders⟩
  have hheads : (select hd sel own).2.headers = make.headers := by
    rw [hreq]
    exact htakes.headers
  rw [hheads] at hreq'
  refine ⟨htakes, hes, hsel, by rw [hreq'], ?_, ?_, ?_, ?_, by rw [hreq'], by rw [hreq']⟩
  · rw [hreq', hreq]
  · rw [hreq', hreq]
  · rw [hreq', hreq]
  · rw [hreq', hreq]

end Spec

/-! ## A plain request -/

/-- `GET http://host/ HTTP/1.1`, without header lines, when it has been parsed. -/
def getRequest (host : List Char) : HttpRequest :=
  { HttpRequest.make host "80".toList with
    method := .other
    version := "HTTP/1.1".toList
    methodStr := "GET".toList
    url := "/".toList
    urlParamStart := 1 }

end Hcpp
