import Hcpp.Http.LineGrammar
import Hcpp.Server.RuleSelection

/-!
# The server a request is sent to

A keeper that dials for every request connects to the host and port the request
asks for.  Behind a MITM tunnel `mitm_svc::wait` hands out the one memory that was
made for the tunnel, whatever it is asked for, and an absolute-form target
replaces the host and port that `make_request` gave: such a request goes to the
tunnel's server under another host's name (`sentToNamed_run`).
-/

namespace Hcpp

open Memory Runs

/-- Host and service. -/
abbrev Endpoint := List Char × List Char

/-- The request is written to a memory that was connected to the host and port it asks
for, and the `Host` field it carries is that host. -/
def SentToNamed (h : HttpHandler) (o : HashOrder) (make : HttpRequest) (t : Traced) (p : Pass) :
    Prop :=
  ∀ a sk w, proxied h make t.session = some a →
    t.session.sk.wait p.net a.req.host a.req.port a.selected.is = .ret (sk, w) →
    ∃ d front, t.session.sk.connectedBy t.made a.call = some d ∧
      a.req.host = d.host ∧ a.req.port = d.service ∧
      reqLine o a.req = front ++ "Host: ".toList ++ d.host ++ crlfcrlf

/-! ## The target of the next request -/

/-- The first line of the next head on the stream. -/
def nextLine (s : Session) : Option (List Char) :=
  (Feed.pullUntil crlfcrlf [] s.ss.incoming).map fun x => firstLine (x.1.take x.2.1)

/-- What the target names: its own host and port, or those of the tunnel. -/
def AcceptedLine.names (l : AcceptedLine) (tunnel : Endpoint) : Endpoint :=
  match l.authority with
  | none => tunnel
  | some e => (e.host, e.portText)

/-- The `url_` rules send a request for this endpoint to `host`: the endpoint that is kept
goes where it says, and any other one where the rule of its host does. -/
def GoesToHost (h : HttpHandler) (sel : Selected) (e : Endpoint) (host : List Char) : Prop :=
  if e.1 = sel.host ∧ e.2 = sel.svc then e.1 = host else (h.rule e.1).target e.1 = host

/-- Behind a MITM tunnel, a request names the port of the tunnel, and a host that the rules
send to the host of the tunnel. -/
def Opening.NamesTunnel (h : HttpHandler) (c : Opening) (t : Traced) (_ : Pass) : Prop :=
  match c with
  | plain _ _ => True
  | mitm r service _ _ =>
    (proxied h (c.make h) t.session).isSome → ∀ l : AcceptedLine,
      nextLine t.session = some (l.text ++ crlf) →
        (l.names ((tunnelDial h r service).host, service)).2 = service ∧
        GoesToHost h t.session.selected (l.names ((tunnelDial h r service).host, service))
          (tunnelDial h r service).host

section Line

variable {h : HttpHandler} {make : HttpRequest}

/-- What is stored of a line is what it names. -/
theorem AcceptedLine.store_names (l : AcceptedLine) (make : HttpRequest) :
    ((l.store make).host, (l.store make).port) = l.names (make.host, make.port) := by
  have hpath : ∀ req : HttpRequest, (setPath l.method l.path req).host = req.host ∧
      (setPath l.method l.path req).port = req.port := by
    intro req
    unfold setPath
    split
    · exact ⟨rfl, rfl⟩
    · obtain ⟨u, p, hset⟩ := setUrl_frame l.path req
      rw [hset]
      exact ⟨rfl, rfl⟩
  obtain ⟨hhost, hport⟩ := hpath (l.storeAuthority (l.begin_ make))
  show ((setPath l.method l.path _).host, (setPath l.method l.path _).port) = _
  rw [hhost, hport]
  unfold names storeAuthority
  cases l.authority with
  | none => rfl
  | some e => rfl

/-- A line is cut at its CRLF. -/
theorem firstLine_cut {msg : List Char} (hin : crlf <:+: msg) :
    ∃ s, firstLine msg = s ++ crlf ∧ ¬ crlf <:+: s := by
  obtain ⟨p, hp⟩ := Search.exists_find hin
  have hle := Search.find_add_length_le hp
  have hlen : (msg.take p).length = p := List.length_take_of_le (by omega)
  refine ⟨msg.take p, ?_, ?_⟩
  · unfold firstLine
    rw [hp]
    conv_lhs => rw [Search.find_split hp]
    refine List.take_left' ?_
    rw [List.length_append, hlen]
    rfl
  · refine Search.find_eq_none_iff.mp (Search.find_eq_none_of_prefix hp (List.take_prefix _ _) ?_)
    rw [hlen]
    exact Nat.lt_add_of_pos_right (by decide)

/-- The request of a pass was stored from the next line. -/
theorem line_of_request {s : Session} {m1 : Memory} {own : HttpRequest} {headerEnd : Nat}
    (hline : parserRequestLine s.ss.reset make = .ret (m1, some (own, headerEnd))) :
    ∃ l : AcceptedLine, nextLine s = some (l.text ++ crlf) ∧ own = l.store make := by
  unfold nextLine
  cases hp : Feed.pullUntil crlfcrlf [] s.ss.incoming with
  | none =>
    have hp' : Feed.pullUntil crlfcrlf [] s.ss.reset.incoming = none := hp
    rw [parserRequestLine_of_none hp'] at hline
    cases hline
  | some x =>
    obtain ⟨r, n, segs⟩ := x
    have hload : s.ss.reset.asyncLoadUntil crlfcrlf = _ :=
      asyncLoadUntil_of_pull (wf_reset s.ss) (by decide) (by decide) hp
    have hparse : parserLine (firstLine (r.take n)) make = some own := by
      rw [parserRequestLine, hload, Outcome.ret_bind] at hline
      cases hpl : parserLine (firstLine (r.take n)) make with
      | none =>
        simp only [hpl] at hline
        cases hline
      | some req =>
        simp only [hpl] at hline
        cases hline
        rfl
    obtain ⟨-, -, i, hi, hcut⟩ := isHead_of_pullUntil hp
    have hhead : crlfcrlf <:+: r.take n := by
      rw [hcut]
      exact Search.isInfix_of_find (Search.find_take hi)
    have hin : crlf <:+: r.take n := List.IsInfix.trans (by decide) hhead
    obtain ⟨t, ht, hno⟩ := firstLine_cut hin
    rw [ht] at hparse
    obtain ⟨l, rfl, rfl⟩ := (parserLine_iff hno).mp hparse
    exact ⟨l, by rw [Option.map_some, ht], rfl⟩

/-- Where a request is sent: to the port its target names, and to the host that the rules
make of the host it names. -/
theorem sent_of_proxied {s : Session} {a : Accepted} (hp : proxied h make s = some a)
    {l : AcceptedLine} (hl : nextLine s = some (l.text ++ crlf)) (host : List Char) :
    a.req.port = (l.names (make.host, make.port)).2 ∧
      (a.req.host = host ↔ GoesToHost h s.selected (l.names (make.host, make.port)) host) := by
  obtain ⟨-, ha, hacc, -, -⟩ := proxied_eq_some.mp hp
  obtain ⟨m1, own, headerEnd, hline, hheaders, -⟩ := acceptHead_accepted ha hacc
  -- the request was stored from this line
  obtain ⟨l', hl', rfl⟩ := line_of_request hline
  rw [hl, Option.some.injEq] at hl'
  have hstore : l.store make = l'.store make := by
    have h1 := parserLine_text l make
    rw [hl', parserLine_text l' make] at h1
    exact (Option.some.inj h1).symm
  obtain ⟨-, hhost, hport⟩ := parserRequestHeaders_req hheaders
  rw [← hstore] at hhost hport
  have hnames := l.store_names make
  rw [select_req] at hport
  refine ⟨by rw [hport, ← hnames], ?_⟩
  rw [hhost, ← hnames]
  unfold GoesToHost
  rcases select_cases (h := h) s.selected (l.store make) with ⟨h1, h2, heq⟩ | ⟨hne, heq⟩
  · rw [heq, if_pos ⟨h1, h2⟩]
  · rw [heq, if_neg hne]

end Line

/-! ## Where requests go -/

section Run

variable {h : HttpHandler} {o : HashOrder} {c : Opening}

/-- The `Host` field is the last one. -/
theorem reqLine_host (o : HashOrder) (req : HttpRequest) :
    ∃ front, reqLine o req = front ++ "Host: ".toList ++ req.host ++ crlfcrlf := ⟨_, rfl⟩

/-- Behind a MITM tunnel, a request is sent where it is named when that is the server of the
tunnel. -/
theorem sentToNamed_mitm {r service : List Char} {ss w : Memory} {t : Traced} {p : Pass}
    (hi : (Opening.mitm r service ss w).Inv h t) (make : HttpRequest) :
    SentToNamed h o make t p ↔ ∀ a, proxied h make t.session = some a →
      a.req.host = (tunnelDial h r service).host ∧ a.req.port = service := by
  obtain ⟨-, ⟨m, hm⟩, hmade⟩ := hi
  have hheld : ∀ a : Accepted, t.session.sk.connectedBy t.made a.call =
      some (tunnelDial h r service) := fun a => (connectedBy_held hm _ _ _).trans hmade
  have hwait : ∀ a : Accepted,
      t.session.sk.wait p.net a.req.host a.req.port a.selected.is =
        .ret (.mitm (some m), some m) := by
    intro a
    rw [hm]
    rfl
  constructor
  · intro hsent a hp
    obtain ⟨d, front, hd, hh, hs, -⟩ := hsent a _ _ hp (hwait a)
    rw [hheld a, Option.some.injEq] at hd
    subst hd
    exact ⟨hh, hs⟩
  · intro hnames a sk w' hp _
    obtain ⟨hh, hs⟩ := hnames a hp
    obtain ⟨front, hfront⟩ := reqLine_host o a.req
    exact ⟨_, front, hheld a, hh, hs, by rw [hfront, hh]⟩

/-- Where a request goes, at any point of a connection. -/
theorem sentToNamed_iff {t : Traced} {p : Pass} (hi : c.Inv h t) :
    SentToNamed h o (c.make h) t p ↔ c.NamesTunnel h t p := by
  cases c with
  | plain hack ss =>
    obtain ⟨-, hsk, hno, -⟩ := hi
    refine ⟨fun _ => trivial, fun _ a sk w hp hwait => ?_⟩
    obtain ⟨-, -, -, -, hne⟩ := proxied_eq_some.mp hp
    obtain ⟨front, hfront⟩ := reqLine_host o a.req
    rcases Keeper.dial_isSome hsk (c := a.call) (fun host service is heq => by
      cases heq
      exact hne) with ⟨m, hm⟩ | ⟨d, hd⟩
    · exact absurd hm (hno m)
    · obtain rfl := Keeper.dial_wait hd
      exact ⟨_, front, by rw [Keeper.connectedBy, hd]; rfl, rfl, rfl, hfront⟩
  | mitm r service ss w =>
    rw [sentToNamed_mitm hi]
    constructor
    · intro hall hsome l hl
      obtain ⟨a, hp⟩ := Option.isSome_iff_exists.mp hsome
      obtain ⟨hport, hhost⟩ := sent_of_proxied hp hl (tunnelDial h r service).host
      obtain ⟨hh, hs⟩ := hall a hp
      exact ⟨hport.symm.trans hs, hhost.mp hh⟩
    · intro hnames a hp
      obtain ⟨-, ha, hacc, -, -⟩ := proxied_eq_some.mp hp
      obtain ⟨m1, own, headerEnd, hline, -, -⟩ := acceptHead_accepted ha hacc
      obtain ⟨l, hl, -⟩ := line_of_request hline
      obtain ⟨hport, hhost⟩ := sent_of_proxied hp hl (tunnelDial h r service).host
      obtain ⟨hs, hh⟩ := hnames (by rw [hp]; rfl) l hl
      exact ⟨hhost.mpr hh, hport.trans hs⟩

end Run

end Hcpp
