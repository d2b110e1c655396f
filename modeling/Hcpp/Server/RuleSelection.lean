import Hcpp.Server.TracedRuns

/-!
# Which intercept rule a request gets

A request gets the rule of its own host unless it asks for the host and port that are
kept: then it gets the rule that was looked up last, which is that of another host when
this host was put in its place.  It is dialled by its rule unless it is a CONNECT without
a MITM tunnel, or comes through a tunnel that the rule of another host opened
(`ownRule_run`).
-/

namespace Hcpp

open Memory Runs

/-- The same rule, but for the host it is entered under. -/
def InterceptSet.SameAs (i j : InterceptSet) : Prop :=
  { i with host := [] } = { j with host := [] }

instance (i j : InterceptSet) : Decidable (i.SameAs j) := inferInstanceAs (Decidable (_ = _))

/-- The next pass makes the call `c` for the request `own`, as its line gave it. -/
structure Calls (h : HttpHandler) (make : HttpRequest) (s : Session) (own : HttpRequest)
    (c : Call) : Prop where
  head : ∃ a, acceptHead h s.selected s.ss.reset make = .ret a ∧ a.accepted = true ∧
    callFor a = some c
  line : ∃ m headerEnd, parserRequestLine s.ss.reset make = .ret (m, some (own, headerEnd))

/-- The call is made, and the memory that answers it was dialled, by the rule of the
request's own host. -/
structure OwnRule (h : HttpHandler) (dial : Option Dial) (own : HttpRequest) (c : Call) :
    Prop where
  is : c.is = some (h.rule own.host).substituted
  host : c.host = (h.rule own.host).target own.host
  doh : ∃ d, dial = some d ∧ d.useDoh = (h.rule own.host).doh

/-- The request of this pass is served by the rule of its own host. -/
def ByOwnRule (h : HttpHandler) (make : HttpRequest) (t : Traced) (_ : Pass) : Prop :=
  ∀ own c, Calls h make t.session own c → OwnRule h (t.session.sk.connectedBy t.made c) own c

/-- A host that is kept with its port was looked up last itself, or the rule of the one that
was is the same; a CONNECT has a rule without DoH, unless it is one for a MITM tunnel; and
the rule that opened the tunnel asks for DoH if that of a request inside does. -/
structure RuleOk (h : HttpHandler) (c : Opening) (t : Traced) (own : HttpRequest) : Prop where
  kept : own.host = t.session.selected.host → own.port = t.session.selected.svc →
    ∃ r, t.lookedUp = some r ∧ (r = own.host ∨ (h.rule r).SameAs (h.rule own.host))
  connect : own.method = .connect → (h.rule own.host).doh = false ∨
    ((∃ ss, c = .plain true ss) ∧ (h.rule own.host).mitm = true)
  inside : own.method ≠ .connect → ∀ r service ss w, c = .mitm r service ss w →
    (h.rule r).doh = (h.rule own.host).doh

def MeetsRule (h : HttpHandler) (c : Opening) (t : Traced) (_ : Pass) : Prop :=
  ∀ own call, Calls h (c.make h) t.session own call → RuleOk h c t own

section Selection

variable {h : HttpHandler} {o : HashOrder} {make : HttpRequest} {c : Opening}

/-! ## The set that is passed -/

/-- A rule with another host put in its place is the same as another one with that host. -/
theorem substituted_eq_iff {i j : InterceptSet} (hurl : i.url ≠ []) :
    j.substituted = i.substituted ↔ i.SameAs j := by
  unfold InterceptSet.SameAs InterceptSet.substituted
  rw [if_pos hurl]
  constructor
  · intro heq
    by_cases hj : j.url ≠ []
    · rw [if_pos hj] at heq
      have hclear := congrArg (fun k : InterceptSet => { k with host := [] }) heq
      exact hclear.symm
    · rw [if_neg hj] at heq
      have hsame := congrArg InterceptSet.url heq
      exact absurd hsame (fun hsame => hj (by rw [hsame]; exact hurl))
  · intro hsame
    have hju : j.url = i.url := (congrArg InterceptSet.url hsame).symm
    rw [if_pos (by rw [hju]; exact hurl)]
    exact (congrArg (fun k : InterceptSet => { k with host := k.url }) hsame).symm

/-- What is kept for the host that was looked up last is right for `host`, which is kept. -/
theorem keptBy_own {sel : Selected} {lookedUp : Option (List Char)} (hk : KeptBy h sel lookedUp)
    {host : List Char} (hhost : host = sel.host) :
    (sel.is = some (h.rule host).substituted ∧ host = (h.rule host).target host) ↔
      ∃ r, lookedUp = some r ∧ (r = host ∨ (h.rule r).SameAs (h.rule host)) := by
  cases lookedUp with
  | none =>
    rw [KeptBy] at hk
    subst hk
    refine iff_of_false ?_ ?_
    · rintro ⟨his, -⟩
      cases his
    · rintro ⟨r, hr, -⟩
      cases hr
  | some r =>
    obtain ⟨htarget, his⟩ := hk
    have hto : host = (h.rule r).target r := hhost.trans htarget
    simp only [Option.some.injEq, exists_eq_left']
    rw [his, Option.some.injEq]
    by_cases hr : r = host
    · -- the rule is that of the host itself
      subst hr
      exact iff_of_true ⟨rfl, hto⟩ (.inl rfl)
    · -- the host was put in the place of `r`
      have hurl : (h.rule r).url ≠ [] := by
        intro hnil
        rw [InterceptSet.target, if_neg (not_not.mpr hnil)] at hto
        exact hr hto.symm
      rw [InterceptSet.target, if_pos hurl] at hto
      rw [eq_comm, substituted_eq_iff hurl]
      constructor
      · exact fun hsame => .inr hsame.1
      · rintro (heq | hsame)
        · exact absurd heq hr
        · have hown : (h.rule host).url = host :=
            (congrArg InterceptSet.url hsame).symm.trans hto.symm
          refine ⟨hsame, ?_⟩
          rw [InterceptSet.target, hown]
          split <;> rfl

/-! ## The dial -/

/-- A plain request is dialled as its rule says. -/
theorem Keeper.dial_wait {sk : Keeper} {host service : List Char} {is : Option InterceptSet}
    {d : Dial} (hd : sk.dial (.wait host service is) = some d) :
    d = ⟨host, service, useDoh is⟩ := by
  have hsvc : ∀ sk : HttpSvcKeeper, sk.dial host service is = some d →
      d = ⟨host, service, useDoh is⟩ := by
    intro sk hd
    unfold HttpSvcKeeper.dial at hd
    split at hd
    · cases hd
    · cases hd
      rfl
  cases sk with
  | httpSvc sk => exact hsvc sk hd
  | hack sk => exact hsvc sk hd
  | mitm m => cases hd

/-- A tunnel is dialled without DoH, but for that of a MITM server. -/
theorem Keeper.dial_tunnel (sk : Keeper) (host service : List Char) (is : InterceptSet) :
    ∃ d, sk.dial (.waitTunnel host service (some is)) = some d ∧
      (d.useDoh = is.doh ↔ is.doh = false ∨ ((∃ hsk, sk = .hack hsk) ∧ is.mitm = true)) := by
  cases sk with
  | httpSvc sk =>
    refine ⟨⟨host, service, false⟩, rfl, ?_⟩
    simp
  | mitm m =>
    refine ⟨⟨host, service, false⟩, rfl, ?_⟩
    simp
  | hack sk =>
    cases hm : is.mitm with
    | true =>
      refine ⟨⟨host, service, is.doh⟩, ?_, ?_⟩
      · show (if is.mitm = true then _ else _) = _
        rw [if_pos hm]
      · simp
    | false =>
      refine ⟨⟨host, service, false⟩, ?_, ?_⟩
      · show (if is.mitm = true then _ else _) = _
        rw [hm, if_neg Bool.false_ne_true]
      · simp

/-- A keeper that is not that of a MITM session dials for every call. -/
theorem Keeper.dial_isSome {sk : Keeper} (hsk : sk.Unassigned) {c : Call}
    (hc : ∀ host service is, c = .wait host service is → host ≠ []) :
    (∃ m, sk = .mitm m) ∨ ∃ d, sk.dial c = some d := by
  have hsvc : ∀ (sk : HttpSvcKeeper) (host service : List Char) (is : Option InterceptSet),
      sk.host = [] → host ≠ [] → ∃ d, sk.dial host service is = some d := by
    intro sk host service is hnil hne
    refine ⟨⟨host, service, useDoh is⟩, ?_⟩
    unfold HttpSvcKeeper.dial
    rw [if_neg]
    rintro ⟨-, rfl, -⟩
    exact hne hnil
  cases sk with
  | mitm m => exact Or.inl ⟨m, rfl⟩
  | httpSvc sk =>
    right
    cases c with
    | wait host service is => exact hsvc sk host service is hsk.1 (hc _ _ _ rfl)
    | waitTunnel host service is => exact ⟨⟨host, service, false⟩, rfl⟩
  | hack sk =>
    right
    cases c with
    | wait host service is => exact hsvc sk host service is hsk.1 (hc _ _ _ rfl)
    | waitTunnel host service is =>
      cases is with
      | none => exact ⟨⟨host, service, false⟩, rfl⟩
      | some is =>
        obtain ⟨d, hd, -⟩ := Keeper.dial_tunnel (.hack sk) host service is
        exact ⟨d, hd⟩

/-! ## The request -/

/-- The call for an accepted request, as its line was parsed and its rule selected. -/
theorem callFor_selected {sel : Selected} {m m1 : Memory} {a : Accepted} {c : Call}
    {own : HttpRequest} {headerEnd : Nat} (ha : acceptHead h sel m make = .ret a)
    (hacc : a.accepted = true) (hc : callFor a = some c)
    (hown : parserRequestLine m make = .ret (m1, some (own, headerEnd))) :
    c.is = (select h sel own).1.is ∧ c.host = (select h sel own).2.host ∧
      (own.method = .connect ↔ ∃ host service is, c = .waitTunnel host service is) := by
  obtain ⟨m2, req, he, hline, hheaders, hsel⟩ := acceptHead_accepted ha hacc
  rw [hown] at hline
  cases hline
  obtain ⟨hmethod, hhost, -⟩ := parserRequestHeaders_req hheaders
  rw [select_req] at hmethod
  cases c with
  | waitTunnel host service is =>
    obtain ⟨hm, rfl, -, rfl⟩ := callFor_tunnel.mp hc
    exact ⟨by rw [← hsel]; rfl, hhost, ⟨fun _ => ⟨_, _, _, rfl⟩, fun _ => hmethod ▸ hm⟩⟩
  | wait host service is =>
    obtain ⟨hm, -, rfl, -, rfl⟩ := callFor_wait.mp hc
    refine ⟨by rw [← hsel]; rfl, hhost, fun h => absurd (hmethod.trans h) hm, ?_⟩
    rintro ⟨_, _, _, h⟩
    cases h

/-- The set and the host of a call are those of the request's own host when what is kept is. -/
theorem selectedOwn_iff {t : Traced} {own : HttpRequest} {call : Call} (hi : c.Inv h t)
    (hc : Calls h (c.make h) t.session own call) :
    (call.is = some (h.rule own.host).substituted ∧
        call.host = (h.rule own.host).target own.host) ↔
      (own.host = t.session.selected.host → own.port = t.session.selected.svc →
        ∃ r, t.lookedUp = some r ∧ (r = own.host ∨ (h.rule r).SameAs (h.rule own.host))) := by
  obtain ⟨⟨a, ha, hacc, hcall⟩, m1, headerEnd, hline⟩ := hc
  obtain ⟨his, hhost, -⟩ := callFor_selected ha hacc hcall hline
  rw [his, hhost]
  rcases select_cases (h := h) t.session.selected own with ⟨h1, h2, heq⟩ | ⟨hne, heq⟩
  · rw [heq]
    simp only [h1, h2, true_implies]
    rw [← h1]
    exact keptBy_own hi.kept h1
  · rw [heq]
    exact ⟨fun _ h1 h2 => absurd ⟨h1, h2⟩ hne, fun _ => ⟨rfl, rfl⟩⟩

/-- What answers a plain request was dialled by its rule, or by that of the tunnel. -/
theorem dialledOwn_wait {t : Traced} {own : HttpRequest} {host service : List Char}
    (hi : c.Inv h t) (hne : host ≠ []) :
    (∃ d, t.session.sk.connectedBy t.made
          (.wait host service (some (h.rule own.host).substituted)) = some d ∧
        d.useDoh = (h.rule own.host).doh) ↔
      ∀ r service ss w, c = .mitm r service ss w → (h.rule r).doh = (h.rule own.host).doh := by
  have hkeeper := hi.keeper
  cases c with
  | plain hack ss =>
    obtain ⟨hsk, hno, -⟩ := hkeeper
    refine iff_of_true ?_ (by rintro r service ss w ⟨⟩)
    rcases Keeper.dial_isSome hsk (c := .wait host service (some (h.rule own.host).substituted))
      (fun host service is heq => by
        cases heq
        exact hne) with ⟨m, hm⟩ | ⟨d, hd⟩
    · exact absurd hm (hno m)
    · refine ⟨d, by rw [Keeper.connectedBy, hd]; rfl, ?_⟩
      rw [Keeper.dial_wait hd]
      exact InterceptSet.substituted_doh _
  | mitm r service' ss w =>
    obtain ⟨⟨m, hm⟩, hmade⟩ := hkeeper
    rw [connectedBy_held hm, hmade]
    constructor
    · rintro ⟨d, hd, hdoh⟩ r1 service1 ss1 w1 heq
      cases heq
      cases hd
      exact hdoh
    · exact fun hall => ⟨_, rfl, hall _ _ _ _ rfl⟩

/-- A tunnel is dialled by the rule when this asks for no DoH, or the tunnel is a MITM one. -/
theorem dialledOwn_tunnel {t : Traced} {own : HttpRequest} {host service : List Char}
    (hi : c.Inv h t) :
    (∃ d, t.session.sk.connectedBy t.made
          (.waitTunnel host service (some (h.rule own.host).substituted)) = some d ∧
        d.useDoh = (h.rule own.host).doh) ↔
      (h.rule own.host).doh = false ∨
        ((∃ ss, c = .plain true ss) ∧ (h.rule own.host).mitm = true) := by
  obtain ⟨d, hd, hiff⟩ := t.session.sk.dial_tunnel host service (h.rule own.host).substituted
  rw [InterceptSet.substituted_doh, InterceptSet.substituted_mitm] at hiff
  have hkind : (∃ hsk, t.session.sk = .hack hsk) ↔ ∃ ss, c = .plain true ss := by
    have hkeeper := hi.keeper
    cases c with
    | plain hack ss =>
      obtain ⟨-, -, rfl⟩ := hkeeper
      cases t.session.sk with
      | httpSvc sk => simp [Keeper.hacks]
      | hack sk => simp [Keeper.hacks]
      | mitm m => simp [Keeper.hacks]
    | mitm r service ss w =>
      obtain ⟨⟨m, hm⟩, -⟩ := hkeeper
      simp [hm]
  rw [← hkind, ← hiff, Keeper.connectedBy, hd]
  simp

/-- **The selection of the rule** at any point of a connection. -/
theorem ownRule_iff {t : Traced} {own : HttpRequest} {call : Call} (hi : c.Inv h t)
    (hc : Calls h (c.make h) t.session own call) :
    OwnRule h (t.session.sk.connectedBy t.made call) own call ↔ RuleOk h c t own := by
  have hselect := selectedOwn_iff hi hc
  obtain ⟨⟨a, ha, hacc, hcall⟩, m1, headerEnd, hline⟩ := hc
  obtain ⟨-, -, hmethod⟩ := callFor_selected ha hacc hcall hline
  have hdial : call.is = some (h.rule own.host).substituted →
      ((∃ d, t.session.sk.connectedBy t.made call = some d ∧
          d.useDoh = (h.rule own.host).doh) ↔
        (own.method = .connect → (h.rule own.host).doh = false ∨
          ((∃ ss, c = .plain true ss) ∧ (h.rule own.host).mitm = true)) ∧
        (own.method ≠ .connect → ∀ r service ss w, c = .mitm r service ss w →
          (h.rule r).doh = (h.rule own.host).doh)) := by
    intro his
    cases call with
    | wait host service is =>
      obtain rfl : is = _ := his
      obtain ⟨-, hne, rfl, -, -⟩ := callFor_wait.mp hcall
      have hno : own.method ≠ .connect := by
        intro hconnect
        obtain ⟨_, _, _, heq⟩ := hmethod.mp hconnect
        cases heq
      rw [dialledOwn_wait hi hne]
      simp [hno]
    | waitTunnel host service is =>
      obtain rfl : is = _ := his
      have hyes : own.method = .connect := hmethod.mpr ⟨_, _, _, rfl⟩
      rw [dialledOwn_tunnel hi]
      simp [hyes]
  constructor
  · intro hr
    obtain ⟨hconnect, hinside⟩ := (hdial hr.is).mp hr.doh
    exact ⟨hselect.mp ⟨hr.is, hr.host⟩, hconnect, hinside⟩
  · intro hm
    obtain ⟨his, hhost⟩ := hselect.mpr hm.kept
    exact ⟨his, hhost, (hdial his).mpr ⟨hm.connect, hm.inside⟩⟩

end Selection

theorem byOwnRule_iff {h : HttpHandler} {c : Opening} {t : Traced} {p : Pass} (hi : c.Inv h t) :
    ByOwnRule h (c.make h) t p ↔ MeetsRule h c t p :=
  forall_congr' fun _ => forall_congr' fun _ => forall_congr' fun hc => ownRule_iff hi hc

/-- `a` is sent to `b`, and `b` is to be asked by DoH. -/
def substituteThenDoh : HttpHandler where
  baseHandlers := []
  directFilter := [("a".toList, { InterceptSet.empty with url := "b".toList }),
    ("b".toList, { InterceptSet.empty with doh := true })]
  regxFilter := []

end Hcpp
