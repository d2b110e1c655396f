import Hcpp.Lib.Runs
import Hcpp.Server.AcceptHead
import Hcpp.Server.HttpDoSteps

/-!
# Runs of `http_do` and what they leave behind

Two facts decide which rule a request gets and which memory answers it, and neither is
in the state: the host whose rule is the one that is kept, and the `make_socket` call
that connected the memory the keeper holds.  `Traced` has them beside the session; no
step looks at them.  `Opening` is how `http_do` is started, for a client of the proxy or
behind a MITM tunnel, and `Opening.inv_run` says what every run keeps: the rule is that
of the host that was looked up last, and the keeper is the one it was started with.
-/

namespace Hcpp

open Memory Runs

/-! ## The rule of a host -/

/-- `find(host_)`, or an empty set. -/
def HttpHandler.rule (h : HttpHandler) (host : List Char) : InterceptSet :=
  (h.find host).getD .empty

/-- Where a request for `host` goes by this rule. -/
def InterceptSet.target (is : InterceptSet) (host : List Char) : List Char :=
  if is.url ≠ [] then is.url else host

/-- The rule with the host that the request is sent to. -/
def InterceptSet.substituted (is : InterceptSet) : InterceptSet :=
  if is.url ≠ [] then { is with host := is.url } else is

@[simp] theorem InterceptSet.substituted_url (is : InterceptSet) : is.substituted.url = is.url := by
  unfold substituted
  split <;> rfl

@[simp] theorem InterceptSet.substituted_doh (is : InterceptSet) : is.substituted.doh = is.doh := by
  unfold substituted
  split <;> rfl

@[simp] theorem InterceptSet.substituted_mitm (is : InterceptSet) :
    is.substituted.mitm = is.mitm := by
  unfold substituted
  split <;> rfl

section Selection

variable {h : HttpHandler} {make : HttpRequest}

/-- The selection: the rule that is kept, or the one of the request's host. -/
theorem select_cases (sel : Selected) (req : HttpRequest) :
    (req.host = sel.host ∧ req.port = sel.svc ∧ select h sel req = (sel, req)) ∨
      (¬ (req.host = sel.host ∧ req.port = sel.svc) ∧
        select h sel req = (⟨(h.rule req.host).target req.host, req.port,
          some (h.rule req.host).substituted⟩,
          { req with host := (h.rule req.host).target req.host })) := by
  unfold select HttpHandler.rule InterceptSet.target InterceptSet.substituted
  by_cases hc : req.host = sel.host ∧ req.port = sel.svc
  · exact Or.inl ⟨hc.1, hc.2, if_pos hc⟩
  · right
    refine ⟨hc, ?_⟩
    rw [if_neg hc]
    cases h.find req.host with
    | none => rfl
    | some opt =>
      simp only [Option.getD_some]
      by_cases hurl : opt.url ≠ []
      · simp only [if_pos hurl]
      · simp only [if_neg hurl]

/-- Nothing is kept yet, or the rule of the host that was looked up last. -/
def KeptBy (h : HttpHandler) (sel : Selected) : Option (List Char) → Prop
  | none => sel = .init
  | some r => sel.host = (h.rule r).target r ∧ sel.is = some (h.rule r).substituted

/-- The host that was looked up last, when a rule has been selected for `own`. -/
def lookedUpFor (sel : Selected) (lookedUp : Option (List Char)) (own : HttpRequest) :
    Option (List Char) :=
  if own.host = sel.host ∧ own.port = sel.svc then lookedUp else some own.host

theorem keptBy_select {sel : Selected} {lookedUp : Option (List Char)}
    (hk : KeptBy h sel lookedUp) (own : HttpRequest) :
    KeptBy h (select h sel own).1 (lookedUpFor sel lookedUp own) := by
  unfold lookedUpFor
  rcases select_cases (h := h) sel own with ⟨h1, h2, heq⟩ | ⟨hne, heq⟩
  · rw [heq, if_pos ⟨h1, h2⟩]
    exact hk
  · rw [heq, if_neg hne]
    exact ⟨rfl, rfl⟩

/-- A request goes to the host that is kept from then on. -/
theorem select_host (sel : Selected) (own : HttpRequest) :
    (select h sel own).2.host = (select h sel own).1.host := by
  rcases select_cases (h := h) sel own with ⟨h1, -, heq⟩ | ⟨-, heq⟩
  · rw [heq]
    exact h1
  · rw [heq]

end Selection

/-! ## The keepers -/

/-- `host_` and `service_` of the keeper are those it was built with. -/
def Keeper.Unassigned : Keeper → Prop
  | .httpSvc sk => sk.host = [] ∧ sk.service = []
  | .hack sk => sk.host = [] ∧ sk.service = []
  | .mitm _ => True

theorem HttpSvcKeeper.wait_frame {net : Dial → Peer} {sk sk' : HttpSvcKeeper} {w : Upstream}
    {host service : List Char} {is : Option InterceptSet}
    (hw : sk.wait net host service is = .ret (sk', w)) :
    sk'.host = sk.host ∧ sk'.service = sk.service := by
  unfold HttpSvcKeeper.wait at hw
  cases hd : sk.dial host service is with
  | none =>
    rw [hd] at hw
    cases hw
    exact ⟨rfl, rfl⟩
  | some d =>
    rw [hd] at hw
    obtain ⟨u, -, hw⟩ := Outcome.bind_eq_ret.mp hw
    cases hw
    exact ⟨rfl, rfl⟩

section Wait

variable {net : Dial → Peer} {sk sk' : Keeper} {w : Upstream} {host service : List Char}
  {is : Option InterceptSet}

/-- A keeper stays what it is: one that dials waits as an `http_svc_keeper` does, and that of
a MITM session has its memory at hand. -/
theorem Keeper.wait_kinds (hw : sk.wait net host service is = .ret (sk', w)) :
    (∃ k k', k.wait net host service is = .ret (k', w) ∧
      ((sk = .httpSvc k ∧ sk' = .httpSvc k') ∨ (sk = .hack k ∧ sk' = .hack k'))) ∨
      ∃ m, sk = .mitm (some m) ∧ sk' = .mitm (some m) := by
  cases sk with
  | httpSvc k =>
    obtain ⟨⟨k', u⟩, hwait, hret⟩ := Outcome.bind_eq_ret.mp hw
    cases hret
    exact Or.inl ⟨k, k', hwait, Or.inl ⟨rfl, rfl⟩⟩
  | hack k =>
    obtain ⟨⟨k', u⟩, hwait, hret⟩ := Outcome.bind_eq_ret.mp hw
    cases hret
    exact Or.inl ⟨k, k', hwait, Or.inr ⟨rfl, rfl⟩⟩
  | mitm mem =>
    cases mem with
    | none => cases hw
    | some m =>
      cases hw
      exact Or.inr ⟨m, rfl, rfl⟩

/-- Neither a `wait` nor the use of its memory assigns them. -/
theorem Keeper.unassigned_wait (hsk : sk.Unassigned)
    (hw : sk.wait net host service is = .ret (sk', w)) (m : Memory) : (sk'.put m).Unassigned := by
  rcases Keeper.wait_kinds hw with ⟨k, k', hwait, ⟨rfl, rfl⟩ | ⟨rfl, rfl⟩⟩ | ⟨m', rfl, rfl⟩
  · obtain ⟨h1, h2⟩ := HttpSvcKeeper.wait_frame hwait
    exact ⟨h1.trans hsk.1, h2.trans hsk.2⟩
  · obtain ⟨h1, h2⟩ := HttpSvcKeeper.wait_frame hwait
    exact ⟨h1.trans hsk.1, h2.trans hsk.2⟩
  · trivial

/-- Whether it is `hack_sk`. -/
def Keeper.hacks : Keeper → Bool
  | .httpSvc _ => false
  | .hack _ => true
  | .mitm _ => false

/-- Only that of a MITM session has one memory throughout. -/
theorem Keeper.mitm_wait (hw : sk.wait net host service is = .ret (sk', w)) (w' : Memory) :
    (∀ m, sk ≠ .mitm m) ∧ (∀ m, sk'.put w' ≠ .mitm m) ∨
      (∃ m, sk = .mitm (some m)) ∧ sk'.put w' = .mitm (some w') := by
  rcases Keeper.wait_kinds hw with ⟨k, k', -, ⟨rfl, rfl⟩ | ⟨rfl, rfl⟩⟩ | ⟨m, rfl, rfl⟩
  · exact Or.inl ⟨fun m hm => (by cases hm), fun m hm => by cases hm⟩
  · exact Or.inl ⟨fun m hm => (by cases hm), fun m hm => by cases hm⟩
  · exact Or.inr ⟨⟨m, rfl⟩, rfl⟩

theorem Keeper.hacks_wait (hw : sk.wait net host service is = .ret (sk', w)) (w' : Memory) :
    (sk'.put w').hacks = sk.hacks := by
  rcases Keeper.wait_kinds hw with ⟨k, k', -, ⟨rfl, rfl⟩ | ⟨rfl, rfl⟩⟩ | ⟨m, rfl, rfl⟩ <;> rfl

end Wait

/-- The `make_socket` call that connected what answers the call; `made` is the one that
connected the memory the keeper holds. -/
def Keeper.connectedBy (sk : Keeper) (made : Option Dial) (c : Call) : Option Dial :=
  (sk.dial c).or made

/-! ## The passes -/

section Pass

variable (h : HttpHandler) (o : HashOrder) (make : HttpRequest)

/-- The request of this pass, if it has one that goes to an upstream. -/
def proxied (s : Session) : Option Accepted :=
  if s.ss.reset.ok then
    match acceptHead h s.selected s.ss.reset make with
    | .ret a =>
      if a.accepted ∧ a.req.method ≠ .connect ∧ a.req.host ≠ [] then some a else none
    | _ => none
  else none

/-- `sk->wait(req.host_, req.port_, is)` -/
def Accepted.call (a : Accepted) : Call := .wait a.req.host a.req.port a.selected.is

/-- A session with the host whose rule is kept and the call that connected the memory of
its keeper. -/
structure Traced where
  session : Session
  lookedUp : Option (List Char)
  made : Option Dial

def lookedUpNext (t : Traced) : Option (List Char) :=
  match parserRequestLine t.session.ss.reset make with
  | .ret (_, some (own, _)) => lookedUpFor t.session.selected t.lookedUp own
  | _ => t.lookedUp

def madeNext (t : Traced) : Option Dial :=
  match proxied h make t.session with
  | some a => t.session.sk.connectedBy t.made a.call
  | none => t.made

def tracedStep (t : Traced) (p : Pass) : Option Traced :=
  (httpDoStep h o make t.session p).map fun s => ⟨s, lookedUpNext make t, madeNext h make t⟩

end Pass

section Step

variable {h : HttpHandler} {o : HashOrder} {make : HttpRequest}

theorem proxied_eq_some {s : Session} {a : Accepted} : proxied h make s = some a ↔
    s.ss.ok = true ∧ acceptHead h s.selected s.ss.reset make = .ret a ∧ a.accepted = true ∧
      a.req.method ≠ .connect ∧ a.req.host ≠ [] := by
  unfold proxied
  have hreset : s.ss.reset.ok = s.ss.ok := rfl
  rw [hreset]
  cases s.ss.ok with
  | false => simp
  | true =>
    cases ha : acceptHead h s.selected s.ss.reset make with
    | ret b =>
      simp only [if_true, Outcome.ret.injEq, true_and]
      constructor
      · intro hb
        by_cases hcond : b.accepted = true ∧ b.req.method ≠ .connect ∧ b.req.host ≠ []
        · rw [if_pos hcond, Option.some.injEq] at hb
          exact hb ▸ ⟨rfl, hcond⟩
        · rw [if_neg hcond] at hb
          cases hb
      · rintro ⟨rfl, hcond⟩
        exact if_pos hcond
    | throws => simp
    | spins => simp
    | undefined => simp

/-- A head keeps the rule of the host that was looked up last, accepted or not. -/
theorem keptBy_acceptHead {t : Traced} (hk : KeptBy h t.session.selected t.lookedUp) {a : Accepted}
    (ha : acceptHead h t.session.selected t.session.ss.reset make = .ret a) :
    KeptBy h a.selected (lookedUpNext make t) := by
  unfold acceptHead at ha
  unfold lookedUpNext
  cases hline : parserRequestLine t.session.ss.reset make with
  | throws =>
    rw [hline] at ha
    cases ha
  | spins =>
    rw [hline] at ha
    cases ha
  | undefined =>
    rw [hline] at ha
    cases ha
  | ret x =>
    obtain ⟨m1, p⟩ := x
    rw [hline, Outcome.ret_bind] at ha
    cases p with
    | none =>
      simp only [Outcome.pure_eq, Outcome.ret.injEq] at ha
      exact ha ▸ hk
    | some q =>
      obtain ⟨own, headerEnd⟩ := q
      simp only at ha
      have hsel := keptBy_select hk own
      obtain ⟨⟨m2, p⟩, -, ha⟩ := Outcome.bind_eq_ret.mp ha
      cases p with
      | none =>
        simp only [Outcome.pure_eq, Outcome.ret.injEq] at ha
        exact ha ▸ hsel
      | some req =>
        simp only [Outcome.pure_eq, Outcome.ret.injEq] at ha
        exact ha ▸ hsel

theorem keptBy_step {t : Traced} {s' : Session} {p : Pass}
    (hk : KeptBy h t.session.selected t.lookedUp)
    (hs : httpDoStep h o make t.session p = some s') :
    KeptBy h s'.selected (lookedUpNext make t) := by
  obtain ⟨answered, ht⟩ := httpDoStep_eq_some.mp hs
  cases httpDoTurn_cases ht with
  | rejected hok ha hacc => exact keptBy_acceptHead hk ha
  | served hok ha hacc ht =>
    have hsel := keptBy_acceptHead hk ha
    cases ht with
    | upstream hm hh hwait hrelay => exact hsel
    | here hm hh => exact hsel

/-- What the keeper is when a pass has been made. -/
theorem sk_of_step {s s' : Session} {p : Pass} (hs : httpDoStep h o make s p = some s') :
    s'.sk = s.sk ∨ ∃ (a : Accepted) (sk : Keeper) (w : Upstream) (w' : Memory),
      a.req.host ≠ [] ∧ s.sk.wait p.net a.req.host a.req.port a.selected.is = .ret (sk, w) ∧
      s'.sk = sk.put w' := by
  obtain ⟨answered, ht⟩ := httpDoStep_eq_some.mp hs
  cases httpDoTurn_cases ht with
  | rejected hok ha hacc => exact Or.inl rfl
  | served hok ha hacc ht =>
    cases ht with
    | here hm hh => exact Or.inl rfl
    | upstream hm hh hwait hrelay => exact Or.inr ⟨_, _, _, _, hh, hwait, rfl⟩

end Step

/-! ## From the start -/

/-- How `http_do` is started: for a client of the proxy, with `http_svc_keeper` or
`hack_sk`; or behind a MITM tunnel that was opened by the rule of `r`, with the memory `w`
made for it. -/
inductive Opening where
  | plain (hack : Bool) (ss : Memory)
  | mitm (r service : List Char) (ss w : Memory)

/-- The `make_socket` call of `make_memory`. -/
def tunnelDial (h : HttpHandler) (r service : List Char) : Dial :=
  ⟨(h.rule r).target r, service, (h.rule r).doh⟩

namespace Opening

variable (h : HttpHandler)

/-- `make_request` -/
def make : Opening → HttpRequest
  | plain _ _ => .make [] []
  | mitm r service _ _ => .make (tunnelDial h r service).host service

def start : Opening → Traced
  | plain hack ss => ⟨.init ss (if hack then .hack .init else .httpSvc .init), none, none⟩
  | mitm r service ss w => ⟨.init ss (.mitm (some w)), none, some (tunnelDial h r service)⟩

/-- A keeper that dials, or the tunnel's memory. -/
def Keeps (c : Opening) (t : Traced) : Prop :=
  match c with
  | plain hack _ => t.session.sk.Unassigned ∧ (∀ m, t.session.sk ≠ .mitm m) ∧
      t.session.sk.hacks = hack
  | mitm r service _ _ =>
    (∃ m, t.session.sk = .mitm (some m)) ∧ t.made = some (tunnelDial h r service)

structure Inv (c : Opening) (t : Traced) : Prop where
  kept : KeptBy h t.session.selected t.lookedUp
  keeper : c.Keeps h t

end Opening

section Run

variable {h : HttpHandler} {o : HashOrder} {c : Opening}

theorem Opening.inv_start : c.Inv h (c.start h) := by
  cases c with
  | plain hack ss =>
    cases hack with
    | false => exact ⟨rfl, ⟨rfl, rfl⟩, fun m hm => (by cases hm), rfl⟩
    | true => exact ⟨rfl, ⟨rfl, rfl⟩, fun m hm => (by cases hm), rfl⟩
  | mitm r service ss w => exact ⟨rfl, ⟨w, rfl⟩, rfl⟩

/-- A memory that is held was connected by the call that made it. -/
theorem connectedBy_held {t : Traced} {m : Memory} (hm : t.session.sk = .mitm (some m))
    (host service : List Char) (is : Option InterceptSet) :
    t.session.sk.connectedBy t.made (.wait host service is) = t.made := by
  rw [hm]
  rfl

theorem Opening.inv_step {t t' : Traced} {p : Pass} (hi : c.Inv h t)
    (hs : tracedStep h o (c.make h) t p = some t') : c.Inv h t' := by
  unfold tracedStep at hs
  obtain ⟨s', hstep, rfl⟩ := Option.map_eq_some_iff.mp hs
  obtain ⟨hkept, hkeeper⟩ := hi
  refine ⟨keptBy_step hkept hstep, ?_⟩
  cases c with
  | plain hack ss =>
    obtain ⟨hsk, hno, hkind⟩ := hkeeper
    show s'.sk.Unassigned ∧ (∀ m, s'.sk ≠ .mitm m) ∧ s'.sk.hacks = hack
    rcases sk_of_step hstep with heq | ⟨a, sk, w, w', -, hwait, heq⟩
    · rw [heq]
      exact ⟨hsk, hno, hkind⟩
    · rw [heq]
      refine ⟨Keeper.unassigned_wait hsk hwait w', ?_, (Keeper.hacks_wait hwait w').trans hkind⟩
      rcases Keeper.mitm_wait hwait w' with ⟨-, h⟩ | ⟨⟨m, h⟩, -⟩
      · exact h
      · exact absurd h (hno _)
  | mitm r service ss w =>
    obtain ⟨⟨m, hm⟩, hmade⟩ := hkeeper
    constructor
    · rcases sk_of_step hstep with heq | ⟨a, sk, w, w', -, hwait, heq⟩
      · exact ⟨m, heq.trans hm⟩
      · rcases Keeper.mitm_wait hwait w' with ⟨h, -⟩ | ⟨-, h⟩
        · exact absurd hm (h _)
        · exact ⟨w', heq.trans h⟩
    · show madeNext _ _ _ = _
      unfold madeNext
      cases proxied h _ t.session with
      | none => exact hmade
      | some a => exact (connectedBy_held hm _ _ _).trans hmade

/-- **What every run keeps.** -/
theorem Opening.inv_run {ps : List Pass} {t : Traced}
    (hs : run (tracedStep h o (c.make h)) (c.start h) ps = some t) : c.Inv h t :=
  run_inv (fun _ _ _ hi ht => Opening.inv_step hi ht) Opening.inv_start hs

/-- **How a MITM tunnel is opened**: a CONNECT that is tunnelled by the rule of `r` is
connected as `tunnelDial` says, whatever was served before. -/
theorem connect_opens {ps : List Pass} {t : Traced} {a : Accepted} {r : List Char}
    (hs : run (tracedStep h o (c.make h)) (c.start h) ps = some t)
    (ha : acceptHead h t.session.selected t.session.ss.reset (c.make h) = .ret a)
    (hacc : a.accepted = true) (hm : a.req.method = .connect)
    (hr : lookedUpNext (c.make h) t = some r) (hmitm : (h.rule r).mitm = true)
    (sk : HttpSvcKeeper) :
    ∃ call, callFor a = some call ∧
      (Keeper.hack sk).dial call = some (tunnelDial h r a.req.port) := by
  have hkept := keptBy_acceptHead (Opening.inv_run hs).kept ha
  rw [hr] at hkept
  obtain ⟨hhost, his⟩ := hkept
  obtain ⟨m1, own, headerEnd, -, hheaders, hsel⟩ := acceptHead_accepted ha hacc
  have hsent : a.req.host = (h.rule r).target r := by
    rw [(parserRequestHeaders_req hheaders).2.1, select_host, ← hsel, hhost]
  refine ⟨_, callFor_tunnel.mpr ⟨hm, rfl, rfl, rfl⟩, ?_⟩
  rw [his, hsent]
  show (if (h.rule r).substituted.mitm = true then _ else _) = _
  rw [InterceptSet.substituted_mitm, if_pos hmitm, InterceptSet.substituted_doh]
  rfl

end Run

end Hcpp
