import Hcpp.Lib.Runs
import Hcpp.Server.Intercept

/-!
# Reuse of the memory of `http_svc_keeper`

`http_svc_keeper::wait` compares the request with `host_` and `service_`, which
nothing assigns.  `keepAlive_iff`: in a run of calls the memory is reused for the
host and service it was connected to, and for no others, if and only if every
call meets `Unnamed`.
-/

namespace Hcpp

open Runs

/-! ## Runs of calls -/

/-- The keeper, with the call before, if it returned a memory, and the host and service
of the last connection. -/
structure KeeperRun where
  sk : HttpSvcKeeper
  prev : Option (List Char × List Char)
  conn : List Char × List Char
deriving DecidableEq, Repr

namespace KeeperRun

def init : KeeperRun := ⟨.init, none, ([], [])⟩

end KeeperRun

inductive KeeperEvent where
  /-- `wait`, and what would come of `make_socket` -/
  | call (host service : List Char) (is : Option InterceptSet) (peer : Peer)
  /-- the memory is used, or its peer closes -/
  | changes (w : Memory)
deriving DecidableEq, Repr

namespace KeeperRun

def step (s : KeeperRun) : KeeperEvent → Option KeeperRun
  | .call host service is peer =>
    match s.sk.wait (fun _ => peer) host service is with
    | .ret (sk, _) => some ⟨sk, some (host, service),
        if (s.sk.dial host service is).isSome then (host, service) else s.conn⟩
    | _ => some { s with prev := none }
  | .changes w =>
    match s.sk.m with
    | some (some _) => some { s with sk := { s.sk with m := some (some w) } }
    | _ => some s

/-- The call repeats the one before, whose memory is still ok and alive. -/
def Reuses (s : KeeperRun) (host service : List Char) (w : Memory) : Prop :=
  s.prev = some (host, service) ∧ s.sk.m = some (some w) ∧ w.ok = true ∧ w.alive = true

/-- `host_` and `service_` name the endpoint `m_` was connected to. -/
def Named (s : KeeperRun) : Prop :=
  ∀ w, s.sk.m = some (some w) → (s.sk.host, s.sk.service) = s.conn

/-- A call that repeats the one before returns the same memory without connecting as long
as it is ok and alive, any other one connects to what it asks for. -/
def KeepsAlive (s : KeeperRun) (e : KeeperEvent) : Prop :=
  (match e with
    | .call host service is peer =>
      (∀ w, s.Reuses host service w → s.sk.dial host service is = none ∧
        s.sk.wait (fun _ => peer) host service is = .ret (s.sk, some w)) ∧
      ((¬ ∃ w, s.Reuses host service w) →
        s.sk.dial host service is = some ⟨host, service, useDoh is⟩)
    | .changes _ => True) ∧
    ∀ s', s.step e = some s' → s'.Named

/-- A call that is to reuse the memory asks for the empty host and service; any other one
asks for them only while `m_` is not set, and is connected only if it asks for them. -/
def Unnamed (s : KeeperRun) : KeeperEvent → Prop
  | .call host service _ peer =>
    ((∃ w, s.Reuses host service w) → host = [] ∧ service = []) ∧
      ((¬ ∃ w, s.Reuses host service w) →
        (s.sk.m = none ∨ ¬ (host = [] ∧ service = [])) ∧
          (∀ incoming room, peer = .accepts incoming room → host = [] ∧ service = []))
  | .changes _ => True

/-- Nothing assigns `host_` and `service_`. -/
structure Inv (s : KeeperRun) : Prop where
  host : s.sk.host = []
  service : s.sk.service = []
  named : s.Named

theorem inv_init : Inv .init := ⟨rfl, rfl, fun _ h => by cases h⟩

/-! ## One call -/

section Call

variable {s : KeeperRun} {host service : List Char} {is : Option InterceptSet} {peer : Peer}

theorem dial_eq (h : s.Inv) : s.sk.dial host service is =
    if s.sk.m.isSome ∧ host = [] ∧ service = [] then none else some ⟨host, service, useDoh is⟩ := by
  have hnames : ([] = host ∧ [] = service) ↔ (host = [] ∧ service = []) :=
    and_congr eq_comm eq_comm
  unfold HttpSvcKeeper.dial
  simp only [h.host, h.service, hnames]

/-- A call that does not connect leaves the keeper as it is. -/
theorem step_of_dial_none (hd : s.sk.dial host service is = none) :
    s.step (.call host service is peer) = some { s with prev := some (host, service) } := by
  rw [step, HttpSvcKeeper.wait, hd]
  rfl

/-- A call that connects. -/
theorem step_of_dial_some {d : Dial} (hd : s.sk.dial host service is = some d) :
    s.step (.call host service is peer) = some (match peer with
      | .throws => { s with prev := none }
      | .refused => ⟨{ s.sk with m := some none }, some (host, service), (host, service)⟩
      | .accepts incoming room => ⟨{ s.sk with m := some (some (.fresh .plain incoming room)) },
          some (host, service), (host, service)⟩) := by
  rw [step, HttpSvcKeeper.wait, hd]
  cases peer <;> rfl

/-- Only calls for the empty host and service find `m_`. -/
theorem dial_eq_none_iff (h : s.Inv) :
    s.sk.dial host service is = none ↔ s.sk.m.isSome ∧ host = [] ∧ service = [] := by
  rw [dial_eq h]
  by_cases hc : s.sk.m.isSome ∧ host = [] ∧ service = []
  · simp [hc]
  · simp [hc]

end Call

section Step

variable {s s' : KeeperRun} {e : KeeperEvent}

/-- The use of the memory keeps its endpoint. -/
theorem step_changes {w : Memory} (hs : s.step (.changes w) = some s') :
    s'.sk.host = s.sk.host ∧ s'.sk.service = s.sk.service ∧ s'.conn = s.conn ∧
      ∀ v, s'.sk.m = some (some v) → ∃ u, s.sk.m = some (some u) := by
  cases hm : s.sk.m with
  | none =>
    simp only [step, hm, Option.some.injEq] at hs
    subst hs
    refine ⟨rfl, rfl, rfl, fun v hv => ?_⟩
    rw [hm] at hv
    cases hv
  | some u =>
    cases u with
    | none =>
      simp only [step, hm, Option.some.injEq] at hs
      subst hs
      refine ⟨rfl, rfl, rfl, fun v hv => ?_⟩
      rw [hm] at hv
      cases hv
    | some u =>
      simp only [step, hm, Option.some.injEq] at hs
      subst hs
      exact ⟨rfl, rfl, rfl, fun v _ => ⟨u, rfl⟩⟩

theorem step_frame (hs : s.step e = some s') :
    s'.sk.host = s.sk.host ∧ s'.sk.service = s.sk.service := by
  cases e with
  | call host service is peer =>
    cases hd : s.sk.dial host service is with
    | none =>
      rw [step_of_dial_none hd, Option.some.injEq] at hs
      rw [← hs]
      exact ⟨rfl, rfl⟩
    | some d =>
      rw [step_of_dial_some hd, Option.some.injEq] at hs
      rw [← hs]
      cases peer <;> exact ⟨rfl, rfl⟩
  | changes w =>
    obtain ⟨h1, h2, -⟩ := step_changes hs
    exact ⟨h1, h2⟩

theorem inv_step (h : s.Inv) (hk : s.KeepsAlive e) (hs : s.step e = some s') : s'.Inv := by
  obtain ⟨h1, h2⟩ := step_frame hs
  exact ⟨h1.trans h.host, h2.trans h.service, hk.2 s' hs⟩

theorem named_changes (h : s.Inv) {w : Memory} (hs : s.step (.changes w) = some s') :
    s'.Named := by
  obtain ⟨h1, h2, h3, hm⟩ := step_changes hs
  intro v hv
  obtain ⟨u, hu⟩ := hm v hv
  rw [h1, h2, h3]
  exact h.named u hu

/-- A call that reuses the memory is right exactly when it asks for no name. -/
theorem keepsAlive_reuse (h : s.Inv) {host service : List Char} {is : Option InterceptSet}
    {peer : Peer} (hr : ∃ w, s.Reuses host service w) :
    s.KeepsAlive (.call host service is peer) ↔ host = [] ∧ service = [] := by
  obtain ⟨w, hw⟩ := hr
  have hm := hw.2.1
  constructor
  · intro hk
    obtain ⟨hd, -⟩ := hk.1.1 w hw
    exact ((dial_eq_none_iff h).mp hd).2
  · intro hnil
    have hd : s.sk.dial host service is = none :=
      (dial_eq_none_iff h).mpr ⟨by rw [hm]; rfl, hnil⟩
    refine ⟨⟨fun v hv => ⟨hd, ?_⟩, fun hno => absurd ⟨w, hw⟩ hno⟩, fun s' hs => ?_⟩
    · rw [HttpSvcKeeper.wait, hd, hv.2.1]
      rfl
    · rw [step_of_dial_none hd, Option.some.injEq] at hs
      rw [← hs]
      exact h.named

/-- A call that is to connect is right exactly when it does, to no name. -/
theorem keepsAlive_connect (h : s.Inv) {host service : List Char} {is : Option InterceptSet}
    {peer : Peer} (hr : ¬ ∃ w, s.Reuses host service w) :
    s.KeepsAlive (.call host service is peer) ↔
      (s.sk.m = none ∨ ¬ (host = [] ∧ service = [])) ∧
        (∀ incoming room, peer = .accepts incoming room → host = [] ∧ service = []) := by
  have hdial : s.sk.dial host service is = some ⟨host, service, useDoh is⟩ ↔
      s.sk.m = none ∨ ¬ (host = [] ∧ service = []) := by
    rw [dial_eq h]
    cases hm : s.sk.m with
    | none => simp
    | some u => by_cases hnil : host = [] ∧ service = [] <;> simp [hnil]
  constructor
  · intro hk
    have hd := hk.1.2 hr
    refine ⟨hdial.mp hd, ?_⟩
    rintro incoming room rfl
    have hn := hk.2 _ (step_of_dial_some hd) (.fresh .plain incoming room) rfl
    rw [Prod.mk.injEq] at hn
    exact ⟨hn.1.symm.trans h.host, hn.2.symm.trans h.service⟩
  · rintro ⟨hd, hacc⟩
    have hd := hdial.mpr hd
    refine ⟨⟨fun w hw => absurd ⟨w, hw⟩ hr, fun _ => hd⟩, fun s' hs => ?_⟩
    rw [step_of_dial_some hd, Option.some.injEq] at hs
    rw [← hs]
    cases peer with
    | throws => exact h.named
    | refused => rintro w ⟨⟩
    | accepts incoming room =>
      obtain ⟨rfl, rfl⟩ := hacc incoming room rfl
      intro w _
      exact Prod.ext h.host h.service

theorem keepsAlive_iff (h : s.Inv) : s.KeepsAlive e ↔ s.Unnamed e := by
  cases e with
  | call host service is peer =>
    unfold Unnamed
    by_cases hr : ∃ w, s.Reuses host service w
    · rw [keepsAlive_reuse h hr]
      exact ⟨fun hnil => ⟨fun _ => hnil, fun hno => absurd hr hno⟩, fun hu => hu.1 hr⟩
    · rw [keepsAlive_connect h hr]
      exact ⟨fun hc => ⟨fun hyes => absurd hyes hr, fun _ => hc⟩, fun hu => hu.2 hr⟩
  | changes w => exact iff_of_true ⟨trivial, fun s' hs => named_changes h hs⟩ trivial

end Step

end KeeperRun

/-- **Keep-alive**, over all runs of calls: every call reuses or connects as it should, and
`host_` and `service_` name the endpoint of `m_`, exactly when no call that is connected or
is to reuse the memory asks for a name. -/
theorem keepAlive_iff (es : List KeeperEvent) :
    Meets KeeperRun.step KeeperRun.KeepsAlive .init es ↔
      Meets KeeperRun.step KeeperRun.Unnamed .init es :=
  meets_congr (fun _ _ _ h hk hs => KeeperRun.inv_step h hk hs)
    (fun _ _ h => KeeperRun.keepsAlive_iff h) KeeperRun.inv_init

/-- The second request to a server connects again. -/
theorem keepAlive_reconnects :
    ¬ ∀ es, Meets KeeperRun.step KeeperRun.KeepsAlive .init es := by
  intro hall
  let get : KeeperEvent := .call "a".toList "80".toList none (.accepts [] none)
  obtain ⟨-, hsecond⟩ := hall [get, get]
  obtain ⟨hk, -⟩ := hsecond _ rfl
  obtain ⟨hd, -⟩ := hk.1.1 (.fresh .plain [] none) ⟨rfl, rfl, rfl, rfl⟩
  cases hd

end Hcpp
