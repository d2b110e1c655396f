import Hcpp.Server.HttpDo

/-!
# What a pass of `http_do` can do

A pass that returns ended, or rejected a head, or served an accepted one; a
request is served by a tunnel, by an upstream, or here.
-/

namespace Hcpp

variable {h : HttpHandler} {o : HashOrder} {make : HttpRequest} {net : Dial → Peer} {fuel : Nat}

theorem callFor_tunnel {a : Accepted} {host service : List Char} {is : Option InterceptSet} :
    callFor a = some (.waitTunnel host service is) ↔ a.req.method = .connect ∧
      a.req.host = host ∧ a.req.port = service ∧ a.selected.is = is := by
  unfold callFor
  by_cases hc : a.req.method = .connect
  · simp [hc]
  · by_cases hh : a.req.host ≠ []
    · simp [hc, hh]
    · simp [hc, hh]

theorem callFor_wait {a : Accepted} {host service : List Char} {is : Option InterceptSet} :
    callFor a = some (.wait host service is) ↔ a.req.method ≠ .connect ∧ a.req.host ≠ [] ∧
      a.req.host = host ∧ a.req.port = service ∧ a.selected.is = is := by
  unfold callFor
  by_cases hc : a.req.method = .connect
  · simp [hc]
  · by_cases hh : a.req.host ≠ []
    · simp [hc, hh]
    · simp [hc, hh]

theorem callFor_none {a : Accepted} :
    callFor a = none ↔ a.req.method ≠ .connect ∧ a.req.host = [] := by
  unfold callFor
  by_cases hc : a.req.method = .connect
  · simp [hc]
  · by_cases hh : a.req.host = []
    · simp [hc, hh]
    · simp [hc, hh]

/-- What a request was served by. -/
inductive ServedBy (h : HttpHandler) (o : HashOrder) (net : Dial → Peer) (fuel : Nat)
    (sk : Keeper) (a : Accepted) : Turn → Prop where
  | tunnel (hm : a.req.method = .connect) : ServedBy h o net fuel sk a .ended
  | upstream (hm : a.req.method ≠ .connect) (hh : a.req.host ≠ []) {sk' : Keeper} {w : Upstream}
      {w' ss' : Memory} {accepted : Bool}
      (hwait : sk.wait net a.req.host a.req.port a.selected.is = .ret (sk', w))
      (hrelay : relay fuel o a.req a.ss w = .ret (w', ss', accepted)) :
      ServedBy h o net fuel sk a
        (.next ⟨if accepted then ss' else errorTail false ss', a.selected, sk'.put w'⟩ (some w'))
  | here (hm : a.req.method ≠ .connect) (hh : a.req.host = []) :
      ServedBy h o net fuel sk a (.next ⟨answerLocal h a.req a.ss, a.selected, sk⟩ none)

theorem serve_cases {sk : Keeper} {a : Accepted} {t : Turn}
    (ht : serve h o net fuel sk a = .ret t) :
    ServedBy h o net fuel sk a t := by
  unfold serve at ht
  cases hc : callFor a with
  | none =>
    rw [hc] at ht
    simp only [Outcome.ret.injEq] at ht
    obtain ⟨hm, hh⟩ := callFor_none.mp hc
    exact ht ▸ .here hm hh
  | some c =>
    rw [hc] at ht
    cases c with
    | waitTunnel host service is =>
      simp only [Outcome.ret.injEq] at ht
      exact ht ▸ .tunnel (callFor_tunnel.mp hc).1
    | wait host service is =>
      obtain ⟨hm, hh, rfl, rfl, rfl⟩ := callFor_wait.mp hc
      simp only at ht
      obtain ⟨⟨sk', w⟩, hwait, ht⟩ := Outcome.bind_eq_ret.mp ht
      obtain ⟨⟨w', ss', accepted⟩, hrelay, ht⟩ := Outcome.bind_eq_ret.mp ht
      simp only [Outcome.pure_eq, Outcome.ret.injEq] at ht
      exact ht ▸ .upstream hm hh hwait hrelay

/-- What a pass did. -/
inductive Passed (h : HttpHandler) (o : HashOrder) (make : HttpRequest) (net : Dial → Peer)
    (fuel : Nat) (s : Session) : Turn → Prop where
  | closed (hok : s.ss.ok = false) : Passed h o make net fuel s .ended
  | rejected (hok : s.ss.ok = true) {a : Accepted}
      (ha : acceptHead h s.selected s.ss.reset make = .ret a) (hacc : a.accepted = false) :
      Passed h o make net fuel s
        (.next ⟨errorTail a.req.hasError a.ss, a.selected, s.sk⟩ none)
  | served (hok : s.ss.ok = true) {a : Accepted} {t : Turn}
      (ha : acceptHead h s.selected s.ss.reset make = .ret a) (hacc : a.accepted = true)
      (ht : ServedBy h o net fuel s.sk a t) : Passed h o make net fuel s t

theorem httpDoTurn_cases {s : Session} {t : Turn} (ht : httpDoTurn h o make net fuel s = .ret t) :
    Passed h o make net fuel s t := by
  unfold httpDoTurn at ht
  have hreset : s.ss.reset.ok = s.ss.ok := rfl
  rw [hreset] at ht
  cases hok : s.ss.ok with
  | false =>
    rw [hok] at ht
    simp only [Bool.not_false, if_true, Outcome.ret.injEq] at ht
    exact ht ▸ .closed hok
  | true =>
    rw [hok] at ht
    simp only [Bool.not_true, Bool.false_eq_true, if_false] at ht
    obtain ⟨a, ha, ht⟩ := Outcome.bind_eq_ret.mp ht
    cases hacc : a.accepted with
    | false =>
      rw [hacc] at ht
      simp only [Bool.false_eq_true, if_false, Outcome.pure_eq, Outcome.ret.injEq] at ht
      exact ht ▸ .rejected hok ha hacc
    | true =>
      rw [hacc, if_pos rfl] at ht
      exact .served hok ha hacc (serve_cases ht)

/-- A pass that accepts a head serves it. -/
theorem httpDoTurn_of_accepted {s : Session} {a : Accepted} (hok : s.ss.ok = true)
    (ha : acceptHead h s.selected s.ss.reset make = .ret a) (hacc : a.accepted = true) :
    httpDoTurn h o make net fuel s = serve h o net fuel s.sk a := by
  have hreset : s.ss.reset.ok = s.ss.ok := rfl
  unfold httpDoTurn
  rw [hreset, hok, ha]
  simp only [Bool.not_true, Bool.false_eq_true, if_false, Outcome.ret_bind, hacc, if_true]

theorem httpDoStep_eq_some {s s' : Session} {p : Pass} :
    httpDoStep h o make s p = some s' ↔
      ∃ answered, httpDoTurn h o make p.net p.fuel s = .ret (.next s' answered) := by
  unfold httpDoStep
  split
  · rename_i t answered heq
    rw [heq, Option.some.injEq]
    constructor
    · rintro rfl
      exact ⟨answered, rfl⟩
    · rintro ⟨_, h⟩
      cases h
      rfl
  · rename_i hne
    constructor
    · intro h
      cases h
    · rintro ⟨answered, h⟩
      exact absurd h (hne s' answered)

end Hcpp
