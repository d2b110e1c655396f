import Hcpp.Lib.Runs
import Hcpp.Server.HttpDoSteps
import Hcpp.Server.RelayBody

/-!
# `Connection: close`

`w->close(); ss->close();` set `closed_`, which `ok()` does not look at: the loop
of `http_do` goes on unless the client's memory gives out under the answer.  That
it does, behind TLS, when the body is relayed until the upstream closes: the last
write is empty and shuts the stream down.
-/

namespace Hcpp

open Memory Runs

section Close

variable (h : HttpHandler) (o : HashOrder) (make : HttpRequest)

/-- The pass gets to `w->close(); ss->close();` with these two memories, behind the
request and behind the head of its response. -/
structure AtClose (s : Session) (p : Pass) (w ss : Memory) (rp : HttpResponse) : Prop where
  closes : asksClose rp.headers = true
  reached : ∃ a sk up w1, s.ss.ok = true ∧
    acceptHead h s.selected s.ss.reset make = .ret a ∧ a.accepted = true ∧
    callFor a = some (.wait a.req.host a.req.port a.selected.is) ∧
    s.sk.wait p.net a.req.host a.req.port a.selected.is = .ret (sk, some up) ∧
    relayBody p.fuel (requestMode a.req) a.ss (up.asyncWriteAll (reqLine o a.req)) =
      .ret (ss, w1) ∧
    parserResponse w1 = .ret (w, rp, true)

/-- No further pass of the loop gets past `if (!ss->ok()) break;`. -/
def Over (s : Session) : Prop :=
  s.ss.reset.ok = false ∧ ∀ p : Pass, httpDoTurn h o make p.net p.fuel s = .ret .ended

/-- The session is over when a response with `Connection: close` has been handled. -/
def EndsAfterClose (s : Session) (p : Pass) : Prop :=
  ∀ w ss rp s' answered, AtClose h o make s p w ss rp →
    httpDoTurn h o make p.net p.fuel s = .ret (.next s' answered) → Over h o make s'

/-- The head of the response and the pieces of its body. -/
def Answer (fuel : Nat) (w : Memory) (rp : HttpResponse) (ws : List (List Char)) : Prop :=
  ∃ w' body, ws = (rp.responseLine ++ rp.responseHeaderStr) :: body ∧
    ∀ to_, relayBody fuel (responseMode rp false) w.close to_ = .ret (w', to_.takes body)

/-- The client is gone already, or is shut down by an empty piece of the answer, or
takes less than the answer. -/
def GivesOut (ss : Memory) (ws : List (List Char)) : Prop :=
  ss.ok = false ∨ (ss.kind = .ssl ∧ [] ∈ ws) ∨ ¬ ss.Fits ws.flatten.length

/-- The client's memory gives out under an answer that asks for a close. -/
def GivesOutAtClose (s : Session) (p : Pass) : Prop :=
  ∀ w ss rp ws, AtClose h o make s p w ss rp → Answer p.fuel w rp ws → GivesOut ss ws

end Close

section Close

variable {h : HttpHandler} {o : HashOrder} {make : HttpRequest} {s : Session} {p : Pass}
  {w ss : Memory} {rp : HttpResponse}

theorem ok_takes {m : Memory} {ws : List (List Char)} :
    (m.takes ws).ok = false ↔ GivesOut m ws := by
  have hkeeps : (m.takes ws).ok = true ↔
      m.ok = true ∧ (m.kind = .ssl → [] ∉ ws) ∧ m.Fits ws.flatten.length := by
    rw [ok_iff, ok_iff, (takes_reads m ws).2.1, writeOk_takes_iff, and_assoc]
  rw [← Bool.not_eq_true, hkeeps]
  unfold GivesOut
  rw [← Bool.not_eq_true]
  tauto

/-- The rest of a pass that gets to the close. -/
theorem AtClose.turn (hc : AtClose h o make s p w ss rp) :
    ∃ (sel : Selected) (sk : Keeper), httpDoTurn h o make p.net p.fuel s =
      relayBody p.fuel (responseMode rp false) w.close
          (ss.close.asyncWriteAll (rp.responseLine ++ rp.responseHeaderStr)) >>= fun x =>
        .ret (.next ⟨x.2, sel, sk.put x.1⟩ (some x.1)) := by
  obtain ⟨hcl, a, sk, up, w1, hok, ha, hacc, hcall, hwait, hreq, hrp⟩ := hc
  refine ⟨a.selected, sk, ?_⟩
  rw [httpDoTurn_of_accepted hok ha hacc]
  have hclose : closeBoth rp w ss = (w.close, ss.close) := if_pos hcl
  have halive : w.close.alive = false := rfl
  unfold serve relay relayResponse
  simp only [hcall, hwait, hreq, hrp, hclose, halive, Outcome.ret_bind, if_true]
  cases relayBody p.fuel (responseMode rp false) w.close
    (ss.close.asyncWriteAll (rp.responseLine ++ rp.responseHeaderStr)) <;> rfl

/-- `closed_` has no part in it. -/
theorem answered_ok (head : List Char) (body : List (List Char)) :
    ((ss.close.asyncWriteAll head).takes body).ok = false ↔ GivesOut ss (head :: body) := by
  show (ss.close.takes (head :: body)).ok = false ↔ GivesOut ss.close (head :: body)
  exact ok_takes

theorem over_iff {s : Session} : Over h o make s ↔ s.ss.ok = false := by
  constructor
  · exact fun hover => hover.1
  · intro hoff
    refine ⟨hoff, fun p => ?_⟩
    have hreset : s.ss.reset.ok = false := hoff
    unfold httpDoTurn
    rw [hreset]
    rfl

/-- The last write of a body that is read until the upstream closes is empty. -/
theorem relayRest_shuts {fuel : Nat} {w w' ss ss' : Memory} (hk : ss.kind = .ssl)
    (hr : relayRest fuel w ss = .ret (w', ss')) : ss'.writeOk = false := by
  induction fuel generalizing w ss with
  | zero => cases hr
  | succ fuel ih =>
    rw [relayRest, asyncLoadSome_page, Outcome.ret_bind] at hr
    by_cases hnil : (w.readSome (1024 * 4)).2 = []
    · simp only [hnil, if_true, Outcome.ret.injEq, Prod.mk.injEq] at hr
      rw [← hr.2]
      unfold asyncWriteAll
      rw [hk]
      rfl
    · simp only [if_neg hnil] at hr
      exact ih ((asyncWriteAll_reads _ _).2.2.1.trans hk) hr

/-- Behind TLS, an answer without a length shuts the client down. -/
theorem answer_untilClose {fuel : Nat} {ws : List (List Char)} (ha : Answer fuel w rp ws)
    (hm : responseMode rp false = .untilClose) : [] ∈ ws := by
  obtain ⟨w', body, rfl, hbody⟩ := ha
  rw [hm] at hbody
  by_contra hne
  have hssl := hbody (fresh .ssl [] none)
  have hoff : ((fresh .ssl [] none).takes body).writeOk = false := by
    unfold relayBody relayUntilClose at hssl
    simp only at hssl
    split at hssl
    · exact relayRest_shuts (asyncWriteAll_reads _ _).2.2.1 hssl
    · exact relayRest_shuts rfl hssl
  have hon : ((fresh .ssl [] none).takes body).writeOk = true := by
    rw [writeOk_takes_iff]
    refine ⟨rfl, fun _ hmem => hne (List.mem_cons_of_mem _ hmem), ?_⟩
    intro k hk
    cases hk
  rw [hoff] at hon
  cases hon

/-- **What becomes of the session** after a response with `Connection: close`. -/
theorem endsAfterClose_iff : EndsAfterClose h o make s p ↔ GivesOutAtClose h o make s p := by
  constructor
  · rintro hends w ss rp _ hc ⟨w', body, rfl, hbody⟩
    obtain ⟨sel, sk, hturn⟩ := hc.turn
    rw [hbody, Outcome.ret_bind] at hturn
    have hover := over_iff.mp (hends w ss rp _ _ hc hturn)
    exact (answered_ok _ _).mp hover
  · intro hgives w ss rp s' answered hc hturn
    obtain ⟨sel, sk, heq⟩ := hc.turn
    rw [heq] at hturn
    obtain ⟨⟨w', ss'⟩, hrelay, hret⟩ := Outcome.bind_eq_ret.mp hturn
    obtain ⟨a, body, hmk, hall⟩ :=
      (writes_relayBody p.fuel (responseMode rp false) w.close).run hrelay
    cases hmk
    have hout := hgives w ss rp _ hc ⟨w', body, rfl, hall⟩
    rw [Outcome.ret.injEq, Turn.next.injEq] at hret
    rw [over_iff, ← hret.1]
    exact (answered_ok _ _).mpr hout

end Close

/-- **Closing the session**, over all runs of `http_do`: after every response with
`Connection: close` it reads no further request and sends none, exactly when the
client's memory gives out under each of these answers. -/
theorem closes_session (h : HttpHandler) (o : HashOrder) (make : HttpRequest) (s : Session)
    (ps : List Pass) :
    Meets (httpDoStep h o make) (EndsAfterClose h o make) s ps ↔
      Meets (httpDoStep h o make) (GivesOutAtClose h o make) s ps :=
  meets_congr (I := fun _ => True) (fun _ _ _ _ _ _ => trivial) (fun _ _ _ => endsAfterClose_iff)
    trivial

/-- In a MITM session a second request is read behind the close, and goes to the same
upstream memory. -/
theorem session_goes_on :
    ∃ (h : HttpHandler) (o : HashOrder) (make : HttpRequest) (ss up : Memory) (p : Pass)
      (s1 s2 : Session) (w1 w2 : Memory),
      ¬ Meets (httpDoStep h o make) (EndsAfterClose h o make) (.init ss (.mitm (some up))) [p, p] ∧
      httpDoTurn h o make p.net p.fuel (.init ss (.mitm (some up))) = .ret (.next s1 (some w1)) ∧
      httpDoTurn h o make p.net p.fuel s1 = .ret (.next s2 (some w2)) ∧
      w2.written = w1.written ++ w1.written := by
  let get := "GET / HTTP/1.1\r\n\r\n".toList
  let closing := "HTTP/1.1 200 O\r\nConnection: close\r\nContent-Length: 1\r\n\r\nx".toList
  let sent := "GET / HTTP/1.1\r\nHost: a\r\n\r\n".toList
  let h : HttpHandler := ⟨[], [], []⟩
  let o : HashOrder := ⟨id, List.Perm.refl⟩
  let make := HttpRequest.make "a".toList "443".toList
  let p : Pass := ⟨fun _ => .throws, 3⟩
  let sel : Selected := ⟨"a".toList, "443".toList, some .empty⟩
  let ss := fresh .ssl [get, get] none
  let up := fresh .ssl [closing, closing] none
  -- the client and the upstream behind one response, and behind two
  let ss1 : Memory := { ss with
    readIndex := 18, writeIndex := 18, closed := true, incoming := [get], written := closing }
  let up1 : Memory := { up with
    readIndex := 57, writeIndex := 57, closed := true, incoming := [closing], written := sent }
  let ss2 : Memory := { ss1 with incoming := [], written := closing ++ closing }
  let up2 : Memory := { up1 with
    readIndex := 114, writeIndex := 114, incoming := [], written := sent ++ sent }
  have hturn : httpDoTurn h o make p.net p.fuel (.init ss (.mitm (some up))) =
      .ret (.next ⟨ss1, sel, .mitm (some up1)⟩ (some up1)) := by decide +kernel
  refine ⟨h, o, make, ss, up, p, ⟨ss1, sel, .mitm (some up1)⟩, ⟨ss2, sel, .mitm (some up2)⟩,
    up1, up2, ?_, hturn, by decide +kernel, by decide +kernel⟩
  intro hmeets
  -- the two memories at the close: the body of the response is still to come
  let ssc : Memory := { ss with readIndex := 18, writeIndex := 18, incoming := [get] }
  let upc : Memory := { up1 with
    buffs := [⟨0, closing⟩], readIndex := 56, closed := false, incoming := [closing] }
  let rp : HttpResponse := {
    headers := [("connection".toList, "Connection: close\r\n".toList),
      ("content-length".toList, "Content-Length: 1\r\n".toList)]
    bodySize := 1
    chunkCoding := false
    responseLine := "HTTP/1.1 200 O\r\n".toList
    responseHeaderStr := "Connection: close\r\nContent-Length: 1\r\n\r\n".toList }
  let req : HttpRequest := { make with
    method := .other, version := "HTTP/1.1".toList, methodStr := "GET".toList, url := "/".toList
    urlParamStart := 1 }
  have hclose : AtClose h o make (.init ss (.mitm (some up))) p upc ssc rp := by
    refine ⟨by decide +kernel, ⟨ssc, sel, req, true⟩, .mitm (some up), up,
      { up with written := sent }, by decide +kernel, by decide +kernel, rfl, by decide +kernel,
      rfl, by decide +kernel, by decide +kernel⟩
  have hover := hmeets.1 upc ssc rp _ _ hclose hturn
  revert hover
  rw [over_iff]
  decide

end Hcpp
