import Hcpp.Lib.Runs
import Hcpp.Mem.Sound
import Hcpp.Server.HttpDoSteps
import Hcpp.Server.RelayBody

/-!
# The memories of a session

`http_do` reads and relays with the operations of `Memory` alone, so the memory of
the client and the one its keeper holds are sound in every pass, whatever the
client and the upstreams send (`sound_run`).
-/

namespace Hcpp

open Memory Runs

/-! ## The bodies -/

section Bodies

variable {self to_ self' to' : Memory}

theorem scanSize_sound (fuel : Nat) {csStr csStr' : List Char} (h : self.Sound)
    (hret : scanSize fuel self csStr = .ret (self', csStr')) : self'.Sound := by
  induction fuel generalizing self csStr with
  | zero => cases hret
  | succ fuel ih =>
    rw [scanSize] at hret
    split at hret
    · obtain ⟨⟨m1, str⟩, hload, hret⟩ := Outcome.bind_eq_ret.mp hret
      exact ih (h.loadSome (show 0 < 1024 * 4 by omega) hload).1 hret
    · rw [Outcome.ret.injEq, Prod.mk.injEq] at hret
      rw [← hret.1]
      exact h

theorem transferChunkLoop_sound (fuel : Nat) {k n : Nat} (h : self.Sound)
    (hret : transferChunkLoop fuel self to_ k = .ret (self', to', n)) : self'.Sound := by
  induction fuel generalizing self to_ k with
  | zero => cases hret
  | succ fuel ih =>
    rw [transferChunkLoop] at hret
    obtain ⟨⟨m1, csStr⟩, hscan, hret⟩ := Outcome.bind_eq_ret.mp hret
    have hm1 := scanSize_sound fuel h hscan
    cases hp : Search.find crlf csStr with
    | none =>
      simp only [hp] at hret
      cases hret
    | some p =>
      simp only [hp] at hret
      obtain ⟨chunkSize, -, hret⟩ := Outcome.bind_eq_ret.mp hret
      by_cases h0 : chunkSize = 0
      · rw [if_pos h0] at hret
        obtain ⟨⟨m2, t2, tn⟩, htail, hret⟩ := Outcome.bind_eq_ret.mp hret
        rw [Outcome.ret.injEq, Prod.mk.injEq] at hret
        rw [← hret.1]
        exact transferMemUntil_sound hm1 (by decide) htail
      · rw [if_neg h0] at hret
        obtain ⟨⟨m2, t2, tn⟩, hchunk, hret⟩ := Outcome.bind_eq_ret.mp hret
        simp only at hret
        split at hret
        · cases hret
        · exact ih (transferMem_sound hm1 hchunk) hret

theorem relayRest_sound (fuel : Nat) (h : self.Sound)
    (hret : relayRest fuel self to_ = .ret (self', to')) : self'.Sound := by
  induction fuel generalizing self to_ with
  | zero => cases hret
  | succ fuel ih =>
    rw [relayRest] at hret
    obtain ⟨⟨m1, str⟩, hload, hret⟩ := Outcome.bind_eq_ret.mp hret
    obtain ⟨hm1, hle⟩ := h.loadSome (show 0 < 1024 * 4 by omega) hload
    simp only at hret
    split at hret
    · rw [Outcome.ret.injEq, Prod.mk.injEq] at hret
      rw [← hret.1]
      exact hm1
    · exact ih (hm1.remove hle) hret

theorem relayBody_sound {fuel : Nat} {mode : BodyMode} (h : self.Sound)
    (hret : relayBody fuel mode self to_ = .ret (self', to')) : self'.Sound := by
  obtain ⟨hmerge, hget⟩ := h.merge
  cases mode with
  | chunked =>
    obtain ⟨⟨m1, t1, n⟩, hchunk, hret⟩ := Outcome.bind_eq_ret.mp hret
    obtain ⟨rfl, -⟩ := Prod.mk.inj (Outcome.ret.inj hret)
    exact transferChunkLoop_sound fuel hmerge hchunk
  | length n =>
    rw [relayBody, transferMsgBody] at hret
    split at hret
    · obtain ⟨⟨m1, t1, k⟩, hmem, hret⟩ := Outcome.bind_eq_ret.mp hret
      obtain ⟨rfl, -⟩ := Prod.mk.inj (Outcome.ret.inj hret)
      exact transferMem_sound h hmem
    · obtain ⟨rfl, -⟩ := Prod.mk.inj (Outcome.ret.inj hret)
      exact h
  | untilClose =>
    rw [relayBody, relayUntilClose] at hret
    split at hret
    · exact relayRest_sound fuel (hmerge.remove (by rw [hget])) hret
    · exact relayRest_sound fuel hmerge hret
  | none =>
    obtain ⟨rfl, -⟩ := Prod.mk.inj (Outcome.ret.inj hret)
    exact h

/-- The other memory has been written to. -/
theorem relayBody_writes {fuel : Nat} {mode : BodyMode}
    (hret : relayBody fuel mode self to_ = .ret (self', to')) : ∃ ws, to' = to_.takes ws := by
  obtain ⟨a, ws, heq, -⟩ := (writes_relayBody fuel mode self).run hret
  exact ⟨ws, (Prod.mk.inj heq).2⟩

end Bodies

/-! ## The heads -/

section Heads

variable {m m' : Memory}

theorem length_firstLine_le (msg : List Char) : (firstLine msg).length ≤ msg.length := by
  unfold firstLine
  split
  · rw [List.length_take]
    exact Nat.min_le_right _ _
  · rw [List.length_take]
    exact Nat.min_le_right _ _

/-- The line and the rest of the head are as long as what was loaded; where nothing was,
`header_end_` wraps around and back. -/
theorem headerEnd_eq {msg line : List Char} (hle : line.length ≤ msg.length)
    (hsmall : msg.length < 2 ^ 31) :
    toSizeT ((toSizeT (msg.length - line.length - 2) : Nat) + 2) = msg.length - line.length := by
  unfold toSizeT
  omega

/-- Behind the first line, what `header_end_` says is unread. -/
theorem firstLine_sound {msg : List Char} (h : m.Sound)
    (hload : m.asyncLoadUntil crlfcrlf = .ret (m', msg)) :
    m'.Sound ∧ (m'.removeSome (firstLine msg).length).Sound ∧
      toSizeT ((toSizeT (msg.length - (firstLine msg).length - 2) : Nat) + 2) ≤
        (m'.removeSome (firstLine msg).length).unread.length := by
  obtain ⟨hm, hmsg⟩ := h.loadUntil (by decide) hload
  have hfirst := length_firstLine_le msg
  have hsmall : m'.unread.length < 2 ^ 31 := by
    have hs := hm.small
    change m'.readIndex + (m'.unread ++ m'.incoming.flatten).length < 2 ^ 31 at hs
    rw [List.length_append] at hs
    omega
  obtain ⟨-, hu⟩ := removeSome_spec hm.wf (n := (firstLine msg).length) (by omega)
  refine ⟨hm, hm.remove (by omega), ?_⟩
  rw [headerEnd_eq hfirst (by omega), hu, List.length_drop]
  omega

theorem parserResponse_sound {r : HttpResponse} {accepted : Bool} (h : m.Sound)
    (hret : parserResponse m = .ret (m', r, accepted)) : m'.Sound := by
  rw [parserResponse] at hret
  obtain ⟨⟨m1, r1, headerEnd⟩, hline, hret⟩ := Outcome.bind_eq_ret.mp hret
  rw [parserResponseLine] at hline
  obtain ⟨⟨m2, msg⟩, hload, hline⟩ := Outcome.bind_eq_ret.mp hline
  simp only [Outcome.pure_eq, Outcome.ret.injEq, Prod.mk.injEq] at hline
  obtain ⟨rfl, -, rfl⟩ := hline
  obtain ⟨-, hm1, hle⟩ := firstLine_sound h hload
  simp only [parserResponseHeaders] at hret
  obtain ⟨⟨ok, headers⟩, -, hret⟩ := Outcome.bind_eq_ret.mp hret
  cases ok with
  | false =>
    simp only [Bool.false_eq_true, if_false, Outcome.pure_eq, Outcome.ret.injEq,
      Prod.mk.injEq] at hret
    rw [← hret.1]
    exact hm1
  | true =>
    simp only [if_true, Outcome.pure_eq, Outcome.ret.injEq, Prod.mk.injEq] at hret
    rw [← hret.1]
    exact hm1.remove hle

theorem parserRequestHeaders_sound {req : HttpRequest} {headerEnd : Nat}
    {p : Option HttpRequest} (h : m.Sound) (hle : toSizeT (headerEnd + 2) ≤ m.unread.length)
    (hret : parserRequestHeaders m req headerEnd = .ret (m', p)) : m'.Sound := by
  rw [parserRequestHeaders] at hret
  obtain ⟨⟨ok, headers⟩, -, hret⟩ := Outcome.bind_eq_ret.mp hret
  cases ok with
  | false =>
    simp only [Bool.false_eq_true, if_false, Outcome.pure_eq, Outcome.ret.injEq,
      Prod.mk.injEq] at hret
    rw [← hret.1]
    exact h
  | true =>
    simp only [if_true, Outcome.pure_eq, Outcome.ret.injEq, Prod.mk.injEq] at hret
    rw [← hret.1]
    exact h.remove hle

theorem acceptHead_sound {hd : HttpHandler} {sel : Selected} {make : HttpRequest} {a : Accepted}
    (h : m.Sound) (ha : acceptHead hd sel m make = .ret a) : a.ss.Sound := by
  rw [acceptHead] at ha
  obtain ⟨⟨m1, p⟩, hline, ha⟩ := Outcome.bind_eq_ret.mp ha
  rw [parserRequestLine] at hline
  obtain ⟨⟨m2, msg⟩, hload, hline⟩ := Outcome.bind_eq_ret.mp hline
  obtain ⟨hm2, hm3, hle⟩ := firstLine_sound h hload
  simp only at hline
  cases hp : parserLine (firstLine msg) make with
  | none =>
    simp only [hp, Outcome.pure_eq, Outcome.ret.injEq, Prod.mk.injEq] at hline
    obtain ⟨rfl, rfl⟩ := hline
    rw [← Outcome.ret.inj ha]
    exact hm2
  | some req =>
    simp only [hp, Outcome.pure_eq, Outcome.ret.injEq, Prod.mk.injEq] at hline
    obtain ⟨rfl, rfl⟩ := hline
    simp only at ha
    obtain ⟨⟨m4, p⟩, hheaders, ha⟩ := Outcome.bind_eq_ret.mp ha
    have hm4 := parserRequestHeaders_sound hm3 hle hheaders
    cases p with
    | none =>
      rw [← Outcome.ret.inj ha]
      exact hm4
    | some req' =>
      rw [← Outcome.ret.inj ha]
      exact hm4

end Heads

/-! ## A pass, and a run of passes -/

/-- The memory a keeper holds. -/
def Keeper.Sound : Keeper → Prop
  | .httpSvc sk => ∀ w, sk.m = some (some w) → w.Sound
  | .hack sk => ∀ w, sk.m = some (some w) → w.Sound
  | .mitm m => ∀ w, m = some w → w.Sound

/-- Every server sends less than 2^31 bytes over one connection. -/
def SmallNet (net : Dial → Peer) : Prop :=
  ∀ d incoming room, net d = .accepts incoming room → incoming.flatten.length < 2 ^ 31

structure Session.Sound (s : Session) : Prop where
  client : s.ss.Sound
  keeper : s.sk.Sound

section Passes

variable {h : HttpHandler} {o : HashOrder} {make : HttpRequest} {net : Dial → Peer} {fuel : Nat}

theorem Keeper.sound_put {w : Memory} (hw : w.Sound) (sk : Keeper) : (sk.put w).Sound := by
  cases sk <;> rintro w' hw' <;> cases hw' <;> exact hw

theorem HttpSvcKeeper.wait_sound {sk sk' : HttpSvcKeeper} {host service : List Char}
    {is : Option InterceptSet} {w : Memory} (hnet : SmallNet net)
    (hsk : ∀ w, sk.m = some (some w) → w.Sound)
    (hret : sk.wait net host service is = .ret (sk', some w)) : w.Sound := by
  unfold HttpSvcKeeper.wait at hret
  cases hd : sk.dial host service is with
  | none =>
    simp only [hd, Outcome.ret.injEq, Prod.mk.injEq] at hret
    refine hsk w ?_
    cases hm : sk.m with
    | none =>
      rw [hm] at hret
      cases hret.2
    | some u =>
      rw [hm, Option.getD_some] at hret
      rw [hret.2]
  | some d =>
    simp only [hd] at hret
    unfold makeSocket at hret
    cases hp : net d with
    | throws =>
      rw [hp] at hret
      cases hret
    | refused =>
      rw [hp] at hret
      cases hret
    | accepts incoming room =>
      rw [hp] at hret
      cases hret
      exact Sound.fresh .plain room (hnet d incoming room hp)

theorem Keeper.wait_sound {sk sk' : Keeper} {host service : List Char} {is : Option InterceptSet}
    {w : Memory} (hnet : SmallNet net) (hsk : sk.Sound)
    (hret : sk.wait net host service is = .ret (sk', some w)) : w.Sound := by
  cases sk with
  | httpSvc sk =>
    obtain ⟨⟨sk1, u⟩, hw, hret⟩ := Outcome.bind_eq_ret.mp hret
    obtain ⟨-, rfl⟩ := Prod.mk.inj (Outcome.ret.inj hret)
    exact HttpSvcKeeper.wait_sound hnet hsk hw
  | hack sk =>
    obtain ⟨⟨sk1, u⟩, hw, hret⟩ := Outcome.bind_eq_ret.mp hret
    obtain ⟨-, rfl⟩ := Prod.mk.inj (Outcome.ret.inj hret)
    exact HttpSvcKeeper.wait_sound hnet hsk hw
  | mitm m =>
    cases m with
    | none => cases hret
    | some w' =>
      cases hret
      exact hsk w rfl

theorem errorTail_sound {m : Memory} (hm : m.Sound) (hasError : Bool) :
    (errorTail hasError m).Sound := hm.takes [_]

theorem answerLocal_sound {m : Memory} (hm : m.Sound) (req : HttpRequest) :
    (answerLocal h req m).Sound := by
  unfold answerLocal
  split
  · exact errorTail_sound (hm.takes [_]) _
  · exact hm.takes [_]

theorem closeBoth_sound {w ss : Memory} (rp : HttpResponse) (hw : w.Sound) (hss : ss.Sound) :
    (closeBoth rp w ss).1.Sound ∧ (closeBoth rp w ss).2.Sound := by
  unfold closeBoth
  split
  · exact ⟨hw.close, hss.close⟩
  · exact ⟨hw, hss⟩

theorem relayResponse_sound {w ss w' ss' : Memory} {accepted : Bool} (hw : w.Sound)
    (hss : ss.Sound) (hret : relayResponse fuel w ss = .ret (w', ss', accepted)) :
    w'.Sound ∧ ss'.Sound := by
  rw [relayResponse] at hret
  obtain ⟨⟨w1, rp, ok⟩, hparse, hret⟩ := Outcome.bind_eq_ret.mp hret
  have hw1 := parserResponse_sound hw hparse
  cases ok with
  | false =>
    cases hret
    exact ⟨hw1, hss⟩
  | true =>
    obtain ⟨hw2, hss2⟩ := closeBoth_sound rp hw1 hss
    obtain ⟨⟨w3, ss3⟩, hbody, hret⟩ := Outcome.bind_eq_ret.mp hret
    cases hret
    obtain ⟨ws, hws⟩ := relayBody_writes hbody
    refine ⟨relayBody_sound hw2 hbody, ?_⟩
    rw [hws]
    exact (hss2.takes [_]).takes ws

theorem relay_sound {req : HttpRequest} {ss ss' w w' : Memory} {accepted : Bool} (hw : w.Sound)
    (hss : ss.Sound) (hret : relay fuel o req ss (some w) = .ret (w', ss', accepted)) :
    w'.Sound ∧ ss'.Sound := by
  obtain ⟨⟨ss1, w1⟩, hbody, hret⟩ := Outcome.bind_eq_ret.mp hret
  obtain ⟨ws, rfl⟩ := relayBody_writes hbody
  exact relayResponse_sound ((hw.takes [_]).takes ws) (relayBody_sound hss hbody) hret

/-- **A pass keeps the memories sound.** -/
theorem httpDoTurn_sound {s s' : Session} {answered : Option Memory} (hnet : SmallNet net)
    (hs : s.Sound) (ht : httpDoTurn h o make net fuel s = .ret (.next s' answered)) :
    s'.Sound := by
  have hreset := hs.client.reset.sound
  cases httpDoTurn_cases ht with
  | rejected hok ha hacc => exact ⟨errorTail_sound (acceptHead_sound hreset ha) _, hs.keeper⟩
  | served hok ha hacc ht =>
    have hss := acceptHead_sound hreset ha
    cases ht with
    | here hm hh => exact ⟨answerLocal_sound hss _, hs.keeper⟩
    | @upstream hm hh sk' w w' ss' accepted hwait hrelay =>
      cases w with
      | none => cases hrelay
      | some w =>
        obtain ⟨hw', hss'⟩ := relay_sound (Keeper.wait_sound hnet hs.keeper hwait) hss hrelay
        refine ⟨?_, Keeper.sound_put hw' sk'⟩
        cases accepted with
        | false => exact errorTail_sound hss' false
        | true => exact hss'

/-- **The memories are sound in every pass.** -/
theorem sound_run {ps : List Pass} {s s' : Session} (hs : s.Sound)
    (hps : ∀ p ∈ ps, SmallNet p.net) (hrun : run (httpDoStep h o make) s ps = some s') :
    s'.Sound := by
  refine run_inv_of_meets (C := fun _ p => SmallNet p.net) ?_ hs (meets_of_forall hps) hrun
  intro t p t' ht hp hstep
  obtain ⟨answered, hturn⟩ := httpDoStep_eq_some.mp hstep
  exact httpDoTurn_sound hp ht hturn

end Passes

end Hcpp
