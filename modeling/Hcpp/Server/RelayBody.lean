import Hcpp.Http.TransferChunk
import Hcpp.Mem.Writes
import Hcpp.Server.ResponseMode

/-!
# A body is relayed

Behind a head the body that is there is taken off one memory and written to the
other (`relayBody_spec`), whatever the other one takes of it.
-/

namespace Hcpp

open Memory

/-- What reading does not change. -/
def Memory.side (m : Memory) : SockKind × Bool × Bool × Option Nat × List Char :=
  (m.kind, m.writeOk, m.closed, m.room, m.written)

theorem side_of_frame {m m' : Memory} (h : m'.frame = m.frame) :
    m'.side = m.side ∧ m'.readOk = m.readOk := by
  simp only [frame, Prod.mk.injEq] at h
  obtain ⟨h1, h2, h3, h4, h5, h6⟩ := h
  exact ⟨by rw [Memory.side, h1, h3, h4, h5, h6, Memory.side], h2⟩

/-! ## The loops write the same to any target -/

theorem writes_relayRest (fuel : Nat) (w : Memory) :
    Writes Prod.mk fun ss => relayRest fuel w ss := by
  induction fuel generalizing w with
  | zero => exact .spins
  | succ fuel ih =>
    simp only [relayRest]
    exact .ite _ (.ret _ [_]) ((ih _).after [_])

theorem writes_relayUntilClose (fuel : Nat) (w : Memory) :
    Writes Prod.mk fun ss => relayUntilClose fuel w ss := by
  simp only [relayUntilClose]
  exact .ite _ ((writes_relayRest _ _).after [_]) (writes_relayRest _ _)

theorem writes_relayBody (fuel : Nat) (mode : BodyMode) (self : Memory) :
    Writes Prod.mk fun to_ => relayBody fuel mode self to_ := by
  cases mode with
  | chunked => exact .seq (writes_transferChunk _ _) fun x => .ret x.1 []
  | length n =>
    simp only [relayBody, transferMsgBody]
    exact .ite _ (.seq (writes_transferMem _ _ _) fun x => .ret x.1 []) (.ret self [])
  | untilClose => exact writes_relayUntilClose _ _
  | none => exact .ret self []

/-! ## What is relayed -/

/-- `body` is next in `f`, and the mode gets it right. -/
structure BodyAt (mode : BodyMode) (f : Feed Char) (body : List Char) : Prop where
  next : body <+: f.bytes
  moved : match mode with
    | .chunked => ∃ b : ChunkedBody, b.encode = body ∧ Relays f b
    | .length n => body.length = n
    | .untilClose => body = f.bytes
    | .none => body = []

/-- What has been relayed: `body` is written in the pieces `ws`, and off the memory. -/
structure Relayed (mode : BodyMode) (from_ from' : Memory) (f : Feed Char) (body : List Char)
    (ws : List (List Char)) : Prop where
  pieces : ws.flatten = body
  wf : from'.WF
  stream : from'.stream = f.bytes.drop body.length
  side : from'.side = from_.side
  readOk : mode ≠ .untilClose → from'.readOk = from_.readOk
  last : mode = .untilClose → ∃ vs, ws = vs ++ [[]]

section Relayed

variable {self : Memory} {f : Feed Char} {body : List Char} {fuel : Nat}

/-- A target that takes everything. -/
def sink : Memory := fresh .plain [] none

theorem takes_sink {ws : List (List Char)} {body : List Char}
    (h : (sink.took body) = sink.takes ws) : ws.flatten = body := by
  have hok : (sink.takes ws).writeOk = true := by
    rw [← h]
    rfl
  have hw := (writeOk_takes hok).2
  rw [← h] at hw
  exact (List.append_cancel_left hw).symm

/-- Nothing is cached: the reads go on until the peer closes. -/
theorem relayRest_spec (fuel : Nat) : ∀ w : Memory, w.WF → w.unread = [] →
    w.incoming.flatten.length < fuel →
    ∃ w' ws, (∀ ss, relayRest fuel w ss = .ret (w', ss.takes (ws ++ [[]]))) ∧
      ws.flatten = w.incoming.flatten ∧ w'.WF ∧ w'.stream = [] ∧ w'.side = w.side := by
  induction fuel with
  | zero =>
    intro w _ _ hfuel
    omega
  | succ fuel ih =>
    intro w h hu hfuel
    cases hp : Feed.pull (1024 * 4) w.incoming with
    | none =>
      have hin := Feed.pull_eq_none_iff.mp hp
      refine ⟨{ w with readOk := false }, [], fun ss => ?_, hin.symm,
        ⟨h.chain, h.base_le, h.inFirst⟩, ?_, rfl⟩
      · rw [relayRest, asyncLoadSome_page, Outcome.ret_bind, readSome_of_closed hin]
        rfl
      · show w.unread ++ w.incoming.flatten = []
        rw [hu, hin]
        rfl
    | some q =>
      obtain ⟨r, incoming⟩ := q
      have hr := Feed.ne_nil_of_pull (by omega) hp
      have hpos := List.length_pos_of_ne_nil hr
      have hflat := Feed.flatten_of_pull hp
      have hlen := congrArg List.length hflat
      rw [List.length_append] at hlen
      obtain ⟨hwf, hu2⟩ := append_removeSome h hu hr incoming
      obtain ⟨w', ws, heq, hws, hwf', hst, hside⟩ :=
        ih ((w.append r incoming).removeSome r.length) hwf hu2
        (show incoming.flatten.length < fuel by omega)
      refine ⟨w', r :: ws, fun ss => ?_, ?_, hwf', hst, hside⟩
      · rw [relayRest, asyncLoadSome_page, Outcome.ret_bind, readSome_of_pull h hp]
        simp only [if_neg hr]
        exact heq _
      · rw [List.flatten_cons, hws]
        exact hflat

theorem relayUntilClose_spec (h : self.Represents f) (hfuel : f.bytes.length < fuel) :
    ∃ self' ws, (∀ to_, relayUntilClose fuel self to_ = .ret (self', to_.takes ws)) ∧
      Relayed .untilClose self self' f f.bytes ws := by
  obtain ⟨hrep, hget, hfr, -⟩ := h.merge
  obtain ⟨hmside, -⟩ := side_of_frame hfr
  have hbytes : f.bytes.length = f.cached.length + f.segs.flatten.length := by
    rw [Feed.bytes, List.length_append]
  have hnil : [] = f.bytes.drop f.bytes.length := List.drop_length.symm
  by_cases hc : f.cached = []
  · obtain ⟨w', ws, heq, hws, hwf, hst, hside⟩ := relayRest_spec fuel self.mergeSome hrep.wf
      (by rw [hrep.unread, hc]) (by rw [hrep.incoming]; omega)
    refine ⟨w', ws ++ [[]], fun to_ => ?_, ?_, hwf, hst.trans hnil,
      hside.trans hmside, fun h => absurd rfl h, fun _ => ⟨ws, rfl⟩⟩
    · rw [relayUntilClose]
      simp only [hget, hc, ne_eq, not_true_eq_false, if_false]
      exact heq to_
    · rw [List.flatten_append, hws, hrep.incoming, Feed.bytes, hc]
      simp
  · obtain ⟨hrep', -⟩ := hrep.remove (Nat.le_refl f.cached.length)
    obtain ⟨w', ws, heq, hws, hwf, hst, hside⟩ := relayRest_spec fuel
      (self.mergeSome.removeSome f.cached.length) hrep'.wf (by rw [hrep'.unread, List.drop_length])
      (by rw [hrep'.incoming]; show f.segs.flatten.length < fuel; omega)
    refine ⟨w', f.cached :: ws ++ [[]], fun to_ => ?_, ?_, hwf, hst.trans hnil,
      hside.trans hmside, fun h => absurd rfl h, fun _ => ⟨f.cached :: ws, rfl⟩⟩
    · rw [relayUntilClose]
      simp only [hget, ne_eq, hc, not_false_eq_true, if_true]
      exact heq _
    · rw [List.flatten_append, List.flatten_cons, hws, hrep'.incoming, Feed.bytes]
      simp

/-- **A body that is there is relayed**, to any target, and nothing else is. -/
theorem relayBody_spec {mode : BodyMode} (h : self.Represents f) (hb : BodyAt mode f body)
    (hfuel : f.bytes.length + 1 < fuel) :
    ∃ self' ws, (∀ to_, relayBody fuel mode self to_ = .ret (self', to_.takes ws)) ∧
      Relayed mode self self' f body ws := by
  obtain ⟨⟨after, hafter⟩, hmoved⟩ := hb
  have hdrop : f.bytes.drop body.length = after := by
    rw [← hafter]
    exact List.drop_left
  have hle : body.length ≤ f.bytes.length := by
    rw [← hafter, List.length_append]
    omega
  -- what is known of the sink holds of any target
  have hany : ∀ {self' : Memory}, relayBody fuel mode self sink = .ret (self', sink.took body) →
      ∃ ws, (∀ to_, relayBody fuel mode self to_ = .ret (self', to_.takes ws)) ∧
        ws.flatten = body := by
    intro self' hrun
    obtain ⟨a, ws, hret, hall⟩ := (writes_relayBody fuel mode self).run hrun
    obtain ⟨rfl, htook⟩ := Prod.mk.inj hret
    exact ⟨ws, hall, takes_sink htook⟩
  cases mode with
  | chunked =>
    obtain ⟨b, rfl, hr⟩ := hmoved
    obtain ⟨self', g, heq, hrep, hg, hfr⟩ := transferChunk_of_relays h (rfl : sink.room = none)
      hafter.symm hr hfuel
    obtain ⟨ws, hall, hws⟩ := hany (show relayBody fuel .chunked self sink = _ by
      rw [relayBody, heq, Outcome.ret_bind]
      rfl)
    exact ⟨self', ws, hall, hws, hrep.wf, by rw [hrep.stream, hg, hdrop],
      (side_of_frame hfr).1, fun _ => (side_of_frame hfr).2, nofun⟩
  | length n =>
    obtain rfl : body.length = n := hmoved
    obtain ⟨self', heq, hrep, hfr, -⟩ :=
      transferMem_spec h (rfl : sink.room = none) body.length fuel hle (by omega)
    have htake : f.bytes.take body.length = body := by
      rw [← hafter]
      exact List.take_left
    rw [htake] at heq
    by_cases hpos : body.length > 0
    · obtain ⟨ws, hall, hws⟩ := hany (show relayBody fuel (.length body.length) self sink = _ by
        rw [relayBody, transferMsgBody, if_pos hpos, heq, Outcome.ret_bind]
        rfl)
      exact ⟨self', ws, hall, hws, hrep.wf, by rw [hrep.stream, Feed.bytes_skip],
        (side_of_frame hfr).1, fun _ => (side_of_frame hfr).2, nofun⟩
    · have hnil : body = [] := List.eq_nil_of_length_eq_zero (by omega)
      refine ⟨self, [], fun to_ => ?_, hnil.symm, h.wf, ?_, rfl, fun _ => rfl, nofun⟩
      · rw [relayBody, transferMsgBody, if_neg hpos]
        rfl
      · rw [h.stream, hnil]
        rfl
  | untilClose =>
    obtain rfl : body = f.bytes := hmoved
    exact relayUntilClose_spec h (by omega)
  | none =>
    obtain rfl : body = [] := hmoved
    exact ⟨self, [], fun to_ => rfl, rfl, h.wf, h.stream, rfl, fun _ => rfl, nofun⟩

end Relayed

/-! ## A request and its response -/

theorem represents_feed {m : Memory} (h : m.WF)
    (hsmall : m.writeIndex + m.incoming.flatten.length < 2 ^ 31) : m.Represents m.feed := by
  refine ⟨h, rfl, ?_⟩
  have hlen := h.length
  show m.readIndex + (m.unread ++ m.incoming.flatten).length < 2 ^ 31
  rw [List.length_append]
  omega

/-- The upstream's next response has this head and this body. -/
structure Responds (w : Memory) (head : ResponseHead) (body : List Char) : Prop where
  small : w.writeIndex + w.incoming.flatten.length < 2 ^ 31
  delivered : ∃ r incoming, Delivers w head.encode r incoming ∧
    BodyAt (head.relayedMode w.closed) ⟨(w.unread ++ r).drop head.encode.length, incoming⟩ body

/-- It is the same response when something has been written to the upstream. -/
theorem Responds.takes {w : Memory} {head : ResponseHead} {body : List Char}
    (h : Responds w head body) (ws : List (List Char)) : Responds (w.takes ws) head body := by
  obtain ⟨hbuffs, hread, hwrite, hin⟩ := takes_buffer w ws
  obtain ⟨hfeed, -, -, hclosed⟩ := takes_reads w ws
  have hunread : (w.takes ws).unread = w.unread := congrArg Feed.cached hfeed
  obtain ⟨r, incoming, hd, hb⟩ := h.delivered
  refine ⟨by rw [hwrite, hin]; exact h.small, r, incoming, ⟨by rw [hin]; exact hd.load, hd.status,
    ?_, hd.accepted⟩, by rw [hunread, hclosed]; exact hb⟩
  have hsome : ∀ k, (((w.takes ws).append r incoming).removeSome k).getSome =
      ((w.append r incoming).removeSome k).getSome := by
    intro k
    unfold getSome removeSome append
    simp only [hbuffs, hread, hwrite]
  rw [hsome]
  exact hd.block

/-- The client memory when a `Connection: close` has been seen in the head. -/
def closedBy (head : ResponseHead) (ss : Memory) : Memory :=
  if asksClose head.parsed.headers then ss.close else ss

theorem closeBoth_snd (head : ResponseHead) (w ss : Memory) :
    (closeBoth head.parsed w ss).2 = closedBy head ss := by
  unfold closeBoth closedBy
  by_cases hc : asksClose head.parsed.headers = true
  · rw [if_pos hc, if_pos hc]
  · rw [if_neg hc, if_neg hc]

theorem closedBy_frame (head : ResponseHead) (ss : Memory) :
    (closedBy head ss).feed = ss.feed ∧ (closedBy head ss).readOk = ss.readOk ∧
      (closedBy head ss).writeOk = ss.writeOk ∧ (closedBy head ss).written = ss.written ∧
      (closedBy head ss).kind = ss.kind := by
  unfold closedBy
  split <;> exact ⟨rfl, rfl, rfl, rfl, rfl⟩

theorem closeBoth_fst (head : ResponseHead) {w : Memory} (ss : Memory) (h : w.WF) :
    (closeBoth head.parsed w ss).1.WF ∧ (closeBoth head.parsed w ss).1.feed = w.feed ∧
      (closeBoth head.parsed w ss).1.writeIndex = w.writeIndex ∧
      (closeBoth head.parsed w ss).1.written = w.written ∧
      (closeBoth head.parsed w ss).1.writeOk = w.writeOk := by
  unfold closeBoth
  split
  · exact ⟨⟨h.chain, h.base_le, h.inFirst⟩, rfl, rfl, rfl, rfl⟩
  · exact ⟨h, rfl, rfl, rfl, rfl⟩

section Response

variable {w : Memory} {head : ResponseHead} {body : List Char} {fuel : Nat}

/-- **A response that is there is relayed**: its head and its body, to any client. -/
theorem relayResponse_spec (h : w.WF) (hr : Responds w head body)
    (hfuel : w.writeIndex + w.incoming.flatten.length + 1 < fuel) :
    ∃ w' ws, (∀ ss, relayResponse fuel w ss =
        .ret (w', (closedBy head ss).takes (head.encode :: ws), true)) ∧
      ws.flatten = body ∧ w'.WF ∧ w'.written = w.written ∧ w'.writeOk = w.writeOk ∧
      (head.relayedMode w.closed = .untilClose → ∃ vs, ws = vs ++ [[]]) := by
  obtain ⟨r, incoming, hd, hb⟩ := hr.delivered
  have hsmall := hr.small
  obtain ⟨hn, -, -⟩ := isHead_of_pullUntil hd.load
  have hflat : r ++ incoming.flatten = w.incoming.flatten := (Feed.pullUntil_spec hd.load).1
  have hlen := congrArg List.length hflat
  rw [List.length_append] at hlen
  obtain ⟨w1, hwf, hu, hin, hfr, hwi, hret⟩ := relayResponse_of_delivers h (by omega) hd
  -- the body is relayed off the memory behind the head
  obtain ⟨hwf2, hfeed2, hwi2, hsent2, hok2⟩ := closeBoth_fst head w hwf
  have hfeed : (closeBoth head.parsed w1 w).1.feed =
      ⟨(w.unread ++ r).drop head.encode.length, incoming⟩ := by
    rw [hfeed2, feed, hu, hin]
  have hin2 : (closeBoth head.parsed w1 w).1.incoming = incoming := congrArg Feed.segs hfeed
  have hrep := represents_feed hwf2 (by rw [hwi2, hwi, hin2]; omega)
  rw [hfeed] at hrep
  have hbl :
      (Feed.mk ((w.unread ++ r).drop head.encode.length) incoming).bytes.length + 1 < fuel := by
    have hul := h.length
    rw [Feed.bytes, List.length_append, List.length_drop, List.length_append]
    show _ + incoming.flatten.length + 1 < fuel
    omega
  obtain ⟨w', ws, hrelay, hrel⟩ := relayBody_spec hrep hb hbl
  have hfst : ∀ ss, (closeBoth head.parsed w1 ss).1 = (closeBoth head.parsed w1 w).1 := by
    intro ss
    unfold closeBoth
    split <;> rfl
  have hside := hrel.side
  simp only [frame, side, Prod.mk.injEq] at hfr hside
  refine ⟨w', ws, fun ss => ?_, hrel.pieces, hrel.wf, ?_, ?_, hrel.last⟩
  · rw [hret]
    unfold headRelayed
    rw [closeBoth_snd, hfst, hrelay, Outcome.ret_bind, takes_cons]
    rfl
  · rw [hside.2.2.2.2, hsent2, hfr.2.2.2.2.2]
  · rw [hside.2.1, hok2, hfr.2.2.1]

/-- What comes of a request with this body and its response. -/
structure Answered (o : HashOrder) (req : HttpRequest) (ss w ss' w' : Memory)
    (reqBody : List Char) (head : ResponseHead) (body : List Char) : Prop where
  wf : w'.WF
  sent : w'.writeOk = true → w'.written = w.written ++ reqLine o req ++ reqBody
  stream : ss'.stream = ss.stream.drop reqBody.length
  readOk : ss'.readOk = ss.readOk
  answer : ss'.writeOk = true → ss'.written = ss.written ++ (head.encode ++ body)
  shut : head.relayedMode w.closed = .untilClose → ss.kind = .ssl → ss'.writeOk = false

theorem writeOk_takes_nil {m : Memory} (hk : m.kind = .ssl) (ws : List (List Char)) :
    (m.takes (ws ++ [[]])).writeOk = false := by
  obtain ⟨-, -, hkind, -⟩ := takes_reads m ws
  rw [takes_append, takes_cons, takes_nil]
  unfold asyncWriteAll
  rw [hkind, hk]
  rfl

/-- **A request is sent on, and its response is relayed.** -/
theorem relay_spec (o : HashOrder) {req : HttpRequest} {ss : Memory} {reqBody : List Char}
    (hss : ss.WF) (hsmall : ss.writeIndex + ss.incoming.flatten.length < 2 ^ 31)
    (hreq : BodyAt (requestMode req) ss.feed reqBody)
    (hreqfuel : ss.writeIndex + ss.incoming.flatten.length + 1 < fuel) (h : w.WF)
    (hr : Responds w head body) (hfuel : w.writeIndex + w.incoming.flatten.length + 1 < fuel) :
    ∃ ss' w', relay fuel o req ss (some w) = .ret (w', ss', true) ∧
      Answered o req ss w ss' w' reqBody head body := by
  have hlen := hss.length
  have hbytes : ss.feed.bytes.length = ss.unread.length + ss.incoming.flatten.length :=
    List.length_append
  obtain ⟨ss1, us, hrelay1, hrel1⟩ := relayBody_spec (represents_feed hss hsmall) hreq
    (show _ < fuel by omega)
  obtain ⟨-, -, hwrite, hin⟩ := takes_buffer w (reqLine o req :: us)
  obtain ⟨w', ws, hrelay2, hws, hwf2, hsent, hok, hlast⟩ := relayResponse_spec
    (h.takes (reqLine o req :: us)) (hr.takes (reqLine o req :: us))
    (show _ < fuel by rw [hwrite, hin]; exact hfuel)
  obtain ⟨hcfeed, hcread, hcok, hcwritten, hckind⟩ := closedBy_frame head ss1
  obtain ⟨htfeed, htread, -, -⟩ := takes_reads (closedBy head ss1) (head.encode :: ws)
  have hside := hrel1.side
  simp only [side, Prod.mk.injEq] at hside
  have hmode : requestMode req ≠ .untilClose := by
    unfold requestMode
    split
    · nofun
    · split <;> nofun
  refine ⟨(closedBy head ss1).takes (head.encode :: ws), w', ?_, hwf2, fun hw => ?_, ?_, ?_,
    fun hw => ?_, fun hm hk => ?_⟩
  · unfold relay
    simp only [hrelay1, Outcome.ret_bind]
    exact hrelay2 _
  · rw [hok] at hw
    rw [hsent, (writeOk_takes hw).2, List.flatten_cons, hrel1.pieces, List.append_assoc]
  · have hst : ∀ m m' : Memory, m'.feed = m.feed → m'.stream = m.stream :=
      fun m m' h => congrArg Feed.bytes h
    rw [hst _ _ (htfeed.trans hcfeed), hrel1.stream]
    rfl
  · rw [htread, hcread, hrel1.readOk hmode]
  · rw [(writeOk_takes hw).2, hcwritten, hside.2.2.2.2, List.flatten_cons, hws]
  · obtain ⟨-, -, -, hclosed⟩ := takes_reads w (reqLine o req :: us)
    obtain ⟨vs, rfl⟩ := hlast (by rw [hclosed]; exact hm)
    exact writeOk_takes_nil (by rw [hckind, hside.1, hk]) (head.encode :: vs)

end Response

end Hcpp
