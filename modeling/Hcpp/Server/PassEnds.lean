import Hcpp.Http.ChunkThrows
import Hcpp.Http.HeaderTotal
import Hcpp.Server.AcceptHead
import Hcpp.Server.SessionSound

/-!
# When a pass of `http_do` ends

A pass reads a head, and nothing in it keeps a pass from ending; then it relays
the body of the request, and reads and relays the response.  `pass_ends_iff`
says of every pass of a run, whatever the client and the upstreams send, when it
ends: the walk over the body of the request does, and behind it the response is
parsed and the walk over its body ends, unless an exception came before.
-/

namespace Hcpp

open Memory Outcome Runs

/-! ## More fuel for a body -/

theorem fueled_relayRest (self to_ : Memory) : Fueled fun fuel => relayRest fuel self to_ := by
  intro fuel
  induction fuel generalizing self to_ with
  | zero => exact .spins _
  | succ fuel ih =>
    simp only [relayRest]
    exact .bind (.refl _) fun x => .ite _ (.refl _) (ih _ _)

theorem fueled_relayBody (mode : BodyMode) (self to_ : Memory) :
    Fueled fun fuel => relayBody fuel mode self to_ := by
  cases mode with
  | chunked => exact .bind (fueled_transferChunkLoop _ _ _) fun x => .const _
  | length n =>
    simp only [relayBody, transferMsgBody]
    exact .ite _ (.bind (fueled_transferMem _ _ _) fun x => .const _) (.const _)
  | untilClose =>
    simp only [relayBody, relayUntilClose]
    exact .ite _ (fueled_relayRest _ _) (fueled_relayRest _ _)
  | none => exact .const _

/-! ## When a body ends -/

/-- The body that is next in `f` comes to its end. -/
def BodyEnds (mode : BodyMode) (f : Feed Char) : Prop :=
  match mode with
  | .chunked => ChunksEnd f
  | .length n => n ≤ f.bytes.length ∨ Oversized f n
  | .untilClose => True
  | .none => True

/-- An exception leaves the body that is next in `f`. -/
def BodyThrows (mode : BodyMode) (f : Feed Char) : Prop :=
  match mode with
  | .chunked => ChunksThrow f
  | .length n => Oversized f n
  | .untilClose => False
  | .none => False

section Bodies

variable {self : Memory} {mode : BodyMode}

/-- What is done with a result at once does not throw. -/
theorem bind_pure_throws_iff {α β : Type} {x : Outcome α} {k : α → β} :
    (x >>= fun a => .ret (k a)) = .throws ↔ x = .throws := by
  cases x <;> simp

theorem relayRest_ne_throws (fuel : Nat) (self to_ : Memory) :
    relayRest fuel self to_ ≠ .throws := by
  induction fuel generalizing self to_ with
  | zero => exact spins_ne_throws
  | succ fuel ih =>
    rw [relayRest]
    refine bind_ne_throws (loadSome_ne_throws (by decide)) fun x => ?_
    exact ite_ne_throws _ (ret_ne_throws _) (ih _ _)

theorem relayBody_ends_iff (h : self.Sound) (mode : BodyMode) (to_ : Memory) :
    Ends (fun fuel => relayBody fuel mode self to_) ↔ BodyEnds mode self.feed := by
  cases mode with
  | chunked => exact ends_bind_pure.trans (transferChunk_ends_iff h to_)
  | length n =>
    simp only [relayBody, transferMsgBody, BodyEnds]
    by_cases hn : n > 0
    · simp only [if_pos hn]
      exact ends_bind_pure.trans (transferMem_ends_iff h to_ n)
    · simp only [if_neg hn]
      exact iff_of_true ⟨0, ret_ends _⟩ (.inl (by omega))
  | untilClose =>
    obtain ⟨self', ws, hret, -⟩ := relayUntilClose_spec h (Nat.lt_succ_self _)
    refine iff_of_true ⟨self.feed.bytes.length + 1, ?_⟩ trivial
    show relayUntilClose _ self to_ ≠ _ ∧ relayUntilClose _ self to_ ≠ _
    rw [hret]
    exact ret_ends _
  | none => exact iff_of_true ⟨0, ret_ends _⟩ trivial

theorem relayBody_throws_iff (h : self.Sound) (mode : BodyMode) (to_ : Memory) :
    (∃ fuel, relayBody fuel mode self to_ = .throws) ↔ BodyThrows mode self.feed := by
  cases mode with
  | chunked =>
    refine Iff.trans ?_ (transferChunk_throws_iff h to_)
    exact exists_congr fun fuel => bind_pure_throws_iff
  | length n =>
    refine Iff.trans ?_ (transferMem_throws_iff h to_ n)
    by_cases hn : n > 0
    · simp only [relayBody, transferMsgBody, if_pos hn]
      exact exists_congr fun fuel => bind_pure_throws_iff
    · -- nothing is moved, and a transfer of nothing does not throw
      rw [transferMem_throws_iff h]
      simp only [relayBody, transferMsgBody, if_neg hn]
      refine iff_of_false ?_ (by unfold Oversized; omega)
      rintro ⟨fuel, hthrows⟩
      cases hthrows
  | untilClose =>
    refine iff_of_false ?_ id
    rintro ⟨fuel, hthrows⟩
    rw [relayBody, relayUntilClose] at hthrows
    exact absurd hthrows (ite_ne_throws _ (relayRest_ne_throws _ _ _) (relayRest_ne_throws _ _ _))
  | none =>
    refine iff_of_false ?_ id
    rintro ⟨fuel, hthrows⟩
    cases hthrows

end Bodies

/-! ## The heads -/

section Heads

/-- A text that breaks off does not end with the end of a line. -/
theorem not_truncated_of_crlf {s : List Char} (h : crlf <:+ s) : ¬ TruncatedFold s := by
  rintro ⟨a, b, c, rfl, -, bs, t, rfl, -, ht⟩
  have hline : ¬ crlf <:+: ' ' :: t := not_crlf_cons (by decide) ht
  have hsuf : ' ' :: t <:+ a ++ colonSp ++ b ++ crlf ++ (foldsText bs ++ ' ' :: t) :=
    (List.suffix_append _ _).trans (List.suffix_append _ _)
  rcases List.suffix_or_suffix_of_suffix h hsuf with h | h
  · exact hline h.isInfix
  · -- the blank would be the end of a line
    obtain ⟨x, hx⟩ := h
    have hlast := congrArg List.getLast? hx
    cases t with
    | nil =>
      rw [List.getLast?_append] at hlast
      simp [crlf] at hlast
    | cons d t =>
      have hlen := congrArg List.length hx
      rw [List.length_append] at hlen
      have hnil : x = [] := by
        apply List.eq_nil_of_length_eq_zero
        simp [crlf] at hlen
        omega
      subst hnil
      exact hline ⟨[], [], by rw [← hx]; simp⟩

theorem parserHeader_returns {s : List Char} (hno : ¬ TruncatedFold s) (h : Headers) :
    ∃ accepted h', parserHeader s h = .ret (accepted, h') := by
  obtain ⟨accepted, h', hret, -⟩ := loop_total (s.length + 1) hno h (Nat.lt_succ_self _)
  exact ⟨accepted, h', parserHeaderLoop_of_within _ hret⟩

/-- The block behind the first line of a head that was loaded does not break off. -/
theorem block_returns {r : List Char} {n : Nat} {segs segs' : List (List Char)}
    (hp : Feed.pullUntil crlfcrlf [] segs = some (r, n, segs')) {ll : Nat} (hll : ll + 2 ≤ n)
    (h : Headers) :
    ∃ accepted h', parserHeader ((r.drop ll).take (n - ll - 2)) h = .ret (accepted, h') := by
  apply parserHeader_returns
  intro ht
  obtain ⟨-, -, i, hi, hcut⟩ := isHead_of_pullUntil hp
  obtain ⟨-, hle, hlen, -⟩ := lengths_of_pullUntil hp
  have hn : n = i + 4 := by
    have h4 := Search.find_add_length_le hi
    have hc : crlfcrlf.length = 4 := rfl
    have := congrArg List.length hcut
    rw [hlen, List.length_take] at this
    omega
  have hdrop : (r.drop ll).take (n - ll - 2) = (r.take (i + 2)).drop ll := by
    rw [List.drop_take]
    congr 1
    omega
  rw [hdrop] at ht
  have hwhole := ht.append ((r.take (i + 2)).take ll)
  rw [List.take_append_drop] at hwhole
  refine not_truncated_of_crlf ?_ hwhole
  have hlen2 : (r.take i ++ crlf).length = i + 2 := by
    rw [List.length_append, List.length_take, Nat.min_eq_left (by omega)]
    rfl
  have hsplit : r = r.take i ++ crlf ++ (crlf ++ r.drop (i + 4)) := by
    conv_lhs => rw [Search.find_split hi]
    simp [crlf, crlfcrlf]
  refine ⟨r.take i, ?_⟩
  conv_rhs => rw [hsplit, List.take_left' hlen2]

/-- **A head is always read**: nothing the client sends keeps `http_do` from ending there. -/
theorem acceptHead_returns {m : Memory} {incoming : List (List Char)}
    (h : m.Represents ⟨[], incoming⟩) (hd : HttpHandler) (sel : Selected) (make : HttpRequest) :
    ∃ a, acceptHead hd sel m make = .ret a := by
  rw [acceptHead]
  cases hp : Feed.pullUntil crlfcrlf [] m.incoming with
  | none =>
    rw [parserRequestLine_of_none hp, Outcome.ret_bind]
    exact ⟨_, rfl⟩
  | some q =>
    obtain ⟨r, n, segs⟩ := q
    obtain ⟨hne, hle, -, hll⟩ := lengths_of_pullUntil hp
    have hflat := congrArg List.length (Feed.pullUntil_spec hp).1
    have hsmall := h.small
    rw [Feed.bytes, ← h.incoming, List.nil_append] at hsmall
    rw [List.length_append, List.nil_append] at hflat
    have hll' : (firstLine (r.take n)).length ≤ r.length := by omega
    -- the block that was read is all there is
    have hrep : (m.append r segs).Represents ⟨r, segs⟩ := by
      obtain ⟨m1, hload, hrep, -⟩ := h.loadUntil (by decide) (by decide) (h.incoming ▸ hp)
      rw [asyncLoadUntil_of_pull h.wf (by decide) (by decide) hp] at hload
      cases hload
      exact hrep
    have hblock : ((m.append r segs).removeSome (firstLine (r.take n)).length).getSome =
        r.drop (firstLine (r.take n)).length := by
      refine (hrep.remove hll').1.getSome ((length_buffs_removeSome _ _).trans ?_)
      rw [append_buffs, h.buffs_eq_nil rfl]
      exact Nat.le_refl 1
    rw [parserRequestLine_of_load h.wf hp (by omega)]
    cases hpl : parserLine (firstLine (r.take n)) make with
    | none => exact ⟨_, rfl⟩
    | some req =>
      obtain ⟨accepted, headers, hret⟩ := block_returns hp hll (select hd sel req).2.headers
      simp only [Outcome.ret_bind, parserRequestHeaders, hblock, hret]
      cases accepted <;> exact ⟨_, rfl⟩

theorem skipFolded_ne_throws (fuel : Nat) (svl : List Char) : skipFolded fuel svl ≠ .throws := by
  induction fuel generalizing svl with
  | zero => exact spins_ne_throws
  | succ fuel ih =>
    rw [skipFolded]
    refine ite_ne_throws _ ?_ (ret_ne_throws _)
    simp only
    cases Search.find crlf (svl.drop 1) with
    | none => exact ite_ne_throws _ undefined_ne_throws (ih _)
    | some p => exact ih _

theorem parserHeaderLoop_ne_throws (fuel : Nat) (svl : List Char) (h : Headers) :
    parserHeaderLoop fuel svl h ≠ .throws := by
  induction fuel generalizing svl h with
  | zero => exact spins_ne_throws
  | succ fuel ih =>
    rw [parserHeaderLoop]
    refine ite_ne_throws _ (ret_ne_throws _) ?_
    cases Search.find [':', ' '] svl with
    | none => exact ret_ne_throws _
    | some nameEnd =>
      simp only
      cases Search.find crlf (svl.drop (nameEnd + 2)) with
      | none => exact ret_ne_throws _
      | some valEnd => exact bind_ne_throws (skipFolded_ne_throws _ _) fun svl => ih _ _

theorem parserResponse_ne_throws (m : Memory) : parserResponse m ≠ .throws := by
  rw [parserResponse]
  refine bind_ne_throws ?_ fun x => ?_
  · exact bind_ne_throws (loadUntil_ne_throws (by decide)) fun x => ret_ne_throws _
  obtain ⟨m1, r, headerEnd⟩ := x
  refine bind_ne_throws (parserHeaderLoop_ne_throws _ _ _) fun y => ?_
  obtain ⟨ok, headers⟩ := y
  cases ok <;> exact ret_ne_throws _

/-- `m` with what `t` has been written. -/
def Memory.onto (m t : Memory) : Memory :=
  { m with writeOk := t.writeOk, room := t.room, written := t.written }

theorem takes_eq_onto (m : Memory) (ws : List (List Char)) :
    m.takes ws = m.onto (m.takes ws) := by
  obtain ⟨h1, h2, h3, h4⟩ := takes_buffer m ws
  obtain ⟨-, h5, h6, h7⟩ := takes_reads m ws
  generalize m.takes ws = t at *
  cases t
  simp only at h1 h2 h3 h4 h5 h6 h7
  simp only [Memory.onto, h1, h2, h3, h4, h5, h6, h7]

theorem loadUntil_onto (m t : Memory) (d : List Char) :
    (m.onto t).asyncLoadUntil d = m.asyncLoadUntil d >>= fun x => .ret (x.1.onto t, x.2) := by
  have hin : (m.onto t).incoming = m.incoming := rfl
  rw [asyncLoadUntil, asyncLoadUntil, hin]
  by_cases hd : d.length > 512
  · rw [if_pos hd, if_pos hd, throws_bind]
  · rw [if_neg hd, if_neg hd]
    cases Feed.pullUntil d [] m.incoming with
    | none => rfl
    | some q =>
      obtain ⟨r, n, segs⟩ := q
      simp only
      by_cases hn : n = 0
      · rw [if_pos hn, if_pos hn, ret_bind]
        rfl
      · rw [if_neg hn, if_neg hn]
        rfl

/-- What was written to a peer does not change what is parsed of it. -/
theorem parserResponse_onto (m t : Memory) :
    parserResponse (m.onto t) =
      parserResponse m >>= fun x => .ret (x.1.onto t, x.2.1, x.2.2) := by
  rw [parserResponse, parserResponse, parserResponseLine, parserResponseLine, loadUntil_onto]
  cases m.asyncLoadUntil crlfcrlf with
  | throws => rfl
  | spins => rfl
  | undefined => rfl
  | ret x =>
    obtain ⟨m1, msg⟩ := x
    have hget : ∀ n, ((m1.onto t).removeSome n).getSome = (m1.removeSome n).getSome :=
      fun n => rfl
    simp only [Outcome.ret_bind, Outcome.pure_eq, parserResponseHeaders, hget]
    cases parserHeader _ _ with
    | throws => rfl
    | spins => rfl
    | undefined => rfl
    | ret y =>
      obtain ⟨ok, headers⟩ := y
      cases ok <;> rfl

end Heads

/-! ## The pass -/

/-- The next response of `w` is parsed, and if it is accepted its body comes to its end. -/
def AnswerEnds (w : Memory) : Prop :=
  ∃ w' rp accepted, parserResponse w = .ret (w', rp, accepted) ∧
    (accepted = true → BodyEnds (responseMode rp (w'.alive && !asksClose rp.headers)) w'.feed)

/-- The request of the next pass is `a`, and goes to the upstream memory `w`. -/
structure GoesTo (h : HttpHandler) (make : HttpRequest) (net : Dial → Peer) (s : Session)
    (a : Accepted) (w : Memory) : Prop where
  ok : s.ss.ok = true
  head : acceptHead h s.selected s.ss.reset make = .ret a
  accepted : a.accepted = true
  method : a.req.method ≠ .connect
  host : a.req.host ≠ []
  upstream : ∃ sk, s.sk.wait net a.req.host a.req.port a.selected.is = .ret (sk, some w)

section Passes

variable {h : HttpHandler} {o : HashOrder} {make : HttpRequest} {net : Dial → Peer}
  {req : HttpRequest} {ss w : Memory}

theorem answerEnds_takes (w : Memory) (ws : List (List Char)) :
    AnswerEnds (w.takes ws) ↔ AnswerEnds w := by
  unfold AnswerEnds
  rw [takes_eq_onto, parserResponse_onto]
  generalize w.takes ws = t
  constructor
  · rintro ⟨w', rp, accepted, hret, hbody⟩
    obtain ⟨⟨w1, rp1, accepted1⟩, hret1, heq⟩ := Outcome.bind_eq_ret.mp hret
    cases heq
    exact ⟨w1, rp1, accepted1, hret1, hbody⟩
  · rintro ⟨w', rp, accepted, hret, hbody⟩
    refine ⟨w'.onto t, rp, accepted, ?_, hbody⟩
    rw [hret, ret_bind]

theorem closeBoth_reads (rp : HttpResponse) (w ss : Memory) :
    (closeBoth rp w ss).1.alive = (w.alive && !asksClose rp.headers) ∧
      (closeBoth rp w ss).1.feed = w.feed := by
  unfold closeBoth
  cases asksClose rp.headers with
  | false => exact ⟨(Bool.and_true _).symm, rfl⟩
  | true => exact ⟨(Bool.and_false _).symm, rfl⟩

theorem relayResponse_ends_iff (hw : w.Sound) (hss : ss.Sound) :
    Ends (fun fuel => relayResponse fuel w ss) ↔ AnswerEnds w := by
  unfold AnswerEnds
  simp only [relayResponse]
  cases hret : parserResponse w with
  | throws => exact absurd hret (parserResponse_ne_throws w)
  | spins =>
    refine iff_of_false ?_ ?_
    · rintro ⟨fuel, hspin, -⟩
      exact hspin rfl
    · rintro ⟨_, _, _, heq, -⟩
      cases heq
  | undefined =>
    refine iff_of_false ?_ ?_
    · rintro ⟨fuel, -, hundef⟩
      exact hundef rfl
    · rintro ⟨_, _, _, heq, -⟩
      cases heq
  | ret x =>
    obtain ⟨w1, rp, accepted⟩ := x
    simp only [ret_bind]
    cases accepted with
    | false =>
      refine iff_of_true ⟨0, ret_ends _⟩ ⟨w1, rp, false, rfl, fun h => ?_⟩
      cases h
    | true =>
      obtain ⟨hw2, hss2⟩ := closeBoth_sound rp (parserResponse_sound hw hret) hss
      obtain ⟨halive, hfeed⟩ := closeBoth_reads rp w1 ss
      have hbody := relayBody_ends_iff hw2 (responseMode rp (closeBoth rp w1 ss).1.alive)
        ((closeBoth rp w1 ss).2.asyncWriteAll (rp.responseLine ++ rp.responseHeaderStr))
      rw [hfeed] at hbody
      refine (ends_bind_pure.trans hbody).trans ?_
      rw [halive]
      constructor
      · intro hends
        exact ⟨w1, rp, true, rfl, fun _ => hends⟩
      · rintro ⟨w', rp', accepted', heq, hends⟩
        cases heq
        exact hends rfl

theorem fueled_relayResponse (w ss : Memory) : Fueled fun fuel => relayResponse fuel w ss := by
  simp only [relayResponse]
  refine .bind (.const _) fun x => .ite _ (.bind (fueled_relayBody _ _ _) fun y => .const _) ?_
  exact .const _

/-- **A request and its response** end if and only if the body of the request does, and
behind it the response. -/
theorem relay_ends_iff (hss : ss.Sound) (hw : w.Sound) :
    Ends (fun fuel => relay fuel o req ss (some w)) ↔
      BodyEnds (requestMode req) ss.feed ∧
        (BodyThrows (requestMode req) ss.feed ∨ AnswerEnds w) := by
  have hbody := relayBody_ends_iff hss (requestMode req) (w.asyncWriteAll (reqLine o req))
  have hthrows := relayBody_throws_iff hss (requestMode req) (w.asyncWriteAll (reqLine o req))
  have hfueled := fueled_relayBody (requestMode req) ss (w.asyncWriteAll (reqLine o req))
  rw [← hbody, ← hthrows]
  simp only [relay]
  by_cases hends : Ends fun fuel =>
    relayBody fuel (requestMode req) ss (w.asyncWriteAll (reqLine o req))
  · rcases hends.cases with ⟨fuel, hret⟩ | ⟨fuel, ⟨ss', w'⟩, hret⟩
    · exact iff_of_true (ends_bind_throws hret) ⟨hends, .inl ⟨fuel, hret⟩⟩
    · obtain ⟨ws, rfl⟩ := relayBody_writes hret
      have hw' : ((w.asyncWriteAll (reqLine o req)).takes ws).Sound := (hw.takes [_]).takes ws
      refine (ends_bind_ret hfueled hret (fueled_relayResponse _ _)).trans ?_
      refine (relayResponse_ends_iff hw' (relayBody_sound hss hret)).trans ?_
      refine (answerEnds_takes w (reqLine o req :: ws)).trans ?_
      constructor
      · intro hans
        exact ⟨hends, .inr hans⟩
      · rintro ⟨-, ⟨n, hn⟩ | hans⟩
        · -- it has returned, and does not throw as well
          have heq := hfueled.unique (n := fuel) (m := n) (by rw [hret]; exact (ret_ends _).1)
            (by rw [hn]; exact throws_ends.1)
          rw [hret, hn] at heq
          cases heq
        · exact hans
  · exact iff_of_false (not_ends_bind hends) fun h => hends h.1

theorem Keeper.wait_ends (sk : Keeper) (net : Dial → Peer) (host service : List Char)
    (is : Option InterceptSet) : sk.wait net host service is ≠ .spins ∧
      sk.wait net host service is ≠ .undefined := by
  have hsvc : ∀ sk : HttpSvcKeeper, sk.wait net host service is ≠ .spins ∧
      sk.wait net host service is ≠ .undefined := by
    intro sk
    unfold HttpSvcKeeper.wait
    cases sk.dial host service is with
    | none => exact ret_ends _
    | some d =>
      simp only [makeSocket]
      cases net d with
      | throws => exact throws_ends
      | refused => exact ret_ends _
      | accepts incoming room => exact ret_ends _
  cases sk with
  | httpSvc sk => exact ends_const.mp (ends_bind_pure.mpr (ends_const.mpr (hsvc sk)))
  | hack sk => exact ends_const.mp (ends_bind_pure.mpr (ends_const.mpr (hsvc sk)))
  | mitm m =>
    cases m with
    | none => exact throws_ends
    | some w => exact ret_ends _

/-- A pass that asks no upstream ends. -/
theorem ends_of_not_goesTo {s : Session} (hs : s.Sound) (hno : ∀ a w, ¬ GoesTo h make net s a w) :
    Ends fun fuel => httpDoTurn h o make net fuel s := by
  obtain ⟨a, ha⟩ := acceptHead_returns hs.client.reset h s.selected make
  have hreset : s.ss.reset.ok = s.ss.ok := rfl
  simp only [httpDoTurn, hreset, ha, ret_bind]
  cases hok : s.ss.ok with
  | false => exact ⟨0, ret_ends _⟩
  | true =>
    simp only [Bool.not_true, Bool.false_eq_true, if_false]
    cases hacc : a.accepted with
    | false => exact ⟨0, ret_ends _⟩
    | true =>
      simp only [if_true, serve]
      cases hc : callFor a with
      | none => exact ⟨0, ret_ends _⟩
      | some c =>
        cases c with
        | waitTunnel host service is => exact ⟨0, ret_ends _⟩
        | wait host service is =>
          obtain ⟨hm, hh, rfl, rfl, rfl⟩ := callFor_wait.mp hc
          simp only
          cases hwait : s.sk.wait net a.req.host a.req.port a.selected.is with
          | throws => exact ⟨0, throws_ends⟩
          | spins => exact absurd hwait (Keeper.wait_ends _ _ _ _ _).1
          | undefined => exact absurd hwait (Keeper.wait_ends _ _ _ _ _).2
          | ret x =>
            obtain ⟨sk, u⟩ := x
            cases u with
            | none => exact ⟨0, throws_ends⟩
            | some w => exact absurd ⟨hok, ha, hacc, hm, hh, sk, hwait⟩ (hno a w)

/-- A pass that asks one ends as the relaying does. -/
theorem GoesTo.ends_iff {s : Session} {a : Accepted} (hgo : GoesTo h make net s a w)
    (hs : s.Sound) (hnet : SmallNet net) :
    Ends (fun fuel => httpDoTurn h o make net fuel s) ↔
      BodyEnds (requestMode a.req) a.ss.feed ∧
        (BodyThrows (requestMode a.req) a.ss.feed ∨ AnswerEnds w) := by
  obtain ⟨sk, hwait⟩ := hgo.upstream
  have hss := acceptHead_sound hs.client.reset.sound hgo.head
  have hw := Keeper.wait_sound hnet hs.keeper hwait
  simp only [httpDoTurn_of_accepted hgo.ok hgo.head hgo.accepted, serve,
    callFor_wait.mpr ⟨hgo.method, hgo.host, rfl, rfl, rfl⟩, hwait, ret_bind]
  exact ends_bind_pure.trans (relay_ends_iff hss hw)

/-- **When a pass of a run ends**, whatever was served before: unless the request goes to
an upstream, it does; and then if and only if the body of the request comes to its end, and
an exception leaves it or the response ends. -/
theorem pass_ends_iff {ps : List Pass} {s0 s : Session} (hs0 : s0.Sound)
    (hps : ∀ p ∈ ps, SmallNet p.net) (hrun : run (httpDoStep h o make) s0 ps = some s)
    (hnet : SmallNet net) :
    Ends (fun fuel => httpDoTurn h o make net fuel s) ↔
      ∀ a w, GoesTo h make net s a w → BodyEnds (requestMode a.req) a.ss.feed ∧
        (BodyThrows (requestMode a.req) a.ss.feed ∨ AnswerEnds w) := by
  have hs := sound_run hs0 hps hrun
  constructor
  · intro hends a w hgo
    exact (hgo.ends_iff hs hnet).mp hends
  · intro hall
    by_cases hgo : ∃ a w, GoesTo h make net s a w
    · obtain ⟨a, w, hgo⟩ := hgo
      exact (hgo.ends_iff hs hnet).mpr (hall a w hgo)
    · exact ends_of_not_goesTo hs fun a w hgo' => hgo ⟨a, w, hgo'⟩

end Passes

/-- The client closes with a byte of its second request missing: that pass never ends. -/
theorem pass_ends_short : ∃ s, run (httpDoStep ⟨[], [], []⟩ ⟨id, List.Perm.refl⟩ (.make [] []))
      (.init (fresh .plain ["GET / HTTP/1.1\r\n\r\n".toList,
        "POST http://a/ HTTP/1.1\r\nContent-Length: 2\r\n\r\nx".toList] none)
        (.httpSvc .init)) [⟨fun _ => .refused, 1⟩] = some s ∧
    ¬ Ends fun fuel => httpDoTurn ⟨[], [], []⟩ ⟨id, List.Perm.refl⟩ (.make [] [])
      (fun _ => .accepts [] none) fuel s := by
  let post := "POST http://a/ HTTP/1.1\r\nContent-Length: 2\r\n\r\nx".toList
  let ss := fresh .plain ["GET / HTTP/1.1\r\n\r\n".toList, post] none
  let s : Session := ⟨{ fresh .plain [post] none with
    readIndex := 18, writeIndex := 18, written := helloPage }, .init, .httpSvc .init⟩
  let a : Accepted := ⟨{ s.ss with
      buffs := [⟨0, post⟩], readIndex := 46, writeIndex := 47, incoming := [] },
    ⟨"a".toList, "80".toList, some .empty⟩, { getRequest "a".toList with
      methodStr := "POST".toList
      headers := [("content-length".toList, "Content-Length: 2\r\n".toList)]
      bodySize := 2 }, true⟩
  have hs0 : (Session.init ss (.httpSvc .init)).Sound := by
    refine ⟨Sound.fresh .plain none (by decide), ?_⟩
    rintro w ⟨⟩
  have hps : ∀ p ∈ [(⟨fun _ => .refused, 1⟩ : Pass)], SmallNet p.net := by
    rintro p hp d incoming room hd
    obtain rfl := List.mem_singleton.mp hp
    cases hd
  have hnet : SmallNet fun _ => .accepts [] none := by
    rintro d incoming room ⟨⟩
    decide
  have hrun : run (httpDoStep ⟨[], [], []⟩ ⟨id, List.Perm.refl⟩ (.make [] []))
      (.init ss (.httpSvc .init)) [⟨fun _ => .refused, 1⟩] = some s := by decide +kernel
  have hgo : GoesTo ⟨[], [], []⟩ (.make [] []) (fun _ => .accepts [] none) s a
      (fresh .plain [] none) :=
    ⟨rfl, by decide +kernel, rfl, by decide, by decide, _, rfl⟩
  refine ⟨s, hrun, fun hends => ?_⟩
  have hbody := ((pass_ends_iff hs0 hps hrun hnet).mp hends a _ hgo).1
  exact absurd hbody (show ¬ (2 ≤ a.ss.feed.bytes.length ∨ Oversized a.ss.feed 2) by decide)

end Hcpp
