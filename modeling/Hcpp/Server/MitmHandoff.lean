import Hcpp.Server.AcceptHead
import Hcpp.Server.MitmSteps
import Hcpp.Tunnel.Transparency

/-!
# From the CONNECT to the MITM session

What `make_tunnel` sends goes through the channel to the listener: in the order
it was sent, each once, and to a session of its own with the host, the service
and the rule of its CONNECT (`handed_on`).  The socket goes with it, but not what
the memory around it had already loaded (`tls_bytes_iff`).
-/

namespace Hcpp.MitmServer

open Runs Mitm

variable {C : Type} [DecidableEq C] {tls : Tls} {ca : SubjectIdentify}
variable {s s' : MitmServer C} {c : C}

/-! ## The channel -/

/-- What an action puts into the channel. -/
def puts (s : MitmServer C) : Act tls C → List (C × ChannelClient)
  | .reply c =>
    match s.stage c with
    | some (.replying m host service is) => [(c, sentClient m host service is)]
    | _ => []
  | _ => []

/-- What an action takes out of it. -/
def takes (s : MitmServer C) : Act tls C → List (C × ChannelClient)
  | .receive => s.channel.head?.toList
  | _ => []

theorem channel_step (s : MitmServer C) (a : Act tls C) (s' : MitmServer C)
    (h : step ca s a = some s') : s.channel ++ puts s a = takes s a ++ s'.channel := by
  cases a with
  | connect c a =>
    obtain ⟨host, service, is, -, -, rfl⟩ := step_connect h
    simp [puts, takes]
  | reply c =>
    obtain ⟨m, host, service, is, hc, rfl⟩ := step_reply h
    simp [puts, takes, hc]
  | receive =>
    obtain ⟨c, cc, rest, hch, rfl⟩ := step_receive h
    simp [puts, takes, hch]
  | init c =>
    obtain ⟨cc, -, ⟨si, -, rfl⟩ | ⟨-, rfl⟩⟩ := step_init h <;> simp [puts, takes]
  | upstream c answer r rehashes =>
    rcases step_upstream h with ⟨cc, up, age, -, h⟩ | ⟨cc, up, -, h⟩
    · rcases h with ⟨pci, m, -, ⟨-, rfl⟩ | ⟨-, rfl⟩⟩ | rfl <;> simp [puts, takes]
    · rcases h with ⟨pci, m, -, rfl⟩ | rfl <;> simp [puts, takes]
  | handshake c client =>
    obtain ⟨cc, up, m, si, -, ⟨incoming, room, -, rfl⟩ | ⟨-, rfl⟩⟩ := step_handshake h <;>
      simp [puts, takes]

/-- The connection has left `make_tunnel`. -/
def Sent (s : MitmServer C) (c : C) : Prop :=
  ∃ st, s.stage c = some st ∧ ∀ m host service is, st ≠ .replying m host service is

theorem Sent.setStage {s t : MitmServer C} {c d : C} {st : Stage} (h : Sent s d)
    (ht : t.stage = Function.update s.stage c (some st))
    (hst : ∀ m host service is, st ≠ .replying m host service is) : Sent t d := by
  by_cases hdc : d = c
  · exact ⟨st, by rw [ht, hdc, Function.update_self], hst⟩
  · obtain ⟨st', hd, hst'⟩ := h
    exact ⟨st', by rw [ht, Function.update_of_ne hdc, hd], hst'⟩

/-- A connection does not come back to `make_tunnel`. -/
theorem sent_step {d : C} (a : Act tls C) (hd : Sent s d) (h : step ca s a = some s') :
    Sent s' d := by
  cases a with
  | connect c a =>
    obtain ⟨host, service, is, hc, -, rfl⟩ := step_connect h
    obtain ⟨st, hst, hne⟩ := hd
    have hdc : d ≠ c := by
      rintro rfl
      rw [hc] at hst
      cases hst
    exact ⟨st, by rw [setStage_stage, Function.update_of_ne hdc, hst], hne⟩
  | reply c =>
    obtain ⟨m, host, service, is, -, rfl⟩ := step_reply h
    exact hd.setStage rfl (by simp)
  | receive =>
    obtain ⟨c, cc, rest, -, rfl⟩ := step_receive h
    refine hd.setStage rfl (fun m host service is => ?_)
    split <;> simp
  | init c =>
    obtain ⟨cc, -, ⟨si, -, rfl⟩ | ⟨-, rfl⟩⟩ := step_init h <;> exact hd.setStage rfl (by simp)
  | upstream c answer r rehashes =>
    rcases step_upstream h with ⟨cc, up, age, -, h⟩ | ⟨cc, up, -, h⟩
    · rcases h with ⟨pci, m, -, ⟨-, rfl⟩ | ⟨-, rfl⟩⟩ | rfl <;> exact hd.setStage rfl (by simp)
    · rcases h with ⟨pci, m, -, rfl⟩ | rfl
      · refine hd.setStage (by rw [setStage_stage, insertSubject_stage]) ?_
        simp
      · exact hd.setStage rfl (by simp)
  | handshake c client =>
    obtain ⟨cc, up, m, si, -, ⟨incoming, room, -, rfl⟩ | ⟨-, rfl⟩⟩ := step_handshake h <;>
      exact hd.setStage rfl (by simp)

/-- What is put belongs to a connection that had not been sent before. -/
theorem sent_of_puts {a : Act tls C} {p : C × ChannelClient} (hp : p ∈ puts s a)
    (h : step ca s a = some s') : ¬ Sent s p.1 ∧ Sent s' p.1 ∧ puts s a = [p] := by
  cases a with
  | reply c =>
    obtain ⟨m, host, service, is, hc, rfl⟩ := step_reply h
    have hputs : puts s (.reply c : Act tls C) = [(c, sentClient m host service is)] := by
      simp [puts, hc]
    rw [hputs, List.mem_singleton] at hp
    subst hp
    refine ⟨?_, ⟨.sent, by simp, by simp⟩, hputs⟩
    rintro ⟨st, hst, hne⟩
    rw [hc] at hst
    exact hne m host service is (Option.some.inj hst).symm
  | _ => simp [puts] at hp

/-- Each connection is sent once. -/
theorem puts_nodup {acts : List (Act tls C)} (h : run (step ca) s acts = some s') :
    ((trace (step ca) puts s acts).map Prod.fst).Nodup ∧
      ∀ p ∈ trace (step ca) puts s acts, ¬ Sent s p.1 := by
  induction acts generalizing s with
  | nil => simp [trace]
  | cons a acts ih =>
    obtain ⟨t, ht, hr⟩ := run_cons_eq_some.mp h
    obtain ⟨hnodup, hlater⟩ := ih hr
    have hback : ∀ p ∈ trace (step ca) puts t acts, ¬ Sent s p.1 := fun p hp hs =>
      hlater p hp (sent_step a hs ht)
    rw [trace_cons ht]
    cases hputs : puts s a with
    | nil => exact ⟨hnodup, hback⟩
    | cons p ps =>
      have hp : p ∈ puts s a := hputs ▸ List.mem_cons_self
      obtain ⟨hnot, hsent, hone⟩ := sent_of_puts hp ht
      rw [hputs] at hone
      obtain rfl : ps = [] := (List.cons.inj hone).2
      refine ⟨?_, ?_⟩
      · rw [List.singleton_append, List.map_cons, List.nodup_cons]
        refine ⟨fun hm => ?_, hnodup⟩
        obtain ⟨q, hq, he⟩ := List.mem_map.mp hm
        exact hlater q hq (he ▸ hsent)
      · intro q hq
        rcases List.mem_append.mp hq with hq | hq
        · rw [List.mem_singleton.mp hq]
          exact hnot
        · exact hback q hq

/-! ## Whose client it is -/

/-- `cc` is what `make_tunnel` sends for a CONNECT of `c`. -/
def OwnClient (acts : List (Act tls C)) (c : C) (cc : ChannelClient) : Prop :=
  ∃ a host service is, .connect c a ∈ acts ∧ toChannel a = some (host, service, is) ∧
    cc = sentClient a.ss host service is

/-- What is on its way belongs to the connection it is on the way for. -/
structure Owned (acts : List (Act tls C)) (s : MitmServer C) : Prop where
  replying : ∀ c m host service is, s.stage c = some (.replying m host service is) →
    ∃ a, .connect c a ∈ acts ∧ toChannel a = some (host, service, is) ∧ m = a.ss
  channel : ∀ p ∈ s.channel, OwnClient acts p.1 p.2
  session : ∀ c st cc, s.stage c = some st → st.client = some cc →
    OwnClient acts c cc ∧ cc.sock.isSome

variable {acts : List (Act tls C)}

omit [DecidableEq C] in
theorem owned_init (acts : List (Act tls C)) : Owned acts init where
  replying := by intro c m host service is h; cases h
  channel := by intro p h; cases h
  session := by intro c st cc h; cases h

omit [DecidableEq C] in
theorem Owned.congr {t : MitmServer C} (h : Owned acts s) (ht : t.stage = s.stage)
    (hch : t.channel = s.channel) : Owned acts t := by
  refine ⟨?_, hch ▸ h.channel, ?_⟩
  · rw [ht]
    exact h.replying
  · rw [ht]
    exact h.session

/-- A connection goes on to a stage that is accounted for. -/
theorem Owned.setStage {t : MitmServer C} {st : Stage} (h : Owned acts s)
    (ht : t.stage = Function.update s.stage c (some st))
    (hch : ∀ p ∈ t.channel, OwnClient acts p.1 p.2)
    (hr : ∀ m host service is, st = .replying m host service is →
      ∃ a, .connect c a ∈ acts ∧ toChannel a = some (host, service, is) ∧ m = a.ss)
    (hs : ∀ cc, st.client = some cc → OwnClient acts c cc ∧ cc.sock.isSome) : Owned acts t where
  replying := by
    intro d m host service is hd
    rw [ht] at hd
    by_cases hdc : d = c
    · subst hdc
      rw [Function.update_self, Option.some.injEq] at hd
      exact hr m host service is hd
    · rw [Function.update_of_ne hdc] at hd
      exact h.replying d m host service is hd
  channel := hch
  session := by
    intro d st' cc hd hcc
    rw [ht] at hd
    by_cases hdc : d = c
    · subst hdc
      rw [Function.update_self, Option.some.injEq] at hd
      exact hs cc (hd ▸ hcc)
    · rw [Function.update_of_ne hdc] at hd
      exact h.session d st' cc hd hcc

/-- A session keeps its client. -/
theorem Owned.next {t : MitmServer C} {st st' : Stage} (h : Owned acts s)
    (hc : s.stage c = some st') (ht : t.stage = Function.update s.stage c (some st))
    (hch : t.channel = s.channel) (hr : ∀ m host service is, st ≠ .replying m host service is)
    (hs : st.client = none ∨ st.client = st'.client) : Owned acts t := by
  refine h.setStage ht (hch ▸ h.channel) (fun m host service is e => absurd e (hr _ _ _ _)) ?_
  intro cc hcc
  rcases hs with hs | hs
  · rw [hs] at hcc
    cases hcc
  · exact h.session c st' cc hc (hs ▸ hcc)

theorem owned_step (a : Act tls C) (h : Owned acts s) (ha : a ∈ acts)
    (hs : step ca s a = some s') : Owned acts s' := by
  cases a with
  | connect c a =>
    obtain ⟨host, service, is, -, hto, rfl⟩ := step_connect hs
    refine h.setStage rfl h.channel ?_ (by rintro cc ⟨⟩)
    rintro m host' service' is' ⟨⟩
    exact ⟨a, ha, hto, rfl⟩
  | reply c =>
    obtain ⟨m, host, service, is, hc, rfl⟩ := step_reply hs
    refine h.setStage rfl (fun p hp => ?_) (by rintro m' host' service' is' ⟨⟩) (by rintro cc ⟨⟩)
    rcases List.mem_append.mp hp with hp | hp
    · exact h.channel p hp
    · obtain ⟨a, ha, hto, rfl⟩ := h.replying c m host service is hc
      rw [List.mem_singleton.mp hp]
      exact ⟨a, host, service, is, ha, hto, rfl⟩
  | receive =>
    obtain ⟨c, cc, rest, hch, rfl⟩ := step_receive hs
    have hcc : OwnClient acts c cc := h.channel (c, cc) (hch ▸ List.mem_cons_self)
    refine h.setStage rfl (fun p hp => h.channel p (hch ▸ List.mem_cons_of_mem _ hp)) ?_ ?_
    · intro m host service is e
      split at e <;> cases e
    · intro cc' hcc'
      split at hcc'
      · next hsock =>
        obtain rfl := Option.some.inj hcc'
        exact ⟨hcc, hsock⟩
      · cases hcc'
  | init c =>
    obtain ⟨cc, hc, ⟨si, -, rfl⟩ | ⟨-, rfl⟩⟩ := step_init hs <;>
      exact h.next hc rfl rfl (by simp) (.inr rfl)
  | upstream c answer r rehashes =>
    rcases step_upstream hs with ⟨cc, up, age, hc, hs⟩ | ⟨cc, up, hc, hs⟩
    · rcases hs with ⟨pci, m, -, ⟨-, rfl⟩ | ⟨-, rfl⟩⟩ | rfl
      · exact h.next hc rfl rfl (by simp) (.inr rfl)
      · exact h.next hc rfl rfl (by simp) (.inl rfl)
      · exact h.next hc rfl rfl (by simp) (.inl rfl)
    · rcases hs with ⟨pci, m, -, rfl⟩ | rfl
      · have hins : Owned acts (s.insertSubject cc.host (tls.makeFakeServerId r pci.dnsName ca)
            rehashes) := h.congr (insertSubject_stage ..) (insertSubject_channel ..)
        have hc' := hc
        rw [← insertSubject_stage s cc.host (tls.makeFakeServerId r pci.dnsName ca) rehashes] at hc'
        exact hins.next hc' rfl rfl (by simp) (.inr rfl)
      · exact h.next hc rfl rfl (by simp) (.inl rfl)
  | handshake c client =>
    obtain ⟨cc, up, m, si, hc, ⟨incoming, room, -, rfl⟩ | ⟨-, rfl⟩⟩ := step_handshake hs
    · exact h.next hc rfl rfl (by simp) (.inr rfl)
    · exact h.next hc rfl rfl (by simp) (.inl rfl)

/-- **Every CONNECT is handed to a session of its own.**  In every run of the tunnels, the
listener and the sessions: what the listener has taken and what is still in the channel is
what the tunnels have sent, in that order, and each connection is sent once; and every
session is for the host, the service and the rule of the CONNECT of its own connection. -/
theorem handed_on (ca : SubjectIdentify) (acts : List (Act tls C)) (s : MitmServer C)
    (hs : run (step ca) init acts = some s) :
    trace (step ca) puts init acts = trace (step ca) takes init acts ++ s.channel ∧
    ((trace (step ca) puts init acts).map Prod.fst).Nodup ∧
    ∀ c st cc, s.stage c = some st → st.client = some cc → OwnClient acts c cc := by
  have howned : Owned acts s := by
    have hstep : ∀ (t : MitmServer C) (a : Act tls C) (t' : MitmServer C), Owned acts t →
        a ∈ acts → step ca t a = some t' → Owned acts t' :=
      fun t a t' ht ha h => owned_step a ht ha h
    exact run_inv_of_meets hstep (owned_init acts) (meets_of_forall fun _ h => h) hs
  refine ⟨?_, (puts_nodup hs).1, fun c st cc hc hcc => (howned.session c st cc hc hcc).1⟩
  have hfifo := run_fifo (fun t a t' (ht : step ca t a = some t') => channel_step t a t' ht) hs
  rwa [show (init : MitmServer C).channel = [] from rfl, List.nil_append] at hfifo

/-- A certificate for `a`, checked by its first name. -/
def testTls : Tls where
  Random := Unit
  hostNameVerification host cert := cert.preverified && cert.dnsNames.contains host
  makeFakeServerId _ names ca := ⟨ca.pkeyPem, names.flatten⟩

/-- `CONNECT host:443`, with a rule that says `mitm_`. -/
def mitmConnect (host : List Char) : Accepted where
  ss := .fresh .plain [] none
  selected := ⟨host, "443".toList, some { InterceptSet.empty with mitm := true }⟩
  req := .make host "443".toList
  accepted := true

/-- Two clients: the one that is answered first is taken first. -/
def twoConnects : List (Act testTls Nat) :=
  [.connect 0 (mitmConnect "a".toList), .connect 1 (mitmConnect "b".toList), .reply 1, .reply 0,
    .receive]

theorem handed_on_two : ∃ s : MitmServer Nat,
    run (step ⟨[], []⟩) init twoConnects = some s ∧
      OwnClient twoConnects 1 ⟨"b".toList, "443".toList, some ⟨[], none⟩,
        some { InterceptSet.empty with mitm := true }⟩ := by
  refine ⟨_, rfl, ?_⟩
  exact (handed_on ⟨[], []⟩ twoConnects _ rfl).2.2 1 _ _ rfl rfl

/-! ## What the TLS side reads -/

/-- The socket of a plain memory, after a write. -/
theorem check_written {m : Memory} (h : m.kind = .plain) (text : List Char) :
    ∃ room, check (m.asyncWriteAll text) = some ⟨m.incoming, room⟩ := by
  unfold Memory.asyncWriteAll Memory.send
  cases hroom : m.room with
  | none => exact ⟨none, by simp [h, check]⟩
  | some k =>
    by_cases hk : text.length ≤ k
    · exact ⟨some (k - text.length), by simp [h, check, hk]⟩
    · exact ⟨some 0, by simp [h, check, hk]⟩

/-- **The handshake with the client reads what follows the CONNECT head** if and only if no
byte came behind the head in the read that completed it: `check` moves the socket, and what
the memory had loaded stays behind. -/
theorem tls_bytes_iff {hd : HttpHandler} {sel : Selected} {make : HttpRequest} {m : Memory}
    {a : Accepted} (h : m.WF) (hu : m.unread = []) (hkind : m.kind = .plain)
    (hsize : m.stream.length < 2 ^ 64) (ha : acceptHead hd sel m make = .ret a)
    (hacc : a.accepted = true) (host service : List Char) (is : InterceptSet) :
    ∃ e sock, IsHead e m.stream ∧ (sentClient a.ss host service is).sock = some sock ∧
      (sock.incoming.flatten = m.stream.drop e.length ↔ Tunnel.HeadEndsRead m.incoming) := by
  have hst : m.stream = m.incoming.flatten := by rw [Memory.stream, hu, List.nil_append]
  rw [hst] at hsize
  obtain ⟨r, n, incoming, hp, htakes⟩ := acceptHead_takes h hu hsize ha hacc
  obtain ⟨hn, -, -⟩ := isHead_of_pullUntil hp
  obtain ⟨-, htake, i, hi, rfl⟩ := Feed.take_of_pullUntil hp
  have hflat : r ++ incoming.flatten = m.incoming.flatten := (Feed.pullUntil_spec hp).1
  have h4 : crlfcrlf.length = 4 := rfl
  have hkind' : a.ss.kind = .plain := (congrArg Prod.fst htakes.frame).trans hkind
  obtain ⟨room, hcheck⟩ := check_written hkind' "HTTP/1.1 200 OK\r\n\r\n".toList
  refine ⟨m.stream.take (i + 4), ⟨a.ss.incoming, room⟩, ⟨i, ?_, rfl⟩, hcheck, ?_⟩
  · rw [hst, ← List.nil_append m.incoming.flatten, hi]
  · show a.ss.incoming.flatten = _ ↔ _
    have hlen : (m.stream.take (i + 4)).length = i + 4 := by
      rw [hst, ← hflat, List.length_take, List.length_append]
      omega
    rw [hlen, hst, ← hflat, htakes.incoming, List.drop_append_of_le_length (by omega),
      List.self_eq_append_left, List.drop_eq_nil_iff]
    constructor
    · intro hle r' n' segs' hp'
      rw [hp, Option.some.injEq, Prod.mk.injEq, Prod.mk.injEq] at hp'
      obtain ⟨rfl, rfl, -⟩ := hp'
      omega
    · intro hend
      exact (hend _ _ _ hp).le

/-- The client sends `hi` with the head, and the handshake does not read it. -/
theorem tls_bytes_early : ∃ e sock, IsHead e (Tunnel.connectHead ++ "hi".toList) ∧
    (sentClient (Tunnel.taken (Tunnel.connectHead ++ "hi".toList) 24 []) [] [] .empty).sock =
      some sock ∧
    sock.incoming.flatten ≠ (Tunnel.connectHead ++ "hi".toList).drop e.length := by
  have ha : acceptHead ⟨[], [], []⟩ .init
      (.fresh .plain [Tunnel.connectHead ++ "hi".toList] none) (.make [] []) =
      .ret ⟨Tunnel.taken (Tunnel.connectHead ++ "hi".toList) 24 [],
        ⟨"a".toList, "1".toList, some .empty⟩, Tunnel.connectRequest, true⟩ := by decide
  obtain ⟨e, sock, he, hsock, hiff⟩ := tls_bytes_iff
    (Memory.wf_fresh .plain [Tunnel.connectHead ++ "hi".toList] none) rfl rfl (by decide) ha rfl
    [] [] .empty
  refine ⟨e, sock, he, hsock, fun hbytes => ?_⟩
  have hpull : Feed.pullUntil crlfcrlf [] [Tunnel.connectHead ++ "hi".toList] =
      some (Tunnel.connectHead ++ "hi".toList, 24, []) := by decide
  exact absurd (hiff.mp hbytes _ _ _ hpull) (by decide)

end Hcpp.MitmServer
