import Hcpp.Server.MitmServer

/-!
# What each action of the MITM server can do

One inversion lemma for each action, with its guards, and what a handshake with
the server has checked and collected (`verifyChain_eq`).
-/

namespace Hcpp

open Runs Mitm

/-! ## The handshake with the server -/

/-- The DNS names of a certificate. -/
def ChainCert.dnsNames (cert : ChainCert) : List (List Char) :=
  (cert.altNames.getD []).foldl addName []

namespace Mitm

theorem foldl_addName (names : List GeneralName) (acc : List (List Char)) :
    names.foldl addName acc = acc ++ names.foldl addName [] := by
  induction names generalizing acc with
  | nil => simp
  | cons n names ih =>
    rw [List.foldl_cons, List.foldl_cons, ih, ih (addName [] n)]
    cases n <;> simp [addName]

/-- A certificate that the callback lets pass. -/
theorem verifyFun_eq_true {tls : Tls} {host : List Char} {collects : Bool}
    {pci pci' : PartCertInfo} {cert : ChainCert}
    (h : verifyFun tls host collects pci cert = (pci', true)) :
    tls.hostNameVerification host cert = true ∧ (collects = true → cert.preverified = true) ∧
      pci'.dnsName = pci.dnsName ++ (if collects then cert.dnsNames else []) := by
  unfold verifyFun at h
  split at h
  · next hname =>
    refine ⟨hname, ?_⟩
    cases collects with
    | false =>
      simp only [Bool.false_eq_true, if_false, Prod.mk.injEq, and_true] at h
      simp [h]
    | true =>
      unfold sanCollector at h
      rw [if_pos rfl] at h
      split at h
      · next hpre =>
        refine ⟨fun _ => hpre, ?_⟩
        split at h
        · next names hnames =>
          obtain ⟨rfl, -⟩ := Prod.mk.inj h
          rw [if_pos rfl, ChainCert.dnsNames, hnames, foldl_addName]
          rfl
        · next hnone =>
          obtain ⟨rfl, -⟩ := Prod.mk.inj h
          simp [ChainCert.dnsNames, hnone]
      · simp at h
  · simp at h

/-- **What a completed verification says**: each certificate has passed for the host, and
the names are those of the whole chain, in order. -/
theorem verifyChain_eq_true {tls : Tls} {host : List Char} {collects : Bool}
    {chain : List ChainCert} {pci pci' : PartCertInfo}
    (h : verifyChain tls host collects pci chain = (pci', true)) :
    (∀ cert ∈ chain, tls.hostNameVerification host cert = true ∧
        (collects = true → cert.preverified = true)) ∧
      pci'.dnsName =
        pci.dnsName ++ (if collects then chain.flatMap ChainCert.dnsNames else []) := by
  induction chain generalizing pci with
  | nil =>
    obtain ⟨rfl, -⟩ := Prod.mk.inj h
    simp
  | cons cert chain ih =>
    rw [verifyChain] at h
    split at h
    · next pci₁ hfun =>
      obtain ⟨hname, hpre, hnames⟩ := verifyFun_eq_true hfun
      obtain ⟨hrest, hrestNames⟩ := ih h
      refine ⟨?_, ?_⟩
      · intro c hc
        rcases List.mem_cons.mp hc with rfl | hc
        · exact ⟨hname, hpre⟩
        · exact hrest c hc
      · rw [hrestNames, hnames]
        cases collects <;> simp
    · cases (Prod.mk.inj h).2

/-- The connection to the server that a session holds was verified for its host. -/
structure Verified (tls : Tls) (host : List Char) (collects : Bool) (chain : List ChainCert) :
    Prop where
  host : ∀ cert ∈ chain, tls.hostNameVerification host cert = true
  preverified : collects = true → ∀ cert ∈ chain, cert.preverified = true

theorem makeMemory_eq_ret {tls : Tls} {host : List Char} {collects : Bool} {answer : Answer}
    {pci : PartCertInfo} {m : Memory} (h : makeMemory tls host collects answer = .ret (pci, m)) :
    ∃ chain incoming room, answer = .accepts chain true incoming room ∧
      Verified tls host collects chain ∧
      pci.dnsName = (if collects then chain.flatMap ChainCert.dnsNames else []) ∧
      m = .fresh .ssl incoming room := by
  cases answer with
  | throws => cases h
  | refused => cases h
  | accepts chain completes incoming room =>
    simp only [makeMemory] at h
    split at h
    · next pci₁ hchain =>
      split at h
      · next hc =>
        obtain ⟨rfl, rfl⟩ := Prod.mk.inj (Outcome.ret.inj h)
        obtain ⟨hall, hnames⟩ := verifyChain_eq_true hchain
        refine ⟨chain, incoming, room, by rw [hc], ⟨fun c hc => (hall c hc).1, ?_⟩, ?_, rfl⟩
        · intro hcol c hc
          exact (hall c hc).2 hcol
        · rw [hnames, List.nil_append]
      · cases h
    · cases h

end Mitm

/-! ## Inversion -/

namespace MitmServer

variable {C : Type} [DecidableEq C] {tls : Tls} {ca : SubjectIdentify}
variable {s s' : MitmServer C} {c : C}

@[simp] theorem setStage_stage (s : MitmServer C) (c : C) (st : Stage) :
    (s.setStage c st).stage = Function.update s.stage c (some st) := rfl

@[simp] theorem setStage_channel (s : MitmServer C) (c : C) (st : Stage) :
    (s.setStage c st).channel = s.channel := rfl

@[simp] theorem setStage_subjectMap (s : MitmServer C) (c : C) (st : Stage) :
    (s.setStage c st).subjectMap = s.subjectMap := rfl

@[simp] theorem setStage_age (s : MitmServer C) (c : C) (st : Stage) :
    (s.setStage c st).age = s.age := rfl

omit [DecidableEq C] in
@[simp] theorem insertSubject_stage (s : MitmServer C) (host : List Char) (si : SubjectIdentify)
    (rehashes : Bool) : (s.insertSubject host si rehashes).stage = s.stage := by
  unfold insertSubject
  split <;> rfl

omit [DecidableEq C] in
@[simp] theorem insertSubject_channel (s : MitmServer C) (host : List Char) (si : SubjectIdentify)
    (rehashes : Bool) : (s.insertSubject host si rehashes).channel = s.channel := by
  unfold insertSubject
  split <;> rfl

/-- What `http_do` and `make_tunnel` send through the channel. -/
def sentClient (m : Memory) (host service : List Char) (is : InterceptSet) : ChannelClient :=
  ⟨host, service, check (m.asyncWriteAll "HTTP/1.1 200 OK\r\n\r\n".toList), some is⟩

/-- The connection of a session to its server. -/
def targetOf (cc : ChannelClient) : Target :=
  ⟨⟨cc.host, cc.service, cc.rule.doh⟩, sniOf cc.rule⟩

theorem step_connect {a : Accepted} (h : step ca s (.connect c a : Act tls C) = some s') :
    ∃ host service is, s.stage c = none ∧ toChannel a = some (host, service, is) ∧
      s' = s.setStage c (.replying a.ss host service is) := by
  simp only [step] at h
  split at h
  · next host service is hc ha => exact ⟨host, service, is, hc, ha, (Option.some.inj h).symm⟩
  · cases h

theorem step_reply (h : step ca s (.reply c : Act tls C) = some s') :
    ∃ m host service is, s.stage c = some (.replying m host service is) ∧
      s' = { s.setStage c .sent with
        channel := s.channel ++ [(c, sentClient m host service is)] } := by
  simp only [step] at h
  split at h
  · next m host service is hc => exact ⟨m, host, service, is, hc, (Option.some.inj h).symm⟩
  · cases h

theorem step_receive (h : step ca s (.receive : Act tls C) = some s') :
    ∃ c cc rest, s.channel = (c, cc) :: rest ∧
      s' = { s.setStage c (if cc.sock.isSome then .accepted cc else .over) with
        channel := rest } := by
  simp only [step] at h
  split at h
  · next c cc rest hch => exact ⟨c, cc, rest, hch, (Option.some.inj h).symm⟩
  · cases h

theorem step_init (h : step ca s (.init c : Act tls C) = some s') :
    ∃ cc, s.stage c = some (.accepted cc) ∧
      ((∃ si, s.subjectMap cc.host = some si ∧
          s' = s.setStage c (.known cc (targetOf cc) s.age)) ∨
        (s.subjectMap cc.host = none ∧ s' = s.setStage c (.collecting cc (targetOf cc)))) := by
  simp only [step] at h
  split at h
  · next cc hc =>
    refine ⟨cc, hc, ?_⟩
    split at h
    · next si hsi => exact .inl ⟨si, hsi, (Option.some.inj h).symm⟩
    · next hsi => exact .inr ⟨hsi, (Option.some.inj h).symm⟩
  · cases h

theorem step_upstream {answer : Mitm.Answer} {r : tls.Random} {rehashes : Bool}
    (h : step ca s (.upstream c answer r rehashes) = some s') :
    (∃ cc up age, s.stage c = some (.known cc up age) ∧
      ((∃ pci m, makeMemory tls cc.host false answer = .ret (pci, m) ∧
          ((age = s.age ∧ s' = s.setStage c
              (.offering cc up m ((s.subjectMap cc.host).getD ⟨[], []⟩))) ∨
            (age ≠ s.age ∧ s' = s.setStage c .undefined))) ∨
        s' = s.setStage c .over)) ∨
    (∃ cc up, s.stage c = some (.collecting cc up) ∧
      ((∃ pci m, makeMemory tls cc.host true answer = .ret (pci, m) ∧
          s' = (s.insertSubject cc.host (tls.makeFakeServerId r pci.dnsName ca) rehashes).setStage
            c (.offering cc up m (tls.makeFakeServerId r pci.dnsName ca))) ∨
        s' = s.setStage c .over)) := by
  simp only [step] at h
  split at h
  · next cc up age hc =>
    refine .inl ⟨cc, up, age, hc, ?_⟩
    split at h
    · next pci m hm =>
      refine .inl ⟨pci, m, hm, ?_⟩
      split at h
      · next hage => exact .inl ⟨hage, (Option.some.inj h).symm⟩
      · next hage => exact .inr ⟨hage, (Option.some.inj h).symm⟩
    · exact .inr (Option.some.inj h).symm
  · next cc up hc =>
    refine .inr ⟨cc, up, hc, ?_⟩
    split at h
    · next pci m hm => exact .inl ⟨pci, m, hm, (Option.some.inj h).symm⟩
    · exact .inr (Option.some.inj h).symm
  · cases h

theorem step_handshake {client : Option (List (List Char) × Option Nat)}
    (h : step ca s (.handshake c client : Act tls C) = some s') :
    ∃ cc up m si, s.stage c = some (.offering cc up m si) ∧
      ((∃ incoming room, client = some (incoming, room) ∧
          s' = s.setStage c (.serving cc up m si (.fresh .ssl incoming room))) ∨
        (client = none ∧ s' = s.setStage c .over)) := by
  simp only [step] at h
  split at h
  · next cc up m si hc =>
    refine ⟨cc, up, m, si, hc, ?_⟩
    split at h
    · next incoming room => exact .inl ⟨incoming, room, rfl, (Option.some.inj h).symm⟩
    · exact .inr ⟨rfl, (Option.some.inj h).symm⟩
  · cases h

end MitmServer

end Hcpp
