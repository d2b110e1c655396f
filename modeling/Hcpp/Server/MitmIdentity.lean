import Hcpp.Server.MitmHandoff

/-!
# Who a MITM session claims to be

The certificate that a session shows its client was made from the names of a
chain that a server showed for that very host and that was verified for it, in
this session or in an earlier one (`identity_genuine`); the entry of a host never
changes.  `init_` looks the host up before `make_memory` and uses the iterator
behind it: another session that inserts in between may have rehashed the map
(`iterator_valid`).
-/

namespace Hcpp.MitmServer

open Runs Mitm

variable {C : Type} [DecidableEq C] {tls : Tls} {ca : SubjectIdentify}
variable {s s' : MitmServer C} {c : C} {acts : List (Act tls C)}

/-! ## The map -/

omit [DecidableEq C] in
theorem insertSubject_keeps {host h : List Char} {si si' : SubjectIdentify} {rehashes : Bool}
    (hs : s.subjectMap h = some si) :
    (s.insertSubject host si' rehashes).subjectMap h = some si := by
  unfold insertSubject
  split
  · exact hs
  · next hnone =>
    have hne : h ≠ host := by
      rintro rfl
      rw [hnone] at hs
      cases hs
    simp [Function.update_of_ne hne, hs]

omit [DecidableEq C] in
/-- An entry behind an insert was there, or is the new one. -/
theorem insertSubject_cases {host h : List Char} {si si' : SubjectIdentify} {rehashes : Bool}
    (hs : (s.insertSubject host si' rehashes).subjectMap h = some si) :
    s.subjectMap h = some si ∨ (h = host ∧ si = si') := by
  unfold insertSubject at hs
  split at hs
  · exact .inl hs
  · by_cases hh : h = host
    · subst hh
      exact .inr ⟨rfl, by simpa [eq_comm] using hs⟩
    · change Function.update s.subjectMap host (some si') h = some si at hs
      rw [Function.update_of_ne hh] at hs
      exact .inl hs

/-- The entry of a host stays as it is. -/
theorem subjectMap_step {host : List Char} {si : SubjectIdentify} (a : Act tls C)
    (hsi : s.subjectMap host = some si) (h : step ca s a = some s') :
    s'.subjectMap host = some si := by
  cases a with
  | connect c a =>
    obtain ⟨host, service, is, -, -, rfl⟩ := step_connect h
    exact hsi
  | reply c =>
    obtain ⟨m, host, service, is, -, rfl⟩ := step_reply h
    exact hsi
  | receive =>
    obtain ⟨c, cc, rest, -, rfl⟩ := step_receive h
    exact hsi
  | init c =>
    obtain ⟨cc, -, ⟨si, -, rfl⟩ | ⟨-, rfl⟩⟩ := step_init h <;> exact hsi
  | upstream c answer r rehashes =>
    rcases step_upstream h with ⟨cc, up, age, -, h⟩ | ⟨cc, up, -, h⟩
    · rcases h with ⟨pci, m, -, ⟨-, rfl⟩ | ⟨-, rfl⟩⟩ | rfl <;> exact hsi
    · rcases h with ⟨pci, m, -, rfl⟩ | rfl
      · exact insertSubject_keeps hsi
      · exact hsi
  | handshake c client =>
    obtain ⟨cc, up, m, si, -, ⟨incoming, room, -, rfl⟩ | ⟨-, rfl⟩⟩ := step_handshake h <;> exact hsi

/-! ## The identities -/

/-- `si` was made from the names of a chain that a server showed in this run and that was
verified for `host`. -/
def Genuine (ca : SubjectIdentify) (acts : List (Act tls C)) (host : List Char)
    (si : SubjectIdentify) : Prop :=
  ∃ c chain incoming room r rehashes,
    .upstream c (.accepts chain true incoming room) r rehashes ∈ acts ∧
    Verified tls host true chain ∧
    si = tls.makeFakeServerId r (chain.flatMap ChainCert.dnsNames) ca

/-- `m` is the session's own connection to a server that was verified for `host`. -/
def Connected (acts : List (Act tls C)) (c : C) (host : List Char) (m : Memory) : Prop :=
  ∃ chain incoming room r rehashes,
    .upstream c (.accepts chain true incoming room) r rehashes ∈ acts ∧
    (∀ cert ∈ chain, tls.hostNameVerification host cert = true) ∧
    m = .fresh .ssl incoming room

/-- What holds of a session at its stage. -/
def StageSound (ca : SubjectIdentify) (acts : List (Act tls C))
    (map : List Char → Option SubjectIdentify) (c : C) : Stage → Prop
  | .known cc up _ => up = targetOf cc ∧ (map cc.host).isSome
  | .collecting cc up => up = targetOf cc
  | .offering cc up m si =>
    up = targetOf cc ∧ Connected acts c cc.host m ∧ Genuine ca acts cc.host si
  | .serving cc up m si _ =>
    up = targetOf cc ∧ Connected acts c cc.host m ∧ Genuine ca acts cc.host si
  | _ => True

structure Sound (ca : SubjectIdentify) (acts : List (Act tls C)) (s : MitmServer C) : Prop where
  map : ∀ host si, s.subjectMap host = some si → Genuine ca acts host si
  stage : ∀ c st, s.stage c = some st → StageSound ca acts s.subjectMap c st

omit [DecidableEq C] in
theorem sound_init (ca : SubjectIdentify) (acts : List (Act tls C)) : Sound ca acts init where
  map := by intro host si h; cases h
  stage := by intro c st h; cases h

omit [DecidableEq C] in
/-- A map that has grown. -/
theorem StageSound.mono {map map' : List Char → Option SubjectIdentify} {st : Stage}
    (hmap : ∀ host si, map host = some si → map' host = some si)
    (h : StageSound ca acts map c st) : StageSound ca acts map' c st := by
  cases st with
  | known cc up age =>
    obtain ⟨hup, hin⟩ := h
    obtain ⟨si, hsi⟩ := Option.isSome_iff_exists.mp hin
    exact ⟨hup, by rw [hmap _ _ hsi]; rfl⟩
  | _ => exact h

/-- A session goes on to a stage that is sound. -/
theorem Sound.setStage {t : MitmServer C} {st : Stage} (h : Sound ca acts s)
    (ht : t.stage = Function.update s.stage c (some st))
    (hmap : ∀ host si, s.subjectMap host = some si → t.subjectMap host = some si)
    (hnew : ∀ host si, t.subjectMap host = some si → Genuine ca acts host si)
    (hst : StageSound ca acts t.subjectMap c st) : Sound ca acts t where
  map := hnew
  stage := by
    intro d st' hd
    rw [ht] at hd
    by_cases hdc : d = c
    · subst hdc
      rw [Function.update_self, Option.some.injEq] at hd
      exact hd ▸ hst
    · rw [Function.update_of_ne hdc] at hd
      exact (h.stage d st' hd).mono hmap

/-- A step that leaves the map alone. -/
theorem Sound.next {t : MitmServer C} {st : Stage} (h : Sound ca acts s)
    (ht : t.stage = Function.update s.stage c (some st)) (hmap : t.subjectMap = s.subjectMap)
    (hst : StageSound ca acts s.subjectMap c st) : Sound ca acts t :=
  h.setStage ht (fun _ _ hs => hmap ▸ hs) (fun host si hs => h.map host si (hmap ▸ hs))
    (hmap ▸ hst)

theorem sound_step (a : Act tls C) (h : Sound ca acts s) (ha : a ∈ acts)
    (hs : step ca s a = some s') : Sound ca acts s' := by
  cases a with
  | connect c a =>
    obtain ⟨host, service, is, -, -, rfl⟩ := step_connect hs
    exact h.next rfl rfl trivial
  | reply c =>
    obtain ⟨m, host, service, is, -, rfl⟩ := step_reply hs
    exact h.next rfl rfl trivial
  | receive =>
    obtain ⟨c, cc, rest, -, rfl⟩ := step_receive hs
    refine h.next rfl rfl ?_
    split <;> trivial
  | init c =>
    obtain ⟨cc, -, ⟨si, hsi, rfl⟩ | ⟨-, rfl⟩⟩ := step_init hs
    · exact h.next rfl rfl ⟨rfl, by rw [hsi]; rfl⟩
    · exact h.next rfl rfl rfl
  | upstream c answer r rehashes =>
    rcases step_upstream hs with ⟨cc, up, age, hc, hs⟩ | ⟨cc, up, hc, hs⟩
    · obtain ⟨hup, hin⟩ := h.stage c _ hc
      rcases hs with ⟨pci, m, hm, ⟨-, rfl⟩ | ⟨-, rfl⟩⟩ | rfl
      · obtain ⟨chain, incoming, room, rfl, hver, -, hmem⟩ := makeMemory_eq_ret hm
        obtain ⟨si, hsi⟩ := Option.isSome_iff_exists.mp hin
        refine h.next rfl rfl ⟨hup, ⟨chain, incoming, room, r, rehashes, ha, hver.host, hmem⟩, ?_⟩
        rw [hsi]
        exact h.map cc.host si hsi
      · exact h.next rfl rfl trivial
      · exact h.next rfl rfl trivial
    · have hup : up = targetOf cc := h.stage c _ hc
      rcases hs with ⟨pci, m, hm, rfl⟩ | rfl
      · obtain ⟨chain, incoming, room, rfl, hver, hnames, hmem⟩ := makeMemory_eq_ret hm
        rw [if_pos rfl] at hnames
        have hgen : Genuine ca acts cc.host (tls.makeFakeServerId r pci.dnsName ca) :=
          ⟨c, chain, incoming, room, r, rehashes, ha, hver, by rw [hnames]⟩
        have hcon : Connected acts c cc.host m :=
          ⟨chain, incoming, room, r, rehashes, ha, hver.host, hmem⟩
        refine h.setStage (by rw [setStage_stage, insertSubject_stage])
          (fun host si hsi => insertSubject_keeps hsi) (fun host si hsi => ?_) ?_
        · rcases insertSubject_cases hsi with hsi | ⟨rfl, rfl⟩
          · exact h.map host si hsi
          · exact hgen
        · exact ⟨hup, hcon, hgen⟩
      · exact h.next rfl rfl trivial
  | handshake c client =>
    obtain ⟨cc, up, m, si, hc, ⟨incoming, room, -, rfl⟩ | ⟨-, rfl⟩⟩ := step_handshake hs
    · have hoffer : StageSound ca acts s.subjectMap c (.offering cc up m si) := h.stage c _ hc
      exact h.next rfl rfl hoffer
    · exact h.next rfl rfl trivial

/-- **A session shows a certificate that is right for its host.**  In every run, a session
that serves its client has dialled the host, the service and the server name of its rule;
the server it holds was verified for the host; and the certificate it shows is signed by the
CA for exactly the names of a chain that was verified for the same host in this run. -/
theorem identity_genuine (ca : SubjectIdentify) (acts : List (Act tls C)) (s : MitmServer C)
    (hs : run (step ca) init acts = some s) :
    (∀ c cc up m si ss, s.stage c = some (.serving cc up m si ss) →
      up = targetOf cc ∧ Connected acts c cc.host m ∧ Genuine ca acts cc.host si) ∧
    ∀ host si, s.subjectMap host = some si → Genuine ca acts host si ∧
      ∀ (later : List (Act tls C)) s', run (step ca) s later = some s' →
        s'.subjectMap host = some si := by
  have hsound : Sound ca acts s := by
    have hstep : ∀ (t : MitmServer C) (a : Act tls C) (t' : MitmServer C), Sound ca acts t →
        a ∈ acts → step ca t a = some t' → Sound ca acts t' :=
      fun t a t' ht ha h => sound_step a ht ha h
    exact run_inv_of_meets hstep (sound_init ca acts) (meets_of_forall fun _ h => h) hs
  refine ⟨fun c cc up m si ss hc => hsound.stage c _ hc, fun host si hsi => ?_⟩
  refine ⟨hsound.map host si hsi, fun later s' hlater => ?_⟩
  exact run_inv (fun t a t' ht h => subjectMap_step a ht h) hsi hlater

/-- A certificate with the name `host`. -/
def certFor (host : List Char) : ChainCert where
  preverified := true
  altNames := some [.dns host]
  pubkeyPem := []
  der := []

/-- The two connections of `twoConnects` are to the same host: the first makes the
certificate, the second finds it in the map. -/
def twoSessions : List (Act testTls Nat) :=
  [.connect 0 (mitmConnect "a".toList), .connect 1 (mitmConnect "a".toList), .reply 0, .reply 1,
    .receive, .init 0, .upstream 0 (.accepts [certFor "a".toList] true [] none) () false,
    .receive, .init 1, .upstream 1 (.accepts [certFor "a".toList] true [] none) () false,
    .handshake 1 (some ([], none))]

theorem identity_genuine_two : ∃ s : MitmServer Nat,
    run (step ⟨"key".toList, []⟩) init twoSessions = some s ∧
    Genuine ⟨"key".toList, []⟩ twoSessions "a".toList ⟨"key".toList, "a".toList⟩ := by
  refine ⟨_, rfl, ?_⟩
  exact ((identity_genuine ⟨"key".toList, []⟩ twoSessions _ rfl).1 1 _ _ _ _ _ rfl).2.2

/-! ## The iterator -/

omit [DecidableEq C] in
theorem insertSubject_age (s : MitmServer C) (host : List Char) (si : SubjectIdentify)
    (rehashes : Bool) : s.age ≤ (s.insertSubject host si rehashes).age := by
  unfold insertSubject
  split
  · exact Nat.le_refl _
  · dsimp only
    split <;> omega

/-- The map is not rehashed back. -/
theorem age_step (s : MitmServer C) (a : Act tls C) (s' : MitmServer C)
    (h : step ca s a = some s') : s.age ≤ s'.age := by
  cases a with
  | connect c a =>
    obtain ⟨host, service, is, -, -, rfl⟩ := step_connect h
    exact Nat.le_refl _
  | reply c =>
    obtain ⟨m, host, service, is, -, rfl⟩ := step_reply h
    exact Nat.le_refl _
  | receive =>
    obtain ⟨c, cc, rest, -, rfl⟩ := step_receive h
    exact Nat.le_refl _
  | init c =>
    obtain ⟨cc, -, ⟨si, -, rfl⟩ | ⟨-, rfl⟩⟩ := step_init h <;> exact Nat.le_refl _
  | upstream c answer r rehashes =>
    rcases step_upstream h with ⟨cc, up, age, -, h⟩ | ⟨cc, up, -, h⟩
    · rcases h with ⟨pci, m, -, ⟨-, rfl⟩ | ⟨-, rfl⟩⟩ | rfl <;> exact Nat.le_refl _
    · rcases h with ⟨pci, m, -, rfl⟩ | rfl
      · exact insertSubject_age ..
      · exact Nat.le_refl _
  | handshake c client =>
    obtain ⟨cc, up, m, si, -, ⟨incoming, room, -, rfl⟩ | ⟨-, rfl⟩⟩ := step_handshake h <;>
      exact Nat.le_refl _

/-- What a connection is after a step it is not in, or the stage the step gives it. -/
theorem stage_of_update {t : MitmServer C} {d : C} {st st' : Stage}
    (ht : t.stage = Function.update s.stage c (some st)) (hd : t.stage d = some st') :
    s.stage d = some st' ∨ (d = c ∧ st' = st) := by
  rw [ht] at hd
  by_cases hdc : d = c
  · subst hdc
    rw [Function.update_self, Option.some.injEq] at hd
    exact .inr ⟨rfl, hd.symm⟩
  · rw [Function.update_of_ne hdc] at hd
    exact .inl hd

/-- What the iterator of a session that becomes known or undefined is. -/
def IteratorStep (s s' : MitmServer C) (d : C) : Stage → Prop
  | .known _ _ age => age = s'.age
  | .undefined => ∃ cc up age, s.stage d = some (.known cc up age) ∧ age ≠ s.age
  | _ => True

theorem iterator_step {d : C} {st : Stage} (a : Act tls C) (h : step ca s a = some s')
    (hd : s'.stage d = some st) : s.stage d = some st ∨ IteratorStep s s' d st := by
  cases a with
  | connect c a =>
    obtain ⟨host, service, is, -, -, rfl⟩ := step_connect h
    rcases stage_of_update rfl hd with hold | ⟨-, rfl⟩
    · exact .inl hold
    · exact .inr trivial
  | reply c =>
    obtain ⟨m, host, service, is, -, rfl⟩ := step_reply h
    rcases stage_of_update rfl hd with hold | ⟨-, rfl⟩
    · exact .inl hold
    · exact .inr trivial
  | receive =>
    obtain ⟨c, cc, rest, -, rfl⟩ := step_receive h
    rcases stage_of_update rfl hd with hold | ⟨-, rfl⟩
    · exact .inl hold
    · refine .inr ?_
      split <;> trivial
  | init c =>
    obtain ⟨cc, -, ⟨si, -, rfl⟩ | ⟨-, rfl⟩⟩ := step_init h
    · rcases stage_of_update rfl hd with hold | ⟨-, rfl⟩
      · exact .inl hold
      · exact .inr rfl
    · rcases stage_of_update rfl hd with hold | ⟨-, rfl⟩
      · exact .inl hold
      · exact .inr trivial
  | upstream c answer r rehashes =>
    rcases step_upstream h with ⟨cc, up, age, hc, h⟩ | ⟨cc, up, -, h⟩
    · rcases h with ⟨pci, m, -, ⟨-, rfl⟩ | ⟨hage, rfl⟩⟩ | rfl
      · rcases stage_of_update rfl hd with hold | ⟨-, rfl⟩
        · exact .inl hold
        · exact .inr trivial
      · rcases stage_of_update rfl hd with hold | ⟨rfl, rfl⟩
        · exact .inl hold
        · exact .inr ⟨cc, up, age, hc, hage⟩
      · rcases stage_of_update rfl hd with hold | ⟨-, rfl⟩
        · exact .inl hold
        · exact .inr trivial
    · rcases h with ⟨pci, m, -, rfl⟩ | rfl
      · rw [setStage_stage, insertSubject_stage] at hd
        rcases stage_of_update (setStage_stage s c _) hd with hold | ⟨-, rfl⟩
        · exact .inl hold
        · exact .inr trivial
      · rcases stage_of_update rfl hd with hold | ⟨-, rfl⟩
        · exact .inl hold
        · exact .inr trivial
  | handshake c client =>
    obtain ⟨cc, up, m, si, -, ⟨incoming, room, -, rfl⟩ | ⟨-, rfl⟩⟩ := step_handshake h
    · rcases stage_of_update rfl hd with hold | ⟨-, rfl⟩
      · exact .inl hold
      · exact .inr trivial
    · rcases stage_of_update rfl hd with hold | ⟨-, rfl⟩
      · exact .inl hold
      · exact .inr trivial

/-- The step does not rehash the map while a session of a known host is in `make_memory`. -/
def Settled (ca : SubjectIdentify) (s : MitmServer C) (a : Act tls C) : Prop :=
  ∀ s', step ca s a = some s' → s'.age ≠ s.age → ∀ d cc up age,
    s.stage d ≠ some (.known cc up age)

/-- Every iterator is as old as the map, and none was used after a rehash. -/
def Fresh (s : MitmServer C) : Prop :=
  ∀ d st, s.stage d = some st → st ≠ .undefined ∧ ∀ cc up age, st = .known cc up age → age = s.age

theorem fresh_step (s : MitmServer C) (a : Act tls C) (s' : MitmServer C) (h : Fresh s)
    (ha : Settled ca s a) (hs : step ca s a = some s') : Fresh s' := by
  intro d st hd
  rcases iterator_step a hs hd with hold | hnew
  · refine ⟨(h d st hold).1, ?_⟩
    rintro cc up age rfl
    have hage := (h d _ hold).2 cc up age rfl
    by_cases hsame : s'.age = s.age
    · rw [hsame, hage]
    · exact absurd hold (ha s' hs hsame d cc up age)
  · refine ⟨?_, ?_⟩
    · rintro rfl
      obtain ⟨cc, up, age, hold, hne⟩ := hnew
      exact hne ((h d _ hold).2 cc up age rfl)
    · rintro cc up age rfl
      exact hnew

/-- An iterator is at most as old as the map. -/
def NotNewer (s : MitmServer C) : Prop :=
  ∀ d cc up age, s.stage d = some (.known cc up age) → age ≤ s.age

theorem notNewer_step (s : MitmServer C) (a : Act tls C) (s' : MitmServer C) (h : NotNewer s)
    (hs : step ca s a = some s') : NotNewer s' := by
  intro d cc up age hd
  rcases iterator_step a hs hd with hold | hnew
  · exact (h d cc up age hold).trans (age_step s a s' hs)
  · exact Nat.le_of_eq hnew

/-- A session whose iterator is older than the map becomes undefined when its server answers. -/
theorem undefined_of_older {d : C} {cc : ChannelClient} {up : Target} {age : Nat}
    {answer : Mitm.Answer} {pci : PartCertInfo} {m : Memory}
    (hd : s.stage d = some (.known cc up age)) (hage : age < s.age)
    (hm : makeMemory tls cc.host false answer = .ret (pci, m)) (r : tls.Random) (b : Bool) :
    ∃ t, step ca s (.upstream d answer r b) = some t ∧ t.stage d = some .undefined := by
  refine ⟨s.setStage d .undefined, ?_, by simp⟩
  simp only [step, hd, hm, if_neg (Nat.ne_of_lt hage)]

/-- **The iterator into `server_subject_map`** is good in every run that does not rehash the
map while a session of a known host is connecting.  A rehash at such a moment spoils it for
good: whatever happens then, that session uses it when its server has answered. -/
theorem iterator_valid (ca : SubjectIdentify) (acts : List (Act tls C)) (s : MitmServer C)
    (hs : run (step ca) init acts = some s) :
    (Meets (step ca) (Settled ca) init acts → ∀ d, s.stage d ≠ some .undefined) ∧
    ∀ (a : Act tls C) s₁, step ca s a = some s₁ → s₁.age ≠ s.age →
      ∀ d cc up age, s.stage d = some (.known cc up age) →
      ∀ (later : List (Act tls C)) t, run (step ca) s₁ later = some t →
        t.stage d = some (.known cc up age) →
      ∀ answer pci m (r : tls.Random) b, makeMemory tls cc.host false answer = .ret (pci, m) →
        ∃ t', step ca t (.upstream d answer r b) = some t' ∧ t'.stage d = some .undefined := by
  constructor
  · intro hmeets d hd
    have hfresh : Fresh s := by
      refine run_inv_of_meets fresh_step ?_ hmeets hs
      intro d st h
      cases h
    exact (hfresh d _ hd).1 rfl
  · intro a s₁ ha hage d cc up age hd later t ht htd answer pci m r b hm
    have hnot : NotNewer s := by
      refine run_inv notNewer_step ?_ hs
      intro d cc up age h
      cases h
    have h1 := hnot d cc up age hd
    have h2 := age_step s a s₁ ha
    have h3 : s₁.age ≤ t.age := by
      have hmono : ∀ (u : MitmServer C) (b : Act tls C) (u' : MitmServer C),
          s₁.age ≤ u.age → step ca u b = some u' → s₁.age ≤ u'.age :=
        fun u b u' hu h => hu.trans (age_step u b u' h)
      exact run_inv hmono (Nat.le_refl _) ht
    exact undefined_of_older htd (by omega) hm r b

/-- Session 1 has found its host in the map and connects, while session 2 makes a certificate
for another host. -/
def threeSessions : List (Act testTls Nat) :=
  [.connect 0 (mitmConnect "a".toList), .connect 1 (mitmConnect "a".toList),
    .connect 2 (mitmConnect "b".toList), .reply 0, .reply 1, .reply 2, .receive, .receive,
    .receive, .init 0, .upstream 0 (.accepts [certFor "a".toList] true [] none) () false,
    .init 1, .init 2]

/-- The insert of session 2 rehashes the map. -/
theorem iterator_valid_rehash : ∃ s s₁ : MitmServer Nat,
    run (step ⟨[], []⟩) init threeSessions = some s ∧
    step ⟨[], []⟩ s (.upstream 2 (.accepts [certFor "b".toList] true [] none) () true :
      Act testTls Nat) = some s₁ ∧
    ∃ t', step ⟨[], []⟩ s₁ (.upstream 1 (.accepts [certFor "a".toList] true [] none) () false :
      Act testTls Nat) = some t' ∧ t'.stage 1 = some .undefined := by
  refine ⟨_, _, rfl, rfl, ?_⟩
  exact (iterator_valid ⟨[], []⟩ threeSessions _ rfl).2
    (.upstream 2 (.accepts [certFor "b".toList] true [] none) () true) _ rfl (by decide) 1 _ _ _
    rfl [] _ rfl rfl (.accepts [certFor "a".toList] true [] none) _ _ () false rfl

end Hcpp.MitmServer
