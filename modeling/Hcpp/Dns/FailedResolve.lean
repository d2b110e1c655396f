import Hcpp.Dns.SingleFlight

/-!
# A failed resolution

The `catch` block of `async_resolve` erases the key and throws on; the channels
registered under the key are forgotten with it.  `Lost` is what such a channel
is from then on: empty, in no list, and its call past its registration, so no
later step writes to it and its caller can only time out.
-/

namespace Hcpp.Dns.SlowDns

open Runs

variable {K L C : Type} [DecidableEq K] [DecidableEq C]

/-- The step put a message into channel `d`.  `async_resolve` closes and cancels no
channel, so nothing else ends a wait but the timer. -/
def Woken (s s' : SlowDns K L C) (d : C) : Prop := (s'.chan d).sent ≠ (s.chan d).sent

/-- A failure that wakes every channel registered for its key. -/
def WakesAll (s : SlowDns K L C) : Act K L C → Prop
  | .resolveFail c => ∀ k l s', InFlight s c k → s.resolveRunning k = some l →
      step s (.resolveFail c) = some s' → ∀ d ∈ l, Woken s s' d
  | _ => True

/-- The action is not the failure of a resolution in flight. -/
def NoFailure (s : SlowDns K L C) : Act K L C → Prop
  | .resolveFail c => step s (.resolveFail c) = none
  | _ => True

/-- The task of `d` is over and `d` is in no list; its channel has got nothing. -/
structure Lost (s : SlowDns K L C) (d : C) : Prop where
  task : ∃ call, s.calls d = some call ∧ (call.task = .joined ∨ call.task = .failed)
  unlisted : ∀ k l, s.resolveRunning k = some l → d ∉ l
  empty : s.chan d = .empty

omit [DecidableEq K] [DecidableEq C] in
/-- A step that leaves the call and the channel of `d` alone and adds `d` to no list. -/
theorem Lost.of_quiet {s t : SlowDns K L C} {d : C} (h : Lost s d)
    (hcalls : t.calls d = s.calls d)
    (hrun : ∀ k l, t.resolveRunning k = some l → d ∈ l →
      ∃ l', s.resolveRunning k = some l' ∧ d ∈ l')
    (hch : t.chan d = s.chan d) : Lost t d where
  task := by
    rw [hcalls]
    exact h.task
  unlisted := by
    intro k l hl hd
    obtain ⟨l', hl', hd'⟩ := hrun k l hl hd
    exact h.unlisted k l' hl' hd'
  empty := hch.trans h.empty

omit [DecidableEq K] in
theorem setCall_calls_ne {s t : SlowDns K L C} {c d : C} {call : Call K L}
    (ht : t.calls = s.calls) (hne : d ≠ c) : (t.setCall c call).calls d = s.calls d := by
  rw [setCall_calls, Function.update_of_ne hne, ht]

omit [DecidableEq K] [DecidableEq C] in
/-- Who is lost is not about to register, to resolve or to notify. -/
theorem Lost.ne_of_calls {s : SlowDns K L C} {c d : C} {call : Call K L} (h : Lost s d)
    (hc : s.calls c = some call) (hj : call.task ≠ .joined) (hf : call.task ≠ .failed) :
    d ≠ c := by
  rintro rfl
  obtain ⟨call', hd, ht⟩ := h.task
  rw [hc, Option.some.injEq] at hd
  subst hd
  exact ht.elim hj hf

omit [DecidableEq C] in
/-- A running table in which one key was erased. -/
theorem erased_running {s : SlowDns K L C} {d : C} {hedp : K} :
    ∀ k l, Function.update s.resolveRunning hedp none k = some l → d ∈ l →
      ∃ l', s.resolveRunning k = some l' ∧ d ∈ l' := by
  intro k l hl hd
  by_cases hk : k = hedp
  · subst hk
    simp at hl
  · rw [Function.update_of_ne hk] at hl
    exact ⟨l, hl, hd⟩

theorem Lost.step {s s' : SlowDns K L C} {d : C} (a : Act K L C) (h : Lost s d)
    (hs : SlowDns.step s a = some s') : Lost s' d := by
  have hsame : ∀ k l, s.resolveRunning k = some l → d ∈ l →
      ∃ l', s.resolveRunning k = some l' ∧ d ∈ l' := fun k l hl hd => ⟨l, hl, hd⟩
  cases a with
  | call c hedp doh =>
    obtain ⟨hc, hcase⟩ := step_call hs
    have hne : d ≠ c := by
      rintro rfl
      obtain ⟨call, hd, -⟩ := h.task
      rw [hc] at hd
      cases hd
    rcases hcase with ⟨a, -, rfl⟩ | ⟨-, rfl⟩ <;>
      exact h.of_quiet (setCall_calls_ne rfl hne) hsame rfl
  | register c =>
    obtain ⟨hedp, doh, w, hc, hcase⟩ := step_register hs
    have hne : d ≠ c := h.ne_of_calls hc (by simp) (by simp)
    rcases hcase with ⟨l, hl, rfl⟩ | ⟨hl, rfl⟩
    · refine h.of_quiet (setCall_calls_ne rfl hne) (fun k l' hl' hd => ?_) rfl
      rw [setCall_resolveRunning, setRunning_resolveRunning] at hl'
      by_cases hk : k = hedp
      · subst hk
        rw [Function.update_self, Option.some.injEq] at hl'
        subst hl'
        rcases List.mem_append.mp hd with hd | hd
        · exact ⟨l, hl, hd⟩
        · exact absurd (List.mem_singleton.mp hd) hne
      · rw [Function.update_of_ne hk] at hl'
        exact ⟨l', hl', hd⟩
    · refine h.of_quiet (setCall_calls_ne rfl hne) (fun k l' hl' hd => ?_) rfl
      rw [setCall_resolveRunning, setRunning_resolveRunning] at hl'
      by_cases hk : k = hedp
      · subst hk
        rw [Function.update_self, Option.some.injEq] at hl'
        subst hl'
        exact absurd (List.mem_singleton.mp hd) hne
      · rw [Function.update_of_ne hk] at hl'
        exact ⟨l', hl', hd⟩
  | resolveOk c el =>
    obtain ⟨hedp, doh, w, hc, rfl⟩ := step_resolveOk hs
    exact h.of_quiet (setCall_calls_ne rfl (h.ne_of_calls hc (by simp) (by simp))) hsame rfl
  | resolveFail c =>
    obtain ⟨hedp, doh, w, hc, rfl⟩ := step_resolveFail hs
    exact h.of_quiet (setCall_calls_ne rfl (h.ne_of_calls hc (by simp) (by simp)))
      erased_running rfl
  | insert c =>
    obtain ⟨hedp, doh, w, a, hc, hcase⟩ := step_insert hs
    have hne : d ≠ c := h.ne_of_calls hc (by simp) (by simp)
    rcases hcase with ⟨l, -, rfl⟩ | ⟨-, rfl⟩ <;>
      exact h.of_quiet (setCall_calls_ne rfl hne) hsame rfl
  | notify c =>
    obtain ⟨hedp, doh, w, a, l, hc, hl, rfl⟩ := step_notify hs
    have hne : d ≠ c := h.ne_of_calls hc (by simp) (by simp)
    refine h.of_quiet (setCall_calls_ne (by simp) hne) (fun k l' hl' hd => ?_) ?_
    · rw [setCall_resolveRunning, setRunning_resolveRunning, sendAll_resolveRunning] at hl'
      exact erased_running k l' hl' hd
    · exact sendAll_chan_not_mem s d a l (h.unlisted hedp l hl)
  | receive c =>
    obtain ⟨hedp, doh, t, a, rest, hc, hb, rfl⟩ := step_receive hs
    have hne : d ≠ c := by
      rintro rfl
      rw [h.empty] at hb
      cases hb
    refine h.of_quiet (setCall_calls_ne rfl hne) hsame ?_
    simp [Function.update_of_ne hne]
  | timeout c =>
    obtain ⟨hedp, doh, t, hc, rfl⟩ := step_timeout hs
    by_cases hdc : d = c
    · subst hdc
      obtain ⟨call, hd, ht⟩ := h.task
      rw [hc, Option.some.injEq] at hd
      subst hd
      exact ⟨⟨⟨hedp, doh, .timedOut, t⟩, by simp, ht⟩, h.unlisted, h.empty⟩
    · exact h.of_quiet (setCall_calls_ne rfl hdc) hsame rfl
  | removeSvc hedp =>
    obtain rfl := step_removeSvc hs
    exact h.of_quiet rfl hsame rfl

theorem Lost.run {s s' : SlowDns K L C} {d : C} {acts : List (Act K L C)} (h : Lost s d)
    (hs : Runs.run SlowDns.step s acts = some s') : Lost s' d := by
  have hstep : ∀ (t : SlowDns K L C) (a : Act K L C) (t' : SlowDns K L C), Lost t d →
      SlowDns.step t a = some t' → Lost t' d := fun t a t' ht h => Lost.step a ht h
  exact run_inv hstep h hs

/-! ## Who returns an answer has got it from its channel -/

structure Heard (s : SlowDns K L C) : Prop where
  /-- a message that waits in a channel was sent to it -/
  buffered : ∀ c, (s.chan c).sent = [] → (s.chan c).buff = []
  /-- an answer that was returned stood in the cache, or came through the caller's channel -/
  returned : ∀ c call a, s.calls c = some call → call.waiter = .returned a →
    call.task = .notSpawned ∨ (s.chan c).sent ≠ []

omit [DecidableEq K] [DecidableEq C] in
theorem heard_init (cache : K → Option (Answer L)) : Heard (init cache : SlowDns K L C) where
  buffered := by intro c _; rfl
  returned := by intro c call a h; cases h

omit [DecidableEq K] in
/-- Storing a call: it has to be accounted for itself. -/
theorem Heard.setCall {s t : SlowDns K L C} {c : C} {call : Call K L} (h : Heard s)
    (ht : t.calls = s.calls) (hsent : ∀ d, (s.chan d).sent ≠ [] → (t.chan d).sent ≠ [])
    (hbuff : ∀ d, (t.chan d).sent = [] → (t.chan d).buff = [])
    (hc : ∀ a, call.waiter = .returned a → call.task = .notSpawned ∨ (t.chan c).sent ≠ []) :
    Heard (t.setCall c call) where
  buffered := hbuff
  returned := by
    intro d call' a hd hw
    rw [setCall_calls, ht] at hd
    by_cases hdc : d = c
    · subst hdc
      rw [Function.update_self, Option.some.injEq] at hd
      subst hd
      exact hc a hw
    · rw [Function.update_of_ne hdc] at hd
      exact (h.returned d call' a hd hw).imp id (hsent d)

omit [DecidableEq K] in
/-- A spawned call that keeps its waiter. -/
theorem Heard.keep {s t : SlowDns K L C} {c : C} {call old : Call K L} (h : Heard s)
    (ht : t.calls = s.calls) (hsent : ∀ d, (s.chan d).sent ≠ [] → (t.chan d).sent ≠ [])
    (hbuff : ∀ d, (t.chan d).sent = [] → (t.chan d).buff = [])
    (hc : s.calls c = some old) (hw : call.waiter = old.waiter) (hold : old.task ≠ .notSpawned) :
    Heard (t.setCall c call) := by
  refine h.setCall ht hsent hbuff (fun a ha => .inr (hsent c ?_))
  exact (h.returned c old a hc (hw ▸ ha)).resolve_left hold

theorem trySend_buffered {a : Answer L} {ch : Channel L} (h : ch.sent = [] → ch.buff = [])
    (hs : (ch.trySend a).sent = []) : (ch.trySend a).buff = [] := by
  unfold Channel.trySend at hs ⊢
  split at hs
  · simp at hs
  · next hlen =>
    rw [if_neg hlen]
    exact h hs

theorem heard_step {s s' : SlowDns K L C} (a : Act K L C) (hi : Inv s) (h : Heard s)
    (hs : step s a = some s') : Heard s' := by
  have hsame : ∀ d, (s.chan d).sent ≠ [] → (s.chan d).sent ≠ [] := fun d hd => hd
  have hsent : ∀ d, (s.chan d).sent ≠ [] → (s'.chan d).sent ≠ [] := by
    intro d hd
    rw [sent_step a hi hd hs]
    exact hd
  cases a with
  | call c hedp doh =>
    obtain ⟨hc, ⟨a, -, rfl⟩ | ⟨-, rfl⟩⟩ := step_call hs
    · exact h.setCall rfl hsame h.buffered (fun b _ => .inl rfl)
    · exact h.setCall rfl hsame h.buffered (fun b hw => by cases hw)
  | register c =>
    obtain ⟨hedp, doh, w, hc, ⟨l, -, rfl⟩ | ⟨-, rfl⟩⟩ := step_register hs <;>
      exact h.keep rfl hsame h.buffered hc rfl (by simp)
  | resolveOk c el =>
    obtain ⟨hedp, doh, w, hc, rfl⟩ := step_resolveOk hs
    exact h.keep rfl hsame h.buffered hc rfl (by simp)
  | resolveFail c =>
    obtain ⟨hedp, doh, w, hc, rfl⟩ := step_resolveFail hs
    exact h.keep rfl hsame h.buffered hc rfl (by simp)
  | insert c =>
    obtain ⟨hedp, doh, w, a, hc, ⟨l, -, rfl⟩ | ⟨-, rfl⟩⟩ := step_insert hs <;>
      exact h.keep rfl hsame h.buffered hc rfl (by simp)
  | notify c =>
    obtain ⟨hedp, doh, w, a, l, hc, hl, rfl⟩ := step_notify hs
    refine h.keep (by simp) hsent (fun d hd => ?_) hc rfl (by simp)
    change ((s.sendAll a l).chan d).sent = [] at hd
    show ((s.sendAll a l).chan d).buff = []
    by_cases hdl : d ∈ l
    · rw [sendAll_chan_mem s d a l (hi.nodup hedp l hl) hdl] at hd ⊢
      exact trySend_buffered (h.buffered d) hd
    · rw [sendAll_chan_not_mem s d a l hdl] at hd ⊢
      exact h.buffered d hd
  | receive c =>
    obtain ⟨hedp, doh, t, a, rest, hc, hbuff, rfl⟩ := step_receive hs
    have hc' : (s.chan c).sent ≠ [] := by
      intro he
      rw [h.buffered c he] at hbuff
      cases hbuff
    refine h.setCall rfl hsent (fun d hd => ?_) (fun b hw => .inr (hsent c hc'))
    by_cases hdc : d = c
    · subst hdc
      exact absurd hd (hsent d hc')
    · rw [setChan_chan, Function.update_of_ne hdc] at hd ⊢
      exact h.buffered d hd
  | timeout c =>
    obtain ⟨hedp, doh, t, hc, rfl⟩ := step_timeout hs
    exact h.setCall rfl hsame h.buffered (fun b hw => by cases hw)
  | removeSvc hedp =>
    obtain rfl := step_removeSvc hs
    exact ⟨h.buffered, h.returned⟩

theorem heard_run {s s' : SlowDns K L C} {acts : List (Act K L C)} (hi : Inv s) (h : Heard s)
    (hs : run step s acts = some s') : Inv s' ∧ Heard s' := by
  have hstep : ∀ (t : SlowDns K L C) (a : Act K L C) (t' : SlowDns K L C),
      (Inv t ∧ Heard t) → step t a = some t' → Inv t' ∧ Heard t' :=
    fun t a t' ht h => ⟨inv_step a ht.1 h, heard_step a ht.1 ht.2 h⟩
  exact run_inv hstep ⟨hi, h⟩ hs

omit [DecidableEq K] [DecidableEq C] in
/-- Who is lost has returned nothing. -/
theorem Lost.no_answer {s : SlowDns K L C} {d : C} (h : Lost s d) (hh : Heard s) :
    ∃ call, s.calls d = some call ∧ ∀ a, call.waiter ≠ .returned a := by
  obtain ⟨call, hd, ht⟩ := h.task
  refine ⟨call, hd, fun a hw => ?_⟩
  rcases hh.returned d call a hd hw with hn | hsent
  · rcases ht with ht | ht <;> rw [ht] at hn <;> cases hn
  · rw [h.empty] at hsent
    exact hsent rfl

/-! ## The failing step -/

/-- Whoever is registered for the key of a failing call is lost after the failure. -/
theorem lost_resolveFail {s s' : SlowDns K L C} {c d : C} {k : K} {l : List C} (hi : Inv s)
    (hc : InFlight s c k) (hl : s.resolveRunning k = some l) (hd : d ∈ l)
    (hs : step s (.resolveFail c) = some s') : Lost s' d := by
  obtain ⟨hedp, doh, w, hcall, rfl⟩ := step_resolveFail hs
  obtain rfl : hedp = k := by
    have hrole := roleAt_of_calls hcall
    unfold InFlight at hc
    rw [hc] at hrole
    exact (Prod.mk.inj (Option.some.inj hrole)).1.symm
  obtain ⟨hrole, hempty⟩ := hi.listed hedp l d hl hd
  refine ⟨?_, ?_, hempty⟩
  · by_cases hdc : d = c
    · subst hdc
      exact ⟨⟨hedp, doh, w, .failed⟩, by simp, .inr rfl⟩
    · -- another owner of the key would be `c` itself
      have hjoined : roleAt s d = some (hedp, .joined) := by
        rcases hrole with h | h
        · exact absurd (hi.unique d c hedp h hc) hdc
        · exact h
      obtain ⟨call, hcd, hcall'⟩ := Option.map_eq_some_iff.mp hjoined
      refine ⟨call, (setCall_calls_ne (s := s) rfl hdc).trans hcd, .inl ?_⟩
      have ht := (Prod.mk.inj hcall').2
      cases htask : call.task <;> rw [htask] at ht <;> first | rfl | cases ht
  · intro k' l' hl' hd'
    rw [setCall_resolveRunning, setRunning_resolveRunning] at hl'
    by_cases hk : k' = hedp
    · subst hk
      simp at hl'
    · rw [Function.update_of_ne hk] at hl'
      rcases hrole with h | h <;> rcases (hi.listed k' l' d hl' hd').1 with h' | h' <;>
        rw [h] at h' <;> simp at h' <;> exact hk h'.symm

/-- A failure wakes nobody, and its owner at least is registered. -/
theorem wakesAll_iff {s : SlowDns K L C} (a : Act K L C) (hi : Inv s) :
    WakesAll s a ↔ NoFailure s a := by
  cases a with
  | resolveFail c =>
    constructor
    · intro h
      show step s (.resolveFail c) = none
      by_contra hsome
      obtain ⟨s', hs⟩ := Option.ne_none_iff_exists'.mp hsome
      obtain ⟨hedp, doh, w, hcall, rfl⟩ := step_resolveFail hs
      have hc : InFlight s c hedp := roleAt_of_calls hcall
      obtain ⟨l, hl, hcl⟩ := hi.own_mem c hedp hc
      exact h hedp l _ hc hl hs c hcl rfl
    · intro h k l s' _ _ hs
      rw [show step s (.resolveFail c) = none from h] at hs
      cases hs
  | _ => exact Iff.rfl

/-- **A failed resolution.**  A run wakes every registered channel at each failure exactly
when no resolution in flight fails in it.  At every failure the key goes and its channels,
the owner's among them, get nothing: not in that step and not in any later one, whatever
the run does, and none of their callers returns an answer. -/
theorem failedResolve (cache : K → Option (Answer L)) (acts : List (Act K L C)) :
    (Meets step WakesAll (init cache) acts ↔ Meets step NoFailure (init cache) acts) ∧
    ∀ s c s', run step (init cache) acts = some s → step s (.resolveFail c) = some s' →
      ∃ k l, InFlight s c k ∧ s.resolveRunning k = some l ∧ c ∈ l ∧
        s'.resolveRunning k = none ∧
        ∀ d ∈ l, ¬ Woken s s' d ∧ ∀ later t, run step s' later = some t →
          t.chan d = .empty ∧ ∃ call, t.calls d = some call ∧ ∀ a, call.waiter ≠ .returned a := by
  constructor
  · exact meets_congr (fun _ a _ hi _ hs => inv_step a hi hs) (fun _ a hi => wakesAll_iff a hi)
      (inv_init cache)
  · intro s c s' hrun hs
    obtain ⟨hi, hh⟩ := heard_run (inv_init cache) (heard_init cache) hrun
    have hi' := inv_step _ hi hs
    have hh' := heard_step _ hi hh hs
    have hs' := hs
    obtain ⟨hedp, doh, w, hcall, rfl⟩ := step_resolveFail hs'
    have hc : InFlight s c hedp := roleAt_of_calls hcall
    obtain ⟨l, hl, hcl⟩ := hi.own_mem c hedp hc
    refine ⟨hedp, l, hc, hl, hcl, by simp, fun d hd => ⟨fun h => h rfl, ?_⟩⟩
    intro later t ht
    have hlost := (lost_resolveFail hi hc hl hd hs).run ht
    obtain ⟨-, hht⟩ := heard_run hi' hh' ht
    exact ⟨hlost.empty, hlost.no_answer hht⟩

/-- Call 1 joined the resolution of call 0, which fails. -/
theorem failedResolve_joined :
    ¬ Meets step WakesAll (init (fun _ => none) : SlowDns Nat Nat Nat)
      [.call 0 7 false, .call 1 7 false, .register 0, .register 1, .resolveFail 0] := by
  intro h
  have h' := (((((h.2 _ rfl).2 _ rfl).2 _ rfl).2 _ rfl).1)
  exact h' 7 [0, 1] _ (by decide) rfl rfl 1 (by decide) rfl

end Hcpp.Dns.SlowDns
