import Hcpp.Dns.CacheCell
import Hcpp.Dns.FailedResolve

/-!
# What a run of `resolve` gives its callers

Where a returned list comes from (`Stems`): the cache at the start, or a
resolution of the same key in the same run.  And how a caller comes to its end:
whoever still waits can take its next step, or the owner of its list can, unless a
failed resolution lost it (`attended`); a call takes six actions at most.
-/

namespace Hcpp.Dns.SlowDns

open Runs

variable {K L C : Type} [DecidableEq K] [DecidableEq C]

/-! ## Where a list comes from -/

/-- `a` is a list for `k`: it was in the cache at the start, or a call on `k` resolved it. -/
def Origin (cache : K → Option (Answer L)) (acts : List (Act K L C)) (k : K) (a : Answer L) :
    Prop :=
  cache k = some a ∨ ∃ c doh el, .call c k doh ∈ acts ∧ .resolveOk c el ∈ acts ∧
    a = ⟨dohSource doh, el⟩

/-- Everything a call holds or has been sent is a list for its key. -/
structure CallStems (cache : K → Option (Answer L)) (acts : List (Act K L C)) (c : C)
    (call : Call K L) (ch : Channel L) : Prop where
  made : .call c call.hedp call.doh ∈ acts
  buff : ∀ a ∈ ch.buff, Origin cache acts call.hedp a
  returned : ∀ a, call.waiter = .returned a → Origin cache acts call.hedp a
  resolved : ∀ a, call.task = .resolved a → Origin cache acts call.hedp a
  inserted : ∀ a, call.task = .inserted a → Origin cache acts call.hedp a

structure Stems (cache : K → Option (Answer L)) (acts : List (Act K L C))
    (s : SlowDns K L C) : Prop where
  cached : ∀ k a, s.edpCache k = some a → Origin cache acts k a
  call : ∀ c call, s.calls c = some call → CallStems cache acts c call (s.chan c)

variable {cache : K → Option (Answer L)} {acts : List (Act K L C)} {s s' : SlowDns K L C}

omit [DecidableEq K] [DecidableEq C] in
theorem stems_init (acts : List (Act K L C)) : Stems cache acts (init cache) where
  cached := by
    intro k a h
    exact .inl h
  call := by
    intro c call h
    cases h

omit [DecidableEq K] in
/-- Storing a call that is accounted for. -/
theorem Stems.setCall {t : SlowDns K L C} (h : Stems cache acts s) {c : C} {call : Call K L}
    (ht : t.calls = s.calls) (hcache : ∀ k a, t.edpCache k = some a → Origin cache acts k a)
    (hch : ∀ d cd, d ≠ c → s.calls d = some cd → ∀ a ∈ (t.chan d).buff,
      Origin cache acts cd.hedp a)
    (hc : CallStems cache acts c call (t.chan c)) : Stems cache acts (t.setCall c call) where
  cached := hcache
  call := by
    intro d cd hd
    by_cases hdc : d = c
    · subst hdc
      rw [setCall_calls, Function.update_self, Option.some.injEq] at hd
      exact hd ▸ hc
    · rw [setCall_calls, Function.update_of_ne hdc, ht] at hd
      have hold := h.call d cd hd
      exact ⟨hold.made, hch d cd hdc hd, hold.returned, hold.resolved, hold.inserted⟩

omit [DecidableEq K] in
/-- A step of `c` that leaves the cache and the channels alone. -/
theorem Stems.of_task {t : SlowDns K L C} (h : Stems cache acts s) {c : C} {call : Call K L}
    (ht : t.calls = s.calls) (hcache : t.edpCache = s.edpCache) (hch : t.chan = s.chan)
    (hc : CallStems cache acts c call (s.chan c)) : Stems cache acts (t.setCall c call) := by
  refine h.setCall ht (fun k a ha => h.cached k a (hcache ▸ ha)) (fun d cd _ hd => ?_) ?_
  · rw [hch]
    exact (h.call d cd hd).buff
  · rw [hch]
    exact hc

theorem stems_step (a : Act K L C) (hi : Inv s) (h : Stems cache acts s) (ha : a ∈ acts)
    (hs : step s a = some s') : Stems cache acts s' := by
  cases a with
  | call c hedp doh =>
    obtain ⟨hc, hcase⟩ := step_call hs
    have hempty : s.chan c = .empty := hi.fresh c (.inl (by simp [roleAt, hc]))
    have hbuff : ∀ b ∈ (s.chan c).buff, Origin cache acts hedp b := by simp [hempty, Channel.empty]
    rcases hcase with ⟨b, hb, rfl⟩ | ⟨-, rfl⟩
    · refine h.of_task rfl rfl rfl ⟨ha, hbuff, ?_, by rintro b ⟨⟩, by rintro b ⟨⟩⟩
      rintro b' ⟨⟩
      exact h.cached hedp b hb
    · exact h.of_task rfl rfl rfl
        ⟨ha, hbuff, by rintro b ⟨⟩, by rintro b ⟨⟩, by rintro b ⟨⟩⟩
  | register c =>
    obtain ⟨hedp, doh, w, hc, hcase⟩ := step_register hs
    have hold := h.call c _ hc
    rcases hcase with ⟨l, -, rfl⟩ | ⟨-, rfl⟩ <;>
      exact h.of_task rfl rfl rfl
        ⟨hold.made, hold.buff, hold.returned, by rintro b ⟨⟩, by rintro b ⟨⟩⟩
  | resolveOk c el =>
    obtain ⟨hedp, doh, w, hc, rfl⟩ := step_resolveOk hs
    have hold := h.call c _ hc
    refine h.of_task rfl rfl rfl
      ⟨hold.made, hold.buff, hold.returned, ?_, by rintro b ⟨⟩⟩
    rintro b ⟨⟩
    exact .inr ⟨c, doh, el, hold.made, ha, rfl⟩
  | resolveFail c =>
    obtain ⟨hedp, doh, w, hc, rfl⟩ := step_resolveFail hs
    have hold := h.call c _ hc
    exact h.of_task rfl rfl rfl
      ⟨hold.made, hold.buff, hold.returned, by rintro b ⟨⟩, by rintro b ⟨⟩⟩
  | insert c =>
    obtain ⟨hedp, doh, w, b, hc, hcase⟩ := step_insert hs
    have hold := h.call c _ hc
    rcases hcase with ⟨b', hb', rfl⟩ | ⟨-, rfl⟩
    · refine h.of_task rfl rfl rfl
        ⟨hold.made, hold.buff, hold.returned, by rintro b ⟨⟩, ?_⟩
      rintro b ⟨⟩
      exact h.cached hedp b' hb'
    · have hb : Origin cache acts hedp b := hold.resolved b rfl
      refine h.setCall rfl (fun k e he => ?_) (fun d cd _ hd => (h.call d cd hd).buff)
        ⟨hold.made, hold.buff, hold.returned, by rintro b ⟨⟩, ?_⟩
      · rw [setCache_edpCache] at he
        by_cases hk : k = hedp
        · subst hk
          rw [Function.update_self, Option.some.injEq] at he
          exact he ▸ hb
        · rw [Function.update_of_ne hk] at he
          exact h.cached k e he
      · rintro e ⟨⟩
        exact hb
  | notify c =>
    obtain ⟨hedp, doh, w, b, l, hc, hl, rfl⟩ := step_notify hs
    have hold := h.call c _ hc
    -- a listed channel is one of a call on the same key, and takes the owner's list
    have hbuff : ∀ d cd, s.calls d = some cd → ∀ e ∈ ((s.sendAll b l).chan d).buff,
        Origin cache acts cd.hedp e := by
      intro d cd hd e he
      by_cases hdl : d ∈ l
      · obtain ⟨doh', w', t', hd'⟩ := calls_of_listed hi hl hdl
        rw [hd, Option.some.injEq] at hd'
        rw [sendAll_chan_mem s d b l (hi.nodup hedp l hl) hdl, (hi.listed hedp l d hl hdl).2,
          show (Channel.empty.trySend b).buff = [b] from rfl, List.mem_singleton] at he
        rw [he, hd']
        exact hold.inserted b rfl
      · rw [sendAll_chan_not_mem s d b l hdl] at he
        exact (h.call d cd hd).buff e he
    exact h.setCall (by simp) (by simpa using h.cached) (fun d cd _ hd => hbuff d cd hd)
      ⟨hold.made, fun e he => hbuff c _ hc e he, hold.returned, by rintro b ⟨⟩, by rintro b ⟨⟩⟩
  | receive c =>
    obtain ⟨hedp, doh, t, b, rest, hc, hb, rfl⟩ := step_receive hs
    have hold := h.call c _ hc
    have hsrc : ∀ e, e = b ∨ e ∈ rest → Origin cache acts hedp e := by
      intro e he
      exact hold.buff e (by rw [hb]; exact List.mem_cons.mpr he)
    refine h.setCall rfl h.cached (fun d cd hdc hd => ?_)
      ⟨hold.made, ?_, ?_, hold.resolved, hold.inserted⟩
    · rw [setChan_chan, Function.update_of_ne hdc]
      exact (h.call d cd hd).buff
    · rw [setChan_chan, Function.update_self]
      exact fun e he => hsrc e (.inr he)
    · rintro e ⟨⟩
      exact hsrc b (.inl rfl)
  | timeout c =>
    obtain ⟨hedp, doh, t, hc, rfl⟩ := step_timeout hs
    have hold := h.call c _ hc
    exact h.of_task rfl rfl rfl
      ⟨hold.made, hold.buff, by rintro b ⟨⟩, hold.resolved, hold.inserted⟩
  | removeSvc hedp =>
    obtain rfl := step_removeSvc hs
    refine ⟨fun k e he => ?_, h.call⟩
    rw [setCache_edpCache] at he
    by_cases hk : k = hedp
    · rw [hk, Function.update_self] at he
      cases he
    · rw [Function.update_of_ne hk] at he
      exact h.cached k e he

/-- **No list is given out under another key.**  Whatever a run does, each list in the cache
and each list a caller returns was in the cache under that key at the start, or was resolved
in the run by a call on that key. -/
theorem list_origin (cache : K → Option (Answer L)) (acts : List (Act K L C))
    (s : SlowDns K L C) (hs : run step (init cache) acts = some s) :
    (∀ k a, s.edpCache k = some a → Origin cache acts k a) ∧
    ∀ c call a, s.calls c = some call → call.waiter = .returned a →
      Origin cache acts call.hedp a := by
  have hstep : ∀ (t : SlowDns K L C) (a : Act K L C) (t' : SlowDns K L C),
      (Inv t ∧ Stems cache acts t) → a ∈ acts → step t a = some t' →
      Inv t' ∧ Stems cache acts t' := by
    intro t a t' ht ha h
    exact ⟨inv_step a ht.1 h, stems_step a ht.1 ht.2 ha h⟩
  have hstems := (run_inv_of_meets hstep ⟨inv_init cache, stems_init acts⟩
    (meets_of_forall fun _ h => h) hs).2
  exact ⟨hstems.cached, fun c call a hc => (hstems.call c call hc).returned a⟩

/-- Two keys: the list of each is its own. -/
theorem list_origin_two : ∃ s : SlowDns Nat Nat Nat,
    run step (init fun _ => none)
      [.call 0 7 false, .call 1 8 true, .register 0, .register 1, .resolveOk 1 43,
        .resolveOk 0 42, .insert 1, .notify 1, .receive 1] = some s ∧
    Origin (fun _ => none) [.call 0 7 false, .call 1 8 true, .register 0, .register 1,
      .resolveOk 1 43, .resolveOk 0 42, .insert 1, .notify 1, .receive 1] 8 ⟨.doh, 43⟩ := by
  refine ⟨_, rfl, ?_⟩
  exact (list_origin (fun _ => none) [.call 0 7 false, .call 1 8 true, .register 0, .register 1,
    .resolveOk 1 43, .resolveOk 0 42, .insert 1, .notify 1, .receive 1] _ rfl).2 1
    ⟨8, true, .returned ⟨.doh, 43⟩, .finished⟩ ⟨.doh, 43⟩ (by rfl) rfl

/-! ## How a caller comes to its end -/

/-- A waiting caller is about to register, is listed, or has got its list; or a resolution
failed (`failed`) and lost it. -/
def Attended (failed : Prop) (s : SlowDns K L C) : Prop :=
  ∀ c hedp doh t, s.calls c = some ⟨hedp, doh, .receiving, t⟩ →
    t = .spawned ∨ (∃ l, s.resolveRunning hedp = some l ∧ c ∈ l) ∨ (s.chan c).buff ≠ [] ∨
      (failed ∧ Lost s c)

/-- The next action of `async_resolve` after it has registered; what a resolver answers is up
to the resolver. -/
def CanResolve (s : SlowDns K L C) (d : C) : Prop :=
  (∀ el, (step s (.resolveOk d el)).isSome) ∨ (step s (.insert d)).isSome ∨
    (step s (.notify d)).isSome

/-- `c` itself can register or receive, or it is listed under `k` and the owner of the list
can go on. -/
def CanMove (s : SlowDns K L C) (c : C) (k : K) : Prop :=
  (step s (.register c)).isSome ∨ (step s (.receive c)).isSome ∨
    ∃ d l, s.resolveRunning k = some l ∧ c ∈ l ∧ InFlight s d k ∧ CanResolve s d

omit [DecidableEq K] [DecidableEq C] in
theorem attended_init (failed : Prop) (cache : K → Option (Answer L)) :
    Attended failed (init cache : SlowDns K L C) := by
  intro c hedp doh t h
  cases h

/-- A caller that waits after the step waited before it, or has just come in or registered;
and no list and no message it had is gone without a trace. -/
theorem Attended.of_step {failed : Prop} {a : Act K L C} (h : Attended failed s)
    (hs : step s a = some s')
    (hold : ∀ d hedp doh t, s'.calls d = some ⟨hedp, doh, .receiving, t⟩ →
      t = .spawned ∨ (∃ l, s'.resolveRunning hedp = some l ∧ d ∈ l) ∨
      ∃ t₀, (t₀ = .spawned → t = .spawned) ∧ s.calls d = some ⟨hedp, doh, .receiving, t₀⟩ ∧
        ((s.chan d).buff ≠ [] → (s'.chan d).buff ≠ []))
    (hlist : ∀ d k l, s.resolveRunning k = some l → d ∈ l →
      (∃ l', s'.resolveRunning k = some l' ∧ d ∈ l') ∨ (s'.chan d).buff ≠ [] ∨
        (failed ∧ Lost s' d)) :
    Attended failed s' := by
  intro d hedp doh t hd
  rcases hold d hedp doh t hd with ht | hl | ⟨t₀, ht₀, hd₀, hbuff⟩
  · exact .inl ht
  · exact .inr (.inl hl)
  · rcases h d hedp doh t₀ hd₀ with ht | ⟨l, hl, hdl⟩ | hb | ⟨hf, hlost⟩
    · exact .inl (ht₀ ht)
    · exact .inr (hlist d hedp l hl hdl)
    · exact .inr (.inr (.inl (hbuff hb)))
    · exact .inr (.inr (.inr ⟨hf, Lost.step a hlost hs⟩))

omit [DecidableEq K] in
/-- A step that stores the call of `c` leaves the other callers alone. -/
theorem calls_ne {t : SlowDns K L C} {c d : C} {call : Call K L} {hedp : K} {doh : Bool}
    {tk : Task L} (ht : t.calls = s.calls) (hch : (s.chan d).buff ≠ [] → (t.chan d).buff ≠ [])
    (hne : d ≠ c) (hd : (t.setCall c call).calls d = some ⟨hedp, doh, .receiving, tk⟩) :
    ∃ t₀, (t₀ = .spawned → tk = .spawned) ∧ s.calls d = some ⟨hedp, doh, .receiving, t₀⟩ ∧
      ((s.chan d).buff ≠ [] → ((t.setCall c call).chan d).buff ≠ []) := by
  rw [setCall_calls_ne ht hne] at hd
  exact ⟨tk, id, hd, hch⟩

theorem attended_step {failed : Prop} (a : Act K L C) (hi : Inv s) (h : Attended failed s)
    (ha : ∀ c, a = .resolveFail c → failed) (hs : step s a = some s') : Attended failed s' := by
  cases a with
  | call c hedp doh =>
    obtain ⟨hc, ⟨b, -, rfl⟩ | ⟨-, rfl⟩⟩ := step_call hs
    · refine h.of_step hs (fun d k doh' t hd => ?_) (fun d k l hl hd => .inl ⟨l, hl, hd⟩)
      by_cases hdc : d = c
      · subst hdc
        simp at hd
      · exact .inr (.inr (calls_ne rfl id hdc hd))
    · refine h.of_step hs (fun d k doh' t hd => ?_) (fun d k l hl hd => .inl ⟨l, hl, hd⟩)
      by_cases hdc : d = c
      · subst hdc
        rw [setCall_calls, Function.update_self, Option.some.injEq, Call.mk.injEq] at hd
        exact .inl hd.2.2.2.symm
      · exact .inr (.inr (calls_ne rfl id hdc hd))
  | register c =>
    obtain ⟨hedp, doh, w, hc, hcase⟩ := step_register hs
    obtain ⟨l', tk, hrun, hmem, rfl⟩ : ∃ l' tk,
        c ∈ l' ∧ (∀ d ∈ (s.resolveRunning hedp).getD [], d ∈ l') ∧
        s' = (s.setRunning hedp (some l')).setCall c ⟨hedp, doh, w, tk⟩ := by
      rcases hcase with ⟨l, hl, rfl⟩ | ⟨hl, rfl⟩
      · refine ⟨l ++ [c], _, by simp, fun d hd => ?_, rfl⟩
        rw [hl] at hd
        exact List.mem_append_left _ hd
      · exact ⟨[c], _, by simp, by simp [hl], rfl⟩
    refine h.of_step hs (fun d k doh' t hd => ?_) (fun d k l hl hd => .inl ?_)
    · by_cases hdc : d = c
      · subst hdc
        rw [setCall_calls, Function.update_self, Option.some.injEq, Call.mk.injEq] at hd
        obtain ⟨rfl, -⟩ := hd
        exact .inr (.inl ⟨l', by simp, hrun⟩)
      · exact .inr (.inr (calls_ne rfl id hdc hd))
    · by_cases hk : k = hedp
      · subst hk
        exact ⟨l', by simp, hmem d (by simpa [hl] using hd)⟩
      · exact ⟨l, by simp [Function.update_of_ne hk, hl], hd⟩
  | resolveOk c el =>
    obtain ⟨hedp, doh, w, hc, rfl⟩ := step_resolveOk hs
    refine h.of_step hs (fun d k doh' t hd => ?_) (fun d k l hl hd => .inl ⟨l, hl, hd⟩)
    by_cases hdc : d = c
    · subst hdc
      rw [setCall_calls, Function.update_self, Option.some.injEq, Call.mk.injEq] at hd
      obtain ⟨rfl, rfl, rfl, -⟩ := hd
      exact .inr (.inr ⟨.resolving, by simp, hc, id⟩)
    · exact .inr (.inr (calls_ne rfl id hdc hd))
  | resolveFail c =>
    obtain ⟨hedp, doh, w, hc, rfl⟩ := step_resolveFail hs
    refine h.of_step hs (fun d k doh' t hd => ?_) (fun d k l hl hd => ?_)
    · by_cases hdc : d = c
      · subst hdc
        rw [setCall_calls, Function.update_self, Option.some.injEq, Call.mk.injEq] at hd
        obtain ⟨rfl, rfl, rfl, -⟩ := hd
        exact .inr (.inr ⟨.resolving, by simp, hc, id⟩)
      · exact .inr (.inr (calls_ne rfl id hdc hd))
    · by_cases hk : k = hedp
      · subst hk
        exact .inr (.inr ⟨ha c rfl, lost_resolveFail hi (roleAt_of_calls hc) hl hd hs⟩)
      · exact .inl ⟨l, by simp [Function.update_of_ne hk, hl], hd⟩
  | insert c =>
    obtain ⟨hedp, doh, w, b, hc, ⟨b', -, rfl⟩ | ⟨-, rfl⟩⟩ := step_insert hs
    all_goals
      refine h.of_step hs (fun d k doh' t hd => ?_) (fun d k l hl hd => .inl ⟨l, hl, hd⟩)
      by_cases hdc : d = c
      · subst hdc
        rw [setCall_calls, Function.update_self, Option.some.injEq, Call.mk.injEq] at hd
        obtain ⟨rfl, rfl, rfl, -⟩ := hd
        exact .inr (.inr ⟨_, by simp, hc, id⟩)
      · exact .inr (.inr (calls_ne rfl id hdc hd))
  | notify c =>
    obtain ⟨hedp, doh, w, b, l, hc, hl, rfl⟩ := step_notify hs
    have hbuff : ∀ d, d ∈ l → ((s.sendAll b l).chan d).buff ≠ [] := by
      intro d hd
      rw [sendAll_chan_mem s d b l (hi.nodup hedp l hl) hd, (hi.listed hedp l d hl hd).2]
      simp [Channel.trySend, Channel.empty]
    have hkeep : ∀ d, (s.chan d).buff ≠ [] → ((s.sendAll b l).chan d).buff ≠ [] := by
      intro d hd
      by_cases hdl : d ∈ l
      · exact hbuff d hdl
      · rw [sendAll_chan_not_mem s d b l hdl]
        exact hd
    refine h.of_step hs (fun d k doh' t hd => .inr (.inr ?_)) (fun d k l' hl' hd => ?_)
    · by_cases hdc : d = c
      · subst hdc
        rw [setCall_calls, Function.update_self, Option.some.injEq, Call.mk.injEq] at hd
        obtain ⟨rfl, rfl, rfl, -⟩ := hd
        exact ⟨_, by simp, hc, hkeep d⟩
      · exact calls_ne (by simp) (hkeep d) hdc hd
    · by_cases hk : k = hedp
      · subst hk
        rw [hl, Option.some.injEq] at hl'
        subst hl'
        exact .inr (.inl (hbuff d hd))
      · exact .inl ⟨l', by simp [Function.update_of_ne hk, hl'], hd⟩
  | receive c =>
    obtain ⟨hedp, doh, t, b, rest, hc, hb, rfl⟩ := step_receive hs
    refine h.of_step hs (fun d k doh' t' hd => ?_) (fun d k l hl hd => .inl ⟨l, hl, hd⟩)
    by_cases hdc : d = c
    · subst hdc
      simp at hd
    · exact .inr (.inr (calls_ne rfl (by simp [Function.update_of_ne hdc]) hdc hd))
  | timeout c =>
    obtain ⟨hedp, doh, t, hc, rfl⟩ := step_timeout hs
    refine h.of_step hs (fun d k doh' t' hd => ?_) (fun d k l hl hd => .inl ⟨l, hl, hd⟩)
    by_cases hdc : d = c
    · subst hdc
      simp at hd
    · exact .inr (.inr (calls_ne rfl id hdc hd))
  | removeSvc hedp =>
    obtain rfl := step_removeSvc hs
    exact h.of_step hs (fun d k doh t hd => .inr (.inr ⟨t, id, hd, id⟩))
      (fun d k l hl hd => .inl ⟨l, hl, hd⟩)

/-- An owner can take its next action. -/
theorem canResolve_of_inFlight {d : C} {k : K} (hi : Inv s) (hd : InFlight s d k) :
    CanResolve s d := by
  obtain ⟨⟨hedp, doh, w, t⟩, hcall, he⟩ := Option.map_eq_some_iff.mp hd
  obtain ⟨rfl, hrole⟩ := Prod.mk.inj he
  cases t with
  | resolving => exact .inl fun el => by simp [step, hcall]
  | resolved a =>
    refine .inr (.inl ?_)
    cases hcache : s.edpCache hedp <;> simp [step, hcall, hcache]
  | inserted a =>
    obtain ⟨l, hl, -⟩ := hi.own_mem d hedp hd
    refine .inr (.inr ?_)
    simp [step, hcall, hl]
  | notSpawned => cases hrole
  | spawned => cases hrole
  | joined => cases hrole
  | finished => cases hrole
  | failed => cases hrole

/-- A caller that waits and is not lost can be moved on. -/
theorem canMove_of_attended {failed : Prop} {c : C} {hedp : K} {doh : Bool} {t : Task L}
    (hi : Inv s) (h : Attended failed s) (hc : s.calls c = some ⟨hedp, doh, .receiving, t⟩) :
    CanMove s c hedp ∨ (failed ∧ Lost s c) := by
  rcases h c hedp doh t hc with rfl | ⟨l, hl, hmem⟩ | hb | hl
  · refine .inl (.inl ?_)
    cases hrun : s.resolveRunning hedp <;> simp [step, hc, hrun]
  · obtain ⟨d, hd⟩ := hi.owned hedp l hl
    exact .inl (.inr (.inr ⟨d, l, hl, hmem, hd, canResolve_of_inFlight hi hd⟩))
  · obtain ⟨a, rest, hb⟩ := List.exists_cons_of_ne_nil hb
    refine .inl (.inr (.inl ?_))
    simp [step, hc, hb]
  · exact .inr hl

/-! ## How many actions a call takes -/

/-- The call that takes the action. -/
def actorOf : Act K L C → Option C
  | .call c _ _ => some c
  | .register c => some c
  | .resolveOk c _ => some c
  | .resolveFail c => some c
  | .insert c => some c
  | .notify c => some c
  | .receive c => some c
  | .timeout c => some c
  | .removeSvc _ => none

/-- How far `async_resolve` has come. -/
def taskRank : Task L → Nat
  | .notSpawned => 0
  | .spawned => 1
  | .joined => 2
  | .resolving => 2
  | .resolved _ => 3
  | .failed => 3
  | .inserted _ => 4
  | .finished => 5

def waiterRank : Waiter L → Nat
  | .receiving => 0
  | .returned _ => 1
  | .timedOut => 1

def rankOf (c : C) (s : SlowDns K L C) : Nat :=
  match s.calls c with
  | some call => taskRank call.task + waiterRank call.waiter
  | none => 0

omit [DecidableEq K] [DecidableEq C] in
theorem rankOf_le (c : C) (s : SlowDns K L C) : rankOf c s ≤ 6 := by
  unfold rankOf
  split
  · next call _ => cases call.task <;> cases call.waiter <;> simp [taskRank, waiterRank]
  · omega

omit [DecidableEq K] in
/-- An action of another call. -/
theorem rankOf_setCall_ne {t : SlowDns K L C} {c d : C} {call : Call K L}
    (ht : t.calls = s.calls) (hne : d ≠ c) : rankOf d (t.setCall c call) = rankOf d s := by
  unfold rankOf
  rw [setCall_calls_ne ht hne]

omit [DecidableEq K] in
/-- An action raises the rank of its call. -/
theorem rankOf_setCall {t : SlowDns K L C} {c d : C} {call : Call K L}
    (ht : t.calls = s.calls) (h : rankOf c s < taskRank call.task + waiterRank call.waiter) :
    rankOf d s + (if decide (some c = some d) = true then 1 else 0) ≤
      rankOf d (t.setCall c call) := by
  by_cases hdc : d = c
  · subst hdc
    simp only [rankOf, setCall_calls, Function.update_self, decide_true, if_true] at h ⊢
    omega
  · rw [rankOf_setCall_ne ht hdc]
    simp [Ne.symm hdc]

theorem rankOf_step (d : C) (s : SlowDns K L C) (a : Act K L C) (s' : SlowDns K L C)
    (hs : step s a = some s') :
    rankOf d s + (if decide (actorOf a = some d) = true then 1 else 0) ≤ rankOf d s' := by
  cases a with
  | call c hedp doh =>
    obtain ⟨hc, ⟨b, -, rfl⟩ | ⟨-, rfl⟩⟩ := step_call hs <;>
      exact rankOf_setCall rfl (by simp [rankOf, hc, taskRank, waiterRank])
  | register c =>
    obtain ⟨hedp, doh, w, hc, ⟨l, -, rfl⟩ | ⟨-, rfl⟩⟩ := step_register hs <;>
      exact rankOf_setCall rfl (by simp [rankOf, hc, taskRank])
  | resolveOk c el =>
    obtain ⟨hedp, doh, w, hc, rfl⟩ := step_resolveOk hs
    exact rankOf_setCall rfl (by simp [rankOf, hc, taskRank])
  | resolveFail c =>
    obtain ⟨hedp, doh, w, hc, rfl⟩ := step_resolveFail hs
    exact rankOf_setCall rfl (by simp [rankOf, hc, taskRank])
  | insert c =>
    obtain ⟨hedp, doh, w, b, hc, ⟨b', -, rfl⟩ | ⟨-, rfl⟩⟩ := step_insert hs <;>
      exact rankOf_setCall rfl (by simp [rankOf, hc, taskRank])
  | notify c =>
    obtain ⟨hedp, doh, w, b, l, hc, -, rfl⟩ := step_notify hs
    exact rankOf_setCall (by simp) (by simp [rankOf, hc, taskRank])
  | receive c =>
    obtain ⟨hedp, doh, t, b, rest, hc, -, rfl⟩ := step_receive hs
    exact rankOf_setCall rfl (by simp [rankOf, hc, waiterRank])
  | timeout c =>
    obtain ⟨hedp, doh, t, hc, rfl⟩ := step_timeout hs
    exact rankOf_setCall rfl (by simp [rankOf, hc, waiterRank])
  | removeSvc hedp =>
    obtain rfl := step_removeSvc hs
    simp [actorOf, rankOf]

/-- **No caller is forgotten.**  In every state of every run: a call has taken six actions
at most; and a caller that still waits can take its own next action, or the owner of the list
on which it stands can, unless a resolution has failed in the run and the caller is lost.  So
a run that goes on without failures brings every caller its list, whatever the order of the
steps. -/
theorem callers_progress (cache : K → Option (Answer L)) (acts : List (Act K L C))
    (s : SlowDns K L C) (hs : run step (init cache) acts = some s) (c : C) :
    acts.countP (fun a => decide (actorOf a = some c)) ≤ 6 ∧
    ∀ hedp doh t, s.calls c = some ⟨hedp, doh, .receiving, t⟩ →
      CanMove s c hedp ∨ ((∃ d, .resolveFail d ∈ acts) ∧ Lost s c) := by
  constructor
  · have hcount := run_countP (rankOf_step c) hs
    have hle := rankOf_le c s
    omega
  · intro hedp doh t hc
    have hstep : ∀ (u : SlowDns K L C) (a : Act K L C) (u' : SlowDns K L C),
        (Inv u ∧ Attended (∃ d, .resolveFail d ∈ acts) u) → a ∈ acts → step u a = some u' →
        Inv u' ∧ Attended (∃ d, .resolveFail d ∈ acts) u' := by
      intro u a u' hu ha h
      exact ⟨inv_step a hu.1 h, attended_step a hu.1 hu.2 (fun d hd => ⟨d, hd ▸ ha⟩) h⟩
    have hu := run_inv_of_meets hstep ⟨inv_init cache, attended_init _ cache⟩
      (meets_of_forall fun _ h => h) hs
    exact canMove_of_attended hu.1 hu.2 hc

/-- Call 1 has joined call 0, whose resolver has answered: call 0 can insert. -/
theorem callers_progress_joined : ∃ s : SlowDns Nat Nat Nat,
    run step (init fun _ => none)
      [.call 0 7 false, .call 1 7 false, .register 0, .register 1, .resolveOk 0 42] = some s ∧
    CanMove s 1 7 := by
  refine ⟨_, rfl, ?_⟩
  rcases (callers_progress (fun _ => none)
    [.call 0 7 false, .call 1 7 false, .register 0, .register 1, .resolveOk 0 42] _ rfl 1).2 7
    false .joined (by rfl) with h | ⟨⟨d, hd⟩, -⟩
  · exact h
  · simp at hd

end Hcpp.Dns.SlowDns
