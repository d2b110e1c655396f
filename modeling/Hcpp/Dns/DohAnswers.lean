import Hcpp.Dns.SingleFlight

/-!
# Who produced the list a caller gets

`edp_cache_` and `resolve_running_` are keyed by (host, service) only: a call
with `doh = true` takes a list the `tcp_resolver` branch put into the cache,
and joins a resolution of that branch.  `MeetsDoh` says that no step of the run
does so; then every list returned to a `doh = true` call came from the DoH branch.
-/

namespace Hcpp.Dns.SlowDns

open Runs

variable {K L C : Type} [DecidableEq K] [DecidableEq C]

/-- Call `c` was made with `doh = true`. -/
def AsksDoh (s : SlowDns K L C) (c : C) : Prop := ∃ call, s.calls c = some call ∧ call.doh = true

/-- The cached list of `hedp`, if there is one, came from the DoH branch. -/
def CachedDoh (s : SlowDns K L C) (hedp : K) : Prop :=
  ∀ a, s.edpCache hedp = some a → a.source = .doh

/-- What a `doh = true` call must find: at its cache check and at its insert no
list of the system resolver in the cache, and at its registration no running
resolution of a `doh = false` call. -/
def MeetsDoh (s : SlowDns K L C) : Act K L C → Prop
  | .call _ hedp doh => doh = true → CachedDoh s hedp
  | .register c => ∀ call, s.calls c = some call → call.doh = true →
      ∀ d, InFlight s d call.hedp → AsksDoh s d
  | .insert c => ∀ call, s.calls c = some call → call.doh = true → CachedDoh s call.hedp
  | _ => True

/-- Everything a call holds or has been sent came from the DoH branch. -/
structure CleanCall (call : Call K L) (ch : Channel L) : Prop where
  buff : ∀ a ∈ ch.buff, a.source = .doh
  returned : ∀ a, call.waiter = .returned a → a.source = .doh
  resolved : ∀ a, call.task = .resolved a → a.source = .doh
  inserted : ∀ a, call.task = .inserted a → a.source = .doh

structure DohInv (s : SlowDns K L C) : Prop where
  clean : ∀ c call, s.calls c = some call → call.doh = true → CleanCall call (s.chan c)
  /-- who is listed with a `doh = true` call is resolved by a `doh = true` call -/
  owner : ∀ k l d c, s.resolveRunning k = some l → d ∈ l → AsksDoh s d → InFlight s c k →
    AsksDoh s c

omit [DecidableEq K] [DecidableEq C] in
theorem dohInv_init (cache : K → Option (Answer L)) : DohInv (init cache : SlowDns K L C) where
  clean := by intro c call h; cases h
  owner := by intro k l d c h; cases h

omit [DecidableEq K] in
/-- A call keeps its `doh` flag. -/
theorem asksDoh_setCall {s t : SlowDns K L C} {c : C} {old call : Call K L}
    (ht : t.calls = s.calls) (hc : s.calls c = some old) (hd : old.doh = call.doh) (d : C) :
    AsksDoh (t.setCall c call) d ↔ AsksDoh s d := by
  unfold AsksDoh
  rw [setCall_calls, ht]
  by_cases h : d = c
  · subst h
    simp [hc, hd]
  · rw [Function.update_of_ne h]

omit [DecidableEq K] in
/-- An update of one call that keeps its flag, its key and its role. -/
theorem DohInv.of_setCall {s t : SlowDns K L C} (hj : DohInv s) {c : C} {old call : Call K L}
    (ht : t.calls = s.calls) (hrun : t.resolveRunning = s.resolveRunning)
    (hc : s.calls c = some old) (hd : old.doh = call.doh) (hk : old.hedp = call.hedp)
    (hr : roleOf old.task = roleOf call.task) (hch : ∀ d, d ≠ c → t.chan d = s.chan d)
    (hclean : call.doh = true → CleanCall call (t.chan c)) : DohInv (t.setCall c call) where
  clean := by
    intro d cd hcd hdoh
    by_cases h : d = c
    · subst h
      rw [setCall_calls, Function.update_self] at hcd
      obtain rfl := Option.some.inj hcd
      exact hclean hdoh
    · rw [setCall_calls, Function.update_of_ne h, ht] at hcd
      rw [setCall_chan, hch d h]
      exact hj.clean d cd hcd hdoh
  owner := by
    intro k l d e hl hm had hfe
    unfold InFlight at hfe
    rw [roleAt_setCall_same ht hc hk hr] at hfe
    rw [asksDoh_setCall ht hc hd] at had ⊢
    exact hj.owner k l d e (hrun ▸ hl) hm had hfe

omit [DecidableEq K] in
/-- A new call: nothing in its channel, and no role in the running table. -/
theorem DohInv.of_call {s : SlowDns K L C} (hi : Inv s) (hj : DohInv s) {c : C}
    {call : Call K L} (hc : s.calls c = none) (hover : roleOf call.task ≠ .owner)
    (hclean : call.doh = true → CleanCall call (s.chan c)) : DohInv (s.setCall c call) where
  clean := by
    intro d cd hcd hdoh
    by_cases h : d = c
    · subst h
      rw [setCall_calls, Function.update_self] at hcd
      obtain rfl := Option.some.inj hcd
      exact hclean hdoh
    · rw [setCall_calls, Function.update_of_ne h] at hcd
      exact hj.clean d cd hcd hdoh
  owner := by
    intro k l d e hl hm had hfe
    have hlisted : ∀ x, x ∈ l → x ≠ c := by
      rintro x hx rfl
      have hnone : roleAt s x = none := by simp [roleAt, hc]
      rcases (hi.listed k l x hl hx).1 with h | h <;> rw [hnone] at h <;> cases h
    have hec : e ≠ c := by
      rintro rfl
      exact hover (inFlight_setCall_self hfe).2
    have hsame : ∀ x, x ≠ c → (AsksDoh (s.setCall c call) x ↔ AsksDoh s x) := by
      intro x hx
      unfold AsksDoh
      rw [setCall_calls, Function.update_of_ne hx]
    unfold InFlight at hfe
    rw [roleAt_setCall, Function.update_of_ne hec] at hfe
    rw [hsame e hec]
    exact hj.owner k l d e hl hm ((hsame d (hlisted d hm)).mp had) hfe

/-- A registration: the caller's own entry grows, and the others stay. -/
theorem DohInv.of_register {s : SlowDns K L C} (hi : Inv s) (hj : DohInv s) {c : C} {k : K}
    {doh : Bool} {w : Waiter L} {t : Task L} {l : List C}
    (hc : s.calls c = some ⟨k, doh, w, .spawned⟩)
    (ht : t = .joined ∧ s.resolveRunning k = some l ∨
      t = .resolving ∧ s.resolveRunning k = none ∧ l = [])
    (hC : doh = true → ∀ d, InFlight s d k → AsksDoh s d) :
    DohInv ((s.setRunning k (some (l ++ [c]))).setCall c ⟨k, doh, w, t⟩) where
  clean := by
    intro d cd hcd hdoh
    by_cases h : d = c
    · subst h
      rw [setCall_calls, Function.update_self] at hcd
      obtain rfl := Option.some.inj hcd
      have hold := hj.clean d _ hc hdoh
      refine ⟨hold.buff, hold.returned, ?_, ?_⟩
      · intro a ha
        rcases ht with ⟨rfl, -⟩ | ⟨rfl, -⟩ <;> cases ha
      · intro a ha
        rcases ht with ⟨rfl, -⟩ | ⟨rfl, -⟩ <;> cases ha
    · rw [setCall_calls, Function.update_of_ne h] at hcd
      exact hj.clean d cd hcd hdoh
  owner := by
    intro k' l' d e hl' hm had hfe
    have hflag : ∀ x, AsksDoh ((s.setRunning k (some (l ++ [c]))).setCall c ⟨k, doh, w, t⟩) x ↔
        AsksDoh s x := fun x => asksDoh_setCall (by rfl) hc (by rfl) x
    have hec : e = c → k' = k ∧ t = .resolving := by
      rintro rfl
      obtain ⟨hkey, hrole⟩ := inFlight_setCall_self hfe
      refine ⟨hkey.symm, ?_⟩
      rcases ht with ⟨rfl, -⟩ | ⟨rfl, -⟩
      · cases hrole
      · rfl
    have hfe' : e ≠ c → InFlight s e k' := by
      intro h
      unfold InFlight at hfe ⊢
      rw [roleAt_setCall, Function.update_of_ne h] at hfe
      exact hfe
    rw [hflag] at had ⊢
    by_cases hk : k' = k
    · subst hk
      rw [setCall_resolveRunning, setRunning_resolveRunning, Function.update_self] at hl'
      obtain rfl := Option.some.inj hl'
      rcases ht with ⟨rfl, hl⟩ | ⟨rfl, hnone, rfl⟩
      · -- joining: the owner is the one that was there
        have hne : e ≠ c := fun h => by cases (hec h).2
        rcases List.mem_append.mp hm with hm | hm
        · exact hj.owner k' l d e hl hm had (hfe' hne)
        · obtain rfl := List.mem_singleton.mp hm
          obtain ⟨cd, hcd, hdoh⟩ := had
          rw [hc] at hcd
          obtain rfl := Option.some.inj hcd
          exact hC hdoh e (hfe' hne)
      · -- resolving: the caller is alone in its entry, and it is the owner
        obtain rfl : d = c := by simpa using hm
        by_cases h : e = d
        · exact h ▸ had
        · obtain ⟨l', hl', -⟩ := hi.own_mem e k' (hfe' h)
          rw [hnone] at hl'
          cases hl'
    · have hne : e ≠ c := fun h => hk (hec h).1
      rw [setCall_resolveRunning, setRunning_resolveRunning, Function.update_of_ne hk] at hl'
      exact hj.owner k' l' d e hl' hm had (hfe' hne)

/-- The owner leaves with its entry, after sending to the entry's channels or not. -/
theorem DohInv.of_leave {s t : SlowDns K L C} (hj : DohInv s) {c : C} {k : K}
    {doh : Bool} {w : Waiter L} {tk tk' : Task L} (hc : s.calls c = some ⟨k, doh, w, tk⟩)
    (hover : roleOf tk' = .over) (ht : t.calls = s.calls)
    (hrun : t.resolveRunning = Function.update s.resolveRunning k none)
    (hbuff : ∀ d, AsksDoh s d → ∀ a ∈ (t.chan d).buff, a.source = .doh) :
    DohInv (t.setCall c ⟨k, doh, w, tk'⟩) where
  clean := by
    intro d cd hcd hdoh
    by_cases h : d = c
    · subst h
      rw [setCall_calls, Function.update_self] at hcd
      obtain rfl := Option.some.inj hcd
      have hold := hj.clean d _ hc hdoh
      refine ⟨hbuff d ⟨_, hc, hdoh⟩, hold.returned, ?_, ?_⟩
      · intro a ha
        change tk' = _ at ha
        rw [ha] at hover
        cases hover
      · intro a ha
        change tk' = _ at ha
        rw [ha] at hover
        cases hover
    · rw [setCall_calls, Function.update_of_ne h, ht] at hcd
      have hold := hj.clean d cd hcd hdoh
      exact ⟨hbuff d ⟨cd, hcd, hdoh⟩, hold.returned, hold.resolved, hold.inserted⟩
  owner := by
    intro k' l d e hl hm had hfe
    have hflag : ∀ x, AsksDoh (t.setCall c ⟨k, doh, w, tk'⟩) x ↔ AsksDoh s x :=
      fun x => asksDoh_setCall ht hc (by rfl) x
    rw [hflag] at had ⊢
    by_cases hk : k' = k
    · rw [setCall_resolveRunning, hrun, hk, Function.update_self] at hl
      cases hl
    · rw [setCall_resolveRunning, hrun, Function.update_of_ne hk] at hl
      have hec : e ≠ c := by
        rintro rfl
        exact hk (inFlight_setCall_self hfe).1.symm
      unfold InFlight at hfe
      rw [roleAt_setCall, Function.update_of_ne hec, roleAt_congr ht] at hfe
      exact hj.owner k' l d e hl hm had hfe

theorem dohInv_step {s s' : SlowDns K L C} (a : Act K L C) (hi : Inv s) (hj : DohInv s)
    (hC : MeetsDoh s a) (h : step s a = some s') : DohInv s' := by
  cases a with
  | call c hedp doh =>
    obtain ⟨hc, hcase⟩ := step_call h
    have hnone : roleAt s c = none := by simp [roleAt, hc]
    have hempty : (s.chan c).buff = [] := by rw [hi.fresh c (.inl hnone)]; rfl
    rcases hcase with ⟨a, ha, rfl⟩ | ⟨-, rfl⟩
    · refine hj.of_call hi hc (by simp [roleOf]) (fun hdoh => ⟨?_, ?_, ?_, ?_⟩)
      · simp [hempty]
      · intro a' ha'
        obtain rfl := Waiter.returned.inj ha'
        exact hC hdoh a ha
      · intro a' ha'
        cases ha'
      · intro a' ha'
        cases ha'
    · refine hj.of_call hi hc (by simp [roleOf]) (fun _ => ⟨?_, ?_, ?_, ?_⟩)
      · simp [hempty]
      all_goals
        intro a' ha'
        cases ha'
  | register c =>
    obtain ⟨hedp, doh, w, hc, hcase⟩ := step_register h
    have hown : doh = true → ∀ d, InFlight s d hedp → AsksDoh s d := hC _ hc
    rcases hcase with ⟨l, hl, rfl⟩ | ⟨hl, rfl⟩
    · exact hj.of_register hi hc (.inl ⟨rfl, hl⟩) hown
    · have hnil : ([] : List C) = [] := rfl
      exact hj.of_register hi hc (.inr ⟨rfl, hl, hnil⟩) hown
  | resolveOk c el =>
    obtain ⟨hedp, doh, w, hc, rfl⟩ := step_resolveOk h
    refine hj.of_setCall rfl rfl hc rfl rfl rfl (fun _ _ => rfl) (fun hdoh => ?_)
    have hold := hj.clean c _ hc hdoh
    refine ⟨hold.buff, hold.returned, ?_, ?_⟩
    · intro a ha
      obtain rfl := Task.resolved.inj ha
      change doh = true at hdoh
      simp [dohSource, hdoh]
    · intro a ha
      cases ha
  | resolveFail c =>
    obtain ⟨hedp, doh, w, hc, rfl⟩ := step_resolveFail h
    refine hj.of_leave hc rfl rfl rfl ?_
    rintro d ⟨cd, hcd, hdoh⟩
    exact (hj.clean d cd hcd hdoh).buff
  | insert c =>
    obtain ⟨hedp, doh, w, a, hc, hcase⟩ := step_insert h
    rcases hcase with ⟨a', ha', rfl⟩ | ⟨-, rfl⟩
    · refine hj.of_setCall rfl rfl hc rfl rfl rfl (fun _ _ => rfl) (fun hdoh => ?_)
      have hold := hj.clean c _ hc hdoh
      refine ⟨hold.buff, hold.returned, ?_, ?_⟩
      · intro b hb
        cases hb
      · intro b hb
        obtain rfl := Task.inserted.inj hb
        exact hC _ hc hdoh a' ha'
    · refine hj.of_setCall rfl rfl hc rfl rfl rfl (fun _ _ => rfl) (fun hdoh => ?_)
      have hold := hj.clean c _ hc hdoh
      refine ⟨hold.buff, hold.returned, ?_, ?_⟩
      · intro b hb
        cases hb
      · intro b hb
        obtain rfl := Task.inserted.inj hb
        exact hold.resolved a rfl
  | notify c =>
    obtain ⟨hedp, doh, w, a, l, hc, hl, rfl⟩ := step_notify h
    have hfc : InFlight s c hedp := roleAt_of_calls hc
    apply hj.of_leave hc rfl (by simp) (by simp)
    intro d hd
    rw [setRunning_chan]
    by_cases hm : d ∈ l
    · -- a listed `doh = true` call: so the owner is one, and its list is clean
      rw [sendAll_chan_mem s d a l (hi.nodup hedp l hl) hm, (hi.listed hedp l d hl hm).2]
      obtain ⟨cc, hcc, hdoh⟩ := hj.owner hedp l d c hl hm hd hfc
      intro b hb
      obtain rfl : b = a := by simpa [Channel.trySend, Channel.empty] using hb
      rw [hc] at hcc
      obtain rfl := Option.some.inj hcc
      exact (hj.clean c _ hc hdoh).inserted b rfl
    · rw [sendAll_chan_not_mem s d a l hm]
      obtain ⟨cd, hcd, hdoh⟩ := hd
      exact (hj.clean d cd hcd hdoh).buff
  | receive c =>
    obtain ⟨hedp, doh, t, a, rest, hc, hb, rfl⟩ := step_receive h
    refine hj.of_setCall rfl rfl hc rfl rfl rfl ?_ (fun hdoh => ?_)
    · intro d hd
      rw [setChan_chan, Function.update_of_ne hd]
    · have hold := hj.clean c _ hc hdoh
      have hsrc : ∀ b, b = a ∨ b ∈ rest → b.source = .doh := by
        intro b hb'
        exact hold.buff b (by rw [hb]; exact List.mem_cons.mpr hb')
      refine ⟨?_, ?_, hold.resolved, hold.inserted⟩
      · intro b hb'
        rw [setChan_chan, Function.update_self] at hb'
        exact hsrc b (.inr hb')
      · intro b hb'
        obtain rfl := Waiter.returned.inj hb'
        exact hsrc a (.inl rfl)
  | timeout c =>
    obtain ⟨hedp, doh, t, hc, rfl⟩ := step_timeout h
    refine hj.of_setCall rfl rfl hc rfl rfl rfl (fun _ _ => rfl) (fun hdoh => ?_)
    have hold := hj.clean c _ hc hdoh
    refine ⟨hold.buff, ?_, hold.resolved, hold.inserted⟩
    intro b hb
    cases hb
  | removeSvc hedp =>
    obtain rfl := step_removeSvc h
    exact ⟨hj.clean, hj.owner⟩

/-- **A `doh = true` caller gets a DoH list** in every run, from an empty cache,
none of whose steps makes such a call find or join a system resolution. -/
theorem doh_returned (acts : List (Act K L C)) (s : SlowDns K L C)
    (hC : Meets step MeetsDoh (init fun _ => none) acts)
    (hs : run step (init fun _ => none) acts = some s) (c : C) (call : Call K L) (a : Answer L)
    (hc : s.calls c = some call) (hdoh : call.doh = true) (ha : call.waiter = .returned a) :
    a.source = .doh := by
  have hstep : ∀ (t : SlowDns K L C) (b : Act K L C) (t' : SlowDns K L C),
      (Inv t ∧ DohInv t) → MeetsDoh t b → step t b = some t' → Inv t' ∧ DohInv t' :=
    fun t b t' hij hm h => ⟨inv_step b hij.1 h, dohInv_step b hij.1 hij.2 hm h⟩
  have hinv := run_inv_of_meets hstep ⟨inv_init _, dohInv_init _⟩ hC hs
  exact (hinv.2.clean c call hc hdoh).returned a ha

/-- One DoH call, from its cache check to its answer. -/
theorem doh_returned_single : ∃ s : SlowDns Nat Nat Nat,
    run step (init fun _ => none)
      [.call 0 7 true, .register 0, .resolveOk 0 42, .insert 0, .notify 0, .receive 0] = some s ∧
    ∀ a, s.calls 0 = some ⟨7, true, .returned a, .finished⟩ → a.source = .doh := by
  refine ⟨_, rfl, fun a ha => ?_⟩
  refine doh_returned
    [.call 0 7 true, .register 0, .resolveOk 0 42, .insert 0, .notify 0, .receive 0] _ ?_ rfl
    0 _ a ha rfl rfl
  refine meets_cons ?_ rfl (meets_cons ?_ rfl (meets_cons trivial rfl (meets_cons ?_ rfl
    (meets_cons trivial rfl (meets_cons trivial rfl trivial)))))
  · intro _ b hb
    cases hb
  · intro call hcall _ d hd
    obtain rfl := Option.some.inj hcall
    by_cases h : d = 0
    · subst h
      exact ⟨_, rfl, rfl⟩
    · simp [InFlight, roleAt, setCall, init, Function.update_of_ne h] at hd
  · intro call hcall _ b hb
    obtain rfl := Option.some.inj hcall
    cases hb

/-- A `doh = false` call fills the cache, and a `doh = true` call on the same key
is answered from it. -/
theorem doh_caller_gets_system_list : ∃ s : SlowDns Nat Nat Nat,
    run step (init fun _ => none) [.call 0 7 false, .register 0, .resolveOk 0 42, .insert 0,
      .notify 0, .receive 0, .call 1 7 true] = some s ∧
    ∃ call a, s.calls 1 = some call ∧ call.doh = true ∧ call.waiter = .returned a ∧
      a.source ≠ .doh :=
  ⟨_, rfl, ⟨7, true, .returned ⟨.system, 42⟩, .notSpawned⟩, ⟨.system, 42⟩, rfl, rfl, rfl,
    by decide⟩

end Hcpp.Dns.SlowDns
