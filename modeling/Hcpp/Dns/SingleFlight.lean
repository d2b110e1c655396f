import Hcpp.Dns.SlowDnsSteps
import Mathlib.Data.List.Nodup

/-!
# Single-flight resolution

`Inv` ties the three tables together: a key is in `resolve_running_` exactly
while one call resolves it, the registered channels are distinct and still
empty, and a call that has not registered owns an empty channel.  The cache
check, the registration, the insert and the notification are separate critical
sections, so the invariant is about what the calls are in between (`roleAt`).
-/

namespace Hcpp.Dns.SlowDns

open Runs

variable {K L C : Type}

/-- What a call is for `resolve_running_`. -/
inductive Role where
  | unregistered
  | owner
  | joined
  | over
deriving DecidableEq

def roleOf : Task L → Role
  | .spawned => .unregistered
  | .resolving => .owner
  | .resolved _ => .owner
  | .inserted _ => .owner
  | .joined => .joined
  | .notSpawned => .over
  | .finished => .over
  | .failed => .over

def roleAt (s : SlowDns K L C) (c : C) : Option (K × Role) :=
  (s.calls c).map fun call => (call.hedp, roleOf call.task)

/-- Call `c` is resolving `k`: from its registration to its notification or failure. -/
def InFlight (s : SlowDns K L C) (c : C) (k : K) : Prop := roleAt s c = some (k, .owner)

instance [DecidableEq K] (s : SlowDns K L C) (c : C) (k : K) : Decidable (InFlight s c k) := by
  unfold InFlight
  infer_instance

theorem roleAt_of_calls {s : SlowDns K L C} {c : C} {call : Call K L}
    (h : s.calls c = some call) : roleAt s c = some (call.hedp, roleOf call.task) := by
  simp [roleAt, h]

/-- Two states with the same calls have the same roles. -/
theorem roleAt_congr {s t : SlowDns K L C} (h : s.calls = t.calls) : roleAt s = roleAt t := by
  ext c
  simp [roleAt, h]

section Roles

variable [DecidableEq C]

theorem roleAt_setCall (s : SlowDns K L C) (c : C) (call : Call K L) :
    roleAt (s.setCall c call) =
      Function.update (roleAt s) c (some (call.hedp, roleOf call.task)) := by
  ext d
  unfold roleAt
  by_cases h : d = c
  · subst h
    simp
  · simp [Function.update_of_ne h]

/-- The call that is stored is in flight only for its own key, and as its owner. -/
theorem inFlight_setCall_self {s : SlowDns K L C} {c : C} {call : Call K L} {k : K}
    (h : InFlight (s.setCall c call) c k) : call.hedp = k ∧ roleOf call.task = .owner := by
  unfold InFlight at h
  rw [roleAt_setCall, Function.update_self] at h
  exact Prod.mk.inj (Option.some.inj h)

/-- A call that keeps its key and its role keeps everybody's role. -/
theorem roleAt_setCall_same {s t : SlowDns K L C} {c : C} {call old : Call K L}
    (ht : t.calls = s.calls) (h : s.calls c = some old) (hk : old.hedp = call.hedp)
    (hr : roleOf old.task = roleOf call.task) : roleAt (t.setCall c call) = roleAt s := by
  have hc : roleAt s c = some (call.hedp, roleOf call.task) := by rw [roleAt_of_calls h, hk, hr]
  rw [roleAt_setCall, roleAt_congr ht, ← hc, Function.update_eq_self]

end Roles

/-! ## The invariant -/

structure Inv (s : SlowDns K L C) : Prop where
  /-- a key that is being resolved has a call resolving it -/
  owned : ∀ k l, s.resolveRunning k = some l → ∃ c, InFlight s c k
  /-- a call resolving a key is listed under it -/
  own_mem : ∀ c k, InFlight s c k → ∃ l, s.resolveRunning k = some l ∧ c ∈ l
  /-- at most one call resolves a key -/
  unique : ∀ c d k, InFlight s c k → InFlight s d k → c = d
  /-- who is listed has registered for that key and has got nothing yet -/
  listed : ∀ k l c, s.resolveRunning k = some l → c ∈ l →
    (roleAt s c = some (k, .owner) ∨ roleAt s c = some (k, .joined)) ∧ s.chan c = .empty
  nodup : ∀ k l, s.resolveRunning k = some l → l.Nodup
  /-- who has not registered has got nothing -/
  fresh : ∀ c, (roleAt s c = none ∨ ∃ k, roleAt s c = some (k, .unregistered)) →
    s.chan c = .empty

theorem inv_init (cache : K → Option (Answer L)) : Inv (init cache : SlowDns K L C) where
  owned := by intro k l h; cases h
  own_mem := by intro c k h; cases h
  unique := by intro c d k h; cases h
  listed := by intro k l c h; cases h
  nodup := by intro k l h; cases h
  fresh := by intro c _; rfl

/-- A step that leaves the roles and the running table alone, and every empty
channel empty, keeps the invariant. -/
theorem Inv.of_quiet {s t : SlowDns K L C} (hi : Inv s) (hr : roleAt t = roleAt s)
    (hrun : t.resolveRunning = s.resolveRunning)
    (hch : ∀ c, s.chan c = .empty → t.chan c = .empty) : Inv t where
  owned := by
    intro k l hl
    unfold InFlight
    rw [hr]
    exact hi.owned k l (hrun ▸ hl)
  own_mem := by
    intro c k hc
    unfold InFlight at hc
    rw [hr] at hc
    rw [hrun]
    exact hi.own_mem c k hc
  unique := by
    intro c d k hc hd
    unfold InFlight at hc hd
    rw [hr] at hc hd
    exact hi.unique c d k hc hd
  listed := by
    intro k l c hl hc
    rw [hrun] at hl
    rw [hr]
    obtain ⟨h1, h2⟩ := hi.listed k l c hl hc
    exact ⟨h1, hch c h2⟩
  nodup := by
    intro k l hl
    exact hi.nodup k l (hrun ▸ hl)
  fresh := by
    intro c hc
    rw [hr] at hc
    exact hch c (hi.fresh c hc)

/-- A call that has not registered is listed nowhere. -/
theorem Inv.not_listed {s : SlowDns K L C} (hi : Inv s) {c : C} {k k' : K} {l : List C}
    (hc : roleAt s c = some (k, .unregistered)) (hl : s.resolveRunning k' = some l) : c ∉ l := by
  intro hm
  rcases (hi.listed k' l c hl hm).1 with h | h
  · rw [hc] at h
    cases h
  · rw [hc] at h
    cases h

variable [DecidableEq K] [DecidableEq C]

omit [DecidableEq K] in
/-- A new call: its role goes from nothing to one outside the running table. -/
theorem Inv.of_call {s : SlowDns K L C} (hi : Inv s) {c : C} {call : Call K L}
    (hc : s.calls c = none)
    (hrole : roleOf call.task = .unregistered ∨ roleOf call.task = .over) :
    Inv (s.setCall c call) := by
  have hnone : roleAt s c = none := by simp [roleAt, hc]
  have hne : ∀ d k, roleAt s d = some k → d ≠ c := by
    rintro d k hd rfl
    rw [hnone] at hd
    cases hd
  have hflight : ∀ d k, InFlight (s.setCall c call) d k ↔ InFlight s d k := by
    intro d k
    unfold InFlight
    rw [roleAt_setCall]
    by_cases hd : d = c
    · subst hd
      rw [Function.update_self, hnone]
      rcases hrole with h | h <;> simp [h]
    · rw [Function.update_of_ne hd]
  constructor
  case owned =>
    intro k l hl
    obtain ⟨d, hd⟩ := hi.owned k l hl
    exact ⟨d, (hflight d k).mpr hd⟩
  case own_mem =>
    intro d k hd
    exact hi.own_mem d k ((hflight d k).mp hd)
  case unique =>
    intro d e k hd he
    exact hi.unique d e k ((hflight d k).mp hd) ((hflight e k).mp he)
  case listed =>
    intro k l d hl hd
    obtain ⟨h1, h2⟩ := hi.listed k l d hl hd
    refine ⟨?_, h2⟩
    have hdc : d ≠ c := by
      rcases h1 with h | h
      · exact hne d _ h
      · exact hne d _ h
    rw [roleAt_setCall, Function.update_of_ne hdc]
    exact h1
  case nodup => exact hi.nodup
  case fresh =>
    intro d hd
    by_cases hdc : d = c
    · subst hdc
      exact hi.fresh d (.inl hnone)
    · rw [roleAt_setCall, Function.update_of_ne hdc] at hd
      exact hi.fresh d hd

/-- Registering for `k`: behind a running resolution, or first, as the owner of the key. -/
theorem Inv.of_register {s t : SlowDns K L C} (hi : Inv s) {c : C} {k : K} {r : Role} {l : List C}
    (hc : roleAt s c = some (k, .unregistered))
    (hcase : s.resolveRunning k = some l ∧ r = .joined ∨
      s.resolveRunning k = none ∧ l = [] ∧ r = .owner)
    (hrole : roleAt t = Function.update (roleAt s) c (some (k, r)))
    (hrun : t.resolveRunning = Function.update s.resolveRunning k (some (l ++ [c])))
    (hch : t.chan = s.chan) : Inv t := by
  have hempty : t.chan c = .empty := by
    rw [hch]
    exact hi.fresh c (.inr ⟨k, hc⟩)
  have hnot : ∀ k' l', s.resolveRunning k' = some l' → c ∉ l' :=
    fun _ _ hl' => hi.not_listed hc hl'
  have hold : ∀ d ∈ l, s.resolveRunning k = some l ∧ d ≠ c := by
    intro d hd
    rcases hcase with ⟨hl, -⟩ | ⟨-, rfl, -⟩
    · exact ⟨hl, fun e => hnot k l hl (e ▸ hd)⟩
    · cases hd
  have hflight : ∀ d k', InFlight t d k' ↔ (r = .owner ∧ d = c ∧ k' = k) ∨ InFlight s d k' := by
    intro d k'
    unfold InFlight
    rw [hrole]
    by_cases hd : d = c
    · subst hd
      rw [Function.update_self, hc]
      simp [eq_comm, and_comm]
    · rw [Function.update_of_ne hd]
      simp [hd]
  have hfree : r = .owner → ∀ d, ¬ InFlight s d k := by
    rintro rfl d hd
    obtain ⟨l', hl', -⟩ := hi.own_mem d k hd
    rcases hcase with ⟨-, h⟩ | ⟨hl, -⟩
    · cases h
    · rw [hl] at hl'
      cases hl'
  constructor
  case owned =>
    intro k' l' hl'
    by_cases hk : k' = k
    · subst hk
      rcases hcase with ⟨hl, -⟩ | ⟨-, -, hr⟩
      · obtain ⟨d, hd⟩ := hi.owned k' l hl
        exact ⟨d, (hflight d k').mpr (.inr hd)⟩
      · exact ⟨c, (hflight c k').mpr (.inl ⟨hr, rfl, rfl⟩)⟩
    · rw [hrun, Function.update_of_ne hk] at hl'
      obtain ⟨d, hd⟩ := hi.owned k' l' hl'
      exact ⟨d, (hflight d k').mpr (.inr hd)⟩
  case own_mem =>
    intro d k' hd
    rw [hrun]
    rcases (hflight d k').mp hd with ⟨-, rfl, rfl⟩ | hd
    · exact ⟨l ++ [d], Function.update_self .., List.mem_append_right _ (List.mem_singleton_self d)⟩
    · obtain ⟨l', hl', hm⟩ := hi.own_mem d k' hd
      by_cases hk : k' = k
      · subst hk
        rcases hcase with ⟨hl, -⟩ | ⟨hl, -⟩
        · rw [hl] at hl'
          obtain rfl := Option.some.inj hl'
          exact ⟨l ++ [c], Function.update_self .., List.mem_append_left _ hm⟩
        · rw [hl] at hl'
          cases hl'
      · exact ⟨l', by rw [Function.update_of_ne hk, hl'], hm⟩
  case unique =>
    intro d e k' hd he
    rcases (hflight d k').mp hd with ⟨hr, rfl, rfl⟩ | hd'
    · rcases (hflight e k').mp he with ⟨-, rfl, -⟩ | he'
      · rfl
      · exact absurd he' (hfree hr e)
    · rcases (hflight e k').mp he with ⟨hr, -, rfl⟩ | he'
      · exact absurd hd' (hfree hr d)
      · exact hi.unique d e k' hd' he'
  case listed =>
    intro k' l' d hl' hd
    rw [hrole]
    by_cases hk : k' = k
    · subst hk
      rw [hrun, Function.update_self] at hl'
      obtain rfl := Option.some.inj hl'
      rcases List.mem_append.mp hd with hd | hd
      · obtain ⟨hl, hdc⟩ := hold d hd
        rw [Function.update_of_ne hdc, hch]
        exact hi.listed k' l d hl hd
      · obtain rfl := List.mem_singleton.mp hd
        rw [Function.update_self]
        refine ⟨?_, hempty⟩
        rcases hcase with ⟨-, rfl⟩ | ⟨-, -, rfl⟩
        · exact .inr rfl
        · exact .inl rfl
    · rw [hrun, Function.update_of_ne hk] at hl'
      have hdc : d ≠ c := fun e => hnot k' l' hl' (e ▸ hd)
      rw [Function.update_of_ne hdc, hch]
      exact hi.listed k' l' d hl' hd
  case nodup =>
    intro k' l' hl'
    by_cases hk : k' = k
    · subst hk
      rw [hrun, Function.update_self] at hl'
      obtain rfl := Option.some.inj hl'
      have hnodup : l.Nodup := by
        rcases hcase with ⟨hl, -⟩ | ⟨-, rfl, -⟩
        · exact hi.nodup k' l hl
        · exact List.nodup_nil
      rw [List.nodup_append]
      refine ⟨hnodup, List.nodup_singleton c, ?_⟩
      intro a ha b hb hab
      rw [List.mem_singleton] at hb
      exact (hold a ha).2 (hab.trans hb)
    · rw [hrun, Function.update_of_ne hk] at hl'
      exact hi.nodup k' l' hl'
  case fresh =>
    intro d hd
    rw [hrole] at hd
    by_cases hdc : d = c
    · rw [hdc]
      exact hempty
    · rw [Function.update_of_ne hdc] at hd
      rw [hch]
      exact hi.fresh d hd

/-- The owner of `k` leaves with the whole entry of `k`: a failure, or a
notification after which only the channels of the entry may have changed. -/
theorem Inv.of_leave {s t : SlowDns K L C} (hi : Inv s) {c : C} {k : K} {l : List C}
    (hc : InFlight s c k) (hl : s.resolveRunning k = some l)
    (hrole : roleAt t = Function.update (roleAt s) c (some (k, .over)))
    (hrun : t.resolveRunning = Function.update s.resolveRunning k none)
    (hch : ∀ d, d ∉ l → t.chan d = s.chan d) : Inv t := by
  have hflight : ∀ d k', InFlight t d k' ↔ d ≠ c ∧ InFlight s d k' := by
    intro d k'
    unfold InFlight
    rw [hrole]
    by_cases hd : d = c
    · subst hd
      simp
    · simp [hd]
  have hout : ∀ k' l', k' ≠ k → s.resolveRunning k' = some l' → ∀ d ∈ l', d ∉ l := by
    intro k' l' hk hl' d hd hdl
    have h1 := (hi.listed k' l' d hl' hd).1
    have h2 := (hi.listed k l d hl hdl).1
    rcases h1 with h1 | h1 <;> rcases h2 with h2 | h2 <;> rw [h1] at h2 <;> simp_all
  constructor
  case owned =>
    intro k' l' hl'
    by_cases hk : k' = k
    · rw [hrun, hk, Function.update_self] at hl'
      cases hl'
    · rw [hrun, Function.update_of_ne hk] at hl'
      obtain ⟨d, hd⟩ := hi.owned k' l' hl'
      refine ⟨d, (hflight d k').mpr ⟨?_, hd⟩⟩
      rintro rfl
      unfold InFlight at hc hd
      rw [hc] at hd
      simp only [Option.some.injEq, Prod.mk.injEq, and_true] at hd
      exact hk hd.symm
  case own_mem =>
    intro d k' hd
    obtain ⟨hne, hd⟩ := (hflight d k').mp hd
    have hk : k' ≠ k := fun e => hne (hi.unique d c k (e ▸ hd) hc)
    rw [hrun, Function.update_of_ne hk]
    exact hi.own_mem d k' hd
  case unique =>
    intro d e k' hd he
    exact hi.unique d e k' ((hflight d k').mp hd).2 ((hflight e k').mp he).2
  case listed =>
    intro k' l' d hl' hd
    by_cases hk : k' = k
    · rw [hrun, hk, Function.update_self] at hl'
      cases hl'
    · rw [hrun, Function.update_of_ne hk] at hl'
      have hdl := hout k' l' hk hl' d hd
      have hdc : d ≠ c := by
        rintro rfl
        obtain ⟨l2, hl2, hm⟩ := hi.own_mem d k hc
        rw [hl] at hl2
        obtain rfl := Option.some.inj hl2
        exact hdl hm
      rw [hrole, Function.update_of_ne hdc, hch d hdl]
      exact hi.listed k' l' d hl' hd
  case nodup =>
    intro k' l' hl'
    by_cases hk : k' = k
    · rw [hrun, hk, Function.update_self] at hl'
      cases hl'
    · rw [hrun, Function.update_of_ne hk] at hl'
      exact hi.nodup k' l' hl'
  case fresh =>
    intro d hd
    by_cases hdc : d = c
    · rw [hrole, hdc, Function.update_self] at hd
      simp at hd
    · rw [hrole, Function.update_of_ne hdc] at hd
      have hdl : d ∉ l := by
        intro hm
        rcases (hi.listed k l d hl hm).1 with h | h <;> rw [h] at hd <;> simp at hd
      rw [hch d hdl]
      exact hi.fresh d hd

/-- **Every action keeps the invariant.** -/
theorem inv_step {s s' : SlowDns K L C} (a : Act K L C) (hi : Inv s)
    (h : step s a = some s') : Inv s' := by
  cases a with
  | call c hedp doh =>
    obtain ⟨hc, ⟨a, -, rfl⟩ | ⟨-, rfl⟩⟩ := step_call h
    · exact hi.of_call hc (.inr rfl)
    · exact hi.of_call hc (.inl rfl)
  | register c =>
    obtain ⟨hedp, doh, w, hc, ⟨l, hl, rfl⟩ | ⟨hl, rfl⟩⟩ := step_register h
    · refine hi.of_register (roleAt_of_calls hc) (.inl ⟨hl, rfl⟩) ?_ (by simp) (by simp)
      rw [roleAt_setCall, roleAt_congr (setRunning_calls s hedp _)]
      rfl
    · refine hi.of_register (roleAt_of_calls hc) (.inr ⟨hl, rfl, rfl⟩) ?_ (by simp) (by simp)
      rw [roleAt_setCall, roleAt_congr (setRunning_calls s hedp _)]
      rfl
  | resolveOk c el =>
    obtain ⟨hedp, doh, w, hc, rfl⟩ := step_resolveOk h
    exact hi.of_quiet (roleAt_setCall_same rfl hc rfl rfl) rfl (fun _ h => h)
  | resolveFail c =>
    obtain ⟨hedp, doh, w, hc, rfl⟩ := step_resolveFail h
    have hf : InFlight s c hedp := roleAt_of_calls hc
    obtain ⟨l, hl, -⟩ := hi.own_mem c hedp hf
    refine hi.of_leave hf hl ?_ rfl (fun _ _ => rfl)
    rw [roleAt_setCall, roleAt_congr (setRunning_calls s hedp _)]
    rfl
  | insert c =>
    obtain ⟨hedp, doh, w, a, hc, ⟨a', -, rfl⟩ | ⟨-, rfl⟩⟩ := step_insert h
    · exact hi.of_quiet (roleAt_setCall_same rfl hc rfl rfl) rfl (fun _ h => h)
    · exact hi.of_quiet (roleAt_setCall_same rfl hc rfl rfl) rfl (fun _ h => h)
  | notify c =>
    obtain ⟨hedp, doh, w, a, l, hc, hl, rfl⟩ := step_notify h
    have hf : InFlight s c hedp := roleAt_of_calls hc
    refine hi.of_leave hf hl ?_ ?_ (fun d hd => sendAll_chan_not_mem s d a l hd)
    · rw [roleAt_setCall]
      have hcalls : ((s.sendAll a l).setRunning hedp none).calls = s.calls := by simp
      rw [roleAt_congr hcalls]
      rfl
    · simp
  | receive c =>
    obtain ⟨hedp, doh, t, a, rest, hc, hb, rfl⟩ := step_receive h
    refine hi.of_quiet (roleAt_setCall_same rfl hc rfl rfl) rfl ?_
    intro d hd
    have hdc : d ≠ c := by
      rintro rfl
      rw [hd] at hb
      cases hb
    rw [setCall_chan, setChan_chan, Function.update_of_ne hdc]
    exact hd
  | timeout c =>
    obtain ⟨hedp, doh, t, hc, rfl⟩ := step_timeout h
    exact hi.of_quiet (roleAt_setCall_same rfl hc rfl rfl) rfl (fun _ h => h)
  | removeSvc hedp =>
    obtain rfl := step_removeSvc h
    exact hi.of_quiet (roleAt_congr rfl) rfl (fun _ h => h)

theorem inv_run {cache : K → Option (Answer L)} {acts : List (Act K L C)} {s : SlowDns K L C}
    (h : run step (init cache) acts = some s) : Inv s :=
  run_inv (fun _ a _ hi => inv_step a hi) (inv_init cache) h

/-! ## From the insert to the notification -/

/-- Call `c` on `hedp` holds `el` in its local list: from its insert on. -/
def HasList (s : SlowDns K L C) (c : C) (hedp : K) (el : Answer L) : Prop :=
  ∃ doh w t, s.calls c = some ⟨hedp, doh, w, t⟩ ∧ (t = .inserted el ∨ t = .finished)

omit [DecidableEq K] [DecidableEq C] in
theorem HasList.of_calls {s t : SlowDns K L C} {c : C} {hedp : K} {el : Answer L}
    (h : HasList s c hedp el) (hc : t.calls c = s.calls c) : HasList t c hedp el := by
  obtain ⟨doh, w, tk, h1, h2⟩ := h
  exact ⟨doh, w, tk, hc.trans h1, h2⟩

omit [DecidableEq K] in
/-- Another call's update. -/
theorem HasList.setCall_ne {s t : SlowDns K L C} {c d : C} {hedp : K} {el : Answer L}
    {call : Call K L} (h : HasList s c hedp el) (ht : t.calls = s.calls) (hne : c ≠ d) :
    HasList (t.setCall d call) c hedp el := by
  apply h.of_calls
  rw [setCall_calls, Function.update_of_ne hne, ht]

/-- The owner's list survives every action: no action writes it again. -/
theorem HasList.step {s s' : SlowDns K L C} {c : C} {hedp : K} {el : Answer L} (a : Act K L C)
    (hs : HasList s c hedp el) (h : SlowDns.step s a = some s') : HasList s' c hedp el := by
  have hs' := hs
  obtain ⟨doh, w, t, hc, ht⟩ := hs'
  -- an action of another call leaves `c` alone; `c` itself can notify, receive or time out
  cases a with
  | call d hedp' doh' =>
    obtain ⟨hd, hcase⟩ := step_call h
    have hne : c ≠ d := by
      rintro rfl
      rw [hc] at hd
      cases hd
    rcases hcase with ⟨a, -, rfl⟩ | ⟨-, rfl⟩ <;> exact hs.setCall_ne rfl hne
  | register d =>
    obtain ⟨hedp', doh', w', hd, hcase⟩ := step_register h
    have hne : c ≠ d := by
      rintro rfl
      rw [hc] at hd
      rcases ht with rfl | rfl <;> simp at hd
    rcases hcase with ⟨l, -, rfl⟩ | ⟨-, rfl⟩ <;> exact hs.setCall_ne rfl hne
  | resolveOk d el' =>
    obtain ⟨hedp', doh', w', hd, rfl⟩ := step_resolveOk h
    apply hs.setCall_ne rfl
    rintro rfl
    rw [hc] at hd
    rcases ht with rfl | rfl <;> simp at hd
  | resolveFail d =>
    obtain ⟨hedp', doh', w', hd, rfl⟩ := step_resolveFail h
    apply hs.setCall_ne rfl
    rintro rfl
    rw [hc] at hd
    rcases ht with rfl | rfl <;> simp at hd
  | insert d =>
    obtain ⟨hedp', doh', w', a, hd, hcase⟩ := step_insert h
    have hne : c ≠ d := by
      rintro rfl
      rw [hc] at hd
      rcases ht with rfl | rfl <;> simp at hd
    rcases hcase with ⟨l, -, rfl⟩ | ⟨-, rfl⟩ <;> exact hs.setCall_ne rfl hne
  | notify d =>
    obtain ⟨hedp', doh', w', a, l, hd, -, rfl⟩ := step_notify h
    by_cases hne : c = d
    · subst hne
      rw [hc] at hd
      simp only [Option.some.injEq, Call.mk.injEq] at hd
      obtain ⟨rfl, rfl, rfl, -⟩ := hd
      exact ⟨doh, w, .finished, by simp, .inr rfl⟩
    · exact hs.setCall_ne (by simp) hne
  | receive d =>
    obtain ⟨hedp', doh', t', a, rest, hd, -, rfl⟩ := step_receive h
    by_cases hne : c = d
    · subst hne
      rw [hc] at hd
      simp only [Option.some.injEq, Call.mk.injEq] at hd
      obtain ⟨rfl, rfl, -, rfl⟩ := hd
      exact ⟨doh, .returned a, t, by simp, ht⟩
    · exact hs.setCall_ne rfl hne
  | timeout d =>
    obtain ⟨hedp', doh', t', hd, rfl⟩ := step_timeout h
    by_cases hne : c = d
    · subst hne
      rw [hc] at hd
      simp only [Option.some.injEq, Call.mk.injEq] at hd
      obtain ⟨rfl, rfl, -, rfl⟩ := hd
      exact ⟨doh, .timedOut, t, by simp, ht⟩
    · exact hs.setCall_ne rfl hne
  | removeSvc hedp' =>
    obtain rfl := step_removeSvc h
    exact hs.of_calls rfl

theorem HasList.run {s s' : SlowDns K L C} {c : C} {hedp : K} {el : Answer L}
    {acts : List (Act K L C)} (hs : HasList s c hedp el)
    (h : Runs.run SlowDns.step s acts = some s') :
    HasList s' c hedp el := by
  have hstep : ∀ t a t', HasList t c hedp el → SlowDns.step t a = some t' →
      HasList t' c hedp el := fun t a t' ht h => HasList.step a ht h
  exact run_inv hstep hs h

/-- After the insert the owner's list is the one in the cache. -/
theorem hasList_insert {s s' : SlowDns K L C} {c : C} {call : Call K L}
    (hc : s.calls c = some call) (h : step s (.insert c) = some s') :
    ∃ el, s'.edpCache call.hedp = some el ∧ HasList s' c call.hedp el := by
  obtain ⟨hedp, doh, w, a, hc', hcase⟩ := step_insert h
  rw [hc] at hc'
  obtain rfl := Option.some.inj hc'
  rcases hcase with ⟨a', ha', rfl⟩ | ⟨-, rfl⟩
  · exact ⟨a', ha', doh, w, _, by simp, .inl rfl⟩
  · exact ⟨a, by simp, doh, w, _, by simp, .inl rfl⟩

/-! ## What the channels get -/

/-- A channel that has got a message gets no other. -/
theorem sent_step {s s' : SlowDns K L C} {d : C} (a : Act K L C) (hi : Inv s)
    (hd : (s.chan d).sent ≠ []) (h : step s a = some s') :
    (s'.chan d).sent = (s.chan d).sent := by
  cases a with
  | call c hedp doh =>
    obtain ⟨-, ⟨a, -, rfl⟩ | ⟨-, rfl⟩⟩ := step_call h <;> rfl
  | register c =>
    obtain ⟨hedp, doh, w, -, ⟨l, -, rfl⟩ | ⟨-, rfl⟩⟩ := step_register h <;> rfl
  | resolveOk c el =>
    obtain ⟨hedp, doh, w, -, rfl⟩ := step_resolveOk h
    rfl
  | resolveFail c =>
    obtain ⟨hedp, doh, w, -, rfl⟩ := step_resolveFail h
    rfl
  | insert c =>
    obtain ⟨hedp, doh, w, a, -, ⟨a', -, rfl⟩ | ⟨-, rfl⟩⟩ := step_insert h <;> rfl
  | notify c =>
    obtain ⟨hedp, doh, w, a, l, -, hl, rfl⟩ := step_notify h
    have hdl : d ∉ l := by
      intro hm
      rw [(hi.listed hedp l d hl hm).2] at hd
      exact hd rfl
    rw [setCall_chan, setRunning_chan, sendAll_chan_not_mem s d a l hdl]
  | receive c =>
    obtain ⟨hedp, doh, t, a, rest, -, -, rfl⟩ := step_receive h
    by_cases hdc : d = c
    · subst hdc
      simp
    · simp [Function.update_of_ne hdc]
  | timeout c =>
    obtain ⟨hedp, doh, t, -, rfl⟩ := step_timeout h
    rfl
  | removeSvc hedp =>
    obtain rfl := step_removeSvc h
    rfl

theorem sent_run {s s' : SlowDns K L C} {d : C} {el : Answer L} {acts : List (Act K L C)}
    (hi : Inv s) (hd : (s.chan d).sent = [el]) (h : run step s acts = some s') :
    (s'.chan d).sent = [el] := by
  have hstep : ∀ (t : SlowDns K L C) (a : Act K L C) (t' : SlowDns K L C),
      (Inv t ∧ (t.chan d).sent = [el]) → step t a = some t' →
      Inv t' ∧ (t'.chan d).sent = [el] := by
    rintro t a t' ⟨hti, htd⟩ ht
    refine ⟨inv_step a hti ht, ?_⟩
    rw [sent_step a hti (by simp [htd]) ht, htd]
  exact (run_inv hstep ⟨hi, hd⟩ h).2

/-- The notification of the owner of `hedp`: every registered channel was empty
and takes the owner's list. -/
theorem notify_sent {s s' : SlowDns K L C} {c : C} {hedp : K} {el : Answer L} (hi : Inv s)
    (hc : HasList s c hedp el) (h : step s (.notify c) = some s') :
    ∃ l, s.resolveRunning hedp = some l ∧ ∀ d ∈ l, (s.chan d).sent = [] ∧
      (s'.chan d).sent = [el] := by
  obtain ⟨hedp', doh, w, a, l, hc', hl, rfl⟩ := step_notify h
  obtain ⟨doh', w', t, hc2, ht⟩ := hc
  rw [hc2] at hc'
  simp only [Option.some.injEq, Call.mk.injEq] at hc'
  obtain ⟨rfl, rfl, rfl, rfl⟩ := hc'
  obtain rfl : a = el := by
    rcases ht with ht | ht
    · exact Task.inserted.inj ht
    · cases ht
  refine ⟨l, hl, fun d hd => ?_⟩
  have hempty := (hi.listed hedp l d hl hd).2
  rw [setCall_chan, setRunning_chan, sendAll_chan_mem s d a l (hi.nodup hedp l hl) hd, hempty]
  exact ⟨rfl, rfl⟩

/-- **Single-flight resolution.**  In every state `s` of every run:
1. a key is in `resolve_running_` exactly while a call resolves it, and one call at most does;
2. the `find` of a call about to notify succeeds;
3. from the insert of a call to its notification, whatever happens in between: every channel
   registered for the key by then has got nothing before, gets the list that was in
   `edp_cache_` after the insert, and never gets anything else;
4. a failure erases its own key only and leaves the cache alone; who registers for the key
   next resolves it. -/
theorem singleFlight (cache : K → Option (Answer L)) (acts : List (Act K L C))
    (s : SlowDns K L C) (hs : run step (init cache) acts = some s) :
    ((∀ k, (s.resolveRunning k).isSome ↔ ∃ c, InFlight s c k) ∧
      ∀ c d k, InFlight s c k → InFlight s d k → c = d) ∧
    (∀ c hedp doh w el, s.calls c = some ⟨hedp, doh, w, .inserted el⟩ →
      (s.resolveRunning hedp).isSome) ∧
    (∀ c call mid s₁ s₂ s₃, s.calls c = some call → step s (.insert c) = some s₁ →
      run step s₁ mid = some s₂ → step s₂ (.notify c) = some s₃ →
      ∃ el l, s₁.edpCache call.hedp = some el ∧ s₂.resolveRunning call.hedp = some l ∧
        ∀ d ∈ l, (s₂.chan d).sent = [] ∧
          ∀ later s₄, run step s₃ later = some s₄ → (s₄.chan d).sent = [el]) ∧
    (∀ c s', step s (.resolveFail c) = some s' →
      ∃ k, InFlight s c k ∧ s'.resolveRunning = Function.update s.resolveRunning k none ∧
        s'.edpCache = s.edpCache ∧
        ∀ d s'', roleAt s' d = some (k, .unregistered) → step s' (.register d) = some s'' →
          InFlight s'' d k) := by
  have hi := inv_run hs
  refine ⟨⟨fun k => ⟨fun hk => ?_, ?_⟩, hi.unique⟩, ?_, ?_, ?_⟩
  · obtain ⟨l, hl⟩ := Option.isSome_iff_exists.mp hk
    exact hi.owned k l hl
  · rintro ⟨c, hc⟩
    obtain ⟨l, hl, -⟩ := hi.own_mem c k hc
    rw [hl]
    rfl
  · intro c hedp doh w el hc
    obtain ⟨l, hl, -⟩ := hi.own_mem c hedp (roleAt_of_calls hc)
    rw [hl]
    rfl
  · intro c call mid s₁ s₂ s₃ hc h1 h2 h3
    obtain ⟨el, hel, hlist⟩ := hasList_insert hc h1
    have hi1 := inv_step _ hi h1
    have hi2 : Inv s₂ := run_inv (fun _ a _ h => inv_step a h) hi1 h2
    have hlist2 := hlist.run h2
    obtain ⟨l, hl, hsent⟩ := notify_sent hi2 hlist2 h3
    refine ⟨el, l, hel, hl, fun d hd => ⟨(hsent d hd).1, fun later s₄ h4 => ?_⟩⟩
    exact sent_run (inv_step _ hi2 h3) (hsent d hd).2 h4
  · intro c s' h
    obtain ⟨hedp, doh, w, hc, rfl⟩ := step_resolveFail h
    refine ⟨hedp, roleAt_of_calls hc, rfl, rfl, fun d s'' hd hreg => ?_⟩
    obtain ⟨hedp', doh', w', hd', hcase⟩ := step_register hreg
    rw [roleAt_of_calls hd'] at hd
    simp only [roleOf, Option.some.injEq, Prod.mk.injEq, and_true] at hd
    subst hd
    rcases hcase with ⟨l, hl, -⟩ | ⟨-, rfl⟩
    · simp at hl
    · unfold InFlight
      rw [roleAt_setCall, Function.update_self]
      rfl

/-- Two calls on one key: the second joins the first. -/
theorem singleFlight_joined : ∃ s : SlowDns Nat Nat Nat,
    run step (init fun _ => none)
      [.call 0 7 false, .call 1 7 false, .register 0, .register 1, .resolveOk 0 42] = some s ∧
    ((s.resolveRunning 7).isSome ↔ ∃ c, InFlight s c 7) := by
  refine ⟨_, rfl, ?_⟩
  exact (singleFlight (fun _ => none)
    [.call 0 7 false, .call 1 7 false, .register 0, .register 1, .resolveOk 0 42] _ rfl).1.1 7

end Hcpp.Dns.SlowDns
