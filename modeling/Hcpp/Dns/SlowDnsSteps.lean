import Hcpp.Dns.SlowDns

/-!
# What each action of `slow_dns` can do

One inversion lemma for each action, with its guards, and what `sendAll` leaves
in each channel; the invariants are derived from these and never unfold `step`.
-/

namespace Hcpp.Dns.SlowDns

open Runs

variable {K L C : Type}

/-! ## Updates -/

section Updates

variable [DecidableEq C]

variable (s : SlowDns K L C) (c d : C) (hedp : K)

@[simp] theorem sendAll_calls (a : Answer L) (l : List C) : (s.sendAll a l).calls = s.calls := by
  induction l generalizing s with
  | nil => rfl
  | cons c l ih => exact (ih _).trans rfl

@[simp] theorem sendAll_resolveRunning (a : Answer L) (l : List C) :
    (s.sendAll a l).resolveRunning = s.resolveRunning := by
  induction l generalizing s with
  | nil => rfl
  | cons c l ih => exact (ih _).trans rfl

@[simp] theorem sendAll_edpCache (a : Answer L) (l : List C) :
    (s.sendAll a l).edpCache = s.edpCache := by
  induction l generalizing s with
  | nil => rfl
  | cons c l ih => exact (ih _).trans rfl

/-- A channel outside the list is left alone. -/
theorem sendAll_chan_not_mem (a : Answer L) (l : List C) (hd : d ∉ l) :
    (s.sendAll a l).chan d = s.chan d := by
  induction l generalizing s with
  | nil => rfl
  | cons c l ih =>
    rw [List.mem_cons, not_or] at hd
    apply (ih (s.setChan c _) hd.2).trans
    simp [Function.update_of_ne hd.1]

/-- A channel that is in the list once gets one `try_send`. -/
theorem sendAll_chan_mem (a : Answer L) (l : List C) (hl : l.Nodup) (hd : d ∈ l) :
    (s.sendAll a l).chan d = (s.chan d).trySend a := by
  induction l generalizing s with
  | nil => cases hd
  | cons c l ih =>
    rw [List.nodup_cons] at hl
    change (sendAll (s.setChan c _) a l).chan d = _
    rcases List.mem_cons.mp hd with rfl | hd
    · rw [sendAll_chan_not_mem _ _ _ _ hl.1]
      simp
    · rw [ih _ hl.2 hd]
      have hne : d ≠ c := fun e => hl.1 (e ▸ hd)
      simp [Function.update_of_ne hne]

end Updates

/-! ## Inversion -/

variable [DecidableEq K] [DecidableEq C]

variable {s s' : SlowDns K L C} {c : C} {hedp : K}

theorem step_call {doh : Bool} (h : step s (.call c hedp doh) = some s') :
    s.calls c = none ∧
      ((∃ a, s.edpCache hedp = some a ∧ s' = s.setCall c ⟨hedp, doh, .returned a, .notSpawned⟩) ∨
        (s.edpCache hedp = none ∧ s' = s.setCall c ⟨hedp, doh, .receiving, .spawned⟩)) := by
  simp only [step] at h
  split at h
  · cases h
  · next hc =>
    refine ⟨hc, ?_⟩
    split at h
    · next a ha => exact .inl ⟨a, ha, (Option.some.inj h).symm⟩
    · next ha => exact .inr ⟨ha, (Option.some.inj h).symm⟩

theorem step_register (h : step s (.register c) = some s') :
    ∃ hedp doh w, s.calls c = some ⟨hedp, doh, w, .spawned⟩ ∧
      ((∃ l, s.resolveRunning hedp = some l ∧
          s' = (s.setRunning hedp (some (l ++ [c]))).setCall c ⟨hedp, doh, w, .joined⟩) ∨
        (s.resolveRunning hedp = none ∧
          s' = (s.setRunning hedp (some [c])).setCall c ⟨hedp, doh, w, .resolving⟩)) := by
  simp only [step] at h
  split at h
  · next hedp doh w hc =>
    refine ⟨hedp, doh, w, hc, ?_⟩
    split at h
    · next l hl => exact .inl ⟨l, hl, (Option.some.inj h).symm⟩
    · next hl => exact .inr ⟨hl, (Option.some.inj h).symm⟩
  · cases h

theorem step_resolveOk {el : L} (h : step s (.resolveOk c el) = some s') :
    ∃ hedp doh w, s.calls c = some ⟨hedp, doh, w, .resolving⟩ ∧
      s' = s.setCall c ⟨hedp, doh, w, .resolved ⟨dohSource doh, el⟩⟩ := by
  simp only [step] at h
  split at h
  · next hedp doh w hc => exact ⟨hedp, doh, w, hc, (Option.some.inj h).symm⟩
  · cases h

theorem step_resolveFail (h : step s (.resolveFail c) = some s') :
    ∃ hedp doh w, s.calls c = some ⟨hedp, doh, w, .resolving⟩ ∧
      s' = (s.setRunning hedp none).setCall c ⟨hedp, doh, w, .failed⟩ := by
  simp only [step] at h
  split at h
  · next hedp doh w hc => exact ⟨hedp, doh, w, hc, (Option.some.inj h).symm⟩
  · cases h

theorem step_insert (h : step s (.insert c) = some s') :
    ∃ hedp doh w a, s.calls c = some ⟨hedp, doh, w, .resolved a⟩ ∧
      ((∃ a', s.edpCache hedp = some a' ∧ s' = s.setCall c ⟨hedp, doh, w, .inserted a'⟩) ∨
        (s.edpCache hedp = none ∧
          s' = (s.setCache hedp (some a)).setCall c ⟨hedp, doh, w, .inserted a⟩)) := by
  simp only [step] at h
  split at h
  · next hedp doh w a hc =>
    refine ⟨hedp, doh, w, a, hc, ?_⟩
    split at h
    · next a' ha => exact .inl ⟨a', ha, (Option.some.inj h).symm⟩
    · next ha => exact .inr ⟨ha, (Option.some.inj h).symm⟩
  · cases h

theorem step_notify (h : step s (.notify c) = some s') :
    ∃ hedp doh w a l, s.calls c = some ⟨hedp, doh, w, .inserted a⟩ ∧
      s.resolveRunning hedp = some l ∧
      s' = ((s.sendAll a l).setRunning hedp none).setCall c ⟨hedp, doh, w, .finished⟩ := by
  simp only [step] at h
  split at h
  · next hedp doh w a hc =>
    split at h
    · next l hl => exact ⟨hedp, doh, w, a, l, hc, hl, (Option.some.inj h).symm⟩
    · cases h
  · cases h

theorem step_receive (h : step s (.receive c) = some s') :
    ∃ hedp doh t a rest, s.calls c = some ⟨hedp, doh, .receiving, t⟩ ∧
      (s.chan c).buff = a :: rest ∧
      s' = (s.setChan c { s.chan c with buff := rest }).setCall c ⟨hedp, doh, .returned a, t⟩ := by
  simp only [step] at h
  split at h
  · next hedp doh t a rest hc hb =>
    exact ⟨hedp, doh, t, a, rest, hc, hb, (Option.some.inj h).symm⟩
  · cases h

theorem step_timeout (h : step s (.timeout c) = some s') :
    ∃ hedp doh t, s.calls c = some ⟨hedp, doh, .receiving, t⟩ ∧
      s' = s.setCall c ⟨hedp, doh, .timedOut, t⟩ := by
  simp only [step] at h
  split at h
  · next hedp doh t hc => exact ⟨hedp, doh, t, hc, (Option.some.inj h).symm⟩
  · cases h

theorem step_removeSvc (h : step s (.removeSvc hedp) = some s') : s' = s.setCache hedp none :=
  (Option.some.inj h).symm

end Hcpp.Dns.SlowDns
