import Mathlib.Data.List.Basic

/-!
# Runs of a partial step function

A system is `step : σ → α → Option σ`: `step s a = some s'` when action `a`
can be taken in `s`.  `run step s as` takes the actions of `as` in order.
The rules below turn what one step preserves into what a run preserves:

* `run_inv`: an invariant of every step;
* `run_inv_of_meets`: an invariant of every step that meets a condition
  (`Meets`), for runs all of whose steps meet it;
* `meets_congr`: two conditions that agree where an invariant holds;
* `run_total`: such steps can be taken, so the run exists;
* `run_countP`, `run_variant`: a measure or a variant bounds how many steps it has;
* `run_sim`: a simulation of one system by another;
* `run_refines`: a refinement, in which an action of one system is seen as any
  number of actions of another (`trace`);
* `run_fifo`: what goes through a queue.
-/

namespace Runs

variable {σ α : Type*} {step : σ → α → Option σ}

/-- Take the actions one after the other; `none` when one of them cannot be taken. -/
def run (step : σ → α → Option σ) : σ → List α → Option σ
  | s, [] => some s
  | s, a :: as => (step s a).bind fun s' => run step s' as

@[simp] theorem run_nil (s : σ) : run step s [] = some s := rfl

theorem run_cons_eq_some {s s' : σ} {a : α} {as : List α} :
    run step s (a :: as) = some s' ↔ ∃ t, step s a = some t ∧ run step t as = some s' := by
  simp [run, Option.bind_eq_some_iff]

/-- Every step of the run meets `C` in the state it is taken in. -/
def Meets (step : σ → α → Option σ) (C : σ → α → Prop) : σ → List α → Prop
  | _, [] => True
  | s, a :: as => C s a ∧ ∀ s', step s a = some s' → Meets step C s' as

theorem meets_cons {C : σ → α → Prop} {s t : σ} {a : α} {as : List α} (hC : C s a)
    (h : step s a = some t) (has : Meets step C t as) : Meets step C s (a :: as) := by
  refine ⟨hC, fun s' hs' => ?_⟩
  rw [h] at hs'
  exact Option.some.inj hs' ▸ has

/-- A weaker condition. -/
theorem meets_mono {C D : σ → α → Prop} (hCD : ∀ s a, C s a → D s a) {s : σ} {as : List α}
    (h : Meets step C s as) : Meets step D s as := by
  induction as generalizing s with
  | nil => trivial
  | cons a as ih => exact ⟨hCD s a h.1, fun s' hs' => ih (h.2 s' hs')⟩

/-- Conditions that say the same where an invariant holds, which the steps that meet them
keep, are met by the same runs. -/
theorem meets_congr {C D : σ → α → Prop} {I : σ → Prop}
    (hstep : ∀ s a s', I s → C s a → step s a = some s' → I s')
    (hiff : ∀ s a, I s → (C s a ↔ D s a)) {s : σ} {as : List α} (h0 : I s) :
    Meets step C s as ↔ Meets step D s as := by
  induction as generalizing s with
  | nil => exact Iff.rfl
  | cons a as ih =>
    show (C s a ∧ _) ↔ (D s a ∧ _)
    rw [← hiff s a h0]
    apply and_congr_right
    intro hC
    constructor
    · intro h s' hs'
      exact (ih (hstep s a s' h0 hC hs')).mp (h s' hs')
    · intro h s' hs'
      exact (ih (hstep s a s' h0 hC hs')).mpr (h s' hs')

/-- **Invariant rule** for runs whose steps all meet `C`. -/
theorem run_inv_of_meets {C : σ → α → Prop} {I : σ → Prop}
    (hstep : ∀ s a s', I s → C s a → step s a = some s' → I s')
    {s s' : σ} {as : List α} (h0 : I s) (hC : Meets step C s as)
    (h : run step s as = some s') : I s' := by
  induction as generalizing s with
  | nil =>
    rw [run_nil, Option.some.injEq] at h
    exact h ▸ h0
  | cons a as ih =>
    obtain ⟨t, ht, hr⟩ := run_cons_eq_some.mp h
    exact ih (hstep s a t h0 hC.1 ht) (hC.2 t ht) hr

/-- **Progress rule**: where every step that meets `C` can be taken, does `P` and keeps
the invariant, a run of such steps can be taken to its end and every step does `P`. -/
theorem run_total {C P : σ → α → Prop} {I : σ → Prop}
    (hstep : ∀ s a, I s → C s a → P s a ∧ ∃ s', step s a = some s' ∧ I s')
    {s : σ} {as : List α} (h0 : I s) (hC : Meets step C s as) :
    (∃ s', run step s as = some s' ∧ I s') ∧ Meets step P s as := by
  induction as generalizing s with
  | nil => exact ⟨⟨s, rfl, h0⟩, trivial⟩
  | cons a as ih =>
    obtain ⟨hP, t, ht, hI⟩ := hstep s a h0 hC.1
    obtain ⟨⟨s', hs', hI'⟩, hPs⟩ := ih hI (hC.2 t ht)
    exact ⟨⟨s', run_cons_eq_some.mpr ⟨t, ht, hs'⟩, hI'⟩, meets_cons hP ht hPs⟩

/-- **Invariant rule**: what every step preserves, every run preserves. -/
theorem run_inv {I : σ → Prop} (hstep : ∀ s a s', I s → step s a = some s' → I s')
    {s s' : σ} {as : List α} (h0 : I s) (h : run step s as = some s') : I s' := by
  have hC : Meets step (fun _ _ => True) s as := by
    clear h0 h
    induction as generalizing s with
    | nil => trivial
    | cons a as ih => exact ⟨trivial, fun t _ => ih⟩
  exact run_inv_of_meets (fun s a s' hs _ ht => hstep s a s' hs ht) h0 hC h

/-- **Measure rule**: a measure that each of some actions raises, and that no action
lowers, bounds how many of them a run takes. -/
theorem run_countP {m : σ → Nat} {p : α → Bool}
    (hstep : ∀ s a s', step s a = some s' → m s + (if p a then 1 else 0) ≤ m s')
    {s s' : σ} {as : List α} (h : run step s as = some s') : m s + as.countP p ≤ m s' := by
  induction as generalizing s with
  | nil =>
    rw [run_nil, Option.some.injEq] at h
    simp [h]
  | cons a as ih =>
    obtain ⟨t, ht, hr⟩ := run_cons_eq_some.mp h
    have h1 := hstep s a t ht
    have h2 := ih hr
    rw [List.countP_cons]
    omega

/-- **Variant rule**: a number that each of some actions lowers, and that no action raises
where an invariant holds, bounds how many of them a run takes. -/
theorem run_variant {m : σ → Nat} {p : α → Bool} {I : σ → Prop}
    (hinv : ∀ s a s', I s → step s a = some s' → I s')
    (hstep : ∀ s a s', I s → step s a = some s' → m s' + (if p a then 1 else 0) ≤ m s)
    {s s' : σ} {as : List α} (h0 : I s) (h : run step s as = some s') :
    m s' + as.countP p ≤ m s := by
  induction as generalizing s with
  | nil =>
    rw [run_nil, Option.some.injEq] at h
    simp [h]
  | cons a as ih =>
    obtain ⟨t, ht, hr⟩ := run_cons_eq_some.mp h
    have h1 := hstep s a t h0 ht
    have h2 := ih (hinv s a t h0 ht) hr
    rw [List.countP_cons]
    omega

/-- A condition on the actions alone. -/
theorem meets_of_forall {P : α → Prop} {s : σ} {as : List α} (h : ∀ a ∈ as, P a) :
    Meets step (fun _ a => P a) s as := by
  induction as generalizing s with
  | nil => trivial
  | cons a as ih =>
    exact ⟨h a List.mem_cons_self, fun t _ => ih fun b hb => h b (List.mem_cons_of_mem _ hb)⟩

/-- **Simulation rule**: what every step does to a related state of another system,
every run does. -/
theorem run_sim {τ : Type*} {step' : τ → α → Option τ} {R : σ → τ → Prop}
    (hstep : ∀ s t a s', R s t → step s a = some s' → ∃ t', step' t a = some t' ∧ R s' t')
    {s s' : σ} {t : τ} {as : List α} (h0 : R s t) (h : run step s as = some s') :
    ∃ t', run step' t as = some t' ∧ R s' t' := by
  induction as generalizing s t with
  | nil =>
    rw [run_nil, Option.some.injEq] at h
    exact ⟨t, rfl, h ▸ h0⟩
  | cons a as ih =>
    obtain ⟨u, hu, hr⟩ := run_cons_eq_some.mp h
    obtain ⟨v, hv, hR⟩ := hstep s t a u h0 hu
    obtain ⟨t', ht', hR'⟩ := ih hR hr
    exact ⟨t', run_cons_eq_some.mpr ⟨v, hv, ht'⟩, hR'⟩

/-! ## Refinement -/

theorem run_append {s : σ} {as bs : List α} :
    run step s (as ++ bs) = (run step s as).bind fun t => run step t bs := by
  induction as generalizing s with
  | nil => rfl
  | cons a as ih =>
    rw [List.cons_append, run, run, Option.bind_assoc]
    congr 1
    funext t
    exact ih

section Refinement

variable {τ β : Type*} {step' : τ → β → Option τ}

/-- What the actions of a run are seen as in another system, in order. -/
def trace (step : σ → α → Option σ) (view : σ → α → List β) : σ → List α → List β
  | _, [] => []
  | s, a :: as =>
    view s a ++ match step s a with
      | some s' => trace step view s' as
      | none => []

theorem trace_cons {view : σ → α → List β} {s t : σ} {a : α} {as : List α}
    (h : step s a = some t) :
    trace step view s (a :: as) = view s a ++ trace step view t as := by
  rw [trace, h]

/-- What is seen of the actions alone. -/
theorem trace_flatMap {view : α → List β} {s s' : σ} {as : List α} (h : run step s as = some s') :
    trace step (fun _ a => view a) s as = as.flatMap view := by
  induction as generalizing s with
  | nil => rfl
  | cons a as ih =>
    obtain ⟨t, ht, hr⟩ := run_cons_eq_some.mp h
    rw [trace_cons ht, ih hr, List.flatMap_cons]

/-- What is seen is seen of one of the actions. -/
theorem mem_trace {view : σ → α → List β} {s : σ} {as : List α} {b : β}
    (hb : b ∈ trace step view s as) : ∃ t, ∃ a ∈ as, b ∈ view t a := by
  induction as generalizing s with
  | nil => cases hb
  | cons a as ih =>
    rw [trace, List.mem_append] at hb
    rcases hb with hb | hb
    · exact ⟨s, a, List.mem_cons_self, hb⟩
    · split at hb
      · obtain ⟨t, a', ha', hb⟩ := ih hb
        exact ⟨t, a', List.mem_cons_of_mem _ ha', hb⟩
      · cases hb

/-- **Refinement rule**: where every step that meets `C` is, through `abs`, a run of
another system, a run of such steps is one as well. -/
theorem run_refines {abs : σ → τ} {view : σ → α → List β} {C : σ → α → Prop} {I : σ → Prop}
    (hstep : ∀ s a s', I s → C s a → step s a = some s' →
      I s' ∧ run step' (abs s) (view s a) = some (abs s'))
    {s s' : σ} {as : List α} (h0 : I s) (hC : Meets step C s as) (h : run step s as = some s') :
    run step' (abs s) (trace step view s as) = some (abs s') := by
  induction as generalizing s with
  | nil =>
    rw [run_nil, Option.some.injEq] at h
    exact h ▸ rfl
  | cons a as ih =>
    obtain ⟨t, ht, hr⟩ := run_cons_eq_some.mp h
    obtain ⟨hI, hseen⟩ := hstep s a t h0 hC.1 ht
    rw [trace_cons ht, run_append, hseen]
    exact ih hI (hC.2 t ht) hr

/-- **Queue rule**: where each step puts at the end of a queue and takes from its front,
what a run takes is what was there and what it puts, in order. -/
theorem run_fifo {q : σ → List β} {put take : σ → α → List β}
    (hstep : ∀ s a s', step s a = some s' → q s ++ put s a = take s a ++ q s')
    {s s' : σ} {as : List α} (h : run step s as = some s') :
    q s ++ trace step put s as = trace step take s as ++ q s' := by
  induction as generalizing s with
  | nil =>
    rw [run_nil, Option.some.injEq] at h
    simp [trace, h]
  | cons a as ih =>
    obtain ⟨t, ht, hr⟩ := run_cons_eq_some.mp h
    rw [trace_cons ht, trace_cons ht, ← List.append_assoc, hstep s a t ht, List.append_assoc,
      ih hr, List.append_assoc]

end Refinement

end Runs
