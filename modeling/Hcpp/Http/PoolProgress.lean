import Hcpp.Http.PoolExclusive

/-!
# Nobody waits for ever

Whether or not a failed `create` takes the queue of others, nobody is forgotten: the front of
the queue has a memory and can go on, so whoever waits stands behind it, or is in a queue that
is about to be closed.
-/

namespace Hcpp.SvcCache

open Runs

variable {C M : Type}

/-! ## Nobody is forgotten -/

/-- It has a memory, or will get the one it made: a queue behind it moves on. -/
def Live (s : SvcCache C M) (c : C) : Prop :=
  (∃ m, s.requesters c = some (.holds m)) ∨
    (∃ m, s.requesters c = some (.first m)) ∧ ∃ q, s.requestQueue = some q ∧ c ∈ q

/-- It waits where somebody will come by. -/
def Placed (s : SvcCache C M) (c : C) : Prop :=
  (∃ q, s.requestQueue = some q ∧ c ∈ q) ∨ ∃ e q, s.requesters e = some (.tearing q) ∧ c ∈ q

/-- What holds of every state, also where a failed `create` has taken a queue. -/
structure Fair (s : SvcCache C M) : Prop where
  queue : ∀ q, s.requestQueue = some q → q.Nodup ∧ (∀ d ∈ q, s.closed d = false ∧ ¬ s.Idle d) ∧
    ∃ f w, q = f :: w ∧ s.Live f ∧ ∀ d ∈ w, s.requesters d = some .waiting
  waits : ∀ c, s.requesters c = some .waiting → s.Placed c
  torn : ∀ e q, s.requesters e = some (.tearing q) → ∀ d ∈ q, ¬ s.Idle d ∧
    ∀ w, s.requestQueue = some w → d ∉ w
  closed : ∀ c, s.closed c = true → ¬ s.Idle c

theorem fair_init : Fair (init : SvcCache C M) where
  queue := by
    intro q h
    cases h
  waits := by
    intro c h
    cases h
  torn := by
    intro e q h
    cases h
  closed := by
    intro c h
    cases h

section Fair

variable {s s' : SvcCache C M} {c d : C} {r : Requester C M}

theorem idle_congr (h : s'.requesters d = s.requesters d) : s'.Idle d ↔ s.Idle d := by
  unfold Idle
  rw [h]

theorem Live.owns (h : s.Live d) : s.Owns d := by
  rcases h with ⟨m, hm⟩ | ⟨⟨m, hm⟩, -⟩
  · exact ⟨m, Or.inr hm⟩
  · exact ⟨m, Or.inl hm⟩

theorem live_congr (hq : s'.requestQueue = s.requestQueue)
    (h : s'.requesters d = s.requesters d) : s'.Live d ↔ s.Live d := by
  unfold Live
  rw [h, hq]

/-- In front is nobody that waits. -/
theorem Fair.front_ne (h : Fair s) {f : C} {w : List C} (hq : s.requestQueue = some (f :: w))
    (hd : s.requesters d = some .waiting) : d ≠ f := by
  obtain ⟨-, -, _, _, heq, hf, -⟩ := h.queue _ hq
  cases heq
  rintro rfl
  exact hf.owns.not_waiting hd

/-- A change of the cache or of a memory's flags. -/
theorem Fair.frame (h : Fair s) (hq : s'.requestQueue = s.requestQueue)
    (hreq : s'.requesters = s.requesters) (hcl : s'.closed = s.closed) : Fair s' := by
  have hidle : ∀ d, s'.Idle d ↔ s.Idle d := fun d => idle_congr (congrFun hreq d)
  have hlive : ∀ d, s'.Live d ↔ s.Live d := fun d => live_congr hq (congrFun hreq d)
  constructor
  · intro q hqq
    rw [hq] at hqq
    simp only [hcl, hidle, hlive, hreq]
    exact h.queue q hqq
  · intro d hd
    rw [hreq] at hd
    unfold Placed
    rw [hq, hreq]
    exact h.waits d hd
  · intro e q he d hd
    rw [hreq] at he
    rw [hidle, hq]
    exact h.torn e q he d hd
  · intro d hd
    rw [hcl] at hd
    rw [hidle]
    exact h.closed d hd

variable [DecidableEq C]

theorem not_idle_of_update (hreq : s'.requesters = Function.update s.requesters c (some r))
    (hr : s'.Idle c → s.Idle c) (hd : ¬ s.Idle d) : ¬ s'.Idle d := by
  intro hd'
  by_cases hdc : d = c
  · subst hdc
    exact hd (hr hd')
  · exact hd ((idle_congr (of_update hreq hdc)).mp hd')

/-- A step of a requester that does not wait, and leaves the queues alone. -/
theorem Fair.quiet (h : Fair s) (hw : s.requesters c ≠ some .waiting)
    (ht : ∀ q, s.requesters c ≠ some (.tearing q)) (hrw : r ≠ .waiting)
    (hrt : ∀ q, r ≠ .tearing q) (hq : s'.requestQueue = s.requestQueue)
    (hreq : s'.requesters = Function.update s.requesters c (some r))
    (hidle : s'.Idle c → s.Idle c) (hlive : s.Live c → s'.Live c)
    (hcl : ∀ d, s'.closed d = true → s.closed d = true ∨ d = c ∧ s.Idle c ∧ ¬ s'.Idle c) :
    Fair s' := by
  have hself := self_update hreq
  constructor
  · intro q hqq
    rw [hq] at hqq
    obtain ⟨hnd, hin, f, w, rfl, hf, hwait⟩ := h.queue q hqq
    refine ⟨hnd, ?_, f, w, rfl, ?_, Inv.wait_update hreq hw hwait⟩
    · intro d hd
      obtain ⟨hopen, hnot⟩ := hin d hd
      refine ⟨?_, not_idle_of_update hreq hidle hnot⟩
      rw [← Bool.not_eq_true]
      intro hd'
      rcases hcl d hd' with hold | ⟨rfl, hi, -⟩
      · rw [hopen] at hold
        cases hold
      · exact hnot hi
    · by_cases hfc : f = c
      · exact hfc ▸ hlive (hfc ▸ hf)
      · exact (live_congr hq (of_update hreq hfc)).mpr hf
  · intro d hd
    have hdc : d ≠ c := by
      rintro rfl
      rw [hself] at hd
      exact hrw (Option.some.inj hd)
    rw [of_update hreq hdc] at hd
    rcases h.waits d hd with ⟨q, hqq, hmem⟩ | ⟨e, q, he, hmem⟩
    · exact Or.inl ⟨q, hq.trans hqq, hmem⟩
    · have hec : e ≠ c := fun heq => ht q (heq ▸ he)
      exact Or.inr ⟨e, q, (of_update hreq hec).trans he, hmem⟩
  · intro e q he d hd
    have hec : e ≠ c := by
      rintro rfl
      rw [hself] at he
      exact hrt q (Option.some.inj he)
    rw [of_update hreq hec] at he
    obtain ⟨hnot, hout⟩ := h.torn e q he d hd
    rw [hq]
    exact ⟨not_idle_of_update hreq hidle hnot, hout⟩
  · intro d hd
    rcases hcl d hd with hold | ⟨rfl, -, hnot⟩
    · exact not_idle_of_update hreq hidle (h.closed d hold)
    · exact hnot

/-- Nobody waits for the memory that is handed on. -/
theorem fair_erased (h : Fair s) {m : M} {f : C} (hc : s.requesters c = some (.holds m))
    (hq : s.requestQueue = some [f]) : Fair ((s.setReq c .over).setQueue none) := by
  set t := (s.setReq c .over).setQueue none
  have hreq : t.requesters = Function.update s.requesters c (some .over) := rfl
  have hself := self_update hreq
  have hgone : t.Ended c := Or.inr (Or.inl hself)
  have hto : t.Idle c → s.Idle c := fun hi => absurd hgone hi.not_ended
  constructor
  · intro q hq'
    cases hq'
  · intro d hd
    have hdc : d ≠ c := fun heq => hgone.not_waiting (heq ▸ hd)
    rw [of_update hreq hdc] at hd
    rcases h.waits d hd with ⟨q', hq', hmem⟩ | ⟨e, q', he, hmem⟩
    · rw [hq] at hq'
      cases hq'
      exact absurd (List.mem_singleton.mp hmem) (h.front_ne hq hd)
    · have hec : e ≠ c := by
        rintro rfl
        rw [hc] at he
        cases he
      exact Or.inr ⟨e, q', (of_update hreq hec).trans he, hmem⟩
  · intro e q' he d hd
    have hec : e ≠ c := by
      rintro rfl
      rw [hself] at he
      cases he
    rw [of_update hreq hec] at he
    exact ⟨not_idle_of_update hreq hto (h.torn e q' he d hd).1, fun w hw => by cases hw⟩
  · intro d hd
    exact not_idle_of_update hreq hto (h.closed d hd)

/-- The next in the queue is given the memory. -/
theorem fair_given (h : Fair s) {m : M} {f : C} {q : List C}
    (hc : s.requesters c = some (.holds m)) (hq : s.requestQueue = some (f :: d :: q)) :
    Fair (((s.setReq c .over).setQueue (some (d :: q))).setReq d (.holds m)) := by
  have howns : s.Owns c := ⟨m, Or.inr hc⟩
  obtain ⟨hnd, hin, _, _, heq, -, hwait⟩ := h.queue _ hq
  cases heq
  rw [List.nodup_cons] at hnd
  have hd := hwait d (by simp)
  have hdc : d ≠ c := fun heq => howns.not_waiting (heq ▸ hd)
  set t := ((s.setReq c .over).setQueue (some (d :: q))).setReq d (.holds m)
  have hself : t.requesters d = some (.holds m) := Function.update_self _ _ _
  have hgone : t.requesters c = some .over := by
    show Function.update (Function.update s.requesters c _) d _ c = _
    rw [Function.update_of_ne (Ne.symm hdc), Function.update_self]
  have hrest : ∀ e, e ≠ c → e ≠ d → t.requesters e = s.requesters e := by
    intro e hec hed
    show Function.update (Function.update s.requesters c _) d _ e = _
    rw [Function.update_of_ne hed, Function.update_of_ne hec]
  have hni : ∀ e, ¬ s.Idle e → ¬ t.Idle e := by
    intro e he hi
    by_cases hec : e = c
    · exact hi.not_ended (hec ▸ Or.inr (Or.inl hgone))
    · by_cases hed : e = d
      · exact hi.not_owns (hed ▸ ⟨m, Or.inr hself⟩)
      · exact he ((idle_congr (hrest e hec hed)).mp hi)
  have htear : ∀ e q1, t.requesters e = some (.tearing q1) ↔
      s.requesters e = some (.tearing q1) := by
    intro e q1
    by_cases hec : e = c
    · rw [hec, hgone, hc]
      simp
    · by_cases hed : e = d
      · rw [hed, hself, hd]
        simp
      · rw [hrest e hec hed]
  constructor
  · intro q' hq'
    cases hq'
    refine ⟨hnd.2, ?_, d, q, rfl, Or.inl ⟨m, hself⟩, ?_⟩
    · intro e he
      obtain ⟨hopen, hnot⟩ := hin e (List.mem_cons_of_mem f he)
      exact ⟨hopen, hni e hnot⟩
    · intro e he
      have hw := hwait e (List.mem_cons_of_mem d he)
      have hec : e ≠ c := fun heq => howns.not_waiting (heq ▸ hw)
      have hed : e ≠ d := fun heq => (List.nodup_cons.mp hnd.2).1 (heq ▸ he)
      rw [hrest e hec hed]
      exact hw
  · intro e he
    have hec : e ≠ c := by
      rintro rfl
      rw [hgone] at he
      cases he
    have hed : e ≠ d := by
      rintro rfl
      rw [hself] at he
      cases he
    rw [hrest e hec hed] at he
    rcases h.waits e he with ⟨q', hq', hmem⟩ | ⟨x, q', hx, hmem⟩
    · rw [hq] at hq'
      cases hq'
      rcases List.mem_cons.mp hmem with hef | hmem
      · exact absurd hef (h.front_ne hq he)
      · exact Or.inl ⟨_, rfl, hmem⟩
    · exact Or.inr ⟨x, q', (htear x q').mpr hx, hmem⟩
  · intro e q1 he x hx
    obtain ⟨hnot, hout⟩ := h.torn e q1 ((htear e q1).mp he) x hx
    refine ⟨hni x hnot, ?_⟩
    intro w hw
    cases hw
    exact fun hmem => hout _ hq (List.mem_cons_of_mem f hmem)
  · intro e he
    exact hni e (h.closed e he)

/-- The queue is taken, the holder's own or that of others. -/
theorem fair_taken (h : Fair s)
    (hcase : (∃ m, s.requesters c = some (.holds m)) ∨ s.requesters c = some .refused) :
    Fair ((s.setQueue none).setReq c (.tearing (s.requestQueue.getD []))) := by
  set t := (s.setQueue none).setReq c (.tearing (s.requestQueue.getD []))
  have hreq : t.requesters =
      Function.update s.requesters c (some (.tearing (s.requestQueue.getD []))) := rfl
  have hself := self_update hreq
  have hto : t.Idle c → s.Idle c := fun hi => absurd (ended_of_tearing hself) hi.not_ended
  constructor
  · intro q hq
    cases hq
  · intro d hd
    have hdc : d ≠ c := by
      rintro rfl
      rw [hself] at hd
      cases hd
    rw [of_update hreq hdc] at hd
    rcases h.waits d hd with ⟨q, hq, hmem⟩ | ⟨e, q, he, hmem⟩
    · exact Or.inr ⟨c, _, hself, by rw [hq]; exact hmem⟩
    · have hec : e ≠ c := by
        rintro rfl
        rcases hcase with ⟨m, hc⟩ | hc <;> rw [hc] at he <;> cases he
      exact Or.inr ⟨e, q, (of_update hreq hec).trans he, hmem⟩
  · intro e q he d hd
    refine ⟨not_idle_of_update hreq hto ?_, fun w hw => by cases hw⟩
    by_cases hec : e = c
    · rw [hec, hself, Option.some.injEq, Requester.tearing.injEq] at he
      subst he
      cases hq : s.requestQueue with
      | none =>
        rw [hq] at hd
        cases hd
      | some q =>
        rw [hq] at hd
        exact ((h.queue q hq).2.1 d hd).2
    · rw [of_update hreq hec] at he
      exact (h.torn e q he d hd).1
  · intro d hd
    exact not_idle_of_update hreq hto (h.closed d hd)

variable [DecidableEq M]

theorem fair_enqueue (h : Fair s) (hs : step s (.enqueue c) = some s') : Fair s' := by
  obtain ⟨m, hc, hcase⟩ := step_enqueue hs
  have hidle : s.Idle c := Or.inr (Or.inr ⟨m, hc⟩)
  have hopen : s.closed c = false := by
    rw [← Bool.not_eq_true]
    exact fun hcl => h.closed c hcl hidle
  have hnotTorn : ∀ e q, s.requesters e = some (.tearing q) → c ∉ q :=
    fun e q he hmem => (h.torn e q he c hmem).1 hidle
  rcases hcase with ⟨q, hq, rfl⟩ | ⟨hq, rfl⟩
  · -- pushed behind the others
    obtain ⟨hnd, hin, f, w, rfl, hf, hwait⟩ := h.queue q hq
    have hnot : c ∉ f :: w := fun hmem => (hin c hmem).2 hidle
    set t := (s.setQueue (some (f :: w ++ [c]))).setReq c .waiting
    have hreq : t.requesters = Function.update s.requesters c (some .waiting) := rfl
    have hto : t.Idle c → s.Idle c := fun _ => hidle
    have hgone : ¬ t.Idle c := fun hi => hi.not_waiting (self_update hreq)
    have hfc : f ≠ c := fun heq => hnot (heq ▸ List.mem_cons_self)
    constructor
    · intro q' hq'
      cases hq'
      refine ⟨?_, ?_, f, w ++ [c], rfl, ?_, ?_⟩
      · rw [List.nodup_append]
        refine ⟨hnd, List.nodup_singleton c, ?_⟩
        rintro x hx y hy rfl
        rw [List.mem_singleton] at hy
        exact hnot (hy ▸ hx)
      · intro d hd
        rcases List.mem_append.mp hd with hd | hd
        · exact ⟨(hin d hd).1, not_idle_of_update hreq hto (hin d hd).2⟩
        · rw [List.mem_singleton.mp hd]
          exact ⟨hopen, hgone⟩
      · -- the front keeps its memory, and its place
        rcases hf with ⟨m', hm⟩ | ⟨⟨m', hm⟩, -⟩
        · exact Or.inl ⟨m', (of_update hreq hfc).trans hm⟩
        · exact Or.inr ⟨⟨m', (of_update hreq hfc).trans hm⟩, _, rfl, by simp⟩
      · intro d hd
        rcases List.mem_append.mp hd with hd | hd
        · exact Inv.wait_update hreq hidle.not_waiting hwait d hd
        · rw [List.mem_singleton.mp hd]
          exact self_update hreq
    · intro d hd
      by_cases hdc : d = c
      · exact Or.inl ⟨_, rfl, by simp [hdc]⟩
      · rw [of_update hreq hdc] at hd
        rcases h.waits d hd with ⟨q', hq', hmem⟩ | ⟨e', q', he', hmem⟩
        · rw [hq] at hq'
          cases hq'
          exact Or.inl ⟨_, rfl, List.mem_append_left _ hmem⟩
        · have hec : e' ≠ c := by
            rintro rfl
            rw [hc] at he'
            cases he'
          exact Or.inr ⟨e', q', (of_update hreq hec).trans he', hmem⟩
    · intro e' q' he' d hd
      have hec : e' ≠ c := by
        rintro rfl
        rw [self_update hreq] at he'
        cases he'
      rw [of_update hreq hec] at he'
      obtain ⟨hni, hout⟩ := h.torn e' q' he' d hd
      refine ⟨not_idle_of_update hreq hto hni, ?_⟩
      intro w' hw'
      cases hw'
      rw [List.mem_append, not_or, List.mem_singleton]
      exact ⟨hout _ hq, fun heq => hnotTorn e' q' he' (heq ▸ hd)⟩
    · intro d hd
      exact not_idle_of_update hreq hto (h.closed d hd)
  · -- in front of a queue of its own
    set t := (s.setQueue (some [c])).setReq c (.first m)
    have hreq : t.requesters = Function.update s.requesters c (some (.first m)) := rfl
    have hself := self_update hreq
    have hto : t.Idle c → s.Idle c := fun _ => hidle
    have howns : t.Owns c := ⟨m, Or.inl hself⟩
    constructor
    · intro q' hq'
      cases hq'
      refine ⟨List.nodup_singleton c, ?_, c, [], rfl, ?_, ?_⟩
      · intro d hd
        rw [List.mem_singleton.mp hd]
        exact ⟨hopen, fun hi => hi.not_owns howns⟩
      · exact Or.inr ⟨⟨m, hself⟩, _, rfl, List.mem_cons_self⟩
      · intro d hd
        cases hd
    · intro d hd
      have hdc : d ≠ c := fun heq => howns.not_waiting (heq ▸ hd)
      rw [of_update hreq hdc] at hd
      rcases h.waits d hd with ⟨q', hq', -⟩ | ⟨e', q', he', hmem⟩
      · rw [hq] at hq'
        cases hq'
      · have hec : e' ≠ c := by
          rintro rfl
          rw [hc] at he'
          cases he'
        exact Or.inr ⟨e', q', (of_update hreq hec).trans he', hmem⟩
    · intro e' q' he' d hd
      have hec : e' ≠ c := by
        rintro rfl
        rw [hself] at he'
        cases he'
      rw [of_update hreq hec] at he'
      obtain ⟨hni, -⟩ := h.torn e' q' he' d hd
      refine ⟨not_idle_of_update hreq hto hni, ?_⟩
      intro w' hw'
      cases hw'
      rw [List.mem_singleton]
      exact fun heq => hnotTorn e' q' he' (heq ▸ hd)
    · intro d hd
      exact not_idle_of_update hreq hto (h.closed d hd)

theorem fair_send (h : Fair s) (hs : step s (.send c) = some s') : Fair s' := by
  obtain ⟨m, hc, rfl⟩ := step_send hs
  have howns : s.Owns c := ⟨m, Or.inl hc⟩
  have hself := Function.update_self c (some (if s.closed c then .over else .holds m)) s.requesters
  refine h.quiet howns.not_waiting ?_ ?_ ?_ rfl rfl ?_ ?_ fun d hd => Or.inl hd
  · intro q hq
    rw [hc] at hq
    cases hq
  · split <;> simp
  · intro q
    split <;> simp
  · intro hi
    exfalso
    unfold Idle at hi
    rw [setReq_requesters, hself] at hi
    split at hi <;> simp at hi
  · -- in the queue, its channel is open
    rintro (⟨m', hm⟩ | ⟨-, q, hq, hmem⟩)
    · rw [hc] at hm
      cases hm
    · have hopen := ((h.queue q hq).2.1 c hmem).1
      left
      refine ⟨m, ?_⟩
      rw [setReq_requesters, hself, hopen, if_neg Bool.false_ne_true]

theorem fair_handOn (h : Fair s) {m : M} {f : C} {q : List C}
    (hc : s.requesters c = some (.holds m)) (hq : s.requestQueue = some (f :: q)) :
    Fair ((s.setReq c .over).handOn m q) := by
  cases q with
  | nil => exact fair_erased h hc hq
  | cons d q =>
    obtain ⟨-, hin, _, _, heq, -, hwait⟩ := h.queue _ hq
    cases heq
    have hd := hwait d (by simp)
    have hopen := (hin d (by simp)).1
    have hdc : d ≠ c := by
      rintro rfl
      rw [hc] at hd
      cases hd
    have hmid : ((s.setReq c .over).setQueue (some (d :: q))).requesters d = some .waiting := by
      show Function.update s.requesters c _ d = _
      rw [Function.update_of_ne hdc, hd]
    have hgive : (s.setReq c .over).handOn m (d :: q) =
        ((s.setReq c .over).setQueue (some (d :: q))).setReq d (.holds m) := by
      show (if s.closed d = true then _ else _) = _
      rw [hopen, if_neg Bool.false_ne_true, deliver, if_pos hmid]
    rw [hgive]
    exact fair_given h hc hq

theorem fair_tearDown (h : Fair s) (hs : step s (.tearDown c) = some s') : Fair s' := by
  obtain ⟨q, hc, rfl⟩ := step_tearDown hs
  have hover := ended_of_tearing hc
  set t := ((s.setCache none).setReq c .over).closeAll q
  have hreq : ∀ d, t.requesters d =
      if d ∈ q ∧ Function.update s.requesters c (some .over) d = some .waiting then some .over
      else Function.update s.requesters c (some .over) d := fun d => rfl
  have hgone : t.requesters c = some .over := by
    rw [hreq, Function.update_self]
    split <;> rfl
  have hsame : ∀ d, d ≠ c → (d ∈ q → s.requesters d ≠ some .waiting) →
      t.requesters d = s.requesters d := by
    intro d hdc hno
    rw [hreq, Function.update_of_ne hdc, if_neg fun hd => hno hd.1 hd.2]
  have hshut : ∀ d, d ≠ c → d ∈ q → s.requesters d = some .waiting →
      t.requesters d = some .over := by
    intro d hdc hdq hw
    rw [hreq, Function.update_of_ne hdc, if_pos ⟨hdq, hw⟩]
  have hwaits : ∀ d, t.requesters d = some .waiting → d ≠ c ∧ d ∉ q ∧
      s.requesters d = some .waiting := by
    intro d hd
    have hdc : d ≠ c := by
      rintro rfl
      rw [hgone] at hd
      cases hd
    by_cases hw : d ∈ q ∧ s.requesters d = some .waiting
    · rw [hshut d hdc hw.1 hw.2] at hd
      cases hd
    · rw [hsame d hdc fun h h' => hw ⟨h, h'⟩] at hd
      exact ⟨hdc, fun hdq => hw ⟨hdq, hd⟩, hd⟩
  have hni : ∀ d, ¬ s.Idle d → ¬ t.Idle d := by
    intro d hd hi
    by_cases hdc : d = c
    · exact hi.not_ended (hdc ▸ Or.inr (Or.inl hgone))
    · by_cases hw : d ∈ q ∧ s.requesters d = some .waiting
      · exact hi.not_ended (Or.inr (Or.inl (hshut d hdc hw.1 hw.2)))
      · exact hd ((idle_congr (hsame d hdc fun h h' => hw ⟨h, h'⟩)).mp hi)
  have htear : ∀ e q1, t.requesters e = some (.tearing q1) →
      e ≠ c ∧ s.requesters e = some (.tearing q1) := by
    intro e q1 he
    have hec : e ≠ c := by
      rintro rfl
      rw [hgone] at he
      cases he
    by_cases hw : e ∈ q ∧ s.requesters e = some .waiting
    · rw [hshut e hec hw.1 hw.2] at he
      cases he
    · rw [hsame e hec fun h h' => hw ⟨h, h'⟩] at he
      exact ⟨hec, he⟩
  constructor
  · intro q' hq'
    have hq'' : s.requestQueue = some q' := hq'
    obtain ⟨hnd, hin, f, w, rfl, hf, hwait⟩ := h.queue q' hq''
    have hout : ∀ d ∈ f :: w, d ∉ q := fun d hd hdq => (h.torn c q hc d hdq).2 _ hq'' hd
    refine ⟨hnd, ?_, f, w, rfl, ?_, ?_⟩
    · intro d hd
      refine ⟨?_, hni d (hin d hd).2⟩
      show (decide (d ∈ q) || s.closed d) = false
      rw [decide_eq_false (hout d hd), (hin d hd).1]
      rfl
    · have hfc : f ≠ c := fun heq => hf.owns.not_ended (heq ▸ hover)
      have hiff : t.Live f ↔ s.Live f :=
        live_congr rfl (hsame f hfc fun _ => hf.owns.not_waiting)
      exact hiff.mpr hf
    · intro d hd
      have hw := hwait d hd
      have hdc : d ≠ c := fun heq => hover.not_waiting (heq ▸ hw)
      rw [hsame d hdc fun hdq => absurd hdq (hout d (List.mem_cons_of_mem f hd))]
      exact hw
  · intro d hd
    obtain ⟨hdc, hdq, hw⟩ := hwaits d hd
    rcases h.waits d hw with ⟨q', hq', hmem⟩ | ⟨e, q1, he, hmem⟩
    · exact Or.inl ⟨q', hq', hmem⟩
    · have hec : e ≠ c := by
        rintro rfl
        rw [hc] at he
        cases he
        exact hdq hmem
      have hew := (ended_of_tearing he).not_waiting
      exact Or.inr ⟨e, q1, (hsame e hec fun _ => hew).trans he, hmem⟩
  · intro e q1 he d hd
    obtain ⟨-, he'⟩ := htear e q1 he
    obtain ⟨hnot, hout⟩ := h.torn e q1 he' d hd
    exact ⟨hni d hnot, hout⟩
  · intro d hd
    have hor : d ∈ q ∨ s.closed d = true := by
      have hd' : (decide (d ∈ q) || s.closed d) = true := hd
      rw [Bool.or_eq_true, decide_eq_true_eq] at hd'
      exact hd'
    rcases hor with hdq | hcl
    · exact hni d (h.torn c q hc d hdq).1
    · exact hni d (h.closed d hcl)

/-- `close` finds nobody that waits on the channel of a requester that creates. -/
theorem closeAll_creating (hc : s.requesters c = some .creating) :
    (s.closeAll [c]).requesters = s.requesters := by
  funext d
  show (if d ∈ [c] ∧ s.requesters d = some .waiting then _ else _) = _
  rw [if_neg]
  rintro ⟨hd, hw⟩
  rw [List.mem_singleton.mp hd, hc] at hw
  cases hw

theorem fair_step {a : PoolAct C M} (h : Fair s) (hs : step s a = some s') : Fair s' := by
  cases a with
  | getEndpoint c =>
    obtain ⟨hc, r, hr, hs'⟩ := step_getEndpoint hs
    have hidle : s.Idle c := Or.inl hc
    have hnt : ∀ q, s.requesters c ≠ some (.tearing q) := by
      intro q hq
      rw [hc] at hq
      cases hq
    have hrw : r ≠ .waiting := by rcases hr with rfl | ⟨m, rfl⟩ <;> simp
    have hrt : ∀ q, r ≠ .tearing q := by rcases hr with rfl | ⟨m, rfl⟩ <;> simp
    have hlive : ¬ s.Live c := by
      rintro (⟨m, hm⟩ | ⟨⟨m, hm⟩, -⟩) <;> rw [hc] at hm <;> cases hm
    rcases hs' with rfl | rfl
    · exact h.quiet hidle.not_waiting hnt hrw hrt rfl rfl (fun _ => hidle)
        (fun hl => absurd hl hlive) fun d hd => Or.inl hd
    · exact h.quiet hidle.not_waiting hnt hrw hrt rfl rfl (fun _ => hidle)
        (fun hl => absurd hl hlive) fun d hd => Or.inl hd
  | created c m =>
    obtain ⟨hc, rfl⟩ := step_created hs
    have hidle : s.Idle c := Or.inr (Or.inl hc)
    refine h.quiet hidle.not_waiting ?_ (by simp) (by simp) rfl rfl (fun _ => hidle) ?_
      fun d hd => Or.inl hd
    · intro q hq
      rw [hc] at hq
      cases hq
    · rintro (⟨m', hm⟩ | ⟨⟨m', hm⟩, -⟩) <;> rw [hc] at hm <;> cases hm
  | createFailed c =>
    obtain ⟨hc, rfl⟩ := step_createFailed hs
    have hidle : s.Idle c := Or.inr (Or.inl hc)
    have hreq : ((s.closeAll [c]).setReq c .refused).requesters =
        Function.update s.requesters c (some .refused) := by
      show Function.update (s.closeAll [c]).requesters c _ = _
      rw [closeAll_creating hc]
    refine h.quiet hidle.not_waiting ?_ (by simp) (by simp) rfl hreq (fun _ => hidle) ?_ ?_
    · intro q hq
      rw [hc] at hq
      cases hq
    · rintro (⟨m', hm⟩ | ⟨⟨m', hm⟩, -⟩) <;> rw [hc] at hm <;> cases hm
    · intro d hd
      have hd' : (decide (d ∈ [c]) || s.closed d) = true := hd
      rw [Bool.or_eq_true, decide_eq_true_eq, List.mem_singleton] at hd'
      rcases hd' with rfl | hd'
      · exact Or.inr ⟨rfl, hidle, fun hi => hi.not_ended (Or.inl (self_update hreq))⟩
      · exact Or.inl hd'
  | enqueue c => exact fair_enqueue h hs
  | send c => exact fair_send h hs
  | returnBack c =>
    rcases step_returnBack hs with ⟨m, f, q, hc, -, hq, rfl⟩ | ⟨hor, rfl⟩
    · exact fair_handOn h hc hq
    · apply fair_taken h
      rcases hor with ⟨m, hc, -⟩ | hc
      · exact Or.inl ⟨m, hc⟩
      · exact Or.inr hc
  | tearDown c => exact fair_tearDown h hs
  | spoil m flags =>
    obtain ⟨f, rfl⟩ := step_spoil hs
    exact h.frame rfl rfl rfl

end Fair

/-! ## Everybody comes to an end -/

/-- Whose action it is. -/
def actorOf : PoolAct C M → Option C
  | .getEndpoint c | .created c _ | .createFailed c | .enqueue c | .send c | .returnBack c
  | .tearDown c => some c
  | .spoil _ _ => none

/-- How far a requester has come. -/
def progress : Option (Requester C M) → Nat
  | none => 0
  | some .creating => 1
  | some (.found _) => 2
  | some (.first _) => 3
  | some .waiting => 3
  | some .refused => 3
  | some (.holds _) => 4
  | some (.tearing _) => 5
  | some .over => 6

section Progress

variable {s s' : SvcCache C M} {c d : C} {r : Requester C M}

theorem progress_le (r : Option (Requester C M)) : progress r ≤ 6 := by
  unfold progress
  split <;> omega

variable [DecidableEq C]

theorem progress_update (hreq : s'.requesters = Function.update s.requesters d (some r))
    (hr : progress (s.requesters d) < progress (some r)) (c : C) :
    progress (s.requesters c) + (if some d = some c then 1 else 0) ≤
      progress (s'.requesters c) := by
  by_cases hcd : d = c
  · subst hcd
    rw [if_pos rfl, self_update hreq]
    exact hr
  · rw [if_neg (by simpa using hcd), of_update hreq (Ne.symm hcd)]
    exact Nat.le_refl _

variable [DecidableEq M]

theorem progress_handOn (m : M) (q : List C) (c : C) :
    progress (s.requesters c) ≤ progress ((s.handOn m q).requesters c) := by
  induction q with
  | nil => exact Nat.le_refl _
  | cons d q ih =>
    rw [handOn]
    split
    · exact ih
    · unfold deliver
      split
      · next hd =>
        have hw : s.requesters d = some .waiting := hd
        by_cases hcd : c = d
        · rw [hcd, setReq_requesters, Function.update_self, hw]
          simp [progress]
        · rw [setReq_requesters, Function.update_of_ne hcd]
          exact Nat.le_refl _
      · exact Nat.le_refl _

theorem progress_closeAll (q : List C) (c : C) :
    progress (s.requesters c) ≤ progress ((s.closeAll q).requesters c) := by
  show _ ≤ progress (if c ∈ q ∧ s.requesters c = some .waiting then some .over else s.requesters c)
  split
  · exact progress_le _
  · exact Nat.le_refl _

/-- An action brings its requester on, and nobody back. -/
theorem progress_step (c : C) (s : SvcCache C M) (a : PoolAct C M) (s' : SvcCache C M)
    (hs : step s a = some s') :
    progress (s.requesters c) + (if decide (actorOf a = some c) then 1 else 0) ≤
      progress (s'.requesters c) := by
  rw [ite_congr (decide_eq_true_eq ..) (fun _ => rfl) (fun _ => rfl)]
  cases a with
  | getEndpoint d =>
    obtain ⟨hd, r, hr, hs'⟩ := step_getEndpoint hs
    have hlt : progress (s.requesters d) < progress (some r) := by
      rw [hd]
      rcases hr with rfl | ⟨m, rfl⟩ <;> simp [progress]
    rcases hs' with rfl | rfl
    · exact progress_update rfl hlt c
    · exact progress_update rfl hlt c
  | created d m =>
    obtain ⟨hd, rfl⟩ := step_created hs
    exact progress_update rfl (by simp [hd, progress]) c
  | createFailed d =>
    obtain ⟨hd, rfl⟩ := step_createFailed hs
    have hreq : ((s.closeAll [d]).setReq d .refused).requesters =
        Function.update s.requesters d (some .refused) := by
      show Function.update (s.closeAll [d]).requesters d _ = _
      rw [closeAll_creating hd]
    exact progress_update hreq (by simp [hd, progress]) c
  | enqueue d =>
    obtain ⟨m, hd, hcase⟩ := step_enqueue hs
    rcases hcase with ⟨q, -, rfl⟩ | ⟨-, rfl⟩
    · exact progress_update rfl (by simp [hd, progress]) c
    · exact progress_update rfl (by simp [hd, progress]) c
  | send d =>
    obtain ⟨m, hd, rfl⟩ := step_send hs
    refine progress_update rfl ?_ c
    rw [hd]
    split <;> simp [progress]
  | returnBack d =>
    rcases step_returnBack hs with ⟨m, f, q, hd, -, -, rfl⟩ | ⟨hor, rfl⟩
    · have hover : progress (s.requesters c) + (if some d = some c then 1 else 0) ≤
          progress ((s.setReq d .over).requesters c) :=
        progress_update rfl (by simp [hd, progress]) c
      exact Nat.le_trans hover (progress_handOn m q c)
    · refine progress_update rfl ?_ c
      rcases hor with ⟨m, hd, -⟩ | hd <;> simp [hd, progress]
  | tearDown d =>
    obtain ⟨q, hd, rfl⟩ := step_tearDown hs
    have hover : progress (s.requesters c) + (if some d = some c then 1 else 0) ≤
        progress (((s.setCache none).setReq d .over).requesters c) :=
      progress_update rfl (by simp [hd, progress]) c
    exact Nat.le_trans hover (progress_closeAll q c)
  | spoil m flags =>
    obtain ⟨f, rfl⟩ := step_spoil hs
    exact Nat.le_refl _

/-- Somebody that `c` waits for can take its next action: the front of the queue in which
`c` stands behind, or the one that tears the queue of `c` down. -/
def CanGoOn (s : SvcCache C M) (c : C) : Prop :=
  ∃ e a s', actorOf a = some e ∧ step s a = some s' ∧
    ((∃ w, s.requestQueue = some (e :: w) ∧ c ∈ w ∧ s.Owns e) ∨
      ∃ q, s.requesters e = some (.tearing q) ∧ c ∈ q)

theorem canGoOn_of_fair (h : Fair s) (hc : s.requesters c = some .waiting) : s.CanGoOn c := by
  rcases h.waits c hc with ⟨q, hq, hmem⟩ | ⟨e, q, he, hmem⟩
  · obtain ⟨-, -, f, w, rfl, hf, -⟩ := h.queue q hq
    have hbehind : c ∈ w := (List.mem_cons.mp hmem).resolve_left (h.front_ne hq hc)
    refine ⟨f, ?_⟩
    rcases hf with ⟨m, hm⟩ | ⟨⟨m, hm⟩, -⟩
    · have hret : ∃ s', step s (.returnBack f) = some s' := by
        by_cases hgood : s.good m = true
        · simp only [step, hm, hgood, if_true, hq]
          exact ⟨_, rfl⟩
        · simp only [step, hm, hgood, if_false, Bool.false_eq_true]
          exact ⟨_, rfl⟩
      obtain ⟨s', hs'⟩ := hret
      exact ⟨.returnBack f, s', rfl, hs', Or.inl ⟨w, hq, hbehind, m, Or.inr hm⟩⟩
    · have hsend : step s (.send f) =
          some (s.setReq f (if s.closed f then .over else .holds m)) := by
        simp only [step, hm]
      exact ⟨.send f, _, rfl, hsend, Or.inl ⟨w, hq, hbehind, m, Or.inl hm⟩⟩
  · have hdown : step s (.tearDown e) = some (((s.setCache none).setReq e .over).closeAll q) := by
      simp only [step, he]
    exact ⟨e, .tearDown e, _, rfl, hdown, Or.inr ⟨q, he, hmem⟩⟩

end Progress

variable [DecidableEq C] [DecidableEq M]

/-- **Nobody waits for ever**, whatever fails and in whatever order the steps are taken: a
requester takes six actions at most, and one that waits stands in the queue behind its front,
which has a memory and can take its next action, or in a queue that was taken by somebody who
can tear it down. -/
theorem waiters_progress (as : List (PoolAct C M)) (s : SvcCache C M)
    (hs : run step init as = some s) (c : C) :
    as.countP (fun a => decide (actorOf a = some c)) ≤ 6 ∧
      (s.requesters c = some .waiting → s.CanGoOn c) := by
  constructor
  · have hcount := run_countP (m := fun s => progress (s.requesters c)) (progress_step c) hs
    have hle := progress_le (s.requesters c)
    have hzero : progress ((init : SvcCache C M).requesters c) = 0 := rfl
    omega
  · intro hc
    exact canGoOn_of_fair (run_inv (fun _ _ _ h hs => fair_step h hs) fair_init hs) hc

/-- The failed `create` of 1 has taken the queue in which 2 waits behind 0. -/
theorem waiters_progress_torn : ∃ s : SvcCache Nat Nat,
    run step init [.getEndpoint 0, .getEndpoint 1, .created 0 0, .enqueue 0, .send 0,
      .getEndpoint 2, .enqueue 2, .createFailed 1, .returnBack 1] = some s ∧ s.CanGoOn 2 :=
  ⟨_, rfl, (waiters_progress [.getEndpoint 0, .getEndpoint 1, .created 0 0, .enqueue 0, .send 0,
    .getEndpoint 2, .enqueue 2, .createFailed 1, .returnBack 1] _ rfl 2).2 (by decide)⟩

end Hcpp.SvcCache
