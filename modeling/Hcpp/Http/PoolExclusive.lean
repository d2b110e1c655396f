import Hcpp.Http.SvcCache
import Mathlib.Data.List.Nodup

/-!
# The pool is exclusive

The front of the queue is the one requester that has the memory, as long as no
failed `create` takes the queue of others (`FailsAlone`): its `return_back`
removes the queue of the `host:service`, whoever waits in it, and the holder's own
`return_back` finds none, or the queue of another.
-/

namespace Hcpp.SvcCache

open Runs

variable {C M : Type}

/-- It has been given the memory, or is about to be. -/
def Owns (s : SvcCache C M) (c : C) : Prop :=
  ∃ m, s.requesters c = some (.first m) ∨ s.requesters c = some (.holds m)

/-- It waits for nothing any more. -/
def Ended (s : SvcCache C M) (c : C) : Prop :=
  s.requesters c = some .refused ∨ s.requesters c = some .over ∨
    ∃ q, s.requesters c = some (.tearing q)

/-- No memory has two holders, and a requester that returns a good one is in front. -/
structure Exclusive (s : SvcCache C M) : Prop where
  one : ∀ c d m, s.requesters c = some (.holds m) → s.requesters d = some (.holds m) → c = d
  front : ∀ c m, s.requesters c = some (.holds m) → s.good m = true →
    ∃ q, s.requestQueue = some (c :: q)

/-- A failed `create` finds no queue that its `return_back` would take. -/
def FailsAlone (s : SvcCache C M) (a : PoolAct C M) : Prop :=
  ∀ c, a = .returnBack c → s.requesters c = some .refused → s.requestQueue = none

/-- The front of the queue owns the memory and the others wait. -/
structure Inv (s : SvcCache C M) : Prop where
  owner : ∀ c, s.Owns c → ∃ q, s.requestQueue = some (c :: q)
  queue : ∀ q, s.requestQueue = some q → ∃ c w, q = c :: w ∧ s.Owns c ∧ w.Nodup ∧
    ∀ d ∈ w, s.requesters d = some .waiting
  torn : ∀ c q, s.requesters c = some (.tearing q) → ∀ d ∈ q,
    (s.requesters d = some .waiting ∨ s.Ended d) ∧ ∀ w, s.requestQueue = some w → d ∉ w
  closed : ∀ c, s.closed c = true → s.Ended c

theorem inv_init : Inv (init : SvcCache C M) where
  owner := by
    rintro c ⟨m, h | h⟩ <;> cases h
  queue := by
    intro q h
    cases h
  torn := by
    intro c q h
    cases h
  closed := by
    intro c h
    cases h

/-- The owner is the one in front. -/
theorem Inv.owner_eq {s : SvcCache C M} {c d : C} (h : Inv s) (hc : s.Owns c) (hd : s.Owns d) :
    c = d := by
  obtain ⟨q, hq⟩ := h.owner c hc
  obtain ⟨w, hw⟩ := h.owner d hd
  rw [hq] at hw
  cases hw
  rfl

/-- The invariant is exclusive. -/
theorem Inv.exclusive {s : SvcCache C M} (h : Inv s) : Exclusive s where
  one := by
    intro c d m hc hd
    exact h.owner_eq ⟨m, Or.inr hc⟩ ⟨m, Or.inr hd⟩
  front := by
    intro c m hc _
    exact h.owner c ⟨m, Or.inr hc⟩

/-! ## What each action does -/

section Steps

variable [DecidableEq C] [DecidableEq M]

variable {s s' : SvcCache C M} {c : C}

theorem step_getEndpoint (h : step s (.getEndpoint c) = some s') :
    s.requesters c = none ∧ ∃ r, (r = .creating ∨ ∃ m, r = .found m) ∧
      (s' = s.setReq c r ∨ s' = (s.setCache none).setReq c r) := by
  simp only [step] at h
  split at h
  · cases h
  · next hc =>
    refine ⟨hc, ?_⟩
    split at h
    · split at h
      · next m _ _ => exact ⟨.found m, Or.inr ⟨m, rfl⟩, Or.inl (Option.some.inj h).symm⟩
      · exact ⟨.creating, Or.inl rfl, Or.inr (Option.some.inj h).symm⟩
    · exact ⟨.creating, Or.inl rfl, Or.inl (Option.some.inj h).symm⟩

theorem step_created {m : M} (h : step s (.created c m) = some s') :
    s.requesters c = some .creating ∧
      s' = ((s.setMem m ⟨true, true⟩).setCache (s.cache.or (some m))).setReq c (.found m) := by
  simp only [step] at h
  split at h
  · next hc _ => exact ⟨hc, (Option.some.inj h).symm⟩
  · cases h

theorem step_createFailed (h : step s (.createFailed c) = some s') :
    s.requesters c = some .creating ∧ s' = (s.closeAll [c]).setReq c .refused := by
  simp only [step] at h
  split at h
  · next hc => exact ⟨hc, (Option.some.inj h).symm⟩
  · cases h

theorem step_enqueue (h : step s (.enqueue c) = some s') :
    ∃ m, s.requesters c = some (.found m) ∧
      ((∃ q, s.requestQueue = some q ∧
          s' = (s.setQueue (some (q ++ [c]))).setReq c .waiting) ∨
        (s.requestQueue = none ∧ s' = (s.setQueue (some [c])).setReq c (.first m))) := by
  simp only [step] at h
  split at h
  · next m hc =>
    refine ⟨m, hc, ?_⟩
    split at h
    · next q hq => exact Or.inl ⟨q, hq, (Option.some.inj h).symm⟩
    · next hq => exact Or.inr ⟨hq, (Option.some.inj h).symm⟩
  · cases h

theorem step_send (h : step s (.send c) = some s') :
    ∃ m, s.requesters c = some (.first m) ∧
      s' = s.setReq c (if s.closed c then .over else .holds m) := by
  simp only [step] at h
  split at h
  · next m hc => exact ⟨m, hc, (Option.some.inj h).symm⟩
  · cases h

theorem step_returnBack (h : step s (.returnBack c) = some s') :
    (∃ m d q, s.requesters c = some (.holds m) ∧ s.good m = true ∧
        s.requestQueue = some (d :: q) ∧ s' = (s.setReq c .over).handOn m q) ∨
      (((∃ m, s.requesters c = some (.holds m) ∧ s.good m = false) ∨
          s.requesters c = some .refused) ∧
        s' = (s.setQueue none).setReq c (.tearing (s.requestQueue.getD []))) := by
  simp only [step] at h
  split at h
  · next m hc =>
    split at h
    · next hgood =>
      split at h
      · next d q hq => exact Or.inl ⟨m, d, q, hc, hgood, hq, (Option.some.inj h).symm⟩
      · cases h
    · next hbad =>
      exact Or.inr ⟨Or.inl ⟨m, hc, by simpa using hbad⟩, (Option.some.inj h).symm⟩
  · next hc => exact Or.inr ⟨Or.inr hc, (Option.some.inj h).symm⟩
  · cases h

theorem step_tearDown (h : step s (.tearDown c) = some s') :
    ∃ q, s.requesters c = some (.tearing q) ∧
      s' = ((s.setCache none).setReq c .over).closeAll q := by
  simp only [step] at h
  split at h
  · next q hc => exact ⟨q, hc, (Option.some.inj h).symm⟩
  · cases h

theorem step_spoil {m : M} {flags : PoolMem} (h : step s (.spoil m flags) = some s') :
    ∃ f, s' = s.setMem m f := by
  simp only [step] at h
  split at h
  · exact ⟨_, (Option.some.inj h).symm⟩
  · cases h

end Steps

/-! ## The invariant holds on -/

section Inv

variable {s s' : SvcCache C M} {c d : C} {r : Requester C M}

/-- It has not come to the queue yet. -/
def Idle (s : SvcCache C M) (c : C) : Prop :=
  s.requesters c = none ∨ s.requesters c = some .creating ∨ ∃ m, s.requesters c = some (.found m)

theorem Idle.not_owns (h : s.Idle c) : ¬ s.Owns c := by
  rintro ⟨m, hm⟩
  rcases h with h | h | ⟨m', h⟩ <;> rw [h] at hm <;> rcases hm with hm | hm <;> cases hm

theorem Idle.not_waiting (h : s.Idle c) : s.requesters c ≠ some .waiting := by
  intro hw
  rcases h with h | h | ⟨m, h⟩ <;> rw [h] at hw <;> cases hw

theorem Idle.not_ended (h : s.Idle c) : ¬ s.Ended c := by
  intro he
  rcases h with h | h | ⟨m, h⟩ <;> rcases he with he | he | ⟨q, he⟩ <;> rw [h] at he <;> cases he

/-- Who owns the memory does not wait for it, and has not ended. -/
theorem Owns.not_waiting (h : s.Owns c) : s.requesters c ≠ some .waiting := by
  intro hw
  obtain ⟨m, h | h⟩ := h <;> rw [h] at hw <;> cases hw

theorem Owns.not_ended (h : s.Owns c) : ¬ s.Ended c := by
  intro he
  obtain ⟨m, h | h⟩ := h <;> rcases he with he | he | ⟨q, he⟩ <;> rw [h] at he <;> cases he

theorem Ended.not_waiting (h : s.Ended c) : s.requesters c ≠ some .waiting := by
  intro hw
  rcases h with h | h | ⟨q, h⟩ <;> rw [h] at hw <;> cases hw

theorem ended_of_tearing {q : List C} (h : s.requesters c = some (.tearing q)) : s.Ended c :=
  Or.inr (Or.inr ⟨q, h⟩)

/-- What a requester is depends on its own entry. -/
theorem owns_congr (h : s'.requesters d = s.requesters d) : s'.Owns d ↔ s.Owns d := by
  unfold Owns
  rw [h]

theorem ended_congr (h : s'.requesters d = s.requesters d) : s'.Ended d ↔ s.Ended d := by
  unfold Ended
  rw [h]

/-- No one in the queue is idle or has ended. -/
theorem Inv.mem_queue (h : Inv s) {q : List C} (hq : s.requestQueue = some q) (hd : d ∈ q) :
    s.Owns d ∨ s.requesters d = some .waiting := by
  obtain ⟨c, w, rfl, howns, -, hwait⟩ := h.queue q hq
  rcases List.mem_cons.mp hd with rfl | hd
  · exact Or.inl howns
  · exact Or.inr (hwait d hd)

theorem Inv.not_mem_of_idle (h : Inv s) (hc : s.Idle c) {q : List C}
    (hq : s.requestQueue = some q) : c ∉ q := by
  intro hmem
  rcases h.mem_queue hq hmem with ho | hw
  · exact hc.not_owns ho
  · exact hc.not_waiting hw

/-- A change of the cache or of a memory's flags. -/
theorem Inv.frame (h : Inv s) (hq : s'.requestQueue = s.requestQueue)
    (hreq : s'.requesters = s.requesters) (hcl : s'.closed = s.closed) : Inv s' := by
  have hall : ∀ d, s'.requesters d = s.requesters d := fun d => congrFun hreq d
  constructor
  · intro d hd
    rw [hq]
    exact h.owner d ((owns_congr (hall d)).mp hd)
  · intro q hqq
    rw [hq] at hqq
    obtain ⟨d, w, rfl, howns, hnd, hwait⟩ := h.queue q hqq
    exact ⟨d, w, rfl, (owns_congr (hall d)).mpr howns, hnd, fun e he => (hall e).trans (hwait e he)⟩
  · intro e q he d hd
    rw [hall] at he
    rw [hall, ended_congr (hall d), hq]
    exact h.torn e q he d hd
  · intro d hd
    rw [hcl] at hd
    exact (ended_congr (hall d)).mpr (h.closed d hd)

/-! ### One requester goes on -/

variable [DecidableEq C]

/-- What its entry becomes says nothing of the others. -/
theorem of_update (hreq : s'.requesters = Function.update s.requesters c (some r)) (hd : d ≠ c) :
    s'.requesters d = s.requesters d := by
  rw [hreq, Function.update_of_ne hd]

theorem self_update (hreq : s'.requesters = Function.update s.requesters c (some r)) :
    s'.requesters c = some r := by
  rw [hreq, Function.update_self]

/-- A queue that was taken is not changed by a requester that is not in it. -/
theorem Inv.torn_update (h : Inv s) (hw : s.requesters c ≠ some .waiting) (hen : ¬ s.Ended c)
    (hr : ∀ q, r ≠ .tearing q) (hreq : s'.requesters = Function.update s.requesters c (some r))
    {e : C} {q : List C} (he : s'.requesters e = some (.tearing q)) (hd : d ∈ q) :
    d ≠ c ∧ (s'.requesters d = some .waiting ∨ s'.Ended d) ∧
      ∀ w, s.requestQueue = some w → d ∉ w := by
  have hne : e ≠ c := by
    rintro rfl
    rw [self_update hreq, Option.some.injEq] at he
    exact hr q he
  rw [of_update hreq hne] at he
  obtain ⟨hstate, hout⟩ := h.torn e q he d hd
  have hdc : d ≠ c := by
    rintro rfl
    rcases hstate with h | h
    · exact hw h
    · exact hen h
  rw [of_update hreq hdc, ended_congr (of_update hreq hdc)]
  exact ⟨hdc, hstate, hout⟩

theorem Inv.closed_update (h : Inv s) (hen : ¬ s.Ended c)
    (hreq : s'.requesters = Function.update s.requesters c (some r)) (hd : s.closed d = true) :
    s'.Ended d := by
  have hed := h.closed d hd
  have hdc : d ≠ c := by
    rintro rfl
    exact hen hed
  exact (ended_congr (of_update hreq hdc)).mpr hed

/-- Those who wait go on waiting behind the others. -/
theorem Inv.wait_update (hreq : s'.requesters = Function.update s.requesters c (some r))
    (hc : s.requesters c ≠ some .waiting) {w : List C}
    (hwait : ∀ d ∈ w, s.requesters d = some .waiting) :
    ∀ d ∈ w, s'.requesters d = some .waiting := by
  intro d hd
  have hdc : d ≠ c := by
    rintro rfl
    exact hc (hwait d hd)
  rw [of_update hreq hdc]
  exact hwait d hd

/-- A step of a requester that is not in the queue, and does not come there. -/
theorem Inv.quiet (h : Inv s) (hidle : s.Idle c)
    (hr : r = .creating ∨ (∃ m, r = .found m) ∨ r = .refused)
    (hq : s'.requestQueue = s.requestQueue)
    (hreq : s'.requesters = Function.update s.requesters c (some r))
    (hcl : ∀ d, s'.closed d = true → s.closed d = true ∨ d = c ∧ r = .refused) : Inv s' := by
  have hno : ¬ s'.Owns c := by
    rintro ⟨m, hm⟩
    rw [self_update hreq] at hm
    rcases hr with rfl | ⟨m', rfl⟩ | rfl <;> rcases hm with hm | hm <;> cases hm
  constructor
  · intro d hd
    have hdc : d ≠ c := by
      rintro rfl
      exact hno hd
    rw [hq]
    exact h.owner d ((owns_congr (of_update hreq hdc)).mp hd)
  · intro q hqq
    rw [hq] at hqq
    obtain ⟨d, w, rfl, howns, hnd, hwait⟩ := h.queue q hqq
    have hdc : d ≠ c := by
      rintro rfl
      exact hidle.not_owns howns
    exact ⟨d, w, rfl, (owns_congr (of_update hreq hdc)).mpr howns, hnd,
      Inv.wait_update hreq hidle.not_waiting hwait⟩
  · intro e q he d hd
    have hr' : ∀ q, r ≠ .tearing q := by
      rintro q rfl
      rcases hr with hr | ⟨m, hr⟩ | hr <;> cases hr
    rw [hq]
    exact (h.torn_update hidle.not_waiting hidle.not_ended hr' hreq he hd).2
  · intro d hd
    rcases hcl d hd with hold | ⟨rfl, rfl⟩
    · exact h.closed_update hidle.not_ended hreq hold
    · exact Or.inl (self_update hreq)

/-- Nobody waits for the memory that is handed on: the queue is erased. -/
theorem inv_erased (h : Inv s) (howns : s.Owns c) : Inv ((s.setReq c .over).setQueue none) := by
  set t := (s.setReq c .over).setQueue none
  have hreq : t.requesters = Function.update s.requesters c (some .over) := rfl
  constructor
  · intro d hd
    have hdc : d ≠ c := by
      rintro rfl
      exact hd.not_ended (Or.inr (Or.inl (self_update hreq)))
    exact absurd (h.owner_eq ((owns_congr (of_update hreq hdc)).mp hd) howns) hdc
  · intro q hq
    cases hq
  · intro e q he d hd
    obtain ⟨-, hstate, -⟩ :=
      h.torn_update howns.not_waiting howns.not_ended (by simp) hreq he hd
    exact ⟨hstate, fun w hw => by cases hw⟩
  · intro d hd
    exact h.closed_update howns.not_ended hreq hd

/-- The next in the queue is given the memory. -/
theorem inv_given (h : Inv s) {m : M} {f : C} {q : List C} (howns : s.Owns c)
    (hq : s.requestQueue = some (f :: d :: q)) :
    Inv (((s.setReq c .over).setQueue (some (d :: q))).setReq d (.holds m)) := by
  obtain ⟨_, _, heq, -, hnd, hwait⟩ := h.queue _ hq
  cases heq
  rw [List.nodup_cons] at hnd
  have hd := hwait d (by simp)
  have hdc : d ≠ c := fun heq => howns.not_waiting (heq ▸ hd)
  set t := ((s.setReq c .over).setQueue (some (d :: q))).setReq d (.holds m)
  have hself : t.requesters d = some (.holds m) := Function.update_self _ _ _
  have hgone : t.requesters c = some .over := by
    show Function.update (Function.update s.requesters c _) d _ c = _
    rw [Function.update_of_ne (Ne.symm hdc), Function.update_self]
  have hrest : ∀ e, e ≠ c → e ≠ d → t.requesters e = s.requesters e := by
    intro e hec hed
    show Function.update (Function.update s.requesters c _) d _ e = _
    rw [Function.update_of_ne hed, Function.update_of_ne hec]
  constructor
  · intro e he
    by_cases hed : e = d
    · exact ⟨q, by rw [hed]; rfl⟩
    · have hec : e ≠ c := by
        rintro rfl
        exact he.not_ended (Or.inr (Or.inl hgone))
      exact absurd (h.owner_eq ((owns_congr (hrest e hec hed)).mp he) howns) hec
  · intro q' hq'
    cases hq'
    refine ⟨d, q, rfl, ⟨m, Or.inr hself⟩, hnd.2, fun e he => ?_⟩
    have hw := hwait e (by simp [he])
    have hec : e ≠ c := fun heq => howns.not_waiting (heq ▸ hw)
    have hed : e ≠ d := fun heq => hnd.1 (heq ▸ he)
    rw [hrest e hec hed]
    exact hw
  · intro e q1 he x hx
    have hec : e ≠ c := by
      rintro rfl
      rw [hgone] at he
      cases he
    have hed : e ≠ d := by
      rintro rfl
      rw [hself] at he
      cases he
    rw [hrest e hec hed] at he
    obtain ⟨hstate, hout⟩ := h.torn e q1 he x hx
    have hnot := hout _ hq
    have hxc : x ≠ c := by
      rintro rfl
      exact hstate.elim howns.not_waiting howns.not_ended
    have hxd : x ≠ d := by
      rintro rfl
      exact hnot (by simp)
    rw [hrest x hxc hxd, ended_congr (hrest x hxc hxd)]
    refine ⟨hstate, fun w hw => ?_⟩
    cases hw
    exact fun hmem => hnot (List.mem_cons_of_mem _ hmem)
  · intro e he
    have hen := h.closed e he
    have hec : e ≠ c := fun heq => howns.not_ended (heq ▸ hen)
    have hed : e ≠ d := fun heq => hen.not_waiting (heq ▸ hd)
    exact (ended_congr (hrest e hec hed)).mpr hen

/-- The queue is taken: the holder's, or none. -/
theorem inv_taken (h : Inv s) (hcase : (∃ m, s.requesters c = some (.holds m)) ∨
      s.requesters c = some .refused ∧ s.requestQueue = none) :
    Inv ((s.setQueue none).setReq c (.tearing (s.requestQueue.getD []))) := by
  set t := (s.setQueue none).setReq c (.tearing (s.requestQueue.getD []))
  have hreq : t.requesters =
      Function.update s.requesters c (some (.tearing (s.requestQueue.getD []))) := rfl
  have hended : t.Ended c := ended_of_tearing (self_update hreq)
  have hkeep : ∀ d, s.Ended d → t.Ended d := by
    intro d hd
    by_cases hdc : d = c
    · rw [hdc]
      exact hended
    · exact (ended_congr (of_update hreq hdc)).mpr hd
  have hwaitc : s.requesters c ≠ some .waiting := by
    intro hw
    rcases hcase with ⟨m, hc⟩ | ⟨hc, -⟩ <;> rw [hc] at hw <;> cases hw
  have hstate : ∀ d, s.requesters d = some .waiting ∨ s.Ended d →
      t.requesters d = some .waiting ∨ t.Ended d := by
    rintro d (hd | hd)
    · left
      have hdc : d ≠ c := fun heq => hwaitc (heq ▸ hd)
      rw [of_update hreq hdc, hd]
    · exact Or.inr (hkeep d hd)
  constructor
  · intro d hd
    have hdc : d ≠ c := by
      rintro rfl
      exact hd.not_ended hended
    have howns := (owns_congr (of_update hreq hdc)).mp hd
    rcases hcase with ⟨m, hc⟩ | ⟨-, hnone⟩
    · exact absurd (h.owner_eq howns ⟨m, Or.inr hc⟩) hdc
    · obtain ⟨w, hw⟩ := h.owner d howns
      rw [hw] at hnone
      cases hnone
  · intro q hq
    cases hq
  · intro e q he d hd
    refine ⟨?_, fun w hw => by cases hw⟩
    by_cases hec : e = c
    · subst hec
      rw [self_update hreq, Option.some.injEq, Requester.tearing.injEq] at he
      subst he
      rcases hcase with ⟨m, hc⟩ | ⟨-, hnone⟩
      · obtain ⟨w, hw⟩ := h.owner e ⟨m, Or.inr hc⟩
        obtain ⟨_, _, heq, -, -, hwait⟩ := h.queue _ hw
        cases heq
        rw [hw, Option.getD_some] at hd
        rcases List.mem_cons.mp hd with rfl | hd
        · exact Or.inr hended
        · exact hstate d (Or.inl (hwait d hd))
      · rw [hnone] at hd
        cases hd
    · rw [of_update hreq hec] at he
      exact hstate d (h.torn e q he d hd).1
  · intro d hd
    exact hkeep d (h.closed d hd)

variable [DecidableEq M]

theorem inv_enqueue (h : Inv s) (hs : step s (.enqueue c) = some s') : Inv s' := by
  obtain ⟨m, hc, hcase⟩ := step_enqueue hs
  have hidle : s.Idle c := Or.inr (Or.inr ⟨m, hc⟩)
  rcases hcase with ⟨q, hq, rfl⟩ | ⟨hq, rfl⟩
  · -- pushed behind the others
    have hnot := h.not_mem_of_idle hidle hq
    set t := (s.setQueue (some (q ++ [c]))).setReq c .waiting with ht
    have hreq : t.requesters = Function.update s.requesters c (some .waiting) := rfl
    constructor
    · intro d hd
      have hdc : d ≠ c := by
        rintro rfl
        exact hd.not_waiting (self_update hreq)
      obtain ⟨w, hw⟩ := h.owner d ((owns_congr (of_update hreq hdc)).mp hd)
      rw [hq, Option.some.injEq] at hw
      exact ⟨w ++ [c], by rw [ht, hw]; rfl⟩
    · intro q' hq'
      cases hq'
      obtain ⟨f, w, rfl, howns, hnd, hwait⟩ := h.queue q hq
      rw [List.mem_cons, not_or] at hnot
      refine ⟨f, w ++ [c], rfl, (owns_congr (of_update hreq (Ne.symm hnot.1))).mpr howns, ?_, ?_⟩
      · rw [List.nodup_append]
        refine ⟨hnd, List.nodup_singleton c, ?_⟩
        intro x hx y hy heq
        rw [List.mem_singleton.mp hy] at heq
        exact hnot.2 (heq ▸ hx)
      · intro d hd
        rcases List.mem_append.mp hd with hd | hd
        · exact Inv.wait_update hreq hidle.not_waiting hwait d hd
        · rw [List.mem_singleton.mp hd]
          exact self_update hreq
    · intro e q1 he d hd
      obtain ⟨hdc, hstate, hout⟩ :=
        h.torn_update hidle.not_waiting hidle.not_ended (by simp) hreq he hd
      refine ⟨hstate, fun q' hq' => ?_⟩
      cases hq'
      rw [List.mem_append, not_or]
      exact ⟨hout q hq, fun hmem => hdc (List.mem_singleton.mp hmem)⟩
    · intro d hd
      exact h.closed_update hidle.not_ended hreq hd
  · -- in front of a queue of its own
    set t := (s.setQueue (some [c])).setReq c (.first m)
    have hreq : t.requesters = Function.update s.requesters c (some (.first m)) := rfl
    constructor
    · intro d hd
      by_cases hdc : d = c
      · exact ⟨[], by rw [hdc]; rfl⟩
      · obtain ⟨w, hw⟩ := h.owner d ((owns_congr (of_update hreq hdc)).mp hd)
        rw [hq] at hw
        cases hw
    · intro q' hq'
      cases hq'
      exact ⟨c, [], rfl, ⟨m, Or.inl (self_update hreq)⟩, List.nodup_nil, fun d hd => by cases hd⟩
    · intro e q1 he d hd
      obtain ⟨hdc, hstate, -⟩ :=
        h.torn_update hidle.not_waiting hidle.not_ended (by simp) hreq he hd
      refine ⟨hstate, fun q' hq' => ?_⟩
      cases hq'
      exact fun hmem => hdc (List.mem_singleton.mp hmem)
    · intro d hd
      exact h.closed_update hidle.not_ended hreq hd

theorem inv_send (h : Inv s) (hs : step s (.send c) = some s') : Inv s' := by
  obtain ⟨m, hc, rfl⟩ := step_send hs
  have howns : s.Owns c := ⟨m, Or.inl hc⟩
  have hopen : s.closed c = false := by
    rw [← Bool.not_eq_true]
    exact fun hcl => howns.not_ended (h.closed c hcl)
  rw [hopen, if_neg Bool.false_ne_true]
  set t := s.setReq c (.holds m)
  have hreq : t.requesters = Function.update s.requesters c (some (.holds m)) := rfl
  have hiff : ∀ d, t.Owns d ↔ s.Owns d := by
    intro d
    by_cases hdc : d = c
    · rw [hdc]
      exact ⟨fun _ => howns, fun _ => ⟨m, Or.inr (self_update hreq)⟩⟩
    · exact owns_congr (of_update hreq hdc)
  constructor
  · intro d hd
    exact h.owner d ((hiff d).mp hd)
  · intro q hq
    obtain ⟨f, w, rfl, hf, hnd, hwait⟩ := h.queue q hq
    exact ⟨f, w, rfl, (hiff f).mpr hf, hnd, Inv.wait_update hreq howns.not_waiting hwait⟩
  · intro e q he d hd
    exact (h.torn_update howns.not_waiting howns.not_ended (by simp) hreq he hd).2
  · intro d hd
    exact h.closed_update howns.not_ended hreq hd

/-- The holder of a good memory hands it on to the next in the queue. -/
theorem inv_handOn (h : Inv s) {m : M} {f : C} {q : List C} (hc : s.requesters c = some (.holds m))
    (hq : s.requestQueue = some (f :: q)) : Inv ((s.setReq c .over).handOn m q) := by
  have howns : s.Owns c := ⟨m, Or.inr hc⟩
  cases q with
  | nil => exact inv_erased h howns
  | cons d q =>
    obtain ⟨_, _, heq, -, -, hwait⟩ := h.queue _ hq
    cases heq
    have hd := hwait d (by simp)
    have hdc : d ≠ c := fun heq => howns.not_waiting (heq ▸ hd)
    have hopen : s.closed d = false := by
      rw [← Bool.not_eq_true]
      exact fun hcl => (h.closed d hcl).not_waiting hd
    have hmid : ((s.setReq c .over).setQueue (some (d :: q))).requesters d = some .waiting := by
      show Function.update s.requesters c _ d = _
      rw [Function.update_of_ne hdc, hd]
    have hgive : (s.setReq c .over).handOn m (d :: q) =
        ((s.setReq c .over).setQueue (some (d :: q))).setReq d (.holds m) := by
      show (if s.closed d = true then _ else _) = _
      rw [hopen, if_neg Bool.false_ne_true, deliver, if_pos hmid]
    rw [hgive]
    exact inv_given h howns hq

theorem inv_tearDown (h : Inv s) (hs : step s (.tearDown c) = some s') : Inv s' := by
  obtain ⟨q, hc, rfl⟩ := step_tearDown hs
  have hover := ended_of_tearing hc
  set t := ((s.setCache none).setReq c .over).closeAll q
  have hreq : ∀ d, t.requesters d =
      if d ∈ q ∧ Function.update s.requesters c (some .over) d = some .waiting then some .over
      else Function.update s.requesters c (some .over) d := fun d => rfl
  have hgone : t.requesters c = some .over := by
    rw [hreq, Function.update_self]
    split <;> rfl
  -- the channels of `q` are those of requesters that wait in vain, or have ended
  have hsame : ∀ d, d ≠ c → (d ∈ q → s.requesters d ≠ some .waiting) →
      t.requesters d = s.requesters d := by
    intro d hdc hno
    rw [hreq, Function.update_of_ne hdc, if_neg fun hd => hno hd.1 hd.2]
  have hended : ∀ d, s.requesters d = some .waiting ∧ d ∈ q ∨ s.Ended d → t.Ended d := by
    rintro d (⟨hw, hd⟩ | hen)
    · have hdc : d ≠ c := fun heq => hover.not_waiting (heq ▸ hw)
      right
      left
      rw [hreq, Function.update_of_ne hdc, if_pos ⟨hd, hw⟩]
    · by_cases hdc : d = c
      · exact Or.inr (Or.inl (hdc ▸ hgone))
      · exact (ended_congr (hsame d hdc fun _ => hen.not_waiting)).mpr hen
  constructor
  · intro d hd
    have hdc : d ≠ c := by
      rintro rfl
      exact hd.not_ended (Or.inr (Or.inl hgone))
    by_cases hw : s.requesters d = some .waiting
    · by_cases hdq : d ∈ q
      · exact absurd (hended d (Or.inl ⟨hw, hdq⟩)) hd.not_ended
      · have heq := hsame d hdc fun h => absurd h hdq
        exact absurd (heq.trans hw) hd.not_waiting
    · exact h.owner d ((owns_congr (hsame d hdc fun _ => hw)).mp hd)
  · intro q' hq'
    obtain ⟨f, w, rfl, howns, hnd, hwait⟩ := h.queue q' hq'
    have hfc : f ≠ c := fun heq => howns.not_ended (heq ▸ hover)
    refine ⟨f, w, rfl, (owns_congr (hsame f hfc fun _ => howns.not_waiting)).mpr howns, hnd, ?_⟩
    intro d hd
    have hw := hwait d hd
    have hdc : d ≠ c := fun heq => hover.not_waiting (heq ▸ hw)
    rw [hsame d hdc fun hdq => absurd (List.mem_cons_of_mem f hd) ((h.torn c q hc d hdq).2 _ hq')]
    exact hw
  · intro e q1 he d hd
    have hec : e ≠ c := by
      rintro rfl
      rw [hgone] at he
      cases he
    have hes : s.requesters e = some (.tearing q1) := by
      by_cases hw : e ∈ q ∧ s.requesters e = some .waiting
      · rw [hreq, Function.update_of_ne hec, if_pos hw] at he
        cases he
      · rw [← he]
        exact (hsame e hec fun h h' => hw ⟨h, h'⟩).symm
    obtain ⟨hstate, hout⟩ := h.torn e q1 hes d hd
    refine ⟨?_, hout⟩
    rcases hstate with hw | hen
    · by_cases hdq : d ∈ q
      · exact Or.inr (hended d (Or.inl ⟨hw, hdq⟩))
      · have hdc : d ≠ c := fun heq => hover.not_waiting (heq ▸ hw)
        left
        rw [hsame d hdc fun h => absurd h hdq]
        exact hw
    · exact Or.inr (hended d (Or.inr hen))
  · intro d hd
    have hor : d ∈ q ∨ s.closed d = true := by
      have hd' : (decide (d ∈ q) || s.closed d) = true := hd
      rw [Bool.or_eq_true, decide_eq_true_eq] at hd'
      exact hd'
    rcases hor with hdq | hcl
    · rcases (h.torn c q hc d hdq).1 with hw | hen
      · exact hended d (Or.inl ⟨hw, hdq⟩)
      · exact hended d (Or.inr hen)
    · exact hended d (Or.inr (h.closed d hcl))

/-- **Every action keeps the invariant**, if a failed `create` takes nobody's queue. -/
theorem inv_step {a : PoolAct C M} (h : Inv s) (hC : FailsAlone s a) (hs : step s a = some s') :
    Inv s' := by
  cases a with
  | getEndpoint c =>
    obtain ⟨hc, r, hr, hs'⟩ := step_getEndpoint hs
    have hr' : r = .creating ∨ (∃ m, r = .found m) ∨ r = .refused :=
      hr.elim Or.inl fun h => Or.inr (Or.inl h)
    rcases hs' with rfl | rfl
    · exact h.quiet (Or.inl hc) hr' rfl rfl fun d hd => Or.inl hd
    · exact h.quiet (Or.inl hc) hr' rfl rfl fun d hd => Or.inl hd
  | created c m =>
    obtain ⟨hc, rfl⟩ := step_created hs
    exact h.quiet (Or.inr (Or.inl hc)) (Or.inr (Or.inl ⟨m, rfl⟩)) rfl rfl fun d hd => Or.inl hd
  | createFailed c =>
    obtain ⟨hc, rfl⟩ := step_createFailed hs
    refine h.quiet (Or.inr (Or.inl hc)) (Or.inr (Or.inr rfl)) rfl ?_ fun d hd => ?_
    · have hsame : (s.closeAll [c]).requesters = s.requesters := by
        funext d
        show (if d ∈ [c] ∧ s.requesters d = some .waiting then _ else _) = _
        rw [if_neg]
        rintro ⟨hd, hw⟩
        rw [List.mem_singleton.mp hd, hc] at hw
        cases hw
      show Function.update (s.closeAll [c]).requesters c _ = _
      rw [hsame]
    · have hd' : (decide (d ∈ [c]) || s.closed d) = true := hd
      rw [Bool.or_eq_true, decide_eq_true_eq, List.mem_singleton] at hd'
      exact hd'.elim (fun h => Or.inr ⟨h, rfl⟩) Or.inl
  | enqueue c => exact inv_enqueue h hs
  | send c => exact inv_send h hs
  | returnBack c =>
    rcases step_returnBack hs with ⟨m, f, q, hc, -, hq, rfl⟩ | ⟨hor, rfl⟩
    · exact inv_handOn h hc hq
    · apply inv_taken h
      rcases hor with ⟨m, hc, -⟩ | hc
      · exact Or.inl ⟨m, hc⟩
      · exact Or.inr ⟨hc, hC c rfl hc⟩
  | tearDown c => exact inv_tearDown h hs
  | spoil m flags =>
    obtain ⟨f, rfl⟩ := step_spoil hs
    exact h.frame rfl rfl rfl

end Inv

variable [DecidableEq C] [DecidableEq M]

/-- **The pool**, over all interleavings: it is exclusive in every state that is reached
without a failed `create` taking the queue of others; and when one takes it from the
holder of a good memory, it is exclusive no more. -/
theorem exclusive_of_failsAlone :
    (∀ (as : List (PoolAct C M)) (s : SvcCache C M), Meets step FailsAlone init as →
      run step init as = some s → Exclusive s) ∧
    ∀ (s s' : SvcCache C M) (c d : C) (m : M), s.requesters c = some .refused →
      s.requesters d = some (.holds m) → s.good m = true →
      step s (.returnBack c) = some s' → ¬ Exclusive s' := by
  constructor
  · intro as s hC hs
    have hinv := run_inv_of_meets (fun s a s' h hC hs => inv_step h hC hs) inv_init hC hs
    exact hinv.exclusive
  · intro s s' c d m hc hd hgood hs hex
    rcases step_returnBack hs with ⟨m', _, _, hc', -⟩ | ⟨-, rfl⟩
    · rw [hc] at hc'
      cases hc'
    · have hdc : d ≠ c := by
        rintro rfl
        rw [hd] at hc
        cases hc
      obtain ⟨q, hq⟩ := hex.front d m
        (by rw [setReq_requesters, Function.update_of_ne hdc]; exact hd) hgood
      cases hq

/-- The second of two requesters gets the memory that the first returns. -/
theorem exclusive_handed_on :
    ∃ s : SvcCache Nat Nat, s.requesters 1 = some (.holds 0) ∧ Exclusive s := by
  let as : List (PoolAct Nat Nat) := [.getEndpoint 0, .created 0 0, .enqueue 0, .send 0,
    .getEndpoint 1, .enqueue 1, .returnBack 0]
  have hother : ∀ (s : SvcCache Nat Nat) a, (∀ c, a ≠ .returnBack c) → FailsAlone s a :=
    fun s a h c hc => absurd hc (h c)
  refine ⟨_, ?_, exclusive_of_failsAlone.1 as _ ?_ rfl⟩
  · decide
  · refine meets_cons (hother _ _ (by simp)) rfl <| meets_cons (hother _ _ (by simp)) rfl <|
      meets_cons (hother _ _ (by simp)) rfl <| meets_cons (hother _ _ (by simp)) rfl <|
      meets_cons (hother _ _ (by simp)) rfl <| meets_cons (hother _ _ (by simp)) rfl <|
      meets_cons ?_ rfl trivial
    intro c hc hr
    cases hc
    revert hr
    decide

/-- `1` fails to create while `0` holds the memory; a later holder of another memory is
popped in its place, and that memory is held twice. -/
theorem pool_not_exclusive :
    (∃ (as : List (PoolAct Nat Nat)) (s : SvcCache Nat Nat), run step init as = some s ∧
      s.requesters 0 = some (.holds 0) ∧ s.good 0 = true ∧ s.requestQueue = none) ∧
    ∃ (as : List (PoolAct Nat Nat)) (s : SvcCache Nat Nat), run step init as = some s ∧
      s.requesters 4 = some (.holds 1) ∧ s.requesters 5 = some (.holds 1) := by
  let failed : List (PoolAct Nat Nat) := [.getEndpoint 0, .getEndpoint 1, .created 0 0,
    .enqueue 0, .send 0, .createFailed 1, .returnBack 1]
  refine ⟨⟨failed, _, rfl, by decide, by decide, by decide⟩,
    failed ++ [.tearDown 1, .getEndpoint 2, .created 2 1, .enqueue 2, .send 2, .getEndpoint 3,
      .enqueue 3, .returnBack 0, .returnBack 2, .getEndpoint 4, .enqueue 4, .send 4,
      .returnBack 3, .getEndpoint 5, .enqueue 5, .send 5], _, rfl, by decide, by decide⟩

end Hcpp.SvcCache
