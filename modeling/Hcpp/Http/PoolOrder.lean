import Hcpp.Http.PoolExclusive
import Hcpp.Lib.QueueLock

/-!
# The pool is a lock with a queue

As long as no failed `create` takes the queue of others, the pool is the lock of
`QueueLock`: the memory goes from one requester to the next in the order in which they
came to the queue.
-/

namespace Hcpp.SvcCache

open Runs

variable {C M : Type} [DecidableEq C] [DecidableEq M]

/-- The queue, where none is as good as an empty one. -/
def queueOf (s : SvcCache C M) : List C := s.requestQueue.getD []

/-- What the lock sees of an action. -/
def lockView (s : SvcCache C M) : PoolAct C M → List (QueueLock.Act C)
  | .enqueue c => [.arrive c]
  | .returnBack c =>
    match s.requesters c with
    | some (.holds m) => if s.good m then [.leave c] else [.flush c]
    | _ => []
  | _ => []

/-- Who comes to the queue with an action. -/
def comes : PoolAct C M → Option C
  | .enqueue c => some c
  | _ => none

/-! ## The pool as a lock -/

section Lock

variable {s s' : SvcCache C M}

theorem deliver_requestQueue (s : SvcCache C M) (c : C) (m : M) :
    (s.deliver c m).requestQueue = s.requestQueue := by
  unfold deliver
  split <;> rfl

/-- Nobody in the queue is closed: it is what is left. -/
theorem handOn_queueOf {m : M} {q : List C} (hq : ∀ d ∈ q, s.closed d = false) :
    (s.handOn m q).queueOf = q := by
  cases q with
  | nil => rfl
  | cons d q =>
    rw [handOn, hq d List.mem_cons_self, if_neg Bool.false_ne_true, queueOf, deliver_requestQueue]
    rfl

omit [DecidableEq C] [DecidableEq M] in
theorem Inv.owns_iff (h : Inv s) (c : C) : s.Owns c ↔ s.queueOf.head? = some c := by
  constructor
  · intro hc
    obtain ⟨q, hq⟩ := h.owner c hc
    rw [queueOf, hq]
    rfl
  · intro hc
    obtain ⟨w, hw⟩ : ∃ w, s.queueOf = c :: w := List.head?_eq_some_iff.mp hc
    cases hq : s.requestQueue with
    | none =>
      rw [queueOf, hq] at hw
      cases hw
    | some q =>
      rw [queueOf, hq, Option.getD_some] at hw
      obtain ⟨f, w', rfl, howns, -⟩ := h.queue q hq
      cases hw
      exact howns

/-- Every action is what the lock sees of it. -/
theorem lock_step {a : PoolAct C M} (h : Inv s) (hC : FailsAlone s a) (hs : step s a = some s') :
    run QueueLock.step s.queueOf (lockView s a) = some s'.queueOf := by
  cases a with
  | getEndpoint c =>
    obtain ⟨-, r, -, hs'⟩ := step_getEndpoint hs
    rcases hs' with rfl | rfl <;> rfl
  | created c m =>
    obtain ⟨-, rfl⟩ := step_created hs
    rfl
  | createFailed c =>
    obtain ⟨-, rfl⟩ := step_createFailed hs
    rfl
  | enqueue c =>
    obtain ⟨m, hc, hcase⟩ := step_enqueue hs
    have hidle : s.Idle c := Or.inr (Or.inr ⟨m, hc⟩)
    rcases hcase with ⟨q, hq, rfl⟩ | ⟨hq, rfl⟩
    · have hnot := h.not_mem_of_idle hidle hq
      rw [lockView, queueOf, hq, Option.getD_some, run, QueueLock.step, if_neg hnot]
      rfl
    · rw [lockView, queueOf, hq, Option.getD_none, run, QueueLock.step, if_neg List.not_mem_nil]
      rfl
  | send c =>
    obtain ⟨m, -, rfl⟩ := step_send hs
    rfl
  | returnBack c =>
    rcases step_returnBack hs with ⟨m, f, q, hc, hgood, hq, rfl⟩ | ⟨hor, rfl⟩
    · -- the holder is in front, and those behind it wait: their channels are open
      obtain ⟨w, hw⟩ := h.owner c ⟨m, Or.inr hc⟩
      rw [hq] at hw
      obtain ⟨rfl, rfl⟩ := List.cons.inj (Option.some.inj hw)
      obtain ⟨_, _, heq, -, -, hwait⟩ := h.queue _ hq
      obtain ⟨rfl, rfl⟩ := List.cons.inj heq
      have hopen : ∀ d ∈ q, (s.setReq f .over).closed d = false := by
        intro d hd
        rw [← Bool.not_eq_true]
        exact fun hcl => (h.closed d hcl).not_waiting (hwait d hd)
      rw [handOn_queueOf hopen]
      simp only [lockView, hc]
      rw [if_pos hgood, queueOf, hq, Option.getD_some, run, QueueLock.step,
        if_pos List.head?_cons]
      rfl
    · rcases hor with ⟨m, hc, hbad⟩ | hc
      · have hhead := (h.owns_iff c).mp ⟨m, Or.inr hc⟩
        simp only [lockView, hc]
        rw [if_neg (by simp [hbad]), run, QueueLock.step, if_pos hhead]
        rfl
      · have hnone := hC c rfl hc
        simp only [lockView, hc]
        rw [run, queueOf, hnone]
        rfl
  | tearDown c =>
    obtain ⟨q, -, rfl⟩ := step_tearDown hs
    rfl
  | spoil m flags =>
    obtain ⟨f, rfl⟩ := step_spoil hs
    rfl

omit [DecidableEq C] [DecidableEq M] in
/-- Who comes to the lock is who comes to the queue. -/
theorem arrivals_lockView (a : PoolAct C M) :
    (lockView s a).flatMap QueueLock.arrivals = (comes a).toList := by
  cases a with
  | returnBack c =>
    rw [lockView]
    split
    · split <;> rfl
    · rfl
  | _ => rfl

end Lock

/-- The order of the lock's arrivals is that of the actions. -/
theorem arrivals_trace {s s' : SvcCache C M} {as : List (PoolAct C M)}
    (h : run step s as = some s') :
    (trace step lockView s as).flatMap QueueLock.arrivals = as.filterMap comes := by
  induction as generalizing s with
  | nil => rfl
  | cons a as ih =>
    obtain ⟨t, ht, hr⟩ := run_cons_eq_some.mp h
    rw [trace_cons ht, List.flatMap_append, arrivals_lockView, ih hr, List.filterMap_cons]
    cases comes a <;> rfl

/-- **The pool is a lock with a queue**, over all interleavings in which no failed `create`
takes the queue of others.  Its owner is the one requester that has been given the memory;
those who have come to the queue are those who have left it, in the same order, and then
those who stand in it. -/
theorem pool_refines_lock (as : List (PoolAct C M)) (s : SvcCache C M)
    (hC : Meets step FailsAlone init as) (hs : run step init as = some s) :
    run QueueLock.step [] (trace step lockView init as) = some s.queueOf ∧
      (∀ c, s.Owns c ↔ s.queueOf.head? = some c) ∧ s.queueOf.Nodup ∧
      as.filterMap comes =
        trace QueueLock.step QueueLock.departures [] (trace step lockView init as) ++
          s.queueOf := by
  have hinv := run_inv_of_meets (fun s a s' h hC hs => inv_step h hC hs) inv_init hC hs
  have hrun : run QueueLock.step (init : SvcCache C M).queueOf (trace step lockView init as) =
      some s.queueOf :=
    run_refines (fun s a s' h hC hs => ⟨inv_step h hC hs, lock_step h hC hs⟩) inv_init hC hs
  have horder := QueueLock.run_order hrun
  rw [arrivals_trace hs] at horder
  exact ⟨hrun, hinv.owns_iff, QueueLock.run_nodup List.nodup_nil hrun, horder⟩

/-- Two requesters: 0 has given the memory back, 1 has it. -/
def twoRequesters : List (PoolAct Nat Nat) :=
  [.getEndpoint 0, .created 0 0, .enqueue 0, .send 0, .getEndpoint 1, .enqueue 1, .returnBack 0]

theorem pool_refines_lock_two : ∃ s : SvcCache Nat Nat, run step init twoRequesters = some s ∧
    run QueueLock.step [] (trace step lockView init twoRequesters) = some [1] ∧ s.Owns 1 := by
  have hother : ∀ (s : SvcCache Nat Nat) a, (∀ c, a ≠ .returnBack c) → FailsAlone s a :=
    fun s a h c hc => absurd hc (h c)
  have hmeets : Meets step FailsAlone (init : SvcCache Nat Nat) twoRequesters := by
    refine meets_cons (hother _ _ (by simp)) rfl <| meets_cons (hother _ _ (by simp)) rfl <|
      meets_cons (hother _ _ (by simp)) rfl <| meets_cons (hother _ _ (by simp)) rfl <|
      meets_cons (hother _ _ (by simp)) rfl <| meets_cons (hother _ _ (by simp)) rfl <|
      meets_cons ?_ rfl trivial
    intro c hc hr
    cases hc
    revert hr
    decide
  obtain ⟨hrun, howns, -⟩ := pool_refines_lock twoRequesters _ hmeets rfl
  exact ⟨_, rfl, hrun, (howns 1).mpr (by decide)⟩

end Hcpp.SvcCache
