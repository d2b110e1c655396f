import Hcpp.Lib.Runs
import Mathlib.Data.List.Nodup

/-!
# A lock with a queue

The specification of a resource that one has at a time, in the order in which they
came: the state is the queue, and its front is the owner.  Who owns the resource
leaves it to the next one, or sends all the others away.  A pool is fair when each
of its runs is a run of this lock.
-/

namespace QueueLock

open Runs

inductive Act (C : Type*) where
  | arrive (c : C)
  /-- the owner leaves -/
  | leave (c : C)
  /-- the owner leaves, and everyone with it -/
  | flush (c : C)
deriving DecidableEq

variable {C : Type*} [DecidableEq C]

def step (q : List C) : Act C → Option (List C)
  | .arrive c => if c ∈ q then none else some (q ++ [c])
  | .leave c => if q.head? = some c then some q.tail else none
  | .flush c => if q.head? = some c then some [] else none

/-- Who comes with an action. -/
def arrivals : Act C → List C
  | .arrive c => [c]
  | _ => []

/-- Who goes with it. -/
def departures (q : List C) : Act C → List C
  | .arrive _ => []
  | .leave c => [c]
  | .flush _ => q

theorem step_order {q q' : List C} {a : Act C} (h : step q a = some q') :
    q ++ arrivals a = departures q a ++ q' := by
  cases a with
  | arrive c =>
    rw [step] at h
    split at h
    · cases h
    · obtain rfl := Option.some.inj h
      rfl
  | leave c =>
    rw [step] at h
    split at h
    · next hc =>
      obtain ⟨w, rfl⟩ : ∃ w, q = c :: w := List.head?_eq_some_iff.mp hc
      obtain rfl := Option.some.inj h
      exact List.append_nil _
    · cases h
  | flush c =>
    rw [step] at h
    split at h
    · obtain rfl := Option.some.inj h
      rfl
    · cases h

/-- **First come, first gone.** -/
theorem run_order {q q' : List C} {as : List (Act C)} (h : run step q as = some q') :
    q ++ as.flatMap arrivals = trace step departures q as ++ q' := by
  rw [← trace_flatMap h]
  exact run_fifo (q := id) (fun _ _ _ hs => step_order hs) h

/-- Nobody stands in the queue twice. -/
theorem run_nodup {q q' : List C} {as : List (Act C)} (h0 : q.Nodup)
    (h : run step q as = some q') : q'.Nodup := by
  refine run_inv (I := List.Nodup) ?_ h0 h
  intro q a q' hq hs
  cases a with
  | arrive c =>
    rw [step] at hs
    split at hs
    · cases hs
    · next hc =>
      obtain rfl := Option.some.inj hs
      rw [List.nodup_append]
      refine ⟨hq, List.nodup_singleton c, ?_⟩
      rintro x hx y hy rfl
      rw [List.mem_singleton] at hy
      exact hc (hy ▸ hx)
  | leave c =>
    rw [step] at hs
    split at hs
    · obtain rfl := Option.some.inj hs
      exact hq.sublist (List.tail_sublist q)
    · cases hs
  | flush c =>
    rw [step] at hs
    split at hs
    · obtain rfl := Option.some.inj hs
      exact List.nodup_nil
    · cases hs

end QueueLock
