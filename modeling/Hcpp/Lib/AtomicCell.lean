import Hcpp.Lib.Runs
import Mathlib.Logic.Function.Basic

/-!
# An atomic cell

The specification of one entry of a shared cache that is filled on demand.  A
reader asks, and later takes the value the cell holds at one moment, or gives
up.  A value is published only where there is none, so it stays until it is
removed.  A concurrent cache is correct for an entry when each of its runs is,
through the moments in which its readers get their value, a run of the cell.
-/

namespace AtomicCell

open Runs

inductive Reader (V : Type*) where
  | asked
  | got (v : V)
  | gaveUp
deriving DecidableEq

structure Cell (V C : Type*) where
  value : Option V
  reader : C → Option (Reader V)

inductive Act (V C : Type*) where
  | ask (c : C)
  | publish (v : V)
  | read (c : C)
  | giveUp (c : C)
  | remove
deriving DecidableEq

variable {V C : Type*} [DecidableEq C]

/-- Nobody has asked yet. -/
def init (value : Option V) : Cell V C := ⟨value, fun _ => none⟩

def Cell.setReader (s : Cell V C) (c : C) (r : Reader V) : Cell V C :=
  { s with reader := Function.update s.reader c (some r) }

@[simp] theorem setReader_value (s : Cell V C) (c : C) (r : Reader V) :
    (s.setReader c r).value = s.value := rfl

@[simp] theorem setReader_reader (s : Cell V C) (c : C) (r : Reader V) :
    (s.setReader c r).reader = Function.update s.reader c (some r) := rfl

def step (s : Cell V C) : Act V C → Option (Cell V C)
  | .ask c => if s.reader c = none then some (s.setReader c .asked) else none
  | .publish v => if s.value = none then some { s with value := some v } else none
  | .read c =>
    match s.reader c, s.value with
    | some .asked, some v => some (s.setReader c (.got v))
    | _, _ => none
  | .giveUp c =>
    match s.reader c with
    | some .asked => some (s.setReader c .gaveUp)
    | some (.got _) => some (s.setReader c .gaveUp)
    | _ => none
  | .remove => some { s with value := none }

/-- Readers that have asked all get the value the cell holds. -/
theorem run_reads {s : Cell V C} {v : V} {ds : List C} (hv : s.value = some v) (hds : ds.Nodup)
    (hask : ∀ d ∈ ds, s.reader d = some .asked) :
    run step s (ds.map .read) =
      some { s with reader := fun d => if d ∈ ds then some (.got v) else s.reader d } := by
  induction ds generalizing s with
  | nil => simp
  | cons d ds ih =>
    rw [List.nodup_cons] at hds
    have hd : step s (.read d) = some (s.setReader d (.got v)) := by
      simp only [step, hask d List.mem_cons_self, hv]
    have hrest : ∀ e ∈ ds, (s.setReader d (.got v)).reader e = some .asked := by
      intro e he
      have hne : e ≠ d := fun h => hds.1 (h ▸ he)
      rw [setReader_reader, Function.update_of_ne hne]
      exact hask e (List.mem_cons_of_mem _ he)
    rw [List.map_cons, run, hd, Option.bind_some, ih (by exact hv) hds.2 hrest]
    congr 2
    funext e
    by_cases hed : e = d
    · subst hed
      simp [hds.1]
    · simp [hed]

/-- Nobody reads an empty cell. -/
theorem run_read_none {s : Cell V C} (hv : s.value = none) (c : C) (as : List (Act V C)) :
    run step s (.read c :: as) = none := by
  have h : step s (.read c) = none := by
    simp only [step]
    split
    · next v _ hsome =>
      rw [hv] at hsome
      cases hsome
    · rfl
  rw [run, h, Option.bind_none]

/-- Every value that was read is the one the cell holds. -/
def Agrees (s : Cell V C) : Prop := ∀ c v, s.reader c = some (.got v) → s.value = some v

omit [DecidableEq C] in
theorem agrees_init (value : Option V) : Agrees (init value : Cell V C) := by
  intro c v h
  cases h

/-- A reader that does not come to hold a value. -/
theorem Agrees.setReader {s : Cell V C} (h : Agrees s) (c : C) {r : Reader V}
    (hr : ∀ v, r = .got v → s.value = some v) : Agrees (s.setReader c r) := by
  intro d v hd
  rw [setReader_reader] at hd
  by_cases hdc : d = c
  · rw [hdc, Function.update_self] at hd
    exact hr v (Option.some.inj hd)
  · rw [Function.update_of_ne hdc] at hd
    exact h d v hd

theorem agrees_step (s : Cell V C) (a : Act V C) (s' : Cell V C) (h : Agrees s)
    (ha : a ≠ .remove) (hs : step s a = some s') : Agrees s' := by
  cases a with
  | ask c =>
    simp only [step] at hs
    split at hs
    · obtain rfl := Option.some.inj hs
      exact h.setReader c (by rintro v ⟨⟩)
    · cases hs
  | publish w =>
    simp only [step] at hs
    split at hs
    · next hnone =>
      obtain rfl := Option.some.inj hs
      -- nobody can have read anything yet
      intro c v hc
      rw [h c v hc] at hnone
      cases hnone
    · cases hs
  | read c =>
    simp only [step] at hs
    split at hs
    · next v _ hv =>
      obtain rfl := Option.some.inj hs
      refine h.setReader c ?_
      rintro w ⟨⟩
      exact hv
    · cases hs
  | giveUp c =>
    simp only [step] at hs
    split at hs
    · obtain rfl := Option.some.inj hs
      exact h.setReader c (by rintro v ⟨⟩)
    · obtain rfl := Option.some.inj hs
      exact h.setReader c (by rintro v ⟨⟩)
    · cases hs
  | remove => exact absurd rfl ha

/-- **Readers agree** where nothing is removed: who has got a value has got the one the
cell holds. -/
theorem agrees_run {value : Option V} {s : Cell V C} {as : List (Act V C)}
    (has : .remove ∉ as) (hs : run step (init value) as = some s) : Agrees s := by
  have hall : ∀ a ∈ as, a ≠ .remove := by
    rintro a ha rfl
    exact has ha
  exact run_inv_of_meets agrees_step (agrees_init value) (meets_of_forall hall) hs

end AtomicCell
