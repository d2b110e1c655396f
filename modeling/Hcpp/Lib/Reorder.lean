import Mathlib.Data.List.Perm.Basic

/-!
# Reordered lists

A list that is sent in another order still shows each of its parts in the order
they had, as long as no two of the moved pieces have a part in common
(`filter_flatMap_perm`).
-/

namespace Reorder

variable {α β : Type*}

/-- A reordering of images is the image of a reordering. -/
theorem exists_perm_map {f : α → β} {l m : List β} (h : l.Perm m) :
    ∀ xs : List α, m = xs.map f → ∃ ys : List α, ys.Perm xs ∧ l = ys.map f := by
  induction h with
  | nil =>
    intro xs hxs
    exact ⟨[], by rw [List.map_eq_nil_iff.mp hxs.symm], rfl⟩
  | cons b h ih =>
    intro xs hxs
    obtain ⟨x, xs, rfl, rfl, rfl⟩ := List.map_eq_cons_iff.mp hxs.symm
    obtain ⟨ys, hys, rfl⟩ := ih xs rfl
    exact ⟨x :: ys, hys.cons x, rfl⟩
  | swap b c l =>
    intro xs hxs
    obtain ⟨x, xs, rfl, rfl, hrest⟩ := List.map_eq_cons_iff.mp hxs.symm
    obtain ⟨y, xs, rfl, rfl, rfl⟩ := List.map_eq_cons_iff.mp hrest
    exact ⟨y :: x :: xs, List.Perm.swap x y xs, rfl⟩
  | trans h1 h2 ih1 ih2 =>
    intro xs hxs
    obtain ⟨ys, hys, rfl⟩ := ih2 xs hxs
    obtain ⟨zs, hzs, rfl⟩ := ih1 ys rfl
    exact ⟨zs, hzs.trans hys, rfl⟩

/-- At most one of the two pieces has parts in `p`. -/
def Apart (F : α → List β) (p : β → Bool) (a b : α) : Prop :=
  (F a).filter p = [] ∨ (F b).filter p = []

theorem filter_flatMap_perm {F : α → List β} {p : β → Bool} {ys xs : List α} (h : ys.Perm xs)
    (hxs : xs.Pairwise (Apart F p)) :
    (ys.flatMap F).filter p = (xs.flatMap F).filter p := by
  have hsymm : ∀ {a b}, Apart F p a b → Apart F p b a := Or.symm
  induction h with
  | nil => rfl
  | cons x h ih =>
    rw [List.flatMap_cons, List.flatMap_cons, List.filter_append, List.filter_append,
      ih (List.pairwise_cons.mp hxs).2]
  | swap x y l =>
    have hxy : Apart F p x y := (List.pairwise_cons.mp hxs).1 y (by simp)
    simp only [List.flatMap_cons, List.filter_append]
    rcases hxy with hx | hy
    · rw [hx, List.nil_append, List.nil_append]
    · rw [hy, List.nil_append, List.nil_append]
  | trans h1 h2 ih1 ih2 =>
    rw [ih1 ((h2.pairwise_iff hsymm).mpr hxs), ih2 hxs]

end Reorder
