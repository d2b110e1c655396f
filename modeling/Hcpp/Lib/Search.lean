import Mathlib.Algebra.Group.Int.Defs
import Mathlib.Algebra.Group.Nat.Defs
import Mathlib.Data.List.Basic
import Mathlib.Data.List.Infix

/-!
# The first occurrence of a pattern in a text

`find pat t` is the least offset at which `pat` occurs in `t`.  Adding text
behind an occurrence does not move it (`find_append_of_some`), and when there is
none before a cut, the first one ends behind the cut (`lt_of_find_append`).
-/

namespace Search

variable {α : Type*} [DecidableEq α]

-- before `Fintype`'s, which would go through every character
instance (priority := 2000) decidableForallMem {β : Type*} {p : β → Prop} [DecidablePred p]
    (l : List β) : Decidable (∀ x ∈ l, p x) :=
  List.decidableBAll p l

instance (priority := 2000) decidableExistsMem {β : Type*} {p : β → Prop} [DecidablePred p]
    (l : List β) : Decidable (∃ x ∈ l, p x) :=
  List.decidableBEx p l

/-- The least `i` with `pat` at offset `i` of `t`. -/
def find (pat t : List α) : Option Nat :=
  (List.range (t.length + 1)).find? fun i => pat.isPrefixOf (t.drop i)

theorem find_eq_some_iff {pat t : List α} {i : Nat} :
    find pat t = some i ↔ i ≤ t.length ∧ pat <+: t.drop i ∧ ∀ j < i, ¬ pat <+: t.drop j := by
  unfold find
  rw [List.find?_range_eq_some]
  simp only [List.isPrefixOf_iff_prefix, List.mem_range, Bool.not_eq_eq_eq_not, Bool.not_true,
    ← Bool.not_eq_true]
  constructor
  · rintro ⟨h1, h2, h3⟩
    exact ⟨by omega, h1, h3⟩
  · rintro ⟨h1, h2, h3⟩
    exact ⟨h2, by omega, h3⟩

theorem find_eq_none_iff {pat t : List α} : find pat t = none ↔ ¬ pat <:+: t := by
  unfold find
  rw [List.find?_range_eq_none]
  simp only [List.isPrefixOf_iff_prefix, Bool.not_eq_eq_eq_not, Bool.not_true, ← Bool.not_eq_true]
  constructor
  · rintro h ⟨a, b, rfl⟩
    have hlt : a.length < (a ++ pat ++ b).length + 1 := by
      rw [List.length_append, List.length_append]
      omega
    refine h a.length hlt ⟨b, ?_⟩
    simp
  · intro h i _ hp
    exact h (hp.isInfix.trans (List.drop_suffix i t).isInfix)

theorem isInfix_of_find {pat t : List α} {i : Nat} (h : find pat t = some i) : pat <:+: t := by
  by_contra hn
  rw [find_eq_none_iff.mpr hn] at h
  cases h

theorem exists_find {pat t : List α} (h : pat <:+: t) : ∃ i, find pat t = some i := by
  cases hf : find pat t with
  | some i => exact ⟨i, rfl⟩
  | none => exact absurd h (find_eq_none_iff.mp hf)

theorem isSome_find_iff {pat t : List α} : (find pat t).isSome = true ↔ pat <:+: t := by
  rw [Option.isSome_iff_exists]
  constructor
  · rintro ⟨i, hi⟩
    exact isInfix_of_find hi
  · exact exists_find

/-- An occurrence lies inside the text. -/
theorem find_add_length_le {pat t : List α} {i : Nat} (h : find pat t = some i) :
    i + pat.length ≤ t.length := by
  obtain ⟨h1, h2, -⟩ := find_eq_some_iff.mp h
  have := h2.length_le
  rw [List.length_drop] at this
  omega

omit [DecidableEq α] in
theorem prefix_drop_append {pat a b : List α} {i : Nat} (h : i + pat.length ≤ a.length) :
    pat <+: (a ++ b).drop i ↔ pat <+: a.drop i := by
  rw [List.drop_append_of_le_length (by omega)]
  constructor
  · intro hp
    exact List.prefix_of_prefix_length_le hp (List.prefix_append _ _) (by simp; omega)
  · intro hp
    exact hp.trans (List.prefix_append _ _)

/-- Text behind an occurrence does not move it. -/
theorem find_append_of_some {pat a b : List α} {i : Nat} (h : find pat a = some i) :
    find pat (a ++ b) = some i := by
  have hle := find_add_length_le h
  obtain ⟨h1, h2, h3⟩ := find_eq_some_iff.mp h
  refine find_eq_some_iff.mpr ⟨by simp; omega, (prefix_drop_append hle).mpr h2, ?_⟩
  intro j hj
  rw [prefix_drop_append (by omega)]
  exact h3 j hj

/-- An occurrence in `a ++ b` that ends inside `a` is one of `a`. -/
theorem find_of_append {pat a b : List α} {i : Nat} (h : find pat (a ++ b) = some i)
    (hi : i + pat.length ≤ a.length) : find pat a = some i := by
  obtain ⟨h1, h2, h3⟩ := find_eq_some_iff.mp h
  refine find_eq_some_iff.mpr ⟨by omega, (prefix_drop_append hi).mp h2, ?_⟩
  intro j hj hp
  exact h3 j hj ((prefix_drop_append (by omega)).mpr hp)

/-- If `a` has no occurrence, the first one of `a ++ b` ends behind `a`. -/
theorem lt_of_find_append {pat a b : List α} {i : Nat} (ha : find pat a = none)
    (h : find pat (a ++ b) = some i) : a.length < i + pat.length := by
  by_contra hle
  rw [find_of_append h (by omega)] at ha
  cases ha

/-- The text up to and including the first occurrence. -/
theorem find_take {pat t : List α} {i : Nat} (h : find pat t = some i) :
    find pat (t.take (i + pat.length)) = some i := by
  have hle := find_add_length_le h
  have hcut : find pat (t.take (i + pat.length) ++ t.drop (i + pat.length)) = some i := by
    rw [List.take_append_drop]
    exact h
  exact find_of_append hcut (by simp; omega)

/-- A text with its first occurrence at `i` is cut there. -/
theorem find_split {pat t : List α} {i : Nat} (h : find pat t = some i) :
    t = t.take i ++ pat ++ t.drop (i + pat.length) := by
  obtain ⟨-, ⟨r, hr⟩, -⟩ := find_eq_some_iff.mp h
  have hd : t.drop (i + pat.length) = r := by
    rw [← List.drop_drop, ← hr]
    simp
  rw [hd, List.append_assoc, hr, List.take_append_drop]

/-- A text without the pattern's first letter cannot hold the beginning of an occurrence. -/
theorem find_of_not_mem {c : α} {pat s t : List α} (h : c ∉ s) :
    find (c :: pat) (s ++ (c :: pat) ++ t) = some s.length := by
  rw [find_eq_some_iff]
  refine ⟨by simp, ?_, ?_⟩
  · rw [List.append_assoc, List.drop_left]
    exact List.prefix_append _ _
  · intro j hj hp
    rw [List.append_assoc, List.drop_append_of_le_length hj.le, List.drop_eq_getElem_cons hj,
      List.cons_append, List.cons_prefix_cons] at hp
    exact h (hp.1 ▸ List.getElem_mem hj)

/-- No occurrence in what ends before the first one does. -/
theorem find_eq_none_of_prefix {pat s t : List α} {i : Nat} (h : find pat t = some i)
    (hs : s <+: t) (hlen : s.length < i + pat.length) : find pat s = none := by
  obtain ⟨r, rfl⟩ := hs
  cases hf : find pat s with
  | none => rfl
  | some j =>
    have hle := find_add_length_le hf
    rw [find_append_of_some hf, Option.some.injEq] at h
    omega

/-! ## Letter by letter -/

omit [DecidableEq α] in
/-- Text without the pattern's first letter adds no occurrence in front. -/
theorem not_infix_append {c : α} {pat s t : List α} (hs : c ∉ s) (ht : ¬ c :: pat <:+: t) :
    ¬ c :: pat <:+: s ++ t := by
  induction s with
  | nil => exact ht
  | cons d s ih =>
    rw [List.cons_append, List.infix_cons_iff, List.cons_prefix_cons]
    rintro (⟨rfl, -⟩ | h)
    · exact hs (by simp)
    · exact ih (fun hc => hs (by simp [hc])) h

omit [DecidableEq α] in
/-- No occurrence spans a character it does not have. -/
theorem not_infix_sep {c : α} {pat s t : List α} (hc : c ∉ pat) (hs : ¬ pat <:+: s)
    (ht : ¬ pat <:+: t) : ¬ pat <:+: s ++ c :: t := by
  rintro ⟨p, q, h⟩
  rcases List.append_eq_append_iff.mp h with ⟨a, ha, -⟩ | ⟨a, ha, ht'⟩
  · exact hs ⟨p, a, ha.symm⟩
  · cases a with
    | nil => exact hs ⟨p, [], by rw [ha]; simp⟩
    | cons d a =>
      obtain ⟨rfl, rfl⟩ := List.cons.inj ht'
      rcases List.append_eq_append_iff.mp ha with ⟨b, -, hb⟩ | ⟨b, -, hb⟩
      · exact hc (by rw [hb]; simp)
      · cases b with
        | nil => exact hc (by rw [← List.nil_append pat, ← hb]; simp)
        | cons e b =>
          obtain ⟨-, rfl⟩ := List.cons.inj hb
          exact ht ⟨b, q, rfl⟩

/-- The search, letter by letter. -/
theorem find_cons (pat : List α) (c : α) (t : List α) :
    find pat (c :: t) = if pat <+: c :: t then some 0 else (find pat t).map (· + 1) := by
  by_cases hp : pat <+: c :: t
  · rw [if_pos hp, find_eq_some_iff]
    exact ⟨Nat.zero_le _, hp, fun j hj => absurd hj (Nat.not_lt_zero _)⟩
  · rw [if_neg hp]
    cases hf : find pat t with
    | none =>
      rw [Option.map_none, find_eq_none_iff, List.infix_cons_iff]
      rintro (h | h)
      · exact hp h
      · exact find_eq_none_iff.mp hf h
    | some i =>
      obtain ⟨hi, hi', hmin⟩ := find_eq_some_iff.mp hf
      rw [Option.map_some, find_eq_some_iff, List.drop_succ_cons, List.length_cons]
      refine ⟨by omega, hi', fun j hj => ?_⟩
      cases j with
      | zero => exact hp
      | succ j => exact hmin j (by omega)

/-- Text in which the pair does not occur and that cannot begin one is passed over. -/
theorem find_pair_skip {a b c : α} (hcb : c ≠ b) {s : List α} (hs : find [a, b] s = none)
    (t : List α) : find [a, b] (s ++ c :: t) = (find [a, b] (c :: t)).map (s.length + ·) := by
  induction s with
  | nil => simp
  | cons d s ih =>
    rw [find_cons] at hs
    by_cases hp : [a, b] <+: d :: s
    · rw [if_pos hp] at hs
      cases hs
    · rw [if_neg hp, Option.map_eq_none_iff] at hs
      have hno : ¬ [a, b] <+: d :: (s ++ c :: t) := by
        cases s with
        | nil =>
          rw [List.nil_append, List.cons_prefix_cons, List.cons_prefix_cons]
          rintro ⟨-, rfl, -⟩
          exact hcb rfl
        | cons e s =>
          simpa [List.cons_prefix_cons] using hp
      rw [List.cons_append, find_cons, if_neg hno, ih hs, Option.map_map]
      congr 1
      ext i
      simp only [Function.comp_apply, List.length_cons]
      omega

/-- The pair behind a text in which it does not occur. -/
theorem find_pair_end {a b : α} (hab : a ≠ b) {s : List α} (hs : ¬ [a, b] <:+: s) (t : List α) :
    find [a, b] (s ++ [a, b] ++ t) = some s.length := by
  rw [List.append_assoc, List.cons_append, find_pair_skip hab (find_eq_none_iff.mpr hs), find_cons,
    if_pos ⟨t, rfl⟩]
  rfl

end Search
