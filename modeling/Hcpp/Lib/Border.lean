import Hcpp.Lib.Search
import Mathlib.Data.Nat.Find
import Mathlib.Data.List.Infix
import Mathlib.Order.Bounds.Defs

/-!
# Prefixes of a pattern at the end of a text

`overlap pat t b` is the length of the longest prefix of `pat`, shorter than
`b`, that is a suffix of `t`.  With `b = pat.length` it is the state of the
Knuth-Morris-Pratt automaton after `t`; with `t = pat.take b` it is the longest
proper border of `pat.take b`, the failure table.  `cand_snoc` is the one step
of the automaton and `cand_iff_of_le` the reason why falling back along the
borders visits every shorter candidate.
-/

namespace Border

variable {α : Type*}

/-- The first `k` letters of `pat` end the text. -/
def Cand (pat t : List α) (k : Nat) : Prop := pat.take k <:+ t

instance [DecidableEq α] (pat t : List α) (k : Nat) : Decidable (Cand pat t k) :=
  inferInstanceAs (Decidable (pat.take k <:+ t))

theorem cand_zero (pat t : List α) : Cand pat t 0 := by
  simp [Cand]

/-- One more letter extends a candidate or ends it. -/
theorem cand_snoc {pat t : List α} {c : α} {k : Nat} (hk : k < pat.length) :
    Cand pat (t ++ [c]) (k + 1) ↔ Cand pat t k ∧ pat[k]? = some c := by
  unfold Cand
  rw [List.take_add_one, List.getElem?_eq_getElem hk, Option.toList_some, ← List.reverse_prefix,
    List.reverse_append, List.reverse_append, List.reverse_singleton, List.reverse_singleton,
    List.singleton_append, List.singleton_append, List.cons_prefix_cons, List.reverse_prefix,
    Option.some.injEq]
  exact And.comm

/-- The candidates up to a candidate are its own borders. -/
theorem cand_iff_of_le {pat t : List α} {j k : Nat} (hj : Cand pat t j) (hk : k ≤ j) :
    Cand pat t k ↔ Cand pat (pat.take j) k := by
  unfold Cand at *
  constructor
  · intro h
    apply List.suffix_of_suffix_length_le h hj
    rw [List.length_take, List.length_take]
    omega
  · intro h
    exact h.trans hj

variable [DecidableEq α]

/-- The longest prefix of `pat` shorter than `b` that ends `t`. -/
def overlap (pat t : List α) (b : Nat) : Nat := Nat.findGreatest (fun k => Cand pat t k) (b - 1)

theorem overlap_lt {pat t : List α} {b : Nat} (hb : 0 < b) : overlap pat t b < b := by
  have := Nat.findGreatest_le (P := fun k => Cand pat t k) (b - 1)
  unfold overlap
  omega

theorem cand_overlap (pat t : List α) (b : Nat) : Cand pat t (overlap pat t b) :=
  Nat.findGreatest_spec (P := fun k => Cand pat t k) (Nat.zero_le _) (cand_zero pat t)

theorem le_overlap {pat t : List α} {b k : Nat} (hk : k < b) (hc : Cand pat t k) :
    k ≤ overlap pat t b :=
  Nat.le_findGreatest (P := fun k => Cand pat t k) (by omega) hc

/-- What makes a candidate the overlap. -/
theorem overlap_eq {pat t : List α} {b j : Nat} (hj : j < b) (hc : Cand pat t j)
    (hmax : ∀ k, j < k → k < b → ¬ Cand pat t k) : overlap pat t b = j := by
  have hle := le_overlap hj hc
  have hlt : overlap pat t b < b := overlap_lt (by omega)
  by_contra hne
  exact hmax _ (by omega) hlt (cand_overlap pat t b)

/-- `k` letters begin `w` and end it, and are not all of it. -/
def IsBorder (w : List α) (k : Nat) : Prop := k < w.length ∧ w.take k <:+ w

omit [DecidableEq α] in
theorem isBorder_take {pat : List α} {b k : Nat} (hb : b ≤ pat.length) :
    IsBorder (pat.take b) k ↔ k < b ∧ Cand pat (pat.take b) k := by
  unfold IsBorder Cand
  rw [List.length_take, Nat.min_eq_left hb]
  constructor
  · rintro ⟨hk, hsuf⟩
    rw [List.take_take, Nat.min_eq_left hk.le] at hsuf
    exact ⟨hk, hsuf⟩
  · rintro ⟨hk, hsuf⟩
    rw [List.take_take, Nat.min_eq_left hk.le]
    exact ⟨hk, hsuf⟩

/-- The overlap of a prefix with the pattern is the longest border of the prefix. -/
theorem isGreatest_overlap {pat : List α} {b : Nat} (hpos : 0 < b) (hb : b ≤ pat.length) :
    IsGreatest {k | IsBorder (pat.take b) k} (overlap pat (pat.take b) b) := by
  constructor
  · exact (isBorder_take hb).mpr ⟨overlap_lt hpos, cand_overlap _ _ _⟩
  · intro k hk
    obtain ⟨hlt, hcand⟩ := (isBorder_take hb).mp hk
    exact le_overlap hlt hcand

omit [DecidableEq α] in
/-- An occurrence in a text without one before its last letter is a suffix. -/
theorem cand_of_infix_snoc {pat t : List α} {c : α} (hno : ¬ pat <:+: t)
    (h : pat <:+: t ++ [c]) : pat <:+ t ++ [c] := by
  rw [List.infix_concat_iff] at h
  rcases h with h | h
  · exact h
  · exact absurd h hno

/-- `j` is a candidate below `b`, and no longer one below `b` is extended by `c`. -/
structure Trying (pat t : List α) (b : Nat) (c : α) (j : Nat) : Prop where
  lt : j < b
  cand : Cand pat t j
  refused : ∀ k, j < k → k < b → Cand pat t k → pat[k]? ≠ some c

/-- The search for an extension starts with the overlap. -/
theorem trying_overlap {pat t : List α} {b : Nat} (hb : 0 < b) (c : α) :
    Trying pat t b c (overlap pat t b) where
  lt := overlap_lt hb
  cand := cand_overlap pat t b
  refused := by
    intro k hk hkb hc
    have := le_overlap hkb hc
    omega

/-- The first candidate that `c` extends gives the longest one of the next text. -/
theorem Trying.hit {pat t : List α} {b j : Nat} {c : α} (h : Trying pat t b c j)
    (hb : b ≤ pat.length) (hc : pat[j]? = some c) : overlap pat (t ++ [c]) (b + 1) = j + 1 := by
  have hlt := h.lt
  refine overlap_eq (by omega) ((cand_snoc (by omega)).mpr ⟨h.cand, hc⟩) ?_
  intro k hk hkb hcand
  obtain ⟨k, rfl⟩ : ∃ k', k = k' + 1 := ⟨k - 1, by omega⟩
  obtain ⟨hcand, hck⟩ := (cand_snoc (by omega)).mp hcand
  exact h.refused k (by omega) (by omega) hcand hck

/-- A refused candidate gives way to its longest border. -/
theorem Trying.fall {pat t : List α} {b j : Nat} {c : α} (h : Trying pat t b c j) (hj : 0 < j)
    (hc : pat[j]? ≠ some c) : Trying pat t b c (overlap pat (pat.take j) j) where
  lt := by
    have hlt : overlap pat (pat.take j) j < j := overlap_lt hj
    have := h.lt
    omega
  cand := (cand_iff_of_le h.cand (overlap_lt hj).le).mpr (cand_overlap _ _ _)
  refused := by
    intro k hk hkb hcand
    rcases Nat.lt_trichotomy k j with hlt | rfl | hgt
    · have := le_overlap hlt ((cand_iff_of_le h.cand hlt.le).mp hcand)
      omega
    · exact hc
    · exact h.refused k hgt hkb hcand

/-- When the empty candidate is refused too, nothing of the pattern ends the next text. -/
theorem Trying.miss {pat t : List α} {b : Nat} {c : α} (h : Trying pat t b c 0)
    (hb : b ≤ pat.length) (hc : pat[0]? ≠ some c) : overlap pat (t ++ [c]) (b + 1) = 0 := by
  apply overlap_eq (by omega) (cand_zero _ _)
  intro k hk hkb hcand
  obtain ⟨k, rfl⟩ : ∃ k', k = k' + 1 := ⟨k - 1, by omega⟩
  obtain ⟨hcand, hck⟩ := (cand_snoc (by omega)).mp hcand
  rcases Nat.eq_zero_or_pos k with rfl | hpos
  · exact hc hck
  · exact h.refused k hpos (by omega) hcand hck

/-- An overlap that is short of the bound does not depend on it. -/
theorem overlap_succ_of_lt {pat t : List α} {b : Nat} (h : overlap pat t (b + 1) < b) :
    overlap pat t b = overlap pat t (b + 1) := by
  apply overlap_eq h (cand_overlap _ _ _)
  intro k hk hkb hcand
  have := le_overlap (show k < b + 1 by omega) hcand
  omega

/-- Without the whole pattern at its end, a text grown by one letter has no new occurrence. -/
theorem not_infix_snoc {pat t : List α} {c : α} (hno : ¬ pat <:+: t)
    (h : overlap pat (t ++ [c]) (pat.length + 1) < pat.length) : ¬ pat <:+: t ++ [c] := by
  intro hin
  have hsuf := cand_of_infix_snoc hno hin
  have hcand : Cand pat (t ++ [c]) pat.length := by
    unfold Cand
    rw [List.take_length]
    exact hsuf
  have := le_overlap (show pat.length < pat.length + 1 by omega) hcand
  omega

/-- With the whole pattern at its end, the text has its first occurrence there. -/
theorem find_snoc {pat t : List α} {c : α} (hno : ¬ pat <:+: t)
    (h : overlap pat (t ++ [c]) (pat.length + 1) = pat.length) :
    Search.find pat (t ++ [c]) = some (t.length + 1 - pat.length) := by
  have hcand := cand_overlap pat (t ++ [c]) (pat.length + 1)
  rw [h] at hcand
  unfold Cand at hcand
  rw [List.take_length] at hcand
  obtain ⟨i, hi⟩ := Search.exists_find hcand.isInfix
  have hlt := Search.lt_of_find_append (Search.find_eq_none_iff.mpr hno) hi
  have hle := Search.find_add_length_le hi
  rw [List.length_append, List.length_singleton] at hle
  rw [hi, Option.some.injEq]
  omega

end Border
