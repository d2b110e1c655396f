import Hcpp.Mem.FailureTable
import Mathlib.Data.List.Find

/-!
# What `KMP::search` finds

`Fed k pat prev` is an object for `pat` that was fed the text `prev` without a
match.
`search_hit`: when `prev ++ text` contains the pattern, the next call returns
the offset of its first occurrence.  `search_miss`: otherwise it returns the
start of the last attempt of this chunk (`lastStart`), or what `matchIndex` was
left at by an earlier chunk, and the object is `Fed` the longer text.
-/

namespace Hcpp.Kmp

open Border

/-- The index of the last letter of `text`, fed behind `prev`, that starts an attempt. -/
def lastStart (pat prev text : List Char) : Option Nat :=
  (List.range text.length).reverse.find? fun i =>
    overlap pat (prev ++ text.take (i + 1)) pat.length = 1

theorem lastStart_snoc (pat prev s : List Char) (c : Char) :
    lastStart pat prev (s ++ [c]) =
      if overlap pat (prev ++ s ++ [c]) pat.length = 1 then some s.length
      else lastStart pat prev s := by
  have hcongr : (List.range s.length).reverse.find? (fun i =>
        decide (overlap pat (prev ++ (s ++ [c]).take (i + 1)) pat.length = 1)) =
      (List.range s.length).reverse.find? (fun i =>
        decide (overlap pat (prev ++ s.take (i + 1)) pat.length = 1)) := by
    refine List.find?_congr fun i hi => ?_
    have hlt : i < s.length := by simpa using hi
    rw [List.take_append_of_le_length (by omega)]
  have hall : (s ++ [c]).take (s.length + 1) = s ++ [c] := List.take_of_length_le (by simp)
  unfold lastStart
  rw [List.length_append, List.length_singleton, List.range_succ, List.reverse_append,
    List.reverse_singleton, List.singleton_append, List.find?_cons, hall, hcongr,
    List.append_assoc]
  by_cases h : overlap pat (prev ++ (s ++ [c])) pat.length = 1
  · rw [decide_eq_true h, if_pos h]
  · rw [decide_eq_false h, if_neg h]

/-- `matchIndex` behind `text`: the last attempt of this chunk, or what it was before. -/
def attempt (pat prev text : List Char) (mi : Int) : Int :=
  match lastStart pat prev text with
  | some i => i
  | none => mi

/-- `matchIndex` is -1 or a place in one of the chunks. -/
theorem attempt_bounds (pat prev s : List Char) {mi : Int} {b : Nat} (h0 : -1 ≤ mi) (h1 : mi < b)
    (hs : s.length ≤ b) :
    -1 ≤ attempt pat prev s mi ∧ attempt pat prev s mi < b := by
  unfold attempt
  cases h : lastStart pat prev s with
  | none => exact ⟨h0, h1⟩
  | some i =>
    have hi := List.mem_of_find?_eq_some h
    rw [List.mem_reverse, List.mem_range] at hi
    simp only
    omega

/-- The object is for `pat` and was fed `prev` without a match. -/
structure Fed (k : Kmp) (pat prev : List Char) : Prop where
  pattern : k.pattern = pat
  table : TableTo pat k.lps pat.length
  j : k.j = overlap pat prev pat.length
  matchLen : k.matchLen = prev.length
  unmatched : ¬ pat <:+: prev
  small : pat.length < 2 ^ 31

theorem make_spec {pat : List Char} (hpat : pat ≠ []) (hps : pat.length < 2 ^ 31) :
    ∃ k, make pat = .ret k ∧ Fed k pat [] ∧ k.matchIndex = -1 := by
  obtain ⟨lps, hlps, htab⟩ := computeLPSArray_spec hpat hps
  have hpos := List.length_pos_of_ne_nil hpat
  refine ⟨⟨lps, pat, 0, -1, 0⟩, by simp [make, hlps],
    ⟨rfl, htab, ?_, rfl, by simpa using hpat, hps⟩, rfl⟩
  refine (overlap_eq hpos (cand_zero _ _) ?_).symm
  intro k hk hkb hcand
  have := hcand.length_le
  rw [List.length_take, List.length_nil] at this
  omega

/-- The state of the loop behind `i` letters of the text. -/
structure LoopInv (pat prev text : List Char) (mi0 : Int) (i j : Nat) (mi : Int) : Prop where
  le : i ≤ text.length
  unmatched : ¬ pat <:+: prev ++ text.take i
  lt : j < pat.length
  trying : i < text.length → Trying pat (prev ++ text.take i) pat.length (charAt text i) j
  settled : i = text.length → j = overlap pat (prev ++ text) pat.length
  mi : mi = attempt pat prev (text.take i) mi0

/-- One more letter whose overlap is short of the pattern. -/
theorem LoopInv.next {pat prev text : List Char} {mi0 mi : Int} {i j v : Nat}
    (h : LoopInv pat prev text mi0 i j mi) (hi : i < text.length)
    (hv : overlap pat (prev ++ text.take i ++ [charAt text i]) (pat.length + 1) = v)
    (hlt : v < pat.length) :
    LoopInv pat prev text mi0 (i + 1) v (if v = 1 then (i : Int) else mi) := by
  have htake := take_succ_eq hi
  have hov : overlap pat (prev ++ text.take i ++ [charAt text i]) pat.length = v := by
    rw [← hv]
    exact overlap_succ_of_lt (by omega)
  refine ⟨hi, ?_, hlt, ?_, ?_, ?_⟩
  · rw [htake, ← List.append_assoc]
    exact not_infix_snoc h.unmatched (by omega)
  · intro hi'
    rw [htake, ← List.append_assoc, ← hov]
    exact trying_overlap (by omega) _
  · intro heq
    have : text.take i ++ [charAt text i] = text := by
      rw [← htake]
      exact List.take_of_length_le (by omega)
    rw [← hov, List.append_assoc, this]
  · unfold attempt
    rw [htake, lastStart_snoc, hov, List.length_take, Nat.min_eq_left (by omega)]
    by_cases h1 : v = 1
    · rw [if_pos h1, if_pos h1]
    · rw [if_neg h1, if_neg h1]
      exact h.mi

/-- What the loop returns: the end of the first occurrence, or the last attempt. -/
def LoopPost (pat prev text : List Char) (mi0 : Int) (r : Bool × Nat × Nat × Int) : Prop :=
  match Search.find pat (prev ++ text) with
  | some p => r.1 = true ∧ r.2.2.1 = pat.length ∧ prev.length + r.2.1 = p + pat.length
  | none => r = (false, text.length, overlap pat (prev ++ text) pat.length,
      attempt pat prev text mi0)

/-- The comparison with `int m`. -/
theorem cast_eq_size {pat : List Char} (hps : pat.length < 2 ^ 31) (j : Nat) :
    ((j : Int) = toInt32 pat.length) = (j = pat.length) := by
  rw [toInt32_of_small (by omega) (by omega), Int.natCast_inj]

theorem searchLoop_spec {k : Kmp} {pat prev text : List Char} {mi0 : Int}
    (hpat : k.pattern = pat) (htab : TableTo pat k.lps pat.length) (hps : pat.length < 2 ^ 31) :
    ∀ (fuel i j : Nat) (mi : Int), LoopInv pat prev text mi0 i j mi →
      2 * (text.length - i) + j < fuel →
      ∃ r, k.searchLoop text text.length fuel i j mi = .ret r ∧
        LoopPost pat prev text mi0 r := by
  intro fuel
  induction fuel with
  | zero => intro i j mi _ hf; omega
  | succ fuel ih =>
    intro i j mi h hf
    have hj := h.lt
    rw [searchLoop, hpat]
    by_cases hi : (i : Int) < text.length
    · rw [if_pos hi]
      have hi : i < text.length := by omega
      have ht := h.trying hi
      have htake := take_succ_eq hi
      by_cases hhit : charAt pat j = charAt text i
      · have hv := ht.hit (Nat.le_refl _) (by rw [getElem?_eq_charAt hj, hhit])
        by_cases hm : j + 1 = pat.length
        · -- the whole pattern ends here, for the first time
          refine ⟨(true, i + 1, j + 1, if True ∧ j = 0 then (i : Int) else mi),
            by simp only [hhit, if_true, cast_eq_size hps, if_pos hm], ?_⟩
          have hf := find_snoc h.unmatched (by rw [hv, hm])
          rw [List.append_assoc, ← htake] at hf
          have hf' := Search.find_append_of_some (b := text.drop (i + 1)) hf
          rw [List.append_assoc, List.take_append_drop] at hf'
          have hle := Search.find_add_length_le hf
          simp only [List.length_append, List.length_take] at hle hf'
          simp only [LoopPost, hf', hm, true_and]
          omega
        · have hn := h.next hi hv (by omega)
          have hmi : (if j + 1 = 1 then (i : Int) else mi) =
              if (True ∧ j = 0) then (i : Int) else mi := by
            by_cases h0 : j = 0 <;> simp [h0]
          rw [hmi] at hn
          simp only [hhit, if_true, cast_eq_size hps, if_neg hm]
          by_cases hmis : ((i + 1 : Nat) : Int) < text.length ∧
              charAt pat (j + 1) ≠ charAt text (i + 1)
          · rw [if_pos hmis, if_pos (by omega), htab (j + 1) (by omega) (by omega)]
            have hi' : i + 1 < text.length := by omega
            have hb : overlap pat (pat.take (j + 1)) (j + 1) < j + 1 := overlap_lt (by omega)
            have href : pat[j + 1]? ≠ some (charAt text (i + 1)) := by
              rw [getElem?_eq_charAt (by omega), Ne, Option.some.injEq]
              exact hmis.2
            exact ih _ _ _ ⟨hn.le, hn.unmatched, by omega,
              fun _ => (hn.trying hi').fall (by omega) href, by omega, hn.mi⟩ (by omega)
          · rw [if_neg hmis]
            exact ih _ _ _ hn (by omega)
      · have href : pat[j]? ≠ some (charAt text i) := by
          rw [getElem?_eq_charAt hj, Ne, Option.some.injEq]
          exact hhit
        simp only [hhit, if_false, false_and, cast_eq_size hps,
          if_neg (show ¬ j = pat.length by omega)]
        rw [if_pos ⟨by omega, hhit⟩]
        by_cases h0 : j ≠ 0
        · rw [if_pos h0, htab j (by omega) (by omega)]
          have hb : overlap pat (pat.take j) j < j := overlap_lt (by omega)
          exact ih _ _ _ ⟨h.le, h.unmatched, by omega,
            fun _ => ht.fall (by omega) href, by omega, h.mi⟩ (by omega)
        · rw [if_neg h0]
          obtain rfl : j = 0 := by omega
          have hn := h.next hi (ht.miss (Nat.le_refl _) href) hj
          rw [if_neg (by omega)] at hn
          exact ih _ _ _ hn (by omega)
    · rw [if_neg hi]
      have hi : i = text.length := by have := h.le; omega
      refine ⟨_, rfl, ?_⟩
      have hall : text.take i = text := List.take_of_length_le (by omega)
      have hno := h.unmatched
      rw [hall] at hno
      simp only [LoopPost, Search.find_eq_none_iff.mpr hno]
      rw [← h.settled hi, hi, h.mi, hall]

theorem Fed.loopInv {k : Kmp} {pat prev : List Char} (h : Fed k pat prev) (hpat : pat ≠ [])
    (text : List Char) : LoopInv pat prev text k.matchIndex 0 k.j k.matchIndex := by
  have hpos := List.length_pos_of_ne_nil hpat
  have hlt : overlap pat prev pat.length < pat.length := overlap_lt hpos
  refine ⟨Nat.zero_le _, ?_, by rw [h.j]; exact hlt, ?_, ?_, rfl⟩
  · simpa using h.unmatched
  · intro _
    rw [List.take_zero, List.append_nil, h.j]
    exact trying_overlap hpos _
  · intro h0
    obtain rfl := List.eq_nil_of_length_eq_zero h0.symm
    rw [List.append_nil, h.j]

theorem search_loop {k : Kmp} {pat prev : List Char} (h : Fed k pat prev) (hpat : pat ≠ [])
    (text : List Char) :
    ∃ r, k.searchLoop text text.length (2 * text.length + k.pattern.length + 1) 0 k.j
        k.matchIndex = .ret r ∧ LoopPost pat prev text k.matchIndex r := by
  have hinv := h.loopInv hpat text
  apply searchLoop_spec h.pattern h.table h.small _ _ _ _ hinv
  have := hinv.lt
  rw [h.pattern]
  omega

/-- **A call that completes the pattern** returns the offset of its first occurrence
in all the text so far. -/
theorem search_hit {k : Kmp} {pat prev : List Char} {p : Nat} (h : Fed k pat prev)
    (hpat : pat ≠ []) (text : List Char) (hs : prev.length + text.length < 2 ^ 31)
    (hf : Search.find pat (prev ++ text) = some p) :
    ∃ k', k.search text = .ret (k', (p : Int)) := by
  obtain ⟨⟨b, i, j, mi⟩, hr, hpost⟩ := search_loop h hpat text
  rw [LoopPost, hf] at hpost
  obtain ⟨rfl, rfl, hi⟩ := hpost
  simp only at hi
  have hle := Search.find_add_length_le hf
  rw [List.length_append] at hle
  have hval : toInt32 ((i : Int) - pat.length + k.matchLen) = p := by
    rw [h.matchLen, toInt32_of_small (by omega) (by omega)]
    omega
  refine ⟨{ k with j := pat.length, matchIndex := mi }, ?_⟩
  simp only [search, toInt32_of_small (show -2 ^ 31 ≤ (text.length : Int) by omega) (by omega), hr,
    Outcome.ret_bind, if_true, hval, Outcome.pure_eq]

/-- **A call that does not** returns the start of the last attempt, and the
object is fed. -/
theorem search_miss {k : Kmp} {pat prev : List Char} (h : Fed k pat prev)
    (hpat : pat ≠ []) (text : List Char) (hs : prev.length + text.length < 2 ^ 31)
    (hf : ¬ pat <:+: prev ++ text) :
    ∃ k', k.search text =
        .ret (k', toInt32 (attempt pat prev text k.matchIndex + prev.length)) ∧
      Fed k' pat (prev ++ text) ∧ k'.matchIndex = attempt pat prev text k.matchIndex := by
  obtain ⟨r, hr, hpost⟩ := search_loop h hpat text
  rw [LoopPost, Search.find_eq_none_iff.mpr hf] at hpost
  obtain rfl : r = _ := hpost
  refine ⟨{ k with
      j := overlap pat (prev ++ text) pat.length
      matchIndex := attempt pat prev text k.matchIndex
      matchLen := prev.length + text.length }, ?_, ⟨h.pattern, h.table, rfl, ?_, hf, h.small⟩, rfl⟩
  · have hlen : (((prev.length : Int) + text.length) % 2 ^ 64).toNat =
        prev.length + text.length := by omega
    simp only [search, toInt32_of_small (show -2 ^ 31 ≤ (text.length : Int) by omega) (by omega),
      hr, Outcome.ret_bind, Bool.false_eq_true, if_false, Outcome.pure_eq, h.matchLen, hlen]
  · simp

end Hcpp.Kmp
