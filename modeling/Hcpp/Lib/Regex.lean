import Mathlib.Data.List.Basic
import Mathlib.Data.List.TakeWhile

/-!
# Backtracking regular expressions

`ways len r s` lists the ways `r` matches a beginning of `s`, in the order in
which a backtracking matcher tries them: the groups it captured and the rest of
the text.  `len` is the length of the whole text, so that `bol` can tell its
beginning.  `fullMatch` takes the first way that leaves no rest, `search` the
first way at the first offset that has one.

Repetitions of one letter class are all the repetitions the lemmas below are
about: such a repetition takes as many letters as it can (`head?_reps_cls`).
-/

namespace Regex

variable {α : Type*}

inductive Re (α : Type*) where
  | cls (p : α → Bool)
  | seq (a b : Re α)
  | alt (a b : Re α)
  /-- between `lo` and `hi` times, as often as possible; `none`: without a bound -/
  | rep (a : Re α) (lo : Nat) (hi : Option Nat)
  | bol
  | eol
  | grp (n : Nat) (a : Re α)

/-- The text each group captured, the innermost last. -/
abbrev Caps (α : Type*) := List (Nat × List α)

/-- Up to `hi` times `f`, at least `lo` times, longest first. -/
def reps (f : List α → List (Caps α × List α)) (lo : Nat) : Nat → List α → List (Caps α × List α)
  | 0, s => if lo = 0 then [([], s)] else []
  | hi + 1, s =>
    ((f s).flatMap fun x => (reps f (lo - 1) hi x.2).map fun y => (x.1 ++ y.1, y.2)) ++
      if lo = 0 then [([], s)] else []

def clsWays (p : α → Bool) : List α → List (Caps α × List α)
  | [] => []
  | c :: s => if p c then [([], s)] else []

def ways (len : Nat) : Re α → List α → List (Caps α × List α)
  | .cls p, s => clsWays p s
  | .seq a b, s =>
    (ways len a s).flatMap fun x => (ways len b x.2).map fun y => (x.1 ++ y.1, y.2)
  | .alt a b, s => ways len a s ++ ways len b s
  | .rep a lo hi, s => reps (ways len a) lo (hi.getD s.length) s
  | .bol, s => if s.length = len then [([], s)] else []
  | .eol, s => if s = [] then [([], s)] else []
  | .grp n a, s => (ways len a s).map fun x => ((n, s.take (s.length - x.2.length)) :: x.1, x.2)

/-- `regex_match`: the groups of the first way that takes the whole text. -/
def fullMatch (r : Re α) (s : List α) : Option (Caps α) :=
  ((ways s.length r s).find? fun x => x.2.isEmpty).map Prod.fst

/-- `regex_search`: the text of the first match. -/
def search (r : Re α) (s : List α) : Option (List α) :=
  (List.range (s.length + 1)).findSome? fun i =>
    (ways s.length r (s.drop i)).head?.map fun x => (s.drop i).take ((s.drop i).length - x.2.length)

theorem head?_reps_cls (p : α → Bool) (lo hi : Nat) (s : List α) :
    (reps (clsWays p) lo hi s).head? =
      if lo ≤ min hi (s.takeWhile p).length then
        some ([], s.drop (min hi (s.takeWhile p).length))
      else none := by
  induction hi generalizing lo s with
  | zero =>
    by_cases h : lo = 0 <;> simp [reps, h]
  | succ hi ih =>
    cases s with
    | nil => by_cases h : lo = 0 <;> simp [reps, clsWays, h]
    | cons c s =>
      by_cases hp : p c
      · have hlen : ((c :: s).takeWhile p).length = (s.takeWhile p).length + 1 := by simp [hp]
        rw [reps, clsWays, if_pos hp, List.flatMap_singleton, List.head?_append, List.head?_map]
        dsimp only
        rw [ih, hlen, show min (hi + 1) ((s.takeWhile p).length + 1) =
            min hi (s.takeWhile p).length + 1 by omega, List.drop_succ_cons]
        by_cases h : lo ≤ min hi (s.takeWhile p).length + 1
        · rw [if_pos h, if_pos (by omega)]
          rfl
        · rw [if_neg h, if_neg (by omega), if_neg (by omega)]
          rfl
      · have hlen : ((c :: s).takeWhile p).length = 0 := by simp [hp]
        by_cases h : lo = 0 <;> simp [reps, clsWays, hp, h]

theorem drop_length_takeWhile (p : α → Bool) (s : List α) :
    s.drop (s.takeWhile p).length = s.dropWhile p := by
  induction s with
  | nil => rfl
  | cons c s ih => by_cases hp : p c <;> simp [hp, ih]

/-- As many letters of a class as there are, but at most `k`. -/
theorem take_min_takeWhile (p : α → Bool) (k : Nat) (s : List α) :
    s.take (min k (s.takeWhile p).length) = (s.takeWhile p).take k := by
  obtain ⟨r, hr⟩ := List.takeWhile_prefix (l := s) p
  calc s.take (min k (s.takeWhile p).length)
      = (s.takeWhile p ++ r).take (min k (s.takeWhile p).length) := by rw [hr]
    _ = (s.takeWhile p).take (min k (s.takeWhile p).length) :=
        List.take_append_of_le_length (Nat.min_le_right _ _)
    _ = (s.takeWhile p).take k := by
        rw [List.take_eq_take_iff]
        omega

theorem ways_alt (len : Nat) (a b : Re α) (s : List α) :
    ways len (.alt a b) s = ways len a s ++ ways len b s := rfl

theorem head?_ways_alt (len : Nat) (a b : Re α) (s : List α) :
    (ways len (.alt a b) s).head? = (ways len a s).head?.or (ways len b s).head? := by
  rw [ways_alt, List.head?_append]

/-- At its beginning, `^` takes nothing of the text. -/
theorem ways_seq_bol (a : Re α) (s : List α) :
    ways s.length (.seq .bol a) s = ways s.length a s := by
  simp [ways]

theorem head?_ways_rep_cls (len : Nat) (p : α → Bool) (lo hi : Nat) (s : List α) :
    (ways len (.rep (.cls p) lo (some hi)) s).head? =
      if lo ≤ min hi (s.takeWhile p).length then
        some ([], s.drop (min hi (s.takeWhile p).length))
      else none :=
  head?_reps_cls p lo hi s

/-- One letter of a class, then as many of another as there are. -/
theorem head?_ways_cls_rep (len : Nat) {q : α → Bool} (p : α → Bool) (hi : Nat) {c : α}
    (s : List α) (hc : q c = true) :
    (ways len (.seq (.cls q) (.rep (.cls p) 0 (some hi))) (c :: s)).head? =
      some ([], s.drop (min hi (s.takeWhile p).length)) := by
  have hrep := head?_ways_rep_cls len p 0 hi s
  rw [if_pos (Nat.zero_le _)] at hrep
  rw [ways, ways, clsWays, if_pos hc, List.flatMap_singleton, List.head?_map]
  dsimp only
  rw [hrep]
  rfl

/-- The ways of a class repeated are the lengths between the bounds. -/
theorem mem_reps_cls {p : α → Bool} {lo hi : Nat} {s : List α} {x : Caps α × List α} :
    x ∈ reps (clsWays p) lo hi s ↔
      ∃ k, lo ≤ k ∧ k ≤ hi ∧ k ≤ (s.takeWhile p).length ∧ x = ([], s.drop k) := by
  induction hi generalizing lo s x with
  | zero =>
    by_cases h : lo = 0
    · subst h
      simp only [reps, if_true, List.mem_singleton]
      constructor
      · rintro rfl
        exact ⟨0, by simp⟩
      · rintro ⟨k, -, hk, -, rfl⟩
        obtain rfl : k = 0 := by omega
        rfl
    · simp only [reps, if_neg h, List.not_mem_nil, false_iff]
      rintro ⟨k, hk, hk', -⟩
      omega
  | succ hi ih =>
    rw [reps, List.mem_append, List.mem_flatMap]
    constructor
    · rintro (⟨y, hy, hx⟩ | hx)
      · cases s with
        | nil => simp [clsWays] at hy
        | cons c s =>
          by_cases hp : p c
          · rw [clsWays, if_pos hp, List.mem_singleton] at hy
            subst hy
            rw [List.mem_map] at hx
            obtain ⟨z, hz, rfl⟩ := hx
            obtain ⟨k, hlo, hhi, hlen, rfl⟩ := ih.mp hz
            dsimp only at hlen
            exact ⟨k + 1, by omega, by omega, by simp [hp, hlen], by simp⟩
          · simp [clsWays, hp] at hy
      · by_cases h : lo = 0
        · rw [if_pos h, List.mem_singleton] at hx
          exact ⟨0, by omega, by omega, by omega, by simp [hx]⟩
        · simp [h] at hx
    · rintro ⟨k, hlo, hhi, hlen, rfl⟩
      cases k with
      | zero =>
        right
        rw [if_pos (by omega), List.mem_singleton, List.drop_zero]
      | succ k =>
        left
        cases s with
        | nil => simp at hlen
        | cons c s =>
          have hp : p c := by
            by_contra hp
            simp [hp] at hlen
          simp only [List.takeWhile_cons, hp, if_true, List.length_cons] at hlen
          refine ⟨([], s), by simp [clsWays, hp], ?_⟩
          rw [List.mem_map]
          dsimp only
          exact ⟨([], s.drop k), ih.mpr ⟨k, by omega, by omega, by omega, rfl⟩, by simp⟩

/-- The repetitions of a class that leave `t`. -/
theorem mem_reps_cls_append {p : α → Bool} {lo hi : Nat} {s t : List α} {c : Caps α} :
    (c, t) ∈ reps (clsWays p) lo hi s ↔
      c = [] ∧ ∃ u, s = u ++ t ∧ lo ≤ u.length ∧ u.length ≤ hi ∧ ∀ d ∈ u, p d = true := by
  rw [mem_reps_cls]
  constructor
  · rintro ⟨k, hlo, hhi, hlen, hx⟩
    rw [Prod.mk.injEq] at hx
    obtain ⟨rfl, rfl⟩ := hx
    have hk := hlen.trans (List.takeWhile_prefix p).length_le
    refine ⟨rfl, s.take k, (List.take_append_drop k s).symm, ?_, ?_, ?_⟩
    · rw [List.length_take]
      omega
    · rw [List.length_take]
      omega
    · intro d hd
      have htake : s.take k = (s.takeWhile p).take k := by
        rw [← take_min_takeWhile, Nat.min_eq_left hlen]
      rw [htake] at hd
      exact List.mem_takeWhile_imp (List.mem_of_mem_take hd)
  · rintro ⟨rfl, u, rfl, hlo, hhi, hu⟩
    refine ⟨u.length, hlo, hhi, ?_, by rw [List.drop_left]⟩
    rw [List.takeWhile_append_of_pos hu, List.length_append]
    omega

theorem search_of_first {r : Re α} {s : List α} {i : Nat} {x : Caps α × List α}
    (hi : i ≤ s.length) (hnone : ∀ j < i, (ways s.length r (s.drop j)).head? = none)
    (h : (ways s.length r (s.drop i)).head? = some x) :
    search r s = some ((s.drop i).take ((s.drop i).length - x.2.length)) := by
  unfold search
  obtain ⟨k, hk⟩ : ∃ k, s.length + 1 = i + (k + 1) := ⟨s.length - i, by omega⟩
  rw [hk, List.range_add, List.findSome?_append, List.findSome?_eq_none_iff.mpr, Option.none_or,
    List.range_succ_eq_map, List.map_cons, List.findSome?_cons, Nat.add_zero, h]
  · rfl
  · intro j hj
    rw [hnone j (List.mem_range.mp hj), Option.map_none]

/-- A search that succeeds at the beginning of the text. -/
theorem search_of_head {r : Re α} {s : List α} {x : Caps α × List α}
    (h : (ways s.length r s).head? = some x) :
    search r s = some (s.take (s.length - x.2.length)) :=
  search_of_first (Nat.zero_le _) (fun _ hj => absurd hj (Nat.not_lt_zero _)) h

theorem search_eq_none {r : Re α} {s : List α}
    (hnone : ∀ j ≤ s.length, (ways s.length r (s.drop j)).head? = none) : search r s = none := by
  unfold search
  rw [List.findSome?_eq_none_iff]
  intro j hj
  rw [hnone j (by rw [List.mem_range] at hj; omega), Option.map_none]

theorem search_congr {r r' : Re α} {s : List α}
    (h : ∀ j, ways s.length r (s.drop j) = ways s.length r' (s.drop j)) :
    search r s = search r' s := by
  unfold search
  simp only [h]

/-- An expression that matches exactly where a letter of `q` stands is found at the first
one. -/
theorem search_at_class (q : α → Bool) {r : Re α} (s : List α)
    (hnil : (ways s.length r []).head? = none)
    (hno : ∀ c t, q c = false → (ways s.length r (c :: t)).head? = none)
    {rest : α → List α → List α}
    (hyes : ∀ c t, q c = true → (ways s.length r (c :: t)).head? = some ([], rest c t)) :
    search r s =
      match s.dropWhile fun c => !q c with
      | [] => none
      | c :: t => some ((c :: t).take ((c :: t).length - (rest c t).length)) := by
  have hskip : ∀ j < (s.takeWhile fun c => !q c).length,
      (ways s.length r (s.drop j)).head? = none := by
    intro j hj
    have hjs : j < s.length := lt_of_lt_of_le hj (List.takeWhile_prefix _).length_le
    have hget : (s.takeWhile fun c => !q c)[j] = s[j] := (List.takeWhile_prefix _).getElem hj
    have hc := List.mem_takeWhile_imp (List.getElem_mem hj)
    rw [hget] at hc
    rw [List.drop_eq_getElem_cons hjs]
    exact hno _ _ (by simpa using hc)
  have hdrop := drop_length_takeWhile (fun c => !q c) s
  have hle := (List.takeWhile_prefix (l := s) fun c => !q c).length_le
  cases hd : s.dropWhile fun c => !q c with
  | nil =>
    apply search_eq_none
    intro j hj
    by_cases hlt : j < (s.takeWhile fun c => !q c).length
    · exact hskip j hlt
    · have hlen := congrArg List.length (hdrop.trans hd)
      rw [List.length_drop, List.length_nil] at hlen
      rw [List.drop_eq_nil_of_le (by omega)]
      exact hnil
  | cons c t =>
    rw [hd] at hdrop
    have hq : q c = true := by
      have := List.head?_dropWhile_not (fun c => !q c) s
      rw [hd] at this
      simpa using this
    have hways := hyes c t hq
    rw [← hdrop] at hways
    rw [search_of_first hle hskip hways, hdrop]

theorem take_behind_takeWhile (p : α → Bool) (hi : Nat) (c : α) (t : List α) :
    (c :: t).take ((c :: t).length - (t.drop (min hi (t.takeWhile p).length)).length) =
      c :: (t.takeWhile p).take hi := by
  have hlen := (List.takeWhile_prefix (l := t) p).length_le
  have hcut : (c :: t).length - (t.drop (min hi (t.takeWhile p).length)).length =
      min hi (t.takeWhile p).length + 1 := by
    rw [List.length_cons, List.length_drop]
    omega
  rw [hcut, List.take_succ_cons, take_min_takeWhile]

/-- The first run of letters of `p` that begins with one of `q`, up to `hi` behind that. -/
theorem search_cls_rep (q p : α → Bool) (hi : Nat) (s : List α) :
    search (.seq (.cls q) (.rep (.cls p) 0 (some hi))) s =
      match s.dropWhile fun c => !q c with
      | [] => none
      | c :: t => some (c :: (t.takeWhile p).take hi) := by
  rw [search_at_class q s rfl (fun c t hc => ?_) fun c t hc => head?_ways_cls_rep s.length p hi t hc]
  · simp only [take_behind_takeWhile]
  · rw [ways, ways, clsWays, if_neg (by simpa using hc)]
    rfl

/-! ## What a way takes -/

theorem mem_ways_seq {len : Nat} {a b : Re α} {s : List α} {x : Caps α × List α} :
    x ∈ ways len (.seq a b) s ↔
      ∃ y ∈ ways len a s, ∃ z ∈ ways len b y.2, x = (y.1 ++ z.1, z.2) := by
  simp only [ways, List.mem_flatMap, List.mem_map, eq_comm]

theorem mem_ways_grp {len n : Nat} {a : Re α} {s : List α} {x : Caps α × List α} :
    x ∈ ways len (.grp n a) s ↔
      ∃ y ∈ ways len a s, x = ((n, s.take (s.length - y.2.length)) :: y.1, y.2) := by
  simp only [ways, List.mem_map, eq_comm]

theorem mem_clsWays {p : α → Bool} {s : List α} {x : Caps α × List α} :
    x ∈ clsWays p s ↔ ∃ c, p c = true ∧ s = c :: x.2 ∧ x.1 = [] := by
  cases s with
  | nil => simp [clsWays]
  | cons c s =>
    by_cases hp : p c
    · rw [clsWays, if_pos hp, List.mem_singleton]
      constructor
      · rintro rfl
        exact ⟨c, hp, rfl, rfl⟩
      · rintro ⟨d, -, hs, hx⟩
        rw [List.cons.injEq] at hs
        exact Prod.ext hx hs.2.symm
    · rw [clsWays, if_neg hp]
      simp only [List.not_mem_nil, List.cons.injEq, false_iff]
      rintro ⟨d, hd, ⟨rfl, -⟩, -⟩
      exact hp hd

/-- A way that takes part in a full match. -/
theorem exists_way_of_fullMatch {r : Re α} {s : List α} {caps : Caps α}
    (h : fullMatch r s = some caps) : (caps, []) ∈ ways s.length r s := by
  unfold fullMatch at h
  rw [Option.map_eq_some_iff] at h
  obtain ⟨x, hx, rfl⟩ := h
  have hnil : x.2 = [] := by simpa using List.find?_some hx
  rw [← hnil]
  exact List.mem_of_find?_eq_some hx

/-- A way that leaves nothing makes a full match, of some groups. -/
theorem exists_fullMatch {r : Re α} {s : List α} {caps : Caps α}
    (h : (caps, []) ∈ ways s.length r s) : ∃ caps', fullMatch r s = some caps' := by
  unfold fullMatch
  cases hf : (ways s.length r s).find? fun x => x.2.isEmpty with
  | none => exact absurd rfl (List.find?_eq_none.mp hf _ h)
  | some x => exact ⟨x.1, rfl⟩

end Regex
