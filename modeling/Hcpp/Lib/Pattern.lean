import Hcpp.Lib.Regex

/-!
# Pattern texts

The part of the ECMAScript pattern syntax that has no groups, alternatives and
classes: letters that stand for themselves, `.`, a letter behind a backslash,
each alone or with a `+`.  `Takes` is what an expression takes of a text,
without the groups.
-/

namespace Regex

/-- `.` -/
def anyChar (c : Char) : Bool := c ≠ '\n' && c ≠ '\r'

/-- The letters a pattern gives a meaning of their own. -/
def special (c : Char) : Bool := "^$\\.*+?()[]\x7b\x7d|".toList.contains c

/-- A letter that a backslash only takes its meaning from. -/
def escapable (c : Char) : Bool := !c.isAlphanum && c ≠ '_'

/-- It takes nothing. -/
def Re.empty {α : Type*} : Re α := .rep (.cls fun _ => false) 0 (some 0)

/-- At least one letter of a class, as many as there are. -/
def Re.plus {α : Type*} (p : α → Bool) : Re α := .rep (.cls p) 1 none

/-- `none` for a pattern outside this part of the syntax. -/
def compile : List Char → Option (Re Char)
  | [] => some .empty
  | '\\' :: c :: '+' :: s =>
    if escapable c then (compile s).map (.seq (.plus (· == c))) else none
  | '\\' :: c :: s => if escapable c then (compile s).map (.seq (.cls (· == c))) else none
  | '.' :: '+' :: s => (compile s).map (.seq (.plus anyChar))
  | '.' :: s => (compile s).map (.seq (.cls anyChar))
  | c :: '+' :: s => if special c then none else (compile s).map (.seq (.plus (· == c)))
  | c :: s => if special c then none else (compile s).map (.seq (.cls (· == c)))

/-- The groups of an expression, `mark_count`. -/
def Re.marks {α : Type*} : Re α → Nat
  | .cls _ => 0
  | .seq a b => a.marks + b.marks
  | .alt a b => a.marks + b.marks
  | .rep a _ _ => a.marks
  | .bol => 0
  | .eol => 0
  | .grp _ a => a.marks + 1

/-! ## What is taken -/

section Takes

variable {α : Type*} {len : Nat} {s t : List α}

/-- Some way leaves `t` of the text `s`. -/
def Takes (len : Nat) (r : Re α) (s t : List α) : Prop :=
  ∃ caps, (caps, t) ∈ ways len r s

theorem fullMatch_isSome {r : Re α} : (fullMatch r s).isSome = true ↔ Takes s.length r s [] := by
  constructor
  · intro h
    obtain ⟨caps, hcaps⟩ := Option.isSome_iff_exists.mp h
    exact ⟨caps, exists_way_of_fullMatch hcaps⟩
  · rintro ⟨caps, hcaps⟩
    unfold fullMatch
    rw [Option.isSome_map, List.find?_isSome]
    exact ⟨(caps, []), hcaps, rfl⟩

theorem takes_cls {p : α → Bool} : Takes len (.cls p) s t ↔ ∃ c, p c = true ∧ s = c :: t := by
  unfold Takes
  simp only [ways, mem_clsWays]
  constructor
  · rintro ⟨caps, c, hc, hs, -⟩
    exact ⟨c, hc, hs⟩
  · rintro ⟨c, hc, hs⟩
    exact ⟨[], c, hc, hs, rfl⟩

theorem takes_seq {a b : Re α} :
    Takes len (.seq a b) s t ↔ ∃ u, Takes len a s u ∧ Takes len b u t := by
  constructor
  · rintro ⟨caps, h⟩
    obtain ⟨y, hy, z, hz, heq⟩ := mem_ways_seq.mp h
    rw [Prod.mk.injEq] at heq
    refine ⟨y.2, ⟨y.1, hy⟩, z.1, ?_⟩
    rw [heq.2]
    exact hz
  · rintro ⟨u, ⟨c, hc⟩, d, hd⟩
    exact ⟨c ++ d, mem_ways_seq.mpr ⟨(c, u), hc, (d, t), hd, rfl⟩⟩

theorem takes_alt {a b : Re α} : Takes len (.alt a b) s t ↔ Takes len a s t ∨ Takes len b s t := by
  unfold Takes
  simp only [ways, List.mem_append, exists_or]

theorem takes_grp {n : Nat} {a : Re α} : Takes len (.grp n a) s t ↔ Takes len a s t := by
  constructor
  · rintro ⟨caps, h⟩
    obtain ⟨y, hy, heq⟩ := mem_ways_grp.mp h
    rw [Prod.mk.injEq] at heq
    refine ⟨y.1, ?_⟩
    rw [heq.2]
    exact hy
  · rintro ⟨caps, h⟩
    exact ⟨_, mem_ways_grp.mpr ⟨(caps, t), h, rfl⟩⟩

theorem takes_eol : Takes len (.eol : Re α) s t ↔ s = [] ∧ t = [] := by
  unfold Takes
  by_cases h : s = []
  · simp [ways, h]
  · simp [ways, h]

theorem takes_empty : Takes len (.empty : Re α) s t ↔ s = t := by
  unfold Takes Re.empty
  simp [ways, reps, eq_comm]

theorem takes_plus {p : α → Bool} :
    Takes len (.plus p) s t ↔ ∃ u, u ≠ [] ∧ (∀ c ∈ u, p c = true) ∧ s = u ++ t := by
  unfold Takes Re.plus
  simp only [ways, mem_reps_cls, Option.getD_none]
  constructor
  · rintro ⟨caps, k, hlo, -, hlen, heq⟩
    rw [Prod.mk.injEq] at heq
    refine ⟨s.take k, ?_, ?_, ?_⟩
    · have := (List.takeWhile_prefix (l := s) p).length_le
      apply List.ne_nil_of_length_pos
      rw [List.length_take]
      omega
    · intro c hc
      have htake : s.take k = (s.takeWhile p).take k := by
        rw [← take_min_takeWhile, Nat.min_eq_left hlen]
      rw [htake] at hc
      exact List.mem_takeWhile_imp (List.mem_of_mem_take hc)
    · rw [heq.2, List.take_append_drop]
  · rintro ⟨u, hu, hp, rfl⟩
    have hpos := List.length_pos_iff.mpr hu
    refine ⟨[], u.length, by omega, by rw [List.length_append]; omega, ?_, ?_⟩
    · rw [List.takeWhile_append_of_pos hp, List.length_append]
      omega
    · rw [List.drop_left]

/-- Once is enough for a `+`. -/
theorem takes_once {a : Re α} (hs : s ≠ []) (h : Takes len a s t) :
    Takes len (.rep a 1 none) s t := by
  obtain ⟨caps, hcaps⟩ := h
  have hstop : ∀ k, ([], t) ∈ reps (ways len a) 0 k t := by
    intro k
    cases k <;> simp [reps]
  cases s with
  | nil => exact absurd rfl hs
  | cons c s =>
    refine ⟨caps ++ [], ?_⟩
    rw [ways, Option.getD_none, List.length_cons, reps, List.mem_append, List.mem_flatMap]
    left
    exact ⟨(caps, t), hcaps, List.mem_map.mpr ⟨([], t), hstop _, rfl⟩⟩

/-- One letter after another, each of its own class. -/
def Re.letters {ι : Type*} (p : ι → α → Bool) : List ι → Re α
  | [] => .empty
  | i :: is => .seq (.cls (p i)) (letters p is)

theorem takes_letters {ι : Type*} {p : ι → α → Bool} {is : List ι} :
    Takes len (.letters p is) s t ↔
      ∃ w, List.Forall₂ (fun i c => p i c = true) is w ∧ s = w ++ t := by
  induction is generalizing s with
  | nil =>
    rw [Re.letters, takes_empty]
    constructor
    · rintro rfl
      exact ⟨[], .nil, rfl⟩
    · rintro ⟨w, hw, rfl⟩
      cases hw
      rfl
  | cons i is ih =>
    simp only [Re.letters, takes_seq, takes_cls, ih]
    constructor
    · rintro ⟨u, ⟨c, hc, rfl⟩, w, hw, rfl⟩
      exact ⟨c :: w, .cons hc hw, rfl⟩
    · rintro ⟨w, hw, rfl⟩
      cases hw with
      | cons hc hw => exact ⟨_, ⟨_, hc, rfl⟩, _, hw, rfl⟩

end Takes

/-- The letters that a letter or a `.` of a pattern stands for. -/
def letterOf (d c : Char) : Bool := if d = '.' then anyChar c else c == d

/-- A text of letters and dots is its own pattern. -/
theorem compile_letters {s : List Char} (hs : ∀ c ∈ s, c = '.' ∨ special c = false) :
    compile s = some (.letters letterOf s) := by
  have hplus : ∀ t : List Char, (∀ c ∈ t, c = '.' ∨ special c = false) → ∀ u, t ≠ '+' :: u := by
    rintro t ht u rfl
    have := ht '+' (by simp)
    revert this
    decide
  induction s with
  | nil => rfl
  | cons d s ih =>
    have hd := hs d (by simp)
    have hrest : ∀ c ∈ s, c = '.' ∨ special c = false := fun c hc => hs c (by simp [hc])
    have hnp := hplus s hrest
    by_cases hdot : d = '.'
    · subst hdot
      rw [compile, ih hrest]
      · rfl
      · exact hnp
    · have hsp : special d = false := hd.resolve_left hdot
      have hback : d ≠ '\\' := by
        rintro rfl
        revert hsp
        decide
      rw [compile, ih hrest, hsp]
      · have hletter : letterOf d = fun c => c == d := by
          ext c
          rw [letterOf, if_neg hdot]
        simp [Re.letters, hletter]
      all_goals simp_all

end Regex
