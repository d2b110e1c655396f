import Hcpp.Mem.TransferEnds

/-!
# More fuel

A loop that is out of fuel `spins`.  More fuel changes nothing else: `Below` is
that order on outcomes, and every loop climbs it (`Fueled`).  So a loop comes to
one outcome at most, and a sequence of loops ends as its parts do
(`ends_bind_ret`, `ends_bind_throws`, `not_ends_bind`).
-/

namespace Hcpp

namespace Outcome

variable {α β : Type}

/-- `y` is what came of `x`, or `x` is still looping. -/
def Below (x y : Outcome α) : Prop := x = .spins ∨ x = y

namespace Below

variable {x y : Outcome α}

theorem refl (x : Outcome α) : x.Below x := .inr rfl

theorem spins (y : Outcome α) : Below .spins y := .inl rfl

theorem bind {f g : α → Outcome β} (hxy : x.Below y) (hfg : ∀ a, (f a).Below (g a)) :
    (x >>= f).Below (y >>= g) := by
  rcases hxy with rfl | rfl
  · rw [spins_bind]
    exact spins _
  · cases x with
    | ret a =>
      rw [ret_bind, ret_bind]
      exact hfg a
    | throws => exact refl _
    | spins => exact refl _
    | undefined => exact refl _

theorem ite (c : Prop) [Decidable c] {x' y' : Outcome α} (hx : x.Below x') (hy : y.Below y') :
    (if c then x else y).Below (if c then x' else y') := by
  by_cases hc : c
  · rw [if_pos hc, if_pos hc]
    exact hx
  · rw [if_neg hc, if_neg hc]
    exact hy

end Below

end Outcome

open Outcome

section Fueled

variable {α β : Type}

/-- More fuel changes only what is still looping. -/
def Fueled (g : Nat → Outcome α) : Prop := ∀ n, (g n).Below (g (n + 1))

theorem Fueled.const (x : Outcome α) : Fueled fun _ => x := fun _ => .refl x

theorem Fueled.bind {x : Nat → Outcome α} {k : Nat → α → Outcome β} (hx : Fueled x)
    (hk : ∀ a, Fueled fun n => k n a) : Fueled fun n => x n >>= k n :=
  fun n => (hx n).bind fun a => hk a n

theorem Fueled.ite (c : Prop) [Decidable c] {g k : Nat → Outcome α} (hg : Fueled g)
    (hk : Fueled k) : Fueled fun n => if c then g n else k n :=
  fun n => .ite c (hg n) (hk n)

variable {g : Nat → Outcome α} {n m : Nat}

theorem Fueled.of_le (hg : Fueled g) (hn : g n ≠ .spins) (h : n ≤ m) : g m = g n := by
  induction m, h using Nat.le_induction with
  | base => rfl
  | succ m _ ih =>
    rcases hg m with hspin | heq
    · rw [ih] at hspin
      exact absurd hspin hn
    · rw [← heq, ih]

/-- A loop comes to one outcome at most. -/
theorem Fueled.unique (hg : Fueled g) (hn : g n ≠ .spins) (hm : g m ≠ .spins) : g n = g m := by
  rcases Nat.le_total n m with h | h
  · exact (hg.of_le hn h).symm
  · exact hg.of_le hm h

theorem ends_const {x : Outcome α} : Ends (fun _ => x) ↔ x ≠ .spins ∧ x ≠ .undefined := by
  constructor
  · rintro ⟨n, h⟩
    exact h
  · intro h
    exact ⟨0, h⟩

/-- What ends returns or throws. -/
theorem Ends.cases (hg : Ends g) : (∃ n, g n = .throws) ∨ ∃ n a, g n = .ret a := by
  obtain ⟨n, hspin, hundef⟩ := hg
  cases hgn : g n with
  | ret a => exact .inr ⟨n, a, hgn⟩
  | throws => exact .inl ⟨n, hgn⟩
  | spins => exact absurd hgn hspin
  | undefined => exact absurd hgn hundef

variable {k : Nat → α → Outcome β}

theorem not_ends_bind (hg : ¬ Ends g) : ¬ Ends fun n => g n >>= k n := by
  rintro ⟨n, hspin, hundef⟩
  apply hg
  refine ⟨n, fun h => hspin ?_, fun h => hundef ?_⟩
  · show g n >>= k n = _
    rw [h, spins_bind]
  · show g n >>= k n = _
    rw [h, undefined_bind]

theorem ends_bind_throws (h : g n = .throws) : Ends fun n => g n >>= k n := by
  refine ⟨n, ?_⟩
  show g n >>= k n ≠ _ ∧ g n >>= k n ≠ _
  rw [h, throws_bind]
  exact throws_ends

/-- What is done with a result at once does not count. -/
theorem ends_bind_pure {k : α → β} : Ends (fun n => g n >>= fun a => .ret (k a)) ↔ Ends g := by
  refine exists_congr fun n => ?_
  show (g n >>= fun a => .ret (k a)) ≠ _ ∧ (g n >>= fun a => .ret (k a)) ≠ _ ↔ _
  cases g n with
  | ret a => simp
  | throws => simp
  | spins => simp
  | undefined => simp

/-- Behind a loop that returned the rest decides. -/
theorem ends_bind_ret {a : α} (hg : Fueled g) (h : g n = .ret a) (hk : Fueled fun n => k n a) :
    Ends (fun n => g n >>= k n) ↔ Ends fun n => k n a := by
  have hn : g n ≠ .spins := by
    rw [h]
    exact (ret_ends a).1
  constructor
  · rintro ⟨m, hm⟩
    change g m >>= k m ≠ _ ∧ g m >>= k m ≠ _ at hm
    have hgm : g m ≠ .spins := by
      intro hspin
      rw [hspin, spins_bind] at hm
      exact hm.1 rfl
    rw [← hg.unique hn hgm, h, ret_bind] at hm
    exact ⟨m, hm⟩
  · rintro ⟨m, hm⟩
    have hmax := hk.of_le hm.1 (Nat.le_max_right n m)
    refine ⟨max n m, ?_⟩
    show g (max n m) >>= k (max n m) ≠ _ ∧ g (max n m) >>= k (max n m) ≠ _
    rw [hg.of_le hn (Nat.le_max_left n m), h, ret_bind, hmax]
    exact hm

end Fueled

/-! ## The two transfers -/

theorem fueled_transferMemLoop (total : Nat) (from_ to_ : Memory) (nx : Nat) :
    Fueled fun fuel => transferMemLoop total fuel from_ to_ nx := by
  intro fuel
  induction fuel generalizing from_ to_ nx with
  | zero => exact .spins _
  | succ fuel ih =>
    simp only [transferMemLoop]
    exact .ite _ (.bind (.refl _) fun x => ih _ _ _) (.refl _)

theorem fueled_transferMem (from_ to_ : Memory) (total : Nat) :
    Fueled fun fuel => transferMem fuel from_ to_ total := by
  simp only [transferMem]
  exact .ite _ (fueled_transferMemLoop _ _ _ _) (fueled_transferMemLoop _ _ _ _)

theorem fueled_transferMemUntilLoop (pattern : List Char) (from_ to_ : Memory) (kmp : Kmp)
    (somStr : List Char) (checkedLen n : Nat) :
    Fueled fun fuel => transferMemUntilLoop pattern fuel from_ to_ kmp somStr checkedLen n := by
  intro fuel
  induction fuel generalizing from_ to_ kmp somStr checkedLen n with
  | zero => exact .spins _
  | succ fuel ih =>
    simp only [transferMemUntilLoop]
    refine .bind (.refl _) fun y => .bind (.refl _) fun x => ?_
    obtain ⟨kmp', p⟩ := x
    exact .ite _ (ih _ _ _ _ _ _) (.refl _)

theorem fueled_transferMemUntil (from_ to_ : Memory) (pattern : List Char) :
    Fueled fun fuel => transferMemUntil fuel from_ to_ pattern := by
  simp only [transferMemUntil]
  refine .bind (.const _) fun kmp => .bind (.const _) fun x => ?_
  obtain ⟨kmp', p⟩ := x
  exact .ite _ (.const _) (.ite _ (fueled_transferMemUntilLoop _ _ _ _ _ _ _) (.const _))

/-! ## What does not throw -/

section Throws

open Memory

variable {α β : Type}

theorem ret_ne_throws (a : α) : ret a ≠ .throws := by simp

theorem spins_ne_throws : (spins : Outcome α) ≠ .throws := by simp

theorem undefined_ne_throws : (undefined : Outcome α) ≠ .throws := by simp

theorem bind_ne_throws {x : Outcome α} {f : α → Outcome β} (hx : x ≠ .throws)
    (hf : ∀ a, f a ≠ .throws) : (x >>= f) ≠ .throws := by
  cases x with
  | ret a =>
    rw [ret_bind]
    exact hf a
  | throws => exact absurd rfl hx
  | spins => exact spins_ne_throws
  | undefined => exact undefined_ne_throws

theorem ite_ne_throws (c : Prop) [Decidable c] {x y : Outcome α} (hx : x ≠ .throws)
    (hy : y ≠ .throws) : (if c then x else y) ≠ .throws := by
  by_cases hc : c
  · rw [if_pos hc]
    exact hx
  · rw [if_neg hc]
    exact hy

theorem searchLoop_ne_throws (kmp : Kmp) (text : List Char) (n : Int) (fuel i j : Nat) (mi : Int) :
    kmp.searchLoop text n fuel i j mi ≠ .throws := by
  induction fuel generalizing i j mi with
  | zero => exact spins_ne_throws
  | succ fuel ih =>
    rw [Kmp.searchLoop]
    refine ite_ne_throws _ (ite_ne_throws _ (ret_ne_throws _) ?_) (ret_ne_throws _)
    exact ite_ne_throws _ (ite_ne_throws _ (ih _ _ _) (ih _ _ _)) (ih _ _ _)

theorem search_ne_throws (kmp : Kmp) (text : List Char) : kmp.search text ≠ .throws := by
  rw [Kmp.search]
  refine bind_ne_throws (searchLoop_ne_throws _ _ _ _ _ _ _) fun x => ?_
  obtain ⟨matched, i, j, mi⟩ := x
  cases matched <;> exact ret_ne_throws _

theorem loadSome_ne_throws {m : Memory} {maxN : Nat} (hmax : maxN ≤ maxSize) :
    m.asyncLoadSome maxN ≠ .throws := by
  rw [asyncLoadSome_of_le hmax]
  exact ret_ne_throws _

theorem loadUntil_ne_throws {m : Memory} {d : List Char} (hd : d.length ≤ 512) :
    m.asyncLoadUntil d ≠ .throws := by
  rw [asyncLoadUntil, if_neg (by omega)]
  split
  · exact ret_ne_throws _
  · split <;> exact ret_ne_throws _

theorem untilLoop_ne_throws {pattern : List Char} (fuel : Nat) (self to_ : Memory) (kmp : Kmp)
    (somStr : List Char) (checkedLen n : Nat) :
    transferMemUntilLoop pattern fuel self to_ kmp somStr checkedLen n ≠ .throws := by
  induction fuel generalizing self to_ kmp somStr checkedLen n with
  | zero => exact spins_ne_throws
  | succ fuel ih =>
    rw [transferMemUntilLoop]
    refine bind_ne_throws (loadSome_ne_throws (by decide)) fun y => ?_
    refine bind_ne_throws (search_ne_throws _ _) fun x => ?_
    obtain ⟨kmp', p⟩ := x
    exact ite_ne_throws _ (ih _ _ _ _ _ _) (ret_ne_throws _)

theorem transferMemLoop_ne_throws {total : Nat} (fuel : Nat) (self to_ : Memory) (nx : Nat)
    (hmax : total - nx ≤ maxSize) : transferMemLoop total fuel self to_ nx ≠ .throws := by
  induction fuel generalizing self to_ nx with
  | zero => exact spins_ne_throws
  | succ fuel ih =>
    rw [transferMemLoop]
    refine ite_ne_throws _ (bind_ne_throws (loadSome_ne_throws hmax) fun y => ?_) (ret_ne_throws _)
    exact ih _ _ _ (by omega)

/-- A counted transfer throws if and only if its first read is refused. -/
theorem transferMem_throws_iff {from_ : Memory} {f : Feed Char} (h : from_.Represents f)
    (to_ : Memory) (total : Nat) :
    (∃ fuel, transferMem fuel from_ to_ total = .throws) ↔ Oversized f total := by
  constructor
  · rintro ⟨fuel, hthrows⟩
    obtain ⟨-, hget, -, -⟩ := h.merge
    by_contra hsmall
    unfold Oversized at hsmall
    unfold transferMem at hthrows
    simp only [hget] at hthrows
    by_cases hc : 0 < total ∧ 0 < f.cached.length
    · rw [if_pos hc] at hthrows
      refine transferMemLoop_ne_throws _ _ _ _ ?_ hthrows
      split
      · rw [List.length_take]
        omega
      · omega
    · rw [if_neg hc] at hthrows
      exact transferMemLoop_ne_throws _ _ _ _ (by omega) hthrows
  · intro hbig
    exact ⟨1, transferMem_throws h hbig Nat.one_pos⟩

/-- A transfer up to the end of a head does not throw: its pattern is short. -/
theorem transferMemUntil_ne_throws (fuel : Nat) (self to_ : Memory) :
    transferMemUntil fuel self to_ crlfcrlf ≠ .throws := by
  rw [transferMemUntil]
  refine bind_ne_throws (by decide) fun kmp => bind_ne_throws (search_ne_throws _ _) fun x => ?_
  obtain ⟨kmp', p⟩ := x
  refine ite_ne_throws _ (bind_ne_throws (loadUntil_ne_throws (by decide)) fun y => ?_) ?_
  · exact ret_ne_throws _
  exact ite_ne_throws _ (untilLoop_ne_throws _ _ _ _ _ _ _) (ret_ne_throws _)

end Throws

end Hcpp
