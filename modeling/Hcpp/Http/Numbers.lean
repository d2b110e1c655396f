import Hcpp.Http.HttpMsg

/-!
# The value of a text of digits

Bounds of `stoul` by the number of digits.
-/

namespace Hcpp

theorem stoul_eq_zero {base : Nat} {s : List Char} (h : ∀ c ∈ s, c = '0') : stoul base s = 0 := by
  unfold stoul
  induction s with
  | nil => rfl
  | cons c s ih =>
    have h0 : 0 * base + digitVal '0' = 0 := by simp [digitVal]
    rw [List.foldl_cons, h c (by simp), h0]
    exact ih fun d hd => h d (by simp [hd])

theorem le_foldl_digits (base n : Nat) (s : List Char) :
    n * base ^ s.length ≤ s.foldl (fun n c => n * base + digitVal c) n := by
  induction s generalizing n with
  | nil => simp
  | cons c s ih =>
    rw [List.foldl_cons, List.length_cons, Nat.pow_succ']
    calc n * (base * base ^ s.length) = n * base * base ^ s.length := by rw [Nat.mul_assoc]
      _ ≤ (n * base + digitVal c) * base ^ s.length :=
        Nat.mul_le_mul_right _ (Nat.le_add_right _ _)
      _ ≤ _ := ih _

/-- The three ranges of hexadecimal digits, and their values. -/
theorem hex_cases {c : Char} (h : isHex c = true) :
    (48 ≤ c.toNat ∧ c.toNat ≤ 57 ∧ digitVal c = c.toNat - 48) ∨
      (65 ≤ c.toNat ∧ c.toNat ≤ 70 ∧ digitVal c = c.toNat - 55) ∨
      (97 ≤ c.toNat ∧ c.toNat ≤ 102 ∧ digitVal c = c.toNat - 87) := by
  simp only [isHex, isDigit, Bool.or_eq_true, decide_eq_true_eq, Char.le_def,
    UInt32.le_iff_toNat_le] at h
  unfold digitVal
  simp only [Char.le_def, UInt32.le_iff_toNat_le]
  have hval : c.val.toNat = c.toNat := rfl
  have h9 : ('9' : Char).val.toNat = 57 := rfl
  have h0 : ('0' : Char).val.toNat = 48 := rfl
  have hA : ('A' : Char).val.toNat = 65 := rfl
  have hF : ('F' : Char).val.toNat = 70 := rfl
  have ha : ('a' : Char).val.toNat = 97 := rfl
  have hf : ('f' : Char).val.toNat = 102 := rfl
  rw [hval, h0, h9, hA, hF, ha, hf] at h
  rw [hval, h9, hF]
  by_cases h1 : c.toNat ≤ 57
  · rw [if_pos h1]
    omega
  · rw [if_neg h1]
    by_cases h2 : c.toNat ≤ 70
    · rw [if_pos h2]
      omega
    · rw [if_neg h2]
      omega

theorem digitVal_pos {c : Char} (h : isHex c = true) (h0 : c ≠ '0') : 0 < digitVal c := by
  have hne : c.toNat ≠ 48 := by
    intro h48
    apply h0
    have := Char.ofNat_toNat c
    rw [h48] at this
    exact this.symm
  rcases hex_cases h with h | h | h <;> omega

/-- A number without a leading 0 is at least a power of its length. -/
theorem le_stoul_cons (base : Nat) {d : Char} (ds : List Char) (hd : isHex d = true)
    (hd0 : d ≠ '0') : base ^ ds.length ≤ stoul base (d :: ds) := by
  have hpos := digitVal_pos hd hd0
  have hval : stoul base (d :: ds) = ds.foldl (fun n c => n * base + digitVal c) (digitVal d) := by
    unfold stoul
    rw [List.foldl_cons, Nat.zero_mul, Nat.zero_add]
  calc base ^ ds.length ≤ digitVal d * base ^ ds.length := Nat.le_mul_of_pos_left _ hpos
    _ ≤ stoul base (d :: ds) := by
      rw [hval]
      exact le_foldl_digits base (digitVal d) ds

/-- Only digits 0 have the value 0. -/
theorem eq_zero_of_stoul {base : Nat} (hbase : 0 < base) {s : List Char}
    (h : ∀ c ∈ s, isHex c = true) (h0 : stoul base s = 0) : ∀ c ∈ s, c = '0' := by
  induction s with
  | nil => simp
  | cons c s ih =>
    have hc : c = '0' := by
      by_contra hc
      have hle := le_stoul_cons base s (h c (by simp)) hc
      have hpos : 0 < base ^ s.length := Nat.pow_pos hbase
      omega
    subst hc
    have hs : stoul base ('0' :: s) = stoul base s := by
      unfold stoul
      rw [List.foldl_cons, Nat.zero_mul]
      rfl
    rw [hs] at h0
    intro d hd
    rcases List.mem_cons.mp hd with rfl | hd
    · rfl
    · exact ih (fun d hd => h d (by simp [hd])) h0 d hd

/-- A number is below the power of its length. -/
theorem stoul_lt {base : Nat} {s : List Char} (h : ∀ c ∈ s, digitVal c < base) :
    stoul base s < base ^ s.length := by
  have hfold : ∀ n, s.foldl (fun n c => n * base + digitVal c) n < (n + 1) * base ^ s.length := by
    induction s with
    | nil => simp
    | cons c s ih =>
      intro n
      have hc := h c (by simp)
      have hle : n * base + digitVal c + 1 ≤ (n + 1) * base := by
        rw [Nat.add_mul, Nat.one_mul]
        omega
      rw [List.foldl_cons, List.length_cons, Nat.pow_succ']
      calc s.foldl (fun n c => n * base + digitVal c) (n * base + digitVal c)
          < (n * base + digitVal c + 1) * base ^ s.length := ih (fun d hd => h d (by simp [hd])) _
        _ ≤ (n + 1) * base * base ^ s.length := Nat.mul_le_mul_right _ hle
        _ = (n + 1) * (base * base ^ s.length) := by rw [Nat.mul_assoc]
  have h1 := hfold 0
  rw [Nat.zero_add, Nat.one_mul] at h1
  exact h1

theorem isHex_of_isDigit {c : Char} (h : isDigit c = true) : isHex c = true := by
  simp [isHex, h]

theorem digitVal_lt {c : Char} (h : isDigit c = true) : digitVal c < 10 := by
  have hle : c.toNat ≤ 57 := by
    simp only [isDigit, decide_eq_true_eq, Char.le_def, UInt32.le_iff_toNat_le] at h
    exact h.2
  rcases hex_cases (isHex_of_isDigit h) with h | h | h <;> omega

theorem digitVal_lt_hex {c : Char} (h : isHex c = true) : digitVal c < 16 := by
  rcases hex_cases h with h | h | h <;> omega

/-- A reader that takes 0 for a number with a leading 0, and `k` more digits of any other
one, is right about those that are all 0 and those of at most `k + 1` digits. -/
theorem stoul_take_eq_iff {base k : Nat} (hbase : 1 < base) {c : Char} {ds : List Char}
    (hhex : ∀ d ∈ c :: ds, isHex d = true) (hlt : ∀ d ∈ c :: ds, digitVal d < base) :
    (if c = '0' then 0 else stoul base (c :: ds.take k)) = stoul base (c :: ds) ↔
      (∀ d ∈ c :: ds, d = '0') ∨ (c :: ds).head? ≠ some '0' ∧ (c :: ds).length ≤ k + 1 := by
  by_cases h0 : c = '0'
  · rw [if_pos h0]
    constructor
    · intro h
      exact .inl (eq_zero_of_stoul (by omega) hhex h.symm)
    · rintro (h | ⟨h, -⟩)
      · exact (stoul_eq_zero h).symm
      · exact absurd (by rw [h0]; rfl) h
  · rw [if_neg h0]
    constructor
    · intro h
      refine .inr ⟨by simpa using h0, ?_⟩
      by_contra hlen
      rw [List.length_cons] at hlen
      -- the whole number is at least the power that bounds its beginning
      have hlow := le_stoul_cons base ds (hhex c (by simp)) h0
      have hhigh : stoul base (c :: ds.take k) < base ^ (c :: ds.take k).length := by
        apply stoul_lt
        intro d hd
        rcases List.mem_cons.mp hd with rfl | hd
        · exact hlt d (by simp)
        · exact hlt d (by simp [List.mem_of_mem_take hd])
      have hcut : (c :: ds.take k).length = k + 1 := by
        rw [List.length_cons, List.length_take]
        omega
      have hpow : base ^ (k + 1) ≤ base ^ ds.length := Nat.pow_le_pow_right (by omega) (by omega)
      rw [hcut] at hhigh
      omega
    · rintro (h | ⟨-, hlen⟩)
      · exact absurd (h c (by simp)) h0
      · rw [List.length_cons] at hlen
        rw [List.take_of_length_le (by omega)]

/-- What is written in decimal is read back. -/
theorem stoul_toDigits (n : Nat) : stoul 10 (Nat.toDigits 10 n) = n := by
  have hdigit : ∀ d < 10, digitVal d.digitChar = d := by decide
  induction n using Nat.strong_induction_on with
  | _ n ih =>
    by_cases hn : n < 10
    · rw [Nat.toDigits_of_lt_base hn]
      show 0 * 10 + digitVal n.digitChar = n
      rw [hdigit n hn]
      omega
    · have hlast := hdigit (n % 10) (Nat.mod_lt _ (by decide))
      have hfront := ih (n / 10) (by omega)
      unfold stoul at hfront
      rw [Nat.toDigits_of_base_le (by decide) (by omega)]
      show (Nat.toDigits 10 (n / 10) ++ [(n % 10).digitChar]).foldl
        (fun n c => n * 10 + digitVal c) 0 = n
      rw [List.foldl_append, hfront]
      show n / 10 * 10 + digitVal (n % 10).digitChar = n
      rw [hlast]
      omega

/-- The digits of a number are digits. -/
theorem isDigit_toDigits {n : Nat} {c : Char} (h : c ∈ Nat.toDigits 10 n) : isDigit c = true := by
  have hc := Nat.isDigit_of_mem_toDigits (by decide) (by decide) h
  simpa [isDigit, Char.isDigit, Char.le_def] using hc

end Hcpp
