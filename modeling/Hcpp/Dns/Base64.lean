import Hcpp.Dns.DnsHttps
import Hcpp.Lib.Base64Url

/-!
# `b64url_encode`

The loop gathers three bytes in `bits` and puts out four characters; behind it
one or two bytes may be left over.  It is the encoder of RFC 4648.
`b64urlEncodeWithin` is the function as it is safe to run: no sum and no shift
passes 32 bits, and no index passes the 64 characters.
-/

namespace Hcpp.Dns

open Base64Url

theorem b64At_eq : ∀ n < 64, b64At n = digit n := by decide +kernel

/-! ## The accumulator -/

section Bits

variable {a b c : Nat}

/-- Three bytes in `bits`. -/
def gathered (a b c : Nat) : Nat := a * 65536 + b * 256 + c

theorem b64At_first (ha : a < 256) (hb : b < 256) (hc : c < 256) :
    b64At (gathered a b c >>> 18) = digit1 a := by
  have h : gathered a b c / 2 ^ 18 = a / 4 := by
    unfold gathered
    omega
  rw [Nat.shiftRight_eq_div_pow, h, b64At_eq _ (by omega)]
  rfl

theorem b64At_second (hb : b < 256) (hc : c < 256) :
    b64At ((gathered a b c >>> 12) &&& 0x3f) = digit2 a b := by
  have h : gathered a b c / 2 ^ 12 % 2 ^ 6 = a % 4 * 16 + b / 16 := by
    unfold gathered
    omega
  rw [Nat.shiftRight_eq_div_pow, Nat.and_two_pow_sub_one_eq_mod _ 6, h, b64At_eq _ (by omega)]
  rfl

theorem b64At_third (hc : c < 256) :
    b64At ((gathered a b c >>> 6) &&& 0x3f) = digit3 b c := by
  have h : gathered a b c / 2 ^ 6 % 2 ^ 6 = b % 16 * 4 + c / 64 := by
    unfold gathered
    omega
  rw [Nat.shiftRight_eq_div_pow, Nat.and_two_pow_sub_one_eq_mod _ 6, h, b64At_eq _ (by omega)]
  rfl

theorem b64At_fourth : b64At (gathered a b c &&& 0x3f) = digit4 c := by
  have h : gathered a b c % 2 ^ 6 = c % 64 := by
    unfold gathered
    omega
  rw [Nat.and_two_pow_sub_one_eq_mod _ 6, h, b64At_eq _ (by omega)]
  rfl

end Bits

/-! ## The loop -/

section Loop

variable {a b c : Char} (dst : List Char)

/-- Two bytes are gathered; `bits` does not wrap. -/
theorem b64Loop_two (ha : a.toNat < 256) (hb : b.toNat < 256) (rest : List Char) :
    b64Loop (a :: b :: rest) 0 0 dst =
      b64Loop rest (gathered a.toNat b.toNat 0) 2 dst := by
  have h1 : ((0 + a.toNat) % 2 ^ 32) <<< 8 % 2 ^ 32 = a.toNat * 256 := by
    rw [Nat.shiftLeft_eq]
    omega
  have h2 : ((a.toNat * 256 + b.toNat) % 2 ^ 32) <<< 8 % 2 ^ 32 = gathered a.toNat b.toNat 0 := by
    rw [Nat.shiftLeft_eq]
    unfold gathered
    omega
  rw [b64Loop, if_neg (by decide), h1, b64Loop, if_neg (by decide), h2]

theorem b64Loop_three (ha : a.toNat < 256) (hb : b.toNat < 256) (hc : c.toNat < 256)
    (rest : List Char) :
    b64Loop (a :: b :: c :: rest) 0 0 dst =
      b64Loop rest 0 0 (dst ++ [digit1 a.toNat, digit2 a.toNat b.toNat, digit3 b.toNat c.toNat,
        digit4 c.toNat]) := by
  have h : (gathered a.toNat b.toNat 0 + c.toNat) % 2 ^ 32 =
      gathered a.toNat b.toNat c.toNat := by
    unfold gathered
    omega
  rw [b64Loop_two dst ha hb, b64Loop]
  simp only [h]
  rw [if_pos trivial, b64At_first ha hb hc, b64At_second hb hc, b64At_third hc, b64At_fourth]

theorem b64Loop_last_two (ha : a.toNat < 256) (hb : b.toNat < 256) :
    b64Loop [a, b] 0 0 dst =
      dst ++ [digit1 a.toNat, digit2 a.toNat b.toNat, digit3 b.toNat 0] := by
  have h : (gathered a.toNat b.toNat 0) <<< (16 - 8 * 2) % 2 ^ 32 =
      gathered a.toNat b.toNat 0 := by
    rw [Nat.shiftLeft_eq]
    unfold gathered
    omega
  rw [b64Loop_two dst ha hb, b64Loop, if_pos (by decide)]
  simp only [h]
  rw [if_neg (by decide), b64At_first ha hb (by decide), b64At_second hb (by decide),
    b64At_third (by decide), List.append_assoc]
  rfl

theorem b64Loop_last_one (ha : a.toNat < 256) :
    b64Loop [a] 0 0 dst = dst ++ [digit1 a.toNat, digit2 a.toNat 0] := by
  have h1 : ((0 + a.toNat) % 2 ^ 32) <<< 8 % 2 ^ 32 = a.toNat * 256 := by
    rw [Nat.shiftLeft_eq]
    omega
  have h2 : (a.toNat * 256) <<< (16 - 8 * 1) % 2 ^ 32 = gathered a.toNat 0 0 := by
    rw [Nat.shiftLeft_eq]
    unfold gathered
    omega
  rw [b64Loop, if_neg (by decide), h1, b64Loop, if_pos (by decide)]
  simp only [Nat.zero_add, h2]
  rw [if_pos trivial, b64At_first ha (by decide) (by decide), b64At_second (by decide) (by decide)]

/-- **The loop is the encoder**, three bytes at a time. -/
theorem b64Loop_encode (src : List Char) (h : ∀ c ∈ src, c.toNat < 256) :
    b64Loop src 0 0 dst = dst ++ encode src := by
  induction src using encode.induct generalizing dst with
  | case1 =>
    rw [b64Loop, if_neg (by decide), encode, List.append_nil]
  | case2 a => exact b64Loop_last_one dst (h a (by simp))
  | case3 a b => exact b64Loop_last_two dst (h a (by simp)) (h b (by simp))
  | case4 a b c rest ih =>
    rw [b64Loop_three dst (h a (by simp)) (h b (by simp)) (h c (by simp)),
      ih _ fun d hd => h d (by simp [hd]), encode, List.append_assoc]
    rfl

end Loop

/-- `b64url_encode` of bytes, but for very long strings. -/
theorem b64urlEncode_eq {src : List Char} (h : ∀ c ∈ src, c.toNat < 256)
    (hlen : src.length < (2 ^ 32 - 1) / 2) : b64urlEncode src = encode src := by
  rw [b64urlEncode, if_neg (by omega), b64Loop_encode [] src h, List.nil_append]

/-! ## The guarded encoder -/

/-- `bits += c` without a carry out of 32 bits. -/
def addWithin (bits c : Nat) : Outcome Nat :=
  if bits + c < 2 ^ 32 then .ret (bits + c) else .undefined

/-- `bits <<= k` that loses no bit. -/
def shlWithin (bits k : Nat) : Outcome Nat :=
  if bits <<< k < 2 ^ 32 then .ret (bits <<< k) else .undefined

/-- `b64[i]` of the 64 characters, without the NUL behind them. -/
def b64Within (i : Nat) : Outcome Char := if i < 64 then .ret (b64At i) else .undefined

def b64LoopWithin : List Char → Nat → Nat → List Char → Outcome (List Char)
  | [], bits, charCount, dst =>
    if charCount ≠ 0 then do
      let bits ← shlWithin bits (16 - 8 * charCount)
      let c1 ← b64Within (bits >>> 18)
      let c2 ← b64Within ((bits >>> 12) &&& 0x3f)
      if charCount = 1 then .ret (dst ++ [c1, c2])
      else do
        let c3 ← b64Within ((bits >>> 6) &&& 0x3f)
        .ret (dst ++ [c1, c2] ++ [c3])
    else .ret dst
  | c :: src, bits, charCount, dst => do
    let bits ← addWithin bits c.toNat
    if charCount + 1 = 3 then do
      let c1 ← b64Within (bits >>> 18)
      let c2 ← b64Within ((bits >>> 12) &&& 0x3f)
      let c3 ← b64Within ((bits >>> 6) &&& 0x3f)
      let c4 ← b64Within (bits &&& 0x3f)
      b64LoopWithin src 0 0 (dst ++ [c1, c2, c3, c4])
    else do
      let bits ← shlWithin bits 8
      b64LoopWithin src bits (charCount + 1) dst

def b64urlEncodeWithin (src : List Char) : Outcome (List Char) :=
  if src.length ≥ (2 ^ 32 - 1) / 2 then .ret [] else b64LoopWithin src 0 0 []

/-- The accumulator at the head of the loop: the bytes that are gathered, and eight bits free
for one more. -/
structure Gathers (bits charCount : Nat) : Prop where
  lt : charCount < 3
  free : bits % 256 = 0
  fits : bits < 256 ^ (charCount + 1)

section Within

variable {bits charCount : Nat}

theorem gathers_zero : Gathers 0 0 := ⟨by decide, rfl, by decide⟩

theorem Gathers.lt_pow (h : Gathers bits charCount) : bits < 2 ^ 24 := by
  have hpow : 256 ^ (charCount + 1) ≤ 256 ^ 3 := Nat.pow_le_pow_right (by decide) h.lt
  have hfits := h.fits
  omega

/-- The next byte goes into the bits that are free. -/
theorem Gathers.add {c : Nat} (h : Gathers bits charCount) (hc : c < 256) :
    bits + c < 256 ^ (charCount + 1) := by
  have hfits := h.fits
  have hfree := h.free
  rw [Nat.pow_succ] at hfits ⊢
  omega

/-- Eight bits are freed again while fewer than three bytes are gathered. -/
theorem Gathers.shift {c : Nat} (h : Gathers bits charCount) (hc : c < 256)
    (hcount : charCount + 1 ≠ 3) : Gathers ((bits + c) <<< 8) (charCount + 1) := by
  have hlt := h.lt
  have hadd := h.add hc
  refine ⟨by omega, ?_, ?_⟩
  · rw [Nat.shiftLeft_eq]
    omega
  · rw [Nat.shiftLeft_eq, Nat.pow_succ]
    omega

theorem Gathers.last (h : Gathers bits charCount) (hcount : charCount ≠ 0) :
    bits <<< (16 - 8 * charCount) < 2 ^ 24 := by
  have hfits := h.fits
  rw [Nat.shiftLeft_eq]
  obtain rfl | rfl : charCount = 1 ∨ charCount = 2 := by
    have hlt := h.lt
    omega
  · omega
  · omega

/-- The indices of 24 bits are below 64. -/
theorem b64Within_first (h : bits < 2 ^ 24) :
    b64Within (bits >>> 18) = .ret (b64At (bits >>> 18)) := by
  apply if_pos
  rw [Nat.shiftRight_eq_div_pow]
  omega

theorem b64Within_six (bits : Nat) :
    b64Within (bits &&& 0x3f) = .ret (b64At (bits &&& 0x3f)) :=
  if_pos (by rw [Nat.and_two_pow_sub_one_eq_mod _ 6]; omega)

/-- **No turn leaves 32 bits or the table.** -/
theorem b64LoopWithin_eq {src : List Char} (h : ∀ c ∈ src, c.toNat < 256) (dst : List Char)
    (hg : Gathers bits charCount) :
    b64LoopWithin src bits charCount dst = .ret (b64Loop src bits charCount dst) := by
  induction src generalizing bits charCount dst with
  | nil =>
    rw [b64LoopWithin, b64Loop]
    by_cases hcount : charCount = 0
    · rw [if_neg (not_not.mpr hcount), if_neg (not_not.mpr hcount)]
    · have hlast := hg.last hcount
      have hshl : shlWithin bits (16 - 8 * charCount) = .ret (bits <<< (16 - 8 * charCount)) :=
        if_pos (by omega)
      rw [if_pos hcount, if_pos hcount, hshl, Outcome.ret_bind, b64Within_first hlast,
        Outcome.ret_bind, b64Within_six, Outcome.ret_bind, b64Within_six, Outcome.ret_bind]
      simp only [Nat.mod_eq_of_lt (show bits <<< (16 - 8 * charCount) < 2 ^ 32 by omega)]
      split <;> rfl
  | cons c src ih =>
    rw [List.forall_mem_cons] at h
    have hlt := hg.lt_pow
    have hadd : addWithin bits c.toNat = .ret (bits + c.toNat) := if_pos (by omega)
    have hmod : (bits + c.toNat) % 2 ^ 32 = bits + c.toNat := Nat.mod_eq_of_lt (by omega)
    rw [b64LoopWithin, b64Loop, hadd, Outcome.ret_bind, hmod]
    by_cases hcount : charCount + 1 = 3
    · have hbits : bits + c.toNat < 2 ^ 24 := by
        have hfull := hg.add h.1
        rw [hcount] at hfull
        exact hfull
      rw [if_pos hcount, if_pos hcount, b64Within_first hbits, Outcome.ret_bind, b64Within_six,
        Outcome.ret_bind, b64Within_six, Outcome.ret_bind, b64Within_six, Outcome.ret_bind]
      exact ih h.2 _ gathers_zero
    · have hnext := hg.shift h.1 hcount
      have hfits := hnext.lt_pow
      have hshl : shlWithin (bits + c.toNat) 8 = .ret ((bits + c.toNat) <<< 8) :=
        if_pos (by omega)
      rw [if_neg hcount, if_neg hcount, hshl, Outcome.ret_bind, Nat.mod_eq_of_lt (by omega)]
      exact ih h.2 dst hnext

end Within

/-! ## What the encoder returns -/

/-- The text of `src`: the encoder of RFC 4648 makes it and its decoder takes it back, no other
bytes have it, and nothing overflows or is read outside the table while it is made. -/
structure EncodesExactly (src : List Char) : Prop where
  within : b64urlEncodeWithin src = .ret (b64urlEncode src)
  text : b64urlEncode src = encode src
  back : decode (b64urlEncode src) = some src
  length : (b64urlEncode src).length = 4 * src.length ⌈/⌉ 3
  inAlphabet : ∀ c ∈ b64urlEncode src, c ∈ alphabet
  injective : ∀ other : List Char, (∀ c ∈ other, c.toNat < 256) → other.length < 2 ^ 31 - 1 →
    b64urlEncode other = b64urlEncode src → other = src

/-- **`b64url_encode` is exact.** -/
theorem b64urlEncode_exact (src : List Char) (h : ∀ c ∈ src, c.toNat < 256)
    (hlen : src.length < 2 ^ 31 - 1) : EncodesExactly src where
  within := by
    rw [b64urlEncodeWithin, b64urlEncode, if_neg (by omega), if_neg (by omega)]
    exact b64LoopWithin_eq h [] gathers_zero
  text := b64urlEncode_eq h (by omega)
  back := by
    rw [b64urlEncode_eq h (by omega)]
    exact decode_encode src h
  length := by
    rw [b64urlEncode_eq h (by omega)]
    exact length_encode src
  inAlphabet := by
    rw [b64urlEncode_eq h (by omega)]
    exact mem_alphabet h
  injective := by
    intro other hother hshort heq
    rw [b64urlEncode_eq h (by omega), b64urlEncode_eq hother (by omega)] at heq
    exact encode_inj hother h heq

/-- One byte is left over. -/
theorem b64urlEncode_exact_four :
    b64urlEncode "hcpp".toList = "aGNwcA".toList ∧ EncodesExactly "hcpp".toList :=
  ⟨by decide, b64urlEncode_exact "hcpp".toList (by decide) (by decide)⟩

end Hcpp.Dns
