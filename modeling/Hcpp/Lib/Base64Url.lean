import Mathlib.Algebra.Order.Floor.Div
import Mathlib.Data.List.Basic
import Mathlib.Tactic.Common

/-!
# Base64 for URLs, without padding (RFC 4648, 5)

Three bytes are four digits of six bits.  One or two bytes that are left over
are two or three digits, the last of them with zeros behind its bits; `decode`
takes no other text.  Bytes are characters below 256.
-/

namespace Base64Url

def alphabet : List Char :=
  "ABCDEFGHIJKLMNOPQRSTUVWXYZabcdefghijklmnopqrstuvwxyz0123456789-_".toList

def digit (n : Nat) : Char := alphabet.getD n 'A'

def value (c : Char) : Option Nat :=
  if 'A' ≤ c ∧ c ≤ 'Z' then some (c.toNat - 65)
  else if 'a' ≤ c ∧ c ≤ 'z' then some (c.toNat - 97 + 26)
  else if '0' ≤ c ∧ c ≤ '9' then some (c.toNat - 48 + 52)
  else if c = '-' then some 62
  else if c = '_' then some 63
  else none

/-- The four digits of three bytes. -/
def digit1 (a : Nat) : Char := digit (a / 4)
def digit2 (a b : Nat) : Char := digit (a % 4 * 16 + b / 16)
def digit3 (b c : Nat) : Char := digit (b % 16 * 4 + c / 64)
def digit4 (c : Nat) : Char := digit (c % 64)

def encode : List Char → List Char
  | [] => []
  | [a] => [digit1 a.toNat, digit2 a.toNat 0]
  | [a, b] => [digit1 a.toNat, digit2 a.toNat b.toNat, digit3 b.toNat 0]
  | a :: b :: c :: rest =>
    digit1 a.toNat :: digit2 a.toNat b.toNat :: digit3 b.toNat c.toNat :: digit4 c.toNat ::
      encode rest

/-- The three bytes of four values. -/
def byte1 (p q : Nat) : Char := Char.ofNat (p * 4 + q / 16)
def byte2 (q r : Nat) : Char := Char.ofNat (q % 16 * 16 + r / 4)
def byte3 (r s : Nat) : Char := Char.ofNat (r % 4 * 64 + s)

def decode : List Char → Option (List Char)
  | [] => some []
  | [_] => none
  | [p, q] => do
    let p ← value p
    let q ← value q
    if q % 16 = 0 then some [byte1 p q] else none
  | [p, q, r] => do
    let p ← value p
    let q ← value q
    let r ← value r
    if r % 4 = 0 then some [byte1 p q, byte2 q r] else none
  | p :: q :: r :: s :: rest => do
    let p ← value p
    let q ← value q
    let r ← value r
    let s ← value s
    let t ← decode rest
    some (byte1 p q :: byte2 q r :: byte3 r s :: t)

theorem value_digit : ∀ n < 64, value (digit n) = some n := by decide +kernel

theorem digit_mem : ∀ n < 64, digit n ∈ alphabet := by decide +kernel

section Digits

variable {a b c : Nat}

theorem value_digit1 (ha : a < 256) : value (digit1 a) = some (a / 4) :=
  value_digit _ (by omega)

theorem value_digit2 (hb : b < 256) : value (digit2 a b) = some (a % 4 * 16 + b / 16) :=
  value_digit _ (by omega)

theorem value_digit3 (hc : c < 256) : value (digit3 b c) = some (b % 16 * 4 + c / 64) :=
  value_digit _ (by omega)

theorem value_digit4 : value (digit4 c) = some (c % 64) := value_digit _ (by omega)

theorem digit1_mem (ha : a < 256) : digit1 a ∈ alphabet := digit_mem _ (by omega)

theorem digit2_mem (hb : b < 256) : digit2 a b ∈ alphabet := digit_mem _ (by omega)

theorem digit3_mem (hc : c < 256) : digit3 b c ∈ alphabet := digit_mem _ (by omega)

theorem digit4_mem : digit4 c ∈ alphabet := digit_mem _ (by omega)

theorem byte1_digits (hb : b < 256) : byte1 (a / 4) (a % 4 * 16 + b / 16) = Char.ofNat a := by
  have h : a / 4 * 4 + (a % 4 * 16 + b / 16) / 16 = a := by omega
  rw [byte1, h]

theorem byte2_digits (hb : b < 256) (hc : c < 256) :
    byte2 (a % 4 * 16 + b / 16) (b % 16 * 4 + c / 64) = Char.ofNat b := by
  have h : (a % 4 * 16 + b / 16) % 16 * 16 + (b % 16 * 4 + c / 64) / 4 = b := by omega
  rw [byte2, h]

theorem byte3_digits (hc : c < 256) : byte3 (b % 16 * 4 + c / 64) (c % 64) = Char.ofNat c := by
  have h : (b % 16 * 4 + c / 64) % 4 * 64 + c % 64 = c := by omega
  rw [byte3, h]

end Digits

/-- **What was encoded is decoded.**  By induction over the groups of three bytes. -/
theorem decode_encode (s : List Char) (h : ∀ c ∈ s, c.toNat < 256) :
    decode (encode s) = some s := by
  induction s using encode.induct with
  | case1 => rfl
  | case2 a =>
    have ha : a.toNat < 256 := h a (by simp)
    have hbyte := byte1_digits (a := a.toNat) (show 0 < 256 by decide)
    have hzero : (a.toNat % 4 * 16 + 0 / 16) % 16 = 0 := by omega
    rw [Char.ofNat_toNat] at hbyte
    rw [encode, decode, value_digit1 ha, value_digit2 (by decide)]
    simp only [Option.bind_eq_bind, Option.bind_some, hzero, if_true, hbyte]
  | case3 a b =>
    have ha : a.toNat < 256 := h a (by simp)
    have hb : b.toNat < 256 := h b (by simp)
    have hbyte1 := byte1_digits (a := a.toNat) hb
    have hbyte2 := byte2_digits (a := a.toNat) hb (show 0 < 256 by decide)
    have hzero : (b.toNat % 16 * 4 + 0 / 64) % 4 = 0 := by omega
    rw [Char.ofNat_toNat] at hbyte1 hbyte2
    rw [encode, decode, value_digit1 ha, value_digit2 hb, value_digit3 (by decide)]
    simp only [Option.bind_eq_bind, Option.bind_some, hzero, if_true, hbyte1, hbyte2]
  | case4 a b c rest ih =>
    have ha : a.toNat < 256 := h a (by simp)
    have hb : b.toNat < 256 := h b (by simp)
    have hc : c.toNat < 256 := h c (by simp)
    have hrest := ih fun d hd => h d (by simp [hd])
    have hbyte1 := byte1_digits (a := a.toNat) hb
    have hbyte2 := byte2_digits (a := a.toNat) hb hc
    have hbyte3 := byte3_digits (b := b.toNat) hc
    rw [Char.ofNat_toNat] at hbyte1 hbyte2 hbyte3
    rw [encode, decode, value_digit1 ha, value_digit2 hb, value_digit3 hc, value_digit4, hrest]
    simp only [Option.bind_eq_bind, Option.bind_some, hbyte1, hbyte2, hbyte3]

/-- Two strings of bytes with one text are the same. -/
theorem encode_inj {s t : List Char} (hs : ∀ c ∈ s, c.toNat < 256) (ht : ∀ c ∈ t, c.toNat < 256)
    (h : encode s = encode t) : s = t := by
  have hback := decode_encode s hs
  rw [h, decode_encode t ht, Option.some.injEq] at hback
  exact hback.symm

/-- Three bytes take four characters; one byte left over takes two, and two take three. -/
theorem length_encode (s : List Char) : (encode s).length = 4 * s.length ⌈/⌉ 3 := by
  rw [Nat.ceilDiv_eq_add_pred_div]
  induction s using encode.induct with
  | case1 => rfl
  | case2 a => simp [encode]
  | case3 a b => simp [encode]
  | case4 a b c rest ih =>
    simp only [encode, List.length_cons, ih]
    omega

theorem mem_alphabet {s : List Char} (h : ∀ c ∈ s, c.toNat < 256) :
    ∀ c ∈ encode s, c ∈ alphabet := by
  induction s using encode.induct with
  | case1 => exact fun c hc => absurd hc List.not_mem_nil
  | case2 a =>
    have ha : a.toNat < 256 := h a (by simp)
    simp only [encode, List.forall_mem_cons]
    exact ⟨digit1_mem ha, digit2_mem (by decide), nofun⟩
  | case3 a b =>
    have ha : a.toNat < 256 := h a (by simp)
    have hb : b.toNat < 256 := h b (by simp)
    simp only [encode, List.forall_mem_cons]
    exact ⟨digit1_mem ha, digit2_mem hb, digit3_mem (by decide), nofun⟩
  | case4 a b c rest ih =>
    have ha : a.toNat < 256 := h a (by simp)
    have hb : b.toNat < 256 := h b (by simp)
    have hc : c.toNat < 256 := h c (by simp)
    have hrest := ih fun d hd => h d (by simp [hd])
    simp only [encode, List.forall_mem_cons]
    exact ⟨digit1_mem ha, digit2_mem hb, digit3_mem hc, digit4_mem, hrest⟩

end Base64Url
