import Hcpp.Http.ChunkEnds

/-!
# The number of a size line

`hexStrTo_exact_iff`: `hex_str_to` reads the chunk size of a line, and
`complete_chunk_size` does not wrap, if and only if `ReadExactly` holds of it.
The expression is searched in the whole line, a 0 at its beginning is a number
of its own, and of any other number it takes 16 digits (`readHex`).
-/

namespace Hcpp

open Memory Regex

/-! ## The number that is read -/

def isNonzeroHex (c : Char) : Bool := isHex c && decide (c ≠ '0')

/-- 0 when the text begins with 0, else up to 16 digits from the first one from 1 to F on. -/
def readHex (s : List Char) : Option Nat :=
  if s.head? = some '0' then some 0
  else
    match s.dropWhile fun c => !isNonzeroHex c with
    | [] => none
    | c :: t => some (stoul 16 (c :: (t.takeWhile isHex).take 15))

/-- The digits the text begins with. -/
def sizeDigits (s : List Char) : List Char := s.takeWhile isHex

/-- Nothing, whitespace or `;` follows the digits. -/
def SizeStops (s : List Char) : Prop :=
  (s.dropWhile isHex).head?.all (fun c => isSpace c || decide (c = ';')) = true

instance (s : List Char) : Decidable (SizeStops s) :=
  inferInstanceAs (Decidable ((s.dropWhile isHex).head?.all _ = true))

/-- The chunk size of the line `s`, a number of 64 bits. -/
def chunkSizeOf (s : List Char) : Option Nat :=
  if sizeDigits s ≠ [] ∧ SizeStops s ∧ stoul 16 (sizeDigits s) < 2 ^ 64 then
    some (stoul 16 (sizeDigits s))
  else none

/-- `transfer_chunk` leaves a turn with this line by an exception. -/
def Refused (line : List Char) : Prop :=
  ∀ (self to_ : Memory) (n : Nat), ∃ enough, ∀ fuel, enough ≤ fuel →
    chunkTurn fuel self to_ n line = .throws

/-- The line is read as it is written, and its chunk has a size of 64 bits. -/
def SizeExact (line : List Char) : Prop :=
  (∀ v, hexStrTo line = .ret v ↔ chunkSizeOf line = some v) ∧
    (chunkSizeOf line = none → hexStrTo line = .throws) ∧
    ∀ v, hexStrTo line = .ret v → line.length + 2 + v + 2 < 2 ^ 64 ∨ Refused line

/-- A line that begins with no digit has none from 1 to F; the digits of any other one
are followed by what may follow them, are all 0 or at most 16 without a leading 0, and
leave room for the rest of the chunk. -/
def ReadExactly (line : List Char) : Prop :=
  if sizeDigits line = [] then ∀ c ∈ line, isNonzeroHex c = false
  else
    SizeStops line ∧
      ((∀ c ∈ sizeDigits line, c = '0') ∨
        (sizeDigits line).head? ≠ some '0' ∧ (sizeDigits line).length ≤ 16) ∧
      line.length + 2 + stoul 16 (sizeDigits line) + 2 < 2 ^ 64

instance (line : List Char) : Decidable (ReadExactly line) := by
  unfold ReadExactly
  exact inferInstance

/-- **The number `hex_str_to` takes.** -/
theorem hexStrTo_eq (s : List Char) : hexStrTo s = (readHex s).elim .throws .ret := by
  unfold hexStrTo readHex
  by_cases h0 : s.head? = some '0'
  · have hone : 1 ≤ (s.takeWhile (· = '0')).length := by
      obtain ⟨t, rfl⟩ := List.head?_eq_some_iff.mp h0
      simp
    have hways : (ways s.length hexReg s).head? =
        some ([], s.drop (min 15 (s.takeWhile (· = '0')).length)) := by
      rw [hexReg, head?_ways_alt, ways_seq_bol, head?_ways_rep_cls, if_pos (by omega)]
      rfl
    have hlen := (List.takeWhile_prefix (l := s) (· = '0')).length_le
    rw [search_of_head hways, if_pos h0]
    simp only [List.length_drop]
    rw [Nat.sub_sub_self (by omega), take_min_takeWhile, stoul_eq_zero]
    · rfl
    · intro c hc
      simpa using List.mem_takeWhile_imp (List.mem_of_mem_take hc)
  · -- the first branch of the expression matches nowhere
    have hways : ∀ j, ways s.length hexReg (s.drop j) = ways s.length
        (.seq (.cls isNonzeroHex) (.rep (.cls isHex) 0 (some 15))) (s.drop j) := by
      intro j
      have hbol : ways s.length (.seq .bol (.rep (.cls (· = '0')) 1 (some 15))) (s.drop j) =
          [] := by
        by_cases hlen : (s.drop j).length = s.length
        · have hs : s.drop j = s := (List.drop_suffix j s).eq_of_length hlen
          rw [hs, ways_seq_bol, ← List.head?_eq_none_iff, head?_ways_rep_cls, if_neg]
          cases s with
          | nil => simp
          | cons c t =>
            have hc : c ≠ '0' := by simpa using h0
            simp [hc]
        · rw [ways, ways, if_neg hlen]
          rfl
      rw [hexReg, ways_alt, hbol, List.nil_append]
      rfl
    rw [search_congr hways, search_cls_rep, if_neg h0]
    cases s.dropWhile fun c => !isNonzeroHex c with
    | nil => rfl
    | cons c t => rfl

theorem isHex_sizeDigits (s : List Char) : ∀ c ∈ sizeDigits s, isHex c = true :=
  fun _ hc => List.mem_takeWhile_imp hc

/-- A line that begins with a digit: its first one, and the rest of its digits. -/
theorem readHex_of_digits {s ds : List Char} {d : Char} (h : sizeDigits s = d :: ds) :
    readHex s = some (if d = '0' then 0 else stoul 16 (d :: ds.take 15)) := by
  cases s with
  | nil => cases h
  | cons c t =>
    have hc : isHex c = true := by
      by_contra hc
      rw [sizeDigits, List.takeWhile_cons_of_neg hc] at h
      cases h
    rw [sizeDigits, List.takeWhile_cons_of_pos hc, List.cons.injEq] at h
    obtain ⟨rfl, rfl⟩ := h
    unfold readHex
    by_cases h0 : c = '0'
    · rw [if_pos (by rw [h0]; rfl), if_pos h0]
    · have hn : isNonzeroHex c = true := by simp [isNonzeroHex, hc, h0]
      rw [if_neg (by simpa using h0), if_neg h0, List.dropWhile_cons_of_neg (by simp [hn])]

/-- Any other line is read from its first digit from 1 to F on, if it has one. -/
theorem readHex_eq_none_iff {s : List Char} (h : sizeDigits s = []) :
    readHex s = none ↔ ∀ c ∈ s, isNonzeroHex c = false := by
  have h0 : s.head? ≠ some '0' := by
    intro h0
    obtain ⟨t, rfl⟩ := List.head?_eq_some_iff.mp h0
    rw [sizeDigits, List.takeWhile_cons_of_pos (by decide)] at h
    cases h
  rw [readHex, if_neg h0]
  have hall : (s.dropWhile fun c => !isNonzeroHex c) = [] ↔ ∀ c ∈ s, isNonzeroHex c = false := by
    simp [List.dropWhile_eq_nil_iff]
  rw [← hall]
  cases s.dropWhile fun c => !isNonzeroHex c with
  | nil => simp
  | cons c t => simp

/-! ## The chunk behind the line -/

section Turn

variable {self : Memory} {f : Feed Char} {line : List Char} {v : Nat}

/-- Any number but 0 is followed by the transfer of its complete size, wrapped or not. -/
theorem chunkTurn_moves {to_ : Memory} {fuel : Nat} (n : Nat) (h : self.Represents f)
    (hroom : to_.room = none) (hv : hexStrTo line = .ret v) (h0 : v ≠ 0)
    (hlen : completeChunkSize line v ≤ f.bytes.length)
    (hfuel : completeChunkSize line v < fuel) :
    ∃ self', self'.Represents (f.skip (completeChunkSize line v)) ∧ self'.buffs.length ≤ 1 ∧
      chunkTurn fuel self to_ n line =
        transferChunkLoop fuel self' (to_.took (f.bytes.take (completeChunkSize line v)))
          (n + completeChunkSize line v) := by
  obtain ⟨self', heq, hrep, -, hone⟩ := transferMem_spec h hroom _ fuel hlen hfuel
  refine ⟨self', hrep, hone, ?_⟩
  rw [chunkTurn, hv, Outcome.ret_bind, if_neg h0, heq, Outcome.ret_bind]
  simp only [ne_eq, not_true_eq_false, if_false]

/-- A memory that holds `s` and nothing else, whose peer has closed. -/
def holding (s : List Char) : Memory :=
  { fresh .plain [] none with buffs := [⟨0, s⟩], writeIndex := s.length }

/-- A transfer of all of it leaves nothing, however long it is. -/
theorem transferMem_holding {s : List Char} (hs : s ≠ []) {fuel : Nat} (hfuel : 0 < fuel)
    (to_ : Memory) :
    transferMem fuel (holding s) to_ s.length =
      .ret ((holding s).removeSome s.length, to_.asyncWriteAll s, s.length) := by
  have hpos := List.length_pos_of_ne_nil hs
  have hget : (holding s).mergeSome.getSome = s := by
    unfold getSome MemBlock.find
    rw [show (holding s).mergeSome.buffs = [⟨0, s⟩] from rfl,
      show (holding s).mergeSome.readIndex = 0 from rfl, List.dropWhile_cons_of_neg]
    · rfl
    · simpa [MemBlock.ltKey, narrow] using hs
  unfold transferMem
  simp only [hget]
  rw [if_pos ⟨hpos, hpos⟩, if_neg (Nat.lt_irrefl _), (transferMemLoop_none hfuel _ _ _).1]
  rfl

/-- No number that is read makes `transfer_chunk` give up. -/
theorem not_refused (hv : hexStrTo line = .ret v) : ¬ Refused line := by
  intro href
  by_cases h0 : v = 0
  · -- behind the last chunk the trailer is transferred
    have hrep := represents_fresh .plain [crlfcrlf] none (by decide)
    obtain ⟨enough, hthrows⟩ := href (fresh .plain [crlfcrlf] none) (fresh .plain [] none) 0
    have hne : crlfcrlf ≠ [] := by decide
    have hfind : Search.find crlfcrlf (Feed.mk [] [crlfcrlf]).bytes = some 0 := by decide
    obtain ⟨self', g, t, hu, -⟩ := transferMemUntil_loads enough hrep hne (by decide) (by decide)
      hfind (by decide)
    have hturn := hthrows enough (Nat.le_refl _)
    rw [chunkTurn, hv, Outcome.ret_bind, if_pos h0, hu] at hturn
    cases hturn
  by_cases hc : completeChunkSize line v = 0
  · -- nothing is moved, and a peer that has closed keeps the next turn waiting
    have hrep : (fresh .plain [] none).Represents ⟨[], []⟩ := represents_fresh _ _ _ (by decide)
    have hroom : (fresh .plain [] none).room = none := rfl
    obtain ⟨enough, hthrows⟩ := href (fresh .plain [] none) (fresh .plain [] none) 0
    have hturn := hthrows (enough + 1) (Nat.le_succ _)
    obtain ⟨self', hrep', hone, heq⟩ := chunkTurn_moves 0 hrep hroom hv h0
      (by rw [hc]; exact Nat.zero_le _) (show _ < enough + 1 by omega)
    rw [hc] at hrep'
    have hget : cString self'.getSome = [] := by
      rw [hrep'.getSome hone]
      rfl
    have hin : self'.incoming.flatten = [] := by
      rw [hrep'.incoming]
      rfl
    rw [heq, transferChunkLoop, hget, scanSize_closed _ hin ⟨rfl, by decide⟩] at hturn
    cases hturn
  · -- the chunk is moved out of a cache that holds it, and the next turn waits too
    have hlen : (List.replicate (completeChunkSize line v) 'x').length =
        completeChunkSize line v := List.length_replicate
    have hs : List.replicate (completeChunkSize line v) 'x' ≠ [] := by
      intro hnil
      rw [hnil] at hlen
      exact hc hlen.symm
    obtain ⟨enough, hthrows⟩ := href (holding (List.replicate (completeChunkSize line v) 'x'))
      (fresh .plain [] none) 0
    have hturn := hthrows (enough + 1) (Nat.le_succ _)
    have hmove := transferMem_holding hs (Nat.succ_pos enough) (fresh .plain [] none)
    rw [hlen] at hmove
    have hget : cString ((holding (List.replicate (completeChunkSize line v) 'x')).removeSome
        (completeChunkSize line v)).getSome = [] := by
      unfold removeSome holding getSome
      simp [MemBlock.find, cString]
    have hin : ((holding (List.replicate (completeChunkSize line v) 'x')).removeSome
        (completeChunkSize line v)).incoming.flatten = [] := rfl
    rw [chunkTurn, hv, Outcome.ret_bind, if_neg h0, hmove, Outcome.ret_bind] at hturn
    simp only [ne_eq, not_true_eq_false, if_false] at hturn
    rw [transferChunkLoop, hget, scanSize_closed _ hin ⟨rfl, by decide⟩] at hturn
    cases hturn

end Turn

/-- The digits are read as what they say: all are 0, or they are at most 16. -/
theorem readHex_exact_iff {line ds : List Char} {d : Char} (hds : sizeDigits line = d :: ds) :
    readHex line = some (stoul 16 (d :: ds)) ↔
      (∀ c ∈ d :: ds, c = '0') ∨ (d :: ds).head? ≠ some '0' ∧ (d :: ds).length ≤ 16 := by
  have hhex := isHex_sizeDigits line
  rw [hds] at hhex
  rw [readHex_of_digits hds, Option.some.injEq]
  exact stoul_take_eq_iff (by omega) hhex fun c hc => digitVal_lt_hex (hhex c hc)

/-- **The chunk size is exact** if and only if the line can be read exactly. -/
theorem hexStrTo_exact_iff (line : List Char) : SizeExact line ↔ ReadExactly line := by
  unfold SizeExact ReadExactly
  cases hds : sizeDigits line with
  | nil =>
    have hnone : chunkSizeOf line = none := by
      rw [chunkSizeOf, hds, if_neg (by simp)]
    rw [if_pos rfl, ← readHex_eq_none_iff hds, hexStrTo_eq, hnone]
    cases readHex line with
    | none => simp
    | some v => simp
  | cons d ds =>
    rw [if_neg (by simp)]
    constructor
    · rintro ⟨hval, -, hwrap⟩
      obtain ⟨v, hread⟩ : ∃ v, readHex line = some v := ⟨_, readHex_of_digits hds⟩
      have hv : hexStrTo line = .ret v := by rw [hexStrTo_eq, hread, Option.elim_some]
      have hcs := (hval v).mp hv
      unfold chunkSizeOf at hcs
      rw [hds] at hcs
      split at hcs
      · rename_i hok
        obtain ⟨-, hst, -⟩ := hok
        obtain rfl := Option.some.inj hcs
        rcases hwrap _ hv with hfit | href
        · exact ⟨hst, (readHex_exact_iff hds).mp hread, hfit⟩
        · exact absurd href (not_refused hv)
      · cases hcs
    · rintro ⟨hst, hdigits, hfit⟩
      have hread := (readHex_exact_iff hds).mpr hdigits
      have hv : hexStrTo line = .ret (stoul 16 (d :: ds)) := by
        rw [hexStrTo_eq, hread, Option.elim_some]
      have hcs : chunkSizeOf line = some (stoul 16 (d :: ds)) := by
        rw [chunkSizeOf, hds, if_pos ⟨by simp, hst, by omega⟩]
      rw [hv, hcs]
      refine ⟨fun v => by simp, by simp, fun v h => .inl ?_⟩
      obtain rfl := Outcome.ret.inj h
      exact hfit

/-- The digit behind `xyz` is taken for the size. -/
theorem hexStrTo_not_exact : ¬ ∀ line : List Char, SizeExact line := by
  intro hall
  have hval := ((hall "xyz5".toList).1 5).mp (by rw [hexStrTo_eq]; rfl)
  have hnone : chunkSizeOf "xyz5".toList = none := by decide
  rw [hnone] at hval
  cases hval

end Hcpp
