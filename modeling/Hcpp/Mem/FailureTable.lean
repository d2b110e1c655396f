import Hcpp.Lib.Border
import Hcpp.Mem.Kmp

/-!
# The failure table of `KMP`

`computeLPSArrayWithin` is `computeLPSArray` as it is safe to run: every index
is one of a letter or of an entry, and no `int` passes its range.  `LpsInv` is
what holds at the head of its loop: the entries so far are the longest borders,
and `len` is a border of the letters so far whose longer ones the next letter
does not extend.  A turn that falls back keeps `i` and makes `len` smaller; the
others take `i` one further and `len` at most one, so `2 * (m - i) + len` falls.
-/

namespace Hcpp.Kmp

open Border

/-! ## The guarded loop -/

/-- `pattern_[i]`, a letter. -/
def letterWithin (pattern : List Char) (i : Nat) : Outcome Char :=
  if i < pattern.length then .ret (charAt pattern i) else .undefined

/-- `lps[i]` -/
def entryWithin (lps : List Nat) (i : Nat) : Outcome Nat :=
  if i < lps.length then .ret (lps.getD i 0) else .undefined

/-- `lps[i] = v` -/
def setWithin (lps : List Nat) (i v : Nat) : Outcome (List Nat) :=
  if i < lps.length then .ret (lps.set i v) else .undefined

/-- `x++` of an `int`. -/
def incWithin (x : Nat) : Outcome Nat := if x + 1 < 2 ^ 31 then .ret (x + 1) else .undefined

def lpsLoopWithin (pattern : List Char) (m : Nat) :
    Nat → Nat → Nat → List Nat → Outcome (List Nat)
  | 0, _, _, _ => .spins
  | fuel + 1, len, i, lps =>
    if i < m then do
      let c ← letterWithin pattern i
      let d ← letterWithin pattern len
      if c = d then do
        let len ← incWithin len
        let lps ← setWithin lps i len
        let i ← incWithin i
        lpsLoopWithin pattern m fuel len i lps
      else if len ≠ 0 then do
        let len ← entryWithin lps (len - 1)
        lpsLoopWithin pattern m fuel len i lps
      else do
        let lps ← setWithin lps i 0
        let i ← incWithin i
        lpsLoopWithin pattern m fuel len i lps
    else .ret lps

def computeLPSArrayWithin (pattern : List Char) : Outcome (List Nat) :=
  let m := toInt32 pattern.length
  if m < 0 then .throws
  else do
    let lps ← setWithin (List.replicate m.toNat 0) 0 0
    lpsLoopWithin pattern m.toNat (2 * m.toNat + 1) 0 1 lps

/-- Where the guarded loop returns, the loop returns the same, and a table of this size. -/
theorem lpsLoopWithin_ret {pat : List Char} {m fuel len i : Nat} {lps r : List Nat}
    (h : lpsLoopWithin pat m fuel len i lps = .ret r) :
    lpsLoop pat m fuel len i lps = .ret r ∧ r.length = lps.length := by
  induction fuel generalizing len i lps with
  | zero => cases h
  | succ fuel ih =>
    rw [lpsLoopWithin] at h
    rw [lpsLoop]
    by_cases hi : i < m
    · rw [if_pos hi] at h ⊢
      obtain ⟨c, hc, h⟩ := Outcome.bind_eq_ret.mp h
      obtain ⟨d, hd, h⟩ := Outcome.bind_eq_ret.mp h
      obtain ⟨-, rfl⟩ := Outcome.guard_eq_ret.mp hc
      obtain ⟨-, rfl⟩ := Outcome.guard_eq_ret.mp hd
      by_cases hhit : charAt pat i = charAt pat len
      · rw [if_pos hhit] at h ⊢
        obtain ⟨len', hlen, h⟩ := Outcome.bind_eq_ret.mp h
        obtain ⟨lps', hset, h⟩ := Outcome.bind_eq_ret.mp h
        obtain ⟨i', hinc, h⟩ := Outcome.bind_eq_ret.mp h
        obtain ⟨-, rfl⟩ := Outcome.guard_eq_ret.mp hlen
        obtain ⟨-, rfl⟩ := Outcome.guard_eq_ret.mp hset
        obtain ⟨-, rfl⟩ := Outcome.guard_eq_ret.mp hinc
        obtain ⟨hloop, hsize⟩ := ih h
        rw [List.length_set] at hsize
        exact ⟨hloop, hsize⟩
      · rw [if_neg hhit] at h ⊢
        by_cases h0 : len ≠ 0
        · rw [if_pos h0] at h ⊢
          obtain ⟨len', hlen, h⟩ := Outcome.bind_eq_ret.mp h
          obtain ⟨-, rfl⟩ := Outcome.guard_eq_ret.mp hlen
          exact ih h
        · rw [if_neg h0] at h ⊢
          obtain ⟨lps', hset, h⟩ := Outcome.bind_eq_ret.mp h
          obtain ⟨i', hinc, h⟩ := Outcome.bind_eq_ret.mp h
          obtain ⟨-, rfl⟩ := Outcome.guard_eq_ret.mp hset
          obtain ⟨-, rfl⟩ := Outcome.guard_eq_ret.mp hinc
          obtain ⟨hloop, hsize⟩ := ih h
          rw [List.length_set] at hsize
          exact ⟨hloop, hsize⟩
    · rw [if_neg hi] at h ⊢
      cases h
      exact ⟨rfl, rfl⟩

/-- So does the function; its table has the size that fits an `int`. -/
theorem computeLPSArrayWithin_ret {pat : List Char} {lps : List Nat}
    (h : computeLPSArrayWithin pat = .ret lps) :
    computeLPSArray pat = .ret lps ∧ (lps.length : Int) = toInt32 pat.length := by
  unfold computeLPSArrayWithin at h
  simp only at h
  split_ifs at h with hneg
  obtain ⟨lps', hset, h⟩ := Outcome.bind_eq_ret.mp h
  obtain ⟨hpos, rfl⟩ := Outcome.guard_eq_ret.mp hset
  obtain ⟨hloop, hsize⟩ := lpsLoopWithin_ret h
  rw [List.length_replicate] at hpos
  rw [List.length_set, List.length_replicate] at hsize
  rw [List.set_replicate_self] at hloop
  unfold computeLPSArray
  simp only
  rw [if_neg hneg, if_neg (by omega)]
  exact ⟨hloop, by omega⟩

/-! ## The loop -/

theorem getElem?_eq_charAt {s : List Char} {i : Nat} (h : i < s.length) :
    s[i]? = some (charAt s i) := by
  rw [charAt, List.getD_eq_getElem?_getD, List.getElem?_eq_getElem h]
  rfl

theorem take_succ_eq {s : List Char} {i : Nat} (h : i < s.length) :
    s.take (i + 1) = s.take i ++ [charAt s i] := by
  rw [List.take_add_one, getElem?_eq_charAt h]
  rfl

/-- `lps[j - 1]` is the longest proper border of the first `j` letters, up to `j = i`. -/
def TableTo (pat : List Char) (lps : List Nat) (i : Nat) : Prop :=
  ∀ j, 0 < j → j ≤ i → lps.getD (j - 1) 0 = overlap pat (pat.take j) j

theorem TableTo.snoc {pat : List Char} {lps : List Nat} {i v : Nat} (h : TableTo pat lps i)
    (hi : i < lps.length) (hv : overlap pat (pat.take (i + 1)) (i + 1) = v) :
    TableTo pat (lps.set i v) (i + 1) := by
  intro j hj hji
  rcases Nat.lt_or_ge i j with hlt | hle
  · obtain rfl : j = i + 1 := by omega
    rw [hv, Nat.add_sub_cancel, List.getD_eq_getElem?_getD, List.getElem?_set_self hi]
    rfl
  · rw [List.getD_eq_getElem?_getD, List.getElem?_set_ne (by omega),
      ← List.getD_eq_getElem?_getD]
    exact h j hj hle

/-- What holds at the head of the loop. -/
structure LpsInv (pat : List Char) (len i : Nat) (lps : List Nat) : Prop where
  size : lps.length = pat.length
  table : TableTo pat lps i
  le : i ≤ pat.length
  lt : len < i
  trying : i < pat.length → Trying pat (pat.take i) i (charAt pat i) len

namespace LpsInv

variable {pat : List Char} {len i : Nat} {lps : List Nat}

/-- A prefix of one letter has no border but the empty one. -/
theorem start (hpat : pat ≠ []) : LpsInv pat 0 1 (List.replicate pat.length 0) := by
  have hpos := List.length_pos_of_ne_nil hpat
  have h1 : overlap pat (pat.take 1) 1 = 0 := by
    have hlt : overlap pat (pat.take 1) 1 < 1 := overlap_lt (by omega)
    omega
  refine ⟨List.length_replicate, ?_, hpos, by omega, ?_⟩
  · intro j hj hj1
    obtain rfl : j = 1 := by omega
    rw [h1]
    simp [hpos]
  · intro hlt
    rw [← h1]
    exact trying_overlap (by omega) _

/-- The next entry is found. -/
theorem next (h : LpsInv pat len i lps) (hi : i < pat.length) {v : Nat}
    (hv : overlap pat (pat.take i ++ [charAt pat i]) (i + 1) = v) :
    LpsInv pat v (i + 1) (lps.set i v) := by
  rw [← take_succ_eq hi] at hv
  have hlt : overlap pat (pat.take (i + 1)) (i + 1) < i + 1 := overlap_lt (by omega)
  refine ⟨by rw [List.length_set, h.size], h.table.snoc (by rw [h.size]; exact hi) hv, hi,
    by omega, ?_⟩
  intro _
  rw [← hv]
  exact trying_overlap (by omega) _

/-- The letter extends the border `len`. -/
theorem hit (h : LpsInv pat len i lps) (hi : i < pat.length)
    (hhit : charAt pat i = charAt pat len) :
    LpsInv pat (len + 1) (i + 1) (lps.set i (len + 1)) := by
  have hlt := h.lt
  apply h.next hi
  exact (h.trying hi).hit h.le (by rw [getElem?_eq_charAt (by omega), hhit])

theorem refuses (h : LpsInv pat len i lps) (hi : i < pat.length)
    (hne : charAt pat i ≠ charAt pat len) : pat[len]? ≠ some (charAt pat i) := by
  have hlt := h.lt
  rw [getElem?_eq_charAt (by omega), Ne, Option.some.injEq]
  exact hne.symm

/-- It does not, and the longest border of that border is tried. -/
theorem fall (h : LpsInv pat len i lps) (hi : i < pat.length)
    (hne : charAt pat i ≠ charAt pat len) (h0 : len ≠ 0) :
    LpsInv pat (lps.getD (len - 1) 0) i lps ∧ lps.getD (len - 1) 0 < len := by
  have hlt := h.lt
  have hshort : overlap pat (pat.take len) len < len := overlap_lt (by omega)
  rw [h.table len (by omega) (by omega)]
  exact ⟨⟨h.size, h.table, h.le, by omega,
    fun _ => (h.trying hi).fall (by omega) (h.refuses hi hne)⟩, hshort⟩

/-- No border is extended. -/
theorem miss (h : LpsInv pat 0 i lps) (hi : i < pat.length) (hne : charAt pat i ≠ charAt pat 0) :
    LpsInv pat 0 (i + 1) (lps.set i 0) :=
  h.next hi ((h.trying hi).miss h.le (h.refuses hi hne))

end LpsInv

section Spec

variable {pat : List Char}

/-- **The loop ends**, with every index in range: the induction is on the fuel, which the
measure `2 * (m - i) + len` stays below. -/
theorem lpsLoopWithin_spec (hps : pat.length < 2 ^ 31) {fuel len i : Nat} {lps : List Nat}
    (h : LpsInv pat len i lps) (hfuel : 2 * (pat.length - i) + len < fuel) :
    ∃ lps', lpsLoopWithin pat pat.length fuel len i lps = .ret lps' ∧
      lps'.length = pat.length ∧ TableTo pat lps' pat.length := by
  induction fuel generalizing len i lps with
  | zero => omega
  | succ fuel ih =>
    have hlt := h.lt
    have hsize := h.size
    rw [lpsLoopWithin]
    by_cases hi : i < pat.length
    · have hci : letterWithin pat i = .ret (charAt pat i) := if_pos hi
      have hcl : letterWithin pat len = .ret (charAt pat len) := if_pos (by omega)
      have hset (v : Nat) : setWithin lps i v = .ret (lps.set i v) := if_pos (by omega)
      have hinc {x : Nat} (hx : x ≤ i) : incWithin x = .ret (x + 1) := if_pos (by omega)
      rw [if_pos hi, hci, Outcome.ret_bind, hcl, Outcome.ret_bind]
      by_cases hhit : charAt pat i = charAt pat len
      · rw [if_pos hhit, hinc hlt.le, Outcome.ret_bind, hset, Outcome.ret_bind,
          hinc (Nat.le_refl i), Outcome.ret_bind]
        exact ih (h.hit hi hhit) (by omega)
      · rw [if_neg hhit]
        by_cases h0 : len ≠ 0
        · obtain ⟨hfall, hshort⟩ := h.fall hi hhit h0
          have hentry : entryWithin lps (len - 1) = .ret (lps.getD (len - 1) 0) :=
            if_pos (by omega)
          rw [if_pos h0, hentry, Outcome.ret_bind]
          exact ih hfall (by omega)
        · obtain rfl : len = 0 := by omega
          rw [if_neg h0, hset, Outcome.ret_bind, hinc (Nat.le_refl i), Outcome.ret_bind]
          exact ih (h.miss hi hhit) (by omega)
    · rw [if_neg hi]
      obtain rfl : i = pat.length := by
        have hle := h.le
        omega
      exact ⟨lps, rfl, hsize, h.table⟩

theorem computeLPSArrayWithin_spec (hpat : pat ≠ []) (hps : pat.length < 2 ^ 31) :
    ∃ lps, computeLPSArrayWithin pat = .ret lps ∧ lps.length = pat.length ∧
      TableTo pat lps pat.length := by
  have hpos := List.length_pos_of_ne_nil hpat
  have hm : toInt32 pat.length = pat.length := toInt32_of_small (by omega) (by omega)
  have hset : setWithin (List.replicate pat.length 0) 0 0 = .ret (List.replicate pat.length 0) := by
    rw [setWithin, if_pos (by rw [List.length_replicate]; exact hpos), List.set_replicate_self]
  rw [computeLPSArrayWithin, hm, if_neg (by omega), Int.toNat_natCast, hset, Outcome.ret_bind]
  exact lpsLoopWithin_spec hps (LpsInv.start hpat) (by omega)

/-- `computeLPSArray` ends, and with the border table. -/
theorem computeLPSArray_spec (hpat : pat ≠ []) (hps : pat.length < 2 ^ 31) :
    ∃ lps, computeLPSArray pat = .ret lps ∧ TableTo pat lps pat.length := by
  obtain ⟨lps, hret, -, htab⟩ := computeLPSArrayWithin_spec hpat hps
  exact ⟨lps, (computeLPSArrayWithin_ret hret).1, htab⟩

end Spec

/-! ## The border table -/

/-- `computeLPSArray` ends with `lps`, every index on the way in range, and entry `i` is the
length of the longest border of the letters `0..i`. -/
structure BorderTable (pat : List Char) (lps : List Nat) : Prop where
  within : computeLPSArrayWithin pat = .ret lps
  returned : computeLPSArray pat = .ret lps
  size : lps.length = pat.length
  longest : ∀ (i : Nat) (hi : i < lps.length),
    IsGreatest {k | IsBorder (pat.take (i + 1)) k} lps[i]

theorem TableTo.longest {pat : List Char} {lps : List Nat} (h : TableTo pat lps pat.length)
    (hsize : lps.length = pat.length) (i : Nat) (hi : i < lps.length) :
    IsGreatest {k | IsBorder (pat.take (i + 1)) k} lps[i] := by
  have hentry := h (i + 1) (by omega) (by omega)
  rw [Nat.add_sub_cancel, List.getD_eq_getElem?_getD, List.getElem?_eq_getElem hi,
    Option.getD_some] at hentry
  rw [hentry]
  exact isGreatest_overlap (by omega) (by omega)

/-- A table of all the letters has a size that is an `int`. -/
theorem BorderTable.small {pat : List Char} {lps : List Nat} (h : BorderTable pat lps) :
    pat.length < 2 ^ 31 := by
  have hsize := (computeLPSArrayWithin_ret h.within).2
  rw [h.size] at hsize
  unfold toInt32 at hsize
  rw [Int.bmod_def] at hsize
  omega

/-- **The failure table is the border table**, for the patterns whose size is an `int`. -/
theorem borderTable_iff {pat : List Char} (hpat : pat ≠ []) :
    (∃ lps, BorderTable pat lps) ↔ pat.length < 2 ^ 31 := by
  constructor
  · rintro ⟨lps, h⟩
    exact h.small
  · intro hps
    obtain ⟨lps, hret, hsize, htab⟩ := computeLPSArrayWithin_spec hpat hps
    exact ⟨lps, hret, (computeLPSArrayWithin_ret hret).1, hsize, htab.longest hsize⟩

theorem borderTable_iff_aabaa :
    computeLPSArray "aabaa".toList = .ret [0, 1, 0, 1, 2] ∧
      ∃ lps, BorderTable "aabaa".toList lps :=
  ⟨by decide +kernel, (borderTable_iff (by decide)).mpr (by decide)⟩

/-- A size that is no `int` becomes negative, and `resize` throws. -/
theorem long_throws {pat : List Char} (h : pat.length = 2 ^ 31) :
    pat ≠ [] ∧ computeLPSArray pat = .throws ∧ ¬ ∃ lps, BorderTable pat lps := by
  have hneg : toInt32 pat.length < 0 := by
    unfold toInt32
    rw [Int.bmod_def]
    omega
  refine ⟨List.ne_nil_of_length_pos (by omega), ?_, ?_⟩
  · rw [computeLPSArray, if_pos hneg]
  · rintro ⟨lps, htable⟩
    have hsmall := htable.small
    omega

theorem no_borderTable_long :
    List.replicate (2 ^ 31) 'a' ≠ [] ∧ computeLPSArray (List.replicate (2 ^ 31) 'a') = .throws ∧
      ¬ ∃ lps, BorderTable (List.replicate (2 ^ 31) 'a') lps :=
  long_throws List.length_replicate

end Hcpp.Kmp
