import Hcpp.Mem.KmpSearch

/-!
# `KMP` over a stream of chunks

One object is fed chunk after chunk.  `findsFirst_iff`: the first call that leaves
through `j == m` is the first one with which the text so far holds the pattern,
and it returns the leftmost occurrence in all of the text, if and only if the size
of the pattern is an `int`.  A longer pattern is either refused or taken for its
first letters.

After a miss the value says less: it is `matchIndex`, the place of the last
letter with which an attempt began, in the chunk that had it.
`reportsPending_iff`: it is the start of the pending partial match if and only
if that place is where this match begins in the last chunk.
-/

namespace Hcpp.Kmp

open Border

variable {pat : List Char}

/-- Whether the call leaves through the `return` of the match. -/
def matched (k : Kmp) (text : List Char) : Outcome Bool := do
  let (matched, _) ← k.searchLoop text (toInt32 text.length)
    (2 * text.length + k.pattern.length + 1) 0 k.j k.matchIndex
  return matched

/-- The object after a call on each chunk. -/
def feeds (k : Kmp) : List (List Char) → Outcome Kmp
  | [] => .ret k
  | t :: ts => do
    let (k, _) ← k.search t
    feeds k ts

/-- Feed the chunks until a call leaves through the match: its number and its value. -/
def firstMatch (k : Kmp) : List (List Char) → Outcome (Option (Nat × Int))
  | [] => .ret none
  | t :: ts => do
    let hit ← k.matched t
    let (k, r) ← k.search t
    if hit then return some (0, r)
    else do
      let r ← firstMatch k ts
      return r.map fun x => (x.1 + 1, x.2)

/-! ## One call -/

/-- A call leaves through the match exactly when the text so far holds the pattern. -/
theorem Fed.matched {k : Kmp} {prev : List Char} (h : Fed k pat prev) (hpat : pat ≠ [])
    {text : List Char} (hs : text.length < 2 ^ 31) :
    k.matched text = .ret (decide (pat <:+: prev ++ text)) := by
  obtain ⟨r, hr, hpost⟩ := search_loop h hpat text
  have hn : toInt32 text.length = text.length := toInt32_of_small (by omega) (by omega)
  obtain ⟨b, i, j, mi⟩ := r
  have hb : k.matched text = .ret b := by
    unfold Kmp.matched
    rw [hn, hr]
    rfl
  rw [hb]
  cases hf : Search.find pat (prev ++ text) with
  | some p =>
    rw [LoopPost, hf] at hpost
    have hb : b = true := hpost.1
    rw [hb, decide_eq_true (Search.isInfix_of_find hf)]
  | none =>
    rw [LoopPost, hf] at hpost
    rw [(Prod.mk.inj hpost).1, decide_eq_false (Search.find_eq_none_iff.mp hf)]

/-! ## The first match -/

/-- `r` is the first call that completes the pattern behind `prev`, with the place
of its leftmost occurrence. -/
def IsFirstMatch (pat prev : List Char) (chunks : List (List Char)) : Option (Nat × Int) → Prop
  | none => ¬ pat <:+: prev ++ chunks.flatten
  | some (i, p) => i < chunks.length ∧ ¬ pat <:+: prev ++ (chunks.take i).flatten ∧
    pat <:+: prev ++ (chunks.take (i + 1)).flatten ∧
    ∃ q : Nat, p = q ∧ Search.find pat (prev ++ chunks.flatten) = some q

/-- One chunk that does not complete it is fed first. -/
theorem IsFirstMatch.cons {prev t : List Char} {ts : List (List Char)} {r : Option (Nat × Int)}
    (h : IsFirstMatch pat (prev ++ t) ts r) :
    IsFirstMatch pat prev (t :: ts) (r.map fun x => (x.1 + 1, x.2)) := by
  cases r with
  | none =>
    rw [IsFirstMatch, List.append_assoc] at h
    exact h
  | some x =>
    obtain ⟨i, p⟩ := x
    obtain ⟨hi, hbefore, hin, q, hq, hf⟩ := h
    rw [List.append_assoc] at hbefore hin hf
    refine ⟨by rw [List.length_cons]; omega, ?_, ?_, q, hq, ?_⟩
    · rw [List.take_succ_cons, List.flatten_cons]
      exact hbefore
    · rw [List.take_succ_cons, List.flatten_cons]
      exact hin
    · rw [List.flatten_cons]
      exact hf

theorem firstMatch_spec (hpat : pat ≠ []) (chunks : List (List Char)) :
    ∀ (k : Kmp) (prev : List Char), Fed k pat prev →
      prev.length + chunks.flatten.length < 2 ^ 31 →
      ∃ r, k.firstMatch chunks = .ret r ∧ IsFirstMatch pat prev chunks r := by
  induction chunks with
  | nil =>
    intro k prev h _
    refine ⟨none, rfl, ?_⟩
    rw [IsFirstMatch, List.flatten_nil, List.append_nil]
    exact h.unmatched
  | cons t ts ih =>
    intro k prev h hs
    rw [List.flatten_cons, List.length_append] at hs
    rw [firstMatch, h.matched hpat (by omega), Outcome.ret_bind]
    by_cases hin : pat <:+: prev ++ t
    · obtain ⟨p, hp⟩ := Search.exists_find hin
      obtain ⟨k', hk⟩ := search_hit h hpat t (by omega) hp
      rw [hk, Outcome.ret_bind]
      simp only [decide_eq_true hin, if_true]
      refine ⟨some (0, p), rfl, by simp, ?_, ?_, p, rfl, ?_⟩
      · rw [List.take_zero, List.flatten_nil, List.append_nil]
        exact h.unmatched
      · rw [List.take_succ_cons, List.take_zero, List.flatten_singleton]
        exact hin
      · rw [List.flatten_cons, ← List.append_assoc]
        exact Search.find_append_of_some hp
    · obtain ⟨k', hk, hfed, -⟩ := search_miss h hpat t (by omega) hin
      obtain ⟨r, hr, hfirst⟩ := ih k' (prev ++ t) hfed (by rw [List.length_append]; omega)
      rw [hk, Outcome.ret_bind]
      simp only [decide_eq_false hin, Bool.false_eq_true, if_false, hr, Outcome.ret_bind]
      exact ⟨_, rfl, hfirst.cons⟩

/-- A fresh object finds the pattern in every list of chunks whose text is shorter than
2^31 bytes: the call that leaves through the match is the first one with which the pattern
is in the text, and its value is the leftmost occurrence. -/
def FindsFirst (pat : List Char) : Prop :=
  ∀ chunks : List (List Char), chunks.flatten.length < 2 ^ 31 →
    ∃ k r, make pat = .ret k ∧ k.firstMatch chunks = .ret r ∧ IsFirstMatch pat [] chunks r

theorem findsFirst_of_lt (hpat : pat ≠ []) (hps : pat.length < 2 ^ 31) : FindsFirst pat := by
  intro chunks hs
  obtain ⟨k, hk, hfed, -⟩ := make_spec hpat hps
  obtain ⟨r, hr, hfirst⟩ := firstMatch_spec hpat chunks k [] hfed (by simpa using hs)
  exact ⟨k, r, hk, hr, hfirst⟩

/-! ### A pattern whose size is no `int` -/

theorem charAt_take {s : List Char} {i m : Nat} (hi : i < m) :
    charAt (s.take m) i = charAt s i := by
  rw [charAt, charAt, List.getD_eq_getElem?_getD, List.getElem?_take_of_lt hi,
    List.getD_eq_getElem?_getD]

/-- On the first `m` letters of the pattern the loop advances in step, and with `m` for the
size of the pattern it leaves through the match behind them; by induction on the letters
left. -/
theorem searchLoop_cut {k : Kmp} {m : Nat} (hm : toInt32 k.pattern.length = m) (left : Nat) :
    ∀ (fuel i : Nat) (mi : Int), i + left + 1 = m → left < fuel →
      ∃ mi', k.searchLoop (k.pattern.take m) m fuel i i mi = .ret (true, m, m, mi') := by
  induction left with
  | zero =>
    intro fuel i mi hi hfuel
    obtain ⟨fuel, rfl⟩ : ∃ n, fuel = n + 1 := ⟨fuel - 1, by omega⟩
    have hhit : charAt k.pattern i = charAt (k.pattern.take m) i :=
      (charAt_take (by omega)).symm
    have hlt : (i : Int) < m := by omega
    have hend : ((i + 1 : Nat) : Int) = m := by omega
    obtain rfl : i + 1 = m := by omega
    rw [searchLoop, if_pos hlt]
    simp only [if_pos hhit, hm, if_true]
    exact ⟨_, rfl⟩
  | succ left ih =>
    intro fuel i mi hi hfuel
    obtain ⟨fuel, rfl⟩ : ∃ n, fuel = n + 1 := ⟨fuel - 1, by omega⟩
    have hhit : charAt k.pattern i = charAt (k.pattern.take m) i :=
      (charAt_take (by omega)).symm
    have hnext : charAt k.pattern (i + 1) = charAt (k.pattern.take m) (i + 1) :=
      (charAt_take (by omega)).symm
    have hlt : (i : Int) < m := by omega
    have hgo : ¬ ((i + 1 : Nat) : Int) = m := by omega
    rw [searchLoop, if_pos hlt]
    simp only [if_pos hhit, hm, if_neg hgo, hnext, ne_eq, not_true_eq_false, and_false, if_false]
    exact ih fuel (i + 1) _ (by omega) (by omega)

/-- A fresh object leaves through the match at the first `m` letters of its pattern. -/
theorem firstMatch_cut {k : Kmp} {m : Nat} (hm : toInt32 k.pattern.length = m) (h0 : 0 < m)
    (hlt : m < k.pattern.length) (hj : k.j = 0) (hlen : k.matchLen = 0) :
    k.firstMatch [k.pattern.take m] = .ret (some (0, 0)) := by
  have hsize : (k.pattern.take m).length = m := List.length_take_of_le hlt.le
  have hint : toInt32 m = m := by
    rw [← hm]
    unfold toInt32
    rw [Int.bmod_bmod]
  obtain ⟨mi', hloop⟩ := searchLoop_cut hm (m - 1) (2 * m + k.pattern.length + 1) 0 k.matchIndex
    (by omega) (by omega)
  have hmatched : k.matched (k.pattern.take m) = .ret true := by
    rw [Kmp.matched, hsize, hint, hj, hloop]
    rfl
  have hsearch : k.search (k.pattern.take m) =
      .ret ({ k with j := m, matchIndex := mi' }, toInt32 (m - m + k.matchLen)) := by
    rw [search, hsize]
    simp only [hint, hj, hloop, Outcome.ret_bind, if_true]
    rfl
  rw [firstMatch, hmatched, Outcome.ret_bind, hsearch, Outcome.ret_bind, hlen]
  simp only [if_true, Int.sub_self]
  rfl

theorem make_eq {k : Kmp} (h : make pat = .ret k) :
    k.pattern = pat ∧ k.j = 0 ∧ k.matchLen = 0 ∧ 0 < toInt32 pat.length := by
  obtain ⟨lps, hlps, hk⟩ := Outcome.bind_eq_ret.mp h
  cases hk
  refine ⟨rfl, rfl, rfl, ?_⟩
  unfold computeLPSArray at hlps
  simp only at hlps
  split_ifs at hlps with hneg hzero
  omega

/-- What is found of a longer pattern is its first letters. -/
theorem not_findsFirst {k : Kmp} (hk : make pat = .ret k) (hps : 2 ^ 31 ≤ pat.length) :
    ∃ m : Nat, toInt32 pat.length = m ∧ k.firstMatch [pat.take m] = .ret (some (0, 0)) ∧
      ¬ pat <:+: pat.take m ∧ (pat.take m).length < 2 ^ 31 := by
  obtain ⟨rfl, hj, hlen, hpos⟩ := make_eq hk
  have hsmall : toInt32 k.pattern.length < 2 ^ 31 := by
    unfold toInt32
    rw [Int.bmod_def]
    omega
  obtain ⟨m, hm⟩ := Int.eq_ofNat_of_zero_le hpos.le
  have hlt : m < k.pattern.length := by omega
  refine ⟨m, hm, firstMatch_cut hm (by omega) hlt hj hlen, ?_, ?_⟩
  · intro hin
    have hle := hin.length_le
    rw [List.length_take_of_le hlt.le] at hle
    omega
  · rw [List.length_take_of_le hlt.le]
    omega

/-- **The first match of a stream** is found for the patterns whose size is an `int`, and
for no others. -/
theorem findsFirst_iff (hpat : pat ≠ []) : FindsFirst pat ↔ pat.length < 2 ^ 31 := by
  refine ⟨fun hfinds => ?_, findsFirst_of_lt hpat⟩
  by_contra hps
  obtain ⟨k, -, hk, -⟩ := hfinds [] (by decide)
  obtain ⟨m, -, hcut, hno, hs⟩ := not_findsFirst hk (Nat.not_lt.mp hps)
  obtain ⟨k', r, hk', hr, hfirst⟩ := hfinds [pat.take m] (by simpa using hs)
  obtain rfl : k = k' := Outcome.ret.inj (hk.symm.trans hk')
  obtain rfl : some (0, 0) = r := Outcome.ret.inj (hcut.symm.trans hr)
  obtain ⟨-, -, hin, -⟩ := hfirst
  exact hno (by simpa using hin)

/-- The pattern comes in three pieces, behind a false start. -/
theorem findsFirst_pieces :
    ∃ k r, make "dcdax".toList = .ret k ∧
      k.firstMatch ["abcdd".toList, "dcd".toList, [], "axdd".toList] = .ret r ∧
      IsFirstMatch "dcdax".toList [] ["abcdd".toList, "dcd".toList, [], "axdd".toList] r :=
  (findsFirst_iff (by decide)).mpr (by decide) _ (by decide)

/-- A size of 2^32 + 1 is taken for 1: the object is made, and finds the pattern in its
first letter. -/
theorem found_in_one_letter :
    ∃ k, make (List.replicate (2 ^ 32 + 1) 'a') = .ret k ∧
      k.firstMatch [['a']] = .ret (some (0, 0)) ∧
      ¬ List.replicate (2 ^ 32 + 1) 'a' <:+: ['a'] ∧
      ¬ ∀ pat : List Char, pat ≠ [] → FindsFirst pat := by
  have hlen : (List.replicate (2 ^ 32 + 1) 'a').length = 2 ^ 32 + 1 := List.length_replicate
  have hne : List.replicate (2 ^ 32 + 1) 'a' ≠ [] := List.ne_nil_of_length_pos (by omega)
  have hone : toInt32 (List.replicate (2 ^ 32 + 1) 'a').length = 1 := by
    rw [hlen]
    decide
  have hmake : make (List.replicate (2 ^ 32 + 1) 'a') =
      .ret ⟨[0], List.replicate (2 ^ 32 + 1) 'a', 0, -1, 0⟩ := by
    unfold make computeLPSArray
    simp only [hone]
    rfl
  obtain ⟨m, hm, hcut, hno, -⟩ := not_findsFirst hmake (by omega)
  obtain rfl : m = 1 := by omega
  have htake : (List.replicate (2 ^ 32 + 1) 'a').take 1 = ['a'] := by
    rw [List.take_replicate]
    rfl
  rw [htake] at hcut hno
  refine ⟨_, hmake, hcut, hno, fun hall => ?_⟩
  have hsmall := (findsFirst_iff hne).mp (hall _ hne)
  omega

/-! ## A miss -/

/-- The longest end of the text that is a proper, non-empty beginning of the pattern. -/
structure Pending (pat t s : List Char) : Prop where
  ends : s <:+ t
  begins : s <+: pat
  ne : s ≠ []
  proper : s ≠ pat
  longest : ∀ u, u <:+ t → u <+: pat → u ≠ pat → u.length ≤ s.length

theorem prefix_proper {u : List Char} (hu : u <+: pat) (hne : u ≠ pat) :
    u.length < pat.length ∧ u = pat.take u.length := by
  have htake := List.prefix_iff_eq_take.mp hu
  refine ⟨?_, htake⟩
  by_contra hle
  exact hne (by rw [htake, List.take_of_length_le (by omega)])

/-- It is the overlap of the automaton. -/
theorem pending_iff {t s : List Char} (hpat : pat ≠ []) :
    Pending pat t s ↔
      0 < overlap pat t pat.length ∧ s = pat.take (overlap pat t pat.length) := by
  have hlt : overlap pat t pat.length < pat.length := overlap_lt (List.length_pos_of_ne_nil hpat)
  have hcand := cand_overlap pat t pat.length
  have hlen : (pat.take (overlap pat t pat.length)).length = overlap pat t pat.length := by
    rw [List.length_take]
    omega
  constructor
  · intro h
    obtain ⟨hslt, hs⟩ := prefix_proper h.begins h.proper
    have hle : s.length ≤ overlap pat t pat.length := le_overlap hslt (by
      unfold Cand
      rw [← hs]
      exact h.ends)
    have hge := h.longest _ hcand (List.take_prefix _ _) fun heq => by
      rw [heq] at hlen
      omega
    have hpos := List.length_pos_of_ne_nil h.ne
    rw [hlen] at hge
    have heq : s.length = overlap pat t pat.length := by omega
    exact ⟨by omega, heq ▸ hs⟩
  · rintro ⟨hpos, rfl⟩
    refine ⟨hcand, List.take_prefix _ _, ?_, ?_, ?_⟩
    · intro h0
      rw [h0, List.length_nil] at hlen
      omega
    · intro h0
      rw [h0] at hlen
      omega
    · intro u hut hup hne
      obtain ⟨hult, hu⟩ := prefix_proper hup hne
      rw [hlen]
      refine le_overlap hult ?_
      unfold Cand
      rw [← hu]
      exact hut

/-- What a call on `text` behind the chunks `before` is to return when it misses. -/
structure ReportsPending (pat : List Char) (before : List (List Char)) (text : List Char)
    (r : Int) : Prop where
  pending : ∀ s, Pending pat (before.flatten ++ text) s →
    r = (before.flatten ++ text).length - s.length
  nothing : (∀ s, ¬ Pending pat (before.flatten ++ text) s) → before = [] → r < 0

/-- The place, in the chunk that has it, of the last letter at which the longest end of
the text so far that begins the pattern is one letter long; -1 when there is none. -/
def lastAttempt (pat : List Char) : List Char → Int → List (List Char) → Int
  | _, mi, [] => mi
  | prev, mi, t :: ts => lastAttempt pat (prev ++ t) (attempt pat prev t mi) ts

/-- The pending match begins where the last attempt did, in the last chunk; with nothing
pending behind a first chunk, this chunk has no letter that begins the pattern. -/
structure PendingStarts (pat : List Char) (before : List (List Char)) (text : List Char) :
    Prop where
  pending : ∀ s, Pending pat (before.flatten ++ text) s →
    lastAttempt pat [] (-1) (before ++ [text]) = text.length - s.length
  nothing : (∀ s, ¬ Pending pat (before.flatten ++ text) s) → before = [] →
    ∀ c ∈ text, pat.head? ≠ some c

theorem lastAttempt_snoc (before : List (List Char)) (text prev : List Char) (mi : Int) :
    lastAttempt pat prev mi (before ++ [text]) =
      attempt pat (prev ++ before.flatten) text (lastAttempt pat prev mi before) := by
  induction before generalizing prev mi with
  | nil =>
    rw [List.nil_append, lastAttempt, lastAttempt, lastAttempt, List.flatten_nil, List.append_nil]
  | cons t ts ih =>
    rw [List.cons_append, lastAttempt, ih, lastAttempt, List.flatten_cons, List.append_assoc]

theorem lastAttempt_bounds {prev : List Char} {mi : Int} {b : Nat} {chunks : List (List Char)}
    (h0 : -1 ≤ mi) (h1 : mi < b) (hs : chunks.flatten.length ≤ b) :
    -1 ≤ lastAttempt pat prev mi chunks ∧ lastAttempt pat prev mi chunks < b := by
  induction chunks generalizing prev mi with
  | nil => exact ⟨h0, h1⟩
  | cons t ts ih =>
    rw [List.flatten_cons, List.length_append] at hs
    obtain ⟨hlo, hhi⟩ := attempt_bounds pat prev t h0 h1 (by omega)
    exact ih hlo hhi (by omega)

/-- The chunks before the miss leave the object fed, with `matchIndex` at the last attempt. -/
theorem feeds_spec (hpat : pat ≠ []) (chunks : List (List Char)) :
    ∀ (k : Kmp) (prev : List Char), Fed k pat prev →
      (prev ++ chunks.flatten).length < 2 ^ 31 → ¬ pat <:+: prev ++ chunks.flatten →
      ∃ k', k.feeds chunks = .ret k' ∧ Fed k' pat (prev ++ chunks.flatten) ∧
        k'.matchIndex = lastAttempt pat prev k.matchIndex chunks := by
  induction chunks with
  | nil =>
    intro k prev h _ _
    rw [List.flatten_nil, List.append_nil]
    exact ⟨k, rfl, h, rfl⟩
  | cons t ts ih =>
    intro k prev h hs hno
    rw [List.flatten_cons, ← List.append_assoc] at hs hno ⊢
    have hno' : ¬ pat <:+: prev ++ t := fun hin => hno (hin.trans (List.prefix_append _ _).isInfix)
    simp only [List.length_append] at hs
    obtain ⟨k', hk, hfed, hmi⟩ := search_miss h hpat t (by omega) hno'
    obtain ⟨k'', hk', hfed', hmi'⟩ := ih k' (prev ++ t) hfed
      (by simp only [List.length_append]; omega) hno
    refine ⟨k'', ?_, hfed', ?_⟩
    · rw [feeds, hk, Outcome.ret_bind]
      exact hk'
    · rw [hmi', hmi, lastAttempt]

/-! ### No attempt -/

/-- Without a letter that begins the pattern nothing of it ends the text. -/
theorem overlap_eq_zero {t : List Char} {b : Nat} (hb : 0 < b) (hpat : pat ≠ [])
    (h : ∀ c ∈ t, pat.head? ≠ some c) : overlap pat t b = 0 := by
  obtain ⟨a, rest, rfl⟩ := List.exists_cons_of_ne_nil hpat
  refine overlap_eq hb (cand_zero _ _) ?_
  intro k hk _ hcand
  obtain ⟨k, rfl⟩ : ∃ j, k = j + 1 := ⟨k - 1, by omega⟩
  have ha : a ∈ t := hcand.subset (by rw [List.take_succ_cons]; exact List.mem_cons_self)
  exact h a ha rfl

/-- A letter that begins the pattern begins an attempt where none was under way. -/
theorem overlap_snoc_one {t : List Char} {c : Char} (h1 : 1 < pat.length)
    (h0 : overlap pat t pat.length = 0) (hc : pat.head? = some c) :
    overlap pat (t ++ [c]) pat.length = 1 := by
  have htry : Trying pat t pat.length c (overlap pat t pat.length) :=
    trying_overlap (by omega) c
  rw [h0] at htry
  have hhit := htry.hit (Nat.le_refl _) (by rw [← List.head?_eq_getElem?]; exact hc)
  rw [overlap_succ_of_lt (by omega), hhit]

/-- A first chunk has an attempt when it has a letter that begins the pattern. -/
theorem lastStart_eq_none_iff {t : List Char} (hpat : pat ≠ []) (hno : ¬ pat <:+: t) :
    lastStart pat [] t = none ↔ ∀ c ∈ t, pat.head? ≠ some c := by
  have hpos := List.length_pos_of_ne_nil hpat
  induction t using List.reverseRecOn with
  | nil => simp [lastStart]
  | append_singleton t c ih =>
    have hno' : ¬ pat <:+: t := fun hin => hno (hin.trans (List.prefix_append _ _).isInfix)
    rw [lastStart_snoc, List.nil_append]
    by_cases hone : overlap pat (t ++ [c]) pat.length = 1
    · rw [if_pos hone]
      constructor
      · intro h
        cases h
      · intro h
        rw [overlap_eq_zero hpos hpat h] at hone
        cases hone
    · rw [if_neg hone]
      refine (ih hno').trans ?_
      constructor
      · intro h d hd
        rcases List.mem_append.mp hd with hd | hd
        · exact h d hd
        · obtain rfl := List.mem_singleton.mp hd
          intro hc
          by_cases h1 : 1 < pat.length
          · exact hone (overlap_snoc_one h1 (overlap_eq_zero hpos hpat h) hc)
          · -- a pattern of this one letter would have been found
            obtain ⟨a, rfl⟩ := List.length_eq_one_iff.mp (show pat.length = 1 by omega)
            rw [List.head?_cons, Option.some.injEq] at hc
            subst hc
            exact hno (List.suffix_append t [a]).isInfix
      · intro h d hd
        exact h d (List.mem_append_left _ hd)

/-- **What a miss reports**: the start of the pending match exactly when `PendingStarts`. -/
theorem reportsPending_iff {before : List (List Char)} {text : List Char} (hpat : pat ≠ [])
    (hps : pat.length < 2 ^ 31) (hs : (before.flatten ++ text).length < 2 ^ 31)
    (hno : ¬ pat <:+: before.flatten ++ text) :
    ∃ k0 k k' r, make pat = .ret k0 ∧ k0.feeds before = .ret k ∧ k.search text = .ret (k', r) ∧
      (ReportsPending pat before text r ↔ PendingStarts pat before text) := by
  obtain ⟨k0, hk0, hfed0, hmi0⟩ := make_spec hpat hps
  have hno' : ¬ pat <:+: [] ++ before.flatten := fun hin =>
    hno (hin.trans (List.prefix_append _ _).isInfix)
  rw [List.length_append] at hs
  obtain ⟨k, hk, hfed, hmi⟩ := feeds_spec hpat before k0 [] hfed0
    (by rw [List.nil_append]; omega) hno'
  rw [List.nil_append] at hfed
  obtain ⟨k', hk', -, -⟩ := search_miss hfed hpat text (by omega) hno
  have hlast : lastAttempt pat [] (-1) (before ++ [text]) =
      attempt pat before.flatten text k.matchIndex := by
    rw [lastAttempt_snoc, hmi, hmi0, List.nil_append]
  have hflat : (before ++ [text]).flatten.length ≤ before.flatten.length + text.length := by simp
  have hm1 : (-1 : Int) < (before.flatten.length + text.length : Nat) := by omega
  obtain ⟨hlo, hhi⟩ : -1 ≤ lastAttempt pat [] (-1) (before ++ [text]) ∧
      lastAttempt pat [] (-1) (before ++ [text]) < (before.flatten.length + text.length : Nat) :=
    lastAttempt_bounds (Int.le_refl _) hm1 hflat
  rw [← hlast] at hk'
  refine ⟨k0, k, k', _, hk0, hk, hk', ?_⟩
  -- a place past the range of `int` is the start of no match
  have hpending : ∀ s : List Char, s.length ≤ before.flatten.length + text.length →
      (toInt32 (lastAttempt pat [] (-1) (before ++ [text]) + before.flatten.length) =
          (before.flatten ++ text).length - s.length ↔
        lastAttempt pat [] (-1) (before ++ [text]) = text.length - s.length) := by
    intro s hs
    unfold toInt32
    rw [Int.bmod_def, List.length_append]
    omega
  have hnothing : before = [] →
      (toInt32 (lastAttempt pat [] (-1) (before ++ [text]) + before.flatten.length) < 0 ↔
        ∀ c ∈ text, pat.head? ≠ some c) := by
    rintro rfl
    have hno0 : ¬ pat <:+: text := hno
    have hatt : lastAttempt pat [] (-1) ([] ++ [text]) = attempt pat [] text (-1) := by
      rw [lastAttempt_snoc, List.flatten_nil, List.append_nil, lastAttempt]
    rw [List.flatten_nil, List.length_nil] at hhi ⊢
    rw [← lastStart_eq_none_iff hpat hno0, toInt32_of_small (by omega) (by omega), hatt, attempt]
    cases lastStart pat [] text with
    | none => simp
    | some i =>
      simp only [reduceCtorEq, iff_false]
      omega
  constructor
  · intro h
    refine ⟨fun s hs => ?_, fun h0 hb => (hnothing hb).mp (h.nothing h0 hb)⟩
    have hle := hs.ends.length_le
    rw [List.length_append] at hle
    exact (hpending s hle).mp (h.pending s hs)
  · intro h
    refine ⟨fun s hs => ?_, fun h0 hb => (hnothing hb).mpr (h.nothing h0 hb)⟩
    have hle := hs.ends.length_le
    rw [List.length_append] at hle
    exact (hpending s hle).mpr (h.pending s hs)

/-- The pending match begins with the last attempt, in the last chunk. -/
theorem reportsPending_dcdax :
    ∃ k0 k k' r, make "dcdax".toList = .ret k0 ∧ k0.feeds ["abcdd".toList] = .ret k ∧
      k.search "dcd".toList = .ret (k', r) ∧
      (ReportsPending "dcdax".toList ["abcdd".toList] "dcd".toList r ↔
        PendingStarts "dcdax".toList ["abcdd".toList] "dcd".toList) :=
  reportsPending_iff (by decide) (by decide) (by decide) (by decide)

/-- `aab` in `aaa`: the search falls back to `aa`, which begins at 1, and reports 0. -/
theorem pending_not_reported :
    ¬ ∀ (pat : List Char) (before : List (List Char)) (text : List Char) (k0 k k' : Kmp) (r : Int),
      pat ≠ [] → ¬ pat <:+: before.flatten ++ text → make pat = .ret k0 →
      k0.feeds before = .ret k → k.search text = .ret (k', r) →
      ReportsPending pat before text r := by
  intro hall
  have hrep := hall "aab".toList [] "aaa".toList ⟨[0, 1, 0], "aab".toList, 0, -1, 0⟩
    ⟨[0, 1, 0], "aab".toList, 0, -1, 0⟩ ⟨[0, 1, 0], "aab".toList, 2, 0, 3⟩ 0
    (by decide) (by decide) (by decide +kernel) rfl (by decide +kernel)
  have hp : Pending "aab".toList ([].flatten ++ "aaa".toList) "aa".toList :=
    (pending_iff (by decide)).mpr (by decide)
  exact absurd (hrep.pending _ hp) (by decide)

end Hcpp.Kmp
