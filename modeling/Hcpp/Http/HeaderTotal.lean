import Hcpp.Http.HeaderGrammar

/-!
# `parser_header` on arbitrary bytes

`parserHeaderWithin` is `parser_header` as it is safe to run: whatever is cut off
the view ends at a position that was found in it.  `parserHeader_total_iff`: it
returns on a text, and accepts none whose last line is not ended, if and only if
the text does not break off inside a continuation line (`TruncatedFold`).
-/

namespace Hcpp

/-! ## The guarded parser -/

/-- `svl.remove_prefix(pos + 2)`, where `pos` was found in the view. -/
def cutBehind (pos : Option Nat) (svl : List Char) : Outcome (List Char) :=
  match pos with
  | none => .undefined
  | some p => if p + 2 ≤ svl.length then .ret (svl.drop (p + 2)) else .undefined

def skipFoldedWithin : Nat → List Char → Outcome (List Char)
  | 0, _ => .spins
  | fuel + 1, svl =>
    if svl.head? = some ' ' then do
      let svl ← cutBehind (Search.find crlf (svl.drop 1)) (svl.drop 1)
      skipFoldedWithin fuel svl
    else .ret svl

def parserHeaderWithinLoop : Nat → List Char → Headers → Outcome (Bool × Headers)
  | 0, _, _ => .spins
  | fuel + 1, svl, h =>
    if svl = [] then .ret (true, h)
    else
      match Search.find colonSp svl with
      | none => .ret (false, h)
      | some nameEnd => do
        let val ← cutBehind (some nameEnd) svl
        match Search.find crlf val with
        | none => .ret (false, h)
        | some valEnd => do
          let rest ← cutBehind (some valEnd) val
          let h := h.set (toLower (svl.take nameEnd)) (svl.take (nameEnd + 2 + valEnd + 2))
          let rest ← skipFoldedWithin (svl.length + 1) rest
          parserHeaderWithinLoop fuel rest h

def parserHeaderWithin (svl : List Char) (h : Headers) : Outcome (Bool × Headers) :=
  parserHeaderWithinLoop (svl.length + 1) svl h

/-- `parser_header` returns, with every cut inside the view, and accepts no text whose last
line is not ended. -/
def HeaderTotal (s : List Char) (h : Headers) : Prop :=
  ∃ accepted h', parserHeader s h = .ret (accepted, h') ∧
    parserHeaderWithin s h = .ret (accepted, h') ∧
    (s ≠ [] → ¬ crlf <:+ s → accepted = false)

/-! ## Texts that break off in a continuation line -/

/-- Continuation lines, each with its line end. -/
def foldsText (bs : List (List Char)) : List Char := bs.flatMap fun b => ' ' :: b ++ crlf

/-- Continuation lines and a last one without a line end. -/
def OpenFold (s : List Char) : Prop :=
  ∃ bs t, s = foldsText bs ++ ' ' :: t ∧ (∀ b ∈ bs, ¬ crlf <:+: b) ∧ ¬ crlf <:+: t

/-- The text breaks off in a continuation line: the line that is continued has a `: `. -/
def TruncatedFold (s : List Char) : Prop :=
  ∃ a b c, s = a ++ colonSp ++ b ++ crlf ++ c ∧ ¬ crlf <:+: b ∧ OpenFold c

theorem TruncatedFold.append {s : List Char} (h : TruncatedFold s) (a : List Char) :
    TruncatedFold (a ++ s) := by
  obtain ⟨a', b, c, rfl, hb, hc⟩ := h
  exact ⟨a ++ a', b, c, by simp only [List.append_assoc], hb, hc⟩

/-! ## The steps of the two parsers -/

theorem cutBehind_found {pat s : List Char} {p : Nat} (h2 : pat.length = 2)
    (h : Search.find pat s = some p) : cutBehind (some p) s = .ret (s.drop (p + 2)) := by
  have hle := Search.find_add_length_le h
  rw [cutBehind, if_pos (by omega)]

theorem skipFolded_of_within (fuel : Nat) {s r : List Char}
    (h : skipFoldedWithin fuel s = .ret r) : skipFolded fuel s = .ret r := by
  induction fuel generalizing s with
  | zero => cases h
  | succ fuel ih =>
    rw [skipFoldedWithin] at h
    rw [skipFolded]
    by_cases hs : s.head? = some ' '
    · rw [if_pos hs] at h ⊢
      cases hf : Search.find crlf (s.drop 1) with
      | none =>
        rw [hf, cutBehind, Outcome.undefined_bind] at h
        cases h
      | some p =>
        rw [hf, cutBehind_found rfl hf, Outcome.ret_bind] at h
        simp only [hf]
        exact ih h
    · rw [if_neg hs] at h ⊢
      exact h

theorem parserHeaderLoop_of_within (fuel : Nat) {s : List Char} {h : Headers} {r : Bool × Headers}
    (hw : parserHeaderWithinLoop fuel s h = .ret r) : parserHeaderLoop fuel s h = .ret r := by
  induction fuel generalizing s h with
  | zero => cases hw
  | succ fuel ih =>
    rw [parserHeaderWithinLoop] at hw
    rw [parserHeaderLoop]
    by_cases h0 : s = []
    · rw [if_pos h0] at hw ⊢
      exact hw
    rw [if_neg h0] at hw ⊢
    have hfind : Search.find [':', ' '] s = Search.find colonSp s := rfl
    cases hn : Search.find colonSp s with
    | none =>
      simp only [hn] at hw
      simp only [hfind, hn]
      exact hw
    | some nameEnd =>
      simp only [hn, cutBehind_found rfl hn, Outcome.ret_bind] at hw
      simp only [hfind, hn]
      cases hv : Search.find crlf (s.drop (nameEnd + 2)) with
      | none =>
        simp only [hv] at hw
        exact hw
      | some valEnd =>
        simp only [hv, cutBehind_found rfl hv, Outcome.ret_bind, List.drop_drop] at hw
        rw [Outcome.bind_eq_ret] at hw
        obtain ⟨rest, hskip, hrec⟩ := hw
        have hdrop : nameEnd + 2 + (valEnd + 2) = nameEnd + 2 + valEnd + 2 := by omega
        rw [hdrop] at hskip
        simp only [skipFolded_of_within _ hskip, Outcome.ret_bind]
        exact ih hrec

/-! ## Lines with a `: ` -/

theorem not_crlf_cons {c : Char} {s : List Char} (hc : c ≠ '\r') (hs : ¬ crlf <:+: s) :
    ¬ crlf <:+: c :: s := by
  rw [List.infix_cons_iff]
  rintro (h | h)
  · exact hc (List.cons_prefix_cons.mp h).1.symm
  · exact hs h

theorem not_crlf_colonSp {b : List Char} (hb : ¬ crlf <:+: b) : ¬ crlf <:+: colonSp ++ b :=
  not_crlf_cons (by decide) (not_crlf_cons (by decide) hb)

/-- A line end before the end of `a ++ ": " ++ b` is one of `a`. -/
theorem crlf_before {a b x y : List Char} (hb : ¬ crlf <:+: b)
    (h : a ++ (colonSp ++ b) = x ++ crlf ++ y) : ∃ a', y = a' ++ (colonSp ++ b) := by
  rw [List.append_assoc] at h
  rcases List.append_eq_append_iff.mp h with ⟨t, rfl, ht⟩ | ⟨t, rfl, ht⟩
  · exact absurd ⟨t, y, by rw [ht, List.append_assoc]⟩ (not_crlf_colonSp hb)
  · unfold crlf colonSp at ht
    match t, ht with
    | [], ht => simp at ht
    | [c], ht => simp at ht
    | c :: d :: t, ht =>
      simp only [List.cons_append, List.cons.injEq, List.nil_append] at ht
      exact ⟨t, by rw [ht.2.2]; rfl⟩

/-- The line before the first line end is the one with the `: `, or stands before it. -/
theorem line_step {x rest a b c : List Char} (hx : ¬ crlf <:+: x) (hb : ¬ crlf <:+: b)
    (h : x ++ crlf ++ rest = a ++ colonSp ++ b ++ crlf ++ c) :
    rest = c ∨ ∃ a', rest = a' ++ colonSp ++ b ++ crlf ++ c := by
  rcases crlf_next hx h with ⟨-, h⟩ | ⟨t, ht, h⟩
  · exact .inl h
  · rw [List.append_assoc] at ht
    obtain ⟨a', rfl⟩ := crlf_before hb ht
    right
    exact ⟨a', by rw [h]; simp only [List.append_assoc]⟩

/-! ## A text that breaks off -/

theorem find_crlf_line {x : List Char} (hx : ¬ crlf <:+: x) (rest : List Char) :
    Search.find crlf (x ++ crlf ++ rest) = some x.length ∧
      (x ++ crlf ++ rest).drop (x.length + 2) = rest := by
  refine ⟨Search.find_pair_end (by decide) hx rest, ?_⟩
  exact List.drop_left' (by simp [crlf])

/-- Behind the line of a field the text is shorter. -/
theorem length_behind_field {s : List Char} {n : Nat} (hn : Search.find colonSp s = some n)
    (p : Nat) : ((s.drop (n + 2)).drop (p + 2)).length < s.length := by
  have hle := Search.find_add_length_le hn
  have h2 : colonSp.length = 2 := rfl
  rw [List.length_drop, List.length_drop]
  omega

theorem skip_openFold (fuel : Nat) {s : List Char} (h : OpenFold s) (hfuel : s.length < fuel) :
    skipFoldedWithin fuel s = .undefined := by
  obtain ⟨bs, t, rfl, hbs, ht⟩ := h
  induction bs generalizing fuel with
  | nil =>
    obtain ⟨fuel, rfl⟩ : ∃ k, fuel = k + 1 := ⟨fuel - 1, by omega⟩
    have hfind : Search.find crlf ((foldsText [] ++ ' ' :: t).drop 1) = none :=
      Search.find_eq_none_iff.mpr ht
    rw [skipFoldedWithin, if_pos (by rfl), hfind]
    rfl
  | cons b bs ih =>
    obtain ⟨fuel, rfl⟩ : ∃ k, fuel = k + 1 := ⟨fuel - 1, by omega⟩
    have hs : foldsText (b :: bs) ++ ' ' :: t =
        ' ' :: (b ++ crlf ++ (foldsText bs ++ ' ' :: t)) := by
      simp [foldsText]
    obtain ⟨hfind, hdrop⟩ := find_crlf_line (hbs b (by simp)) (foldsText bs ++ ' ' :: t)
    rw [hs, List.length_cons, List.length_append, List.length_append] at hfuel
    rw [hs, skipFoldedWithin, if_pos (by rfl), List.drop_one, List.tail_cons, hfind,
      cutBehind_found rfl hfind, Outcome.ret_bind, hdrop]
    exact ih fuel (by omega) fun b hb => hbs b (by simp [hb])

/-- Skipping lines does not step over the line that is continued by the open one. -/
theorem skip_truncated (fuel : Nat) {s : List Char} (h : TruncatedFold s)
    (hfuel : s.length < fuel) :
    skipFoldedWithin fuel s = .undefined ∨
      ∃ r, skipFoldedWithin fuel s = .ret r ∧ TruncatedFold r ∧ r.length ≤ s.length := by
  induction fuel generalizing s with
  | zero => omega
  | succ fuel ih =>
    rw [skipFoldedWithin]
    by_cases hs : s.head? = some ' '
    · rw [if_pos hs]
      obtain ⟨t, rfl⟩ := List.head?_eq_some_iff.mp hs
      rw [List.drop_one, List.tail_cons]
      obtain ⟨a, b, c, heq, hb, hc⟩ := h
      cases hf : Search.find crlf t with
      | none =>
        left
        rfl
      | some p =>
        rw [cutBehind_found rfl hf, Outcome.ret_bind]
        obtain ⟨hsplit, hno⟩ := split_line hf
        have hline : ' ' :: t.take p ++ crlf ++ t.drop (p + 2) =
            a ++ colonSp ++ b ++ crlf ++ c := by
          rw [← heq, List.cons_append, List.cons_append, ← hsplit]
        have hlen : (t.drop (p + 2)).length ≤ t.length := by
          rw [List.length_drop]
          omega
        rw [List.length_cons] at hfuel
        rcases line_step (not_crlf_cons (by decide) hno) hb hline with hrest | ⟨a', hrest⟩
        · left
          exact skip_openFold fuel (hrest ▸ hc) (by omega)
        · rcases ih ⟨a', b, c, hrest, hb, hc⟩ (by omega) with hu | ⟨r, hr, htr, hle⟩
          · exact .inl hu
          · right
            refine ⟨r, hr, htr, ?_⟩
            rw [List.length_cons]
            omega
    · rw [if_neg hs]
      exact .inr ⟨s, rfl, h, Nat.le_refl _⟩

/-- **A text that breaks off** is cut at a position that is not in it. -/
theorem loop_truncated (fuel : Nat) {s : List Char} (ht : TruncatedFold s) (h : Headers)
    (hfuel : s.length < fuel) : parserHeaderWithinLoop fuel s h = .undefined := by
  induction fuel generalizing s h with
  | zero => omega
  | succ fuel ih =>
    obtain ⟨a, b, c, heq, hb, hc⟩ := ht
    have hne : s ≠ [] := by
      rintro rfl
      simp [colonSp] at heq
    rw [parserHeaderWithinLoop, if_neg hne]
    have hin : colonSp <:+: s := ⟨a, b ++ crlf ++ c, by rw [heq]; simp only [List.append_assoc]⟩
    obtain ⟨n, hn⟩ := Search.exists_find hin
    obtain ⟨-, hat, hmin⟩ := Search.find_eq_some_iff.mp hn
    -- the first `: ` is that of the line, or stands before it
    have hna : n ≤ a.length := by
      by_contra hlt
      apply hmin a.length (by omega)
      rw [heq]
      simp only [List.append_assoc, List.drop_left]
      exact List.prefix_append _ _
    have hdrop : colonSp ++ s.drop (n + 2) = s.drop n := by
      rw [← List.drop_drop]
      exact List.prefix_iff_eq_append.mp hat
    have hrest : s.drop n = a.drop n ++ colonSp ++ b ++ crlf ++ c := by
      rw [heq]
      simp only [List.append_assoc]
      exact List.drop_append_of_le_length hna
    have hcr : crlf <:+: s.drop (n + 2) := by
      by_contra hno
      apply not_crlf_colonSp hno
      rw [hdrop, hrest]
      exact ⟨a.drop n ++ colonSp ++ b, c, rfl⟩
    obtain ⟨p, hp⟩ := Search.exists_find hcr
    obtain ⟨hsplit, hno⟩ := split_line hp
    simp only [hn, cutBehind_found rfl hn, Outcome.ret_bind, hp, cutBehind_found rfl hp]
    have hline : colonSp ++ (s.drop (n + 2)).take p ++ crlf ++ (s.drop (n + 2)).drop (p + 2) =
        a.drop n ++ colonSp ++ b ++ crlf ++ c := by
      rw [← hrest, ← hdrop, List.append_assoc, List.append_assoc, ← List.append_assoc _ crlf,
        ← hsplit]
    have hlen := length_behind_field hn p
    rcases line_step (not_crlf_colonSp hno) hb hline with hr | ⟨a', hr⟩
    · rw [skip_openFold _ (hr ▸ hc) (by omega), Outcome.undefined_bind]
    · rcases skip_truncated (s.length + 1) ⟨a', b, c, hr, hb, hc⟩ (by omega) with
        hu | ⟨r, hret, htr, hle⟩
      · rw [hu, Outcome.undefined_bind]
      · rw [hret, Outcome.ret_bind]
        exact ih htr _ (by omega)

/-! ## Any other text -/

theorem skipFoldedWithin_cases (fuel : Nat) {s : List Char} (hfuel : s.length < fuel) :
    (∃ bs r, s = foldsText bs ++ r ∧ skipFoldedWithin fuel s = .ret r) ∨ OpenFold s := by
  induction fuel generalizing s with
  | zero => omega
  | succ fuel ih =>
    rw [skipFoldedWithin]
    by_cases hs : s.head? = some ' '
    · obtain ⟨t, rfl⟩ := List.head?_eq_some_iff.mp hs
      rw [if_pos hs, List.drop_one, List.tail_cons]
      rw [List.length_cons] at hfuel
      cases hf : Search.find crlf t with
      | none => exact .inr ⟨[], t, rfl, by simp, Search.find_eq_none_iff.mp hf⟩
      | some p =>
        obtain ⟨hsplit, hno⟩ := split_line hf
        have hlen : (t.drop (p + 2)).length ≤ t.length := by
          rw [List.length_drop]
          omega
        rw [cutBehind_found rfl hf, Outcome.ret_bind]
        rcases ih (show (t.drop (p + 2)).length < fuel by omega) with
          ⟨bs, r, hr, hret⟩ | ⟨bs, u, hu, hbs, hut⟩
        · left
          refine ⟨t.take p :: bs, r, ?_, hret⟩
          calc ' ' :: t = ' ' :: (t.take p ++ crlf ++ t.drop (p + 2)) := by rw [← hsplit]
            _ = foldsText (t.take p :: bs) ++ r := by rw [hr]; simp [foldsText]
        · right
          refine ⟨t.take p :: bs, u, ?_, ?_, hut⟩
          · calc ' ' :: t = ' ' :: (t.take p ++ crlf ++ t.drop (p + 2)) := by rw [← hsplit]
              _ = foldsText (t.take p :: bs) ++ ' ' :: u := by rw [hu]; simp [foldsText]
          · intro b hb
            rcases List.mem_cons.mp hb with rfl | hb
            · exact hno
            · exact hbs b hb
    · rw [if_neg hs]
      exact .inl ⟨[], s, rfl, rfl⟩

/-- What is skipped ends with the end of a line. -/
theorem ends_crlf {x r : List Char} (bs : List (List Char)) (hr : r = [] ∨ crlf <:+ r) :
    crlf <:+ x ++ crlf ++ (foldsText bs ++ r) := by
  rcases hr with rfl | hr
  · rw [List.append_nil]
    rcases List.eq_nil_or_concat bs with rfl | ⟨as, b, rfl⟩
    · exact ⟨x, by simp [foldsText]⟩
    · refine ⟨x ++ crlf ++ (foldsText as ++ ' ' :: b), ?_⟩
      simp [foldsText]
  · exact (hr.trans (List.suffix_append _ _)).trans (List.suffix_append _ _)

/-- **Any other text** is cut within bounds, and accepted only with its last line ended. -/
theorem loop_total (fuel : Nat) {s : List Char} (hno : ¬ TruncatedFold s) (h : Headers)
    (hfuel : s.length < fuel) :
    ∃ accepted h', parserHeaderWithinLoop fuel s h = .ret (accepted, h') ∧
      (accepted = true → s = [] ∨ crlf <:+ s) := by
  induction fuel generalizing s h with
  | zero => omega
  | succ fuel ih =>
    rw [parserHeaderWithinLoop]
    by_cases h0 : s = []
    · rw [if_pos h0]
      exact ⟨true, h, rfl, fun _ => .inl h0⟩
    rw [if_neg h0]
    cases hn : Search.find colonSp s with
    | none => exact ⟨false, h, rfl, by simp⟩
    | some n =>
      simp only [cutBehind_found rfl hn, Outcome.ret_bind]
      cases hp : Search.find crlf (s.drop (n + 2)) with
      | none => exact ⟨false, h, rfl, by simp⟩
      | some p =>
        simp only [cutBehind_found rfl hp, Outcome.ret_bind]
        obtain ⟨hsplit, hnc⟩ := split_line hp
        have hs : s = s.take n ++ colonSp ++ (s.drop (n + 2)).take p ++ crlf ++
            (s.drop (n + 2)).drop (p + 2) := by
          rw [List.append_assoc, List.append_assoc, ← List.append_assoc _ crlf, ← hsplit]
          exact Search.find_split hn
        have hlen := length_behind_field hn p
        rcases skipFoldedWithin_cases (s.length + 1)
          (show ((s.drop (n + 2)).drop (p + 2)).length < s.length + 1 by omega) with
          ⟨bs, r, hr, hret⟩ | hopen
        · rw [hret, Outcome.ret_bind]
          have hs' : s = s.take n ++ colonSp ++ (s.drop (n + 2)).take p ++ crlf ++
              (foldsText bs ++ r) := by
            rw [← hr]
            exact hs
          have hrno : ¬ TruncatedFold r := by
            intro ht
            apply hno
            rw [hs', ← List.append_assoc _ _ r]
            exact ht.append _
          have hrlen : r.length < fuel := by
            have := congrArg List.length hr
            rw [List.length_append] at this
            omega
          obtain ⟨accepted, h', hloop, hend⟩ := ih hrno _ hrlen
          refine ⟨accepted, h', hloop, fun ha => .inr ?_⟩
          rw [hs']
          exact ends_crlf bs (hend ha)
        · exact absurd ⟨_, _, _, hs, hnc, hopen⟩ hno

/-- **`parser_header` is total** on the texts that do not break off in a continuation line,
and on no other. -/
theorem parserHeader_total_iff (s : List Char) (h : Headers) :
    HeaderTotal s h ↔ ¬ TruncatedFold s := by
  constructor
  · rintro ⟨accepted, h', -, hret, -⟩ ht
    rw [parserHeaderWithin, loop_truncated _ ht h (Nat.lt_succ_self _)] at hret
    cases hret
  · intro hno
    obtain ⟨accepted, h', hret, hend⟩ := loop_total (s.length + 1) hno h (Nat.lt_succ_self _)
    refine ⟨accepted, h', parserHeaderLoop_of_within _ hret, hret, fun hne hcr => ?_⟩
    by_contra ha
    rw [Bool.not_eq_false] at ha
    rcases hend ha with h0 | h1
    · exact hne h0
    · exact hcr h1

/-- The block ends in the middle of a folded value. -/
theorem parserHeader_not_total : ¬ ∀ s h, HeaderTotal s h := by
  intro hall
  obtain ⟨accepted, h', -, hret, -⟩ := hall "A: b\r\n ".toList []
  have hu : parserHeaderWithin "A: b\r\n ".toList [] = .undefined := by decide
  rw [hu] at hret
  cases hret

end Hcpp
