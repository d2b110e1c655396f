import Hcpp.Http.HttpMsg

/-!
# Header blocks and what `parser_header` stores of them

A block is a list of lines.  `parser_header` cuts it into entries: an entry
begins at a line, its name ends at the first `: `, which may be in a later line,
and its text at the CRLF behind that; the lines after it that begin with a
space are skipped (`cutBlock`, `parserHeader_block`).  The text of an entry is
stored under its lower-cased name, in the place of an earlier entry's.
-/

namespace Hcpp

/-- A line of a header block, without its CRLF. -/
structure HeaderLine where
  text : List Char
  ne : text ≠ []
  noCrlf : ¬ crlf <:+: text

def linesText (ls : List HeaderLine) : List Char := ls.flatMap fun l => l.text ++ crlf

@[simp] theorem linesText_nil : linesText [] = [] := rfl

@[simp] theorem linesText_cons (l : HeaderLine) (ls : List HeaderLine) :
    linesText (l :: ls) = l.text ++ crlf ++ linesText ls := rfl

@[simp] theorem linesText_append (as bs : List HeaderLine) :
    linesText (as ++ bs) = linesText as ++ linesText bs := List.flatMap_append

theorem length_le_linesText (ls : List HeaderLine) : ls.length ≤ (linesText ls).length := by
  induction ls with
  | nil => exact Nat.zero_le _
  | cons l ls ih =>
    have := List.length_pos_of_ne_nil l.ne
    simp only [linesText_cons, List.length_append, List.length_cons]
    omega

/-! ## A block is read back in one way -/

theorem split_line {s : List Char} {p : Nat} (h : Search.find crlf s = some p) :
    s = s.take p ++ crlf ++ s.drop (p + 2) ∧ ¬ crlf <:+: s.take p := by
  have h2 : crlf.length = 2 := rfl
  refine ⟨Search.find_split h, ?_⟩
  rw [← Search.find_eq_none_iff]
  exact Search.find_eq_none_of_prefix h (List.take_prefix _ _) (by rw [List.length_take]; omega)

/-- The next line end is that of the line, or one behind it. -/
theorem crlf_next {s x a y : List Char} (hs : ¬ crlf <:+: s)
    (h : s ++ crlf ++ x = a ++ crlf ++ y) :
    (s = a ∧ x = y) ∨ ∃ a', a = s ++ crlf ++ a' ∧ x = a' ++ crlf ++ y := by
  have hfind : Search.find crlf (s ++ crlf ++ x) = some s.length :=
    Search.find_pair_end (by decide) hs x
  have hle : s.length ≤ a.length := by
    by_contra hlt
    obtain ⟨-, -, hmin⟩ := Search.find_eq_some_iff.mp hfind
    apply hmin a.length (by omega)
    rw [h, List.append_assoc, List.drop_left]
    exact List.prefix_append _ _
  rw [List.append_assoc, List.append_assoc] at h
  have hpre : s <+: a := List.prefix_of_prefix_length_le
    (h ▸ List.prefix_append s (crlf ++ x)) (List.prefix_append a _) hle
  obtain ⟨t, rfl⟩ := hpre
  rw [List.append_assoc, List.append_cancel_left_eq] at h
  unfold crlf at h ⊢
  match t, h with
  | [], h =>
    left
    simpa using h
  | [c], h => simp at h
  | c :: d :: t, h =>
    right
    simp only [List.cons_append, List.cons.injEq, List.nil_append] at h
    obtain ⟨rfl, rfl, h⟩ := h
    exact ⟨t, by simp, by simp [h]⟩

/-- A line ends at the first CRLF behind it. -/
theorem crlf_cut {s t x y : List Char} (hs : ¬ crlf <:+: s) (ht : ¬ crlf <:+: t)
    (h : s ++ crlf ++ x = t ++ crlf ++ y) : s = t ∧ x = y := by
  rcases crlf_next hs h with h | ⟨a, rfl, -⟩
  · exact h
  · exact absurd ⟨s, a, rfl⟩ ht

theorem HeaderLine.ext_text {l k : HeaderLine} (h : l.text = k.text) : l = k := by
  cases l
  cases k
  cases h
  rfl

/-- A block is read back line by line, up to its CRLF. -/
theorem linesText_cut {as bs : List HeaderLine} {x y : List Char}
    (h : linesText as ++ crlf ++ x = linesText bs ++ crlf ++ y) : as = bs ∧ x = y := by
  induction as generalizing bs with
  | nil =>
    cases bs with
    | nil => exact ⟨rfl, List.append_cancel_left h⟩
    | cons b bs =>
      rw [linesText_cons, linesText_nil, List.append_assoc (b.text ++ crlf),
        List.append_assoc (b.text ++ crlf)] at h
      exact absurd (crlf_cut (by decide) b.noCrlf h).1.symm b.ne
  | cons a as ih =>
    rw [linesText_cons, List.append_assoc (a.text ++ crlf), List.append_assoc (a.text ++ crlf)] at h
    cases bs with
    | nil => exact absurd (crlf_cut a.noCrlf (by decide) h).1 a.ne
    | cons b bs =>
      rw [linesText_cons, List.append_assoc (b.text ++ crlf),
        List.append_assoc (b.text ++ crlf)] at h
      obtain ⟨hl, hrest⟩ := crlf_cut a.noCrlf b.noCrlf h
      obtain ⟨hls, hxy⟩ := ih hrest
      exact ⟨by rw [HeaderLine.ext_text hl, hls], hxy⟩

/-! ## Every head is cut into lines -/

/-- The text behind a CRLF, up to the first CRLFCRLF, is a block and its CRLF; by
induction on the length, a line at a time. -/
theorem exists_linesText (u : List Char)
    (hu : Search.find crlfcrlf (crlf ++ u) = some (u.length - 2)) (h2 : 2 ≤ u.length) :
    ∃ ls, u = linesText ls ++ crlf := by
  obtain ⟨k, hk⟩ : ∃ k, u.length ≤ k := ⟨_, Nat.le_refl _⟩
  induction k generalizing u with
  | zero => omega
  | succ k ih =>
    obtain ⟨-, hat, hmin⟩ := Search.find_eq_some_iff.mp hu
    have hc : crlf.length = 2 := rfl
    have hshift : ∀ j, 2 ≤ j → (crlf ++ u).drop j = u.drop (j - 2) := by
      intro j hj
      obtain ⟨j, rfl⟩ : ∃ i, j = 2 + i := ⟨j - 2, by omega⟩
      rw [Nat.add_sub_cancel_left]
      show (crlf ++ u).drop (crlf.length + j) = u.drop j
      exact List.drop_length_add_append j
    have hlast : crlf <:+: u := by
      have h := List.IsPrefix.drop hat 2
      rw [List.drop_drop, Nat.sub_add_cancel h2, hshift _ h2] at h
      exact h.isInfix.trans (List.drop_suffix _ _).isInfix
    obtain ⟨p, hp⟩ := Search.exists_find hlast
    obtain ⟨-, hpat, hpmin⟩ := Search.find_eq_some_iff.mp hp
    by_cases h0 : p = 0
    · subst h0
      have hzero : crlfcrlf <+: crlf ++ u := (List.prefix_append_right_inj crlf).mpr hpat
      have hi : u.length - 2 = 0 := by
        by_contra hne
        exact hmin 0 (by omega) hzero
      refine ⟨[], ?_⟩
      have hpre : crlf <+: u := hpat
      exact (hpre.eq_of_length (by omega)).symm
    · have hsplit := Search.find_split hp
      rw [hc] at hsplit
      have hple := Search.find_add_length_le hp
      -- no CRLFCRLF begins before the CRLF of this line
      have hbefore : p + 2 ≤ u.length - 2 := by
        by_contra hlt
        rcases Nat.lt_or_ge (u.length - 2) 2 with hsmall | hbig
        · have h1 : u.length - 2 = 1 := by omega
          rw [h1] at hat
          have hcr : crlfcrlf <+: '\n' :: u := hat
          cases (List.cons_prefix_cons.mp hcr).1
        · rw [hshift _ hbig] at hat
          exact hpmin _ (by omega) ((List.prefix_append crlf crlf).trans hat)
      have hdrop : crlf ++ u.drop (p + 2) = (crlf ++ u).drop (p + 2) := by
        rw [hshift _ (by omega), Nat.add_sub_cancel, ← List.drop_drop]
        exact (List.prefix_iff_eq_append.mp hpat)
      obtain ⟨ls, hls⟩ := ih (u.drop (p + 2)) (by
        rw [hdrop, Search.find_eq_some_iff]
        have hend : p + 2 + ((u.drop (p + 2)).length - 2) = u.length - 2 := by
          rw [List.length_drop]
          omega
        refine ⟨?_, by rw [List.drop_drop, hend]; exact hat, fun j hj => ?_⟩
        · rw [List.length_drop, List.length_drop, List.length_append]
          omega
        rw [List.drop_drop]
        exact hmin _ (by omega)) (by rw [List.length_drop]; omega) (by rw [List.length_drop]; omega)
      have hno : ¬ crlf <:+: u.take p := by
        rw [← Search.find_eq_none_iff]
        exact Search.find_eq_none_of_prefix hp (List.take_prefix _ _)
          (by rw [List.length_take]; omega)
      refine ⟨⟨u.take p, ?_, hno⟩ :: ls, ?_⟩
      · intro h
        have := congrArg List.length h
        rw [List.length_take, List.length_nil] at this
        omega
      · rw [linesText_cons, List.append_assoc, ← hls]
        exact hsplit

/-- A text that ends with its first CRLFCRLF: a line, a block, and a CRLF. -/
theorem exists_block {x : List Char} {i : Nat} (hi : Search.find crlfcrlf x = some i)
    (hx : x.length = i + 4) :
    ∃ s ls, x = s ++ crlf ++ (linesText ls ++ crlf) ∧ ¬ crlf <:+: s := by
  obtain ⟨-, hat, hmin⟩ := Search.find_eq_some_iff.mp hi
  have hc : crlf.length = 2 := rfl
  obtain ⟨p, hp⟩ : ∃ p, Search.find crlf x = some p := by
    apply Search.exists_find
    exact (show crlf <:+: crlfcrlf from ⟨[], crlf, rfl⟩).trans (Search.isInfix_of_find hi)
  obtain ⟨-, hpat, hpmin⟩ := Search.find_eq_some_iff.mp hp
  have hpi : p ≤ i := by
    by_contra hlt
    exact hpmin i (by omega) ((List.prefix_append crlf crlf).trans hat)
  have hsplit := Search.find_split hp
  rw [hc] at hsplit
  have hdrop : crlf ++ x.drop (p + 2) = x.drop p := by
    rw [← List.drop_drop]
    exact List.prefix_iff_eq_append.mp hpat
  obtain ⟨ls, hls⟩ := exists_linesText (x.drop (p + 2)) (by
    rw [hdrop, Search.find_eq_some_iff]
    have hend : p + ((x.drop (p + 2)).length - 2) = i := by
      rw [List.length_drop]
      omega
    refine ⟨?_, by rw [List.drop_drop, hend]; exact hat, fun j hj => ?_⟩
    · rw [List.length_drop, List.length_drop]
      omega
    · rw [List.drop_drop]
      exact hmin _ (by omega)) (by rw [List.length_drop]; omega)
  refine ⟨x.take p, ls, by rw [← hls]; exact hsplit, ?_⟩
  rw [← Search.find_eq_none_iff]
  exact Search.find_eq_none_of_prefix hp (List.take_prefix _ _) (by rw [List.length_take]; omega)

/-! ## Searching a block -/

/-- What ends the name of a field. -/
def colonSp : List Char := [':', ' ']

/-- No `: ` begins in a line without one. -/
theorem find_colonSp_skip {s : List Char} (hs : Search.find colonSp s = none) (t : List Char) :
    Search.find colonSp (s ++ crlf ++ t) = (Search.find colonSp t).map (s.length + 2 + ·) := by
  have hcr : ¬ colonSp <+: '\r' :: '\n' :: t := fun h => by cases (List.cons_prefix_cons.mp h).1
  have hlf : ¬ colonSp <+: '\n' :: t := fun h => by cases (List.cons_prefix_cons.mp h).1
  have hskip : Search.find colonSp (s ++ '\r' :: '\n' :: t) =
      (Search.find colonSp ('\r' :: '\n' :: t)).map (s.length + ·) :=
    Search.find_pair_skip (by decide) hs _
  have happ : s ++ crlf ++ t = s ++ '\r' :: '\n' :: t := by rw [List.append_assoc]; rfl
  rw [happ, hskip, Search.find_cons, if_neg hcr, Search.find_cons, if_neg hlf, Option.map_map,
    Option.map_map]
  congr 1
  ext i
  simp only [Function.comp_apply]
  omega

/-- The `: ` of the first line that has one is the first of the block. -/
theorem find_colonSp_block {pre : List HeaderLine}
    (hpre : ∀ l ∈ pre, Search.find colonSp l.text = none) (t : List Char) :
    Search.find colonSp (linesText pre ++ t) =
      (Search.find colonSp t).map ((linesText pre).length + ·) := by
  induction pre with
  | nil => simp
  | cons l pre ih =>
    rw [linesText_cons, List.append_assoc, find_colonSp_skip (hpre l (by simp)),
      ih fun l' hl => hpre l' (by simp [hl]), Option.map_map]
    congr 1
    ext i
    have h2 : crlf.length = 2 := rfl
    simp only [Function.comp_apply, List.length_append, h2]
    omega

/-! ## Cutting it into entries -/

/-- The lines of an entry, and the lines that are skipped behind it. -/
structure Entry where
  name : List Char
  lines : List HeaderLine
  folds : List HeaderLine

namespace Entry

def key (e : Entry) : List Char := toLower e.name

/-- The text that is stored. -/
def line (e : Entry) : List Char := linesText e.lines

end Entry

def HeaderLine.StartsSp (l : HeaderLine) : Prop := l.text.head? = some ' '

instance (l : HeaderLine) : Decidable l.StartsSp :=
  inferInstanceAs (Decidable (l.text.head? = some ' '))

/-- The entries of a block; the lines of `pre`, in which there is no `: `, belong to
the first one.  When `skipping`, lines that begin with a space are skipped first:
they are the other component. -/
def cutBlock : Bool → List HeaderLine → List HeaderLine → Option (List HeaderLine × List Entry)
  | _, pre, [] => if pre.isEmpty then some ([], []) else none
  | skipping, pre, l :: ls =>
    if skipping = true ∧ l.StartsSp then
      (cutBlock true [] ls).map fun (folds, es) => (l :: folds, es)
    else
      match Search.find colonSp l.text with
      | some i => (cutBlock true [] ls).map fun (folds, es) =>
          ([], ⟨linesText pre ++ l.text.take i, pre ++ [l], folds⟩ :: es)
      | none => cutBlock false (pre ++ [l]) ls

/-- `none` when the block is not accepted. -/
def entries (ls : List HeaderLine) : Option (List Entry) := (cutBlock false [] ls).map Prod.snd

/-- The table after the entries were stored one after the other. -/
def storeEntries (h : Headers) (es : List Entry) : Headers :=
  es.foldl (fun h e => h.set e.key e.line) h

/-! ### The loop of `parser_header` -/

theorem head?_linesText_cons (l : HeaderLine) (ls : List HeaderLine) :
    (linesText (l :: ls)).head? = l.text.head? := by
  obtain ⟨c, cs, hl⟩ := List.exists_cons_of_ne_nil l.ne
  rw [linesText_cons, hl]
  rfl

theorem skipFolded_line {l : HeaderLine} (hl : l.StartsSp) (ls : List HeaderLine) (fuel : Nat) :
    skipFolded (fuel + 1) (linesText (l :: ls)) = skipFolded fuel (linesText ls) := by
  obtain ⟨s, hs⟩ : ∃ s, l.text = ' ' :: s := by
    unfold HeaderLine.StartsSp at hl
    cases ht : l.text with
    | nil => simp [ht] at hl
    | cons c s =>
      rw [ht, List.head?_cons, Option.some.injEq] at hl
      exact ⟨s, by rw [hl]⟩
  have hno : ¬ crlf <:+: s := fun h =>
    l.noCrlf (h.trans (hs ▸ (List.suffix_cons ' ' s).isInfix))
  have hfind : Search.find crlf (s ++ crlf ++ linesText ls) = some s.length :=
    Search.find_pair_end (by decide) hno _
  have htext : linesText (l :: ls) = ' ' :: (s ++ crlf ++ linesText ls) := by
    rw [linesText_cons, hs, List.cons_append, List.cons_append]
  have hdrop : (s ++ crlf ++ linesText ls).drop (s.length + 2) = linesText ls :=
    List.drop_left' (by simp [crlf])
  rw [htext, skipFolded, List.head?_cons, if_pos rfl, List.drop_one, List.tail_cons]
  simp only [hfind, hdrop]

/-- An entry at the beginning of the text. -/
theorem parserHeaderLoop_entry {pre : List HeaderLine}
    (hpre : ∀ l ∈ pre, Search.find colonSp l.text = none) {l : HeaderLine} {i : Nat}
    (hl : Search.find colonSp l.text = some i) (t : List Char) (fuel : Nat) (h : Headers) :
    parserHeaderLoop (fuel + 1) (linesText pre ++ (l.text ++ crlf ++ t)) h = (do
      let svl ← skipFolded ((linesText pre ++ (l.text ++ crlf ++ t)).length + 1) t
      parserHeaderLoop fuel svl
        (h.set (toLower (linesText pre ++ l.text.take i)) (linesText (pre ++ [l])))) := by
  have hle := Search.find_add_length_le hl
  have h2 : colonSp.length = 2 := rfl
  rw [h2] at hle
  have hfind : Search.find colonSp (linesText pre ++ (l.text ++ crlf ++ t)) =
      some ((linesText pre).length + i) := by
    rw [find_colonSp_block hpre, List.append_assoc, Search.find_append_of_some hl]
    rfl
  have hne : linesText pre ++ (l.text ++ crlf ++ t) ≠ [] := by
    intro h0
    have := congrArg List.length h0
    have hpos := List.length_pos_of_ne_nil l.ne
    simp only [List.length_append, List.length_nil] at this
    omega
  have hname : (linesText pre ++ (l.text ++ crlf ++ t)).take ((linesText pre).length + i) =
      linesText pre ++ l.text.take i := by
    rw [List.take_length_add_append, List.append_assoc, List.take_append_of_le_length (by omega)]
  have hval : (linesText pre ++ (l.text ++ crlf ++ t)).drop ((linesText pre).length + i + 2) =
      l.text.drop (i + 2) ++ crlf ++ t := by
    rw [Nat.add_assoc, List.drop_length_add_append, List.append_assoc,
      List.drop_append_of_le_length (by omega), List.append_assoc]
  have hno : ¬ crlf <:+: l.text.drop (i + 2) := fun hin =>
    l.noCrlf (hin.trans (List.drop_suffix _ _).isInfix)
  have hend : Search.find crlf (l.text.drop (i + 2) ++ crlf ++ t) =
      some (l.text.length - (i + 2)) := by
    rw [← List.length_drop]
    exact Search.find_pair_end (by decide) hno t
  have hlen : (linesText pre).length + i + 2 + (l.text.length - (i + 2)) + 2 =
      (linesText (pre ++ [l])).length := by
    have hc : crlf.length = 2 := rfl
    simp only [linesText_append, linesText_cons, linesText_nil, List.length_append,
      List.length_nil, hc]
    omega
  have hsplit : linesText pre ++ (l.text ++ crlf ++ t) = linesText (pre ++ [l]) ++ t := by
    simp only [linesText_append, linesText_cons, linesText_nil, List.append_assoc, List.nil_append]
  rw [parserHeaderLoop, if_neg hne]
  unfold colonSp at hfind
  simp only [hfind, hval, hend, hname, hlen]
  rw [hsplit, List.take_left, List.drop_left]

/-- What the loop is to do with `pre ++ ls`, none of `pre` having a `: `. -/
def LoopCuts (pre ls : List HeaderLine) : Prop :=
  ∀ fuel h, ls.length < fuel →
    match cutBlock false pre ls with
    | some (_, es) => parserHeaderLoop fuel (linesText pre ++ linesText ls) h =
        .ret (true, storeEntries h es)
    | none => ∃ h', parserHeaderLoop fuel (linesText pre ++ linesText ls) h = .ret (false, h')

/-- What it is to do behind an entry, where lines are skipped first. -/
def SkipCuts (ls : List HeaderLine) : Prop :=
  ∀ skips fuel h, ls.length < skips → ls.length < fuel →
    match cutBlock true [] ls with
    | some (_, es) => (do
        let svl ← skipFolded skips (linesText ls)
        parserHeaderLoop fuel svl h) = .ret (true, storeEntries h es)
    | none => ∃ h', (do
        let svl ← skipFolded skips (linesText ls)
        parserHeaderLoop fuel svl h) = .ret (false, h')

theorem loopCuts_nil {pre : List HeaderLine}
    (hpre : ∀ l ∈ pre, Search.find colonSp l.text = none) : LoopCuts pre [] := by
  intro fuel h hfuel
  obtain ⟨fuel, rfl⟩ : ∃ k, fuel = k + 1 := ⟨fuel - 1, by omega⟩
  cases pre with
  | nil => simp [cutBlock, parserHeaderLoop, storeEntries]
  | cons l pre =>
    have hne : linesText (l :: pre) ++ linesText [] ≠ [] := by
      intro h0
      have := congrArg List.length h0
      have hpos := List.length_pos_of_ne_nil l.ne
      simp only [linesText_cons, List.length_append, List.length_nil] at this
      omega
    have hfind := find_colonSp_block hpre (linesText [])
    rw [show Search.find colonSp (linesText []) = none from rfl, Option.map_none] at hfind
    unfold colonSp at hfind
    refine ⟨h, ?_⟩
    rw [parserHeaderLoop, if_neg hne]
    simp only [hfind]

theorem loopCuts_cons {pre : List HeaderLine} {l : HeaderLine} {ls : List HeaderLine}
    (hpre : ∀ l ∈ pre, Search.find colonSp l.text = none) (hskip : SkipCuts ls)
    (hloop : Search.find colonSp l.text = none → LoopCuts (pre ++ [l]) ls) :
    LoopCuts pre (l :: ls) := by
  intro fuel h hfuel
  rw [List.length_cons] at hfuel
  rw [cutBlock, if_neg (by simp)]
  cases hl : Search.find colonSp l.text with
  | none =>
    have hrec := hloop hl fuel h (by omega)
    have htext : linesText (pre ++ [l]) ++ linesText ls = linesText pre ++ linesText (l :: ls) := by
      simp
    rw [htext] at hrec
    exact hrec
  | some i =>
    obtain ⟨fuel, rfl⟩ : ∃ k, fuel = k + 1 := ⟨fuel - 1, by omega⟩
    have hskips : ls.length < (linesText pre ++ (l.text ++ crlf ++ linesText ls)).length + 1 := by
      have := length_le_linesText ls
      simp only [List.length_append]
      omega
    have hrec := hskip _ fuel
      (h.set (toLower (linesText pre ++ l.text.take i)) (linesText (pre ++ [l])))
      hskips (by omega)
    rw [linesText_cons, parserHeaderLoop_entry hpre hl]
    cases hc : cutBlock true [] ls with
    | none =>
      rw [hc] at hrec
      exact hrec
    | some p =>
      rw [hc] at hrec
      exact hrec

theorem cutBlock_begins {ls : List HeaderLine} (h : ∀ l, ls.head? = some l → ¬ l.StartsSp) :
    cutBlock true [] ls = cutBlock false [] ls := by
  cases ls with
  | nil => rfl
  | cons l ls => rw [cutBlock, cutBlock, if_neg fun hs => h l rfl hs.2, if_neg (by simp)]

theorem skipCuts_of_loop {ls : List HeaderLine} (hno : ∀ l, ls.head? = some l → ¬ l.StartsSp)
    (hloop : LoopCuts [] ls) : SkipCuts ls := by
  intro skips fuel h hskips hfuel
  obtain ⟨skips, rfl⟩ : ∃ k, skips = k + 1 := ⟨skips - 1, by omega⟩
  have hhead : (linesText ls).head? ≠ some ' ' := by
    cases ls with
    | nil => simp
    | cons l ls =>
      rw [head?_linesText_cons]
      exact hno l rfl
  have hrec := hloop fuel h hfuel
  rw [skipFolded, if_neg hhead, cutBlock_begins hno]
  exact hrec

/-- By induction on the lines: the lines before the first `: ` of an entry and the
lines skipped behind one are read along. -/
theorem cuts (ls : List HeaderLine) :
    (∀ pre, (∀ l ∈ pre, Search.find colonSp l.text = none) → LoopCuts pre ls) ∧ SkipCuts ls := by
  induction ls with
  | nil =>
    refine ⟨fun pre => loopCuts_nil, skipCuts_of_loop (by simp) (loopCuts_nil (by simp))⟩
  | cons l ls ih =>
    obtain ⟨ihloop, ihskip⟩ := ih
    have hloop : ∀ pre, (∀ l ∈ pre, Search.find colonSp l.text = none) →
        LoopCuts pre (l :: ls) := by
      intro pre hpre
      refine loopCuts_cons hpre ihskip fun hl => ihloop _ fun l' hl' => ?_
      rcases List.mem_append.mp hl' with hl' | hl'
      · exact hpre l' hl'
      · rw [List.mem_singleton.mp hl']
        exact hl
    refine ⟨hloop, ?_⟩
    by_cases hs : l.StartsSp
    · intro skips fuel h hskips hfuel
      rw [List.length_cons] at hskips hfuel
      obtain ⟨skips, rfl⟩ : ∃ k, skips = k + 1 := ⟨skips - 1, by omega⟩
      have hrec := ihskip skips fuel h (by omega) (by omega)
      rw [cutBlock, if_pos ⟨rfl, hs⟩, skipFolded_line hs]
      cases hc : cutBlock true [] ls with
      | none =>
        rw [hc] at hrec
        exact hrec
      | some p =>
        rw [hc] at hrec
        exact hrec
    · refine skipCuts_of_loop ?_ (hloop [] (by simp))
      intro l' hl'
      rw [List.head?_cons, Option.some.injEq] at hl'
      exact hl' ▸ hs

/-- **`parser_header` stores the entries of the block**, and accepts it if it has them. -/
theorem parserHeader_block (ls : List HeaderLine) (h : Headers) :
    match entries ls with
    | some es => parserHeader (linesText ls) h = .ret (true, storeEntries h es)
    | none => ∃ h', parserHeader (linesText ls) h = .ret (false, h') := by
  have hlen := length_le_linesText ls
  have hcut := (cuts ls).1 [] (by simp) ((linesText ls).length + 1) h (by omega)
  unfold entries
  cases hc : cutBlock false [] ls with
  | none =>
    rw [hc] at hcut
    exact hcut
  | some p =>
    rw [hc] at hcut
    exact hcut

theorem parserHeader_accepted {ls : List HeaderLine} {h headers : Headers}
    (ha : parserHeader (linesText ls) h = .ret (true, headers)) :
    ∃ es, entries ls = some es ∧ headers = storeEntries h es := by
  have hb := parserHeader_block ls h
  cases he : entries ls with
  | none =>
    rw [he] at hb
    obtain ⟨h', hb⟩ := hb
    rw [ha] at hb
    cases hb
  | some es =>
    rw [he] at hb
    rw [ha] at hb
    cases hb
    exact ⟨es, rfl, rfl⟩

/-! ## The stored entries -/

namespace Headers

theorem find_cons (e : List Char × List Char) (h : Headers) (k : List Char) :
    Headers.find (e :: h) k = if e.1 = k then some e.2 else h.find k := by
  unfold find
  by_cases he : e.1 = k
  · rw [if_pos he, List.find?_cons_of_pos (by simpa using he), Option.map_some]
  · rw [if_neg he, List.find?_cons_of_neg (by simpa using he)]

theorem find_replace (h : Headers) (name line k : List Char) :
    Headers.find (h.map fun e => if e.1 = name then (name, line) else e) k =
      if k = name then (h.find name).map fun _ => line else h.find k := by
  induction h with
  | nil => simp [find]
  | cons e h ih =>
    rw [List.map_cons, find_cons, find_cons, find_cons, ih]
    by_cases he : e.1 = name
    · by_cases hk : k = name
      · simp [he, hk]
      · simp [he, hk, Ne.symm hk]
    · by_cases hk : k = name
      · simp [he, hk]
      · simp [he, hk]

theorem find_eq_none {h : Headers} {name : List Char} :
    h.find name = none ↔ h.any (fun e => e.1 = name) = false := by
  induction h with
  | nil => simp [find]
  | cons e h ih =>
    rw [find_cons, List.any_cons]
    by_cases he : e.1 = name
    · simp [he]
    · simp [he, ih]

theorem find_append (h h' : Headers) (k : List Char) :
    Headers.find (h ++ h') k = (h.find k).or (h'.find k) := by
  unfold find
  rw [List.find?_append, Option.map_or]

theorem find_set (h : Headers) (name line k : List Char) :
    (h.set name line).find k = if k = name then some line else h.find k := by
  unfold set
  cases hany : h.any fun e => e.1 = name with
  | true =>
    rw [if_pos rfl, find_replace]
    cases hf : h.find name with
    | none =>
      rw [find_eq_none.mp hf] at hany
      cases hany
    | some old => rfl
  | false =>
    have hf := find_eq_none.mpr hany
    rw [if_neg (by decide), find_append, find_cons]
    by_cases hk : k = name
    · rw [if_pos hk, hk, hf, if_pos rfl, Option.none_or]
    · rw [if_neg hk, if_neg (Ne.symm hk)]
      exact Option.or_none

end Headers

/-- The last entry of that name. -/
def lastEntry (es : List Entry) (k : List Char) : Option Entry :=
  es.reverse.find? fun e => e.key = k

/-- **The last entry of a name is the one that is stored.** -/
theorem find_storeEntries (h : Headers) (es : List Entry) (k : List Char) :
    (storeEntries h es).find k = ((lastEntry es k).map Entry.line).or (h.find k) := by
  induction es generalizing h with
  | nil => simp [storeEntries, lastEntry]
  | cons e es ih =>
    have hstep : storeEntries h (e :: es) = storeEntries (h.set e.key e.line) es := rfl
    rw [hstep, ih, Headers.find_set]
    unfold lastEntry
    rw [List.reverse_cons, List.find?_append, Option.map_or]
    by_cases hk : e.key = k
    · simp [hk]
    · simp [hk, Ne.symm hk]

theorem find_stored (es : List Entry) (k : List Char) :
    (storeEntries [] es).find k = (lastEntry es k).map Entry.line := by
  rw [find_storeEntries]
  exact Option.or_none

end Hcpp
