import Hcpp.Http.HeaderFields
import Hcpp.Http.HeaderTable

/-!
# The header grammar and the table

RFC 2616 section 4.2: a field is `field-name ":" [ field-value ]`, and blanks
around the value may be left out.  `parser_header` looks for `: ` instead, in the
rest of the block.  `parserHeader_fields_iff`: the fields of a block are all
found in the table, and no entry has text of two of them, if and only if the
block is `Separated`.
-/

namespace Hcpp

/-! ## The grammar -/

/-- A character of a `token`: no control and no separator. -/
def isToken (c : Char) : Bool :=
  decide ('!' ≤ c ∧ c ≤ '~') && !"()<>@,;:\\\"/[]?=\x7b\x7d".toList.contains c

/-- `field-name ":" [ field-value ]`, folded before spaces. -/
structure HeaderGrammar (ls : List HeaderLine) : Prop where
  begins : BeginsField ls
  folds : ∀ l ∈ ls, l.Continues → l.StartsSp
  names : ∀ l ∈ ls, ¬ l.Continues → ':' ∈ l.text ∧ l.text.takeWhile (· ≠ ':') ≠ [] ∧
    ∀ c ∈ l.text.takeWhile (· ≠ ':'), isToken c = true

/-- The lines of a field. -/
def Field.lines (f : Field) : List HeaderLine := f.line :: f.folds

def Field.text (f : Field) : List Char := linesText f.lines

/-- The colon behind the name is followed by a space. -/
def HeaderLine.Spaced (l : HeaderLine) : Prop :=
  Search.find colonSp l.text = some (l.text.takeWhile (· ≠ ':')).length

instance (l : HeaderLine) : Decidable l.Spaced :=
  inferInstanceAs (Decidable (Search.find colonSp l.text = some _))

/-- The block is accepted, each of its fields has an entry under its name, and neither
the name nor the text of an entry goes beyond one field. -/
def StoredFields (ls : List HeaderLine) : Prop :=
  ∃ headers, parserHeader (linesText ls) [] = .ret (true, headers) ∧
    (∀ f ∈ fieldsOf ls, ∃ line, headers.find f.name = some line) ∧
    ∀ e ∈ headers, ∃ f ∈ fieldsOf ls, e.1 <+: toLower f.text ∧ e.2 <+: f.text

/-- Every field has a `: `, and of those of a name one has it behind its name. -/
def Separated (ls : List HeaderLine) : Prop :=
  (∀ f ∈ fieldsOf ls, ∃ l ∈ f.lines, colonSp <:+: l.text) ∧
    ∀ f ∈ fieldsOf ls, ∃ g ∈ fieldsOf ls, g.name = f.name ∧ g.line.Spaced

instance (ls : List HeaderLine) : Decidable (Separated ls) :=
  inferInstanceAs (Decidable (_ ∧ _))

theorem isToken_ne {c : Char} (h : isToken c = true) : c ≠ '\r' ∧ c ≠ ':' ∧ isBlank c = false := by
  refine ⟨?_, ?_, ?_⟩
  · rintro rfl
    exact absurd h (by decide)
  · rintro rfl
    exact absurd h (by decide)
  · rw [← Bool.not_eq_true]
    intro hb
    simp only [isBlank, Bool.or_eq_true, decide_eq_true_eq] at hb
    rcases hb with rfl | rfl
    · exact absurd h (by decide)
    · exact absurd h (by decide)

/-! ## Lines and fields -/

theorem cutFields_conts {bs : List HeaderLine} (h : ∀ l ∈ bs, l.Continues) (ls : List HeaderLine) :
    cutFields (bs ++ ls) = (bs ++ (cutFields ls).1, (cutFields ls).2) := by
  induction bs with
  | nil => rfl
  | cons b bs ih =>
    rw [List.cons_append, cutFields, if_pos (h b (by simp)), ih fun l hl => h l (by simp [hl])]
    rfl

/-- The fields of a block, line by line, are the block. -/
theorem cutFields_flatten (ls : List HeaderLine) :
    ls = (cutFields ls).1 ++ (cutFields ls).2.flatMap Field.lines := by
  induction ls with
  | nil => rfl
  | cons l ls ih =>
    rw [cutFields]
    by_cases hl : l.Continues
    · rw [if_pos hl, List.cons_append, ← ih]
    · rw [if_neg hl, List.nil_append, List.flatMap_cons, Field.lines, List.cons_append, ← ih]

/-- A line that continues none begins a field. -/
theorem exists_field {ls : List HeaderLine} {l : HeaderLine} (hl : l ∈ ls) (hc : ¬ l.Continues) :
    ∃ f ∈ fieldsOf ls, f.line = l := by
  rw [cutFields_flatten ls, List.mem_append, List.mem_flatMap] at hl
  rcases hl with hl | ⟨f, hf, hl⟩
  · exact absurd ((mem_cutFields ls).1 l hl).2 hc
  · rcases List.mem_cons.mp hl with rfl | hl
    · exact ⟨f, hf, rfl⟩
    · exact absurd (((mem_cutFields ls).2 f hf).2 l hl).2 hc

/-! ## Entries and fields -/

/-- The name ends at the first colon when a `: ` is found there. -/
theorem takeWhile_of_find {s : List Char} {i : Nat} (hi : Search.find colonSp s = some i)
    (hno : ':' ∉ s.take i) : s.takeWhile (· ≠ ':') = s.take i := by
  obtain ⟨-, ⟨t, ht⟩, -⟩ := Search.find_eq_some_iff.mp hi
  have hs : s = s.take i ++ ':' :: ' ' :: t := by
    have ht' : s.drop i = ':' :: ' ' :: t := ht.symm
    rw [← ht', List.take_append_drop]
  have htake : (s.take i ++ ':' :: ' ' :: t).takeWhile (· ≠ ':') = s.take i := by
    rw [List.takeWhile_append_of_pos]
    · simp
    · intro c hc
      have hne : c ≠ ':' := fun h => hno (h ▸ hc)
      simpa using hne
  rw [← hs] at htake
  exact htake

theorem find_takeWhile {s : List Char} {i : Nat} (hi : Search.find colonSp s = some i)
    (hno : ':' ∉ s.take i) : i = (s.takeWhile (· ≠ ':')).length := by
  have hle := Search.find_add_length_le hi
  rw [takeWhile_of_find hi hno, List.length_take]
  omega

theorem mem_toLower {c : Char} (hc : c.val < 65) {s : List Char} : c ∈ toLower s ↔ c ∈ s := by
  unfold toLower
  rw [List.mem_map]
  constructor
  · rintro ⟨d, hd, h⟩
    rw [toLower_eq_iff hc] at h
    exact h ▸ hd
  · intro h
    exact ⟨c, h, (toLower_eq_iff hc).mpr rfl⟩

/-- An entry under a name without colons, blanks and line ends is one line, which begins a
field of that name. -/
theorem Entry.Cut.of_key {e : Entry} (h : e.Cut)
    (hk : ∀ c ∈ e.key, c ≠ '\r' ∧ c ≠ ':' ∧ isBlank c = false) :
    ∃ l, e.lines = [l] ∧ l.Spaced ∧ e.name = l.text.takeWhile (· ≠ ':') ∧ ¬ l.Continues := by
  obtain ⟨⟨pre, l, i, hlines, hname, hi⟩, -⟩ := h
  have hpre : pre = [] := by
    by_contra hne
    obtain ⟨m, ms, rfl⟩ := List.exists_cons_of_ne_nil hne
    refine (hk '\r' ?_).1 rfl
    rw [Entry.key, mem_toLower (by decide), hname, linesText_cons]
    simp [crlf]
  subst hpre
  rw [linesText_nil, List.nil_append] at hname
  have hno : ':' ∉ l.text.take i := by
    intro hmem
    refine (hk ':' ?_).2.1 rfl
    rwa [Entry.key, mem_toLower (by decide), hname]
  have htake := takeWhile_of_find hi hno
  refine ⟨l, hlines, ?_, by rw [hname, htake], ?_⟩
  · rw [HeaderLine.Spaced, hi, find_takeWhile hi hno]
  · rintro ⟨c, hc, hb⟩
    obtain ⟨t, ht⟩ := List.head?_eq_some_iff.mp hc
    have hne : c ≠ ':' := by
      rintro rfl
      cases hb
    have hsmall : c.val < 65 := by
      simp only [isBlank, Bool.or_eq_true, decide_eq_true_eq] at hb
      rcases hb with rfl | rfl <;> decide
    have hin : c ∈ e.key := by
      rw [Entry.key, mem_toLower hsmall, hname, ← htake, ht,
        List.takeWhile_cons_of_pos (by simpa using hne)]
      exact List.mem_cons_self
    rw [(hk c hin).2.2] at hb
    cases hb

/-- The entry is cut from the lines of the field: it ends with the first one with a `: `. -/
def CutFrom (f : Field) (e : Entry) : Prop :=
  ∃ as l bs i, f.lines = as ++ l :: bs ∧ (∀ k ∈ as, Search.find colonSp k.text = none) ∧
    Search.find colonSp l.text = some i ∧ e.lines = as ++ [l] ∧
    e.name = linesText as ++ l.text.take i

theorem exists_first {ls : List HeaderLine} (h : ∃ l ∈ ls, colonSp <:+: l.text) :
    ∃ as l bs i, ls = as ++ l :: bs ∧ (∀ k ∈ as, Search.find colonSp k.text = none) ∧
      Search.find colonSp l.text = some i := by
  induction ls with
  | nil =>
    obtain ⟨l, hl, -⟩ := h
    cases hl
  | cons m ls ih =>
    cases hm : Search.find colonSp m.text with
    | some i => exact ⟨[], m, ls, i, rfl, by simp, hm⟩
    | none =>
      obtain ⟨l, hl, hin⟩ := h
      have hne : l ≠ m := by
        rintro rfl
        exact Search.find_eq_none_iff.mp hm hin
      obtain ⟨as, l, bs, i, rfl, has, hi⟩ :=
        ih ⟨l, (List.mem_cons.mp hl).resolve_left hne, hin⟩
      refine ⟨m :: as, l, bs, i, rfl, fun k hk => ?_, hi⟩
      rcases List.mem_cons.mp hk with rfl | hk
      · exact hm
      · exact has k hk

theorem cutBlock_kept {as : List HeaderLine} (has : ∀ k ∈ as, Search.find colonSp k.text = none)
    {l : HeaderLine} {i : Nat} (hi : Search.find colonSp l.text = some i)
    (kept ls : List HeaderLine) :
    cutBlock false kept (as ++ l :: ls) = (cutBlock true [] ls).map fun (folds, es) =>
      ([], ⟨linesText (kept ++ as) ++ l.text.take i, kept ++ as ++ [l], folds⟩ :: es) := by
  induction as generalizing kept with
  | nil =>
    rw [List.nil_append, cutBlock, if_neg (by simp), List.append_nil]
    simp only [hi]
  | cons a as ih =>
    rw [List.cons_append, cutBlock, if_neg (by simp)]
    simp only [has a (by simp)]
    rw [ih fun k hk => has k (by simp [hk])]
    simp

theorem cutBlock_skips {bs : List HeaderLine} (hbs : ∀ k ∈ bs, k.StartsSp)
    (ls : List HeaderLine) :
    cutBlock true [] (bs ++ ls) =
      (cutBlock true [] ls).map fun (folds, es) => (bs ++ folds, es) := by
  induction bs with
  | nil => simp
  | cons b bs ih =>
    rw [List.cons_append, cutBlock, if_pos ⟨rfl, hbs b (by simp)⟩,
      ih fun k hk => hbs k (by simp [hk]), Option.map_map]
    rfl

/-- Fields with a `: ` each are cut into one entry each; by induction on the fields. -/
theorem cutBlock_fieldwise {fs : List Field} (hline : ∀ f ∈ fs, ¬ f.line.StartsSp)
    (hfolds : ∀ f ∈ fs, ∀ k ∈ f.folds, k.StartsSp)
    (hin : ∀ f ∈ fs, ∃ l ∈ f.lines, colonSp <:+: l.text) :
    ∃ es, cutBlock true [] (fs.flatMap Field.lines) = some ([], es) ∧
      (∀ f ∈ fs, ∃ e ∈ es, CutFrom f e) ∧ ∀ e ∈ es, ∃ f ∈ fs, CutFrom f e := by
  induction fs with
  | nil => exact ⟨[], rfl, by simp, by simp⟩
  | cons f fs ih =>
    obtain ⟨es, hes, hcut, hof⟩ := ih (fun g hg => hline g (by simp [hg]))
      (fun g hg => hfolds g (by simp [hg])) (fun g hg => hin g (by simp [hg]))
    obtain ⟨as, l, bs, i, hlines, has, hi⟩ := exists_first (hin f (by simp))
    have hbs : ∀ k ∈ bs, k.StartsSp := by
      intro k hk
      apply hfolds f (by simp)
      cases as with
      | nil =>
        obtain ⟨-, rfl⟩ := List.cons.inj hlines
        exact hk
      | cons a as =>
        obtain ⟨-, hf⟩ := List.cons.inj hlines
        rw [hf]
        simp [hk]
    have hfirst : CutFrom f ⟨linesText as ++ l.text.take i, as ++ [l], bs⟩ :=
      ⟨as, l, bs, i, hlines, has, hi, rfl, rfl⟩
    refine ⟨⟨linesText as ++ l.text.take i, as ++ [l], bs⟩ :: es, ?_, fun g hg => ?_,
      fun e he => ?_⟩
    rotate_left
    · rcases List.mem_cons.mp hg with rfl | hg
      · exact ⟨_, List.mem_cons_self, hfirst⟩
      · obtain ⟨e, he, hge⟩ := hcut g hg
        exact ⟨e, List.mem_cons_of_mem _ he, hge⟩
    · rcases List.mem_cons.mp he with rfl | he
      · exact ⟨f, List.mem_cons_self, hfirst⟩
      · obtain ⟨g, hg, hge⟩ := hof e he
        exact ⟨g, List.mem_cons_of_mem _ hg, hge⟩
    have hbegins : ∀ k, (f.lines ++ fs.flatMap Field.lines).head? = some k → ¬ k.StartsSp := by
      intro k hk
      rw [Field.lines, List.cons_append, List.head?_cons, Option.some.injEq] at hk
      exact hk ▸ hline f (by simp)
    rw [List.flatMap_cons, cutBlock_begins hbegins, hlines, List.append_assoc, List.cons_append,
      cutBlock_kept has hi, cutBlock_skips hbs, hes]
    simp

section CutFrom

variable {f : Field} {e : Entry}

theorem CutFrom.within (h : CutFrom f e) : e.key <+: toLower f.text ∧ e.line <+: f.text := by
  obtain ⟨as, l, bs, i, hlines, -, -, hel, hname⟩ := h
  have htext : f.text = linesText as ++ (l.text ++ crlf ++ linesText bs) := by
    rw [Field.text, hlines, linesText_append, linesText_cons]
  have hn : e.name <+: f.text := by
    rw [hname, htext, List.append_assoc]
    apply (List.prefix_append_right_inj _).mpr
    exact (List.take_prefix i _).trans (List.prefix_append _ _)
  refine ⟨hn.map _, ?_⟩
  refine ⟨linesText bs, ?_⟩
  rw [Entry.line, hel, htext]
  simp

theorem CutFrom.of_spaced (h : CutFrom f e) (hs : f.line.Spaced) : e.key = f.name := by
  obtain ⟨as, l, bs, i, hlines, has, hi, -, hname⟩ := h
  cases as with
  | nil =>
    obtain ⟨rfl, -⟩ := List.cons.inj hlines
    rw [HeaderLine.Spaced, hi, Option.some.injEq] at hs
    have htake : f.line.text.take i = f.line.text.takeWhile (· ≠ ':') := by
      rw [hs]
      exact (List.prefix_iff_eq_take.mp (List.takeWhile_prefix _)).symm
    rw [Entry.key, hname, linesText_nil, List.nil_append, htake, Field.name]
  | cons a as =>
    obtain ⟨rfl, -⟩ := List.cons.inj hlines
    rw [HeaderLine.Spaced, has _ (by simp)] at hs
    cases hs

end CutFrom

/-! ## Text that lies in one field -/

/-- Every line end in the text is followed by a space, or by nothing. -/
def Folded (s : List Char) : Prop := ∀ a c b, s = a ++ crlf ++ c :: b → c = ' '

theorem Folded.of_prefix {s t : List Char} (h : Folded t) (hs : s <+: t) : Folded s := by
  obtain ⟨r, rfl⟩ := hs
  intro a c b heq
  exact h a c (b ++ r) (by rw [heq]; simp)

theorem Folded.lower {s : List Char} (h : Folded s) : Folded (toLower s) := by
  intro a c b heq
  unfold toLower at heq
  rw [List.map_eq_append_iff] at heq
  obtain ⟨x, y, rfl, hx, hy⟩ := heq
  rw [List.map_eq_append_iff] at hx
  rw [List.map_eq_cons_iff] at hy
  obtain ⟨a', x', rfl, -, hx'⟩ := hx
  obtain ⟨c', b', rfl, hc, -⟩ := hy
  have hcrlf : x' = crlf := by
    unfold crlf at hx' ⊢
    obtain ⟨p, r, rfl, hp, hr⟩ := List.map_eq_cons_iff.mp hx'
    obtain ⟨q, r, rfl, hq, hr⟩ := List.map_eq_cons_iff.mp hr
    rw [toLower_eq_iff (by decide)] at hp hq
    rw [List.map_eq_nil_iff] at hr
    rw [hp, hq, hr]
  subst hcrlf
  rw [h a' c' b' rfl] at hc
  exact hc.symm

theorem folded_lines {l : HeaderLine} {folds : List HeaderLine} (h : ∀ k ∈ folds, k.StartsSp) :
    Folded (linesText (l :: folds)) := by
  induction folds generalizing l with
  | nil =>
    intro a c b heq
    rw [linesText_cons, linesText_nil] at heq
    rcases crlf_next l.noCrlf heq with ⟨-, h⟩ | ⟨a', -, h⟩
    · cases h
    · simp at h
  | cons k folds ih =>
    intro a c b heq
    rw [linesText_cons] at heq
    rcases crlf_next l.noCrlf heq with ⟨-, hx⟩ | ⟨a', -, hx⟩
    · have hhead := head?_linesText_cons k folds
      rw [hx, List.head?_cons, h k (by simp), Option.some.injEq] at hhead
      exact hhead
    · exact ih (fun m hm => h m (by simp [hm])) a' c b hx

theorem linesText_ends (l : HeaderLine) (ls : List HeaderLine) :
    ∃ q, linesText (l :: ls) = q ++ crlf := by
  rcases List.eq_nil_or_concat (l :: ls) with h | ⟨as, k, h⟩
  · cases h
  · refine ⟨linesText as ++ k.text, ?_⟩
    rw [h, List.concat_eq_append, linesText_append, linesText_cons, linesText_nil, List.append_nil,
      List.append_assoc]

/-- An entry whose name lies in one field goes on with lines that begin with a space. -/
theorem Entry.Cut.tail_startsSp {e : Entry} (h : e.Cut) (hf : Folded e.key)
    (hcolon : ∀ l ∈ e.lines, Search.find colonSp l.text ≠ some 0) :
    ∀ k ∈ e.lines.tail, k.StartsSp := by
  obtain ⟨⟨pre, l, i, hlines, hname, hi⟩, -⟩ := h
  intro k hk
  -- the name goes on with `k` behind other lines
  obtain ⟨m, xs, u, v, hu, hpre, hsplit⟩ : ∃ m xs u v, u ≠ [] ∧ u <+: k.text ∧
      e.name = linesText (m :: xs) ++ (u ++ v) := by
    cases pre with
    | nil =>
      rw [hlines] at hk
      cases hk
    | cons m ms =>
      rw [hlines, List.cons_append, List.tail_cons, List.mem_append, List.mem_singleton] at hk
      rcases hk with hk | rfl
      · obtain ⟨xs, ys, rfl⟩ := List.append_of_mem hk
        refine ⟨m, xs, k.text, crlf ++ linesText ys ++ l.text.take i, k.ne, List.prefix_rfl, ?_⟩
        rw [hname]
        simp
      · refine ⟨m, ms, k.text.take i, [], ?_, List.take_prefix _ _, by rw [hname, List.append_nil]⟩
        intro h0
        rcases List.take_eq_nil_iff.mp h0 with h0 | h0
        · exact hcolon k (by rw [hlines]; simp) (h0 ▸ hi)
        · exact k.ne h0
  obtain ⟨d, u, rfl⟩ := List.exists_cons_of_ne_nil hu
  obtain ⟨q, hq⟩ := linesText_ends m xs
  have hd : k.text.head? = some d := by
    obtain ⟨t, ht⟩ := hpre
    rw [← ht]
    rfl
  rw [hq, List.cons_append] at hsplit
  have hkey : e.key = toLower q ++ crlf ++ d.toLower :: toLower (u ++ v) := by
    rw [Entry.key, hsplit]
    simp [toLower, crlf]
  have hsp := hf _ _ _ hkey
  rw [toLower_eq_iff (by decide)] at hsp
  rw [HeaderLine.StartsSp, hd, hsp]

/-- Each field has a `: ` when its lines are those of entries. -/
theorem colonSp_of_entries {es : List Entry}
    (h : ∀ e ∈ es, (∃ l ks, e.lines ++ e.folds = l :: ks ∧ ∀ k ∈ ks, k.StartsSp) ∧
      ∃ l ∈ e.lines, colonSp <:+: l.text) :
    ∀ f ∈ (cutFields (es.flatMap fun e => e.lines ++ e.folds)).2,
      ∃ l ∈ f.lines, colonSp <:+: l.text := by
  induction es with
  | nil => simp [cutFields]
  | cons e es ih =>
    have hrec := ih fun e he => h e (by simp [he])
    obtain ⟨⟨l, ks, hl, hks⟩, m, hm, hin⟩ := h e (by simp)
    have hconts : ∀ k ∈ ks, k.Continues := fun k hk => HeaderLine.continues_of_startsSp (hks k hk)
    rw [List.flatMap_cons, hl, List.cons_append, cutFields, cutFields_conts hconts]
    by_cases hc : l.Continues
    · rw [if_pos hc]
      exact hrec
    · rw [if_neg hc]
      intro f hf
      rcases List.mem_cons.mp hf with rfl | hf
      · refine ⟨m, ?_, hin⟩
        have hml : m ∈ l :: ks := by
          rw [← hl]
          exact List.mem_append_left _ hm
        rw [Field.lines, ← List.cons_append]
        exact List.mem_append_left _ hml
      · exact hrec f hf

/-! ## The theorem -/

section Grammar

variable {ls : List HeaderLine}

theorem HeaderGrammar.field (h : HeaderGrammar ls) {f : Field} (hf : f ∈ fieldsOf ls) :
    ¬ f.line.StartsSp ∧ (∀ k ∈ f.folds, k.StartsSp) ∧
      ∀ c ∈ f.name, c ≠ '\r' ∧ c ≠ ':' ∧ isBlank c = false := by
  obtain ⟨hc, hfolds⟩ := (mem_cutFields ls).2 f hf
  have hmem : f.line ∈ ls := by
    rw [cutFields_flatten ls]
    apply List.mem_append_right
    exact List.mem_flatMap.mpr ⟨f, hf, by simp [Field.lines]⟩
  obtain ⟨-, -, htoken⟩ := h.names f.line hmem hc
  refine ⟨fun hs => hc (HeaderLine.continues_of_startsSp hs),
    fun k hk => h.folds k (hfolds k hk).1 (hfolds k hk).2, fun c hmem => ?_⟩
  obtain ⟨d, hd, rfl⟩ := List.mem_map.mp hmem
  obtain ⟨hcr, hcol, hb⟩ := isToken_ne (htoken d hd)
  simp only [isBlank, Bool.or_eq_false_iff, decide_eq_false_iff_not] at hb ⊢
  rw [ne_eq, ne_eq, toLower_eq_iff (by decide), toLower_eq_iff (by decide),
    toLower_eq_iff (by decide), toLower_eq_iff (by decide)]
  exact ⟨hcr, hcol, hb⟩

theorem HeaderGrammar.flatten (h : HeaderGrammar ls) : ls = (fieldsOf ls).flatMap Field.lines := by
  have hls := cutFields_flatten ls
  rw [cutFields_begins h.begins, List.nil_append] at hls
  exact hls

/-- No line of the grammar begins with a colon. -/
theorem HeaderGrammar.find_ne_zero (h : HeaderGrammar ls) {l : HeaderLine} (hl : l ∈ ls) :
    Search.find colonSp l.text ≠ some 0 := by
  intro h0
  obtain ⟨-, ⟨t, ht⟩, -⟩ := Search.find_eq_some_iff.mp h0
  have htext : l.text = ':' :: ' ' :: t := ht.symm
  by_cases hc : l.Continues
  · have hs := h.folds l hl hc
    rw [HeaderLine.StartsSp, htext] at hs
    cases hs
  · apply (h.names l hl hc).2.1
    rw [htext]
    rfl

/-- The keys of the table are those of the entries. -/
theorem mem_stored {es : List Entry} {e : Entry} (he : e ∈ es) :
    (storeEntries [] es).find e.key ≠ none ∧
      ∃ line, (e.key, line) ∈ storeEntries [] es := by
  have hlast : lastEntry es e.key ≠ none := by
    intro hnone
    have hall := List.find?_eq_none.mp hnone e (List.mem_reverse.mpr he)
    simp at hall
  obtain ⟨x, hx⟩ := Option.ne_none_iff_exists'.mp hlast
  have hfind : (storeEntries [] es).find e.key = some x.line := by
    rw [find_stored, hx]
    rfl
  refine ⟨by simp [hfind], x.line, ?_⟩
  unfold Headers.find at hfind
  rw [Option.map_eq_some_iff] at hfind
  obtain ⟨y, hy, hline⟩ := hfind
  have hkey : y.1 = e.key := by simpa using List.find?_some hy
  rw [← hkey, ← hline]
  exact List.mem_of_find?_eq_some hy

/-- A separated block is stored field by field. -/
theorem stored_of_separated (h : HeaderGrammar ls) (hs : Separated ls) : StoredFields ls := by
  obtain ⟨hin, hspaced⟩ := hs
  obtain ⟨es, hes, hcut, hof⟩ := cutBlock_fieldwise (fun f hf => (h.field hf).1)
    (fun f hf => (h.field hf).2.1) hin
  have hentries : entries ls = some es := by
    have hbegins : ∀ l, ls.head? = some l → ¬ l.StartsSp := fun l hl hs =>
      h.begins l hl (HeaderLine.continues_of_startsSp hs)
    rw [entries, ← cutBlock_begins hbegins, h.flatten, hes]
    rfl
  have hparse := parserHeader_block ls []
  rw [hentries] at hparse
  refine ⟨_, hparse, fun f hf => ?_, fun e he => ?_⟩
  · obtain ⟨g, hg, hname, hgs⟩ := hspaced f hf
    obtain ⟨e, he, hge⟩ := hcut g hg
    obtain ⟨hfind, -⟩ := mem_stored he
    rw [hge.of_spaced hgs, hname] at hfind
    exact Option.ne_none_iff_exists'.mp hfind
  · rw [Entry.storeEntries_eq] at he
    obtain ⟨x, hx, rfl⟩ := List.mem_map.mp he
    obtain ⟨f, hf, hfx⟩ := hof x (Entry.mem_table hx)
    exact ⟨f, hf, hfx.within⟩

/-- A block that is stored field by field is separated. -/
theorem separated_of_stored (h : HeaderGrammar ls) (hs : StoredFields ls) : Separated ls := by
  obtain ⟨headers, hp, hfind, hwithin⟩ := hs
  obtain ⟨es, hes, rfl⟩ := parserHeader_accepted hp
  have hcut := entries_cut hes
  constructor
  · unfold fieldsOf
    rw [entries_flatten hes]
    apply colonSp_of_entries
    intro e he
    obtain ⟨⟨pre, l, i, hlines, -, hi⟩, hfolds⟩ := hcut e he
    refine ⟨?_, l, by rw [hlines]; simp, Search.isInfix_of_find hi⟩
    -- the key of the entry lies in one field
    obtain ⟨-, line, hmem⟩ := mem_stored he
    obtain ⟨f, hf, hkey, -⟩ := hwithin _ hmem
    have hfolded : Folded e.key := (folded_lines (h.field hf).2.1).lower.of_prefix hkey
    have hsub : ∀ k ∈ e.lines, k ∈ ls := by
      intro k hk
      rw [entries_flatten hes]
      exact List.mem_flatMap.mpr ⟨e, he, List.mem_append_left _ hk⟩
    have htail := (hcut e he).tail_startsSp hfolded fun k hk => h.find_ne_zero (hsub k hk)
    obtain ⟨k, ks, hk⟩ : ∃ k ks, e.lines = k :: ks :=
      List.exists_cons_of_ne_nil (by rw [hlines]; simp)
    refine ⟨k, ks ++ e.folds, by rw [hk]; rfl, fun m hm => ?_⟩
    rcases List.mem_append.mp hm with hm | hm
    · exact htail m (by rw [hk]; exact hm)
    · exact hfolds m hm
  · intro f hf
    obtain ⟨line, hline⟩ := hfind f hf
    obtain ⟨-, -, hname⟩ := h.field hf
    rw [find_stored, Option.map_eq_some_iff] at hline
    obtain ⟨e, he, -⟩ := hline
    have hmem : e ∈ es := List.mem_reverse.mp (List.mem_of_find?_eq_some he)
    have hkey : e.key = f.name := by simpa using List.find?_some he
    obtain ⟨l, hl, hsp, hn, hnc⟩ := (hcut e hmem).of_key (hkey ▸ hname)
    have hlm : l ∈ ls := by
      rw [entries_flatten hes]
      exact List.mem_flatMap.mpr ⟨e, hmem, by rw [hl]; simp⟩
    obtain ⟨g, hg, rfl⟩ := exists_field hlm hnc
    refine ⟨g, hg, ?_, hsp⟩
    rw [← hkey, Entry.key, hn, Field.name]

end Grammar

/-- **`parser_header` stores the fields of a block** if and only if it is separated. -/
theorem parserHeader_fields_iff {ls : List HeaderLine} (h : HeaderGrammar ls) :
    StoredFields ls ↔ Separated ls :=
  ⟨separated_of_stored h, stored_of_separated h⟩

/-- Two fields, one of them folded. -/
def foldedBlock : List HeaderLine :=
  [⟨"Host: a".toList, by decide, by decide⟩, ⟨"Accept: b".toList, by decide, by decide⟩,
    ⟨" c".toList, by decide, by decide⟩]

theorem parserHeader_fields_folded : StoredFields foldedBlock :=
  (parserHeader_fields_iff
    { begins := fun l hl => by cases hl; decide
      folds := by decide
      names := by decide }).mpr (by decide)

/-- No space behind the colon: the next field is taken for the end of the name. -/
def closeBlock : List HeaderLine :=
  [⟨"Content-Length:5".toList, by decide, by decide⟩, ⟨"Host: a".toList, by decide, by decide⟩]

theorem parserHeader_swallows : ¬ ∀ ls, HeaderGrammar ls → StoredFields ls := by
  intro hall
  have hg : HeaderGrammar closeBlock :=
    { begins := fun l hl => by cases hl; decide
      folds := by decide
      names := by decide }
  exact absurd (separated_of_stored hg (hall _ hg)) (by decide)

end Hcpp
