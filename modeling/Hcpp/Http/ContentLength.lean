import Hcpp.Http.BodyMode
import Hcpp.Http.HeaderGrammar
import Hcpp.Http.Numbers

/-!
# The number of a `Content-Length` field

`msgBodySize_exact_iff`: in a block with one such field, `msg_body_size` reads
its number, or nothing when it has none of 64 bits, if and only if `ReadsLength`
holds.  The field must be found in the table (`Found`), and what is read is the
first run of digits of its first line, 11 of them, and only one after a 0.
-/

namespace Hcpp

/-! ## Where an entry begins -/

/-- Behind these lines `parser_header` begins an entry: the last of them that has a `: `
is followed by lines that begin with a space only. -/
def Settled (pre : List HeaderLine) : Prop :=
  pre = [] ∨ ∃ as l bs, pre = as ++ l :: bs ∧ Search.find colonSp l.text ≠ none ∧
    ∀ k ∈ bs, k.StartsSp

/-- The same in a run over the lines that has kept `kept` or is skipping. -/
def SettledFrom (skipping : Bool) (kept pre : List HeaderLine) : Prop :=
  (pre = [] ∧ kept = []) ∨ (skipping = true ∧ ∀ k ∈ pre, k.StartsSp) ∨
    ∃ as l bs, pre = as ++ l :: bs ∧ Search.find colonSp l.text ≠ none ∧ ∀ k ∈ bs, k.StartsSp

section SettledFrom

variable {skipping : Bool} {kept pre : List HeaderLine} {m : HeaderLine}

theorem SettledFrom.behind (h : SettledFrom skipping kept (m :: pre)) :
    SettledFrom true [] pre := by
  rcases h with ⟨h, -⟩ | ⟨-, h⟩ | ⟨as, k, bs, h, hk, hbs⟩
  · cases h
  · exact .inr (.inl ⟨rfl, fun k hk => h k (by simp [hk])⟩)
  · cases as with
    | nil =>
      obtain ⟨-, rfl⟩ := List.cons.inj h
      exact .inr (.inl ⟨rfl, hbs⟩)
    | cons a as =>
      obtain ⟨-, rfl⟩ := List.cons.inj h
      exact .inr (.inr ⟨as, k, bs, rfl, hk, hbs⟩)

/-- A line that is kept is followed by one with a `: `. -/
theorem SettledFrom.keep (h : SettledFrom skipping kept (m :: pre))
    (hno : ¬ (skipping = true ∧ m.StartsSp)) (hnone : Search.find colonSp m.text = none) :
    SettledFrom false (kept ++ [m]) pre := by
  rcases h with ⟨h, -⟩ | ⟨hs, h⟩ | ⟨as, k, bs, h, hk, hbs⟩
  · cases h
  · exact absurd ⟨hs, h m (by simp)⟩ hno
  · cases as with
    | nil =>
      obtain ⟨rfl, -⟩ := List.cons.inj h
      exact absurd hnone hk
    | cons a as =>
      obtain ⟨-, rfl⟩ := List.cons.inj h
      exact .inr (.inr ⟨as, k, bs, rfl, hk, hbs⟩)

end SettledFrom

/-- A line with a `: ` where an entry begins is an entry; by induction on the lines before. -/
theorem cutBlock_of_settled {l : HeaderLine} {i : Nat} (post : List HeaderLine)
    (hl : ¬ l.StartsSp) (hi : Search.find colonSp l.text = some i) (pre : List HeaderLine) :
    ∀ skipping kept folds es, (skipping = true → kept = []) → SettledFrom skipping kept pre →
      cutBlock skipping kept (pre ++ l :: post) = some (folds, es) →
      ∃ e ∈ es, e.name = l.text.take i ∧ e.lines = [l] := by
  induction pre with
  | nil =>
    intro skipping kept folds es hkept hset hc
    have hnil : kept = [] := by
      rcases hset with ⟨-, h⟩ | ⟨hs, -⟩ | ⟨as, m, bs, h, -⟩
      · exact h
      · exact hkept hs
      · cases as <;> cases h
    subst hnil
    rcases cutBlock_cons hc with ⟨hs, -⟩ | ⟨-, hnone, -⟩ | ⟨-, j, folds', es', hj, -, -, rfl⟩
    · exact absurd hs.2 hl
    · rw [hi] at hnone
      cases hnone
    · rw [hi, Option.some.injEq] at hj
      subst hj
      exact ⟨_, List.mem_cons_self, rfl, rfl⟩
  | cons m pre ih =>
    intro skipping kept folds es hkept hset hc
    rcases cutBlock_cons hc with ⟨hs, folds', hrec, -⟩ | ⟨hno, hnone, hrec⟩ |
      ⟨hno, j, folds', es', hj, hrec, -, rfl⟩
    · exact ih true [] folds' es (fun _ => rfl) hset.behind hrec
    · exact ih false (kept ++ [m]) folds es (by simp) (hset.keep hno hnone) hrec
    · obtain ⟨e, he, hname, hlines⟩ := ih true [] folds' es' (fun _ => rfl) hset.behind hrec
      exact ⟨e, List.mem_cons_of_mem _ he, hname, hlines⟩

/-- The lines before an entry are settled: they are those of other entries. -/
theorem settled_before {es : List Entry} (h : ∀ e ∈ es, e.Cut) :
    Settled (es.flatMap fun e => e.lines ++ e.folds) := by
  rcases List.eq_nil_or_concat es with rfl | ⟨as, e, rfl⟩
  · exact .inl rfl
  · obtain ⟨⟨pre, l, i, hlines, -, hi⟩, hfolds⟩ := h e (by simp)
    refine .inr ⟨(as.flatMap fun e => e.lines ++ e.folds) ++ pre, l, e.folds, ?_, by simp [hi],
      hfolds⟩
    simp [hlines]

/-- The entries of one line are the lines with a `: ` where an entry begins. -/
theorem mem_entries_iff {ls : List HeaderLine} {es : List Entry} (h : entries ls = some es)
    {l : HeaderLine} (hl : ¬ l.StartsSp) {i : Nat} (hi : Search.find colonSp l.text = some i) :
    (∃ e ∈ es, e.name = l.text.take i ∧ e.lines = [l]) ↔
      ∃ pre post, ls = pre ++ l :: post ∧ Settled pre := by
  constructor
  · rintro ⟨e, he, -, hlines⟩
    obtain ⟨as, bs, rfl⟩ := List.append_of_mem he
    have hcut := entries_cut h
    refine ⟨as.flatMap fun e => e.lines ++ e.folds,
      e.folds ++ bs.flatMap fun e => e.lines ++ e.folds, ?_, settled_before fun x hx => hcut x (by simp [hx])⟩
    rw [entries_flatten h]
    simp [hlines]
  · rintro ⟨pre, post, rfl, hset⟩
    unfold entries at h
    rw [Option.map_eq_some_iff] at h
    obtain ⟨⟨folds, es'⟩, hc, rfl⟩ := h
    refine cutBlock_of_settled post hl hi pre false [] folds es' (by simp) ?_ hc
    rcases hset with hnil | hset
    · exact .inl ⟨hnil, rfl⟩
    · exact .inr (.inr hset)

/-! ## Finding the field -/

/-- The field is found in the table: its colon is followed by a space, and an entry
begins at its line. -/
def Found (ls : List HeaderLine) (f : Field) : Prop :=
  f.line.Spaced ∧ ∃ pre post, ls = pre ++ f.line :: post ∧ Settled pre

section Found

variable {ls : List HeaderLine} {es : List Entry} {f : Field} {k : List Char}

theorem of_fieldsNamed (hone : fieldsNamed ls k = [f]) : f ∈ fieldsOf ls ∧ f.name = k := by
  have hmem : f ∈ fieldsNamed ls k := by simp [hone]
  obtain ⟨hf, hname⟩ := List.mem_filter.mp hmem
  exact ⟨hf, by simpa using hname⟩

/-- The one field of a name is what the table has under it. -/
theorem entry_of_one (h : entries ls = some es) (hone : fieldsNamed ls k = [f])
    (hk : ∀ c ∈ k, c ≠ '\r' ∧ c ≠ ':' ∧ isBlank c = false) {e : Entry} (he : e ∈ es)
    (hkey : e.key = k) : e.lines = [f.line] ∧ Found ls f := by
  obtain ⟨l, hl, hsp, hn, hnc⟩ := (entries_cut h e he).of_key (hkey ▸ hk)
  have hlm : l ∈ ls := by
    rw [entries_flatten h]
    exact List.mem_flatMap.mpr ⟨e, he, by rw [hl]; simp⟩
  obtain ⟨g, hg, rfl⟩ := exists_field hlm hnc
  have hgk : g.name = k := by rw [← hkey, Entry.key, hn, Field.name]
  have hmem : g ∈ fieldsNamed ls k := List.mem_filter.mpr ⟨hg, by simpa using hgk⟩
  rw [hone, List.mem_singleton] at hmem
  subst hmem
  have hname : e.name = g.line.text.take (g.line.text.takeWhile (· ≠ ':')).length := by
    rw [hn]
    exact List.prefix_iff_eq_take.mp (List.takeWhile_prefix _)
  have hns : ¬ g.line.StartsSp := fun hs => hnc (HeaderLine.continues_of_startsSp hs)
  exact ⟨hl, hsp, (mem_entries_iff h hns hsp).mp ⟨e, he, hname, hl⟩⟩

theorem find_of_found (h : entries ls = some es) (hone : fieldsNamed ls k = [f])
    (hk : ∀ c ∈ k, c ≠ '\r' ∧ c ≠ ':' ∧ isBlank c = false) (hf : Found ls f) :
    (storeEntries [] es).find k = some (linesText [f.line]) := by
  obtain ⟨hsp, hset⟩ := hf
  obtain ⟨hfield, hname⟩ := of_fieldsNamed hone
  have hns : ¬ f.line.StartsSp := fun hs =>
    ((mem_cutFields ls).2 f hfield).1 (HeaderLine.continues_of_startsSp hs)
  obtain ⟨e, he, hen, hel⟩ := (mem_entries_iff h hns hsp).mpr hset
  have hkey : e.key = k := by
    have htake := List.prefix_iff_eq_take.mp
      (List.takeWhile_prefix (l := f.line.text) fun c => decide (c ≠ ':'))
    rw [Entry.key, hen, ← htake]
    exact hname
  obtain ⟨hstored, -⟩ := mem_stored he
  rw [hkey, find_stored] at hstored
  obtain ⟨line, hline⟩ := Option.ne_none_iff_exists'.mp hstored
  obtain ⟨x, hx, rfl⟩ := Option.map_eq_some_iff.mp hline
  have hxk : x.key = k := by simpa using List.find?_some hx
  have hxm : x ∈ es := List.mem_reverse.mp (List.mem_of_find?_eq_some hx)
  rw [find_stored, hline, Entry.line, (entry_of_one h hone hk hxm hxk).1]

theorem find_of_not_found (h : entries ls = some es) (hone : fieldsNamed ls k = [f])
    (hk : ∀ c ∈ k, c ≠ '\r' ∧ c ≠ ':' ∧ isBlank c = false) (hf : ¬ Found ls f) :
    (storeEntries [] es).find k = none := by
  rw [find_stored, Option.map_eq_none_iff]
  by_contra hne
  obtain ⟨x, hx⟩ := Option.ne_none_iff_exists'.mp hne
  have hxk : x.key = k := by simpa using List.find?_some hx
  have hxm : x ∈ es := List.mem_reverse.mp (List.mem_of_find?_eq_some hx)
  exact hf (entry_of_one h hone hk hxm hxk).2

end Found

/-! ## The digits that are read -/

/-- The value without the blanks around it. -/
def Field.digits (f : Field) : List Char := (f.value.dropWhile isBlank).rdropWhile isBlank

theorem isBlank_not_digit {c : Char} (h : isBlank c = true) : isDigit c = false := by
  simp only [isBlank, Bool.or_eq_true, decide_eq_true_eq] at h
  rcases h with rfl | rfl <;> decide

theorem dropWhile_append_of_neg {α : Type} {p : α → Bool} {s : List α} (h : ∃ c ∈ s, p c = false)
    (t : List α) : (s ++ t).dropWhile p = s.dropWhile p ++ t := by
  induction s with
  | nil =>
    obtain ⟨c, hc, -⟩ := h
    cases hc
  | cons a s ih =>
    rw [List.cons_append]
    by_cases ha : p a
    · rw [List.dropWhile_cons_of_pos ha, List.dropWhile_cons_of_pos ha]
      obtain ⟨c, hc, hpc⟩ := h
      rcases List.mem_cons.mp hc with rfl | hc
      · rw [ha] at hpc
        cases hpc
      · exact ih ⟨c, hc, hpc⟩
    · rw [List.dropWhile_cons_of_neg ha, List.dropWhile_cons_of_neg ha]
      rfl

/-- When the first line has a digit and the value is all digits, blanks aside, these are
the first run of digits of that line. -/
theorem dropWhile_digits {w r : List Char} (hr : ∀ c, r.head? = some c → isBlank c = true)
    (hw : ∃ c ∈ w, isDigit c = true)
    (hall : ∀ c ∈ ((w ++ r).dropWhile isBlank).rdropWhile isBlank, isDigit c = true) :
    ∃ t, (w.dropWhile fun c => !isDigit c) =
        ((w ++ r).dropWhile isBlank).rdropWhile isBlank ++ t ∧ ∀ c ∈ t, isBlank c = true := by
  obtain ⟨d, hd, hdig⟩ := hw
  have hnb : isBlank d = false := by
    by_contra hb
    rw [isBlank_not_digit (by simpa using hb)] at hdig
    cases hdig
  have hdrop : (w ++ r).dropWhile isBlank = w.dropWhile isBlank ++ r :=
    dropWhile_append_of_neg ⟨d, hd, hnb⟩ r
  rw [hdrop] at hall ⊢
  have hdw : d ∈ w.dropWhile isBlank := by
    rw [← List.takeWhile_append_dropWhile (p := isBlank) (l := w), List.mem_append] at hd
    refine hd.resolve_left fun h => ?_
    rw [List.mem_takeWhile_imp h] at hnb
    cases hnb
  obtain ⟨a, x, hx⟩ := List.exists_cons_of_ne_nil (List.ne_nil_of_mem hdw)
  rw [hx] at hall ⊢
  generalize hs : (a :: x ++ r).rdropWhile isBlank = s at hall ⊢
  have hsplit : a :: x ++ r = s ++ (a :: x ++ r).rtakeWhile isBlank := by
    rw [← hs, List.rdropWhile_append_rtakeWhile]
  have hab : isBlank a = false := by
    have := List.head?_dropWhile_not isBlank w
    rw [hx] at this
    simpa using this
  have hbl : ∀ c ∈ (a :: x ++ r).rtakeWhile isBlank, isBlank c = true := fun c hc =>
    List.mem_rtakeWhile_imp hc
  -- the first letter that is no blank is a digit
  have hsa : a ∈ s := by
    cases s with
    | nil =>
      rw [List.nil_append] at hsplit
      rw [hbl a (by rw [← hsplit]; simp)] at hab
      cases hab
    | cons b s =>
      rw [List.cons_append, List.cons_append, List.cons.injEq] at hsplit
      simp [hsplit.1]
  have hskip : (w.dropWhile fun c => !isDigit c) = a :: x := by
    rw [← List.takeWhile_append_dropWhile (p := isBlank) (l := w), hx,
      List.dropWhile_append_of_pos, List.dropWhile_cons_of_neg (by simp [hall a hsa])]
    intro c hc
    simp [isBlank_not_digit (List.mem_takeWhile_imp hc)]
  rw [hskip]
  rcases List.append_eq_append_iff.mp hsplit with ⟨t, rfl, ht⟩ | ⟨t, ht, hbt⟩
  · cases t with
    | nil => exact ⟨[], by simp, by simp⟩
    | cons b t =>
      -- a digit of the continuation would follow its blank
      have hb := hr b (by rw [ht]; rfl)
      have hdigit := hall b (by simp)
      rw [isBlank_not_digit hb] at hdigit
      cases hdigit
  · exact ⟨t, ht, fun c hc => hbl c (by rw [hbt]; simp [hc])⟩

/-- What is read of the line of a field whose value is a number. -/
theorem readNumber_digits {f : Field} (hname : ∀ c ∈ f.name, isDigit c = false)
    (hfolds : ∀ l ∈ f.folds, l.Continues) (hline : ∃ c ∈ f.line.text, isDigit c = true)
    {c : Char} {ds : List Char} (hds : f.digits = c :: ds)
    (hall : ∀ c ∈ f.digits, isDigit c = true) :
    readNumber (linesText [f.line]) = some (if c = '0' then 0 else stoul 10 (c :: ds.take 10)) := by
  -- the digits of the line are behind its colon
  obtain ⟨d, hd, hdig⟩ := hline
  have hn : ∀ c ∈ f.line.text.takeWhile (· ≠ ':'), isDigit c = false := by
    intro c hc
    by_contra hdc
    rw [Bool.not_eq_false] at hdc
    have hsmall : c.val < 65 := by
      simp only [isDigit, decide_eq_true_eq, Char.le_def, UInt32.le_iff_toNat_le] at hdc
      have h9 : ('9' : Char).val.toNat = 57 := rfl
      have h65 : (65 : UInt32).toNat = 65 := rfl
      rw [UInt32.lt_iff_toNat_lt]
      omega
    have hin : c ∈ f.name := by rwa [Field.name, mem_toLower hsmall]
    rw [hname c hin] at hdc
    cases hdc
  have hdrop : d ∈ f.line.text.dropWhile (· ≠ ':') := by
    rw [← List.takeWhile_append_dropWhile (p := fun c => decide (c ≠ ':')) (l := f.line.text),
      List.mem_append] at hd
    refine hd.resolve_left fun h => ?_
    rw [hn d h] at hdig
    cases hdig
  obtain ⟨col, w, hw⟩ := List.exists_cons_of_ne_nil (List.ne_nil_of_mem hdrop)
  have hcol : col = ':' := by
    have := List.head?_dropWhile_not (fun c => decide (c ≠ ':')) f.line.text
    rw [hw] at this
    simpa using this
  subst hcol
  have hdw : d ∈ w := by
    rw [hw, List.mem_cons] at hdrop
    refine hdrop.resolve_left ?_
    rintro rfl
    cases hdig
  have hvalue : f.value = w ++ f.folds.flatMap HeaderLine.text := by
    rw [Field.value, hw]
    rfl
  have hr : ∀ c, (f.folds.flatMap HeaderLine.text).head? = some c → isBlank c = true := by
    intro c hc
    cases hf : f.folds with
    | nil =>
      rw [hf] at hc
      cases hc
    | cons l ls =>
      obtain ⟨b, hb, hblank⟩ := hfolds l (by simp [hf])
      obtain ⟨t, ht⟩ := List.head?_eq_some_iff.mp hb
      rw [hf, List.flatMap_cons, ht] at hc
      cases hc
      exact hblank
  have hdigits : ((w ++ f.folds.flatMap HeaderLine.text).dropWhile isBlank).rdropWhile isBlank =
      c :: ds := by
    rw [← hds, Field.digits, hvalue]
  rw [hds] at hall
  obtain ⟨t, ht, hblank⟩ := dropWhile_digits hr ⟨d, hdw, hdig⟩ (by rw [hdigits]; exact hall)
  rw [hdigits] at ht
  -- the rest of the line, from its first digit on
  have hrest : ((linesText [f.line]).dropWhile fun c => !isDigit c) = c :: (ds ++ t ++ crlf) := by
    have htext : linesText [f.line] =
        f.line.text.takeWhile (· ≠ ':') ++ ':' :: (w ++ crlf) := by
      rw [← List.cons_append, ← List.append_assoc, ← hw, List.takeWhile_append_dropWhile]
      simp
    rw [htext, List.dropWhile_append_of_pos fun c hc => by simp [hn c hc],
      List.dropWhile_cons_of_pos (by decide),
      dropWhile_append_of_neg ⟨d, hdw, by simp [hdig]⟩, ht]
    simp
  have htake : (ds ++ t ++ crlf).takeWhile isDigit = ds := by
    rw [List.append_assoc, List.takeWhile_append_of_pos fun c hc => hall c (by simp [hc])]
    cases t with
    | nil => simp [crlf, isDigit]
    | cons b t => simp [isBlank_not_digit (hblank b (by simp))]
  unfold readNumber
  rw [hrest]
  simp only [htake]
  split
  · rfl
  · rfl

theorem readNumber_eq_none_iff (s : List Char) :
    readNumber s = none ↔ ∀ c ∈ s, isDigit c = false := by
  have hall : (s.dropWhile fun c => !isDigit c) = [] ↔ ∀ c ∈ s, isDigit c = false := by
    simp [List.dropWhile_eq_nil_iff]
  rw [← hall]
  unfold readNumber
  cases s.dropWhile fun c => !isDigit c with
  | nil => simp
  | cons c t => by_cases h0 : c = '0' <;> simp [h0]

theorem linesText_digits (l : HeaderLine) :
    (∀ c ∈ linesText [l], isDigit c = false) ↔ ∀ c ∈ l.text, isDigit c = false := by
  have htext : linesText [l] = l.text ++ crlf := by simp
  have hend : ∀ c ∈ crlf, isDigit c = false := by decide
  rw [htext]
  constructor
  · intro h c hc
    exact h c (List.mem_append_left _ hc)
  · intro h c hc
    rcases List.mem_append.mp hc with hc | hc
    · exact h c hc
    · exact hend c hc

/-! ## The theorem -/

/-- `msg_body_size` returns the number of the field, if it has one of 64 bits. -/
def LengthExact (headers : Headers) (f : Field) : Prop :=
  msgBodySize headers = f.number.filter fun v => v < 2 ^ 64

/-- A field with a number is found, with its digits on its first line, and they are all 0
or at most 11 without a leading 0; any other field is not found or has no digit there. -/
def ReadsLength (ls : List HeaderLine) (f : Field) : Prop :=
  match f.number.filter fun v => v < 2 ^ 64 with
  | some _ => Found ls f ∧ (∃ c ∈ f.line.text, isDigit c = true) ∧
      ((∀ c ∈ f.digits, c = '0') ∨ f.digits.head? ≠ some '0' ∧ f.digits.length ≤ 11)
  | none => Found ls f → ∀ c ∈ f.line.text, isDigit c = false

theorem number_eq_some {f : Field} {v : Nat} (h : f.number = some v) :
    f.digits ≠ [] ∧ (∀ c ∈ f.digits, isDigit c = true) ∧ v = stoul 10 f.digits := by
  have hn : f.number = if f.digits ≠ [] ∧ f.digits.all isDigit then some (stoul 10 f.digits)
      else none := rfl
  rw [hn] at h
  split at h
  · rename_i hok
    exact ⟨hok.1, by simpa using hok.2, (Option.some.inj h).symm⟩
  · cases h

/-- **The length is read exactly** if and only if the field can be read so. -/
theorem msgBodySize_exact_iff {ls : List HeaderLine} {headers : Headers} {f : Field}
    (hp : parserHeader (linesText ls) [] = .ret (true, headers))
    (hone : fieldsNamed ls "content-length".toList = [f]) :
    LengthExact headers f ↔ ReadsLength ls f := by
  obtain ⟨es, hes, rfl⟩ := parserHeader_accepted hp
  have hk : ∀ c ∈ "content-length".toList, c ≠ '\r' ∧ c ≠ ':' ∧ isBlank c = false := by decide
  obtain ⟨hf, hname⟩ := of_fieldsNamed hone
  have hnd : ∀ c ∈ f.name, isDigit c = false := by
    rw [hname]
    decide
  have hfolds : ∀ l ∈ f.folds, l.Continues := fun l hl => (((mem_cutFields ls).2 f hf).2 l hl).2
  -- what is returned for the field
  have hfound :
      Found ls f → msgBodySize (storeEntries [] es) = readNumber (linesText [f.line]) := by
    intro h
    unfold msgBodySize
    rw [find_of_found hes hone hk h]
    exact search_clReg _
  have hlost : ¬ Found ls f → msgBodySize (storeEntries [] es) = none := by
    intro h
    unfold msgBodySize
    rw [find_of_not_found hes hone hk h]
  have hdigit : (∃ c ∈ f.line.text, isDigit c = true) ↔
      readNumber (linesText [f.line]) ≠ none := by
    rw [ne_eq, readNumber_eq_none_iff, linesText_digits]
    simp
  unfold LengthExact ReadsLength
  cases hv : f.number.filter fun v => v < 2 ^ 64 with
  | none =>
    simp only
    constructor
    · intro h hfd
      rw [← linesText_digits, ← readNumber_eq_none_iff, ← hfound hfd]
      exact h
    · intro h
      by_cases hfd : Found ls f
      · rw [hfound hfd, readNumber_eq_none_iff, linesText_digits]
        exact h hfd
      · exact hlost hfd
  | some v =>
    obtain ⟨hnum, -⟩ := Option.filter_eq_some_iff.mp hv
    obtain ⟨hne, hall, rfl⟩ := number_eq_some hnum
    obtain ⟨c, ds, hds⟩ := List.exists_cons_of_ne_nil hne
    have hhex : ∀ d ∈ c :: ds, isHex d = true := fun d hd =>
      isHex_of_isDigit (hall d (hds ▸ hd))
    have hlt : ∀ d ∈ c :: ds, digitVal d < 10 := fun d hd => digitVal_lt (hall d (hds ▸ hd))
    have hexact := stoul_take_eq_iff (k := 10) (by omega) hhex hlt
    simp only
    constructor
    · intro h
      have hfd : Found ls f := by
        by_contra hfd
        rw [hlost hfd] at h
        cases h
      rw [hfound hfd] at h
      have hline := hdigit.mpr (by rw [h]; simp)
      rw [readNumber_digits hnd hfolds hline hds hall, Option.some.injEq, hds, hexact] at h
      rw [hds]
      exact ⟨hfd, hline, h⟩
    · rintro ⟨hfd, hline, hshape⟩
      rw [hds, ← hexact] at hshape
      rw [hfound hfd, readNumber_digits hnd hfolds hline hds hall, hshape, hds]

def lengthLine : HeaderLine := ⟨"Content-Length: 15".toList, by decide, by decide⟩

theorem msgBodySize_exact_plain :
    LengthExact [("content-length".toList, "Content-Length: 15\r\n".toList)] ⟨lengthLine, []⟩ := by
  have hp : parserHeader (linesText [lengthLine]) [] =
      .ret (true, [("content-length".toList, "Content-Length: 15\r\n".toList)]) := by decide
  exact (msgBodySize_exact_iff hp rfl).mpr
    ⟨⟨by decide, [], [], rfl, .inl rfl⟩, by decide, .inr (by decide)⟩

def signedLine : HeaderLine := ⟨"Content-Length: -5".toList, by decide, by decide⟩

/-- The sign is skipped. -/
theorem msgBodySize_signed :
    ¬ ∀ ls headers f, parserHeader (linesText ls) [] = .ret (true, headers) →
      fieldsNamed ls "content-length".toList = [f] → LengthExact headers f := by
  intro hall
  have hlen := hall [signedLine] [("content-length".toList, "Content-Length: -5\r\n".toList)]
    ⟨signedLine, []⟩ (by decide) rfl
  have hnum : (Field.mk signedLine []).number = none := by decide
  unfold LengthExact msgBodySize at hlen
  rw [hnum] at hlen
  have hread := search_clReg "Content-Length: -5\r\n".toList
  have h5 : readNumber "Content-Length: -5\r\n".toList = some 5 := by decide
  rw [h5] at hread
  have hfind : Headers.find [("content-length".toList, "Content-Length: -5\r\n".toList)]
      "content-length".toList = some "Content-Length: -5\r\n".toList := by decide
  rw [hfind] at hlen
  simp only [hread] at hlen
  cases hlen

end Hcpp
