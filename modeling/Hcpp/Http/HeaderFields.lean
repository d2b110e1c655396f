import Hcpp.Http.HeaderBlock
import Mathlib.Data.List.DropRight

/-!
# The fields of a header block

RFC 2616 section 4.2: a field is a line `name:value` and the lines behind it
that begin with a blank.  Names are compared without letter case.
-/

namespace Hcpp

def isBlank (c : Char) : Bool := c = ' ' || c = '\t'

/-- The line continues the field before it. -/
def HeaderLine.Continues (l : HeaderLine) : Prop := ∃ c, l.text.head? = some c ∧ isBlank c = true

instance (l : HeaderLine) : Decidable l.Continues :=
  match h : l.text.head? with
  | none => .isFalse fun ⟨c, hc, _⟩ => by rw [h] at hc; cases hc
  | some c => decidable_of_iff (isBlank c = true)
      ⟨fun hb => ⟨c, h, hb⟩, fun ⟨d, hd, hb⟩ => by rw [h] at hd; cases hd; exact hb⟩

structure Field where
  line : HeaderLine
  folds : List HeaderLine

namespace Field

def name (f : Field) : List Char := toLower (f.line.text.takeWhile (· ≠ ':'))

/-- The value with its continuation lines. -/
def value (f : Field) : List Char :=
  (f.line.text.dropWhile (· ≠ ':')).drop 1 ++ f.folds.flatMap HeaderLine.text

/-- The decimal number a field carries, blanks around it aside. -/
def number (f : Field) : Option Nat :=
  let s := (f.value.dropWhile isBlank).rdropWhile isBlank
  if s ≠ [] ∧ s.all isDigit then some (stoul 10 s) else none

/-- The elements of a comma separated value, parameters aside. -/
def tokens (f : Field) : List (List Char) :=
  f.value.splitOnP fun c => isBlank c || c = ',' || c = ';'

end Field

/-- The fields, and the lines before the first one that continue one further up. -/
def cutFields : List HeaderLine → List HeaderLine × List Field
  | [] => ([], [])
  | l :: ls =>
    if l.Continues then (l :: (cutFields ls).1, (cutFields ls).2)
    else ([], ⟨l, (cutFields ls).1⟩ :: (cutFields ls).2)

def fieldsOf (ls : List HeaderLine) : List Field := (cutFields ls).2

/-- The fields of that name, in their order. -/
def fieldsNamed (ls : List HeaderLine) (name : List Char) : List Field :=
  (fieldsOf ls).filter fun f => f.name = name

theorem length_fieldsNamed (ls : List HeaderLine) (name : List Char) :
    (fieldsNamed ls name).length = ((fieldsOf ls).map Field.name).count name := by
  unfold fieldsNamed
  rw [List.count_eq_countP, List.countP_map, ← List.countP_eq_length_filter]
  congr 1
  ext f
  exact (beq_eq_decide f.name name).symm

/-- A field begins with a line that continues none, and goes on with lines that do. -/
theorem mem_cutFields (ls : List HeaderLine) :
    (∀ l ∈ (cutFields ls).1, l ∈ ls ∧ l.Continues) ∧
      ∀ f ∈ (cutFields ls).2, ¬ f.line.Continues ∧ ∀ l ∈ f.folds, l ∈ ls ∧ l.Continues := by
  induction ls with
  | nil => exact ⟨by simp [cutFields], by simp [cutFields]⟩
  | cons l ls ih =>
    obtain ⟨ih1, ih2⟩ := ih
    have hup : ∀ l', l' ∈ ls ∧ l'.Continues → l' ∈ l :: ls ∧ l'.Continues :=
      fun l' h => ⟨List.mem_cons_of_mem _ h.1, h.2⟩
    rw [cutFields]
    by_cases hl : l.Continues
    · rw [if_pos hl]
      refine ⟨fun l' hl' => ?_, fun f hf => ⟨(ih2 f hf).1, fun l' h => hup l' ((ih2 f hf).2 l' h)⟩⟩
      rcases List.mem_cons.mp hl' with rfl | hl'
      · exact ⟨by simp, hl⟩
      · exact hup l' (ih1 l' hl')
    · rw [if_neg hl]
      refine ⟨by simp, fun f hf => ?_⟩
      rcases List.mem_cons.mp hf with rfl | hf
      · exact ⟨hl, fun l' h => hup l' (ih1 l' h)⟩
      · exact ⟨(ih2 f hf).1, fun l' h => hup l' ((ih2 f hf).2 l' h)⟩

/-! ## Blocks one behind the other -/

/-- The block does not begin inside a field. -/
def BeginsField (ls : List HeaderLine) : Prop := ∀ l, ls.head? = some l → ¬ l.Continues

theorem cutFields_begins {ls : List HeaderLine} (h : BeginsField ls) : (cutFields ls).1 = [] := by
  cases ls with
  | nil => rfl
  | cons l ls => rw [cutFields, if_neg (h l rfl)]

theorem cutFields_append (as : List HeaderLine) {bs : List HeaderLine} (h : BeginsField bs) :
    cutFields (as ++ bs) = ((cutFields as).1, (cutFields as).2 ++ (cutFields bs).2) := by
  induction as with
  | nil => exact Prod.ext (cutFields_begins h) rfl
  | cons l as ih =>
    rw [List.cons_append, cutFields, cutFields, ih]
    by_cases hl : l.Continues
    · rw [if_pos hl, if_pos hl]
    · rw [if_neg hl, if_neg hl]
      rfl

theorem fieldsOf_append (as : List HeaderLine) {bs : List HeaderLine} (h : BeginsField bs) :
    fieldsOf (as ++ bs) = fieldsOf as ++ fieldsOf bs := by
  unfold fieldsOf
  rw [cutFields_append as h]

section Blocks

variable {α : Type} {g : α → List HeaderLine}

theorem beginsField_append {as bs : List HeaderLine} (ha : BeginsField as) (hb : BeginsField bs) :
    BeginsField (as ++ bs) := by
  cases as with
  | nil => exact hb
  | cons l as => exact ha

theorem beginsField_flatMap {xs : List α} (h : ∀ x ∈ xs, BeginsField (g x)) :
    BeginsField (xs.flatMap g) := by
  induction xs with
  | nil => exact fun l hl => by cases hl
  | cons x xs ih =>
    rw [List.flatMap_cons]
    exact beginsField_append (h x (by simp)) (ih fun y hy => h y (by simp [hy]))

theorem fieldsOf_flatMap {xs : List α} (h : ∀ x ∈ xs, BeginsField (g x)) :
    fieldsOf (xs.flatMap g) = xs.flatMap fun x => fieldsOf (g x) := by
  induction xs with
  | nil => rfl
  | cons x xs ih =>
    have hxs : ∀ y ∈ xs, BeginsField (g y) := fun y hy => h y (by simp [hy])
    rw [List.flatMap_cons, fieldsOf_append _ (beginsField_flatMap hxs), ih hxs, List.flatMap_cons]

end Blocks

/-! ## Blocks that are cut into entries as they are into fields -/

/-- Every field is written `name: value`, and continued by lines that begin with a space. -/
structure Canonical (ls : List HeaderLine) : Prop where
  begins : BeginsField ls
  folds : ∀ l ∈ ls, l.Continues → l.StartsSp
  names : ∀ l ∈ ls, ¬ l.Continues →
    Search.find colonSp l.text = some (l.text.takeWhile (· ≠ ':')).length

/-- The entry the field is stored as. -/
def Field.entry (f : Field) : Entry := ⟨f.line.text.takeWhile (· ≠ ':'), [f.line], f.folds⟩

theorem HeaderLine.continues_of_startsSp {l : HeaderLine} (h : l.StartsSp) : l.Continues :=
  ⟨' ', h, rfl⟩

theorem cutBlock_fields {ls : List HeaderLine} (hf : ∀ l ∈ ls, l.Continues → l.StartsSp)
    (hn : ∀ l ∈ ls, ¬ l.Continues →
      Search.find colonSp l.text = some (l.text.takeWhile (· ≠ ':')).length) :
    cutBlock true [] ls = some ((cutFields ls).1, (cutFields ls).2.map Field.entry) := by
  induction ls with
  | nil => rfl
  | cons l ls ih =>
    have hrec := ih (fun l' hl => hf l' (by simp [hl])) (fun l' hl => hn l' (by simp [hl]))
    rw [cutBlock, cutFields]
    by_cases hl : l.Continues
    · rw [if_pos ⟨rfl, hf l (by simp) hl⟩, if_pos hl, hrec]
      rfl
    · have hs : ¬ (true = true ∧ l.StartsSp) := fun h => hl (HeaderLine.continues_of_startsSp h.2)
      have htake : l.text.take (l.text.takeWhile (· ≠ ':')).length = l.text.takeWhile (· ≠ ':') :=
        (List.prefix_iff_eq_take.mp (List.takeWhile_prefix _)).symm
      rw [if_neg hs, if_neg hl, hn l (by simp) hl, hrec]
      simp only [htake, Option.map_some, linesText_nil, List.nil_append, List.map_cons]
      rfl

/-- **A canonical block is stored field by field.** -/
theorem Canonical.entries {ls : List HeaderLine} (h : Canonical ls) :
    entries ls = some ((fieldsOf ls).map Field.entry) := by
  have hb : ∀ l, ls.head? = some l → ¬ l.StartsSp := fun l hl hs =>
    h.begins l hl (HeaderLine.continues_of_startsSp hs)
  unfold Hcpp.entries
  rw [← cutBlock_begins hb, cutBlock_fields h.folds h.names]
  rfl

end Hcpp
