import Mathlib.Data.List.Basic
import Mathlib.Tactic.Common

/-!
# Domain names on the wire

A name is a list of labels of 1 to 63 bytes.  In a message it is written as the
labels, each behind its length, up to a zero byte or to a pointer: two bytes
that begin with the bits 11 and give the offset, 14 bits long, of the rest of
the name (RFC 1035, 3.1 and 4.1.4).  `Decodes` follows the pointers, which lead
backwards.
-/

namespace DomainName

@[ext] structure Label where
  bytes : List Char
  ne_nil : bytes ≠ []
  le : bytes.length ≤ 63

abbrev Name := List Label

def Label.wire (l : Label) : List Char := Char.ofNat l.bytes.length :: l.bytes

/-- The labels as they are written, without what ends them. -/
def wire (n : Name) : List Char := n.flatMap Label.wire

/-- `foo.bar.` -/
def text (n : Name) : List Char := n.flatMap fun l => l.bytes ++ ['.']

inductive Ending where
  | root
  | pointer (offset : Fin 16384)

def Ending.bytes : Ending → List Char
  | root => [Char.ofNat 0]
  | pointer p => [Char.ofNat (192 + p.val / 256), Char.ofNat (p.val % 256)]

/-- A name as it stands in a message. -/
structure Written where
  labels : Name
  ending : Ending

def Written.bytes (w : Written) : List Char := wire w.labels ++ w.ending.bytes

/-- The bytes of `msg` at `offset` are a name, its pointers followed. -/
inductive Decodes (msg : List Char) : Nat → Name → Prop
  | root {offset : Nat} (h : Ending.root.bytes <+: msg.drop offset) : Decodes msg offset []
  | label {offset : Nat} {l : Label} {n : Name} (h : l.wire <+: msg.drop offset)
      (hn : Decodes msg (offset + l.wire.length) n) : Decodes msg offset (l :: n)
  | pointer {offset : Nat} {p : Fin 16384} {n : Name}
      (h : (Ending.pointer p).bytes <+: msg.drop offset) (hlt : p.val < offset)
      (hn : Decodes msg p n) : Decodes msg offset n

/-- The same, with the number of pointers that are followed and of the bytes that the name
takes at `offset`. -/
inductive DecodesWith (msg : List Char) : Nat → Nat → Nat → Name → Prop
  | root {offset : Nat} (h : Ending.root.bytes <+: msg.drop offset) :
      DecodesWith msg offset 0 1 []
  | label {offset pointers size : Nat} {l : Label} {n : Name} (h : l.wire <+: msg.drop offset)
      (hn : DecodesWith msg (offset + l.wire.length) pointers size n) :
      DecodesWith msg offset pointers (l.wire.length + size) (l :: n)
  | pointer {offset pointers size : Nat} {p : Fin 16384} {n : Name}
      (h : (Ending.pointer p).bytes <+: msg.drop offset) (hlt : p.val < offset)
      (hn : DecodesWith msg p pointers size n) : DecodesWith msg offset (pointers + 1) 2 n

/-- Names are compared without regard to case. -/
def SameName (a b : Name) : Prop :=
  a.map (fun l => l.bytes.map Char.toLower) = b.map fun l => l.bytes.map Char.toLower

theorem toNat_byte : ∀ n < 256, (Char.ofNat n).toNat = n := by decide +kernel

@[simp] theorem wire_nil : wire [] = [] := rfl

@[simp] theorem wire_cons (l : Label) (n : Name) : wire (l :: n) = l.wire ++ wire n := rfl

@[simp] theorem text_nil : text [] = [] := rfl

@[simp] theorem text_cons (l : Label) (n : Name) : text (l :: n) = l.bytes ++ '.' :: text n := by
  unfold text
  simp

@[simp] theorem Label.length_wire (l : Label) : l.wire.length = l.bytes.length + 1 := rfl

theorem Label.length_pos (l : Label) : 0 < l.bytes.length := List.length_pos_of_ne_nil l.ne_nil

theorem length_wire (n : Name) : (wire n).length = (text n).length := by
  induction n with
  | nil => rfl
  | cons l n ih =>
    rw [wire_cons, text_cons, List.length_append, List.length_append, List.length_cons,
      Label.length_wire, ih]
    omega

/-- Each label takes two bytes at least. -/
theorem length_le_wire (n : Name) : n.length ≤ (wire n).length := by
  induction n with
  | nil => exact Nat.le_refl _
  | cons l n ih =>
    rw [wire_cons, List.length_cons, List.length_append, Label.length_wire]
    omega

theorem Ending.length_pos (e : Ending) : 0 < e.bytes.length := by
  cases e <;> exact Nat.succ_pos _

/-- What an encoding begins with tells how it goes on. -/
theorem head_of_front {c d : Char} {s t u : List Char} (hs : c :: s <+: u) (ht : d :: t <+: u) :
    c.toNat = d.toNat := by
  obtain ⟨v, rfl⟩ := hs
  obtain ⟨w, hw⟩ := ht
  rw [List.cons_append, List.cons_append] at hw
  rw [(List.cons.inj hw).1]

theorem Label.toNat_front (l : Label) : (Char.ofNat l.bytes.length).toNat = l.bytes.length :=
  toNat_byte _ (by have := l.le; omega)

theorem toNat_pointer (p : Fin 16384) :
    (Char.ofNat (192 + p.val / 256)).toNat = 192 + p.val / 256 :=
  toNat_byte _ (by have := p.isLt; omega)

/-- Encodings of the same length at one place are equal. -/
theorem eq_of_front {s t u : List Char} (hs : s <+: u) (ht : t <+: u)
    (hlen : s.length = t.length) : s = t := by
  rw [List.prefix_iff_eq_take.mp hs, List.prefix_iff_eq_take.mp ht, hlen]

/-- **A name is decoded in one way only.**  By induction on one decoding: the first byte
says which rule the other one used. -/
theorem Decodes.unique {msg : List Char} {offset : Nat} {a b : Name} (ha : Decodes msg offset a)
    (hb : Decodes msg offset b) : a = b := by
  induction ha generalizing b with
  | root h =>
    cases hb with
    | root h' => rfl
    | label h' hn =>
      rename_i l n
      have hfirst := head_of_front h h'
      have hpos := l.length_pos
      rw [l.toNat_front, toNat_byte 0 (by decide)] at hfirst
      omega
    | pointer h' hlt hn =>
      rename_i p
      have hfirst := head_of_front h h'
      rw [toNat_pointer, toNat_byte 0 (by decide)] at hfirst
      omega
  | @label offset l n h hn ih =>
    have hpos := l.length_pos
    have hle := l.le
    cases hb with
    | root h' =>
      have hfirst := head_of_front h h'
      rw [l.toNat_front, toNat_byte 0 (by decide)] at hfirst
      omega
    | label h' hn' =>
      rename_i l' n'
      have hfirst := head_of_front h h'
      rw [l.toNat_front, l'.toNat_front] at hfirst
      have hwire : l.wire = l'.wire := eq_of_front h h' (by
        rw [Label.length_wire, Label.length_wire, hfirst])
      obtain rfl : l = l' := Label.ext (List.cons.inj hwire).2
      rw [ih hn']
    | pointer h' hlt hn' =>
      rename_i p
      have hfirst := head_of_front h h'
      rw [l.toNat_front, toNat_pointer] at hfirst
      omega
  | @pointer offset p n h hlt hn ih =>
    cases hb with
    | root h' =>
      have hfirst := head_of_front h h'
      rw [toNat_pointer, toNat_byte 0 (by decide)] at hfirst
      omega
    | label h' hn' =>
      rename_i l n'
      have hfirst := head_of_front h h'
      have hle := l.le
      rw [l.toNat_front, toNat_pointer] at hfirst
      omega
    | pointer h' hlt' hn' =>
      rename_i p'
      have hbytes := eq_of_front h h' rfl
      have hfirst := head_of_front h h'
      rw [toNat_pointer, toNat_pointer] at hfirst
      have hsecond : p.val % 256 = p'.val % 256 := by
        have heq := (List.cons.inj (List.cons.inj hbytes).2).1
        rw [← toNat_byte (p.val % 256) (by omega), heq, toNat_byte _ (by omega)]
      obtain rfl : p = p' := Fin.ext (by omega)
      exact ih hn'

theorem DecodesWith.decodes {msg : List Char} {offset pointers size : Nat} {n : Name}
    (h : DecodesWith msg offset pointers size n) : Decodes msg offset n := by
  induction h with
  | root h => exact .root h
  | label h _ ih => exact .label h ih
  | pointer h hlt _ ih => exact .pointer h hlt ih

theorem Decodes.decodesWith {msg : List Char} {offset : Nat} {n : Name}
    (h : Decodes msg offset n) : ∃ pointers size, DecodesWith msg offset pointers size n := by
  induction h with
  | root h => exact ⟨0, 1, .root h⟩
  | label h _ ih =>
    obtain ⟨k, size, hk⟩ := ih
    exact ⟨k, _, .label h hk⟩
  | pointer h hlt _ ih =>
    obtain ⟨k, size, hk⟩ := ih
    exact ⟨k + 1, 2, .pointer h hlt hk⟩

end DomainName
