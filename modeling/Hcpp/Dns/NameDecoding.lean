import Hcpp.Dns.Message

/-!
# `qname2host` against RFC 1035, 4.1.4

`Spells` is what `qname2host` reads: it takes every byte above 63 for a pointer,
wherever it leads, by its low byte alone, and the NUL behind the message for a
zero byte.  `DecodesWith` is what the RFC reads.  The two walk together until
one of these makes a difference; `ReadsAlike` says where they may part without
one being seen.
-/

namespace Hcpp.Dns

open DomainName

def byteAt (msg : List Char) (o : Nat) : Nat := (msg.getD o nul).toNat

/-- The target of a pointer at `o`, as `qname2host` takes it. -/
def lowTarget (msg : List Char) (o : Nat) : Nat := byteAt msg (o + 1) &&& 0xff

/-- From `o`, with `d` pointers left, the text up to the end of the name, and the bytes
the name takes at `o`. -/
inductive Spells (msg : List Char) : Nat → Nat → Nat → List Char → Prop
  | zero {d o : Nat} (ho : o ≤ msg.length) (h0 : byteAt msg o = 0) : Spells msg d o 1 []
  | label {d o size : Nat} {t : List Char} (h0 : 0 < byteAt msg o) (hmax : byteAt msg o ≤ 63)
      (hfits : o + (byteAt msg o + 1) ≤ msg.length)
      (h : Spells msg d (o + (byteAt msg o + 1)) size t) :
      Spells msg d o (byteAt msg o + 1 + size)
        ((msg.drop (o + 1)).take (byteAt msg o) ++ '.' :: t)
  | jump {d o size : Nat} {t : List Char} (hmax : 63 < byteAt msg o)
      (hbits : byteAt msg o &&& 0xc0 ≠ 0) (hend : o + 1 < msg.length)
      (htarget : lowTarget msg o < msg.length) (h : Spells msg d (lowTarget msg o) size t) :
      Spells msg (d + 1) o 2 t

/-- A byte above 63 is read as a pointer. -/
theorem Spells.of_high {msg : List Char} {d o size : Nat} {t : List Char}
    (h : Spells msg d o size t) (hmax : 63 < byteAt msg o) :
    byteAt msg o &&& 0xc0 ≠ 0 ∧ o + 1 < msg.length ∧ lowTarget msg o < msg.length ∧ size = 2 ∧
      ∃ e size', d = e + 1 ∧ Spells msg e (lowTarget msg o) size' t := by
  cases h with
  | zero _ h0 => omega
  | label _ hle _ _ => omega
  | jump _ hbits hend htarget h => exact ⟨hbits, hend, htarget, rfl, _, _, rfl, h⟩

/-- A byte of 1 to 63 is read as the length of a label. -/
theorem Spells.of_label {msg : List Char} {d o size : Nat} {t : List Char}
    (h : Spells msg d o size t) (h0 : 0 < byteAt msg o) (hmax : byteAt msg o ≤ 63) :
    o + (byteAt msg o + 1) ≤ msg.length ∧ ∃ size' t', size = byteAt msg o + 1 + size' ∧
      t = (msg.drop (o + 1)).take (byteAt msg o) ++ '.' :: t' ∧
      Spells msg d (o + (byteAt msg o + 1)) size' t' := by
  cases h with
  | zero _ hz => omega
  | label _ _ hfits h => exact ⟨hfits, _, _, rfl, rfl, h⟩
  | jump hhigh _ _ _ _ => omega

theorem Spells.unique {msg : List Char} {d o size size' : Nat} {t t' : List Char}
    (h : Spells msg d o size t) (h' : Spells msg d o size' t') : size = size' ∧ t = t' := by
  induction h generalizing size' t' with
  | zero _ h0 =>
    cases h' with
    | zero _ _ => exact ⟨rfl, rfl⟩
    | label hpos _ _ _ => omega
    | jump hmax _ _ _ _ => omega
  | label hpos hmax _ _ ih =>
    obtain ⟨-, size'', t'', rfl, rfl, hrest⟩ := h'.of_label hpos hmax
    obtain ⟨rfl, rfl⟩ := ih hrest
    exact ⟨rfl, rfl⟩
  | jump hmax _ _ _ _ ih =>
    obtain ⟨-, -, -, rfl, e, size'', he, hrest⟩ := h'.of_high hmax
    obtain rfl := Nat.succ.inj he
    exact ⟨rfl, (ih hrest).2⟩

/-- What is counted of a name of `size` bytes behind the first pointer: nothing more. -/
def counted (r compressDepth size : Nat) : Nat :=
  if compressDepth = 0 then r + size else r + 1

/-- What `qname2host` returns for a text and a count. -/
def returned (count : Nat) (t : List Char) : Int × List Char :=
  if t.length = 0 then (0, []) else if t.length > 255 then (-1, []) else ((count : Int), t)

/-- **The loop reads what `Spells` says**, and fails where it says nothing.  By induction
on the fuel, with the cases of the byte at `i`. -/
theorem qname2hostLoop_spells {msg : List Char} {startIdx : Nat} (hstart : startIdx ≠ 0)
    (fuel i r compressDepth : Nat) (s : List Char) (hi : i ≤ msg.length)
    (hd : compressDepth ≤ 10)
    (hfuel : (10 - compressDepth) * (msg.length + 2) + (msg.length - i) < fuel) :
    (∃ size t, Spells msg (10 - compressDepth) i size t ∧
        qname2hostLoop msg startIdx fuel i r compressDepth s =
          .ret (returned (counted r compressDepth size) (s ++ t))) ∨
      (∀ size t, ¬ Spells msg (10 - compressDepth) i size t) ∧
        qname2hostLoop msg startIdx fuel i r compressDepth s = .ret (-1, []) := by
  induction fuel generalizing i r compressDepth s with
  | zero => omega
  | succ fuel ih =>
    rw [qname2hostLoop, charAt_of_le hi, Outcome.ret_bind]
    simp only
    rw [show (msg.getD i nul).toNat = byteAt msg i from rfl]
    by_cases h0 : byteAt msg i = 0
    · rw [if_pos h0]
      refine .inl ⟨1, [], .zero hi h0, ?_⟩
      have hcount : counted r compressDepth 1 = r + 1 := ite_self _
      rw [List.append_nil, hcount, returned]
      split_ifs <;> rfl
    · rw [if_neg h0]
      by_cases hmax : byteAt msg i > dnsMaxLabel
      · rw [if_pos hmax]
        have hhigh : 63 < byteAt msg i := hmax
        by_cases hdeep : startIdx = 0 ∨ compressDepth + 1 > 10
        · rw [if_pos hdeep]
          refine .inr ⟨fun size t h => ?_, rfl⟩
          obtain ⟨-, -, -, -, e, -, he, -⟩ := h.of_high hhigh
          rcases hdeep with h' | h'
          · exact hstart h'
          · omega
        · rw [if_neg hdeep]
          by_cases hbits : byteAt msg i &&& 0xc0 ≠ 0
          · rw [if_pos hbits]
            by_cases hend : i + 1 ≥ msg.length
            · rw [if_pos hend]
              refine .inr ⟨fun size t h => ?_, rfl⟩
              have := (h.of_high hhigh).2.1
              omega
            · rw [if_neg hend, charAt_of_le (by omega), Outcome.ret_bind]
              rw [show (msg.getD (i + 1) nul).toNat &&& 0xff = lowTarget msg i from rfl]
              by_cases hj : lowTarget msg i ≥ msg.length
              · rw [if_pos hj]
                refine .inr ⟨fun size t h => ?_, rfl⟩
                have := (h.of_high hhigh).2.2.1
                omega
              · rw [if_neg hj]
                have hten : compressDepth + 1 ≤ 10 := by omega
                obtain ⟨k, hk⟩ : ∃ k, 10 - compressDepth = k + 1 := ⟨9 - compressDepth, by omega⟩
                have hk' : 10 - (compressDepth + 1) = k := by omega
                rw [hk, Nat.succ_mul] at hfuel
                have hgo := ih (lowTarget msg i) (if compressDepth + 1 ≤ 1 then r + 1 else r)
                  (compressDepth + 1) s (by omega) hten (by rw [hk']; omega)
                rw [hk'] at hgo
                rw [hk]
                rcases hgo with ⟨size, t, hspell, hret⟩ | ⟨hno, hret⟩
                · refine .inl ⟨2, t, .jump hhigh hbits (by omega) (by omega) hspell, ?_⟩
                  -- the first pointer counts 1, and the return adds 1
                  have hcount : counted (if compressDepth + 1 ≤ 1 then r + 1 else r)
                      (compressDepth + 1) size = counted r compressDepth 2 := by
                    unfold counted
                    by_cases hzero : compressDepth = 0
                    · subst hzero
                      rfl
                    · rw [if_neg (Nat.succ_ne_zero _), if_neg hzero, if_neg (by omega)]
                  rw [hret, hcount]
                · refine .inr ⟨fun size t h => ?_, hret⟩
                  obtain ⟨-, -, -, -, e, size', he, h'⟩ := h.of_high hhigh
                  obtain rfl : k = e := by omega
                  exact hno _ _ h'
          · rw [if_neg hbits]
            exact .inr ⟨fun size t h => hbits (h.of_high hhigh).1, rfl⟩
      · rw [if_neg hmax]
        have hle : byteAt msg i ≤ 63 := Nat.not_lt.mp hmax
        by_cases hout : byteAt msg i + i + 1 > msg.length
        · rw [if_pos hout]
          refine .inr ⟨fun size t h => ?_, rfl⟩
          have := (h.of_label (by omega) hle).1
          omega
        · rw [if_neg hout]
          rcases ih (i + (byteAt msg i + 1))
            (if compressDepth = 0 then r + (byteAt msg i + 1) else r) compressDepth
            (s ++ (msg.drop (i + 1)).take (byteAt msg i) ++ ['.']) (by omega) hd (by omega) with
            ⟨size, t, hspell, hret⟩ | ⟨hno, hret⟩
          · refine .inl ⟨_, _, .label (by omega) hle (by omega) hspell, ?_⟩
            have hcount : counted (if compressDepth = 0 then r + (byteAt msg i + 1) else r)
                compressDepth size = counted r compressDepth (byteAt msg i + 1 + size) := by
              unfold counted
              split_ifs <;> omega
            rw [hret, hcount]
            simp
          · refine .inr ⟨fun size t h => ?_, hret⟩
            obtain ⟨-, size', t', -, -, h'⟩ := h.of_label (by omega) hle
            exact hno _ _ h'

/-- **`qname2host` inside a message.** -/
theorem qname2host_spells {msg : List Char} {startIdx : Nat} (hstart : 0 < startIdx)
    (h : startIdx ≤ msg.length) :
    (∃ size t, Spells msg 10 startIdx size t ∧
        qname2host msg startIdx = .ret (returned size t)) ∨
      (∀ size t, ¬ Spells msg 10 startIdx size t) ∧
        qname2host msg startIdx = .ret (-1, []) := by
  have hloop := @qname2hostLoop_spells msg startIdx (by omega)
    (11 * (msg.length + 2)) startIdx 0 0 [] h (by omega) (by omega)
  simpa [counted, qname2host] using hloop

/-! ## What stands at a place -/

section Places

variable {msg : List Char} {o : Nat}

/-- A pointer that leads backwards. -/
def PointsBack (msg : List Char) (o : Nat) (p : Fin 16384) : Prop :=
  (Ending.pointer p).bytes <+: msg.drop o ∧ p.val < o

theorem byteAt_root (h : Ending.root.bytes <+: msg.drop o) : byteAt msg o = 0 := by
  unfold byteAt
  rw [getD_at_drop h]
  rfl

theorem byteAt_wire {l : Label} (h : l.wire <+: msg.drop o) : byteAt msg o = l.bytes.length := by
  unfold byteAt
  rw [getD_at_drop h, l.toNat_front]

theorem byteAt_pointer {p : Fin 16384} (h : (Ending.pointer p).bytes <+: msg.drop o) :
    byteAt msg o = 192 + p.val / 256 := by
  unfold byteAt
  rw [getD_at_drop h, toNat_pointer]

theorem lowTarget_pointer {p : Fin 16384} (h : (Ending.pointer p).bytes <+: msg.drop o) :
    lowTarget msg o = p.val % 256 := by
  have hlow : [Char.ofNat (p.val % 256)] <+: msg.drop (o + 1) :=
    prefix_behind (a := [Char.ofNat (192 + p.val / 256)]) h
  unfold lowTarget byteAt
  rw [getD_at_drop hlow, toNat_byte _ (by omega), Nat.and_two_pow_sub_one_eq_mod _ 8]
  omega

theorem wire_fits {l : Label} (h : l.wire <+: msg.drop o) :
    o + (l.bytes.length + 1) ≤ msg.length :=
  length_le_append (List.cons_ne_nil _ _) h

theorem take_wire {l : Label} (h : l.wire <+: msg.drop o) :
    (msg.drop (o + 1)).take l.bytes.length = l.bytes := by
  obtain ⟨u, hu⟩ := h
  rw [← List.drop_drop, ← hu]
  simp [Label.wire]

theorem drop_cons (h : o < msg.length) : Char.ofNat (byteAt msg o) :: msg.drop (o + 1) =
    msg.drop o := by
  unfold byteAt
  rw [Char.ofNat_toNat, List.drop_eq_getElem_cons h, List.getD_eq_getElem?_getD,
    List.getElem?_eq_getElem h, Option.getD_some]

/-- A zero byte inside the message. -/
theorem root_stands (h : o < msg.length) (h0 : byteAt msg o = 0) :
    Ending.root.bytes <+: msg.drop o := by
  refine ⟨msg.drop (o + 1), ?_⟩
  rw [← drop_cons h, h0]
  rfl

/-- A label that ends inside the message. -/
theorem label_stands (h0 : 0 < byteAt msg o) (hmax : byteAt msg o ≤ 63)
    (hfits : o + (byteAt msg o + 1) ≤ msg.length) :
    ∃ l : Label, l.wire <+: msg.drop o ∧ l.bytes.length = byteAt msg o := by
  have hlen : ((msg.drop (o + 1)).take (byteAt msg o)).length = byteAt msg o := by
    rw [List.length_take, List.length_drop]
    omega
  refine ⟨⟨(msg.drop (o + 1)).take (byteAt msg o), List.ne_nil_of_length_pos (by omega),
    by omega⟩, ⟨(msg.drop (o + 1)).drop (byteAt msg o), ?_⟩, hlen⟩
  show Char.ofNat ((msg.drop (o + 1)).take (byteAt msg o)).length ::
    ((msg.drop (o + 1)).take (byteAt msg o) ++ _) = _
  rw [hlen, List.take_append_drop, drop_cons (by omega)]

/-! ### What is decoded there -/

variable {pointers size : Nat} {n : Name}

theorem decodesWith_root (hn : DecodesWith msg o pointers size n)
    (h : Ending.root.bytes <+: msg.drop o) : pointers = 0 ∧ n = [] := by
  have h0 := byteAt_root h
  cases hn with
  | root _ => exact ⟨rfl, rfl⟩
  | @label _ _ _ l _ h' _ =>
    have := byteAt_wire h'
    have := l.length_pos
    omega
  | pointer h' _ _ =>
    have := byteAt_pointer h'
    omega

theorem decodesWith_label {l : Label} (hn : DecodesWith msg o pointers size n)
    (h : l.wire <+: msg.drop o) :
    ∃ size' n', n = l :: n' ∧ DecodesWith msg (o + l.wire.length) pointers size' n' := by
  have hl := byteAt_wire h
  have hpos := l.length_pos
  have hle := l.le
  cases hn with
  | root h' =>
    have := byteAt_root h'
    omega
  | @label _ _ size' l' n' h' hn' =>
    have hl' := byteAt_wire h'
    have hwire : l'.wire = l.wire := eq_of_front h' h (by
      rw [Label.length_wire, Label.length_wire]
      omega)
    obtain rfl : l' = l := Label.ext (List.cons.inj hwire).2
    exact ⟨size', n', rfl, hn'⟩
  | pointer h' _ _ =>
    have := byteAt_pointer h'
    omega

theorem decodesWith_high (hn : DecodesWith msg o pointers size n) (h : 63 < byteAt msg o) :
    ∃ p pointers' size', PointsBack msg o p ∧ pointers = pointers' + 1 ∧ size = 2 ∧
      DecodesWith msg p pointers' size' n := by
  cases hn with
  | root h' =>
    have := byteAt_root h'
    omega
  | @label _ _ _ l _ h' _ =>
    have := byteAt_wire h'
    have := l.le
    omega
  | pointer h' hlt hn => exact ⟨_, _, _, ⟨h', hlt⟩, rfl, rfl, hn⟩

theorem pointer_unique {p q : Fin 16384} (hp : (Ending.pointer p).bytes <+: msg.drop o)
    (hq : (Ending.pointer q).bytes <+: msg.drop o) : p = q := by
  have h1 := byteAt_pointer hp
  have h2 := byteAt_pointer hq
  have h3 := lowTarget_pointer hp
  have h4 := lowTarget_pointer hq
  exact Fin.ext (by omega)

/-- Both count the same bytes at the place they start from. -/
theorem decodesWith_size {d size' : Nat} {t : List Char}
    (hn : DecodesWith msg o pointers size n) (h : Spells msg d o size' t) : size = size' := by
  induction hn generalizing size' t with
  | root h' =>
    have h0 := byteAt_root h'
    cases h with
    | zero _ _ => rfl
    | label hpos _ _ _ => omega
    | jump hmax _ _ _ _ => omega
  | @label o pointers size l n h' _ ih =>
    have hl := byteAt_wire h'
    have hpos := l.length_pos
    have hle := l.le
    obtain ⟨-, size'', t', rfl, -, hrest⟩ := h.of_label (by omega) (by omega)
    rw [hl] at hrest ⊢
    rw [ih hrest, Label.length_wire]
  | pointer h' _ _ _ =>
    have hp := byteAt_pointer h'
    exact (h.of_high (by omega)).2.2.2.1.symm

end Places

/-! ## Where the two agree -/

/-- Behind the text `s`, what `qname2host` reads at `b` is the name at `a`, as far as it
must be: a name within ten pointers and 255 bytes, and nothing where there is no name. -/
def SpelledAlike (msg : List Char) (d a b : Nat) (s : List Char) : Prop :=
  (∀ pointers size n, DecodesWith msg a pointers size n → pointers ≤ d →
    (s ++ text n).length ≤ 255 → s ++ text n ≠ [] ∧ ∃ size', Spells msg d b size' (text n)) ∧
  ((∀ n, ¬ Decodes msg a n) → ∀ size t, Spells msg d b size t → 255 < (s ++ t).length)

/-- The walk from `o`, behind the text `s`, with `d` pointers left. -/
inductive ReadsAlike (msg : List Char) : Nat → Nat → List Char → Prop
  /-- the text is too long already -/
  | long {d o : Nat} {s : List Char} (h : 255 < s.length) : ReadsAlike msg d o s
  /-- a zero byte, behind a label -/
  | zero {d o : Nat} {s : List Char} (h : Ending.root.bytes <+: msg.drop o) (hs : s ≠ []) :
      ReadsAlike msg d o s
  | label {d o : Nat} {s : List Char} {l : Label} (h : l.wire <+: msg.drop o)
      (hn : ReadsAlike msg d (o + l.wire.length) (s ++ (l.bytes ++ ['.']))) : ReadsAlike msg d o s
  /-- a label or a pointer that the end of the message cuts off -/
  | cut {d o : Nat} {s : List Char} (h0 : 0 < byteAt msg o)
      (h : if byteAt msg o ≤ 63 then msg.length < o + (byteAt msg o + 1)
        else msg.length ≤ o + 1) : ReadsAlike msg d o s
  /-- a pointer whose offset is its low byte -/
  | near {d o : Nat} {s : List Char} {p : Fin 16384} (hp : PointsBack msg o p)
      (hlow : p.val < 256) (hn : ReadsAlike msg d p s) : ReadsAlike msg (d + 1) o s
  /-- one with more than the low byte: the same must stand at both places -/
  | far {d o : Nat} {s : List Char} {p : Fin 16384} (hp : PointsBack msg o p)
      (hfar : 256 ≤ p.val) (h : SpelledAlike msg d p (p.val % 256) s) :
      ReadsAlike msg (d + 1) o s
  /-- another byte above 63, or a pointer that leads forwards: it must lead to nothing -/
  | stray {d o : Nat} {s : List Char} (h : 63 < byteAt msg o) (hno : ∀ p, ¬ PointsBack msg o p)
      (hlost : ∀ size t, Spells msg (d + 1) o size t → 255 < (s ++ t).length) :
      ReadsAlike msg (d + 1) o s
  /-- an eleventh pointer -/
  | spent {o : Nat} {s : List Char} (h : 63 < byteAt msg o) : ReadsAlike msg 0 o s

section Alike

variable {msg : List Char} {d o : Nat} {s : List Char}

theorem spelledAlike_long {a b : Nat} (h : 255 < s.length) : SpelledAlike msg d a b s := by
  constructor
  · intro pointers size n _ _ hlen
    rw [List.length_append] at hlen
    omega
  · intro _ size t _
    rw [List.length_append]
    omega

/-- Nothing is read, and nothing is decoded within the pointers left. -/
theorem spelledAlike_nothing
    (hn : ∀ pointers size n, pointers ≤ d → ¬ DecodesWith msg o pointers size n)
    (ht : ∀ size t, ¬ Spells msg d o size t) : SpelledAlike msg d o o s :=
  ⟨fun pointers size n h hle _ => absurd h (hn pointers size n hle),
    fun _ size t h => absurd h (ht size t)⟩

theorem spelledAlike_zero (h : Ending.root.bytes <+: msg.drop o) :
    SpelledAlike msg d o o s ↔ s ≠ [] := by
  have hle : o + 1 ≤ msg.length := length_le_append (List.cons_ne_nil _ _) h
  constructor
  · rintro ⟨hread, -⟩ rfl
    exact (hread 0 1 [] (.root h) (Nat.zero_le _) (Nat.zero_le _)).1 rfl
  · intro hs
    refine ⟨fun pointers size n hn _ _ => ?_, fun hno => absurd (.root h) (hno [])⟩
    obtain ⟨-, rfl⟩ := decodesWith_root hn h
    refine ⟨?_, 1, .zero (by omega) (byteAt_root h)⟩
    rw [text_nil, List.append_nil]
    exact hs

/-- At the end of the message there is no name, and the empty text is read. -/
theorem spelledAlike_end : SpelledAlike msg d msg.length msg.length s ↔ 255 < s.length := by
  have hnil : msg.drop msg.length = [] := List.drop_length
  constructor
  · rintro ⟨-, hlost⟩
    have h0 : byteAt msg msg.length = 0 := by
      unfold byteAt
      rw [List.getD_eq_getElem?_getD, List.getElem?_eq_none (Nat.le_refl _)]
      rfl
    have hno : ∀ n, ¬ Decodes msg msg.length n := by
      intro n hn
      cases hn with
      | root h =>
        rw [hnil] at h
        exact absurd (List.prefix_nil.mp h) (List.cons_ne_nil _ _)
      | label h _ =>
        rw [hnil] at h
        exact absurd (List.prefix_nil.mp h) (List.cons_ne_nil _ _)
      | pointer h _ _ =>
        rw [hnil] at h
        exact absurd (List.prefix_nil.mp h) (List.cons_ne_nil _ _)
    have := hlost hno 1 [] (.zero (Nat.le_refl _) h0)
    rwa [List.append_nil] at this
  · exact spelledAlike_long

theorem spelledAlike_label {l : Label} (h : l.wire <+: msg.drop o) :
    SpelledAlike msg d o o s ↔
      SpelledAlike msg d (o + l.wire.length) (o + l.wire.length) (s ++ (l.bytes ++ ['.'])) := by
  have hl := byteAt_wire h
  have hpos := l.length_pos
  have hle := l.le
  have hfits := wire_fits h
  have htake := take_wire h
  have hnext : o + (byteAt msg o + 1) = o + l.wire.length := by rw [hl, Label.length_wire]
  have happ (t : List Char) : s ++ (l.bytes ++ ['.']) ++ t = s ++ (l.bytes ++ '.' :: t) := by simp
  -- what is spelled behind the label, and with it
  have hcons {size : Nat} {t : List Char} (ht : Spells msg d (o + l.wire.length) size t) :
      Spells msg d o (byteAt msg o + 1 + size) (l.bytes ++ '.' :: t) := by
    have hlab := Spells.label (o := o) (by omega) (by omega) (by omega) (hnext ▸ ht)
    rwa [hl, htake, ← hl] at hlab
  have huncons {size : Nat} {t : List Char} (ht : Spells msg d o size t) :
      ∃ size' t', t = l.bytes ++ '.' :: t' ∧ Spells msg d (o + l.wire.length) size' t' := by
    obtain ⟨-, size', t', -, rfl, hrest⟩ := ht.of_label (by omega) (by omega)
    rw [hnext] at hrest
    rw [hl, htake]
    exact ⟨size', t', rfl, hrest⟩
  constructor
  · rintro ⟨hread, hlost⟩
    constructor
    · intro pointers size n hn hk hlen
      rw [happ] at hlen ⊢
      obtain ⟨hne, size', hspell⟩ := hread pointers _ (l :: n) (.label h hn) hk
        (by rw [text_cons]; exact hlen)
      rw [text_cons] at hne hspell
      obtain ⟨size'', t', heq, hrest⟩ := huncons hspell
      rw [List.cons_inj_right _ |>.mp (List.append_cancel_left heq)]
      exact ⟨by simp, size'', hrest⟩
    · intro hno size t ht
      rw [happ]
      refine hlost (fun n hn => ?_) _ _ (hcons ht)
      obtain ⟨k, size', hk⟩ := hn.decodesWith
      obtain ⟨size'', n', -, hn'⟩ := decodesWith_label hk h
      exact hno n' hn'.decodes
  · rintro ⟨hread, hlost⟩
    constructor
    · intro pointers size n hn hk hlen
      obtain ⟨size', n', rfl, hn'⟩ := decodesWith_label hn h
      rw [text_cons] at hlen ⊢
      obtain ⟨-, size'', hspell⟩ := hread pointers size' n' hn' hk (by rw [happ]; exact hlen)
      exact ⟨by simp, _, hcons hspell⟩
    · intro hno size t ht
      obtain ⟨size', t', rfl, hrest⟩ := huncons ht
      rw [← happ]
      exact hlost (fun n hn => hno (l :: n) (.label h hn)) size' t' hrest

theorem spelledAlike_pointer {p : Fin 16384} (hp : PointsBack msg o p) :
    SpelledAlike msg (d + 1) o o s ↔ SpelledAlike msg d p (p.val % 256) s := by
  obtain ⟨h, hlt⟩ := hp
  have hbyte := byteAt_pointer h
  have hlow := lowTarget_pointer h
  have hend : o + 2 ≤ msg.length := length_le_append (List.cons_ne_nil _ _) h
  have hhigh : 63 < byteAt msg o := by omega
  have hbits : byteAt msg o &&& 0xc0 ≠ 0 := by
    rw [hbyte]
    have hq : p.val / 256 < 64 := by omega
    generalize p.val / 256 = q at hq
    revert q
    decide
  have hjump {size : Nat} {t : List Char} (ht : Spells msg d (p.val % 256) size t) :
      Spells msg (d + 1) o 2 t :=
    .jump hhigh hbits (by omega) (by omega) (hlow ▸ ht)
  have hunjump {size : Nat} {t : List Char} (ht : Spells msg (d + 1) o size t) :
      ∃ size', Spells msg d (p.val % 256) size' t := by
    obtain ⟨-, -, -, -, e, size', he, hrest⟩ := ht.of_high hhigh
    obtain rfl : d = e := by omega
    exact ⟨size', hlow ▸ hrest⟩
  constructor
  · rintro ⟨hread, hlost⟩
    constructor
    · intro pointers size n hn hk hlen
      obtain ⟨hne, size', hspell⟩ := hread _ _ n (.pointer h hlt hn) (by omega) hlen
      exact ⟨hne, hunjump hspell⟩
    · intro hno size t ht
      refine hlost (fun n hn => ?_) _ _ (hjump ht)
      obtain ⟨k, size', hk⟩ := hn.decodesWith
      obtain ⟨q, k', size'', ⟨hq, -⟩, -, -, hn'⟩ := decodesWith_high hk hhigh
      obtain rfl := pointer_unique h hq
      exact hno n hn'.decodes
  · rintro ⟨hread, hlost⟩
    constructor
    · intro pointers size n hn hk hlen
      obtain ⟨q, k', size', ⟨hq, -⟩, rfl, -, hn'⟩ := decodesWith_high hn hhigh
      obtain rfl := pointer_unique h hq
      obtain ⟨hne, size'', hspell⟩ := hread k' size' n hn' (by omega) hlen
      exact ⟨hne, 2, hjump hspell⟩
    · intro hno size t ht
      obtain ⟨size', hrest⟩ := hunjump ht
      exact hlost (fun n hn => hno n (.pointer h hlt hn)) size' t hrest

/-- Where no pointer leads backwards there is no name behind a byte above 63. -/
theorem spelledAlike_stray (hhigh : 63 < byteAt msg o) (hno : ∀ p, ¬ PointsBack msg o p) :
    SpelledAlike msg d o o s ↔ ∀ size t, Spells msg d o size t → 255 < (s ++ t).length := by
  have hdec (pointers size : Nat) (n : Name) : ¬ DecodesWith msg o pointers size n := by
    intro hn
    obtain ⟨p, -, -, hp, -⟩ := decodesWith_high hn hhigh
    exact hno p hp
  constructor
  · rintro ⟨-, hlost⟩
    refine hlost fun n hn => ?_
    obtain ⟨k, size, hk⟩ := hn.decodesWith
    exact hdec k size n hk
  · intro hlost
    exact ⟨fun pointers size n hn _ _ => absurd hn (hdec pointers size n), fun _ => hlost⟩

/-- Nothing is read, and nothing decoded, from a label or a pointer that is cut off. -/
theorem spelledAlike_cut (h0 : 0 < byteAt msg o)
    (h : if byteAt msg o ≤ 63 then msg.length < o + (byteAt msg o + 1)
      else msg.length ≤ o + 1) : SpelledAlike msg d o o s := by
  by_cases hmax : byteAt msg o ≤ 63
  · rw [if_pos hmax] at h
    refine spelledAlike_nothing (fun pointers size n _ hn => ?_) fun size t ht => ?_
    · cases hn with
      | root h' =>
        have := byteAt_root h'
        omega
      | label h' _ =>
        have := byteAt_wire h'
        have := wire_fits h'
        omega
      | pointer h' _ _ =>
        have := byteAt_pointer h'
        omega
    · have := (ht.of_label h0 hmax).1
      omega
  · rw [if_neg hmax] at h
    refine spelledAlike_nothing (fun pointers size n _ hn => ?_) fun size t ht => ?_
    · obtain ⟨p, -, -, ⟨hp, -⟩, -⟩ := decodesWith_high hn (Nat.not_le.mp hmax)
      have : o + 2 ≤ msg.length := length_le_append (List.cons_ne_nil _ _) hp
      omega
    · have := (ht.of_high (Nat.not_le.mp hmax)).2.1
      omega

theorem spelledAlike_spent (h : 63 < byteAt msg o) : SpelledAlike msg 0 o o s := by
  refine spelledAlike_nothing (fun pointers size n hle hn => ?_) fun size t ht => ?_
  · obtain ⟨p, k, -, -, hk, -⟩ := decodesWith_high hn h
    omega
  · obtain ⟨-, -, -, -, e, -, he, -⟩ := ht.of_high h
    omega

theorem ReadsAlike.spelledAlike (h : ReadsAlike msg d o s) : SpelledAlike msg d o o s := by
  induction h with
  | long h => exact spelledAlike_long h
  | zero h hs => exact (spelledAlike_zero h).mpr hs
  | label h _ ih => exact (spelledAlike_label h).mpr ih
  | cut h0 h => exact spelledAlike_cut h0 h
  | near hp hlow _ ih =>
    apply (spelledAlike_pointer hp).mpr
    rw [Nat.mod_eq_of_lt hlow]
    exact ih
  | far hp _ h => exact (spelledAlike_pointer hp).mpr h
  | stray h hno hlost => exact (spelledAlike_stray h hno).mpr hlost
  | spent h => exact spelledAlike_spent h

/-- By induction on the pointers left and, for as many of them, on the bytes left. -/
theorem readsAlike_of_spelledAlike (ho : o ≤ msg.length) (h : SpelledAlike msg d o o s) :
    ReadsAlike msg d o s := by
  induction hm : d * (msg.length + 1) + (msg.length - o) using Nat.strong_induction_on
    generalizing d o s with
  | _ m ih =>
    subst hm
    by_cases hend : o = msg.length
    · subst hend
      exact .long (spelledAlike_end.mp h)
    · by_cases h0 : byteAt msg o = 0
      · have hroot := root_stands (by omega) h0
        exact .zero hroot ((spelledAlike_zero hroot).mp h)
      · by_cases hmax : byteAt msg o ≤ 63
        · by_cases hfits : o + (byteAt msg o + 1) ≤ msg.length
          · obtain ⟨l, hl, hlen⟩ := label_stands (Nat.pos_of_ne_zero h0) hmax hfits
            have hsize := l.length_wire
            exact .label hl (ih _ (by omega) (by omega) ((spelledAlike_label hl).mp h) rfl)
          · exact .cut (Nat.pos_of_ne_zero h0) (by rw [if_pos hmax]; omega)
        · have hhigh : 63 < byteAt msg o := by omega
          cases d with
          | zero => exact .spent hhigh
          | succ d =>
            by_cases hback : ∃ p, PointsBack msg o p
            · obtain ⟨p, hp⟩ := hback
              have hat := (spelledAlike_pointer hp).mp h
              have hlt := hp.2
              by_cases hlow : p.val < 256
              · rw [Nat.mod_eq_of_lt hlow] at hat
                refine .near hp hlow (ih _ ?_ (by omega) hat rfl)
                rw [Nat.succ_mul]
                omega
              · exact .far hp (Nat.not_lt.mp hlow) hat
            · have hno : ∀ p, ¬ PointsBack msg o p := fun p hp => hback ⟨p, hp⟩
              exact .stray hhigh hno ((spelledAlike_stray hhigh hno).mp h)

end Alike

/-! ## The whole name -/

/-- `qname2host` decodes the name at `startIdx` as RFC 1035 does: it returns the dotted form
and the number of bytes of a name within ten pointers and 255 bytes, and -1 where there is
no name. -/
def DecodesAsRfc (msg : List Char) (startIdx : Nat) : Prop :=
  (∀ pointers size n, DecodesWith msg startIdx pointers size n → pointers ≤ 10 →
    (text n).length ≤ 255 → qname2host msg startIdx = .ret ((size : Int), text n)) ∧
  ((∀ n, ¬ Decodes msg startIdx n) → ∃ t, qname2host msg startIdx = .ret (-1, t))

theorem returned_eq_iff {count size : Nat} {t u : List Char} (hu : u.length ≤ 255)
    (hsize : 0 < size) :
    returned count t = ((size : Int), u) ↔ t ≠ [] ∧ t = u ∧ count = size := by
  unfold returned
  constructor
  · intro h
    split_ifs at h with h0 hlong
    · have := (Prod.mk.inj h).1
      omega
    · have := (Prod.mk.inj h).1
      omega
    · obtain ⟨hc, rfl⟩ := Prod.mk.inj h
      exact ⟨fun hnil => h0 (by rw [hnil]; rfl), rfl, Int.ofNat.inj hc⟩
  · rintro ⟨hne, rfl, rfl⟩
    rw [if_neg (by simpa using hne), if_neg (by omega)]

theorem returned_fails_iff {count : Nat} {t : List Char} :
    (∃ u, returned count t = (-1, u)) ↔ 255 < t.length := by
  unfold returned
  constructor
  · rintro ⟨u, h⟩
    split_ifs at h with h0 hlong
    · cases h
    · exact hlong
    · have := (Prod.mk.inj h).1
      omega
  · intro h
    exact ⟨[], by rw [if_neg (by omega), if_pos h]⟩

theorem size_pos {msg : List Char} {o pointers size : Nat} {n : Name}
    (h : DecodesWith msg o pointers size n) : 0 < size := by
  cases h with
  | root _ => exact Nat.one_pos
  | label _ _ => exact Nat.add_pos_left (Nat.succ_pos _) _
  | pointer _ _ _ => exact Nat.two_pos

theorem decodesAsRfc_iff {msg : List Char} {startIdx : Nat} (hstart : 0 < startIdx)
    (h : startIdx ≤ msg.length) :
    DecodesAsRfc msg startIdx ↔ SpelledAlike msg 10 startIdx startIdx [] := by
  unfold DecodesAsRfc SpelledAlike
  simp only [List.nil_append]
  rcases qname2host_spells hstart h with ⟨size, t, hspell, hret⟩ | ⟨hno, hret⟩
  · rw [hret]
    apply and_congr
    · constructor
      · intro hall pointers size' n hn hk hlen
        have heq := Outcome.ret.inj (hall pointers size' n hn hk hlen)
        obtain ⟨hne, rfl, -⟩ := (returned_eq_iff hlen (size_pos hn)).mp heq
        exact ⟨hne, size, hspell⟩
      · intro hall pointers size' n hn hk hlen
        obtain ⟨hne, size'', hspell'⟩ := hall pointers size' n hn hk hlen
        obtain ⟨rfl, rfl⟩ := hspell.unique hspell'
        rw [(returned_eq_iff hlen (size_pos hn)).mpr ⟨hne, rfl, (decodesWith_size hn hspell).symm⟩]
    · apply imp_congr_right
      intro _
      constructor
      · rintro ⟨u, hu⟩ size' t' hspell'
        obtain ⟨rfl, rfl⟩ := hspell.unique hspell'
        exact returned_fails_iff.mp ⟨u, Outcome.ret.inj hu⟩
      · intro hall
        obtain ⟨u, hu⟩ := (@returned_fails_iff size t).mpr (hall size t hspell)
        exact ⟨u, congrArg _ hu⟩
  · rw [hret]
    apply and_congr
    · constructor
      · intro hall pointers size n hn hk hlen
        have heq := (Prod.mk.inj (Outcome.ret.inj (hall pointers size n hn hk hlen))).1
        omega
      · intro hall pointers size n hn hk hlen
        obtain ⟨-, size', hspell⟩ := hall pointers size n hn hk hlen
        exact absurd hspell (hno _ _)
    · exact ⟨fun _ _ size t hspell => absurd hspell (hno size t), fun _ _ => ⟨[], rfl⟩⟩

/-- **Name decoding.**  Inside a message `qname2host` agrees with RFC 1035 exactly where the
walk of `ReadsAlike` says so. -/
theorem qname2host_rfc (msg : List Char) (startIdx : Nat) (hstart : 0 < startIdx)
    (hend : startIdx < msg.length) :
    DecodesAsRfc msg startIdx ↔ ReadsAlike msg 10 startIdx [] := by
  rw [decodesAsRfc_iff hstart (Nat.le_of_lt hend)]
  exact ⟨readsAlike_of_spelledAlike (Nat.le_of_lt hend), ReadsAlike.spelledAlike⟩

/-- `a.` behind one byte. -/
theorem qname2host_rfc_label : DecodesAsRfc [nul, Char.ofNat 1, 'a', nul] 1 := by
  apply (qname2host_rfc [nul, Char.ofNat 1, 'a', nul] 1 (by decide) (by decide)).mpr
  exact .label (l := ⟨['a'], by decide, by decide⟩) (by decide) (.zero (by decide) (by decide))

/-- The name of the root: one byte, and the value is 0. -/
theorem qname2host_root_size : ¬ DecodesAsRfc [nul, nul] 1 := by
  intro h
  have hroot := h.1 0 1 [] (.root (by decide)) (by decide) (by decide)
  exact absurd hroot (by decide)

end Hcpp.Dns
