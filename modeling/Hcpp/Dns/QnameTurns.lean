import Hcpp.Dns.Qname
import Mathlib.Data.Prod.Lex

/-!
# The turns of `qname2host`

`qname2host` is one loop: a turn reads `msg[i]`, and either returns or goes on
behind a label or at the target of a pointer.  Here the counter of the pointers
is the `uint8_t` of the source.  Pointers may lead anywhere, so `i` alone does
not say that the loop ends: a turn that goes on uses up one of the ten pointers,
or leaves their number and moves `i` on.
-/

namespace Hcpp.Dns

/-- The locals of the loop. -/
structure NameLoop where
  i : Nat
  r : Nat
  compressDepth : Nat
  s : List Char

namespace NameLoop

variable {msg : List Char} {startIdx : Nat}

/-- One turn: what is returned, or the locals of the next one. -/
def turn (msg : List Char) (startIdx : Nat) (q : NameLoop) :
    Outcome ((Int × List Char) ⊕ NameLoop) := do
  let len := (← charAt msg q.i).toNat
  if len = 0 then
    if q.s.length = 0 then .ret (.inl (0, []))
    else if q.s.length > 255 then .ret (.inl (-1, []))
    else .ret (.inl (q.r + 1, q.s))
  else if len > dnsMaxLabel then
    -- `++compress_depth`, in 8 bits
    let compressDepth := (q.compressDepth + 1) % 256
    if startIdx = 0 ∨ compressDepth > 10 then .ret (.inl (-1, []))
    else if len &&& 0xc0 ≠ 0 then
      if q.i + 1 ≥ msg.length then .ret (.inl (-1, []))
      else do
        let i := (← charAt msg (q.i + 1)).toNat &&& 0xff
        if i ≥ msg.length then .ret (.inl (-1, []))
        else .ret (.inr ⟨i, if compressDepth ≤ 1 then q.r + 1 else q.r, compressDepth, q.s⟩)
    else .ret (.inl (-1, []))
  else if len + q.i + 1 > msg.length then .ret (.inl (-1, []))
  else
    .ret (.inr ⟨q.i + (len + 1), if q.compressDepth = 0 then q.r + (len + 1) else q.r,
      q.compressDepth, q.s ++ (msg.drop (q.i + 1)).take len ++ ['.']⟩)

/-- The turns, one after the other. -/
def turns (msg : List Char) (startIdx : Nat) : Nat → NameLoop → Outcome (Int × List Char)
  | 0, _ => .spins
  | fuel + 1, q => do
    match ← q.turn msg startIdx with
    | .inl p => .ret p
    | .inr q' => turns msg startIdx fuel q'

def start (startIdx : Nat) : NameLoop := ⟨startIdx, 0, 0, []⟩

/-- The locals in front of some turn. -/
inductive Reached (msg : List Char) (startIdx : Nat) : NameLoop → Prop
  | start : Reached msg startIdx (start startIdx)
  | next {q q' : NameLoop} (h : Reached msg startIdx q)
      (ht : q.turn msg startIdx = .ret (.inr q')) : Reached msg startIdx q'

/-- What is left of the pointers and, at the same number of them, of the bytes. -/
def measure (msg : List Char) (q : NameLoop) : Nat ×ₗ Nat :=
  toLex (10 - q.compressDepth, msg.length - q.i)

/-- The index can be read, and ten pointers at most have been followed. -/
structure InBounds (msg : List Char) (q : NameLoop) : Prop where
  index : q.i ≤ msg.length
  depth : q.compressDepth ≤ 10

/-- **One turn** reads within the message; where it goes on, it stays in bounds and the
measure falls. -/
theorem turn_spec (startIdx : Nat) {q : NameLoop} (h : q.InBounds msg) :
    ∃ x, q.turn msg startIdx = .ret x ∧
      ∀ q', x = .inr q' → q'.InBounds msg ∧ q'.measure msg < q.measure msg := by
  obtain ⟨hi, hd⟩ := h
  rw [turn, charAt_of_le hi, Outcome.ret_bind]
  simp only
  generalize (msg.getD q.i nul).toNat = len
  by_cases h0 : len = 0
  · rw [if_pos h0]
    by_cases hs : q.s.length = 0
    · exact ⟨_, if_pos hs, fun q' hq => by cases hq⟩
    · rw [if_neg hs]
      by_cases hlong : q.s.length > 255
      · exact ⟨_, if_pos hlong, fun q' hq => by cases hq⟩
      · exact ⟨_, if_neg hlong, fun q' hq => by cases hq⟩
  · rw [if_neg h0]
    by_cases hmax : len > dnsMaxLabel
    · rw [if_pos hmax, Nat.mod_eq_of_lt (show q.compressDepth + 1 < 256 by omega)]
      by_cases hdeep : startIdx = 0 ∨ q.compressDepth + 1 > 10
      · exact ⟨_, if_pos hdeep, fun q' hq => by cases hq⟩
      · rw [if_neg hdeep]
        by_cases hbits : len &&& 0xc0 ≠ 0
        · rw [if_pos hbits]
          by_cases hend : q.i + 1 ≥ msg.length
          · exact ⟨_, if_pos hend, fun q' hq => by cases hq⟩
          · rw [if_neg hend, charAt_of_le (by omega), Outcome.ret_bind]
            generalize (msg.getD (q.i + 1) nul).toNat &&& 0xff = j
            by_cases hj : j ≥ msg.length
            · exact ⟨_, if_pos hj, fun q' hq => by cases hq⟩
            · refine ⟨_, if_neg hj, fun q' hq => ?_⟩
              cases hq
              -- a pointer: one less of the ten, wherever it leads
              refine ⟨⟨by show j ≤ _; omega, by show q.compressDepth + 1 ≤ 10; omega⟩, ?_⟩
              apply Prod.Lex.toLex_lt_toLex.mpr
              left
              show 10 - (q.compressDepth + 1) < 10 - q.compressDepth
              omega
        · exact ⟨_, if_neg hbits, fun q' hq => by cases hq⟩
    · rw [if_neg hmax]
      by_cases hout : len + q.i + 1 > msg.length
      · exact ⟨_, if_pos hout, fun q' hq => by cases hq⟩
      · refine ⟨_, if_neg hout, fun q' hq => ?_⟩
        cases hq
        -- a label: as many pointers as before, and fewer bytes
        refine ⟨⟨by show q.i + (len + 1) ≤ _; omega, hd⟩, ?_⟩
        apply Prod.Lex.toLex_lt_toLex.mpr
        right
        refine ⟨rfl, ?_⟩
        show msg.length - (q.i + (len + 1)) < msg.length - q.i
        omega

theorem Reached.inBounds {q : NameLoop} (hstart : startIdx ≤ msg.length)
    (h : Reached msg startIdx q) : q.InBounds msg := by
  induction h with
  | start => exact ⟨hstart, Nat.zero_le _⟩
  | next _ ht ih =>
    obtain ⟨x, hx, hnext⟩ := turn_spec startIdx ih
    rw [ht, Outcome.ret.injEq] at hx
    exact (hnext _ hx.symm).1

/-- The loop goes on with the locals of the next turn. -/
theorem qname2hostLoop_turn (fuel : Nat) {q : NameLoop} (h : q.InBounds msg) :
    qname2hostLoop msg startIdx (fuel + 1) q.i q.r q.compressDepth q.s =
      q.turn msg startIdx >>= fun x =>
        match x with
        | .inl p => .ret p
        | .inr q' => qname2hostLoop msg startIdx fuel q'.i q'.r q'.compressDepth q'.s := by
  obtain ⟨hi, hd⟩ := h
  rw [qname2hostLoop, turn, charAt_of_le hi, Outcome.ret_bind, Outcome.ret_bind,
    Nat.mod_eq_of_lt (show q.compressDepth + 1 < 256 by omega)]
  simp only
  generalize (msg.getD q.i nul).toNat = len
  by_cases h0 : len = 0
  · rw [if_pos h0, if_pos h0]
    split_ifs <;> rw [Outcome.ret_bind]
  · rw [if_neg h0, if_neg h0]
    by_cases hmax : len > dnsMaxLabel
    · rw [if_pos hmax, if_pos hmax]
      by_cases hend : q.i + 1 ≥ msg.length
      · rw [if_pos hend, if_pos hend]
        split_ifs <;> rw [Outcome.ret_bind]
      · rw [if_neg hend, if_neg hend, charAt_of_le (by omega), Outcome.ret_bind, Outcome.ret_bind]
        split_ifs <;> rw [Outcome.ret_bind]
    · rw [if_neg hmax, if_neg hmax]
      split_ifs <;> rw [Outcome.ret_bind]

/-- The loop that counts the pointers without a bound takes the same turns. -/
theorem turns_eq (fuel : Nat) {q : NameLoop} (h : q.InBounds msg) :
    turns msg startIdx fuel q =
      qname2hostLoop msg startIdx fuel q.i q.r q.compressDepth q.s := by
  induction fuel generalizing q with
  | zero => rfl
  | succ fuel ih =>
    obtain ⟨x, hx, hnext⟩ := turn_spec startIdx h
    rw [qname2hostLoop_turn fuel h, turns, hx, Outcome.ret_bind, Outcome.ret_bind]
    cases x with
    | inl p => rfl
    | inr q' => exact ih (hnext q' rfl).1

end NameLoop

open NameLoop in
/-- **`qname2host` ends, in bounds, on any bytes.**  With the counter of 8 bits, its turns
come to a result within 11 times the size of the message, the one of the model; in front of
every turn the index is at most the size, and no more than ten pointers have been counted, so
`++compress_depth` does not wrap; the turn reads within the message, and where it goes on, the
pointers left or the bytes left get fewer. -/
theorem qname2host_ends (msg : List Char) (startIdx : Nat) (h : startIdx ≤ msg.length) :
    (∃ p, turns msg startIdx (11 * (msg.length + 2)) (start startIdx) = .ret p ∧
      qname2host msg startIdx = .ret p) ∧
    ∀ q, Reached msg startIdx q →
      q.i ≤ msg.length ∧ (q.compressDepth + 1) % 256 = q.compressDepth + 1 ∧
      q.compressDepth ≤ 10 ∧
      ∃ x, q.turn msg startIdx = .ret x ∧
        ∀ q', x = .inr q' → q'.measure msg < q.measure msg := by
  constructor
  · obtain ⟨p, hp, -⟩ := qname2host_reading h
    exact ⟨p, (turns_eq _ ⟨h, Nat.zero_le _⟩).trans hp, hp⟩
  · intro q hq
    have hin := hq.inBounds h
    have hd := hin.depth
    obtain ⟨x, hx, hnext⟩ := turn_spec startIdx hin
    exact ⟨hin.index, Nat.mod_eq_of_lt (by omega), hd, x, hx, fun q' hq' => (hnext q' hq').2⟩

/-- A pointer to itself. -/
theorem qname2host_ends_self :
    ∃ p, qname2host [nul, Char.ofNat 192, Char.ofNat 1] 1 = .ret p := by
  obtain ⟨⟨p, -, hp⟩, -⟩ := qname2host_ends [nul, Char.ofNat 192, Char.ofNat 1] 1 (by decide)
  exact ⟨p, hp⟩

end Hcpp.Dns
