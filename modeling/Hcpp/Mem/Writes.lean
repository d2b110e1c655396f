import Hcpp.Mem.BlockBuffer
import Hcpp.Mem.Transfer

/-!
# What a transfer writes

No loop looks at the memory it writes to: what is written, and what is taken off
the other memory, is the same whatever the target (`Writes`).  So what is known
of a target that takes everything carries over to any other: it takes the same
pieces, and either takes all of them or is not ok any more (`writeOk_takes`).
-/

namespace Hcpp

namespace Memory

/-- Write the pieces, one after the other. -/
def takes (m : Memory) (ws : List (List Char)) : Memory := ws.foldl asyncWriteAll m

@[simp] theorem takes_nil (m : Memory) : m.takes [] = m := rfl

@[simp] theorem takes_cons (m : Memory) (w : List Char) (ws : List (List Char)) :
    m.takes (w :: ws) = (m.asyncWriteAll w).takes ws := rfl

theorem takes_append (m : Memory) (ws vs : List (List Char)) :
    m.takes (ws ++ vs) = (m.takes ws).takes vs := List.foldl_append

theorem send_reads (m : Memory) (s : List Char) :
    (m.send s).feed = m.feed ∧ (m.send s).readOk = m.readOk ∧ (m.send s).kind = m.kind ∧
      (m.send s).closed = m.closed := by
  unfold send
  split
  · exact ⟨rfl, rfl, rfl, rfl⟩
  · split <;> exact ⟨rfl, rfl, rfl, rfl⟩

theorem asyncWriteAll_reads (m : Memory) (s : List Char) :
    (m.asyncWriteAll s).feed = m.feed ∧ (m.asyncWriteAll s).readOk = m.readOk ∧
      (m.asyncWriteAll s).kind = m.kind ∧ (m.asyncWriteAll s).closed = m.closed := by
  unfold asyncWriteAll
  split
  · exact send_reads m s
  · split
    · exact send_reads m s
    · exact send_reads m s

/-- A write changes nothing that is read. -/
theorem takes_reads (m : Memory) (ws : List (List Char)) :
    (m.takes ws).feed = m.feed ∧ (m.takes ws).readOk = m.readOk ∧ (m.takes ws).kind = m.kind ∧
      (m.takes ws).closed = m.closed := by
  induction ws generalizing m with
  | nil => exact ⟨rfl, rfl, rfl, rfl⟩
  | cons w ws ih =>
    obtain ⟨h1, h2, h3, h4⟩ := asyncWriteAll_reads m w
    obtain ⟨i1, i2, i3, i4⟩ := ih (m.asyncWriteAll w)
    exact ⟨i1.trans h1, i2.trans h2, i3.trans h3, i4.trans h4⟩

theorem send_buffer (m : Memory) (s : List Char) :
    (m.send s).buffs = m.buffs ∧ (m.send s).readIndex = m.readIndex ∧
      (m.send s).writeIndex = m.writeIndex ∧ (m.send s).incoming = m.incoming := by
  unfold send
  split
  · exact ⟨rfl, rfl, rfl, rfl⟩
  · split <;> exact ⟨rfl, rfl, rfl, rfl⟩

theorem takes_buffer (m : Memory) (ws : List (List Char)) :
    (m.takes ws).buffs = m.buffs ∧ (m.takes ws).readIndex = m.readIndex ∧
      (m.takes ws).writeIndex = m.writeIndex ∧ (m.takes ws).incoming = m.incoming := by
  induction ws generalizing m with
  | nil => exact ⟨rfl, rfl, rfl, rfl⟩
  | cons w ws ih =>
    have hw : (m.asyncWriteAll w).buffs = m.buffs ∧ (m.asyncWriteAll w).readIndex = m.readIndex ∧
        (m.asyncWriteAll w).writeIndex = m.writeIndex ∧
        (m.asyncWriteAll w).incoming = m.incoming := by
      unfold asyncWriteAll
      split
      · exact send_buffer m w
      · split <;> exact send_buffer m w
    obtain ⟨h1, h2, h3, h4⟩ := hw
    obtain ⟨i1, i2, i3, i4⟩ := ih (m.asyncWriteAll w)
    exact ⟨i1.trans h1, i2.trans h2, i3.trans h3, i4.trans h4⟩

theorem WF.takes {m : Memory} (h : m.WF) (ws : List (List Char)) : (m.takes ws).WF := by
  obtain ⟨hbuffs, hread, hwrite, -⟩ := takes_buffer m ws
  have hbase : (m.takes ws).base = m.base := by
    unfold base
    rw [hbuffs, hread]
  refine ⟨?_, ?_, ?_⟩
  · rw [hbase, hbuffs, hwrite]
    exact h.chain
  · rw [hbase, hread]
    exact h.base_le
  · rw [hbuffs, hread]
    exact h.inFirst

theorem writeOk_send {m : Memory} {s : List Char} (h : (m.send s).writeOk = true) :
    m.writeOk = true ∧ (m.send s).written = m.written ++ s := by
  unfold send at h ⊢
  cases hr : m.room with
  | none =>
    simp only [hr] at h ⊢
    exact ⟨h, trivial⟩
  | some k =>
    simp only [hr] at h ⊢
    by_cases hk : s.length ≤ k
    · rw [if_pos hk] at h ⊢
      exact ⟨h, rfl⟩
    · rw [if_neg hk] at h
      cases h

/-- A target that is still ok took everything. -/
theorem writeOk_takes {m : Memory} {ws : List (List Char)} (h : (m.takes ws).writeOk = true) :
    m.writeOk = true ∧ (m.takes ws).written = m.written ++ ws.flatten := by
  induction ws generalizing m with
  | nil => exact ⟨h, (List.append_nil _).symm⟩
  | cons w ws ih =>
    obtain ⟨hw, hwritten⟩ := ih h
    have hone : m.writeOk = true ∧ (m.asyncWriteAll w).written = m.written ++ w := by
      unfold asyncWriteAll at hw ⊢
      cases hk : m.kind with
      | plain =>
        simp only [hk] at hw ⊢
        exact writeOk_send hw
      | ssl =>
        simp only [hk] at hw ⊢
        by_cases hnil : w = []
        · rw [if_pos hnil] at hw
          cases hw
        · rw [if_neg hnil] at hw ⊢
          exact writeOk_send hw
    refine ⟨hone.1, ?_⟩
    rw [takes_cons, hwritten, hone.2, List.flatten_cons, List.append_assoc]

/-- The peer takes this many bytes more. -/
def Fits (m : Memory) (n : Nat) : Prop := ∀ k, m.room = some k → n ≤ k

theorem writeOk_send_iff (m : Memory) (s : List Char) :
    (m.send s).writeOk = true ↔ m.writeOk = true ∧ m.Fits s.length := by
  unfold send Fits
  cases hr : m.room with
  | none => simp
  | some k =>
    by_cases hk : s.length ≤ k
    · simp [hk]
    · simp only [if_neg hk, Option.some.injEq, forall_eq']
      constructor
      · intro h
        cases h
      · rintro ⟨-, h⟩
        exact absurd h hk

theorem fits_send {m : Memory} {s : List Char} (h : m.Fits s.length) (n : Nat) :
    (m.send s).Fits n ↔ m.Fits (s.length + n) := by
  unfold send Fits at *
  cases hr : m.room with
  | none => simp
  | some k =>
    have hk : s.length ≤ k := h k hr
    simp only [if_pos hk, Option.some.injEq, forall_eq']
    omega

/-- **What a target takes**: it is still ok exactly when it was, its peer takes all the
bytes, and no piece of an SSL stream is empty. -/
theorem writeOk_takes_iff {m : Memory} {ws : List (List Char)} :
    (m.takes ws).writeOk = true ↔
      m.writeOk = true ∧ (m.kind = .ssl → [] ∉ ws) ∧ m.Fits ws.flatten.length := by
  induction ws generalizing m with
  | nil => simp [Fits]
  | cons w ws ih =>
    have hkind := (asyncWriteAll_reads m w).2.2.1
    rw [takes_cons, ih, hkind, List.flatten_cons, List.length_append]
    by_cases hshut : m.kind = .ssl ∧ w = []
    · -- an empty write shuts the stream down
      have hoff : (m.asyncWriteAll w).writeOk = false := by
        unfold asyncWriteAll
        rw [hshut.1, hshut.2]
        rfl
      rw [hoff]
      constructor
      · rintro ⟨h, -⟩
        cases h
      · rintro ⟨-, h, -⟩
        exact absurd (by simp [hshut.2]) (h hshut.1)
    · have hsend : m.asyncWriteAll w = m.send w := by
        unfold asyncWriteAll
        cases hk : m.kind with
        | plain => rfl
        | ssl => exact if_neg fun h => hshut ⟨hk, h⟩
      have hmem : (m.kind = .ssl → [] ∉ ws) ↔ (m.kind = .ssl → [] ∉ w :: ws) := by
        apply imp_congr_right
        intro hk
        have hw : [] ≠ w := fun h => hshut ⟨hk, h.symm⟩
        simp [hw]
      rw [hsend, writeOk_send_iff, hmem]
      constructor
      · rintro ⟨⟨hok, hfit⟩, hne, hfits⟩
        exact ⟨hok, hne, (fits_send hfit _).mp hfits⟩
      · rintro ⟨hok, hne, hfits⟩
        have hfit : m.Fits w.length := fun k hk => by
          have := hfits k hk
          omega
        exact ⟨⟨hok, hfit⟩, hne, (fits_send hfit _).mpr hfits⟩

end Memory

open Memory

/-- A run that gives `mk a t`, with `t` the memory it wrote to, writes the same
pieces and gives the same `a` whatever that memory is. -/
def Writes {α γ : Type} (mk : α → Memory → γ) (g : Memory → Outcome γ) : Prop :=
  ∃ out : Outcome (α × List (List Char)), ∀ to_,
    g to_ = out >>= fun x => .ret (mk x.1 (to_.takes x.2))

namespace Writes

variable {α β γ δ : Type} {mk : α → Memory → γ}

theorem ret (a : α) (ws : List (List Char)) : Writes mk fun to_ => .ret (mk a (to_.takes ws)) :=
  ⟨.ret (a, ws), fun _ => rfl⟩

theorem throws : Writes mk fun _ => .throws := ⟨.throws, fun _ => rfl⟩

theorem spins : Writes mk fun _ => .spins := ⟨.spins, fun _ => rfl⟩

theorem undefined : Writes mk fun _ => .undefined := ⟨.undefined, fun _ => rfl⟩

/-- Some pieces are written first. -/
theorem after {g : Memory → Outcome γ} (hg : Writes mk g) (ws : List (List Char)) :
    Writes mk fun to_ => g (to_.takes ws) := by
  obtain ⟨out, hout⟩ := hg
  refine ⟨out >>= fun x => .ret (x.1, ws ++ x.2), fun to_ => ?_⟩
  show g (to_.takes ws) = _
  rw [hout]
  cases out with
  | ret x => simp only [Outcome.ret_bind, takes_append]
  | throws => rfl
  | spins => rfl
  | undefined => rfl

/-- A step that does not write comes first. -/
theorem bind (x : Outcome β) {g : β → Memory → Outcome γ} (hg : ∀ b, Writes mk (g b)) :
    Writes mk fun to_ => x >>= fun b => g b to_ := by
  cases x with
  | ret b =>
    obtain ⟨out, hout⟩ := hg b
    refine ⟨out, fun to_ => ?_⟩
    show (Outcome.ret b >>= fun b => g b to_) = _
    rw [Outcome.ret_bind, hout]
  | throws => exact throws
  | spins => exact spins
  | undefined => exact undefined

/-- A branch that does not depend on the target. -/
theorem ite (c : Prop) [Decidable c] {g k : Memory → Outcome γ} (hg : Writes mk g)
    (hk : Writes mk k) : Writes mk fun to_ => if c then g to_ else k to_ := by
  by_cases hc : c
  · simp only [if_pos hc]
    exact hg
  · simp only [if_neg hc]
    exact hk

/-- One run after the other. -/
theorem seq {mk' : β → Memory → δ} {g : Memory → Outcome δ} {k : δ → Outcome γ}
    (hg : Writes mk' g) (hk : ∀ b, Writes mk fun t => k (mk' b t)) :
    Writes mk fun to_ => g to_ >>= k := by
  obtain ⟨out, hout⟩ := hg
  have hg' : (fun to_ => g to_ >>= k) = fun to_ =>
      (out >>= fun x => .ret (mk' x.1 (to_.takes x.2))) >>= k := by
    ext to_
    rw [hout]
  rw [hg']
  cases out with
  | ret x =>
    simp only [Outcome.ret_bind]
    exact (hk x.1).after x.2
  | throws => exact throws
  | spins => exact spins
  | undefined => exact undefined

/-- What a run writes to one target it writes to any. -/
theorem run {g : Memory → Outcome γ} (hg : Writes mk g) {t : Memory} {c : γ} (h : g t = .ret c) :
    ∃ a ws, c = mk a (t.takes ws) ∧ ∀ to_, g to_ = .ret (mk a (to_.takes ws)) := by
  obtain ⟨out, hout⟩ := hg
  rw [hout] at h
  obtain ⟨⟨a, ws⟩, rfl, h⟩ := Outcome.bind_eq_ret.mp h
  exact ⟨a, ws, (Outcome.ret.inj h).symm, fun to_ => by rw [hout, Outcome.ret_bind]⟩

end Writes

/-! ## The two transfers -/

/-- The result of a transfer. -/
def moved (x : Memory × Nat) (to_ : Memory) : Memory × Memory × Nat := (x.1, to_, x.2)

theorem writes_transferMemLoop (total fuel : Nat) (from_ : Memory) (nx : Nat) :
    Writes moved fun to_ => transferMemLoop total fuel from_ to_ nx := by
  induction fuel generalizing from_ nx with
  | zero => exact .spins
  | succ fuel ih =>
    simp only [transferMemLoop]
    refine .ite _ (.bind _ fun x => ?_) (.ret (from_, nx) [])
    obtain ⟨m, str⟩ := x
    exact (ih _ _).after [str]

theorem writes_transferMem (fuel : Nat) (from_ : Memory) (total : Nat) :
    Writes moved fun to_ => transferMem fuel from_ to_ total := by
  simp only [transferMem]
  exact .ite _ ((writes_transferMemLoop _ _ _ _).after [_]) (writes_transferMemLoop _ _ _ _)

theorem writes_transferMemUntilLoop (pattern : List Char) (fuel : Nat) (from_ : Memory) (kmp : Kmp)
    (somStr : List Char) (checkedLen n : Nat) :
    Writes moved fun to_ =>
      transferMemUntilLoop pattern fuel from_ to_ kmp somStr checkedLen n := by
  induction fuel generalizing from_ kmp somStr checkedLen n with
  | zero => exact .spins
  | succ fuel ih =>
    simp only [transferMemUntilLoop]
    refine .bind _ fun y => ?_
    obtain ⟨m, str⟩ := y
    refine .bind _ fun x => ?_
    obtain ⟨kmp', p⟩ := x
    simp only
    exact .ite _ ((ih _ _ _ _ _).after [somStr]) (.ret (_, _) [somStr, _])

theorem writes_transferMemUntil (fuel : Nat) (from_ : Memory) (pattern : List Char) :
    Writes moved fun to_ => transferMemUntil fuel from_ to_ pattern := by
  simp only [transferMemUntil]
  refine .bind _ fun kmp => .bind _ fun x => ?_
  obtain ⟨kmp', p⟩ := x
  simp only
  refine .ite _ (.bind _ fun y => ?_) (.ite _ (writes_transferMemUntilLoop _ _ _ _ _ _ _) ?_)
  · obtain ⟨m, line⟩ := y
    exact .ret (_, _) [from_.mergeSome.getSome, line]
  · exact .ret (_, _) [_]

end Hcpp
