import Hcpp.Mem.Writes

/-!
# What every operation keeps of a memory

`Sound`: the memory is well formed, and all its offsets are ones that the
comparison with `int` keeps.  The reads and the removals keep it, the writes do
not touch it, and so it holds of a memory when a transfer returns, whatever the
transfer has read.
-/

namespace Hcpp

namespace Memory

def Sound (m : Memory) : Prop := m.Represents m.feed

variable {m m' : Memory} {f : Feed Char}

theorem Represents.sound (h : m.Represents f) : m.Sound := by
  rw [Sound, h.feed]
  exact h

namespace Sound

/-- Nothing but the blocks, the two offsets and what is to come counts. -/
theorem of_buffer (h : m.Sound) (hbuffs : m'.buffs = m.buffs) (hread : m'.readIndex = m.readIndex)
    (hwrite : m'.writeIndex = m.writeIndex)
    (hin : m'.incoming.flatten.length ≤ m.incoming.flatten.length) : m'.Sound := by
  have hbase : m'.base = m.base := by simp only [base, hbuffs, hread]
  have hunread : m'.unread = m.unread := by simp only [Memory.unread, hbase, hbuffs, hread]
  refine ⟨⟨?_, ?_, ?_⟩, rfl, ?_⟩
  · rw [hbase, hbuffs, hwrite]
    exact h.wf.chain
  · rw [hbase, hread]
    exact h.wf.base_le
  · rw [hbuffs, hread]
    exact h.wf.inFirst
  · have hsmall := h.small
    show m'.readIndex + (m'.unread ++ m'.incoming.flatten).length < 2 ^ 31
    change m.readIndex + (m.unread ++ m.incoming.flatten).length < 2 ^ 31 at hsmall
    rw [List.length_append] at hsmall ⊢
    rw [hread, hunread]
    omega

theorem fresh (kind : SockKind) {incoming : List (List Char)} (room : Option Nat)
    (h : incoming.flatten.length < 2 ^ 31) : (fresh kind incoming room).Sound :=
  (represents_fresh kind incoming room h).sound

theorem incoming_lt (h : m.Sound) : m.incoming.flatten.length < 2 ^ 31 := by
  have hsmall := h.small
  change m.readIndex + (m.unread ++ m.incoming.flatten).length < 2 ^ 31 at hsmall
  rw [List.length_append] at hsmall
  omega

theorem reset (h : m.Sound) : m.reset.Represents ⟨[], m.incoming⟩ := by
  refine ⟨wf_reset m, rfl, ?_⟩
  show 0 + ([] ++ m.incoming.flatten).length < 2 ^ 31
  rw [Nat.zero_add, List.nil_append]
  exact h.incoming_lt

theorem close (h : m.Sound) : m.close.Sound := h.of_buffer rfl rfl rfl (Nat.le_refl _)

theorem takes (h : m.Sound) (ws : List (List Char)) : (m.takes ws).Sound := by
  obtain ⟨hbuffs, hread, hwrite, hin⟩ := takes_buffer m ws
  exact h.of_buffer hbuffs hread hwrite (by rw [hin])

/-- What a read brings is unread. -/
theorem readSome (h : m.Sound) {maxN : Nat} (hmax : 0 < maxN) :
    (m.readSome maxN).1.Sound ∧ (m.readSome maxN).2.length ≤ (m.readSome maxN).1.unread.length := by
  cases hp : Feed.pull maxN m.incoming with
  | none =>
    rw [readSome_of_closed (Feed.pull_eq_none_iff.mp hp)]
    exact ⟨h.of_buffer rfl rfl rfl (Nat.le_refl _), Nat.zero_le _⟩
  | some p =>
    obtain ⟨r, segs⟩ := p
    obtain ⟨m1, hload, hrep, -⟩ := Represents.load h hmax hp
    rw [hload]
    refine ⟨hrep.sound, ?_⟩
    rw [hrep.unread, List.length_append]
    exact Nat.le_add_left _ _

theorem loadSome (h : m.Sound) {maxN : Nat} {x : List Char} (hmax : 0 < maxN)
    (hret : m.asyncLoadSome maxN = .ret (m', x)) : m'.Sound ∧ x.length ≤ m'.unread.length := by
  by_cases hle : maxN ≤ maxSize
  · rw [asyncLoadSome_of_le hle, Outcome.ret.injEq] at hret
    have hread := h.readSome hmax
    rwa [hret] at hread
  · rw [asyncLoadSome_of_gt (Nat.not_le.mp hle)] at hret
    cases hret

theorem loadUntil (h : m.Sound) {d x : List Char} (hd : d ≠ [])
    (hret : m.asyncLoadUntil d = .ret (m', x)) : m'.Sound ∧ x.length ≤ m'.unread.length := by
  by_cases hlong : d.length > 512
  · rw [asyncLoadUntil, if_pos hlong] at hret
    cases hret
  · cases hp : Feed.pullUntil d [] m.incoming with
    | none =>
      rw [asyncLoadUntil_of_none (by omega) hp, Outcome.ret.injEq, Prod.mk.injEq] at hret
      obtain ⟨rfl, rfl⟩ := hret
      exact ⟨h.of_buffer rfl rfl rfl (Nat.zero_le _), Nat.zero_le _⟩
    | some p =>
      obtain ⟨r, n, segs⟩ := p
      obtain ⟨m1, hload, hrep, -⟩ := Represents.loadUntil h (by omega) hd hp
      rw [hload, Outcome.ret.injEq, Prod.mk.injEq] at hret
      obtain ⟨rfl, rfl⟩ := hret
      refine ⟨hrep.sound, ?_⟩
      rw [hrep.unread, List.length_append, List.length_take]
      show min n r.length ≤ m.feed.cached.length + r.length
      omega

theorem remove (h : m.Sound) {n : Nat} (hn : n ≤ m.unread.length) : (m.removeSome n).Sound :=
  (Represents.remove h hn).1.sound

/-- After `merge_some`, `get_some` is all that is unread. -/
theorem merge (h : m.Sound) :
    m.mergeSome.Sound ∧ m.mergeSome.getSome = m.mergeSome.unread := by
  obtain ⟨hrep, hget, -, -⟩ := Represents.merge h
  exact ⟨hrep.sound, hget.trans hrep.unread.symm⟩

end Sound

end Memory

open Memory

section Transfers

variable {from_ to_ from' to' : Memory} {n : Nat}

theorem transferMemLoop_sound {total : Nat} (fuel : Nat) {nx : Nat} (h : from_.Sound)
    (hret : transferMemLoop total fuel from_ to_ nx = .ret (from', to', n)) : from'.Sound := by
  induction fuel generalizing from_ to_ nx with
  | zero => cases hret
  | succ fuel ih =>
    rw [transferMemLoop] at hret
    by_cases hlt : nx < total
    · rw [if_pos hlt] at hret
      obtain ⟨⟨m1, str⟩, hload, hret⟩ := Outcome.bind_eq_ret.mp hret
      obtain ⟨hm1, hle⟩ := h.loadSome (show 0 < total - nx by omega) hload
      exact ih (hm1.remove hle) hret
    · rw [if_neg hlt, Outcome.ret.injEq, Prod.mk.injEq] at hret
      rw [← hret.1]
      exact h

theorem transferMem_sound {fuel total : Nat} (h : from_.Sound)
    (hret : transferMem fuel from_ to_ total = .ret (from', to', n)) : from'.Sound := by
  obtain ⟨hmerge, hget⟩ := h.merge
  rw [transferMem] at hret
  by_cases hsome : 0 < total ∧ 0 < from_.mergeSome.getSome.length
  · simp only [if_pos hsome] at hret
    refine transferMemLoop_sound fuel (hmerge.remove ?_) hret
    rw [← hget]
    split
    · rw [List.length_take]
      exact Nat.min_le_right _ _
    · exact Nat.le_refl _
  · simp only [if_neg hsome] at hret
    exact transferMemLoop_sound fuel hmerge hret

/-- What is looked at is unread. -/
theorem transferMemUntilLoop_sound {pattern : List Char} (fuel : Nat) {kmp : Kmp}
    {somStr : List Char} {checkedLen k : Nat} (h : from_.Sound)
    (hsome : somStr.length ≤ from_.unread.length)
    (hret : transferMemUntilLoop pattern fuel from_ to_ kmp somStr checkedLen k =
      .ret (from', to', n)) : from'.Sound := by
  induction fuel generalizing from_ to_ kmp somStr checkedLen k with
  | zero => cases hret
  | succ fuel ih =>
    rw [transferMemUntilLoop] at hret
    obtain ⟨⟨m1, str⟩, hload, hret⟩ := Outcome.bind_eq_ret.mp hret
    obtain ⟨hm1, hle⟩ := (h.remove hsome).loadSome (show 0 < 1024 * 4 by omega) hload
    obtain ⟨⟨kmp', p⟩, -, hret⟩ := Outcome.bind_eq_ret.mp hret
    simp only at hret
    split at hret
    · exact ih hm1 hle hret
    · rw [Outcome.ret.injEq, Prod.mk.injEq] at hret
      rw [← hret.1]
      apply hm1.remove
      rw [List.length_take]
      exact Nat.le_trans (Nat.min_le_right _ _) hle

theorem transferMemUntil_sound {fuel : Nat} {pattern : List Char} (h : from_.Sound)
    (hpat : pattern ≠ []) (hret : transferMemUntil fuel from_ to_ pattern = .ret (from', to', n)) :
    from'.Sound := by
  obtain ⟨hmerge, hget⟩ := h.merge
  have hle : from_.mergeSome.getSome.length ≤ from_.mergeSome.unread.length := by rw [hget]
  rw [transferMemUntil] at hret
  obtain ⟨kmp, -, hret⟩ := Outcome.bind_eq_ret.mp hret
  obtain ⟨⟨kmp', p⟩, -, hret⟩ := Outcome.bind_eq_ret.mp hret
  simp only at hret
  split at hret
  · -- the rest is loaded
    obtain ⟨⟨m1, line⟩, hload, hret⟩ := Outcome.bind_eq_ret.mp hret
    rw [Outcome.ret.injEq, Prod.mk.injEq] at hret
    obtain ⟨hm1, hline⟩ := (hmerge.remove hle).loadUntil hpat hload
    rw [← hret.1]
    exact hm1.remove hline
  · split at hret
    · exact transferMemUntilLoop_sound fuel hmerge hle hret
    · rw [Outcome.ret.injEq, Prod.mk.injEq] at hret
      rw [← hret.1]
      exact hmerge.remove hle

end Transfers

end Hcpp
