import Hcpp.Mem.Writes

/-!
# A counted transfer

`transferMem_exact`: out of a well-formed memory in which `get_some`, after
`merge_some`, gives the unread bytes, `transfer_mem` writes the next `total` bytes
to any target, in non-empty pieces, and leaves the rest as `Feed.skip` does.  The
reads of its loop are the list `transferMemReads`: each asks for no more than what
is still missing.
-/

namespace Hcpp

open Memory

/-- The return value of `merge_some`. -/
def Memory.mergeSomeSize (m : Memory) : Nat :=
  if m.buffs.length ≤ 1 then 0 else (blockText m.buffs).length

/-- A read of the loop: what it asked for, and what it brought. -/
structure LoopRead where
  maxN : Nat
  str : List Char
deriving DecidableEq, Repr

/-- The reads of `transferMemLoop`, in order, when none is refused. -/
def transferMemReads (totalBytes : Nat) : Nat → Memory → Nat → List LoopRead
  | 0, _, _ => []
  | fuel + 1, from_, nx =>
    if nx < totalBytes then
      let (from_, str) := from_.readSome (totalBytes - nx)
      ⟨totalBytes - nx, str⟩ ::
        transferMemReads totalBytes fuel (from_.removeSome str.length) (nx + str.length)
    else []

/-- What a read does: its bytes are loaded and removed. -/
def LoopRead.apply (m : Memory) (r : LoopRead) : Memory :=
  (m.readSome r.maxN).1.removeSome r.str.length

/-- These are the reads: the loop does nothing else to the memory it reads, and writes
what they bring. -/
theorem transferMemLoop_reads {total : Nat} (fuel : Nat) (from_ : Memory) (nx : Nat)
    {a b : Memory} {to_ : Memory} {n : Nat}
    (hret : transferMemLoop total fuel from_ to_ nx = .ret (a, b, n)) :
    a = (transferMemReads total fuel from_ nx).foldl LoopRead.apply from_ ∧
      b = to_.takes ((transferMemReads total fuel from_ nx).map LoopRead.str) := by
  induction fuel generalizing from_ to_ nx with
  | zero => cases hret
  | succ fuel ih =>
    rw [transferMemLoop] at hret
    rw [transferMemReads]
    by_cases hlt : nx < total
    · rw [if_pos hlt] at hret ⊢
      by_cases hmax : total - nx ≤ maxSize
      · rw [asyncLoadSome_of_le hmax, Outcome.ret_bind] at hret
        exact ih _ _ hret
      · rw [asyncLoadSome_of_gt (Nat.not_le.mp hmax)] at hret
        cases hret
    · rw [if_neg hlt] at hret ⊢
      cases hret
      exact ⟨rfl, rfl⟩

/-- No read asks for more than is missing when the loop is entered. -/
theorem maxN_le_of_mem {total nx fuel : Nat} {from_ : Memory} {r : LoopRead}
    (hr : r ∈ transferMemReads total fuel from_ nx) : r.maxN ≤ total - nx := by
  induction fuel generalizing from_ nx with
  | zero => cases hr
  | succ fuel ih =>
    rw [transferMemReads] at hr
    by_cases hlt : nx < total
    · rw [if_pos hlt] at hr
      rcases List.mem_cons.mp hr with rfl | hr
      · exact Nat.le_refl _
      · have hle := ih hr
        omega
    · rw [if_neg hlt] at hr
      cases hr

/-- No read asks for more than what is missing, wherever the loop stands. -/
def WithinTotal (total : Nat) : Nat → List LoopRead → Prop
  | _, [] => True
  | nx, r :: rs => nx + r.maxN ≤ total ∧ r.str.length ≤ r.maxN ∧ r.str ≠ [] ∧
    WithinTotal total (nx + r.str.length) rs

section Loop

variable {from_ : Memory} {total : Nat}

/-- The loop, with nothing cached; by induction on the fuel, which the missing bytes bound. -/
theorem transferMemLoop_exact (fuel : Nat) (nx : Nat) (h : from_.WF) (hu : from_.unread = [])
    (hnx : nx ≤ total) (hlen : total - nx ≤ from_.incoming.flatten.length)
    (hreads : ∀ r ∈ transferMemReads total fuel from_ nx, r.maxN ≤ maxSize)
    (hfuel : total - nx < fuel) :
    ∃ from', (∀ to_, transferMemLoop total fuel from_ to_ nx =
          .ret (from', to_.takes ((transferMemReads total fuel from_ nx).map LoopRead.str),
            total)) ∧
      ((transferMemReads total fuel from_ nx).map LoopRead.str).flatten =
        from_.incoming.flatten.take (total - nx) ∧
      WithinTotal total nx (transferMemReads total fuel from_ nx) ∧
      from'.WF ∧ from'.buffs = [] ∧ from'.readIndex = from_.readIndex + (total - nx) ∧
      from'.incoming = Feed.drop (total - nx) from_.incoming ∧ from'.frame = from_.frame := by
  induction fuel generalizing from_ nx with
  | zero => omega
  | succ fuel ih =>
    simp only [transferMemLoop, transferMemReads] at hreads ⊢
    by_cases hlt : nx < total
    · simp only [if_pos hlt] at hreads ⊢
      have hne : from_.incoming.flatten ≠ [] := by
        intro h0
        rw [h0, List.length_nil] at hlen
        omega
      obtain ⟨r, incoming, hp⟩ : ∃ r incoming, Feed.pull (total - nx) from_.incoming =
        some (r, incoming) := Feed.exists_pull hne
      have hr := Feed.ne_nil_of_pull (by omega) hp
      have hrlen := Feed.length_of_pull hp
      have hflat := Feed.flatten_of_pull hp
      have hpos := List.length_pos_of_ne_nil hr
      rw [asyncLoadSome_of_le (hreads _ List.mem_cons_self)]
      rw [readSome_of_pull h hp] at hreads ⊢
      simp only [Outcome.ret_bind]
      obtain ⟨hwf', hu'⟩ := append_removeSome h hu hr incoming
      have hsplit := congrArg List.length hflat
      rw [List.length_append] at hsplit
      have hlen' : total - (nx + r.length) ≤ incoming.flatten.length := by omega
      obtain ⟨from', heq, hwrites, hwithin, hwf'', hb, hidx, hin, hfr⟩ :=
        ih (nx + r.length) hwf' hu' (by omega) hlen'
          (fun r' hr' => hreads r' (List.mem_cons_of_mem _ hr')) (by omega)
      have hmax : nx + (total - nx) ≤ total := by omega
      refine ⟨from', fun to_ => heq _, ?_, ⟨hmax, hrlen, hr, hwithin⟩, hwf'', hb, ?_, ?_, hfr⟩
      · rw [List.map_cons, List.flatten_cons, hwrites, ← hflat, List.take_append,
          List.take_of_length_le hrlen]
        have hrest : total - nx - r.length = total - (nx + r.length) := by omega
        rw [hrest]
        rfl
      · rw [hidx]
        show from_.readIndex + r.length + _ = _
        omega
      · rw [hin, ← Feed.drop_of_pull (by omega) hp]
        have hrest : total - nx - r.length = total - (nx + r.length) := by omega
        rw [hrest]
        rfl
    · simp only [if_neg hlt]
      obtain rfl : nx = total := by omega
      refine ⟨from_, fun to_ => rfl, ?_, trivial, h, h.buffs_eq_nil hu, ?_, ?_, rfl⟩
      · rw [Nat.sub_self]
        rfl
      · omega
      · rw [Nat.sub_self]
        cases from_.incoming <;> rfl

/-- With nothing missing the loop is not entered. -/
theorem transferMemLoop_none {fuel : Nat} (hfuel : 0 < fuel) (from_ to_ : Memory) (total : Nat) :
    transferMemLoop total fuel from_ to_ total = .ret (from_, to_, total) ∧
      transferMemReads total fuel from_ total = [] := by
  obtain ⟨k, rfl⟩ : ∃ k, fuel = k + 1 := ⟨fuel - 1, by omega⟩
  rw [transferMemLoop, transferMemReads, if_neg (Nat.lt_irrefl _), if_neg (Nat.lt_irrefl _)]
  exact ⟨rfl, rfl⟩

end Loop

/-- The reads of `transferMem`. -/
def transferReads (fuel : Nat) (from_ : Memory) (totalBytes : Nat) : List LoopRead :=
  let from_ := from_.mergeSome
  let somStr := from_.getSome
  if 0 < totalBytes ∧ 0 < somStr.length then
    let somStr := if somStr.length > totalBytes then somStr.take totalBytes else somStr
    transferMemReads totalBytes fuel (from_.removeSome somStr.length) somStr.length
  else transferMemReads totalBytes fuel from_ 0

/-- None of them asks for more than the total. -/
theorem maxN_le_total {fuel total : Nat} {from_ : Memory} {r : LoopRead}
    (hr : r ∈ transferReads fuel from_ total) : r.maxN ≤ total := by
  unfold transferReads at hr
  by_cases hcond : 0 < total ∧ 0 < from_.mergeSome.getSome.length
  · simp only [if_pos hcond] at hr
    exact (maxN_le_of_mem hr).trans (Nat.sub_le _ _)
  · simp only [if_neg hcond] at hr
    exact (maxN_le_of_mem hr).trans (Nat.sub_le _ _)

theorem WithinTotal.ne_nil {total nx : Nat} {rs : List LoopRead} (h : WithinTotal total nx rs) :
    ∀ w ∈ rs.map LoopRead.str, w ≠ [] := by
  induction rs generalizing nx with
  | nil =>
    intro w hw
    cases hw
  | cons r rs ih =>
    obtain ⟨-, -, hr, hrs⟩ := h
    intro w hw
    rw [List.map_cons] at hw
    rcases List.mem_cons.mp hw with rfl | hw
    · exact hr
    · exact ih hrs w hw

/-- Removing less than is unread from one block leaves it in place. -/
theorem buffs_removeSome_of_lt {m : Memory} (h : m.WF) (hb : m.buffs.length ≤ 1) {n : Nat}
    (hn : n < m.unread.length) : (m.removeSome n).buffs = m.buffs := by
  match hm : m.buffs, hb with
  | [], _ =>
    unfold unread at hn
    rw [hm] at hn
    simp at hn
  | [c], _ =>
    have hlen := h.length
    have hch := h.chain
    rw [hm] at hch
    have hend : c.end_ = m.writeIndex := hch.2.2
    unfold MemBlock.end_ at hend
    show m.buffs.dropWhile _ = [c]
    rw [hm, List.dropWhile_cons_of_neg]
    simp only [decide_eq_true_eq]
    omega

theorem frame_mergeSome (m : Memory) :
    m.mergeSome.frame = m.frame ∧ m.mergeSome.incoming = m.incoming := by
  unfold mergeSome
  split <;> exact ⟨rfl, rfl⟩

theorem mergeSomeSize_eq_zero {m : Memory} (h : m.buffs.length ≤ 1) : m.mergeSomeSize = 0 :=
  if_pos h

/-- What a counted transfer of `total` bytes does: it writes the pieces `ws`, whatever the
target, and leaves `from'`. -/
structure TransfersExactly (fuel : Nat) (from_ : Memory) (total : Nat) (from' : Memory)
    (ws : List (List Char)) : Prop where
  returns : ∀ to_, transferMem fuel from_ to_ total = .ret (from', to_.takes ws, total)
  writes : ws.flatten = from_.stream.take total
  pieces : ∀ w ∈ ws, w ≠ []
  reads : WithinTotal total (min total from_.unread.length) (transferReads fuel from_ total)
  wf : from'.WF
  rest : from'.feed = from_.feed.skip total
  offset : from'.readIndex = from_.readIndex + total
  inPlace : total < from_.unread.length → from'.buffs = from_.mergeSome.buffs
  merged : from'.mergeSomeSize = 0
  frame : from'.frame = from_.frame

section Exact

variable {from_ : Memory} {total fuel : Nat}

/-- The cache has more than is asked for: one piece of it is written. -/
theorem transferMem_cached (h : from_.WF) (hget : from_.mergeSome.getSome = from_.unread)
    (hmore : total < from_.unread.length) (hfuel : total < fuel) :
    ∃ from' ws, TransfersExactly fuel from_ total from' ws := by
  obtain ⟨hwf, hu, hone, hidx, -⟩ := mergeSome_spec h
  obtain ⟨hfr, hin⟩ := frame_mergeSome from_
  have hdrop : Feed.drop (total - from_.unread.length) from_.incoming = from_.incoming := by
    rw [Nat.sub_eq_zero_of_le (by omega)]
    cases from_.incoming <;> rfl
  have hloop := fun a b => transferMemLoop_none (show 0 < fuel by omega) a b total
  by_cases h0 : total = 0
  · subst h0
    refine ⟨from_.mergeSome, [], ⟨fun to_ => ?_, rfl, by simp, ?_, hwf, ?_, hidx, fun _ => rfl,
      mergeSomeSize_eq_zero hone, hfr⟩⟩
    · unfold transferMem
      rw [if_neg (by omega), (hloop _ _).1]
      rfl
    · unfold transferReads
      rw [if_neg (by omega), (hloop _ from_).2]
      trivial
    · show (⟨_, _⟩ : Feed Char) = ⟨from_.unread.drop 0, Feed.drop _ from_.incoming⟩
      rw [hu, hin, show (from_.feed).cached.length = from_.unread.length from rfl, hdrop]
      rfl
  · have hcond : 0 < total ∧ 0 < from_.unread.length := by omega
    have htake : (from_.unread.take total).length = total := by
      rw [List.length_take]
      omega
    have hless : total < from_.mergeSome.unread.length := by
      rw [hu]
      exact hmore
    obtain ⟨hwf', hu'⟩ := removeSome_spec hwf (Nat.le_of_lt hless)
    have hbuffs := buffs_removeSome_of_lt hwf hone hless
    refine ⟨from_.mergeSome.removeSome total, [from_.unread.take total], ⟨fun to_ => ?_, ?_, ?_,
      ?_, hwf', ?_, ?_, fun _ => hbuffs, mergeSomeSize_eq_zero (hbuffs ▸ hone), hfr⟩⟩
    · unfold transferMem
      simp only [hget, if_pos hcond, if_pos hmore, htake, (hloop _ _).1]
      rfl
    · rw [List.flatten_singleton, stream, List.take_append_of_le_length (by omega)]
    · intro w hw
      rw [List.mem_singleton] at hw
      rw [hw]
      intro hnil
      rw [hnil, List.length_nil] at htake
      omega
    · unfold transferReads
      simp only [hget, if_pos hcond, if_pos hmore, htake, (hloop _ from_).2]
      trivial
    · show (⟨_, from_.mergeSome.incoming⟩ : Feed Char) =
        ⟨from_.unread.drop total, Feed.drop (total - from_.unread.length) from_.incoming⟩
      rw [hu', hu, hin, hdrop]
    · show from_.mergeSome.readIndex + total = _
      rw [hidx]

theorem unread_of_buffs {m : Memory} (hb : m.buffs = []) : m.unread = [] := by
  unfold unread
  rw [hb]
  exact List.drop_nil

/-- What is skipped when all of the cache is. -/
theorem skip_cached (hless : from_.unread.length ≤ total) :
    from_.feed.skip total = ⟨[], Feed.drop (total - from_.unread.length) from_.incoming⟩ := by
  show (⟨from_.unread.drop total, _⟩ : Feed Char) = _
  rw [List.drop_eq_nil_of_le hless]
  rfl

/-- With nothing cached the loop moves everything. -/
theorem transferMem_uncached (h : from_.WF) (hget : from_.mergeSome.getSome = from_.unread)
    (hnil : from_.unread = []) (hlen : total ≤ from_.stream.length)
    (hreads : ∀ r ∈ transferReads fuel from_ total, r.maxN ≤ maxSize) (hfuel : total < fuel) :
    ∃ from' ws, TransfersExactly fuel from_ total from' ws := by
  obtain ⟨hwf, hu, hone, hidx, -⟩ := mergeSome_spec h
  obtain ⟨hfr, hin⟩ := frame_mergeSome from_
  have hst : from_.stream = from_.incoming.flatten := by
    rw [stream, hnil, List.nil_append]
  rw [hnil] at hu
  have hzero : from_.unread.length = 0 := by
    rw [hnil]
    rfl
  have hcond : ¬ (0 < total ∧ 0 < from_.unread.length) := by omega
  unfold transferReads at hreads
  simp only [hget, if_neg hcond] at hreads
  obtain ⟨from', heq, hwrites, hwithin, hwf', hb, hidx', hin', hfr'⟩ :=
    transferMemLoop_exact fuel 0 hwf hu (Nat.zero_le _) (by rw [hin, ← hst]; omega) hreads
      (by omega : total - 0 < fuel)
  refine ⟨from', _, ⟨fun to_ => ?_, ?_, hwithin.ne_nil, ?_, hwf', ?_, ?_, fun hlt => ?_, ?_,
    hfr'.trans hfr⟩⟩
  · unfold transferMem
    simp only [hget, if_neg hcond, heq]
  · rw [hwrites, hst, hin]
    rfl
  · unfold transferReads
    simp only [hget, if_neg hcond]
    rw [hzero, Nat.min_zero]
    exact hwithin
  · rw [skip_cached (by omega), hzero, feed, unread_of_buffs hb, hin', hin]
  · rw [hidx', hidx]
    rfl
  · omega
  · exact mergeSomeSize_eq_zero (by rw [hb]; exact Nat.zero_le _)

/-- The whole cache is written, and the loop moves the rest. -/
theorem transferMem_loops (h : from_.WF) (hget : from_.mergeSome.getSome = from_.unread)
    (hnil : from_.unread ≠ []) (hless : from_.unread.length ≤ total)
    (hlen : total ≤ from_.stream.length)
    (hreads : ∀ r ∈ transferReads fuel from_ total, r.maxN ≤ maxSize) (hfuel : total < fuel) :
    ∃ from' ws, TransfersExactly fuel from_ total from' ws := by
  obtain ⟨hwf, hu, hone, hidx, -⟩ := mergeSome_spec h
  obtain ⟨hfr, hin⟩ := frame_mergeSome from_
  have hst : from_.stream.length = from_.unread.length + from_.incoming.flatten.length :=
    List.length_append
  have hpos := List.length_pos_of_ne_nil hnil
  have hcond : 0 < total ∧ 0 < from_.unread.length := by omega
  obtain ⟨hwf1, hu1⟩ := removeSome_spec hwf (show from_.unread.length ≤ _ by rw [hu])
  rw [hu, List.drop_length] at hu1
  have hno : ¬ from_.unread.length > total := by omega
  unfold transferReads at hreads
  simp only [hget, if_pos hcond, if_neg hno] at hreads
  obtain ⟨from', heq, hwrites, hwithin, hwf', hb, hidx', hin', hfr'⟩ :=
    transferMemLoop_exact fuel from_.unread.length hwf1 hu1 hless
      (show _ ≤ from_.mergeSome.incoming.flatten.length by rw [hin]; omega) hreads (by omega)
  have hin1 : (from_.mergeSome.removeSome from_.unread.length).incoming = from_.incoming := hin
  refine ⟨from', from_.unread :: (transferMemReads total fuel
    (from_.mergeSome.removeSome from_.unread.length) from_.unread.length).map LoopRead.str,
    ⟨fun to_ => ?_, ?_, ?_, ?_, hwf', ?_, ?_, fun hlt => ?_, ?_, hfr'.trans hfr⟩⟩
  · unfold transferMem
    simp only [hget, if_pos hcond, if_neg hno, heq]
    rfl
  · rw [List.flatten_cons, hwrites, hin1, stream, List.take_append,
      List.take_of_length_le hless]
  · intro w hw
    rcases List.mem_cons.mp hw with rfl | hw
    · exact hnil
    · exact hwithin.ne_nil w hw
  · unfold transferReads
    simp only [hget, if_pos hcond, if_neg hno]
    rw [Nat.min_eq_right hless]
    exact hwithin
  · rw [skip_cached hless, feed, unread_of_buffs hb, hin', hin1]
  · rw [hidx']
    show from_.mergeSome.readIndex + _ + _ = _
    rw [hidx]
    omega
  · omega
  · exact mergeSomeSize_eq_zero (by rw [hb]; exact Nat.zero_le _)

/-- **A counted transfer is exact**: the next `total` bytes are written, whatever the target
and the reads, as long as these deliver, which one for more than `maxSize` bytes does not; no
read asks for a byte behind them; the rest stays, what is cached of it in one block. -/
theorem transferMem_exact (h : from_.WF) (hget : from_.mergeSome.getSome = from_.unread)
    (hlen : total ≤ from_.stream.length)
    (hreads : ∀ r ∈ transferReads fuel from_ total, r.maxN ≤ maxSize) (hfuel : total < fuel) :
    ∃ from' ws, TransfersExactly fuel from_ total from' ws := by
  by_cases hmore : total < from_.unread.length
  · exact transferMem_cached h hget hmore hfuel
  by_cases hnil : from_.unread = []
  · exact transferMem_uncached h hget hnil hlen hreads hfuel
  · exact transferMem_loops h hget hnil (by omega) hlen hreads hfuel

/-- Two blocks are cached and one read brings more than is missing. -/
theorem transferMem_exact_twoBlocks :
    ∃ from' ws, TransfersExactly 9 { fresh .plain ["efgh".toList] none with
      buffs := [⟨0, "ab".toList⟩, ⟨2, "cd".toList⟩], readIndex := 1, writeIndex := 4 }
      5 from' ws :=
  transferMem_exact ⟨⟨rfl, by decide, rfl, by decide, rfl⟩, by decide, by
    rintro c cs ⟨⟩
    decide⟩ (by decide) (by decide) (by decide) (by decide)

end Exact

end Hcpp
