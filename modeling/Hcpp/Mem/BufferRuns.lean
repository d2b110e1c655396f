import Hcpp.Lib.Runs
import Hcpp.Mem.BlockBuffer
import Mathlib.Data.List.Chain

/-!
# Runs of the buffer operations

Any sequence of the operations of `socket_memory` and `ssl_sock_mem`, each load
with a read result of its own.  Two levels: the memory, and the bytes it received
since the last `reset` with the number of those that were removed.  The memory
refines that queue, and its blocks are laid out as the offsets say, in every
state that is reached (`blocks_of_run`).  `get_some` is another matter: it looks
the block up with an offset taken as an `int` (`getsTail_iff`).
-/

namespace Hcpp

open Memory MemBlock Runs

/-- The operations.  `segs` is what the socket has for a load: one read takes at most
`max_n` bytes of the first segment and fails when there is none. -/
inductive BufferOp where
  | loadSome (maxN : Nat) (segs : List (List Char))
  | loadUntil (d : List Char) (segs : List (List Char))
  | getSome
  | removeSome (n : Nat)
  | mergeSome
  | reset
deriving DecidableEq, Repr

/-- `none`: an operation that the interface excludes.  A `max_n` that is too large and a
delimiter that is too long throw before anything is read. -/
def bufferStep (m : Memory) : BufferOp → Option Memory
  | .loadSome maxN segs =>
    if 1 ≤ maxN then
      match { m with incoming := segs }.asyncLoadSome maxN with
      | .ret (m, _) => some m
      | _ => some m
    else none
  | .loadUntil d segs =>
    match { m with incoming := segs }.asyncLoadUntil d with
    | .ret (m, _) => some m
    | _ => some m
  | .getSome => some m
  | .removeSome n => if n ≤ m.unread.length then some (m.removeSome n) else none
  | .mergeSome => some m.mergeSome
  | .reset => some m.reset

/-! ## The queue -/

/-- The bytes received since the last reset, and how many of them were removed. -/
structure Received where
  bytes : List Char
  removed : Nat
deriving DecidableEq, Repr

def Received.unread (q : Received) : List Char := q.bytes.drop q.removed

/-- What a load adds to the blocks: nothing when the read failed. -/
def delivered : BufferOp → List Char
  | .loadSome maxN segs =>
    if maxN > maxSize then []
    else
      match Feed.pull maxN segs with
      | none => []
      | some (r, _) => r
  | .loadUntil d segs =>
    if d.length > 512 then []
    else
      match Feed.pullUntil d [] segs with
      | none => []
      | some (r, n, _) => if n = 0 then [] else r
  | _ => []

def receivedStep (q : Received) : BufferOp → Option Received
  | .loadSome maxN segs =>
    if 1 ≤ maxN then some { q with bytes := q.bytes ++ delivered (.loadSome maxN segs) } else none
  | .loadUntil d segs => some { q with bytes := q.bytes ++ delivered (.loadUntil d segs) }
  | .removeSome n =>
    if n ≤ q.unread.length then some { q with removed := q.removed + n } else none
  | .reset => some ⟨[], 0⟩
  | .getSome => some q
  | .mergeSome => some q

/-- The memory holds what is left of the queue. -/
structure Holds (m : Memory) (q : Received) : Prop where
  wf : m.WF
  unread : m.unread = q.unread
  removed : q.removed ≤ q.bytes.length

section Step

variable {m m' : Memory} {q : Received}

theorem Received.unread_append (q : Received) (hq : q.removed ≤ q.bytes.length) (r : List Char) :
    ({ q with bytes := q.bytes ++ r } : Received).unread = q.unread ++ r := by
  show (q.bytes ++ r).drop q.removed = q.bytes.drop q.removed ++ r
  exact List.drop_append_of_le_length hq

/-- A load that brings `r`, which may be nothing. -/
theorem Holds.load (h : Holds m q) {r : List Char} (hwf : m'.WF) (hu : m'.unread = m.unread ++ r) :
    Holds m' { q with bytes := q.bytes ++ r } where
  wf := hwf
  unread := by rw [hu, h.unread, q.unread_append h.removed]
  removed := by
    have hq := h.removed
    show q.removed ≤ (q.bytes ++ r).length
    rw [List.length_append]
    omega

/-- The segments a socket has are no part of the blocks. -/
theorem wf_setIncoming (h : m.WF) (segs : List (List Char)) :
    ({ m with incoming := segs } : Memory).WF :=
  ⟨h.chain, h.base_le, h.inFirst⟩

/-- A failed read leaves the blocks alone. -/
theorem wf_failed (h : m.WF) (segs : List (List Char)) :
    ({ m with readOk := false, incoming := segs } : Memory).WF :=
  ⟨h.chain, h.base_le, h.inFirst⟩

theorem holds_loadSome (h : Holds m q) {maxN : Nat} (hmax : 1 ≤ maxN) (segs : List (List Char)) :
    ∃ m', bufferStep m (.loadSome maxN segs) = some m' ∧
      Holds m' { q with bytes := q.bytes ++ delivered (.loadSome maxN segs) } := by
  have hwf := wf_setIncoming h.wf segs
  by_cases hbig : maxN > maxSize
  · have hdel : delivered (.loadSome maxN segs) = [] := by simp only [delivered, if_pos hbig]
    rw [hdel]
    refine ⟨m, ?_, h.load h.wf (List.append_nil m.unread).symm⟩
    simp only [bufferStep, if_pos hmax, asyncLoadSome_of_gt hbig]
  · simp only [bufferStep, if_pos hmax, asyncLoadSome_of_le (Nat.not_lt.mp hbig)]
    refine ⟨_, rfl, ?_⟩
    cases hp : Feed.pull maxN segs with
    | none =>
      have hdel : delivered (.loadSome maxN segs) = [] := by
        simp only [delivered, if_neg hbig, hp]
      rw [readSome_of_closed (Feed.pull_eq_none_iff.mp hp), hdel]
      exact h.load (wf_failed h.wf segs) (List.append_nil m.unread).symm
    | some p =>
      obtain ⟨r, rest⟩ := p
      have hdel : delivered (.loadSome maxN segs) = r := by
        simp only [delivered, if_neg hbig, hp]
      rw [readSome_of_pull hwf hp, hdel]
      exact h.load (hwf.append (Feed.ne_nil_of_pull hmax hp) rest) (unread_append hwf r rest)

theorem holds_loadUntil (h : Holds m q) (d : List Char) (segs : List (List Char)) :
    ∃ m', bufferStep m (.loadUntil d segs) = some m' ∧
      Holds m' { q with bytes := q.bytes ++ delivered (.loadUntil d segs) } := by
  have hwf := wf_setIncoming h.wf segs
  have hnone : ∀ {m' : Memory}, m'.WF → m'.unread = m.unread →
      Holds m' { q with bytes := q.bytes ++ [] } := by
    intro m' hm' hu
    exact h.load hm' (by rw [hu, List.append_nil])
  by_cases hlong : d.length > 512
  · have hdel : delivered (.loadUntil d segs) = [] := by simp only [delivered, if_pos hlong]
    rw [hdel]
    refine ⟨m, ?_, hnone h.wf rfl⟩
    simp only [bufferStep, asyncLoadUntil, if_pos hlong]
  · cases hp : Feed.pullUntil d [] segs with
    | none =>
      have hdel : delivered (.loadUntil d segs) = [] := by
        simp only [delivered, if_neg hlong, hp]
      rw [hdel]
      refine ⟨_, ?_, hnone (wf_failed h.wf []) rfl⟩
      simp only [bufferStep, asyncLoadUntil, if_neg hlong, hp]
    | some p =>
      obtain ⟨r, n, rest⟩ := p
      by_cases hn : n = 0
      · -- an empty delimiter is found at once: taken for an error
        have hdel : delivered (.loadUntil d segs) = [] := by
          simp only [delivered, if_neg hlong, hp, if_pos hn]
        rw [hdel]
        refine ⟨_, ?_, hnone (wf_failed h.wf rest) rfl⟩
        simp only [bufferStep, asyncLoadUntil, if_neg hlong, hp, if_pos hn]
      · have hr : r ≠ [] := by
          rintro rfl
          obtain ⟨hle, -⟩ := Feed.take_of_pullUntil hp
          exact hn (by simpa using hle)
        have hdel : delivered (.loadUntil d segs) = r := by
          simp only [delivered, if_neg hlong, hp, if_neg hn]
        rw [hdel]
        refine ⟨_, ?_, h.load (hwf.append hr rest) (unread_append hwf r rest)⟩
        simp only [bufferStep, asyncLoadUntil, if_neg hlong, hp, if_neg hn, store_eq hwf]

/-- Every operation keeps the layout and acts on the bytes as on the queue. -/
theorem holds_step (op : BufferOp) (h : Holds m q) (hs : bufferStep m op = some m') :
    ∃ q', receivedStep q op = some q' ∧ Holds m' q' := by
  cases op with
  | loadSome maxN segs =>
    by_cases hmax : 1 ≤ maxN
    · obtain ⟨m1, hm1, hh⟩ := holds_loadSome h hmax segs
      rw [hm1, Option.some.injEq] at hs
      exact ⟨_, by rw [receivedStep, if_pos hmax], hs ▸ hh⟩
    · rw [bufferStep, if_neg hmax] at hs
      cases hs
  | loadUntil d segs =>
    obtain ⟨m1, hm1, hh⟩ := holds_loadUntil h d segs
    rw [hm1, Option.some.injEq] at hs
    exact ⟨_, rfl, hs ▸ hh⟩
  | getSome =>
    cases hs
    exact ⟨q, rfl, h⟩
  | removeSome n =>
    rw [bufferStep] at hs
    by_cases hn : n ≤ m.unread.length
    · rw [if_pos hn, Option.some.injEq] at hs
      have hq := h.removed
      have hlen : n ≤ q.unread.length := h.unread ▸ hn
      obtain ⟨hwf, hu⟩ := removeSome_spec h.wf hn
      refine ⟨_, by rw [receivedStep, if_pos hlen], ?_⟩
      rw [← hs]
      refine ⟨hwf, ?_, ?_⟩
      · rw [hu, h.unread]
        show (q.bytes.drop q.removed).drop n = q.bytes.drop (q.removed + n)
        exact List.drop_drop
      · unfold Received.unread at hlen
        rw [List.length_drop] at hlen
        show q.removed + n ≤ q.bytes.length
        omega
    · rw [if_neg hn] at hs
      cases hs
  | mergeSome =>
    cases hs
    obtain ⟨hwf, hu, -⟩ := mergeSome_spec h.wf
    exact ⟨q, rfl, hwf, hu.trans h.unread, h.removed⟩
  | reset =>
    cases hs
    exact ⟨_, rfl, wf_reset m, unread_reset m, Nat.le_refl _⟩

theorem holds_fresh (kind : SockKind) (incoming : List (List Char)) (room : Option Nat) :
    Holds (fresh kind incoming room) ⟨[], 0⟩ where
  wf := wf_fresh kind incoming room
  unread := rfl
  removed := Nat.le_refl _

end Step

/-! ## The layout of the blocks -/

/-- How `buffs_`, `read_index_` and `write_index_` lie. -/
structure Laid (m : Memory) : Prop where
  nonempty : ∀ b ∈ m.buffs, b.data ≠ []
  contiguous : m.buffs.IsChain fun a b => a.end_ = b.begin_
  disjoint : m.buffs.Pairwise fun a b => a.end_ ≤ b.begin_
  last : ∀ b ∈ m.buffs.getLast?, b.end_ = m.writeIndex
  first : ∀ b ∈ m.buffs.head?, b.begin_ ≤ m.readIndex ∧ m.readIndex < b.end_
  none : m.buffs = [] → m.readIndex = m.writeIndex

theorem Chain.laid {b e : Nat} {bs : List MemBlock} (h : Chain b bs e) :
    (∀ c ∈ bs, c.data ≠ [] ∧ b ≤ c.begin_) ∧ (bs.IsChain fun a b => a.end_ = b.begin_) ∧
      (bs.Pairwise fun a b => a.end_ ≤ b.begin_) ∧ ∀ c ∈ bs.getLast?, c.end_ = e := by
  induction bs generalizing b with
  | nil => exact ⟨by simp, .nil, .nil, by simp⟩
  | cons c cs ih =>
    obtain ⟨hb, hne, hcs⟩ := h
    obtain ⟨hmem, hchain, hpair, hlast⟩ := ih hcs
    have hend : c.begin_ ≤ c.end_ := Nat.le_add_right _ _
    refine ⟨?_, ?_, ?_, ?_⟩
    · intro d hd
      rcases List.mem_cons.mp hd with rfl | hd
      · exact ⟨hne, by omega⟩
      · obtain ⟨hdne, hle⟩ := hmem d hd
        exact ⟨hdne, by omega⟩
    · rw [List.isChain_cons]
      refine ⟨fun d hd => ?_, hchain⟩
      cases cs with
      | nil => cases hd
      | cons d' ds =>
        cases hd
        exact hcs.1.symm
    · rw [List.pairwise_cons]
      exact ⟨fun d hd => (hmem d hd).2, hpair⟩
    · intro d hd
      cases cs with
      | nil =>
        cases hd
        exact hcs
      | cons d' ds =>
        rw [List.getLast?_cons_cons] at hd
        exact hlast d hd

theorem Memory.WF.laid {m : Memory} (h : m.WF) : Laid m := by
  obtain ⟨hmem, hchain, hpair, hlast⟩ := h.chain.laid
  refine ⟨fun b hb => (hmem b hb).1, hchain, hpair, hlast, fun b hb => ?_, fun hnil => ?_⟩
  · cases hm : m.buffs with
    | nil =>
      rw [hm] at hb
      cases hb
    | cons c cs =>
      rw [hm] at hb
      cases hb
      have hle := h.base_le
      have hbase : m.base = b.begin_ := by
        unfold base
        rw [hm]
      exact ⟨hbase ▸ hle, h.inFirst b cs hm⟩
  · have hch := h.chain
    unfold base at hch
    rw [hnil] at hch
    exact hch

/-- **The representation invariant**: in every state that is reached the blocks are laid
out as the offsets say and hold the bytes that were received and not removed; so the
insertion of the next load succeeds, and a merge changes no unread byte. -/
theorem blocks_of_run {kind : SockKind} {incoming : List (List Char)} {room : Option Nat}
    {ops : List BufferOp} {m : Memory}
    (hrun : run bufferStep (fresh kind incoming room) ops = some m) :
    Laid m ∧
      (∃ q, run receivedStep ⟨[], 0⟩ ops = some q ∧ m.unread = q.unread) ∧
      (∀ r, emplace ⟨m.writeIndex, r⟩ m.buffs =
        (⟨m.writeIndex, r⟩, m.buffs ++ [⟨m.writeIndex, r⟩])) ∧
      m.mergeSome.unread = m.unread := by
  obtain ⟨q, hq, hh⟩ := run_sim (fun m q op m' => holds_step op) (holds_fresh kind incoming room)
    hrun
  obtain ⟨-, hmerge, -⟩ := mergeSome_spec hh.wf
  exact ⟨hh.wf.laid, ⟨q, hq, hh.unread⟩, fun r => hh.wf.chain.emplace, hmerge⟩

/-- Two loads, a partial removal, and a merge over the rest. -/
theorem blocks_of_run_merge :
    Laid { fresh .plain [] none with
      buffs := [⟨0, "abc".toList⟩], readIndex := 1, writeIndex := 3 } ∧
      (∃ q, run receivedStep ⟨[], 0⟩ [.loadSome 2 ["abX".toList],
        .loadUntil "c".toList ["c".toList], .removeSome 1, .mergeSome] = some q ∧
        "bc".toList = q.unread) := by
  have h := blocks_of_run
    (show run bufferStep (fresh .plain [] none) [.loadSome 2 ["abX".toList],
      .loadUntil "c".toList ["c".toList], .removeSome 1, .mergeSome] = some _ by rfl)
  exact ⟨h.1, h.2.1⟩

/-! ## `get_some` -/

/-- `get_some` looks up the block of `read_index_`, and then gives its bytes from there
on; it gives nothing only when nothing is unread. -/
structure GetsTail (m : Memory) : Prop where
  tail : ∀ b ∈ m.buffs, b.begin_ ≤ m.readIndex → m.readIndex < b.end_ →
    MemBlock.find m.readIndex m.buffs = some b ∧
      m.getSome = b.data.drop (m.readIndex - b.begin_)
  empty : m.getSome = [] → m.unread = []

/-- Nothing is unread, or the offset, taken as an `int` and back, is still one of the
first block. -/
def KeepsOffset (m : Memory) : Prop :=
  ∀ b ∈ m.buffs.head?, b.begin_ ≤ narrow m.readIndex ∧ narrow m.readIndex < b.end_

theorem find_cons_iff {key : Nat} {c : MemBlock} {cs : List MemBlock} (hc : c ∉ cs) :
    MemBlock.find key (c :: cs) = some c ↔ c.begin_ ≤ narrow key ∧ narrow key < c.end_ := by
  unfold MemBlock.find
  by_cases hlt : c.ltKey (narrow key) = true
  · -- the first block is passed over
    rw [List.dropWhile_cons_of_pos (p := fun fk : MemBlock => fk.ltKey (narrow key)) hlt]
    have hend : ¬ narrow key < c.end_ := by simpa [ltKey, end_] using hlt
    refine iff_of_false (fun h => ?_) fun h => hend h.2
    cases hd : cs.dropWhile fun fk => fk.ltKey (narrow key) with
    | nil =>
      rw [hd] at h
      cases h
    | cons d ds =>
      rw [hd] at h
      simp only at h
      by_cases hk : keyLt (narrow key) d = true
      · rw [if_pos hk] at h
        cases h
      · rw [if_neg hk, Option.some.injEq] at h
        have hmem : d ∈ cs.dropWhile fun fk => fk.ltKey (narrow key) := by
          rw [hd]
          exact List.mem_cons_self
        exact hc (h ▸ (List.dropWhile_suffix _).subset hmem)
  · rw [List.dropWhile_cons_of_neg (p := fun fk : MemBlock => fk.ltKey (narrow key)) hlt]
    have hend : narrow key < c.end_ := by simpa [ltKey, end_] using hlt
    by_cases hk : keyLt (narrow key) c = true
    · simp only [if_pos hk, reduceCtorEq, false_iff]
      have hbegin : narrow key < c.begin_ := by simpa [keyLt] using hk
      omega
    · simp only [if_neg hk, true_iff]
      have hbegin : c.begin_ ≤ narrow key := by simpa [keyLt] using hk
      exact ⟨hbegin, hend⟩

/-- Only the first block has `read_index_` in it. -/
theorem Laid.eq_first {m : Memory} (h : Laid m) {c b : MemBlock} {cs : List MemBlock}
    (hm : m.buffs = c :: cs) (hb : b ∈ m.buffs) (hle : b.begin_ ≤ m.readIndex) : b = c := by
  obtain ⟨-, hlt⟩ := h.first c (by rw [hm]; rfl)
  have hpair := h.disjoint
  rw [hm] at hb hpair
  rcases List.mem_cons.mp hb with rfl | hb
  · rfl
  · have hsep := (List.pairwise_cons.mp hpair).1 b hb
    omega

theorem Laid.not_mem {m : Memory} (h : Laid m) {c : MemBlock} {cs : List MemBlock}
    (hm : m.buffs = c :: cs) : c ∉ cs := by
  intro hc
  have hpair := h.disjoint
  rw [hm] at hpair
  have hsep := (List.pairwise_cons.mp hpair).1 c hc
  have hne := h.nonempty c (by rw [hm]; exact List.mem_cons_self)
  have hpos := List.length_pos_of_ne_nil hne
  unfold end_ at hsep
  omega

theorem getsTail_of_wf {m : Memory} (h : m.WF) : GetsTail m ↔ KeepsOffset m := by
  have hlaid := h.laid
  unfold KeepsOffset
  cases hm : m.buffs with
  | nil =>
    refine iff_of_true ⟨fun b hb => ?_, fun _ => ?_⟩ nofun
    · rw [hm] at hb
      cases hb
    · unfold unread
      rw [hm]
      exact List.drop_nil
  | cons c cs =>
    obtain ⟨hle, hlt⟩ := hlaid.first c (by rw [hm]; rfl)
    have hfind : MemBlock.find m.readIndex (c :: cs) = some c ↔
        c.begin_ ≤ narrow m.readIndex ∧ narrow m.readIndex < c.end_ :=
      find_cons_iff (hlaid.not_mem hm)
    have hunread : m.unread = c.data.drop (m.readIndex - c.begin_) ++ blockText cs := by
      unfold unread base
      rw [hm]
      simp only [blockText_cons]
      exact List.drop_append_of_le_length (by unfold end_ at hlt; omega)
    constructor
    · rintro ht b ⟨⟩
      have hc := (ht.tail c (by rw [hm]; exact List.mem_cons_self) hle hlt).1
      rw [hm] at hc
      exact hfind.mp hc
    · intro hk
      have hc : MemBlock.find m.readIndex m.buffs = some c := by
        rw [hm]
        exact hfind.mpr (hk c rfl)
      have hget : m.getSome = c.data.drop (m.readIndex - c.begin_) := by
        unfold getSome
        rw [hc]
      refine ⟨fun b hb hb1 hb2 => ?_, fun hnil => ?_⟩
      · obtain rfl := hlaid.eq_first hm hb hb1
        exact ⟨hc, hget⟩
      · -- a block that is still there has a byte at `read_index_`
        rw [hget, List.drop_eq_nil_iff] at hnil
        unfold end_ at hlt
        omega

/-- **What `get_some` gives in a state that is reached**: the unread bytes of the first
block if and only if the `int` the offset is taken as is kept. -/
theorem getsTail_iff {kind : SockKind} {incoming : List (List Char)} {room : Option Nat}
    {ops : List BufferOp} {m : Memory}
    (hrun : run bufferStep (fresh kind incoming room) ops = some m) :
    GetsTail m ↔ KeepsOffset m := by
  obtain ⟨q, -, hh⟩ := run_sim (fun m q op m' => holds_step op) (holds_fresh kind incoming room)
    hrun
  exact getsTail_of_wf hh.wf

/-- Below 2^31 it is. -/
theorem keepsOffset_of_lt {m : Memory} (h : m.WF) (hlt : m.readIndex < 2 ^ 31) :
    KeepsOffset m := by
  intro b hb
  rw [narrow_of_lt hlt]
  exact h.laid.first b hb

/-- One byte of two is taken off. -/
theorem getsTail_two :
    GetsTail { fresh .plain [] none with
      buffs := [⟨0, "ab".toList⟩], readIndex := 1, writeIndex := 2 } :=
  (getsTail_iff
    (show run bufferStep (fresh .plain [] none) [.loadSome 9 ["ab".toList], .removeSome 1] =
      some _ by rfl)).mpr (by rintro b ⟨⟩; decide)

/-- `xs` came and was removed, and then one byte came. -/
theorem run_past {xs : List Char} (hxs : xs ≠ []) (hmax : xs.length ≤ maxSize) :
    run bufferStep (fresh .plain [] none)
        [.loadSome xs.length [xs], .removeSome xs.length, .loadSome 1 [['y']]] =
      some { fresh .plain [] none with
        buffs := [⟨xs.length, ['y']⟩], readIndex := xs.length, writeIndex := xs.length + 1 } := by
  have hpos : 1 ≤ xs.length := List.length_pos_of_ne_nil hxs
  let m1 : Memory := { fresh .plain [] none with buffs := [⟨0, xs⟩], writeIndex := xs.length }
  let m2 : Memory := { fresh .plain [] none with
    readIndex := xs.length, writeIndex := xs.length }
  have h1 : bufferStep (fresh .plain [] none) (.loadSome xs.length [xs]) = some m1 := by
    rw [bufferStep, if_pos hpos, asyncLoadSome_of_le hmax]
    simp only [readSome, Feed.pull_segment hxs (Nat.le_refl _), store, fresh, emplace, m1,
      Nat.zero_add]
  have h2 : bufferStep m1 (.removeSome xs.length) = some m2 := by
    have hlen : xs.length ≤ m1.unread.length := by
      show xs.length ≤ ((xs ++ []).drop 0).length
      simp
    rw [bufferStep, if_pos hlen]
    simp only [removeSome, fresh, m1, m2, Nat.zero_add]
    simp
  have h3 : bufferStep m2 (.loadSome 1 [['y']]) = some { m2 with
      buffs := [⟨xs.length, ['y']⟩], writeIndex := xs.length + 1 } := rfl
  rw [run_cons_eq_some]
  refine ⟨m1, h1, ?_⟩
  rw [run_cons_eq_some]
  exact ⟨m2, h2, run_cons_eq_some.mpr ⟨_, h3, rfl⟩⟩

/-- At 2^31 bytes the unread byte is not found. -/
theorem getsTail_lost :
    ¬ ∀ (kind : SockKind) (ops : List BufferOp) (m : Memory),
      run bufferStep (fresh kind [] none) ops = some m → GetsTail m := by
  intro hall
  let xs := List.replicate (2 ^ 31) 'x'
  have hlen : xs.length = 2 ^ 31 := List.length_replicate
  have hxs : xs ≠ [] := by
    intro h0
    rw [h0] at hlen
    cases hlen
  have hget := (hall .plain _ _ (run_past hxs (by rw [hlen]; decide))).empty
  rw [hlen] at hget
  have hnil := hget (by decide)
  revert hnil
  decide

end Hcpp
