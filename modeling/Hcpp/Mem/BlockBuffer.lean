import Hcpp.Mem.Memory

/-!
# What the block buffer represents

`WF` is the representation invariant of `buffs_`, `read_index_` and
`write_index_`: the blocks are non-empty, follow one another up to
`write_index_`, and `read_index_` lies in the first of them.  `unread` are the
bytes from `read_index_` on and `feed` is the memory as a segmented input.
Every operation keeps `WF` and acts on `feed` as the operation of that name
does; `get_some` finds the unread bytes of one block as long as the offset is
one that the comparison with `int` keeps (`getSome_eq_unread`).
-/

namespace Hcpp

open MemBlock

/-- The blocks are non-empty and follow one another from offset `b` to `e`. -/
def Chain : Nat → List MemBlock → Nat → Prop
  | b, [], e => b = e
  | b, c :: cs, e => c.begin_ = b ∧ c.data ≠ [] ∧ Chain c.end_ cs e

/-- The bytes of the blocks. -/
def blockText (bs : List MemBlock) : List Char := bs.flatMap MemBlock.data

@[simp] theorem blockText_nil : blockText [] = [] := rfl

@[simp] theorem blockText_cons (c : MemBlock) (cs : List MemBlock) :
    blockText (c :: cs) = c.data ++ blockText cs := rfl

@[simp] theorem blockText_append (bs cs : List MemBlock) :
    blockText (bs ++ cs) = blockText bs ++ blockText cs := by
  simp [blockText]

theorem Chain.length {b e : Nat} {bs : List MemBlock} (h : Chain b bs e) :
    b + (blockText bs).length = e := by
  induction bs generalizing b with
  | nil => exact h
  | cons c cs ih =>
    obtain ⟨rfl, -, h⟩ := h
    have hlen := ih h
    unfold end_ at hlen
    rw [blockText_cons, List.length_append]
    omega

theorem Chain.append {b e : Nat} {bs : List MemBlock} {r : List Char} (h : Chain b bs e)
    (hr : r ≠ []) : Chain b (bs ++ [⟨e, r⟩]) (e + r.length) := by
  induction bs generalizing b with
  | nil =>
    obtain rfl : b = e := h
    exact ⟨rfl, hr, rfl⟩
  | cons c cs ih => exact ⟨h.1, h.2.1, ih h.2.2⟩

/-- A block at the end of the chain is new to the set. -/
theorem Chain.emplace {b e : Nat} {bs : List MemBlock} {r : List Char} (h : Chain b bs e) :
    MemBlock.emplace ⟨e, r⟩ bs = (⟨e, r⟩, bs ++ [⟨e, r⟩]) := by
  induction bs generalizing b with
  | nil => rfl
  | cons c cs ih =>
    obtain ⟨rfl, hc, h⟩ := h
    have hlen := h.length
    have hpos := List.length_pos_of_ne_nil hc
    unfold end_ at hlen
    rw [MemBlock.emplace, if_neg (by simp only; omega), if_pos (by simp only; omega), ih h]
    rfl

/-- Erasing what lies before offset `r` of the chain keeps the bytes from `r` on. -/
theorem Chain.erase {b e r : Nat} {bs : List MemBlock} (h : Chain b bs e) (hb : b ≤ r)
    (hr : r ≤ e) :
    ∃ b' bs', (bs.dropWhile fun i => decide (i.begin_ + i.data.length ≤ r)) = bs' ∧
      Chain b' bs' e ∧ b' ≤ r ∧ (bs' = [] → b' = r) ∧ (∀ c cs, bs' = c :: cs → r < c.end_) ∧
      (blockText bs').drop (r - b') = (blockText bs).drop (r - b) := by
  induction bs generalizing b with
  | nil =>
    obtain rfl : b = e := h
    exact ⟨b, [], rfl, rfl, hb, fun _ => by omega, by simp, by simp⟩
  | cons c cs ih =>
    obtain ⟨rfl, hc, h⟩ := h
    by_cases hle : c.end_ ≤ r
    · obtain ⟨b', bs', hbs, hch, hb', hnil, hcons, htext⟩ := ih h hle
      refine ⟨b', bs', ?_, hch, hb', hnil, hcons, ?_⟩
      · rw [List.dropWhile_cons_of_pos (by simpa [end_] using hle), hbs]
      · have hlen : c.data.length ≤ r - c.begin_ := by
          unfold end_ at hle
          omega
        rw [htext, blockText_cons, List.drop_append, List.drop_eq_nil_of_le hlen, List.nil_append]
        congr 1
        unfold end_
        omega
    · refine ⟨c.begin_, c :: cs, ?_, ⟨rfl, hc, h⟩, hb, by simp, ?_, rfl⟩
      · rw [List.dropWhile_cons_of_neg (by simpa [end_] using hle)]
      · rintro d ds hd
        obtain ⟨rfl, rfl⟩ := List.cons.inj hd
        omega

theorem narrow_of_lt {n : Nat} (h : n < 2 ^ 31) : narrow n = n := by
  unfold narrow
  rw [Nat.mod_eq_of_lt (by omega), if_pos h]

namespace Memory

/-- The offset of the first block. -/
def base (m : Memory) : Nat :=
  match m.buffs with
  | [] => m.readIndex
  | c :: _ => c.begin_

/-- The representation invariant. -/
structure WF (m : Memory) : Prop where
  chain : Chain m.base m.buffs m.writeIndex
  base_le : m.base ≤ m.readIndex
  inFirst : ∀ c cs, m.buffs = c :: cs → m.readIndex < c.end_

/-- The bytes from `read_index_` on. -/
def unread (m : Memory) : List Char := (blockText m.buffs).drop (m.readIndex - m.base)

/-- The memory as a segmented input. -/
def feed (m : Memory) : Feed Char := ⟨m.unread, m.incoming⟩

/-- The bytes still to be consumed: unread, and still to come. -/
def stream (m : Memory) : List Char := m.unread ++ m.incoming.flatten

/-- What the buffer operations leave alone: the flags and the peer's side. -/
def frame (m : Memory) : SockKind × Bool × Bool × Bool × Option Nat × List Char :=
  (m.kind, m.readOk, m.writeOk, m.closed, m.room, m.written)

/-- `r` behind the blocks: what a load does to a well-formed memory. -/
@[simps] def append (m : Memory) (r : List Char) (incoming : List (List Char)) : Memory :=
  { m with
    buffs := m.buffs ++ [⟨m.writeIndex, r⟩]
    writeIndex := m.writeIndex + r.length
    incoming := incoming }

theorem WF.length {m : Memory} (h : m.WF) : m.readIndex + m.unread.length = m.writeIndex := by
  have hlen := h.chain.length
  have hle := h.base_le
  unfold unread
  rw [List.length_drop]
  cases hb : m.buffs with
  | nil =>
    have hbase : m.base = m.readIndex := by simp [base, hb]
    rw [hb] at hlen
    simp only [blockText_nil, List.length_nil] at hlen ⊢
    omega
  | cons c cs =>
    have hin := h.inFirst c cs hb
    have hbase : m.base = c.begin_ := by simp [base, hb]
    rw [hb, blockText_cons, List.length_append] at hlen
    rw [blockText_cons, List.length_append]
    unfold end_ at hin
    omega

theorem wf_fresh (kind : SockKind) (incoming : List (List Char)) (room : Option Nat) :
    (fresh kind incoming room).WF where
  chain := rfl
  base_le := Nat.le_refl _
  inFirst := by rintro c cs h; cases h

theorem wf_reset (m : Memory) : m.reset.WF where
  chain := rfl
  base_le := Nat.le_refl _
  inFirst := by rintro c cs h; cases h

@[simp] theorem unread_reset (m : Memory) : m.reset.unread = [] := rfl

theorem store_eq {m : Memory} (h : m.WF) (r : List Char) (incoming : List (List Char)) :
    m.store r incoming = (m.append r incoming, r) := by
  unfold store
  rw [h.chain.emplace]
  rfl

theorem base_append {m : Memory} (h : m.WF) (r : List Char) (incoming : List (List Char)) :
    (m.append r incoming).base = m.base := by
  unfold base
  cases hb : m.buffs with
  | nil =>
    have hlen := h.length
    simp [append, hb, unread] at hlen ⊢
    exact hlen.symm
  | cons c cs => simp [append, hb]

theorem WF.append {m : Memory} (h : m.WF) {r : List Char} (hr : r ≠ [])
    (incoming : List (List Char)) : (m.append r incoming).WF where
  chain := by
    rw [base_append h]
    exact h.chain.append hr
  base_le := by
    rw [base_append h]
    exact h.base_le
  inFirst := by
    intro c cs hc
    cases hb : m.buffs with
    | nil =>
      have hlen := h.length
      have hpos := List.length_pos_of_ne_nil hr
      simp only [append_buffs, hb, List.nil_append, List.cons.injEq] at hc
      obtain ⟨rfl, -⟩ := hc
      simp only [append_readIndex, end_]
      omega
    | cons d ds =>
      simp only [append_buffs, hb, List.cons_append, List.cons.injEq] at hc
      obtain ⟨rfl, -⟩ := hc
      exact h.inFirst d ds hb

theorem unread_append {m : Memory} (h : m.WF) (r : List Char) (incoming : List (List Char)) :
    (m.append r incoming).unread = m.unread ++ r := by
  have hlen := h.chain.length
  have hread := h.length
  unfold unread at hread ⊢
  rw [List.length_drop] at hread
  rw [base_append h, append_buffs, append_readIndex, blockText_append,
    List.drop_append_of_le_length (by have := h.base_le; omega)]
  simp

/-- A load of at most `maxN` bytes when some are still to come. -/
theorem readSome_of_pull {m : Memory} (h : m.WF) {maxN : Nat} {r : List Char}
    {incoming : List (List Char)} (hp : Feed.pull maxN m.incoming = some (r, incoming)) :
    m.readSome maxN = (m.append r incoming, r) := by
  simp only [readSome, hp, store_eq h]

theorem readSome_of_closed {m : Memory} {maxN : Nat} (hp : m.incoming.flatten = []) :
    m.readSome maxN = ({ m with readOk := false }, []) := by
  simp only [readSome, Feed.pull_eq_none_iff.mpr hp]

/-- A load until `d` when `d` is still to come. -/
theorem asyncLoadUntil_of_pull {m : Memory} (h : m.WF) {d r : List Char} {n : Nat}
    {incoming : List (List Char)} (hd : d.length ≤ 512) (hd0 : d ≠ [])
    (hp : Feed.pullUntil d [] m.incoming = some (r, n, incoming)) :
    m.asyncLoadUntil d = .ret (m.append r incoming, r.take n) := by
  have hn : n ≠ 0 := by
    obtain ⟨-, i, -, rfl⟩ := Feed.pullUntil_spec hp
    have := List.length_pos_of_ne_nil hd0
    omega
  simp only [asyncLoadUntil, if_neg (Nat.not_lt.mpr hd), hp, if_neg hn, store_eq h]

theorem asyncLoadUntil_of_none {m : Memory} {d : List Char} (hd : d.length ≤ 512)
    (hp : Feed.pullUntil d [] m.incoming = none) :
    m.asyncLoadUntil d = .ret ({ m with readOk := false, incoming := [] }, []) := by
  simp only [asyncLoadUntil, if_neg (Nat.not_lt.mpr hd), hp]

theorem removeSome_spec {m : Memory} (h : m.WF) {n : Nat} (hn : n ≤ m.unread.length) :
    (m.removeSome n).WF ∧ (m.removeSome n).unread = m.unread.drop n := by
  have hle := h.base_le
  have hlen := h.length
  obtain ⟨b', bs', hbs, hch, hb', hnil, hcons, htext⟩ :=
    h.chain.erase (r := m.readIndex + n) (by omega) (by omega)
  have hbase : (m.removeSome n).base = b' := by
    simp only [base, removeSome, hbs]
    cases bs' with
    | nil => exact (hnil rfl).symm
    | cons c cs => exact hch.1
  refine ⟨⟨?_, ?_, ?_⟩, ?_⟩
  · rw [hbase]
    simpa only [removeSome, hbs] using hch
  · rw [hbase]
    exact hb'
  · simpa only [removeSome, hbs] using hcons
  · unfold unread
    rw [hbase]
    simp only [removeSome, hbs, htext, List.drop_drop]
    congr 1
    omega

/-- What is loaded into an empty buffer and removed again leaves it empty. -/
theorem append_removeSome {m : Memory} (h : m.WF) (hu : m.unread = []) {r : List Char}
    (hr : r ≠ []) (incoming : List (List Char)) :
    ((m.append r incoming).removeSome r.length).WF ∧
      ((m.append r incoming).removeSome r.length).unread = [] := by
  have hua : (m.append r incoming).unread = r := by
    rw [unread_append h, hu, List.nil_append]
  obtain ⟨hwf, hu'⟩ := removeSome_spec (h.append hr incoming) (n := r.length) (by rw [hua])
  rw [hua, List.drop_length] at hu'
  exact ⟨hwf, hu'⟩

theorem mergeSome_spec {m : Memory} (h : m.WF) :
    m.mergeSome.WF ∧ m.mergeSome.unread = m.unread ∧ m.mergeSome.buffs.length ≤ 1 ∧
      m.mergeSome.readIndex = m.readIndex ∧ m.mergeSome.writeIndex = m.writeIndex := by
  unfold mergeSome
  split
  · rename_i b c cs hb
    have hbase : m.base = b.begin_ := by simp [base, hb]
    have hin := h.inFirst b (c :: cs) hb
    have hch := h.chain
    rw [hb, hbase] at hch
    refine ⟨⟨?_, ?_, ?_⟩, ?_, by simp, rfl, rfl⟩
    · refine ⟨rfl, ?_, ?_⟩
      · have hne := hch.2.1
        intro hnil
        simp only [List.flatMap_cons, List.append_eq_nil_iff] at hnil
        exact hne hnil.1
      · exact hch.length
    · have hle := h.base_le
      rw [hbase] at hle
      exact hle
    · rintro d ds hd
      obtain ⟨rfl, rfl⟩ := List.cons.inj hd
      simp only [end_, List.flatMap_cons, List.length_append] at hin ⊢
      omega
    · simp only [unread, base, hb, blockText, List.flatMap_cons, List.flatMap_nil, List.append_nil]
  · rename_i hno
    refine ⟨h, rfl, ?_, rfl, rfl⟩
    cases hb : m.buffs with
    | nil => simp
    | cons b bs =>
      cases bs with
      | nil => simp
      | cons c cs => exact absurd hb (hno b c cs)

/-- `get_some` gives the rest of the first block. -/
theorem getSome_eq {m : Memory} (h : m.WF) (hs : m.readIndex < 2 ^ 31) :
    m.getSome = match m.buffs with
      | [] => []
      | c :: _ => c.data.drop (m.readIndex - c.begin_) := by
  unfold getSome MemBlock.find
  rw [narrow_of_lt hs]
  cases hb : m.buffs with
  | nil => rfl
  | cons c cs =>
    have hin := h.inFirst c cs hb
    have hle := h.base_le
    have hbase : m.base = c.begin_ := by simp [base, hb]
    rw [hbase] at hle
    have hlt : c.ltKey m.readIndex = false := by
      unfold end_ at hin
      simpa [ltKey] using hin
    have hkey : keyLt m.readIndex c = false := by simpa [keyLt] using hle
    simp [hlt, hkey]

theorem getSome_eq_unread {m : Memory} (h : m.WF) (hs : m.readIndex < 2 ^ 31)
    (hb : m.buffs.length ≤ 1) : m.getSome = m.unread := by
  rw [getSome_eq h hs]
  unfold unread base
  match hm : m.buffs, hb with
  | [], _ => simp
  | [c], _ => simp

theorem WF.buffs_eq_nil {m : Memory} (h : m.WF) (hu : m.unread = []) : m.buffs = [] := by
  cases hb : m.buffs with
  | nil => rfl
  | cons c cs =>
    have hlen := h.length
    have hch := h.chain.length
    have hin := h.inFirst c cs hb
    have hbase : m.base = c.begin_ := by simp [base, hb]
    rw [hb, blockText_cons, List.length_append] at hch
    rw [hu, List.length_nil] at hlen
    unfold end_ at hin
    omega

/-- The memory is well formed, represents `f`, and the offsets of all the bytes
of `f` are ones that the comparison with `int` keeps. -/
structure Represents (m : Memory) (f : Feed Char) : Prop where
  wf : m.WF
  feed : m.feed = f
  small : m.readIndex + f.bytes.length < 2 ^ 31

namespace Represents

variable {m : Memory} {f : Feed Char}

theorem unread (h : m.Represents f) : m.unread = f.cached := congrArg Feed.cached h.feed

theorem incoming (h : m.Represents f) : m.incoming = f.segs := congrArg Feed.segs h.feed

theorem stream (h : m.Represents f) : m.stream = f.bytes := congrArg Feed.bytes h.feed

theorem readIndex_lt (h : m.Represents f) : m.readIndex < 2 ^ 31 := by
  have := h.small
  omega

/-- One read that brings `r`. -/
theorem load (h : m.Represents f) {maxN : Nat} (hmax : 0 < maxN) {r : List Char}
    {segs : List (List Char)} (hp : Feed.pull maxN f.segs = some (r, segs)) :
    ∃ m', m.readSome maxN = (m', r) ∧ m'.Represents ⟨f.cached ++ r, segs⟩ ∧
      m'.frame = m.frame := by
  rw [← h.incoming] at hp
  refine ⟨m.append r segs, readSome_of_pull h.wf hp,
    ⟨h.wf.append (Feed.ne_nil_of_pull hmax hp) _, ?_, ?_⟩, rfl⟩
  · rw [Memory.feed, unread_append h.wf, h.unread, append_incoming]
  · have hbytes : (Feed.mk (f.cached ++ r) segs).bytes = f.bytes := by
      rw [Feed.bytes, Feed.bytes, List.append_assoc, Feed.flatten_of_pull hp, h.incoming]
    rw [hbytes]
    exact h.small

/-- One load up to `d`, which brings `r`. -/
theorem loadUntil (h : m.Represents f) {d r : List Char} {n : Nat} {segs : List (List Char)}
    (hd : d.length ≤ 512) (hd0 : d ≠ []) (hp : Feed.pullUntil d [] f.segs = some (r, n, segs)) :
    ∃ m', m.asyncLoadUntil d = .ret (m', r.take n) ∧ m'.Represents ⟨f.cached ++ r, segs⟩ ∧
      m'.frame = m.frame := by
  obtain ⟨hflat, i, hi, -⟩ := Feed.pullUntil_spec hp
  rw [List.nil_append] at hflat
  have hr : r ≠ [] := by
    have hle := Search.find_add_length_le hi
    have hpos := List.length_pos_of_ne_nil hd0
    rintro rfl
    rw [List.length_nil] at hle
    omega
  rw [← h.incoming] at hp
  refine ⟨m.append r segs, asyncLoadUntil_of_pull h.wf hd hd0 hp, ⟨h.wf.append hr _, ?_, ?_⟩, rfl⟩
  · rw [Memory.feed, unread_append h.wf, h.unread, append_incoming]
  · have hbytes : (Feed.mk (f.cached ++ r) segs).bytes = f.bytes := by
      rw [Feed.bytes, Feed.bytes, List.append_assoc, hflat]
    rw [hbytes]
    exact h.small

theorem remove (h : m.Represents f) {n : Nat} (hn : n ≤ f.cached.length) :
    (m.removeSome n).Represents ⟨f.cached.drop n, f.segs⟩ ∧ (m.removeSome n).frame = m.frame := by
  rw [← h.unread] at hn
  obtain ⟨hwf, hu⟩ := removeSome_spec h.wf hn
  refine ⟨⟨hwf, ?_, ?_⟩, rfl⟩
  · rw [Memory.feed, hu, h.unread, ← h.incoming]
    rfl
  · have hsmall := h.small
    rw [h.unread] at hn
    rw [Feed.bytes, List.length_append] at hsmall ⊢
    rw [List.length_drop]
    simp only [removeSome]
    omega

/-- After `merge_some` the first block is all that is cached. -/
theorem merge (h : m.Represents f) :
    m.mergeSome.Represents f ∧ m.mergeSome.getSome = f.cached ∧ m.mergeSome.frame = m.frame ∧
      m.mergeSome.buffs.length ≤ 1 := by
  obtain ⟨hwf, hu, hb, hr, -⟩ := mergeSome_spec h.wf
  have hinc : m.mergeSome.incoming = m.incoming := by
    unfold mergeSome
    split <;> rfl
  have hfr : m.mergeSome.frame = m.frame := by
    unfold mergeSome
    split <;> rfl
  refine ⟨⟨hwf, ?_, ?_⟩, ?_, hfr, hb⟩
  · rw [Memory.feed, hu, hinc]
    exact h.feed
  · rw [hr]
    exact h.small
  · rw [getSome_eq_unread hwf (by rw [hr]; exact h.readIndex_lt) hb, hu, h.unread]

theorem getSome (h : m.Represents f) (hb : m.buffs.length ≤ 1) : m.getSome = f.cached := by
  rw [getSome_eq_unread h.wf h.readIndex_lt hb, h.unread]

theorem buffs_eq_nil (h : m.Represents f) (hf : f.cached = []) : m.buffs = [] :=
  h.wf.buffs_eq_nil (h.unread.trans hf)

end Represents

theorem represents_fresh (kind : SockKind) (incoming : List (List Char)) (room : Option Nat)
    (h : incoming.flatten.length < 2 ^ 31) :
    (fresh kind incoming room).Represents ⟨[], incoming⟩ where
  wf := wf_fresh kind incoming room
  feed := rfl
  small := by
    show 0 + ([] ++ incoming.flatten).length < 2 ^ 31
    simpa using h

/-- What a peer with room for everything takes. -/
def took (m : Memory) (s : List Char) : Memory := { m with written := m.written ++ s }

theorem asyncWriteAll_eq_took {m : Memory} (h : m.room = none) {s : List Char} (hs : s ≠ []) :
    m.asyncWriteAll s = m.took s := by
  unfold asyncWriteAll send took
  rw [h]
  cases m.kind <;> simp [hs]

@[simp] theorem took_took (m : Memory) (s t : List Char) : (m.took s).took t = m.took (s ++ t) := by
  simp [took]

@[simp] theorem took_nil (m : Memory) : m.took [] = m := by
  simp [took]

@[simp] theorem took_room (m : Memory) (s : List Char) : (m.took s).room = m.room := rfl

@[simp] theorem took_written (m : Memory) (s : List Char) :
    (m.took s).written = m.written ++ s := rfl

end Memory

end Hcpp
