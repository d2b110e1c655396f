import Hcpp.Mem.CountedTransfer
import Hcpp.Mem.KmpSearch

/-!
# What the two transfers move

`transferMem_spec`: a counted transfer out of a memory that represents `f`
writes the next `total` bytes and leaves `f.skip total`.

`transfer_mem_until` is right in some cases only.  When the pattern is cached it
writes the whole cache (`transferMemUntil_cached`).  When it is not, the search
for it goes on over the later reads as long as each read that does not complete
it ends close behind the start of the last match attempt (`Reads`); then exactly
the bytes up to the first occurrence are written (`transferMemUntil_reads`), and
otherwise it returns too early (`transferMemUntil_short`).
-/

namespace Hcpp

open Memory

variable {from_ to_ : Memory} {f : Feed Char}

theorem length_buffs_removeSome (m : Memory) (n : Nat) :
    (m.removeSome n).buffs.length ≤ m.buffs.length :=
  (List.dropWhile_suffix _).length_le

/-- A target with room for everything takes the pieces as one. -/
theorem takes_eq_took {ws : List (List Char)} (hroom : to_.room = none) (hws : ∀ w ∈ ws, w ≠ []) :
    to_.takes ws = to_.took ws.flatten := by
  induction ws generalizing to_ with
  | nil => exact (took_nil to_).symm
  | cons w ws ih =>
    have hw := asyncWriteAll_eq_took hroom (hws w List.mem_cons_self)
    have hrest : ∀ v ∈ ws, v ≠ [] := fun v hv => hws v (List.mem_cons_of_mem _ hv)
    have hroom' : (to_.took w).room = none := hroom
    rw [takes_cons, hw, ih hroom' hrest, took_took, List.flatten_cons]

/-- **A counted transfer** writes the next `total` bytes and leaves the rest. -/
theorem transferMem_spec (h : from_.Represents f) (hroom : to_.room = none) (total fuel : Nat)
    (hlen : total ≤ f.bytes.length) (hfuel : total < fuel) :
    ∃ from', transferMem fuel from_ to_ total =
        .ret (from', to_.took (f.bytes.take total), total) ∧
      from'.Represents (f.skip total) ∧ from'.frame = from_.frame ∧ from'.buffs.length ≤ 1 := by
  obtain ⟨hrep, hget, -⟩ := h.merge
  have hlen' : total ≤ from_.stream.length := by
    rw [h.stream]
    exact hlen
  have hsmall := h.small
  have hreads : ∀ r ∈ transferReads fuel from_ total, r.maxN ≤ maxSize := fun r hr =>
    (maxN_le_total hr).trans (by unfold maxSize; omega)
  obtain ⟨from', ws, ht⟩ := transferMem_exact h.wf (hget.trans h.unread.symm) hlen' hreads hfuel
  have hone : from'.buffs.length ≤ 1 := by
    have hmerged := ht.merged
    unfold mergeSomeSize at hmerged
    by_contra hmany
    rw [if_neg hmany] at hmerged
    -- two blocks or more have bytes
    have hlaid := ht.wf.chain
    match hb : from'.buffs with
    | [] => simp [hb] at hmany
    | c :: cs =>
      rw [hb] at hmerged hlaid
      have hpos := List.length_pos_of_ne_nil hlaid.2.1
      rw [blockText_cons, List.length_append] at hmerged
      omega
  refine ⟨from', ?_, ⟨ht.wf, ht.rest.trans (congrArg _ h.feed), ?_⟩, ht.frame, hone⟩
  · rw [ht.returns, takes_eq_took hroom ht.pieces, ht.writes, h.stream]
  · rw [ht.offset, Feed.bytes_skip, List.length_drop]
    omega

/-! ## Up to a pattern -/

/-- A read of `s` whose last match attempt starts less than `m` before its end. -/
def Close (m : Nat) (s : List Char) (start : Int) : Prop :=
  start ≤ s.length ∧ s.length - start < m

instance (m : Nat) (s : List Char) (start : Int) : Decidable (Close m s start) :=
  inferInstanceAs (Decidable (_ ∧ _))

/-- The reads behind `prev`, which holds no match and left `matchIndex` at `mi`:
each one completes the pattern, or is `Close` and followed by such reads. -/
inductive Reads (pat : List Char) : List Char → Int → List (List Char) → Prop where
  | hit {prev s : List Char} {mi : Int} {segs segs' : List (List Char)}
      (hp : Feed.pull (1024 * 4) segs = some (s, segs')) (h : pat <:+: prev ++ s) :
      Reads pat prev mi segs
  | miss {prev s : List Char} {mi : Int} {segs segs' : List (List Char)}
      (hp : Feed.pull (1024 * 4) segs = some (s, segs')) (h : ¬ pat <:+: prev ++ s)
      (hc : Close pat.length s (Kmp.attempt pat prev s mi))
      (hr : Reads pat (prev ++ s) (Kmp.attempt pat prev s mi) segs') : Reads pat prev mi segs

/-- The test of the loop is `Close`: offsets that wrap are never close. -/
theorem close_iff {m : Nat} (s : List Char) (start : Int) (checked : Nat) (hm : m < 2 ^ 31)
    (hs : checked + s.length < 2 ^ 31) (h0 : -1 ≤ start) (h1 : start < 2 ^ 31) :
    toSizeT (s.length - (toInt32 (start + checked) - checked)) < m ↔ Close m s start := by
  unfold toSizeT Close toInt32
  rw [Int.bmod_def]
  omega

/-- The state at the top of the loop: `prev` is written, `somStr` is cached and
searched, and neither holds a match. -/
structure UntilInv (pat prev somStr : List Char) (segs : List (List Char)) (from_ to_ : Memory)
    (kmp : Kmp) : Prop where
  rep : from_.Represents ⟨somStr, segs⟩
  cached : somStr ≠ []
  room : to_.room = none
  fed : kmp.Fed pat (prev ++ somStr)
  mi_ge : -1 ≤ kmp.matchIndex
  mi_lt : kmp.matchIndex < (prev ++ somStr).length
  small : (prev ++ somStr ++ segs.flatten).length < 2 ^ 31
  pat_small : pat.length < 2 ^ 31
  pat_ne : pat ≠ []

/-- The cached bytes are removed and the next read is made. -/
theorem UntilInv.next_read {pat prev somStr s : List Char} {segs segs' : List (List Char)}
    {kmp : Kmp} (h : UntilInv pat prev somStr segs from_ to_ kmp)
    (hp : Feed.pull (1024 * 4) segs = some (s, segs')) :
    ∃ m, (from_.removeSome somStr.length).readSome (1024 * 4) = (m, s) ∧
      m.Represents ⟨s, segs'⟩ ∧ m.frame = from_.frame ∧
      prev.length + somStr.length + (s.length + segs'.flatten.length) < 2 ^ 31 := by
  have hsmall := h.small
  rw [← Feed.flatten_of_pull hp] at hsmall
  simp only [List.length_append] at hsmall
  obtain ⟨hrep, hfr⟩ := h.rep.remove (Nat.le_refl somStr.length)
  simp only [List.drop_length] at hrep
  obtain ⟨m, hm, hrepm, hfrm⟩ := hrep.load (by omega) hp
  rw [List.nil_append] at hrepm
  exact ⟨m, hm, hrepm, hfrm.trans hfr, hsmall⟩

/-- The next read completes the pattern: the bytes up to its end are written. -/
theorem untilLoop_hit {pat prev somStr s : List Char} {segs segs' : List (List Char)} {kmp : Kmp}
    {i fuel : Nat} (h : UntilInv pat prev somStr segs from_ to_ kmp)
    (hp : Feed.pull (1024 * 4) segs = some (s, segs'))
    (hi : Search.find pat (prev ++ somStr ++ s) = some i) :
    ∃ from' g, transferMemUntilLoop pat (fuel + 1) from_ (to_.took prev) kmp somStr prev.length
          prev.length =
        .ret (from', to_.took ((prev ++ somStr ++ s).take (i + pat.length)), i + pat.length) ∧
      from'.Represents g ∧ g.bytes = (prev ++ somStr ++ segs.flatten).drop (i + pat.length) ∧
      from'.frame = from_.frame := by
  have hflat := Feed.flatten_of_pull hp
  have hps := h.pat_small
  obtain ⟨m, hm, hrepm, hfrm, hsmall⟩ := h.next_read hp
  obtain ⟨kmp', hk⟩ := Kmp.search_hit h.fed h.pat_ne s
    (by rw [List.length_append]; omega) hi
  have hgt := Search.lt_of_find_append (Search.find_eq_none_iff.mpr h.fed.unmatched) hi
  have hle := Search.find_add_length_le hi
  simp only [List.length_append] at hgt hle
  have hnot : ¬ toSizeT (s.length - ((i : Int) - (prev.length + somStr.length : Nat))) <
      pat.length := by
    unfold toSizeT
    omega
  have hcount : toSizeT ((i : Int) - (prev.length + somStr.length : Nat) + pat.length) =
      i + pat.length - (prev.length + somStr.length) := by
    unfold toSizeT
    omega
  have htake : (prev ++ somStr ++ s).take (i + pat.length) =
      prev ++ somStr ++ s.take (i + pat.length - (prev.length + somStr.length)) := by
    rw [List.take_append, List.take_of_length_le (by rw [List.length_append]; omega),
      List.length_append]
  have hne : s.take (i + pat.length - (prev.length + somStr.length)) ≠ [] := by
    intro h0
    have := congrArg List.length h0
    rw [List.length_take, List.length_nil] at this
    omega
  have hkl : (s.take (i + pat.length - (prev.length + somStr.length))).length =
      i + pat.length - (prev.length + somStr.length) := by
    rw [List.length_take]
    omega
  obtain ⟨hrep', hfr'⟩ := hrepm.remove (n := i + pat.length - (prev.length + somStr.length))
    (by show _ ≤ s.length; omega)
  refine ⟨_, _, ?_, hrep', ?_, hfr'.trans hfrm⟩
  · rw [transferMemUntilLoop, asyncLoadSome_page]
    simp only [hm, hk, Outcome.ret_bind, hcount, if_neg hnot, hkl]
    rw [asyncWriteAll_eq_took (by exact h.room) h.cached, took_took,
      asyncWriteAll_eq_took (by exact h.room) hne, took_took, htake,
      show prev.length + somStr.length + (i + pat.length - (prev.length + somStr.length)) =
        i + pat.length by omega]
  · have hd : (prev ++ somStr).drop (i + pat.length) = [] :=
      List.drop_eq_nil_of_le (by rw [List.length_append]; omega)
    rw [← hflat, ← List.append_assoc, List.drop_append_of_le_length (by simp; omega),
      List.drop_append, hd, List.nil_append, List.length_append]
    rfl

/-- The next read does not: the loop goes on when it is `Close`, and leaves otherwise. -/
theorem untilLoop_miss {pat prev somStr s : List Char} {segs segs' : List (List Char)} {kmp : Kmp}
    (fuel : Nat) (h : UntilInv pat prev somStr segs from_ to_ kmp)
    (hp : Feed.pull (1024 * 4) segs = some (s, segs'))
    (hno : ¬ pat <:+: prev ++ somStr ++ s) :
    ∃ m kmp', UntilInv pat (prev ++ somStr) s segs' m to_ kmp' ∧ m.frame = from_.frame ∧
      kmp'.matchIndex = Kmp.attempt pat (prev ++ somStr) s kmp.matchIndex ∧
      (Close pat.length s kmp'.matchIndex →
        transferMemUntilLoop pat (fuel + 1) from_ (to_.took prev) kmp somStr prev.length
            prev.length =
          transferMemUntilLoop pat fuel m (to_.took (prev ++ somStr)) kmp' s
            (prev ++ somStr).length (prev ++ somStr).length) ∧
      (¬ Close pat.length s kmp'.matchIndex →
        ∃ from' to' n, transferMemUntilLoop pat (fuel + 1) from_ (to_.took prev) kmp somStr
            prev.length prev.length = .ret (from', to', n) ∧
          n ≤ (prev ++ somStr ++ s).length) := by
  obtain ⟨m, hm, hrepm, hfrm, hsmall⟩ := h.next_read hp
  obtain ⟨kmp', hk, hfed, hmi⟩ := Kmp.search_miss h.fed h.pat_ne s
    (by rw [List.length_append]; omega) hno
  have hlt := h.mi_lt
  rw [List.length_append] at hlt
  obtain ⟨hlo, hhi⟩ := Kmp.attempt_bounds pat (prev ++ somStr) s (b := prev.length + somStr.length +
    s.length) h.mi_ge (by omega) (by omega)
  have hclose := close_iff s (Kmp.attempt pat (prev ++ somStr) s kmp.matchIndex)
    (prev.length + somStr.length) h.pat_small (by omega) hlo (by omega)
  have hinv : UntilInv pat (prev ++ somStr) s segs' m to_ kmp' := by
    refine ⟨hrepm, Feed.ne_nil_of_pull (by omega) hp, h.room, hfed, by rw [hmi]; exact hlo, ?_, ?_,
      h.pat_small, h.pat_ne⟩
    · rw [hmi]
      simpa only [List.length_append] using hhi
    · simp only [List.length_append]
      omega
  refine ⟨m, kmp', hinv, hfrm, hmi, ?_, ?_⟩
  · intro hcl
    rw [hmi, ← hclose] at hcl
    rw [transferMemUntilLoop, asyncLoadSome_page]
    simp only [hm, hk, Outcome.ret_bind, List.length_append, if_pos hcl]
    rw [asyncWriteAll_eq_took (by exact h.room) h.cached, took_took]
  · intro hcl
    rw [hmi, ← hclose] at hcl
    rw [transferMemUntilLoop, asyncLoadSome_page]
    simp only [hm, hk, Outcome.ret_bind, List.length_append, if_neg hcl]
    refine ⟨_, _, _, rfl, ?_⟩
    rw [List.length_take]
    omega

/-- No read completes the pattern where none is to come. -/
theorem find_after_pull {pat t s : List Char} {segs segs' : List (List Char)} {i : Nat}
    (hp : Feed.pull (1024 * 4) segs = some (s, segs'))
    (hi : Search.find pat (t ++ segs.flatten) = some i) (hin : pat <:+: t ++ s) :
    Search.find pat (t ++ s) = some i := by
  obtain ⟨j, hj⟩ := Search.exists_find hin
  have hj' := Search.find_append_of_some (b := segs'.flatten) hj
  rw [List.append_assoc, Feed.flatten_of_pull hp, hi] at hj'
  rw [hj, ← hj']

/-- Reads of the right kind: the bytes up to the first occurrence are written. -/
theorem transferMemUntilLoop_reads {pat : List Char} :
    ∀ (fuel : Nat) (from_ to_ : Memory) (kmp : Kmp) (prev somStr : List Char)
      (segs : List (List Char)) (i : Nat), UntilInv pat prev somStr segs from_ to_ kmp →
      Reads pat (prev ++ somStr) kmp.matchIndex segs →
      Search.find pat (prev ++ somStr ++ segs.flatten) = some i →
      segs.flatten.length < fuel →
      ∃ from' g, transferMemUntilLoop pat fuel from_ (to_.took prev) kmp somStr prev.length
            prev.length =
          .ret (from', to_.took ((prev ++ somStr ++ segs.flatten).take (i + pat.length)),
            i + pat.length) ∧
        from'.Represents g ∧ g.bytes = (prev ++ somStr ++ segs.flatten).drop (i + pat.length) ∧
        from'.frame = from_.frame := by
  intro fuel
  induction fuel with
  | zero => intro _ _ _ _ _ _ _ _ _ _ hf; omega
  | succ fuel ih =>
    intro from_ to_ kmp prev somStr segs i h hreads hi hfuel
    cases hreads with
    | @hit _ s _ _ segs' hp hin =>
      have hfind := find_after_pull hp hi hin
      have hle := Search.find_add_length_le hfind
      have htake : (prev ++ somStr ++ segs.flatten).take (i + pat.length) =
          (prev ++ somStr ++ s).take (i + pat.length) := by
        rw [← Feed.flatten_of_pull hp, ← List.append_assoc, List.take_append_of_le_length hle]
      rw [htake]
      exact untilLoop_hit h hp hfind
    | @miss _ s _ _ segs' hp hno hc hr =>
      obtain ⟨m, kmp', hinv, hfr, hmi, hgo, -⟩ := untilLoop_miss fuel h hp hno
      have hflat := Feed.flatten_of_pull hp
      have hpos := List.length_pos_of_ne_nil (Feed.ne_nil_of_pull (by omega) hp)
      have hlen := congrArg List.length hflat
      rw [List.length_append] at hlen
      rw [← hmi] at hc hr
      rw [← hflat, ← List.append_assoc] at hi ⊢
      obtain ⟨from', g, heq, hrep, hbytes, hfr'⟩ := ih m to_ kmp' (prev ++ somStr) s segs' i hinv hr
        hi (by omega)
      exact ⟨from', g, by rw [hgo hc, heq], hrep, hbytes, by rw [hfr', hfr]⟩

/-- Otherwise the loop does not come back with that many bytes. -/
theorem transferMemUntilLoop_short {pat : List Char} :
    ∀ (fuel : Nat) (from_ to_ : Memory) (kmp : Kmp) (prev somStr : List Char)
      (segs : List (List Char)) (i : Nat), UntilInv pat prev somStr segs from_ to_ kmp →
      ¬ Reads pat (prev ++ somStr) kmp.matchIndex segs →
      Search.find pat (prev ++ somStr ++ segs.flatten) = some i →
      ∀ from' to' n, transferMemUntilLoop pat fuel from_ (to_.took prev) kmp somStr prev.length
        prev.length = .ret (from', to', n) → n < i + pat.length := by
  intro fuel
  induction fuel with
  | zero => intro _ _ _ _ _ _ _ _ _ _ _ _ _ h; cases h
  | succ fuel ih =>
    intro from_ to_ kmp prev somStr segs i h hreads hi from' to' n hret
    have hne : segs.flatten ≠ [] := by
      intro h0
      rw [h0, List.append_nil, Search.find_eq_none_iff.mpr h.fed.unmatched] at hi
      cases hi
    have hpull : ∃ s segs', Feed.pull (1024 * 4) segs = some (s, segs') := Feed.exists_pull hne
    obtain ⟨s, segs', hp⟩ := hpull
    have hflat := Feed.flatten_of_pull hp
    have hno : ¬ pat <:+: prev ++ somStr ++ s := fun hin => hreads (.hit hp hin)
    obtain ⟨m, kmp', hinv, -, hmi, hgo, hleave⟩ := untilLoop_miss fuel h hp hno
    rw [← hflat, ← List.append_assoc] at hi
    by_cases hc : Close pat.length s kmp'.matchIndex
    · rw [hgo hc] at hret
      refine ih m to_ kmp' (prev ++ somStr) s segs' i hinv ?_ hi from' to' n hret
      intro hr
      rw [hmi] at hr hc
      exact hreads (.miss hp hno hc hr)
    · obtain ⟨a, b, k, heq, hk⟩ := hleave hc
      rw [heq] at hret
      have hlt := Search.lt_of_find_append (Search.find_eq_none_iff.mpr hno) hi
      simp only [Outcome.ret.injEq, Prod.mk.injEq] at hret
      omega

/-- What the cached bytes and the later reads must be for `transfer_mem_until` to
go on to the first occurrence. -/
def ReadsOn (pat : List Char) (f : Feed Char) : Prop :=
  Close pat.length f.cached (Kmp.attempt pat [] f.cached (-1)) ∧
    Reads pat f.cached (Kmp.attempt pat [] f.cached (-1)) f.segs

/-- **The pattern is cached**: the whole cache is written. -/
theorem transferMemUntil_cached {pat : List Char} (fuel : Nat) (h : from_.Represents f)
    (hroom : to_.room = none) (hpat : pat ≠ []) (hin : pat <:+: f.cached) :
    ∃ from', transferMemUntil fuel from_ to_ pat =
        .ret (from', to_.took f.cached, f.cached.length) ∧
      from'.Represents ⟨[], f.segs⟩ ∧ from'.frame = from_.frame := by
  obtain ⟨hrep, hget, hfr, -⟩ := h.merge
  obtain ⟨hrep', hfr'⟩ := hrep.remove (Nat.le_refl _)
  rw [List.drop_length] at hrep'
  obtain ⟨i, hi⟩ := Search.exists_find hin
  have hle := Search.find_add_length_le hi
  have hsmall := h.small
  rw [Feed.bytes, List.length_append] at hsmall
  obtain ⟨kmp, hk, hfed, -⟩ := Kmp.make_spec hpat (by omega)
  obtain ⟨kmp', hs⟩ := Kmp.search_hit (p := i) hfed hpat f.cached (by simp; omega) hi
  have hne : f.cached ≠ [] := by
    rintro h0
    rw [h0, List.infix_nil] at hin
    exact hpat hin
  have hnot : ¬ toSizeT ((f.cached.length : Int) - (i : Int)) < pat.length := by
    unfold toSizeT
    omega
  refine ⟨_, ?_, hrep', by rw [hfr', hfr]⟩
  simp only [transferMemUntil, hget, hk, hs, Outcome.ret_bind]
  rw [if_neg (by omega), if_neg hnot, asyncWriteAll_eq_took hroom hne]

/-- The loop is entered when the cache ends inside an attempt. -/
theorem transferMemUntil_enter {pat : List Char} (fuel : Nat) (h : from_.Represents f)
    (hroom : to_.room = none) (hpat : pat ≠ []) (hps : pat.length < 2 ^ 31)
    (hno : ¬ pat <:+: f.cached) (hst : Kmp.lastStart pat [] f.cached ≠ none) :
    ∃ m kmp, UntilInv pat [] f.cached f.segs m to_ kmp ∧ m.frame = from_.frame ∧
      kmp.matchIndex = Kmp.attempt pat [] f.cached (-1) ∧
      (Close pat.length f.cached kmp.matchIndex → transferMemUntil fuel from_ to_ pat =
        transferMemUntilLoop pat fuel m (to_.took []) kmp f.cached 0 0) ∧
      (¬ Close pat.length f.cached kmp.matchIndex → ∃ from' to',
        transferMemUntil fuel from_ to_ pat = .ret (from', to', f.cached.length)) := by
  obtain ⟨hrep, hget, hfr, -⟩ := h.merge
  obtain ⟨kmp, hk, hfed, hm1⟩ := Kmp.make_spec hpat hps
  have hsmall := h.small
  rw [Feed.bytes, List.length_append] at hsmall
  obtain ⟨kmp', hs, hfed', hmi⟩ := Kmp.search_miss hfed hpat f.cached (by simp; omega) hno
  rw [hm1] at hs hmi
  obtain ⟨i, hi⟩ := Option.ne_none_iff_exists'.mp hst
  have hatt : Kmp.attempt pat [] f.cached (-1) = i := by rw [Kmp.attempt, hi]
  have hlt : i < f.cached.length := by
    have hmem := List.mem_of_find?_eq_some hi
    simpa using hmem
  have hne : f.cached ≠ [] := by
    rintro h0
    rw [h0] at hlt
    simp at hlt
  have hclose := close_iff f.cached (i : Int) 0 hps (by omega) (by omega) (by omega)
  have hp : toInt32 ((i : Int) + ([] : List Char).length) = i :=
    toInt32_of_small (by simp) (by simp; omega)
  have hval : toInt32 ((i : Int) + (0 : Nat)) = i := toInt32_of_small (by omega) (by omega)
  rw [hval, Int.ofNat_zero, Int.sub_zero] at hclose
  rw [hatt] at hs hmi
  rw [hp] at hs
  refine ⟨from_.mergeSome, kmp', ⟨hrep, hne, hroom, hfed', by omega, ?_, ?_, hps, hpat⟩, hfr,
    by rw [hmi, hatt], ?_, ?_⟩
  · rw [hmi, List.nil_append]
    omega
  · rw [List.nil_append, List.length_append]
    omega
  · intro hc
    rw [hmi, ← hclose] at hc
    simp only [transferMemUntil, hget, hk, hs, Outcome.ret_bind, took_nil]
    rw [if_neg (by omega), if_pos hc]
  · intro hc
    rw [hmi, ← hclose] at hc
    simp only [transferMemUntil, hget, hk, hs, Outcome.ret_bind]
    rw [if_neg (by omega), if_neg hc]
    exact ⟨_, _, rfl⟩

/-- **The pattern is not cached, and the reads are of the right kind**: the bytes
up to its first occurrence are written, and the others are left. -/
theorem transferMemUntil_reads {pat : List Char} {fuel i : Nat} (h : from_.Represents f)
    (hroom : to_.room = none) (hpat : pat ≠ []) (hno : ¬ pat <:+: f.cached)
    (hst : Kmp.lastStart pat [] f.cached ≠ none) (hi : Search.find pat f.bytes = some i)
    (hr : ReadsOn pat f) (hfuel : f.segs.flatten.length < fuel) :
    ∃ from' g, transferMemUntil fuel from_ to_ pat =
        .ret (from', to_.took (f.bytes.take (i + pat.length)), i + pat.length) ∧
      from'.Represents g ∧ g.bytes = f.bytes.drop (i + pat.length) ∧
      from'.frame = from_.frame := by
  have hle := Search.find_add_length_le hi
  have hsmall := h.small
  obtain ⟨m, kmp, hinv, hfr, hmi, hgo, -⟩ := transferMemUntil_enter fuel h hroom hpat
    (by omega) hno hst
  obtain ⟨hc, hreads⟩ := hr
  rw [← hmi] at hc hreads
  obtain ⟨from', g, heq, hrep, hbytes, hfr'⟩ := transferMemUntilLoop_reads fuel m to_ kmp []
    f.cached f.segs i hinv hreads hi hfuel
  exact ⟨from', g, by rw [hgo hc]; exact heq, hrep, hbytes, by rw [hfr', hfr]⟩

/-- **The pattern is not cached, and they are not**: fewer bytes are written, if
the call returns. -/
theorem transferMemUntil_short {pat : List Char} {fuel i : Nat} (h : from_.Represents f)
    (hroom : to_.room = none) (hpat : pat ≠ []) (hno : ¬ pat <:+: f.cached)
    (hst : Kmp.lastStart pat [] f.cached ≠ none) (hi : Search.find pat f.bytes = some i)
    (hr : ¬ ReadsOn pat f) {from' to' : Memory} {n : Nat}
    (hret : transferMemUntil fuel from_ to_ pat = .ret (from', to', n)) : n < i + pat.length := by
  have hle := Search.find_add_length_le hi
  have hsmall := h.small
  obtain ⟨m, kmp, hinv, -, hmi, hgo, hleave⟩ := transferMemUntil_enter fuel h hroom hpat
    (by omega) hno hst
  by_cases hc : Close pat.length f.cached kmp.matchIndex
  · rw [hgo hc] at hret
    refine transferMemUntilLoop_short fuel m to_ kmp [] f.cached f.segs i hinv ?_ hi
      from' to' n hret
    intro hreads
    rw [hmi] at hc hreads
    exact hr ⟨hc, hreads⟩
  · obtain ⟨a, b, heq⟩ := hleave hc
    rw [heq] at hret
    have hlt := Search.lt_of_find_append (Search.find_eq_none_iff.mpr hno) hi
    simp only [Outcome.ret.injEq, Prod.mk.injEq] at hret
    omega

end Hcpp
