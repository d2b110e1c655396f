import Hcpp.Mem.UntilExact

/-!
# When the two transfers end

The peer may close at any point.  From then on every read is empty, and a loop
that waits for more bytes goes on for ever.  `transferMem_ends_iff`: a counted
transfer ends if and only if all its bytes come, or so many are missing that no
string holds them (`Oversized`): then its first read throws.
`transferMemUntil_ends_iff`: a transfer up to a pattern that is never completed
ends unless `Stalls` holds: no read left the loop, and the last match attempt
began with the first byte of its read.
-/

namespace Hcpp

open Memory

/-- With some fuel the run returns or throws. -/
def Ends {α : Type} (g : Nat → Outcome α) : Prop := ∃ fuel, g fuel ≠ .spins ∧ g fuel ≠ .undefined

/-- Whether a run that only writes to `to_` ends does not depend on it. -/
theorem Writes.stops {α γ : Type} {mk : α → Memory → γ} {g : Memory → Outcome γ}
    (hg : Writes mk g) (t t' : Memory) (h : g t ≠ .spins ∧ g t ≠ .undefined) :
    g t' ≠ .spins ∧ g t' ≠ .undefined := by
  obtain ⟨out, hout⟩ := hg
  rw [hout] at h ⊢
  cases out with
  | ret x => simp
  | throws => simp
  | spins => simp at h
  | undefined => simp at h

variable {from_ to_ : Memory} {f : Feed Char} {pat : List Char}

/-! ## A counted transfer -/

/-- A read of a closed peer changes nothing that is read. -/
theorem closed_read {m : Memory} (h : m.WF) (hu : m.unread = []) :
    (({ m with readOk := false } : Memory).removeSome 0).WF ∧
      (({ m with readOk := false } : Memory).removeSome 0).unread = [] := by
  have hwf : ({ m with readOk := false } : Memory).WF := ⟨h.chain, h.base_le, h.inFirst⟩
  have hu' : ({ m with readOk := false } : Memory).unread = [] := hu
  obtain ⟨h1, h2⟩ := removeSome_spec hwf (Nat.zero_le _)
  exact ⟨h1, by rw [h2, hu', List.drop_nil]⟩

/-- The loop goes on for ever when fewer bytes come than are missing. -/
theorem transferMemLoop_spins {total : Nat} (fuel : Nat) (from_ to_ : Memory) (nx : Nat)
    (h : from_.WF) (hu : from_.unread = [])
    (hlen : nx + from_.incoming.flatten.length < total) (hmax : total - nx ≤ maxSize) :
    transferMemLoop total fuel from_ to_ nx = .spins := by
  induction fuel generalizing from_ to_ nx with
  | zero => rfl
  | succ fuel ih =>
    rw [transferMemLoop, if_pos (by omega), asyncLoadSome_of_le hmax, Outcome.ret_bind]
    cases hp : Feed.pull (total - nx) from_.incoming with
    | none =>
      obtain ⟨hwf', hu'⟩ := closed_read h hu
      rw [readSome_of_closed (Feed.pull_eq_none_iff.mp hp)]
      exact ih _ _ _ hwf' hu' hlen hmax
    | some x =>
      obtain ⟨r, incoming⟩ := x
      have hr := Feed.ne_nil_of_pull (by omega) hp
      obtain ⟨hwf', hu'⟩ := append_removeSome h hu hr incoming
      have hflat := congrArg List.length (Feed.flatten_of_pull hp)
      rw [List.length_append] at hflat
      rw [readSome_of_pull h hp]
      refine ih _ _ _ hwf' hu' ?_ (by omega)
      show nx + r.length + incoming.flatten.length < total
      omega

/-- More is missing behind the cache than a string can hold. -/
def Oversized (f : Feed Char) (total : Nat) : Prop := f.cached.length + maxSize < total

instance (f : Feed Char) (total : Nat) : Decidable (Oversized f total) :=
  inferInstanceAs (Decidable (_ < _))

/-- No such transfer has all its bytes. -/
theorem Oversized.length_lt {total : Nat} (hbig : Oversized f total) (h : from_.Represents f) :
    f.bytes.length < total := by
  have hsmall := h.small
  unfold Oversized maxSize at hbig
  omega

/-- A transfer of more than comes. -/
theorem transferMem_spins {total : Nat} (h : from_.Represents f) (hlen : f.bytes.length < total)
    (hmax : ¬ Oversized f total) (fuel : Nat) :
    transferMem fuel from_ to_ total = .spins := by
  obtain ⟨hrep, hget, -, -⟩ := h.merge
  unfold Oversized at hmax
  rw [Feed.bytes, List.length_append] at hlen
  unfold transferMem
  simp only [hget]
  by_cases h0 : 0 < f.cached.length
  · obtain ⟨hrep', -⟩ := hrep.remove (Nat.le_refl _)
    rw [List.drop_length] at hrep'
    rw [if_pos ⟨by omega, h0⟩, if_neg (by omega)]
    exact transferMemLoop_spins _ _ _ _ hrep'.wf hrep'.unread
      (by rw [hrep'.incoming]; exact hlen) (by omega)
  · rw [if_neg fun hc => h0 hc.2]
    have hnil : f.cached = [] := List.length_eq_zero_iff.mp (by omega)
    refine transferMemLoop_spins _ _ _ _ hrep.wf (hrep.unread.trans hnil) ?_ (by omega)
    rw [hrep.incoming]
    omega

/-- A transfer of more than a string can hold. -/
theorem transferMem_throws {total fuel : Nat} (h : from_.Represents f) (hbig : Oversized f total)
    (hfuel : 0 < fuel) : transferMem fuel from_ to_ total = .throws := by
  obtain ⟨-, hget, -, -⟩ := h.merge
  obtain ⟨k, rfl⟩ : ∃ k, fuel = k + 1 := ⟨fuel - 1, by omega⟩
  unfold Oversized at hbig
  have hloop : ∀ a b : Memory, ∀ nx, nx ≤ f.cached.length →
      transferMemLoop total (k + 1) a b nx = .throws := by
    intro a b nx hnx
    rw [transferMemLoop, if_pos (by omega), asyncLoadSome_of_gt (by omega), Outcome.throws_bind]
  unfold transferMem
  simp only [hget]
  by_cases h0 : 0 < f.cached.length
  · rw [if_pos ⟨by omega, h0⟩, if_neg (by omega)]
    exact hloop _ _ _ (Nat.le_refl _)
  · rw [if_neg fun hc => h0 hc.2]
    exact hloop _ _ _ (Nat.zero_le _)

/-- More fuel than a loop needs changes nothing. -/
theorem transferMemLoop_more {total : Nat} (k fuel : Nat) (from_ to_ : Memory) (nx : Nat)
    (h : transferMemLoop total fuel from_ to_ nx ≠ .spins) :
    transferMemLoop total (fuel + k) from_ to_ nx = transferMemLoop total fuel from_ to_ nx := by
  induction fuel generalizing from_ to_ nx with
  | zero => exact absurd rfl h
  | succ fuel ih =>
    rw [Nat.add_right_comm]
    rw [transferMemLoop] at h ⊢
    conv_rhs => rw [transferMemLoop]
    by_cases hlt : nx < total
    · rw [if_pos hlt] at h
      rw [if_pos hlt, if_pos hlt]
      by_cases hmax : total - nx ≤ maxSize
      · rw [asyncLoadSome_of_le hmax, Outcome.ret_bind] at h
        rw [asyncLoadSome_of_le hmax, Outcome.ret_bind, Outcome.ret_bind]
        exact ih _ _ _ h
      · rw [asyncLoadSome_of_gt (Nat.not_le.mp hmax), Outcome.throws_bind, Outcome.throws_bind]
    · rw [if_neg hlt, if_neg hlt]

theorem transferMem_more {total : Nat} (k : Nat) {fuel : Nat} {from_ to_ : Memory}
    (h : transferMem fuel from_ to_ total ≠ .spins) :
    transferMem (fuel + k) from_ to_ total = transferMem fuel from_ to_ total := by
  unfold transferMem at h ⊢
  by_cases hc : 0 < total ∧ 0 < from_.mergeSome.getSome.length
  · simp only [if_pos hc] at h ⊢
    exact transferMemLoop_more k fuel _ _ _ h
  · simp only [if_neg hc] at h ⊢
    exact transferMemLoop_more k fuel _ _ _ h

/-- **A counted transfer ends** if and only if that many bytes come, or its first read is
refused. -/
theorem transferMem_ends_iff (h : from_.Represents f) (to_ : Memory) (total : Nat) :
    Ends (fun fuel => transferMem fuel from_ to_ total) ↔
      total ≤ f.bytes.length ∨ Oversized f total := by
  constructor
  · rintro ⟨fuel, hspin, -⟩
    by_contra hno
    rw [not_or] at hno
    exact hspin (transferMem_spins h (Nat.not_le.mp hno.1) hno.2 fuel)
  · rintro (hle | hbig)
    · have hroom : (fresh .plain [] none).room = none := rfl
      obtain ⟨from', heq, -⟩ := transferMem_spec h hroom total (total + 1) hle (Nat.lt_succ_self _)
      refine ⟨total + 1, (writes_transferMem _ _ _).stops (fresh .plain [] none) to_ ?_⟩
      rw [heq]
      exact Outcome.ret_ends _
    · refine ⟨1, ?_⟩
      simp only [transferMem_throws h hbig (show 0 < 1 from Nat.one_pos)]
      exact Outcome.throws_ends

/-! ## A transfer up to a pattern -/

/-- The reads behind `prev`, to the last one, neither complete the pattern nor leave the
loop; and then neither does an empty read, which comes again and again. -/
inductive Stalls (pat : List Char) : List Char → Int → List (List Char) → Prop where
  | closed {prev : List Char} {mi : Int} {segs : List (List Char)} (h : segs.flatten = [])
      (hc : Close pat.length [] mi) : Stalls pat prev mi segs
  | miss {prev s : List Char} {mi : Int} {segs segs' : List (List Char)}
      (hp : Feed.pull (1024 * 4) segs = some (s, segs')) (h : ¬ pat <:+: prev ++ s)
      (hc : Close pat.length s (Kmp.attempt pat prev s mi))
      (hr : Stalls pat (prev ++ s) (Kmp.attempt pat prev s mi) segs') : Stalls pat prev mi segs

/-- The cached bytes end inside a match attempt, and no read gets the transfer out of it. -/
structure StallsUntil (pat : List Char) (f : Feed Char) : Prop where
  unmatched : ¬ pat <:+: f.cached
  attempted : ∃ c ∈ f.cached, pat.head? = some c
  close : Close pat.length f.cached (Kmp.attempt pat [] f.cached (-1))
  stalls : Stalls pat f.cached (Kmp.attempt pat [] f.cached (-1)) f.segs

/-- An empty read leaves the search where it was. -/
theorem search_empty {kmp : Kmp} {prev : List Char} (h : kmp.Fed pat prev) (hpat : pat ≠ [])
    (hs : prev.length < 2 ^ 31) :
    ∃ kmp', kmp.search [] = .ret (kmp', toInt32 (kmp.matchIndex + prev.length)) ∧
      kmp'.Fed pat prev ∧ kmp'.matchIndex = kmp.matchIndex := by
  have hatt : Kmp.attempt pat prev [] kmp.matchIndex = kmp.matchIndex := rfl
  obtain ⟨kmp', hk, hfed, hmi⟩ := Kmp.search_miss h hpat [] (by simpa using hs)
    (by rw [List.append_nil]; exact h.unmatched)
  rw [List.append_nil] at hfed
  rw [hatt] at hk hmi
  exact ⟨kmp', hk, hfed, hmi⟩

/-- Behind the last read the loop turns for ever when it does not leave at once. -/
theorem untilLoop_closed {kmp : Kmp} {prev somStr : List Char} {checked : Nat} (fuel : Nat)
    (from_ to_ : Memory) (n : Nat) (hin : from_.incoming.flatten = [])
    (h : kmp.Fed pat prev) (hlen : checked + somStr.length = prev.length) (hpat : pat ≠ [])
    (hps : pat.length < 2 ^ 31) (hs : prev.length < 2 ^ 31) (h0 : -1 ≤ kmp.matchIndex)
    (h1 : kmp.matchIndex < 2 ^ 31) (hc : Close pat.length [] kmp.matchIndex) :
    transferMemUntilLoop pat fuel from_ to_ kmp somStr checked n = .spins := by
  induction fuel generalizing from_ to_ kmp somStr checked n with
  | zero => rfl
  | succ fuel ih =>
    obtain ⟨kmp', hk, hfed, hmi⟩ := search_empty h hpat hs
    have hclose := close_iff [] kmp.matchIndex prev.length hps (by simpa using hs) h0 h1
    have hin' : (from_.removeSome somStr.length).incoming.flatten = [] := hin
    rw [transferMemUntilLoop, asyncLoadSome_page, readSome_of_closed hin']
    simp only [hk, Outcome.ret_bind, hlen, if_pos (hclose.mpr hc)]
    refine ih _ _ _ hin hfed (by simp) (by rw [hmi]; exact h0) (by rw [hmi]; exact h1) ?_
    rw [hmi]
    exact hc

/-- Behind the last read the loop leaves. -/
theorem untilLoop_leaves {kmp : Kmp} {prev somStr : List Char} {checked : Nat} (fuel : Nat)
    (from_ to_ : Memory) (n : Nat) (hin : from_.incoming.flatten = [])
    (h : kmp.Fed pat prev) (hlen : checked + somStr.length = prev.length) (hpat : pat ≠ [])
    (hps : pat.length < 2 ^ 31) (hs : prev.length < 2 ^ 31) (h0 : -1 ≤ kmp.matchIndex)
    (h1 : kmp.matchIndex < 2 ^ 31) (hc : ¬ Close pat.length [] kmp.matchIndex) :
    ∃ r, transferMemUntilLoop pat (fuel + 1) from_ to_ kmp somStr checked n = .ret r := by
  obtain ⟨kmp', hk, -, -⟩ := search_empty h hpat hs
  have hclose := close_iff [] kmp.matchIndex prev.length hps (by simpa using hs) h0 h1
  have hin' : (from_.removeSome somStr.length).incoming.flatten = [] := hin
  rw [transferMemUntilLoop, asyncLoadSome_page, readSome_of_closed hin']
  simp only [hk, Outcome.ret_bind, hlen, if_neg fun hcl => hc (hclose.mp hcl)]
  exact ⟨_, rfl⟩

/-- Reads that stall keep the loop turning; by induction on the fuel. -/
theorem untilLoop_spins (fuel : Nat) (from_ to_ : Memory) (kmp : Kmp) (prev somStr : List Char)
    (segs : List (List Char)) (h : UntilInv pat prev somStr segs from_ to_ kmp)
    (hr : Stalls pat (prev ++ somStr) kmp.matchIndex segs) :
    transferMemUntilLoop pat fuel from_ (to_.took prev) kmp somStr prev.length prev.length =
      .spins := by
  induction fuel generalizing from_ to_ kmp prev somStr segs with
  | zero => rfl
  | succ fuel ih =>
    have hsmall := h.small
    have hlt := h.mi_lt
    rw [List.length_append] at hsmall
    cases hr with
    | closed hin hc =>
      exact untilLoop_closed _ _ _ _ (by rw [h.rep.incoming]; exact hin) h.fed
        (List.length_append).symm h.pat_ne h.pat_small (by omega) h.mi_ge (by omega) hc
    | miss hp hno hc hr =>
      obtain ⟨m, kmp', hinv, -, hmi, hgo, -⟩ := untilLoop_miss fuel h hp hno
      rw [← hmi] at hc hr
      rw [hgo hc]
      exact ih _ _ _ _ _ _ hinv hr

/-- Reads that do not stall end it. -/
theorem untilLoop_ends (fuel : Nat) (from_ to_ : Memory) (kmp : Kmp) (prev somStr : List Char)
    (segs : List (List Char)) (h : UntilInv pat prev somStr segs from_ to_ kmp)
    (hr : ¬ Stalls pat (prev ++ somStr) kmp.matchIndex segs)
    (hfuel : segs.flatten.length < fuel) :
    ∃ r, transferMemUntilLoop pat fuel from_ (to_.took prev) kmp somStr prev.length
      prev.length = .ret r := by
  induction fuel generalizing from_ to_ kmp prev somStr segs with
  | zero => omega
  | succ fuel ih =>
    have hsmall := h.small
    have hlt := h.mi_lt
    rw [List.length_append] at hsmall
    by_cases hin : segs.flatten = []
    · exact untilLoop_leaves _ _ _ _ (by rw [h.rep.incoming]; exact hin) h.fed
        (List.length_append).symm h.pat_ne h.pat_small (by omega) h.mi_ge (by omega)
        fun hc => hr (.closed hin hc)
    · obtain ⟨s, segs', hp⟩ : ∃ s segs', Feed.pull (1024 * 4) segs = some (s, segs') :=
        Feed.exists_pull hin
      by_cases hhit : pat <:+: prev ++ somStr ++ s
      · obtain ⟨i, hi⟩ := Search.exists_find hhit
        obtain ⟨from', g, heq, -⟩ := untilLoop_hit h hp hi
        exact ⟨_, heq⟩
      · obtain ⟨m, kmp', hinv, -, hmi, hgo, hleave⟩ := untilLoop_miss fuel h hp hhit
        by_cases hc : Close pat.length s kmp'.matchIndex
        · have hflat := congrArg List.length (Feed.flatten_of_pull hp)
          have hpos := List.length_pos_of_ne_nil (Feed.ne_nil_of_pull (by omega) hp)
          rw [List.length_append] at hflat
          rw [hgo hc]
          refine ih _ _ _ _ _ _ hinv (fun hst => ?_) (by omega)
          rw [hmi] at hc hst
          exact hr (.miss hp hhit hc hst)
        · obtain ⟨a, b, n, heq, -⟩ := hleave hc
          exact ⟨_, heq⟩

/-- With nothing of the pattern cached, one load follows. -/
theorem transferMemUntil_uncached (fuel : Nat) (h : from_.Represents f) (hpat : pat ≠ [])
    (hps : pat.length < 2 ^ 31) (hno : ¬ pat <:+: f.cached)
    (hc : ∀ c ∈ f.cached, pat.head? ≠ some c) :
    transferMemUntil fuel from_ to_ pat ≠ .spins ∧
      transferMemUntil fuel from_ to_ pat ≠ .undefined := by
  obtain ⟨-, hget, -, -⟩ := h.merge
  obtain ⟨kmp, kmp', hk, hs⟩ := search_uncached h hpat hps hno hc
  simp only [transferMemUntil, hget, hk, hs, Outcome.ret_bind]
  rw [if_pos (by decide)]
  unfold asyncLoadUntil
  split
  · simp
  · split
    · simp
    · split
      · simp
      · simp

/-- Reads that stall keep the transfer from ending. -/
theorem transferMemUntil_spins (h : from_.Represents f) (hpat : pat ≠ [])
    (hps : pat.length < 2 ^ 31) (hst : StallsUntil pat f) (to_ : Memory) (fuel : Nat) :
    transferMemUntil fuel from_ to_ pat = .spins ∨
      transferMemUntil fuel from_ to_ pat = .undefined := by
  have hroom : (fresh .plain [] none).room = none := rfl
  by_contra hends
  rw [not_or] at hends
  obtain ⟨hspin, -⟩ := (writes_transferMemUntil fuel from_ pat).stops to_ (fresh .plain [] none)
    hends
  obtain ⟨m, kmp, hinv, -, hmi, hgo, -⟩ := transferMemUntil_enter fuel h hroom hpat hps
    hst.unmatched ((lastStart_cached hpat hst.unmatched).mpr hst.attempted)
  have hc := hst.close
  have hr := hst.stalls
  rw [← hmi] at hc hr
  exact hspin ((hgo hc).trans (untilLoop_spins fuel m _ kmp [] f.cached f.segs hinv hr))

/-- Reads that do not stall end it. -/
theorem transferMemUntil_stops (h : from_.Represents f) (hpat : pat ≠ [])
    (hps : pat.length < 2 ^ 31) (hst : ¬ StallsUntil pat f) (to_ : Memory) {fuel : Nat}
    (hfuel : f.segs.flatten.length < fuel) :
    transferMemUntil fuel from_ to_ pat ≠ .spins ∧
      transferMemUntil fuel from_ to_ pat ≠ .undefined := by
  have hroom : (fresh .plain [] none).room = none := rfl
  refine (writes_transferMemUntil _ from_ pat).stops (fresh .plain [] none) to_ ?_
  by_cases hin : pat <:+: f.cached
  · obtain ⟨m, hm, -, -⟩ := transferMemUntil_cached fuel h hroom hpat hin
    rw [hm]
    exact Outcome.ret_ends _
  by_cases hatt : ∃ c ∈ f.cached, pat.head? = some c
  · obtain ⟨m, kmp, hinv, -, hmi, hgo, hleave⟩ := transferMemUntil_enter fuel h hroom hpat hps hin
      ((lastStart_cached hpat hin).mpr hatt)
    have hret : ∃ r, transferMemUntil fuel from_ (fresh .plain [] none) pat = .ret r := by
      by_cases hc : Close pat.length f.cached kmp.matchIndex
      · rw [hgo hc]
        refine untilLoop_ends _ m _ kmp [] f.cached f.segs hinv (fun hr => ?_) hfuel
        rw [hmi] at hc hr
        exact hst ⟨hin, hatt, hc, hr⟩
      · obtain ⟨a, b, heq⟩ := hleave hc
        exact ⟨_, heq⟩
    obtain ⟨r, hr⟩ := hret
    rw [hr]
    exact Outcome.ret_ends _
  · exact transferMemUntil_uncached _ h hpat hps hin fun c hmem heq => hatt ⟨c, hmem, heq⟩

/-- **A transfer up to a pattern ends** if and only if the reads do not stall it. -/
theorem transferMemUntil_ends_iff (h : from_.Represents f) (to_ : Memory) (hpat : pat ≠ [])
    (hps : pat.length < 2 ^ 31) :
    Ends (fun fuel => transferMemUntil fuel from_ to_ pat) ↔ ¬ StallsUntil pat f := by
  constructor
  · rintro ⟨fuel, hspin, hundef⟩ hst
    rcases transferMemUntil_spins h hpat hps hst to_ fuel with heq | heq
    · exact hspin heq
    · exact hundef heq
  · intro hst
    exact ⟨_, transferMemUntil_stops h hpat hps hst to_ (Nat.lt_succ_self _)⟩

end Hcpp
