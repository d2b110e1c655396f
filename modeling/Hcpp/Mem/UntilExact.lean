import Hcpp.Mem.KmpStream
import Hcpp.Mem.TransferSpec

/-!
# When a transfer up to a pattern is exact

`transferMemUntil_exact_iff`: `transfer_mem_until` writes the bytes up to the end
of the first occurrence of the pattern to a target that has room for them, returns
their number and leaves the others, if and only if `UntilOk` holds of the cached
bytes, the reads to come and the kind of the target.  The three cases of `UntilOk`
are the three branches of the code, told apart by what is cached: the pattern, a
letter that begins it, or neither.
-/

namespace Hcpp

open Memory

variable {from_ to_ : Memory} {f : Feed Char} {pat : List Char} {i : Nat}

/-- With enough fuel the transfer returns: the target has been given the bytes up to the
end of the occurrence at `i`, and the others are left. -/
def MovesUntil (from_ to_ : Memory) (pat : List Char) (i : Nat) : Prop :=
  ∃ enough, ∀ fuel, enough ≤ fuel → ∃ from' to',
    transferMemUntil fuel from_ to_ pat = .ret (from', to', i + pat.length) ∧
    to'.written = to_.written ++ from_.stream.take (i + pat.length) ∧
    from'.stream = from_.stream.drop (i + pat.length)

/-- When the pattern is cached, nothing else is cached behind it; when a letter that
begins it is, the reads go on to it; when neither is, `async_load_until` takes it for a
delimiter, and the write of the cache does not shut the target down. -/
def UntilOk (pat : List Char) (f : Feed Char) (kind : SockKind) (i : Nat) : Prop :=
  if pat <:+: f.cached then i + pat.length = f.cached.length
  else if ∃ c ∈ f.cached, pat.head? = some c then ReadsOn pat f
  else pat.length ≤ 512 ∧ (kind = .ssl → f.cached ≠ [])

/-! ## Nothing of the pattern is cached -/

theorem lastStart_cached (hpat : pat ≠ []) (hno : ¬ pat <:+: f.cached) :
    Kmp.lastStart pat [] f.cached ≠ none ↔ ∃ c ∈ f.cached, pat.head? = some c := by
  rw [Ne, Kmp.lastStart_eq_none_iff hpat hno]
  push Not
  rfl

/-- Then the first occurrence lies in the bytes to come. -/
theorem find_uncached (hpat : pat ≠ []) (hc : ∀ c ∈ f.cached, pat.head? ≠ some c) :
    Search.find pat f.bytes =
      (Search.find pat f.segs.flatten).map (f.cached.length + ·) := by
  obtain ⟨a, rest, rfl⟩ := List.exists_cons_of_ne_nil hpat
  unfold Feed.bytes
  revert hc
  induction f.cached with
  | nil => intro _; simp
  | cons c s ih =>
    intro hc
    have hne : ¬ a :: rest <+: c :: (s ++ f.segs.flatten) := fun h =>
      hc c (by simp) (by rw [(List.cons_prefix_cons.mp h).1]; rfl)
    rw [List.cons_append, Search.find_cons, if_neg hne, ih fun d hd => hc d (by simp [hd]),
      Option.map_map]
    congr 1
    ext j
    simp only [Function.comp_apply, List.length_cons]
    omega

/-- The search of such a cache gives -1. -/
theorem search_uncached (h : from_.Represents f) (hpat : pat ≠ []) (hps : pat.length < 2 ^ 31)
    (hno : ¬ pat <:+: f.cached) (hc : ∀ c ∈ f.cached, pat.head? ≠ some c) :
    ∃ kmp kmp', Kmp.make pat = .ret kmp ∧ kmp.search f.cached = .ret (kmp', -1) := by
  obtain ⟨kmp, hk, hfed, hm1⟩ := Kmp.make_spec hpat hps
  have hsmall := h.small
  rw [Feed.bytes, List.length_append] at hsmall
  obtain ⟨kmp', hs, -, -⟩ := Kmp.search_miss hfed hpat f.cached (by simp; omega) hno
  have hatt : Kmp.attempt pat [] f.cached (-1) = -1 := by
    rw [Kmp.attempt, (Kmp.lastStart_eq_none_iff hpat hno).mpr hc]
  have hval : toInt32 (-1 + ([] : List Char).length) = -1 :=
    toInt32_of_small (by simp) (by simp)
  rw [hm1, hatt, hval] at hs
  exact ⟨kmp, kmp', hk, hs⟩

/-- **Nothing of the pattern is cached**: the cache is written, and then what one load
brings up to it. -/
theorem transferMemUntil_loads (fuel : Nat) (h : from_.Represents f) (hpat : pat ≠ [])
    (hno : ¬ pat <:+: f.cached) (hc : ∀ c ∈ f.cached, pat.head? ≠ some c)
    (hi : Search.find pat f.bytes = some i) (h512 : pat.length ≤ 512) :
    ∃ from' g line, (∀ to_, transferMemUntil fuel from_ to_ pat =
        .ret (from', to_.takes [f.cached, line], i + pat.length)) ∧
      f.cached ++ line = f.bytes.take (i + pat.length) ∧
      from'.Represents g ∧ g.bytes = f.bytes.drop (i + pat.length) := by
  obtain ⟨hrep, hget, -, -⟩ := h.merge
  obtain ⟨kmp, kmp', hk, hs⟩ := search_uncached h hpat (by omega) hno hc
  obtain ⟨hrep1, -⟩ := hrep.remove (Nat.le_refl _)
  rw [List.drop_length] at hrep1
  rw [find_uncached hpat hc, Option.map_eq_some_iff] at hi
  obtain ⟨j, hj, rfl⟩ := hi
  have hnil : ¬ pat <:+: [] := by simpa using hpat
  obtain ⟨r, n, segs, hp⟩ : ∃ r n segs, Feed.pullUntil pat [] f.segs = some (r, n, segs) :=
    Feed.exists_pullUntil hnil (by simpa using Search.isInfix_of_find hj)
  obtain ⟨hflat, -⟩ := Feed.pullUntil_spec hp
  obtain ⟨hnr, htake, k, hk', hn⟩ := Feed.take_of_pullUntil hp
  rw [List.nil_append] at hflat htake hk'
  obtain rfl : k = j := Option.some.inj (hk'.symm.trans hj)
  obtain ⟨m, hm, hrepm, -⟩ := hrep1.loadUntil h512 hpat hp
  have hrep2 : (m.removeSome n).Represents ⟨r.drop n, segs⟩ :=
    (hrepm.remove (n := n) (by simpa using hnr)).1
  have hline : (r.take n).length = n := List.length_take_of_le hnr
  have hmore : f.cached.length ≤ f.cached.length + k + pat.length := by omega
  have hcut : f.cached.length + k + pat.length - f.cached.length = n := by omega
  refine ⟨m.removeSome n, _, r.take n, fun to_ => ?_, ?_, hrep2, ?_⟩
  · simp only [transferMemUntil, hget, hk, hs, Outcome.ret_bind]
    rw [if_pos (by decide), hm, Outcome.ret_bind]
    simp only [hline]
    rw [hn, ← Nat.add_assoc]
    rfl
  · rw [htake, Feed.bytes, List.take_append, List.take_of_length_le hmore, hcut]
  · have hdrop : f.cached.drop (f.cached.length + k + pat.length) = [] :=
      List.drop_eq_nil_of_le hmore
    show r.drop n ++ segs.flatten = _
    rw [Feed.bytes, ← hflat, List.drop_append, hdrop, List.nil_append, hcut,
      List.drop_append_of_le_length hnr]

/-- A longer pattern is refused. -/
theorem transferMemUntil_refused (fuel : Nat) (h : from_.Represents f) (hpat : pat ≠ [])
    (hps : pat.length < 2 ^ 31) (hno : ¬ pat <:+: f.cached)
    (hc : ∀ c ∈ f.cached, pat.head? ≠ some c) (h512 : 512 < pat.length) :
    transferMemUntil fuel from_ to_ pat = .throws := by
  obtain ⟨-, hget, -, -⟩ := h.merge
  obtain ⟨kmp, kmp', hk, hs⟩ := search_uncached h hpat hps hno hc
  simp only [transferMemUntil, hget, hk, hs, Outcome.ret_bind]
  rw [if_pos (by decide), asyncLoadUntil, if_pos h512, Outcome.throws_bind]

/-! ## The three cases -/

/-- What is returned to a target with room for everything is written to any of its kind
that has room for it. -/
theorem movesUntil_of_took {enough : Nat} (hs : from_.stream = f.bytes)
    (hok : to_.writeOk = true) (hfits : to_.Fits (i + pat.length))
    (hret : ∀ fuel, enough ≤ fuel → ∃ from' g,
      transferMemUntil fuel from_ (fresh to_.kind [] none) pat =
        .ret (from', (fresh to_.kind [] none).took (f.bytes.take (i + pat.length)),
          i + pat.length) ∧
      from'.Represents g ∧ g.bytes = f.bytes.drop (i + pat.length)) :
    MovesUntil from_ to_ pat i := by
  refine ⟨enough, fun fuel hfuel => ?_⟩
  obtain ⟨from', g, heq, hrep, hg⟩ := hret fuel hfuel
  obtain ⟨⟨m, n⟩, ws, hmoved, hall⟩ := (writes_transferMemUntil fuel from_ pat).run heq
  rw [moved, Prod.mk.injEq, Prod.mk.injEq] at hmoved
  obtain ⟨rfl, htook, rfl⟩ := hmoved
  refine ⟨from', to_.takes ws, hall to_, ?_, by rw [hrep.stream, hg, hs]⟩
  -- the pieces are what the other target has been given, and none of them shut it down
  have hopen : ((fresh to_.kind [] none).takes ws).writeOk = true := by rw [← htook]; rfl
  have hw := (writeOk_takes hopen).2
  rw [← htook, took_written] at hw
  have hflat : f.bytes.take (i + pat.length) = ws.flatten := List.append_cancel_left hw
  have hpieces := (writeOk_takes_iff.mp hopen).2.1
  have hlen : ws.flatten.length ≤ i + pat.length := by
    rw [← hflat]
    exact List.length_take_le _ _
  have hfits' : to_.Fits ws.flatten.length := fun k hk => hlen.trans (hfits k hk)
  rw [(writeOk_takes (writeOk_takes_iff.mpr ⟨hok, hpieces, hfits'⟩)).2, ← hflat, hs]

/-- Behind an empty write a TLS target takes nothing. -/
theorem written_takes_shut (hssl : to_.kind = .ssl) (ws : List (List Char)) :
    (to_.takes ([] :: ws)).written = to_.written := by
  have hfull : ∀ (m : Memory), m.room = some 0 → (m.takes ws).written = m.written := by
    induction ws with
    | nil => exact fun m _ => rfl
    | cons w ws ih =>
      intro m hm
      have hwrite : (m.asyncWriteAll w).written = m.written ∧
          (m.asyncWriteAll w).room = some 0 := by
        unfold asyncWriteAll send
        rw [hm]
        cases m.kind <;> by_cases hw : w = [] <;> simp [hw]
      rw [takes_cons, ih _ hwrite.2, hwrite.1]
  rw [takes_cons, hfull _ (by unfold asyncWriteAll; rw [hssl]; rfl)]
  unfold asyncWriteAll send
  rw [hssl]
  cases to_.room <;> simp

/-- `UntilOk` is needed. -/
theorem untilOk_of_moves (h : from_.Represents f) (hpat : pat ≠ [])
    (hi : Search.find pat f.bytes = some i) (hmoves : MovesUntil from_ to_ pat i) :
    UntilOk pat f to_.kind i := by
  have hle := Search.find_add_length_le hi
  have hsmall := h.small
  have hroom : (fresh .plain [] none).room = none := rfl
  have hpos := List.length_pos_of_ne_nil hpat
  obtain ⟨enough, hmoves⟩ := hmoves
  obtain ⟨from', to', hret, hwritten, -⟩ := hmoves enough (Nat.le_refl _)
  -- what another target makes of it
  obtain ⟨⟨m0, n0⟩, ws, hmoved, hall⟩ := (writes_transferMemUntil enough from_ pat).run hret
  rw [moved, Prod.mk.injEq, Prod.mk.injEq] at hmoved
  obtain ⟨rfl, rfl, rfl⟩ := hmoved
  have hplain := hall (fresh .plain [] none)
  rw [moved] at hplain
  unfold UntilOk
  by_cases hin : pat <:+: f.cached
  · rw [if_pos hin]
    obtain ⟨m, hm, -, -⟩ := transferMemUntil_cached enough h hroom hpat hin
    rw [hplain, Outcome.ret.injEq, Prod.mk.injEq, Prod.mk.injEq] at hm
    exact hm.2.2
  rw [if_neg hin]
  by_cases hc : ∃ c ∈ f.cached, pat.head? = some c
  · rw [if_pos hc]
    have hst := (lastStart_cached hpat hin).mpr hc
    by_contra hr
    have hlt := transferMemUntil_short h hroom hpat hin hst hi hr hplain
    omega
  · rw [if_neg hc]
    have hnone : ∀ c ∈ f.cached, pat.head? ≠ some c := fun c hmem heq => hc ⟨c, hmem, heq⟩
    have h512 : pat.length ≤ 512 := by
      by_contra h512
      have hthrow : transferMemUntil enough from_ (fresh .plain [] none) pat = .throws :=
        transferMemUntil_refused enough h hpat (by omega) hin hnone (by omega)
      rw [hplain] at hthrow
      cases hthrow
    refine ⟨h512, fun hssl hnil => ?_⟩
    -- an empty cache: its write shuts the target down, and nothing is written
    obtain ⟨m, g, line, hm, -, -, -⟩ := transferMemUntil_loads enough h hpat hin hnone hi h512
    have htakes : to_.takes ws = to_.takes [f.cached, line] := by
      have heq := (hall to_).symm.trans (hm to_)
      rw [moved, Outcome.ret.injEq, Prod.mk.injEq, Prod.mk.injEq] at heq
      exact heq.2.1
    rw [htakes, hnil, written_takes_shut hssl, h.stream, List.self_eq_append_right] at hwritten
    have hlen := congrArg List.length hwritten
    rw [List.length_take, List.length_nil] at hlen
    omega

/-- It is enough. -/
theorem movesUntil_of_ok (h : from_.Represents f) (hpat : pat ≠ [])
    (hi : Search.find pat f.bytes = some i) (hto : to_.writeOk = true)
    (hfits : to_.Fits (i + pat.length)) (hok : UntilOk pat f to_.kind i) :
    MovesUntil from_ to_ pat i := by
  have hroom : (fresh to_.kind [] none).room = none := rfl
  unfold UntilOk at hok
  by_cases hin : pat <:+: f.cached
  · rw [if_pos hin] at hok
    refine movesUntil_of_took h.stream hto hfits fun fuel (_ : 0 ≤ fuel) => ?_
    obtain ⟨m, hm, hrep, -⟩ := transferMemUntil_cached fuel h hroom hpat hin
    have htake : f.bytes.take (i + pat.length) = f.cached := by
      rw [Feed.bytes, hok, List.take_left]
    have hdrop : f.bytes.drop (i + pat.length) = f.segs.flatten := by
      rw [Feed.bytes, hok, List.drop_left]
    rw [htake, hdrop, hok]
    exact ⟨m, _, hm, hrep, rfl⟩
  rw [if_neg hin] at hok
  by_cases hc : ∃ c ∈ f.cached, pat.head? = some c
  · rw [if_pos hc] at hok
    have hst := (lastStart_cached hpat hin).mpr hc
    refine movesUntil_of_took h.stream hto hfits
      fun fuel (hfuel : f.segs.flatten.length + 1 ≤ fuel) => ?_
    obtain ⟨m, g, hm, hrep, hg, -⟩ := transferMemUntil_reads h hroom hpat hin hst hi hok
      (show f.segs.flatten.length < fuel by omega)
    exact ⟨m, g, hm, hrep, hg⟩
  · rw [if_neg hc] at hok
    obtain ⟨h512, hshut⟩ := hok
    refine ⟨0, fun fuel _ => ?_⟩
    obtain ⟨m, g, line, hm, hline, hrep, hg⟩ := transferMemUntil_loads fuel h hpat hin
      (fun c hmem heq => hc ⟨c, hmem, heq⟩) hi h512
    refine ⟨m, _, hm to_, ?_, by rw [hrep.stream, hg, h.stream]⟩
    have hflat : [f.cached, line].flatten = f.bytes.take (i + pat.length) := by
      rw [← hline]
      simp
    have hne : line ≠ [] := by
      -- the pattern is not cached, so the load brings some of it
      rintro rfl
      rw [List.append_nil] at hline
      refine hin ?_
      rw [hline]
      exact Search.isInfix_of_find (Search.find_take hi)
    have hopen : (to_.takes [f.cached, line]).writeOk = true := by
      refine writeOk_takes_iff.mpr ⟨hto, fun hssl hmem => ?_, fun k hk => ?_⟩
      · rcases List.mem_cons.mp hmem with hnil | hmem
        · exact hshut hssl hnil.symm
        · exact hne (List.mem_singleton.mp hmem).symm
      · rw [hflat]
        exact (List.length_take_le _ _).trans (hfits k hk)
    rw [(writeOk_takes hopen).2, hflat, h.stream]

/-- **A transfer up to a pattern is exact** if and only if `UntilOk` holds, for a target
that has room for what is to be written. -/
theorem transferMemUntil_exact_iff (h : from_.Represents f) (hpat : pat ≠ [])
    (hi : Search.find pat f.bytes = some i) (hto : to_.writeOk = true)
    (hfits : to_.Fits (i + pat.length)) :
    MovesUntil from_ to_ pat i ↔ UntilOk pat f to_.kind i :=
  ⟨untilOk_of_moves h hpat hi, movesUntil_of_ok h hpat hi hto hfits⟩

/-- The terminator comes in two reads, behind a cached part of it, and the target is TLS. -/
theorem transferMemUntil_exact_pieces :
    MovesUntil { fresh .plain ["\n\r\n".toList, "G".toList] none with
      buffs := [⟨0, "a\r".toList⟩], writeIndex := 2 } (fresh .ssl [] (some 5)) crlfcrlf 1 := by
  have hrep : Represents { fresh .plain ["\n\r\n".toList, "G".toList] none with
      buffs := [⟨0, "a\r".toList⟩], writeIndex := 2 }
      ⟨"a\r".toList, ["\n\r\n".toList, "G".toList]⟩ :=
    ⟨⟨⟨rfl, by decide, rfl⟩, by decide, by
      rintro c cs ⟨⟩
      decide⟩, rfl, by decide⟩
  have hfits : (fresh .ssl [] (some 5)).Fits (1 + crlfcrlf.length) := by
    rintro k ⟨⟩
    decide
  apply (transferMemUntil_exact_iff hrep (by decide) (by decide) rfl hfits).mpr
  rw [UntilOk, if_neg (by decide), if_pos (by decide)]
  have hpull : Feed.pull (1024 * 4) ["\n\r\n".toList, "G".toList] =
      some ("\n\r\n".toList, ["G".toList]) := by decide
  exact ⟨by decide, .hit hpull (by decide)⟩

/-- Bytes that are cached behind the terminator are written too. -/
theorem transferMemUntil_takes_following :
    ¬ ∀ (from_ to_ : Memory) (f : Feed Char) (pat : List Char) (i : Nat), from_.Represents f →
      pat ≠ [] → Search.find pat f.bytes = some i → to_.writeOk = true →
      to_.Fits (i + pat.length) → MovesUntil from_ to_ pat i := by
  intro hall
  have hrep : Represents { fresh .plain [] none with
      buffs := [⟨0, "\r\n\r\nG".toList⟩], writeIndex := 5 } ⟨"\r\n\r\nG".toList, []⟩ :=
    ⟨⟨⟨rfl, by decide, rfl⟩, by decide, by
      rintro c cs ⟨⟩
      decide⟩, rfl, by decide⟩
  have hmoves := hall _ (fresh .plain [] none) _ crlfcrlf 0 hrep (by decide) (by decide) rfl
    (by rintro k ⟨⟩)
  have hok := untilOk_of_moves hrep (by decide) (by decide) hmoves
  rw [UntilOk, if_pos (by decide)] at hok
  exact absurd hok (by decide)

end Hcpp
