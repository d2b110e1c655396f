import Hcpp.Http.ChunkedBody

/-!
# When a chunked body is relayed exactly

`transferChunk_exact_iff`: from a memory that holds a chunked body and then
`after`, in any segmentation, `transfer_chunk` writes exactly the body, returns
its length and leaves exactly `after`, if and only if `Relays` holds.
The loop is followed chunk by chunk: `loop_chunk` moves one chunk, `loop_zero`
hands over to `transfer_mem_until`, `loop_unscannable` gives up.
-/

namespace Hcpp

open Memory

theorem writes_transferChunkLoop (fuel : Nat) (self : Memory) (n : Nat) :
    Writes moved fun to_ => transferChunkLoop fuel self to_ n := by
  induction fuel generalizing self n with
  | zero => exact .spins
  | succ fuel ih =>
    simp only [transferChunkLoop]
    refine .bind _ fun x => ?_
    obtain ⟨self1, csStr⟩ := x
    simp only
    split
    · exact .throws
    · refine .bind _ fun chunkSize => .ite _ ?_ ?_
      · exact .seq (writes_transferMemUntil _ _ _) fun x => .ret (x.1, n + x.2) []
      · refine .seq (writes_transferMem _ _ _) fun x => ?_
        obtain ⟨self2, tn⟩ := x
        show Writes moved fun t =>
          if tn ≠ (_ : Nat) then .throws else transferChunkLoop fuel self2 t _
        exact .ite _ .throws (ih _ _)

theorem writes_transferChunk (fuel : Nat) (self : Memory) :
    Writes moved fun to_ => transferChunk fuel self to_ := writes_transferChunkLoop _ _ _

/-- A size below `2 ^ 31` without a leading 0 has few digits. -/
theorem SizeLine.length_digits {l : SizeLine} (h : ¬ l.LeadingZero) (hv : l.value < 2 ^ 31) :
    l.digits.length ≤ 16 := by
  obtain ⟨d, ds, hd, hd0, hhex⟩ := SizeLine.exists_digit h
  have hle := le_stoul_cons 16 ds hhex hd0
  rw [value, hd] at hv
  by_contra hlen
  rw [hd, List.length_cons] at hlen
  have hpow : 16 ^ 16 ≤ 16 ^ ds.length := Nat.pow_le_pow_right (by omega) (by omega)
  omega

theorem SizeLine.value_zero {l : SizeLine} (h : ∀ c ∈ l.digits, c = '0') : l.LeadingZero := by
  obtain ⟨d, ds, hd⟩ := List.exists_cons_of_ne_nil l.digits_ne
  rw [LeadingZero, hd, List.head?_cons, h d (by simp [hd])]

theorem Chunk.length_encode_pos (c : Chunk) : 0 < c.encode.length := by
  rw [Chunk.encode, List.length_append]
  exact Nat.add_pos_right _ (by decide)

theorem ChunkedBody.last_prefix_tail (b : ChunkedBody) : b.last.encode <+: b.tail := by
  rw [ChunkedBody.tail, List.append_assoc]
  exact List.prefix_append _ _

theorem ChunkedBody.tail_ends (b : ChunkedBody) : crlfcrlf <:+: b.tail := by
  -- the line before the final CRLF ends with a CRLF
  have hline : ∃ s, b.last.encode ++ b.trailer.flatMap (fun l => l ++ crlf) = s ++ crlf := by
    rcases List.eq_nil_or_concat b.trailer with h | ⟨ls, l, h⟩
    · exact ⟨b.last.text, by rw [h]; simp [SizeLine.encode]⟩
    · exact ⟨b.last.encode ++ ls.flatMap (fun l => l ++ crlf) ++ l, by rw [h]; simp⟩
  obtain ⟨s, hs⟩ := hline
  exact ⟨s, [], by rw [ChunkedBody.tail, hs]; simp [crlf, crlfcrlf]⟩

/-! ## One iteration -/

section Iteration

variable {self to_ : Memory} {f : Feed Char} {l : SizeLine} {rest : List Char} {fuel n : Nat}

theorem loop_scanned (to_ : Memory) (fuel n : Nat) (h : self.Represents f)
    (hone : self.buffs.length ≤ 1) (hb : f.bytes = l.encode ++ rest) (hs : Scannable f l)
    (hfuel : l.encode.length < fuel) :
    ∃ self1, self1.Represents (scanned f l) ∧ self1.frame = self.frame ∧
      l.encode.length ≤ (scanned f l).cached.length ∧
      transferChunkLoop (fuel + 1) self to_ n = (do
        let chunkSize ← hexStrTo l.text
        if chunkSize = 0 then
          let (self, to_, tn) ← transferMemUntil fuel self1 to_ crlfcrlf
          .ret (self, to_, n + tn)
        else
          let completeChunkSize := (l.text.length + 2 + chunkSize + 2) % 2 ^ 64
          let (self, to_, tn) ← transferMem fuel self1 to_ completeChunkSize
          if tn ≠ completeChunkSize then .throws
          else transferChunkLoop fuel self to_ (n + completeChunkSize)) := by
  obtain ⟨self1, cs, hscan, hfind, htake, hrep, hfr, hlen⟩ := scan_ok h hone hb hs hfuel
  refine ⟨self1, hrep, hfr, hlen, ?_⟩
  rw [transferChunkLoop, hscan, Outcome.ret_bind]
  simp only [hfind, htake]

/-- A size line that begins with 0 hands the rest over to `transfer_mem_until`. -/
theorem loop_zero (to_ : Memory) (fuel n : Nat) (h : self.Represents f)
    (hone : self.buffs.length ≤ 1) (hb : f.bytes = l.encode ++ rest) (hz : l.LeadingZero)
    (hs : Scannable f l) (hfuel : l.encode.length < fuel) :
    ∃ self1, self1.Represents (scanned f l) ∧ self1.frame = self.frame ∧
      l.encode.length ≤ (scanned f l).cached.length ∧
      transferChunkLoop (fuel + 1) self to_ n =
        (transferMemUntil fuel self1 to_ crlfcrlf >>= fun r => .ret (r.1, r.2.1, n + r.2.2)) := by
  obtain ⟨self1, hrep, hfr, hlen, heq⟩ := loop_scanned to_ fuel n h hone hb hs hfuel
  refine ⟨self1, hrep, hfr, hlen, ?_⟩
  rw [heq, SizeLine.hexStrTo_zero hz, Outcome.ret_bind, if_pos rfl]

/-- What follows a chunk is what was to come behind it. -/
theorem bytes_behind_chunk {f : Feed Char} {c : Chunk} {rest : List Char}
    (hb : f.bytes = c.encode ++ rest) :
    ((scanned f c.line).skip c.encode.length).bytes = rest := by
  rw [Feed.bytes_skip, scanned, Feed.bytes_fill, hb, List.drop_left]

/-- Any other one is followed by the transfer of its chunk. -/
theorem loop_chunk {c : Chunk} (n : Nat) (h : self.Represents f) (hone : self.buffs.length ≤ 1)
    (hroom : to_.room = none) (hb : f.bytes = c.encode ++ rest) (hz : ¬ c.line.LeadingZero)
    (hs : Scannable f c.line) (hfuel : f.bytes.length < fuel) :
    ∃ self2, self2.Represents ((scanned f c.line).skip c.encode.length) ∧
      self2.frame = self.frame ∧ self2.buffs.length ≤ 1 ∧
      transferChunkLoop (fuel + 1) self to_ n =
        transferChunkLoop fuel self2 (to_.took c.encode) (n + c.encode.length) := by
  have hsmall := h.small
  have hlen : c.encode.length = c.line.text.length + 2 + c.data.length + 2 := by
    simp [Chunk.encode, c.line.length_encode, crlf, Nat.add_assoc]
  have hblen := congrArg List.length hb
  rw [List.length_append] at hblen
  have hb' : f.bytes = c.line.encode ++ (c.data ++ crlf ++ rest) := by
    rw [hb, Chunk.encode]
    simp only [List.append_assoc]
  have hle := c.line.length_encode
  obtain ⟨self1, hrep, hfr, -, heq⟩ := loop_scanned to_ fuel n h hone hb' hs (by omega)
  have hsb : (scanned f c.line).bytes = f.bytes := Feed.bytes_fill _ _ _
  have hval : c.line.value < 2 ^ 31 := by
    rw [c.size]
    omega
  have hv0 : c.line.value ≠ 0 := by
    rw [c.size]
    exact (List.length_pos_of_ne_nil c.data_ne).ne'
  have hcomplete : (c.line.text.length + 2 + c.line.value + 2) % 2 ^ 64 = c.encode.length := by
    rw [c.size, Nat.mod_eq_of_lt (by omega), hlen]
  obtain ⟨self2, heq2, hrep2, hfr2, hone2⟩ := transferMem_spec hrep hroom
    c.encode.length fuel (by rw [hsb]; omega) (by omega)
  refine ⟨self2, hrep2, by rw [hfr2, hfr], hone2, ?_⟩
  rw [heq, SizeLine.hexStrTo_value hz (SizeLine.length_digits hz hval), Outcome.ret_bind,
    if_neg hv0]
  simp only [hcomplete, heq2, Outcome.ret_bind, ne_eq, not_true_eq_false, if_false]
  rw [hsb, hb, List.take_left]

/-- When the line is not found, an exception leaves the loop. -/
theorem loop_unscannable (h : self.Represents f) (hone : self.buffs.length ≤ 1)
    (hb : f.bytes = l.encode ++ rest) (hs : ¬ Scannable f l) (r : Memory × Memory × Nat) :
    transferChunkLoop fuel self to_ n ≠ .ret r := by
  cases fuel with
  | zero => rintro ⟨⟩
  | succ fuel =>
    intro hret
    rw [transferChunkLoop, Outcome.bind_eq_ret] at hret
    obtain ⟨⟨self', cs⟩, hscan, hrest⟩ := hret
    simp only [scan_fail h hone hb hs hscan] at hrest
    cases hrest

end Iteration

/-! ## The rest of the body -/

/-- A cached line starts a match attempt: its CR is cached. -/
theorem lastStart_ne_none {f : Feed Char} {l : SizeLine} {rest : List Char}
    (hb : f.bytes = l.encode ++ rest) (hlen : l.encode.length ≤ f.cached.length) :
    Kmp.lastStart crlfcrlf [] f.cached ≠ none := by
  have hmore : ∃ more, f.cached = l.encode ++ more := by
    rcases cached_cases hb with h | ⟨hlt, -, -⟩
    · exact h
    · omega
  obtain ⟨more, hm⟩ := hmore
  have hcr : '\r' ∉ l.text := fun h => (l.lineText _ h).1 rfl
  have htake : f.cached.take (l.text.length + 1) = l.text ++ ['\r'] := by
    rw [hm, SizeLine.encode, crlf]
    simp [List.take_append]
  have hov : Border.overlap crlfcrlf (l.text ++ ['\r']) crlfcrlf.length = 1 := by
    have hlt : 1 < crlfcrlf.length := by decide
    refine Border.overlap_eq hlt ?_ ?_
    · exact (Border.cand_snoc (by decide)).mpr ⟨Border.cand_zero _ _, rfl⟩
    · intro k hk hk4 hcand
      have hk4 : k < 4 := hk4
      obtain ⟨k, rfl⟩ : ∃ j, k = j + 1 := ⟨k - 1, by omega⟩
      obtain ⟨hcand, hck⟩ := (Border.cand_snoc (by show k < 4; omega)).mp hcand
      -- the attempt would be longer only with another CR in the line
      refine hcr (hcand.subset ?_)
      obtain ⟨k, rfl⟩ : ∃ j, k = j + 1 := ⟨k - 1, by omega⟩
      simp [crlfcrlf]
  intro hnone
  have hall := List.find?_eq_none.mp hnone l.text.length
    (by rw [List.mem_reverse, List.mem_range]; rw [l.length_encode] at hlen; omega)
  rw [List.nil_append, htake, hov] at hall
  simp at hall

section Tail

variable {self to_ : Memory} {f : Feed Char} {l : SizeLine} {t after : List Char} {n : Nat}

/-- No more is to come behind the scan than there was in front of it. -/
theorem length_segs_scanned (f : Feed Char) (l : SizeLine) :
    (scanned f l).segs.flatten.length ≤ f.bytes.length := by
  have hsb : (scanned f l).bytes = f.bytes := by rw [scanned, Feed.bytes_fill]
  have hlen := congrArg List.length hsb
  rw [Feed.bytes, List.length_append] at hlen
  omega

/-- From a line that begins with 0 on, `TailOk` is enough. -/
theorem loop_tail_ok (h : self.Represents f) (hone : self.buffs.length ≤ 1)
    (hroom : to_.room = none) (hb : f.bytes = t ++ after) (hl : l.encode <+: t)
    (hz : l.LeadingZero) (hs : Scannable f l) (ht : TailOk (scanned f l) t) {fuel : Nat}
    (hfuel : f.bytes.length < fuel) :
    ∃ self' g, transferChunkLoop (fuel + 1) self to_ n =
        .ret (self', to_.took t, n + t.length) ∧
      self'.Represents g ∧ g.bytes = after ∧ self'.frame = self.frame := by
  obtain ⟨rest, rfl⟩ := hl
  have hb' : f.bytes = l.encode ++ (rest ++ after) := by rw [hb, List.append_assoc]
  have hblen := congrArg List.length hb'
  rw [List.length_append] at hblen
  obtain ⟨self1, hrep, hfr, hlen, heq⟩ := loop_zero to_ fuel n h hone hb' hz hs (by omega)
  have hsb : (scanned f l).bytes = l.encode ++ rest ++ after := by
    rw [scanned, Feed.bytes_fill, hb]
  have hne : crlfcrlf ≠ [] := by decide
  rw [heq]
  rcases ht with ⟨hin, hc⟩ | ⟨hno, hreads, i, hfind, hi⟩
  · obtain ⟨self', hu, hrep', hfr'⟩ := transferMemUntil_cached fuel hrep hroom hne hin
    refine ⟨self', _, by rw [hu, Outcome.ret_bind, hc], hrep', ?_, by rw [hfr', hfr]⟩
    rw [Feed.bytes, hc] at hsb
    exact List.append_cancel_left hsb
  · have hst := lastStart_ne_none (hsb.trans (List.append_assoc _ _ _)) hlen
    have hsl := Nat.lt_of_le_of_lt (length_segs_scanned f l) hfuel
    obtain ⟨self', g, hu, hrep', hgb, hfr'⟩ := transferMemUntil_reads hrep hroom hne hno hst hfind
      hreads hsl
    refine ⟨self', g, ?_, hrep', ?_, by rw [hfr', hfr]⟩
    · rw [hu, Outcome.ret_bind, hsb, ← hi, List.take_left]
    · rw [hgb, hsb, ← hi, List.drop_left]

/-- It is also needed, when CRLFCRLF is in that rest. -/
theorem loop_tail_conv (h : self.Represents f) (hone : self.buffs.length ≤ 1)
    (hroom : to_.room = none) (hb : f.bytes = t ++ after) (hl : l.encode <+: t)
    (hz : l.LeadingZero) (hend : crlfcrlf <:+: t) {fuel : Nat} (hfuel : f.bytes.length < fuel)
    {self' to' : Memory}
    (hret : transferChunkLoop (fuel + 1) self to_ n = .ret (self', to', n + t.length))
    (hw : to'.written = to_.written ++ t) : Scannable f l ∧ TailOk (scanned f l) t := by
  obtain ⟨rest, rfl⟩ := hl
  have hb' : f.bytes = l.encode ++ (rest ++ after) := by rw [hb, List.append_assoc]
  have hblen := congrArg List.length hb'
  rw [List.length_append] at hblen
  have hs : Scannable f l := by
    by_contra hs
    exact loop_unscannable h hone hb' hs _ hret
  refine ⟨hs, ?_⟩
  obtain ⟨self1, hrep, -, hlen, heq⟩ := loop_zero to_ fuel n h hone hb' hz hs (by omega)
  have hsb : (scanned f l).bytes = l.encode ++ rest ++ after := by
    rw [scanned, Feed.bytes_fill, hb]
  have hne : crlfcrlf ≠ [] := by decide
  rw [heq, Outcome.bind_eq_ret] at hret
  obtain ⟨⟨a, b, k⟩, hu, hr⟩ := hret
  simp only [Outcome.ret.injEq, Prod.mk.injEq] at hr
  obtain ⟨rfl, rfl, hk⟩ := hr
  by_cases hin : crlfcrlf <:+: (scanned f l).cached
  · left
    refine ⟨hin, ?_⟩
    obtain ⟨from', hu', -, -⟩ := transferMemUntil_cached fuel hrep hroom hne hin
    rw [hu, Outcome.ret.injEq, Prod.mk.injEq, Prod.mk.injEq] at hu'
    obtain ⟨-, rfl, -⟩ := hu'
    rw [took_written] at hw
    exact List.append_cancel_left hw
  · right
    have hst := lastStart_ne_none (hsb.trans (List.append_assoc _ _ _)) hlen
    obtain ⟨i, hi⟩ := Search.exists_find hend
    have hle := Search.find_add_length_le hi
    have hfind : Search.find crlfcrlf (scanned f l).bytes = some i := by
      rw [hsb]
      exact Search.find_append_of_some hi
    by_cases hreads : ReadsOn crlfcrlf (scanned f l)
    · refine ⟨hin, hreads, i, hfind, ?_⟩
      have hsl := Nat.lt_of_le_of_lt (length_segs_scanned f l) hfuel
      obtain ⟨from', g, hu', -, -, -⟩ := transferMemUntil_reads hrep hroom hne hin hst hfind
        hreads hsl
      rw [hu, Outcome.ret.injEq, Prod.mk.injEq, Prod.mk.injEq] at hu'
      omega
    · have := transferMemUntil_short hrep hroom hne hin hst hfind hreads hu
      omega

end Tail

/-! ## All the chunks -/

section Body

variable {last : SizeLine} {tail : List Char}

theorem loop_of_relays (hz : last.LeadingZero) (hl : last.encode <+: tail) (cs : List Chunk) :
    ∀ (fuel : Nat) (self to_ : Memory) (f : Feed Char) (after : List Char) (n : Nat),
      self.Represents f → self.buffs.length ≤ 1 → to_.room = none →
      f.bytes = cs.flatMap Chunk.encode ++ tail ++ after → RelaysFrom last tail f cs →
      f.bytes.length + 1 < fuel →
      ∃ self' g, transferChunkLoop fuel self to_ n =
          .ret (self', to_.took (cs.flatMap Chunk.encode ++ tail),
            n + (cs.flatMap Chunk.encode ++ tail).length) ∧
        self'.Represents g ∧ g.bytes = after ∧ self'.frame = self.frame := by
  induction cs with
  | nil =>
    intro fuel self to_ f after n h hone hroom hb hr hfuel
    obtain ⟨fuel, rfl⟩ : ∃ k, fuel = k + 1 := ⟨fuel - 1, by omega⟩
    exact loop_tail_ok h hone hroom hb hl hz hr.1 hr.2 (by omega)
  | cons c cs ih =>
    intro fuel self to_ f after n h hone hroom hb hr hfuel
    obtain ⟨fuel, rfl⟩ : ∃ k, fuel = k + 1 := ⟨fuel - 1, by omega⟩
    obtain ⟨hs, hr⟩ := hr
    by_cases hcz : c.line.LeadingZero
    · rw [if_pos hcz] at hr
      have hpre : c.line.encode <+: (c :: cs).flatMap Chunk.encode ++ tail := by
        rw [List.flatMap_cons, Chunk.encode]
        simp only [List.append_assoc]
        exact List.prefix_append _ _
      exact loop_tail_ok h hone hroom hb hpre hcz hs hr (by omega)
    · rw [if_neg hcz] at hr
      have hb' : f.bytes = c.encode ++ (cs.flatMap Chunk.encode ++ tail ++ after) := by
        rw [hb, List.flatMap_cons]
        simp only [List.append_assoc]
      obtain ⟨self2, hrep2, hfr2, hone2, heq⟩ := loop_chunk n h hone hroom hb' hcz hs
        (show f.bytes.length < fuel by omega)
      have hb2 := bytes_behind_chunk hb'
      have hlen := c.length_encode_pos
      have hblen := congrArg List.length hb'
      rw [List.length_append, ← hb2] at hblen
      obtain ⟨self', g, heq', hrep', hg, hfr'⟩ := ih fuel self2 (to_.took c.encode) _ after
        (n + c.encode.length) hrep2 hone2 hroom hb2 hr (by omega)
      refine ⟨self', g, ?_, hrep', hg, by rw [hfr', hfr2]⟩
      rw [heq, heq', took_took, List.flatMap_cons]
      simp only [List.append_assoc, List.length_append, Nat.add_assoc]

theorem relays_of_loop (hz : last.LeadingZero) (hl : last.encode <+: tail)
    (hend : crlfcrlf <:+: tail) (cs : List Chunk) :
    ∀ (fuel : Nat) (self to_ : Memory) (f : Feed Char) (after : List Char) (n : Nat),
      self.Represents f → self.buffs.length ≤ 1 → to_.room = none →
      f.bytes = cs.flatMap Chunk.encode ++ tail ++ after → f.bytes.length + 1 < fuel →
      ∀ self' to', transferChunkLoop fuel self to_ n =
          .ret (self', to', n + (cs.flatMap Chunk.encode ++ tail).length) →
        to'.written = to_.written ++ (cs.flatMap Chunk.encode ++ tail) →
        RelaysFrom last tail f cs := by
  induction cs with
  | nil =>
    intro fuel self to_ f after n h hone hroom hb hfuel self' to' hret hw
    obtain ⟨fuel, rfl⟩ : ∃ k, fuel = k + 1 := ⟨fuel - 1, by omega⟩
    exact loop_tail_conv h hone hroom hb hl hz hend (by omega) hret hw
  | cons c cs ih =>
    intro fuel self to_ f after n h hone hroom hb hfuel self' to' hret hw
    obtain ⟨fuel, rfl⟩ : ∃ k, fuel = k + 1 := ⟨fuel - 1, by omega⟩
    have hb' : f.bytes = c.encode ++ (cs.flatMap Chunk.encode ++ tail ++ after) := by
      rw [hb, List.flatMap_cons]
      simp only [List.append_assoc]
    by_cases hcz : c.line.LeadingZero
    · have hpre : c.line.encode <+: (c :: cs).flatMap Chunk.encode ++ tail := by
        rw [List.flatMap_cons, Chunk.encode]
        simp only [List.append_assoc]
        exact List.prefix_append _ _
      obtain ⟨hs, ht⟩ := loop_tail_conv h hone hroom hb hpre hcz
        (hend.trans (List.suffix_append _ _).isInfix) (by omega) hret hw
      refine ⟨hs, ?_⟩
      rw [if_pos hcz]
      exact ht
    · have hbl : f.bytes = c.line.encode ++
          (c.data ++ crlf ++ (cs.flatMap Chunk.encode ++ tail ++ after)) := by
        rw [hb', Chunk.encode]
        simp only [List.append_assoc]
      have hs : Scannable f c.line := by
        by_contra hs
        exact loop_unscannable h hone hbl hs _ hret
      refine ⟨hs, ?_⟩
      rw [if_neg hcz]
      obtain ⟨self2, hrep2, -, hone2, heq⟩ := loop_chunk n h hone hroom hb' hcz hs
        (show f.bytes.length < fuel by omega)
      have hb2 := bytes_behind_chunk hb'
      have hlen := c.length_encode_pos
      have hblen := congrArg List.length hb'
      rw [List.length_append, ← hb2] at hblen
      rw [heq] at hret
      refine ih fuel self2 (to_.took c.encode) _ after (n + c.encode.length) hrep2 hone2 hroom hb2
        (by omega) self' to' ?_ ?_
      · rw [hret, List.flatMap_cons]
        simp only [List.append_assoc, List.length_append, Nat.add_assoc]
      · rw [hw, took_written, List.flatMap_cons]
        simp only [List.append_assoc]

end Body

/-! ## The body as a whole -/

/-- The transfer ends, whatever the fuel from some amount on; it has written
`body`, returns its length and leaves `after`. -/
def RelaysExactly (self to_ : Memory) (body after : List Char) : Prop :=
  ∃ enough, ∀ fuel, enough ≤ fuel → ∃ self' to',
    transferChunk fuel self to_ = .ret (self', to', body.length) ∧
      to'.written = to_.written ++ body ∧ self'.stream = after

section Exact

variable {self to_ : Memory} {f : Feed Char} {b : ChunkedBody} {after : List Char}

/-- What `transfer_chunk` does to the two memories when the body is relayed. -/
theorem transferChunk_of_relays (h : self.Represents f) (hroom : to_.room = none)
    (hb : f.bytes = b.encode ++ after) (hr : Relays f b) {fuel : Nat}
    (hfuel : f.bytes.length + 1 < fuel) :
    ∃ self' g, transferChunk fuel self to_ =
        .ret (self', to_.took b.encode, b.encode.length) ∧
      self'.Represents g ∧ g.bytes = after ∧ self'.frame = self.frame := by
  obtain ⟨hrep, -, hfr, hone⟩ := h.merge
  obtain ⟨self', g, heq, hrep', hg, hfr'⟩ := loop_of_relays (SizeLine.value_zero b.zeros)
    b.last_prefix_tail b.chunks fuel self.mergeSome to_ f after 0 hrep hone hroom hb hr hfuel
  rw [Nat.zero_add] at heq
  exact ⟨self', g, heq, hrep', hg, by rw [hfr', hfr]⟩

theorem relays_of_exactly (h : self.Represents f) (hroom : to_.room = none)
    (hb : f.bytes = b.encode ++ after) (hex : RelaysExactly self to_ b.encode after) :
    Relays f b := by
  obtain ⟨enough, hex⟩ := hex
  obtain ⟨hrep, -, -, hone⟩ := h.merge
  obtain ⟨self', to', hret, hw, -⟩ := hex (max enough (f.bytes.length + 2)) (le_max_left _ _)
  refine relays_of_loop (SizeLine.value_zero b.zeros) b.last_prefix_tail b.tail_ends b.chunks
    (max enough (f.bytes.length + 2)) self.mergeSome to_ f after 0 hrep hone hroom hb ?_ self' to'
    ?_ hw
  · have := le_max_right enough (f.bytes.length + 2)
    omega
  · rw [Nat.zero_add]
    exact hret

/-- **A chunked body is relayed exactly** if and only if `Relays` holds of the
bytes that are cached and the reads that are to come. -/
theorem transferChunk_exact_iff (h : self.Represents f) (hroom : to_.room = none)
    (hb : f.bytes = b.encode ++ after) :
    RelaysExactly self to_ b.encode after ↔ Relays f b := by
  refine ⟨relays_of_exactly h hroom hb, fun hr => ⟨f.bytes.length + 2, fun fuel hfuel => ?_⟩⟩
  obtain ⟨self', g, heq, hrep, hg, -⟩ := transferChunk_of_relays h hroom hb hr
    (show f.bytes.length + 1 < fuel by omega)
  exact ⟨self', _, heq, rfl, by rw [hrep.stream, hg]⟩

end Exact

/-! ## Two bodies -/

def zeroLine : SizeLine where
  digits := ['0']
  ext := []
  digits_ne := by decide
  hex := by decide
  ext_text := by rintro c ⟨⟩
  ext_head := by rintro c ⟨⟩

/-- `1 CRLF a CRLF 0 CRLF CRLF` -/
def oneChunk : ChunkedBody where
  chunks := [{
    line := { zeroLine with digits := ['1'], digits_ne := by decide, hex := by decide }
    data := ['a']
    size := by decide
    data_ne := by decide }]
  last := zeroLine
  zeros := by decide
  trailer := []
  trailer_text := by rintro l ⟨⟩

/-- `0 CRLF CRLF` -/
def noChunk : ChunkedBody where
  chunks := []
  last := zeroLine
  zeros := by decide
  trailer := []
  trailer_text := by rintro l ⟨⟩

/-- The last two bytes come in a read of their own. -/
theorem transferChunk_exact_oneChunk :
    RelaysExactly (fresh .plain ["1\r\na\r\n0\r\n".toList, "\r\n".toList] none)
      (fresh .plain [] none) oneChunk.encode [] := by
  apply (transferChunk_exact_iff (represents_fresh _ _ _ (by decide)) rfl (by decide)).mpr
  refine ⟨Or.inl (by decide), ?_⟩
  rw [if_neg (by decide)]
  refine ⟨Or.inl (by decide), Or.inr ⟨by decide, ⟨by decide, ?_⟩, 1, by decide, by decide⟩⟩
  exact .hit (show Feed.pull (1024 * 4) _ = some ("\r\n".toList, []) by decide) (by decide)

/-- A body whose last CRLF and the bytes behind it come in one read: these are
written as well. -/
theorem transferChunk_takes_following :
    ¬ ∀ (b : ChunkedBody) (self to_ : Memory) (f : Feed Char) (after : List Char),
      self.Represents f → to_.room = none → f.bytes = b.encode ++ after →
      RelaysExactly self to_ b.encode after := by
  intro hall
  have hrep := represents_fresh .plain ["0\r\n\r\nG".toList] none (by decide)
  have hb : (Feed.mk [] ["0\r\n\r\nG".toList]).bytes = noChunk.encode ++ ['G'] := by decide
  have hex := hall noChunk _ (fresh .plain [] none) _ ['G'] hrep rfl hb
  obtain ⟨-, ht⟩ := relays_of_exactly hrep rfl hb hex
  rcases ht with ⟨-, hc⟩ | ⟨hno, -⟩
  · exact absurd hc (by decide)
  · exact absurd hno (by decide)

end Hcpp
