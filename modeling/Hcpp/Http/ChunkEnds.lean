import Hcpp.Http.TransferChunk
import Hcpp.Mem.TransferEnds

/-!
# When a chunked transfer ends

`transfer_chunk` takes any bytes.  What it makes of them is a walk over the
cached bytes and the reads: at each size line it looks at a window of at most
18 bytes (`window`), and goes on behind the chunk the line announces.
`transferChunk_ends_iff`: it ends if and only if this walk does (`ChunksEnd`):
the window is filled or shows a CRLF before the peer closes, the bytes of the
chunk come or are more than a string holds, and the transfer of what follows the
last chunk does not stall.
-/

namespace Hcpp

open Memory

/-! ## The walk -/

/-- Read until `cs` has a CRLF or 18 bytes. -/
def fillWindow : Nat → Feed Char → List Char → Feed Char × List Char
  | 0, f, cs => (f, cs)
  | steps + 1, f, cs =>
    if Search.find crlf cs = none ∧ cs.length < 18 then
      match Feed.pull (1024 * 4) f.segs with
      | none => (f, cs)
      | some (s, segs) =>
        fillWindow steps ⟨f.cached ++ s, segs⟩ (cs ++ s.take (18 - cs.length))
    else (f, cs)

/-- The input when the window is looked at, and its text. -/
def window (f : Feed Char) : Feed Char × List Char := fillWindow 18 f (cString f.cached)

/-- The window is not filled: the peer closed before. -/
def Unfilled (w : List Char) : Prop := Search.find crlf w = none ∧ w.length < 18

/-- The line the window shows. -/
def sizeText (f : Feed Char) : Option (List Char) :=
  (Search.find crlf (window f).2).map fun p => (window f).2.take p

/-- `complete_chunk_size` for a line and its number. -/
def completeChunkSize (line : List Char) (v : Nat) : Nat := (line.length + 2 + v + 2) % 2 ^ 64

/-- The walk comes to its end. -/
inductive ChunksEnd : Feed Char → Prop where
  /-- 18 bytes without a CRLF: an exception -/
  | overlong {f : Feed Char} (hf : ¬ Unfilled (window f).2) (h : sizeText f = none) : ChunksEnd f
  /-- a line without a number: an exception -/
  | refused {f : Feed Char} {line : List Char} (h : sizeText f = some line)
      (hv : hexStrTo line = .throws) : ChunksEnd f
  /-- the last chunk -/
  | last {f : Feed Char} {line : List Char} (h : sizeText f = some line)
      (hv : hexStrTo line = .ret 0) (ht : ¬ StallsUntil crlfcrlf (window f).1) : ChunksEnd f
  /-- a chunk too large to be read: an exception -/
  | oversized {f : Feed Char} {line : List Char} {v : Nat} (h : sizeText f = some line)
      (hv : hexStrTo line = .ret v) (h0 : v ≠ 0)
      (hbig : Oversized (window f).1 (completeChunkSize line v)) : ChunksEnd f
  | chunk {f : Feed Char} {line : List Char} {v : Nat} (h : sizeText f = some line)
      (hv : hexStrTo line = .ret v) (h0 : v ≠ 0)
      (hlen : completeChunkSize line v ≤ f.bytes.length)
      (hr : ChunksEnd ((window f).1.skip (completeChunkSize line v))) : ChunksEnd f

theorem bytes_fillWindow (steps : Nat) (f : Feed Char) (cs : List Char) :
    (fillWindow steps f cs).1.bytes = f.bytes := by
  induction steps generalizing f cs with
  | zero => rfl
  | succ steps ih =>
    rw [fillWindow]
    split
    · cases hp : Feed.pull (1024 * 4) f.segs with
      | none => rfl
      | some x =>
        obtain ⟨s, segs⟩ := x
        simp only [ih]
        rw [Feed.bytes, Feed.bytes, List.append_assoc, Feed.flatten_of_pull hp]
    · rfl

theorem bytes_window (f : Feed Char) : (window f).1.bytes = f.bytes := bytes_fillWindow _ _ _

/-! ## The scan for the size -/

section Scan

variable {self to_ : Memory} {f : Feed Char}

/-- Behind the last read a window that is not filled is scanned for ever. -/
theorem scanSize_closed (fuel : Nat) {cs : List Char} (hin : self.incoming.flatten = [])
    (hopen : Unfilled cs) : scanSize fuel self cs = .spins := by
  induction fuel generalizing self with
  | zero => rfl
  | succ fuel ih =>
    unfold Unfilled at hopen
    rw [scanSize_open hopen, readSome_of_closed hin]
    simp only [List.take_nil, List.append_nil]
    exact ih hin

/-- A scan that ends has filled the window. -/
theorem scanSize_window {steps : Nat} (fuel : Nat) {cs : List Char} (h : self.Represents f)
    (hsteps : 18 - cs.length ≤ steps) :
    scanSize fuel self cs = .spins ∨
      ∃ self', scanSize fuel self cs = .ret (self', (fillWindow steps f cs).2) ∧
        self'.Represents (fillWindow steps f cs).1 ∧ ¬ Unfilled (fillWindow steps f cs).2 := by
  induction fuel generalizing steps self f cs with
  | zero => exact .inl rfl
  | succ fuel ih =>
    by_cases hopen : Search.find crlf cs = none ∧ cs.length < 18
    · obtain ⟨steps, rfl⟩ : ∃ k, steps = k + 1 := ⟨steps - 1, by omega⟩
      rw [scanSize_open hopen, fillWindow, if_pos hopen]
      cases hp : Feed.pull (1024 * 4) f.segs with
      | none =>
        left
        have hin : self.incoming.flatten = [] := by
          rw [h.incoming]
          exact Feed.pull_eq_none_iff.mp hp
        rw [readSome_of_closed hin]
        simp only [List.take_nil, List.append_nil]
        exact scanSize_closed fuel hin hopen
      | some x =>
        obtain ⟨s, segs⟩ := x
        obtain ⟨m, hm, hrep, -⟩ := h.load (by omega) hp
        have hpos := List.length_pos_of_ne_nil (Feed.ne_nil_of_pull (by omega) hp)
        rw [hm]
        exact ih hrep (by simp only [List.length_append, List.length_take]; omega)
    · have hstop : fillWindow steps f cs = (f, cs) := by
        cases steps with
        | zero => rfl
        | succ steps => rw [fillWindow, if_neg hopen]
      right
      rw [hstop]
      exact ⟨self, by rw [scanSize, if_neg hopen], h, hopen⟩

/-- A window that is filled before the peer closes ends the scan. -/
theorem scanSize_ends {steps : Nat} (fuel : Nat) {cs : List Char} (h : self.Represents f)
    (hsteps : 18 - cs.length ≤ steps) (hfill : ¬ Unfilled (fillWindow steps f cs).2)
    (hfuel : 18 - cs.length < fuel) : scanSize fuel self cs ≠ .spins := by
  induction fuel generalizing steps self f cs with
  | zero => omega
  | succ fuel ih =>
    by_cases hopen : Search.find crlf cs = none ∧ cs.length < 18
    · obtain ⟨steps, rfl⟩ : ∃ k, steps = k + 1 := ⟨steps - 1, by omega⟩
      rw [fillWindow, if_pos hopen] at hfill
      rw [scanSize_open hopen]
      cases hp : Feed.pull (1024 * 4) f.segs with
      | none =>
        simp only [hp] at hfill
        exact absurd hopen hfill
      | some x =>
        obtain ⟨s, segs⟩ := x
        simp only [hp] at hfill
        obtain ⟨m, hm, hrep, -⟩ := h.load (by omega) hp
        have hpos := List.length_pos_of_ne_nil (Feed.ne_nil_of_pull (by omega) hp)
        rw [hm]
        exact ih hrep (by simp only [List.length_append, List.length_take]; omega) hfill
          (by simp only [List.length_append, List.length_take]; omega)
    · rw [scanSize, if_neg hopen]
      rintro ⟨⟩

end Scan

/-! ## The loop -/

section Loop

variable {self to_ : Memory} {f : Feed Char} {fuel n : Nat}

theorem hexStrTo_cases (s : List Char) : hexStrTo s = .throws ∨ ∃ v, hexStrTo s = .ret v := by
  unfold hexStrTo
  cases Regex.search hexReg s with
  | none => exact .inl rfl
  | some m => exact .inr ⟨_, rfl⟩

/-- What a turn of the loop does with the line. -/
def chunkTurn (fuel : Nat) (self to_ : Memory) (n : Nat) (line : List Char) :
    Outcome (Memory × Memory × Nat) := do
  let chunkSize ← hexStrTo line
  if chunkSize = 0 then
    let (self, to_, tn) ← transferMemUntil fuel self to_ crlfcrlf
    .ret (self, to_, n + tn)
  else
    let (self, to_, tn) ← transferMem fuel self to_ (completeChunkSize line chunkSize)
    if tn ≠ completeChunkSize line chunkSize then .throws
    else transferChunkLoop fuel self to_ (n + completeChunkSize line chunkSize)

/-- A turn of the loop, from the window on. -/
theorem loop_of_scan {self' : Memory} (h : self.Represents f) (hone : self.buffs.length ≤ 1)
    (hret : scanSize fuel self (cString f.cached) = .ret (self', (window f).2)) (to_ : Memory)
    (n : Nat) :
    transferChunkLoop (fuel + 1) self to_ n =
      (sizeText f).elim .throws (chunkTurn fuel self' to_ n) := by
  rw [transferChunkLoop, h.getSome hone, hret, Outcome.ret_bind, sizeText]
  cases hp : Search.find crlf (window f).2 with
  | none =>
    simp only [hp]
    rfl
  | some p =>
    have hle := Search.find_add_length_le hp
    have hlen : ((window f).2.take p).length = p := by
      rw [List.length_take]
      omega
    simp only [hp, Option.map_some, Option.elim_some, chunkTurn, completeChunkSize, hlen]

/-- A loop that ends has walked to the end; by induction on the fuel. -/
theorem chunksEnd_of_loop (fuel : Nat) (h : self.Represents f) (hone : self.buffs.length ≤ 1)
    (hroom : to_.room = none) (hends : transferChunkLoop fuel self to_ n ≠ .spins ∧
      transferChunkLoop fuel self to_ n ≠ .undefined) : ChunksEnd f := by
  induction fuel generalizing self to_ f n with
  | zero => exact absurd rfl hends.1
  | succ fuel ih =>
    have hsteps : 18 - (cString f.cached).length ≤ 18 := Nat.sub_le _ _
    rcases scanSize_window fuel h hsteps with
      hspin | ⟨self', hret, hrep, hfill⟩
    · rw [transferChunkLoop, h.getSome hone, hspin] at hends
      exact absurd rfl hends.1
    have hwin : self'.Represents (window f).1 := hrep
    rw [loop_of_scan h hone hret] at hends
    cases hs : sizeText f with
    | none => exact .overlong hfill hs
    | some line =>
      rw [hs, Option.elim_some, chunkTurn] at hends
      rcases hexStrTo_cases line with hv | ⟨v, hv⟩
      · exact .refused hs hv
      rw [hv, Outcome.ret_bind] at hends
      by_cases h0 : v = 0
      · rw [if_pos h0] at hends
        refine .last hs (h0 ▸ hv) fun hst => ?_
        rcases transferMemUntil_spins hrep (by decide) (by decide) hst to_ fuel with hu | hu
        · rw [hu] at hends
          exact hends.1 rfl
        · rw [hu] at hends
          exact hends.2 rfl
      · rw [if_neg h0] at hends
        by_cases hle : completeChunkSize line v ≤ f.bytes.length
        · obtain ⟨self2, heq2, hrep2, -, hone2⟩ := transferMem_spec hwin hroom
            (completeChunkSize line v) (fuel + (completeChunkSize line v + 1))
            (by rw [bytes_window]; exact hle) (by omega)
          have hmove : transferMem fuel self' to_ (completeChunkSize line v) ≠ .spins := by
            intro hspin
            rw [hspin] at hends
            exact hends.1 rfl
          rw [transferMem_more _ hmove] at heq2
          rw [heq2, Outcome.ret_bind] at hends
          simp only [ne_eq, not_true_eq_false, if_false] at hends
          have htook : (to_.took ((window f).1.bytes.take (completeChunkSize line v))).room =
              none := hroom
          exact .chunk hs hv h0 hle (ih hrep2 hone2 htook hends)
        · by_cases hbig : Oversized (window f).1 (completeChunkSize line v)
          · exact .oversized hs hv h0 hbig
          · rw [transferMem_spins hwin (by rw [bytes_window]; omega) hbig] at hends
            exact absurd rfl hends.1

/-- A walk that comes to its end is one the loop makes; by induction on the walk. -/
theorem loop_of_chunksEnd (hw : ChunksEnd f) : ∃ enough, ∀ fuel, enough ≤ fuel →
    ∀ (self to_ : Memory) (n : Nat), self.Represents f → self.buffs.length ≤ 1 →
      to_.room = none → transferChunkLoop fuel self to_ n ≠ .spins ∧
        transferChunkLoop fuel self to_ n ≠ .undefined := by
  -- a turn with enough fuel for the scan
  have hturn : ∀ (f : Feed Char) (fuel : Nat) (self to_ : Memory) (n : Nat), self.Represents f →
      self.buffs.length ≤ 1 → ¬ Unfilled (window f).2 → 18 < fuel →
      ∃ self', self'.Represents (window f).1 ∧ transferChunkLoop (fuel + 1) self to_ n =
        (sizeText f).elim .throws (chunkTurn fuel self' to_ n) := by
    intro f fuel self to_ n h hone hfill hfuel
    have hsteps : 18 - (cString f.cached).length ≤ 18 := Nat.sub_le _ _
    rcases scanSize_window fuel h hsteps with
      hspin | ⟨self', hret, hrep, -⟩
    · exact absurd hspin (scanSize_ends fuel h (by omega) hfill (by omega))
    · exact ⟨self', hrep, loop_of_scan h hone hret to_ n⟩
  have hfilled : ∀ {f : Feed Char} {line : List Char}, sizeText f = some line →
      ¬ Unfilled (window f).2 := by
    intro f line hs hun
    rw [sizeText, hun.1] at hs
    cases hs
  induction hw with
  | overlong hf hs =>
    refine ⟨20, fun fuel hfuel self to_ n h hone _ => ?_⟩
    obtain ⟨fuel, rfl⟩ : ∃ k, fuel = k + 1 := ⟨fuel - 1, by omega⟩
    obtain ⟨self', -, heq⟩ := hturn _ fuel self to_ n h hone hf (by omega)
    rw [heq, hs, Option.elim_none]
    exact Outcome.throws_ends
  | refused hs hv =>
    refine ⟨20, fun fuel hfuel self to_ n h hone _ => ?_⟩
    obtain ⟨fuel, rfl⟩ : ∃ k, fuel = k + 1 := ⟨fuel - 1, by omega⟩
    obtain ⟨self', -, heq⟩ := hturn _ fuel self to_ n h hone (hfilled hs) (by omega)
    rw [heq, hs, Option.elim_some, chunkTurn, hv, Outcome.throws_bind]
    exact Outcome.throws_ends
  | @last f line hs hv ht =>
    refine ⟨(window f).1.segs.flatten.length + 21, fun fuel hfuel self to_ n h hone _ => ?_⟩
    obtain ⟨fuel, rfl⟩ : ∃ k, fuel = k + 1 := ⟨fuel - 1, by omega⟩
    obtain ⟨self', hrep, heq⟩ := hturn _ fuel self to_ n h hone (hfilled hs) (by omega)
    rw [heq, hs, Option.elim_some, chunkTurn, hv, Outcome.ret_bind, if_pos rfl]
    obtain ⟨h1, h2⟩ := transferMemUntil_stops hrep (by decide) (by decide) ht to_
      (show (window f).1.segs.flatten.length < fuel by omega)
    cases hu : transferMemUntil fuel self' to_ crlfcrlf with
    | ret r => simp
    | throws => simp
    | spins => exact absurd hu h1
    | undefined => exact absurd hu h2
  | @oversized f line v hs hv h0 hbig =>
    refine ⟨20, fun fuel hfuel self to_ n h hone _ => ?_⟩
    obtain ⟨fuel, rfl⟩ : ∃ k, fuel = k + 1 := ⟨fuel - 1, by omega⟩
    obtain ⟨self', hrep, heq⟩ := hturn _ fuel self to_ n h hone (hfilled hs) (by omega)
    rw [heq, hs, Option.elim_some, chunkTurn, hv, Outcome.ret_bind, if_neg h0,
      transferMem_throws hrep hbig (by omega), Outcome.throws_bind]
    exact Outcome.throws_ends
  | @chunk f line v hs hv h0 hlen _ ih =>
    obtain ⟨enough, ih⟩ := ih
    refine ⟨max (enough + 1) (completeChunkSize line v + 21),
      fun fuel hfuel self to_ n h hone hroom => ?_⟩
    have h1 := le_max_left (enough + 1) (completeChunkSize line v + 21)
    have h2 := le_max_right (enough + 1) (completeChunkSize line v + 21)
    obtain ⟨fuel, rfl⟩ : ∃ k, fuel = k + 1 := ⟨fuel - 1, by omega⟩
    obtain ⟨self', hrep, heq⟩ := hturn _ fuel self to_ n h hone (hfilled hs) (by omega)
    obtain ⟨self2, heq2, hrep2, -, hone2⟩ := transferMem_spec hrep hroom
      (completeChunkSize line v) fuel (by rw [bytes_window]; exact hlen) (by omega)
    rw [heq, hs, Option.elim_some, chunkTurn, hv, Outcome.ret_bind, if_neg h0, heq2,
      Outcome.ret_bind]
    simp only [ne_eq, not_true_eq_false, if_false]
    exact ih fuel (by omega) self2 _ _ hrep2 hone2 hroom

/-- **A chunked transfer ends** if and only if the walk does. -/
theorem transferChunk_ends_iff (h : self.Represents f) (to_ : Memory) :
    Ends (fun fuel => transferChunk fuel self to_) ↔ ChunksEnd f := by
  have hroom : (fresh .plain [] none).room = none := rfl
  obtain ⟨hrep, -, -, hone⟩ := h.merge
  constructor
  · rintro ⟨fuel, hends⟩
    exact chunksEnd_of_loop fuel hrep hone hroom
      ((writes_transferChunk fuel self).stops to_ (fresh .plain [] none) hends)
  · intro hw
    obtain ⟨enough, hloop⟩ := loop_of_chunksEnd hw
    refine ⟨enough, ?_⟩
    exact (writes_transferChunk enough self).stops (fresh .plain [] none) to_
      (hloop enough (Nat.le_refl _) _ _ 0 hrep hone hroom)

end Loop

end Hcpp
