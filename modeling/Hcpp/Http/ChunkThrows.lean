import Hcpp.Http.ChunkEnds
import Hcpp.Mem.Fueled

/-!
# How a chunked transfer ends

A transfer that ends returns or throws.  `transferChunk_throws_iff`: it throws if
and only if the walk over the cached bytes and the reads comes to a size line
that is refused (`ChunksThrow`): none in the first 18 bytes, or one without a
number.
-/

namespace Hcpp

open Memory Outcome

/-- The walk over the chunks comes to a size line that is refused. -/
inductive ChunksThrow : Feed Char → Prop where
  | overlong {f : Feed Char} (hf : ¬ Unfilled (window f).2) (h : sizeText f = none) :
      ChunksThrow f
  | refused {f : Feed Char} {line : List Char} (h : sizeText f = some line)
      (hv : hexStrTo line = .throws) : ChunksThrow f
  | oversized {f : Feed Char} {line : List Char} {v : Nat} (h : sizeText f = some line)
      (hv : hexStrTo line = .ret v) (h0 : v ≠ 0)
      (hbig : Oversized (window f).1 (completeChunkSize line v)) : ChunksThrow f
  | chunk {f : Feed Char} {line : List Char} {v : Nat} (h : sizeText f = some line)
      (hv : hexStrTo line = .ret v) (h0 : v ≠ 0)
      (hlen : completeChunkSize line v ≤ f.bytes.length)
      (hr : ChunksThrow ((window f).1.skip (completeChunkSize line v))) : ChunksThrow f

section Chunks

variable {self to_ : Memory} {f : Feed Char} {fuel n : Nat}

theorem filled_of_sizeText {line : List Char} (h : sizeText f = some line) :
    ¬ Unfilled (window f).2 := by
  intro hun
  rw [sizeText, hun.1] at h
  cases h

/-- A turn of the loop with enough fuel for the scan. -/
theorem loop_turn (h : self.Represents f) (hone : self.buffs.length ≤ 1)
    (hfill : ¬ Unfilled (window f).2) (hfuel : 18 < fuel) (to_ : Memory) (n : Nat) :
    ∃ self', self'.Represents (window f).1 ∧ transferChunkLoop (fuel + 1) self to_ n =
      (sizeText f).elim .throws (chunkTurn fuel self' to_ n) := by
  have hsteps : 18 - (cString f.cached).length ≤ 18 := Nat.sub_le _ _
  rcases scanSize_window fuel h hsteps with hspin | ⟨self', hret, hrep, -⟩
  · exact absurd hspin (scanSize_ends fuel h (by omega) hfill (by omega))
  · exact ⟨self', hrep, loop_of_scan h hone hret to_ n⟩

/-- A loop that throws has come to a line that is refused; by induction on the fuel. -/
theorem chunksThrow_of_loop (fuel : Nat) (h : self.Represents f) (hone : self.buffs.length ≤ 1)
    (hroom : to_.room = none) (hthrows : transferChunkLoop fuel self to_ n = .throws) :
    ChunksThrow f := by
  induction fuel generalizing self to_ f n with
  | zero => cases hthrows
  | succ fuel ih =>
    have hsteps : 18 - (cString f.cached).length ≤ 18 := Nat.sub_le _ _
    rcases scanSize_window fuel h hsteps with hspin | ⟨self', hret, hrep, hfill⟩
    · rw [transferChunkLoop, h.getSome hone, hspin] at hthrows
      cases hthrows
    have hwin : self'.Represents (window f).1 := hrep
    rw [loop_of_scan h hone hret] at hthrows
    cases hs : sizeText f with
    | none => exact .overlong hfill hs
    | some line =>
      rw [hs, Option.elim_some, chunkTurn] at hthrows
      rcases hexStrTo_cases line with hv | ⟨v, hv⟩
      · exact .refused hs hv
      rw [hv, Outcome.ret_bind] at hthrows
      by_cases h0 : v = 0
      · rw [if_pos h0] at hthrows
        cases hu : transferMemUntil fuel self' to_ crlfcrlf with
        | throws => exact absurd hu (transferMemUntil_ne_throws _ _ _)
        | ret x =>
          rw [hu] at hthrows
          cases hthrows
        | spins =>
          rw [hu] at hthrows
          cases hthrows
        | undefined =>
          rw [hu] at hthrows
          cases hthrows
      · rw [if_neg h0] at hthrows
        have hspin : transferMem fuel self' to_ (completeChunkSize line v) ≠ .spins := by
          intro hspin
          rw [hspin] at hthrows
          cases hthrows
        by_cases hle : completeChunkSize line v ≤ f.bytes.length
        · obtain ⟨self2, heq2, hrep2, -, hone2⟩ := transferMem_spec hwin hroom
            (completeChunkSize line v) (fuel + (completeChunkSize line v + 1))
            (by rw [bytes_window]; exact hle) (by omega)
          rw [transferMem_more _ hspin] at heq2
          rw [heq2, Outcome.ret_bind] at hthrows
          simp only [ne_eq, not_true_eq_false, if_false] at hthrows
          have htook : (to_.took ((window f).1.bytes.take (completeChunkSize line v))).room =
              none := hroom
          exact .chunk hs hv h0 hle (ih hrep2 hone2 htook hthrows)
        · by_cases hbig : Oversized (window f).1 (completeChunkSize line v)
          · exact .oversized hs hv h0 hbig
          · exact absurd (transferMem_spins hwin (by rw [bytes_window]; omega) hbig fuel) hspin

/-- A walk that comes to a refused line is one the loop makes; by induction on the walk. -/
theorem loop_of_chunksThrow (hw : ChunksThrow f) : ∃ enough, ∀ fuel, enough ≤ fuel →
    ∀ (self to_ : Memory) (n : Nat), self.Represents f → self.buffs.length ≤ 1 →
      to_.room = none → transferChunkLoop fuel self to_ n = .throws := by
  induction hw with
  | overlong hf hs =>
    refine ⟨20, fun fuel hfuel self to_ n h hone _ => ?_⟩
    obtain ⟨fuel, rfl⟩ : ∃ k, fuel = k + 1 := ⟨fuel - 1, by omega⟩
    obtain ⟨self', -, heq⟩ := loop_turn h hone hf (show 18 < fuel by omega) to_ n
    rw [heq, hs, Option.elim_none]
  | refused hs hv =>
    refine ⟨20, fun fuel hfuel self to_ n h hone _ => ?_⟩
    obtain ⟨fuel, rfl⟩ : ∃ k, fuel = k + 1 := ⟨fuel - 1, by omega⟩
    obtain ⟨self', -, heq⟩ := loop_turn h hone (filled_of_sizeText hs) (show 18 < fuel by omega)
      to_ n
    rw [heq, hs, Option.elim_some, chunkTurn, hv, Outcome.throws_bind]
  | @oversized f line v hs hv h0 hbig =>
    refine ⟨20, fun fuel hfuel self to_ n h hone _ => ?_⟩
    obtain ⟨fuel, rfl⟩ : ∃ k, fuel = k + 1 := ⟨fuel - 1, by omega⟩
    obtain ⟨self', hrep, heq⟩ := loop_turn h hone (filled_of_sizeText hs) (show 18 < fuel by omega)
      to_ n
    rw [heq, hs, Option.elim_some, chunkTurn, hv, Outcome.ret_bind, if_neg h0,
      transferMem_throws hrep hbig (by omega), Outcome.throws_bind]
  | @chunk f line v hs hv h0 hlen _ ih =>
    obtain ⟨enough, ih⟩ := ih
    refine ⟨max (enough + 1) (completeChunkSize line v + 21),
      fun fuel hfuel self to_ n h hone hroom => ?_⟩
    have h1 := le_max_left (enough + 1) (completeChunkSize line v + 21)
    have h2 := le_max_right (enough + 1) (completeChunkSize line v + 21)
    obtain ⟨fuel, rfl⟩ : ∃ k, fuel = k + 1 := ⟨fuel - 1, by omega⟩
    obtain ⟨self', hrep, heq⟩ := loop_turn h hone (filled_of_sizeText hs)
      (show 18 < fuel by omega) to_ n
    obtain ⟨self2, heq2, hrep2, -, hone2⟩ := transferMem_spec hrep hroom
      (completeChunkSize line v) fuel (by rw [bytes_window]; exact hlen) (by omega)
    rw [heq, hs, Option.elim_some, chunkTurn, hv, Outcome.ret_bind, if_neg h0, heq2,
      Outcome.ret_bind]
    simp only [ne_eq, not_true_eq_false, if_false]
    exact ih fuel (by omega) self2 _ _ hrep2 hone2 hroom

/-- **A chunked transfer throws** if and only if the walk comes to a line that is refused. -/
theorem transferChunk_throws_iff (h : self.Represents f) (to_ : Memory) :
    (∃ fuel, transferChunk fuel self to_ = .throws) ↔ ChunksThrow f := by
  have hroom : (fresh .plain [] none).room = none := rfl
  obtain ⟨hrep, -, -, hone⟩ := h.merge
  have hany : ∀ {fuel : Nat} {t t' : Memory}, transferChunk fuel self t = .throws →
      transferChunk fuel self t' = .throws := by
    intro fuel t t' hthrows
    obtain ⟨out, hout⟩ := writes_transferChunk fuel self
    have ht := hout t
    have ht' := hout t'
    simp only at ht ht'
    rw [ht] at hthrows
    rw [ht']
    cases out with
    | ret x => cases hthrows
    | throws => rfl
    | spins => cases hthrows
    | undefined => cases hthrows
  constructor
  · rintro ⟨fuel, hthrows⟩
    exact chunksThrow_of_loop fuel hrep hone hroom (hany hthrows)
  · intro hw
    obtain ⟨enough, hloop⟩ := loop_of_chunksThrow hw
    exact ⟨enough, hany (hloop enough (Nat.le_refl _) _ _ 0 hrep hone hroom)⟩

theorem fueled_scanSize (self : Memory) (csStr : List Char) :
    Fueled fun fuel => scanSize fuel self csStr := by
  intro fuel
  induction fuel generalizing self csStr with
  | zero => exact .spins _
  | succ fuel ih =>
    simp only [scanSize]
    exact .ite _ (.bind (.refl _) fun x => ih _ _) (.refl _)

theorem fueled_transferChunkLoop (self to_ : Memory) (n : Nat) :
    Fueled fun fuel => transferChunkLoop fuel self to_ n := by
  intro fuel
  induction fuel generalizing self to_ n with
  | zero => exact .spins _
  | succ fuel ih =>
    simp only [transferChunkLoop]
    refine .bind (fueled_scanSize _ _ fuel) fun x => ?_
    obtain ⟨self, csStr⟩ := x
    cases Search.find crlf csStr with
    | none => exact .refl _
    | some p =>
      refine .bind (.refl _) fun chunkSize => .ite _ ?_ ?_
      · exact .bind (fueled_transferMemUntil _ _ _ fuel) fun x => .refl _
      · exact .bind (fueled_transferMem _ _ _ fuel) fun x => .ite _ (.refl _) (ih _ _ _)

end Chunks

end Hcpp
