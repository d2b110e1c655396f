import Hcpp.Lib.Search

/-!
# Input that arrives in segments

What is still to come from a peer is a list of segments; after the last one the
peer has closed.  `pull` is one bounded read, `pullUntil` reads whole segments
until a pattern has been seen.  A `Feed` is what was read but not consumed,
together with the segments to come: `load` moves one read into the cache and
`skip` consumes, reading no more than it needs.  None of them changes the
letters or their order (`bytes_load`, `bytes_skip`, `pullUntil_spec`).
-/

variable {α : Type*}

namespace Feed

/-- A segment, or nothing when it is empty. -/
def rest (s : List α) (segs : List (List α)) : List (List α) :=
  if s = [] then segs else s :: segs

@[simp] theorem flatten_rest (s : List α) (segs : List (List α)) :
    (rest s segs).flatten = s ++ segs.flatten := by
  unfold rest
  by_cases h : s = []
  · simp [h]
  · simp [h]

/-- One read of at most `max` letters; `none` when the peer has closed. -/
def pull (max : Nat) : List (List α) → Option (List α × List (List α))
  | [] => none
  | [] :: segs => pull max segs
  | (x :: s) :: segs => some ((x :: s).take max, rest ((x :: s).drop max) segs)

theorem pull_eq_none_iff {max : Nat} {segs : List (List α)} :
    pull max segs = none ↔ segs.flatten = [] := by
  induction segs with
  | nil => simp [pull]
  | cons s segs ih =>
    cases s with
    | nil => simpa [pull] using ih
    | cons x s => simp [pull]

theorem flatten_of_pull {max : Nat} {segs segs' : List (List α)} {r : List α}
    (h : pull max segs = some (r, segs')) : r ++ segs'.flatten = segs.flatten := by
  induction segs with
  | nil => simp [pull] at h
  | cons s segs ih =>
    cases s with
    | nil => exact ih h
    | cons x s =>
      simp only [pull, Option.some.injEq, Prod.mk.injEq] at h
      obtain ⟨rfl, rfl⟩ := h
      rw [flatten_rest, ← List.append_assoc, List.take_append_drop, List.flatten_cons]

theorem length_of_pull {max : Nat} {segs segs' : List (List α)} {r : List α}
    (h : pull max segs = some (r, segs')) : r.length ≤ max := by
  induction segs with
  | nil => simp [pull] at h
  | cons s segs ih =>
    cases s with
    | nil => exact ih h
    | cons x s =>
      simp only [pull, Option.some.injEq, Prod.mk.injEq] at h
      obtain ⟨rfl, -⟩ := h
      rw [List.length_take]
      omega

/-- A read into a buffer with room brings at least one letter. -/
theorem ne_nil_of_pull {max : Nat} {segs segs' : List (List α)} {r : List α}
    (hmax : 0 < max) (h : pull max segs = some (r, segs')) : r ≠ [] := by
  induction segs with
  | nil => simp [pull] at h
  | cons s segs ih =>
    cases s with
    | nil => exact ih h
    | cons x s =>
      simp only [pull, Option.some.injEq, Prod.mk.injEq] at h
      obtain ⟨rfl, -⟩ := h
      obtain ⟨k, rfl⟩ : ∃ k, max = k + 1 := ⟨max - 1, by omega⟩
      simp

/-- A read with room for the segment brings it. -/
theorem pull_segment {max : Nat} {s : List α} (hs : s ≠ []) (hmax : s.length ≤ max)
    (segs : List (List α)) : pull max (s :: segs) = some (s, segs) := by
  cases s with
  | nil => exact absurd rfl hs
  | cons x s =>
    rw [pull, List.take_of_length_le hmax, List.drop_eq_nil_of_le hmax, rest, if_pos rfl]

/-- Letters are still to come, so a read brings some. -/
theorem exists_pull {max : Nat} {segs : List (List α)} (h : segs.flatten ≠ []) :
    ∃ r segs', pull max segs = some (r, segs') := by
  cases hp : pull max segs with
  | none => exact absurd (pull_eq_none_iff.mp hp) h
  | some p => exact ⟨p.1, p.2, rfl⟩

section Until

variable [DecidableEq α]

/-- Read whole segments behind `acc` until `pat` has been seen: all that was
read, the length up to the end of the first `pat`, and what is to come. -/
def pullUntil (pat : List α) : List α → List (List α) → Option (List α × Nat × List (List α))
  | _, [] => none
  | acc, s :: segs =>
    match Search.find pat (acc ++ s) with
    | some i => some (acc ++ s, i + pat.length, segs)
    | none => pullUntil pat (acc ++ s) segs

theorem pullUntil_eq_none {pat acc : List α} {segs : List (List α)}
    (h : ¬ pat <:+: acc ++ segs.flatten) : pullUntil pat acc segs = none := by
  induction segs generalizing acc with
  | nil => rfl
  | cons s segs ih =>
    rw [List.flatten_cons, ← List.append_assoc] at h
    have hs : Search.find pat (acc ++ s) = none :=
      Search.find_eq_none_iff.mpr fun hp => h (hp.trans (List.prefix_append _ _).isInfix)
    simp only [pullUntil, hs]
    exact ih h

theorem pullUntil_spec {pat acc r : List α} {n : Nat} {segs segs' : List (List α)}
    (h : pullUntil pat acc segs = some (r, n, segs')) :
    r ++ segs'.flatten = acc ++ segs.flatten ∧
      ∃ i, Search.find pat r = some i ∧ n = i + pat.length := by
  induction segs generalizing acc with
  | nil => simp [pullUntil] at h
  | cons s segs ih =>
    rw [List.flatten_cons, ← List.append_assoc]
    cases hs : Search.find pat (acc ++ s) with
    | some i =>
      simp only [pullUntil, hs, Option.some.injEq, Prod.mk.injEq] at h
      obtain ⟨rfl, rfl, rfl⟩ := h
      exact ⟨rfl, i, hs, rfl⟩
    | none =>
      simp only [pullUntil, hs] at h
      exact ih h

theorem exists_pullUntil {pat acc : List α} {segs : List (List α)}
    (hacc : ¬ pat <:+: acc) (h : pat <:+: acc ++ segs.flatten) :
    ∃ r n segs', pullUntil pat acc segs = some (r, n, segs') := by
  induction segs generalizing acc with
  | nil => simp [hacc] at h
  | cons s segs ih =>
    rw [List.flatten_cons, ← List.append_assoc] at h
    cases hs : Search.find pat (acc ++ s) with
    | some i => exact ⟨acc ++ s, i + pat.length, segs, by simp only [pullUntil, hs]⟩
    | none =>
      simp only [pullUntil, hs]
      exact ih (Search.find_eq_none_iff.mp hs) h

/-- What was read up to the end of the first `pat` is the head of the input. -/
theorem take_of_pullUntil {pat acc r : List α} {n : Nat} {segs segs' : List (List α)}
    (h : pullUntil pat acc segs = some (r, n, segs')) :
    n ≤ r.length ∧ r.take n = (acc ++ segs.flatten).take n ∧
      ∃ i, Search.find pat (acc ++ segs.flatten) = some i ∧ n = i + pat.length := by
  obtain ⟨hr, i, hi, rfl⟩ := pullUntil_spec h
  have hle := Search.find_add_length_le hi
  rw [← hr]
  exact ⟨hle, (List.take_append_of_le_length hle).symm, i, Search.find_append_of_some hi, rfl⟩

end Until

/-- Consume `n` letters of what is to come. -/
def drop : Nat → List (List α) → List (List α)
  | 0, segs => segs
  | _ + 1, [] => []
  | n + 1, s :: segs =>
    if s.length ≤ n + 1 then drop (n + 1 - s.length) segs else s.drop (n + 1) :: segs

theorem flatten_drop (n : Nat) (segs : List (List α)) :
    (drop n segs).flatten = segs.flatten.drop n := by
  induction segs generalizing n with
  | nil => cases n <;> simp [drop]
  | cons s segs ih =>
    cases n with
    | zero => simp [drop]
    | succ n =>
      rw [drop, List.flatten_cons]
      by_cases h : s.length ≤ n + 1
      · rw [if_pos h, ih, List.drop_append, List.drop_eq_nil_of_le h, List.nil_append]
      · rw [if_neg h, List.flatten_cons, List.drop_append_of_le_length (by omega)]

/-- Reading at most `n` and consuming the rest of the `n` is consuming `n`. -/
theorem drop_of_pull {n : Nat} {segs segs' : List (List α)} {r : List α}
    (hn : 0 < n) (h : pull n segs = some (r, segs')) :
    drop (n - r.length) segs' = drop n segs := by
  obtain ⟨k, rfl⟩ : ∃ k, n = k + 1 := ⟨n - 1, by omega⟩
  induction segs with
  | nil => simp [pull] at h
  | cons s segs ih =>
    cases s with
    | nil =>
      have := ih h
      simpa [drop] using this
    | cons x s =>
      simp only [pull, Option.some.injEq, Prod.mk.injEq] at h
      obtain ⟨rfl, rfl⟩ := h
      rw [drop, rest]
      by_cases hl : (x :: s).length ≤ k + 1
      · rw [if_pos hl, if_pos (List.drop_eq_nil_of_le hl), List.take_of_length_le hl]
      · have hne : (x :: s).drop (k + 1) ≠ [] := by
          rw [Ne, List.drop_eq_nil_iff]
          exact hl
        rw [if_neg hl, if_neg hne, List.length_take, Nat.min_eq_left (by omega), Nat.sub_self, drop]

end Feed

/-- What was read but not consumed, and the segments to come. -/
@[ext] structure Feed (α : Type*) where
  cached : List α
  segs : List (List α)
deriving DecidableEq, Repr

namespace Feed

/-- The letters still to be consumed, in order. -/
def bytes (f : Feed α) : List α := f.cached ++ f.segs.flatten

/-- One more read of at most `max` letters. -/
def load (max : Nat) (f : Feed α) : Feed α :=
  match pull max f.segs with
  | none => f
  | some (r, segs) => ⟨f.cached ++ r, segs⟩

theorem bytes_load (max : Nat) (f : Feed α) : (f.load max).bytes = f.bytes := by
  unfold load
  cases h : pull max f.segs with
  | none => rfl
  | some p => simp [bytes, ← flatten_of_pull h]

/-- Consume `n` letters, reading no more than needed. -/
def skip (n : Nat) (f : Feed α) : Feed α :=
  ⟨f.cached.drop n, drop (n - f.cached.length) f.segs⟩

theorem bytes_skip (n : Nat) (f : Feed α) : (f.skip n).bytes = f.bytes.drop n := by
  simp [skip, bytes, flatten_drop, List.drop_append]

/-- Read, at most `max` letters at a time, until `k` letters are cached or the
peer has closed; `steps` reads suffice when it is `k`. -/
def fillFor (max k : Nat) : Nat → Feed α → Feed α
  | 0, f => f
  | steps + 1, f => if k ≤ f.cached.length then f else fillFor max k steps (f.load max)

def fill (max k : Nat) (f : Feed α) : Feed α := fillFor max k k f

theorem fillFor_of_le {max k steps : Nat} {f : Feed α} (h : k ≤ f.cached.length) :
    fillFor max k steps f = f := by
  cases steps with
  | zero => rfl
  | succ steps => rw [fillFor, if_pos h]

theorem bytes_fillFor (max k steps : Nat) (f : Feed α) :
    (fillFor max k steps f).bytes = f.bytes := by
  induction steps generalizing f with
  | zero => rfl
  | succ steps ih =>
    rw [fillFor]
    by_cases h : k ≤ f.cached.length
    · rw [if_pos h]
    · rw [if_neg h, ih, bytes_load]

theorem bytes_fill (max k : Nat) (f : Feed α) : (f.fill max k).bytes = f.bytes :=
  bytes_fillFor max k k f

end Feed
