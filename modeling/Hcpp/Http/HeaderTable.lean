import Hcpp.Http.HeaderBlock

/-!
# The header table as a list of entries

`http_headers` keeps texts; the proofs about what is sent of them need the
entries these came from.  `Entry.table` is the same table on entries.
-/

namespace Hcpp

/-! ## The lines of the entries -/

/-- What becomes of one line: it is skipped behind an entry, it is kept for the entry that
is to come, or it ends one. -/
theorem cutBlock_cons {skipping : Bool} {pre ls folds : List HeaderLine} {l : HeaderLine}
    {es : List Entry} (hc : cutBlock skipping pre (l :: ls) = some (folds, es)) :
    ((skipping = true ∧ l.StartsSp) ∧
        ∃ folds', cutBlock true [] ls = some (folds', es) ∧ folds = l :: folds') ∨
      (¬ (skipping = true ∧ l.StartsSp) ∧ Search.find colonSp l.text = none ∧
        cutBlock false (pre ++ [l]) ls = some (folds, es)) ∨
      ¬ (skipping = true ∧ l.StartsSp) ∧ ∃ i folds' es', Search.find colonSp l.text = some i ∧
        cutBlock true [] ls = some (folds', es') ∧ folds = [] ∧
        es = ⟨linesText pre ++ l.text.take i, pre ++ [l], folds'⟩ :: es' := by
  rw [cutBlock] at hc
  by_cases hs : skipping = true ∧ l.StartsSp
  · rw [if_pos hs, Option.map_eq_some_iff] at hc
    obtain ⟨⟨folds', es'⟩, hrec, heq⟩ := hc
    cases heq
    exact .inl ⟨hs, folds', hrec, rfl⟩
  · rw [if_neg hs] at hc
    right
    cases hl : Search.find colonSp l.text with
    | none =>
      simp only [hl] at hc
      exact .inl ⟨hs, rfl, hc⟩
    | some i =>
      simp only [hl, Option.map_eq_some_iff] at hc
      obtain ⟨⟨folds', es'⟩, hrec, heq⟩ := hc
      cases heq
      exact .inr ⟨hs, i, folds', es', rfl, hrec, rfl, rfl⟩

/-- The entries of a block, with the lines skipped behind them, are the block. -/
theorem cutBlock_flatten (ls : List HeaderLine) :
    ∀ skipping pre folds es, (skipping = true → pre = []) →
      cutBlock skipping pre ls = some (folds, es) →
      (pre ++ ls = folds ++ es.flatMap fun e => e.lines ++ e.folds) ∧
        (skipping = false → folds = []) := by
  induction ls with
  | nil =>
    intro skipping pre folds es hpre hc
    rw [cutBlock] at hc
    cases pre with
    | nil =>
      cases hc
      exact ⟨rfl, fun _ => rfl⟩
    | cons l pre => cases hc
  | cons l ls ih =>
    intro skipping pre folds es hpre hc
    rcases cutBlock_cons hc with ⟨hs, folds', hrec, rfl⟩ | ⟨-, -, hrec⟩ |
      ⟨-, i, folds', es', -, hrec, rfl, rfl⟩
    · obtain ⟨hls, -⟩ := ih true [] folds' es (fun _ => rfl) hrec
      refine ⟨?_, fun h => by rw [hs.1] at h; cases h⟩
      rw [hpre hs.1, List.nil_append, List.cons_append, ← hls, List.nil_append]
    · obtain ⟨hls, hnil⟩ := ih false (pre ++ [l]) folds es (fun h => by cases h) hrec
      refine ⟨?_, fun _ => hnil rfl⟩
      rw [← hls, List.append_assoc]
      rfl
    · obtain ⟨hls, -⟩ := ih true [] folds' es' (fun _ => rfl) hrec
      rw [List.nil_append] at hls
      refine ⟨?_, fun _ => rfl⟩
      simp only [hls, List.nil_append, List.flatMap_cons, List.append_assoc, List.cons_append]

/-- An entry ends with the line of its first `: `, and only lines that begin with a
space are skipped behind it. -/
structure Entry.Cut (e : Entry) : Prop where
  lines : ∃ pre l i, e.lines = pre ++ [l] ∧ e.name = linesText pre ++ l.text.take i ∧
    Search.find colonSp l.text = some i
  folds : ∀ l ∈ e.folds, l.StartsSp

theorem cutBlock_cut (ls : List HeaderLine) :
    ∀ skipping pre folds es, cutBlock skipping pre ls = some (folds, es) →
      (∀ l ∈ folds, l.StartsSp) ∧ ∀ e ∈ es, e.Cut := by
  induction ls with
  | nil =>
    intro skipping pre folds es hc
    rw [cutBlock] at hc
    cases pre with
    | nil =>
      cases hc
      exact ⟨by simp, by simp⟩
    | cons l pre => cases hc
  | cons l ls ih =>
    intro skipping pre folds es hc
    rcases cutBlock_cons hc with ⟨hs, folds', hrec, rfl⟩ | ⟨-, -, hrec⟩ |
      ⟨-, i, folds', es', hl, hrec, rfl, rfl⟩
    · obtain ⟨hf, he⟩ := ih true [] folds' es hrec
      refine ⟨fun l' hl' => ?_, he⟩
      rcases List.mem_cons.mp hl' with rfl | hl'
      · exact hs.2
      · exact hf l' hl'
    · exact ih false (pre ++ [l]) folds es hrec
    · obtain ⟨hf, he⟩ := ih true [] folds' es' hrec
      refine ⟨by simp, fun e hmem => ?_⟩
      rcases List.mem_cons.mp hmem with rfl | hmem
      · exact ⟨⟨pre, l, i, rfl, rfl, hl⟩, hf⟩
      · exact he e hmem

theorem entries_flatten {ls : List HeaderLine} {es : List Entry} (h : entries ls = some es) :
    ls = es.flatMap fun e => e.lines ++ e.folds := by
  unfold entries at h
  rw [Option.map_eq_some_iff] at h
  obtain ⟨⟨folds, es'⟩, hc, rfl⟩ := h
  obtain ⟨hls, hnil⟩ := cutBlock_flatten ls false [] folds es' (by simp) hc
  rw [hnil rfl, List.nil_append, List.nil_append] at hls
  exact hls

theorem entries_cut {ls : List HeaderLine} {es : List Entry} (h : entries ls = some es) :
    ∀ e ∈ es, e.Cut := by
  unfold entries at h
  rw [Option.map_eq_some_iff] at h
  obtain ⟨⟨folds, es'⟩, hc, rfl⟩ := h
  exact (cutBlock_cut ls false [] folds es' hc).2

/-! ## The table -/

namespace Entry

/-- `h[name] = line`, on entries. -/
def set (t : List Entry) (e : Entry) : List Entry :=
  if t.any fun x => x.key = e.key then t.map fun x => if x.key = e.key then e else x else t ++ [e]

/-- What is left of the entries when they have been stored in turn. -/
def table (es : List Entry) : List Entry := es.foldl set []

def pair (e : Entry) : List Char × List Char := (e.key, e.line)

theorem map_pair_set (t : List Entry) (e : Entry) :
    (set t e).map pair = Headers.set (t.map pair) e.key e.line := by
  have hany : (t.map pair).any (fun x => x.1 = e.key) = t.any fun x => x.key = e.key := by
    rw [List.any_map]
    rfl
  unfold set Headers.set
  rw [hany]
  cases t.any fun x => x.key = e.key with
  | true =>
    rw [if_pos rfl, if_pos rfl, List.map_map, List.map_map]
    congr 1
    funext x
    by_cases hx : x.key = e.key
    · simp [pair, hx]
    · simp [pair, hx]
  | false => simp [pair]

theorem storeEntries_eq (es : List Entry) : storeEntries [] es = (table es).map pair := by
  have hfold : ∀ t, storeEntries (t.map pair) es = (es.foldl set t).map pair := by
    induction es with
    | nil => intro t; rfl
    | cons e es ih =>
      intro t
      have hstep : storeEntries (t.map pair) (e :: es) =
          storeEntries (Headers.set (t.map pair) e.key e.line) es := rfl
      rw [hstep, ← map_pair_set, ih]
      rfl
  exact hfold []

theorem keys_set (t : List Entry) (e : Entry) :
    (set t e).map key = if e.key ∈ t.map key then t.map key else t.map key ++ [e.key] := by
  have hany : (t.any fun x => x.key = e.key) = true ↔ e.key ∈ t.map key := by
    simp [List.mem_map]
  unfold set
  by_cases hm : e.key ∈ t.map key
  · rw [if_pos (hany.mpr hm), if_pos hm, List.map_map]
    congr 1
    ext x
    by_cases hx : x.key = e.key
    · simp [hx]
    · simp [hx]
  · rw [if_neg fun h => hm (hany.mp h), if_neg hm, List.map_append]
    rfl

/-- The keys of the table are different. -/
theorem nodup_table (es : List Entry) : ((table es).map key).Nodup := by
  have hfold : ∀ t, (t.map key).Nodup → ((es.foldl set t).map key).Nodup := by
    induction es with
    | nil => exact fun t ht => ht
    | cons e es ih =>
      intro t ht
      apply ih _
      rw [keys_set]
      by_cases hm : e.key ∈ t.map key
      · rw [if_pos hm]
        exact ht
      · rw [if_neg hm, List.nodup_append]
        refine ⟨ht, by simp, ?_⟩
        rintro a ha b hb rfl
        rw [List.mem_singleton] at hb
        exact hm (hb ▸ ha)
  exact hfold [] List.nodup_nil

theorem mem_table {es : List Entry} {e : Entry} (h : e ∈ table es) : e ∈ es := by
  have hfold : ∀ t, e ∈ es.foldl set t → e ∈ t ∨ e ∈ es := by
    clear h
    induction es with
    | nil => exact fun t ht => Or.inl ht
    | cons d es ih =>
      intro t ht
      rcases ih _ ht with hin | hin
      · unfold set at hin
        by_cases hany : (t.any fun x => x.key = d.key) = true
        · rw [if_pos hany] at hin
          obtain ⟨x, hx, hxe⟩ := List.mem_map.mp hin
          by_cases hk : x.key = d.key
          · rw [if_pos hk] at hxe
            exact Or.inr (by simp [hxe])
          · rw [if_neg hk] at hxe
            exact Or.inl (hxe ▸ hx)
        · rw [if_neg hany, List.mem_append, List.mem_singleton] at hin
          rcases hin with hin | hin
          · exact Or.inl hin
          · exact Or.inr (by simp [hin])
      · exact Or.inr (by simp [hin])
  exact (hfold [] h).resolve_left (by simp)

section Filter

variable {p : List Char → Bool}

theorem filter_set_pos {t : List Entry} {e : Entry} (hp : p e.key = true)
    (hm : e.key ∉ (t.filter fun e => p e.key).map key) :
    (set t e).filter (fun e => p e.key) = t.filter (fun e => p e.key) ++ [e] := by
  have hany : ¬ (t.any fun x => x.key = e.key) = true := by
    intro hany
    obtain ⟨x, hx, hxe⟩ := List.any_eq_true.mp hany
    rw [decide_eq_true_eq] at hxe
    apply hm
    rw [← hxe]
    exact List.mem_map_of_mem (List.mem_filter.mpr ⟨hx, by rw [hxe]; exact hp⟩)
  unfold set
  rw [if_neg hany, List.filter_append, List.filter_singleton, hp]
  rfl

theorem filter_set_neg (t : List Entry) {e : Entry} (hp : p e.key = false) :
    (set t e).filter (fun e => p e.key) = t.filter fun e => p e.key := by
  unfold set
  by_cases hany : (t.any fun x => x.key = e.key) = true
  · rw [if_pos hany]
    clear hany
    induction t with
    | nil => rfl
    | cons x t ih =>
      rw [List.map_cons, List.filter_cons, List.filter_cons, ih]
      by_cases hx : x.key = e.key
      · rw [if_pos hx, hx, hp]
        rfl
      · rw [if_neg hx]
  · rw [if_neg hany, List.filter_append, List.filter_singleton, hp]
    exact List.append_nil _

/-- Entries whose keys are different are all kept, in their order, whatever becomes
of the others. -/
theorem filter_table {es : List Entry}
    (h : ((es.filter fun e => p e.key).map key).Nodup) :
    (table es).filter (fun e => p e.key) = es.filter fun e => p e.key := by
  have hfold : ∀ t : List Entry,
      ((t.filter (fun e => p e.key) ++ es.filter fun e => p e.key).map key).Nodup →
      (es.foldl set t).filter (fun e => p e.key) =
        t.filter (fun e => p e.key) ++ es.filter fun e => p e.key := by
    clear h
    induction es with
    | nil => intro t _; simp
    | cons e es ih =>
      intro t ht
      by_cases hp : p e.key = true
      · have hcons : (e :: es).filter (fun e => p e.key) = e :: es.filter fun e => p e.key :=
          List.filter_cons_of_pos hp
        rw [hcons] at ht ⊢
        have hset := filter_set_pos hp (fun hm => by
          rw [List.map_append, List.nodup_append] at ht
          exact ht.2.2 _ hm _ (by simp) rfl)
        have hassoc : (t.filter (fun e => p e.key) ++ [e]) ++ es.filter (fun e => p e.key) =
            t.filter (fun e => p e.key) ++ e :: es.filter fun e => p e.key := by simp
        rw [List.foldl_cons, ih (set t e) (by rw [hset, hassoc]; exact ht), hset, hassoc]
      · have hcons : (e :: es).filter (fun e => p e.key) = es.filter fun e => p e.key :=
          List.filter_cons_of_neg hp
        rw [hcons] at ht ⊢
        have hset := filter_set_neg t (by simpa using hp)
        rw [List.foldl_cons, ih (set t e) (by rw [hset]; exact ht), hset]
  exact hfold [] (by simpa using h)

end Filter

end Entry

end Hcpp
