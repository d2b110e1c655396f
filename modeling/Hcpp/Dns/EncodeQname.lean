import Hcpp.Dns.Qname

/-!
# What `host2qname` makes of a text

`Encoded t w`: the pieces of `t` between the dots, up to the first NUL, each
behind its length, and a zero byte.  A piece may be empty, so `w` need not be a
name; it is one when `t` is the text of a name.  `host2qname` returns `w` as
long as no label has more than 63 bytes (`host2qname_encoded`).
-/

namespace Hcpp.Dns

open DomainName

/-- A stretch that the count does not stop in. -/
def Plain (p : List Char) : Prop := '.' ∉ p ∧ nul ∉ p

/-- The text ends here, for a C string. -/
def Stops (t : List Char) : Prop := t.headD nul = nul

inductive Encoded : List Char → List Char → Prop
  | stop {t : List Char} (h : Stops t) : Encoded t [nul]
  | last {p t : List Char} (hp : Plain p) (hne : p ≠ []) (hle : p.length ≤ 254) (h : Stops t) :
      Encoded (p ++ t) (Char.ofNat p.length :: p ++ [nul])
  | more {p r w : List Char} (hp : Plain p) (hle : p.length ≤ 254) (h : Encoded r w) :
      Encoded (p ++ '.' :: r) (Char.ofNat p.length :: p ++ w)

/-- No 64 bytes in a row without a dot. -/
def ShortLabels (host : List Char) : Prop :=
  ∀ i, ((host.drop i).takeWhile (· ≠ '.')).length ≤ dnsMaxLabel

/-! ## The cut -/

/-- Where the dot is found. -/
theorem find_dot_split {t : List Char} {n : Nat} (h : Search.find ['.'] t = some n) :
    ∃ p r, t = p ++ '.' :: r ∧ '.' ∉ p ∧ p.length = n := by
  obtain ⟨-, hp, hmin⟩ := Search.find_eq_some_iff.mp h
  have hlt : n + 1 ≤ t.length := Search.find_add_length_le h
  have hget : t[n] = '.' := by
    obtain ⟨u, hu⟩ := hp
    rw [List.drop_eq_getElem_cons (by omega)] at hu
    exact (List.cons.inj hu).1.symm
  refine ⟨t.take n, t.drop (n + 1), ?_, ?_, by rw [List.length_take]; omega⟩
  · rw [← hget, ← List.drop_eq_getElem_cons, List.take_append_drop]
  · intro hmem
    obtain ⟨j, hj, hjdot⟩ := List.mem_iff_getElem.mp hmem
    rw [List.length_take] at hj
    rw [List.getElem_take] at hjdot
    refine hmin j (by omega) ⟨t.drop (j + 1), ?_⟩
    rw [← hjdot]
    exact (List.drop_eq_getElem_cons (by omega)).symm

theorem find_dot {t : List Char} {n : Nat} (h : Search.find ['.'] t = some n) :
    (t.takeWhile (· ≠ '.')).length = n ∧ t.take n ++ ['.'] = t.take (n + 1) ∧ n < t.length := by
  obtain ⟨p, r, rfl, hp, rfl⟩ := find_dot_split h
  refine ⟨?_, ?_, ?_⟩
  · rw [List.takeWhile_append_of_pos, List.takeWhile_cons_of_neg (by simp), List.append_nil]
    intro c hc
    simp only [ne_eq, decide_eq_true_eq]
    rintro rfl
    exact hp hc
  · rw [List.take_left, List.take_length_add_append]
    rfl
  · rw [List.length_append, List.length_cons]
    omega

/-- Short labels are not cut. -/
theorem splitHostLoop_eq {host : List Char} (h : ShortLabels host) (fuel pos1 : Nat)
    (hfuel : host.length - pos1 < fuel) :
    splitHostLoop host fuel pos1 (host.take pos1) = .ret host := by
  induction fuel generalizing pos1 with
  | zero => omega
  | succ fuel ih =>
    rw [splitHostLoop]
    by_cases hpos : pos1 < host.length
    · rw [if_pos hpos]
      cases hf : Search.find ['.'] (host.drop pos1) with
      | none =>
        show Outcome.ret (host.take pos1 ++ host.drop pos1) = _
        rw [List.take_append_drop]
      | some n =>
        obtain ⟨hn, htake, hlt⟩ := find_dot hf
        have hle := h pos1
        rw [hn] at hle
        show (if n > dnsMaxLabel then _ else _) = _
        rw [if_neg (by omega), List.append_assoc, htake, ← List.take_add, ← Nat.add_assoc]
        exact ih _ (by omega)
    · rw [if_neg hpos, List.take_of_length_le (by omega)]

/-! ## The count -/

/-- The count runs over a plain stretch to the byte behind it. -/
theorem countLoop_plain {buf p u : List Char} {c : Char} {lastDot : Nat} (fuel i : Nat)
    (hbuf : buf.drop (lastDot + i) = p ++ c :: u) (hp : Plain p) (hc : c = '.' ∨ c = nul)
    (hi : i + p.length ≤ 255) (hfuel : p.length < fuel) :
    countLoop buf lastDot fuel i = .ret (i + p.length) := by
  induction fuel generalizing i p with
  | zero => omega
  | succ fuel ih =>
    rw [countLoop]
    cases p with
    | nil =>
      rw [getD_at_drop (t := u) (c := c) ⟨[], by rw [hbuf]; simp⟩]
      rcases hc with rfl | rfl
      · exact if_neg fun h => h.1 rfl
      · exact if_neg fun h => h.2 rfl
    | cons a p =>
      rw [List.length_cons] at hi hfuel
      have hne : a ≠ '.' ∧ a ≠ nul := by
        refine ⟨?_, ?_⟩
        · rintro rfl
          exact hp.1 List.mem_cons_self
        · rintro rfl
          exact hp.2 List.mem_cons_self
      have hrest : buf.drop (lastDot + (i + 1)) = p ++ c :: u := by
        rw [← Nat.add_assoc, ← List.drop_drop, hbuf]
        rfl
      have hp' : Plain p := ⟨fun h => hp.1 (List.mem_cons_of_mem _ h),
        fun h => hp.2 (List.mem_cons_of_mem _ h)⟩
      rw [getD_at_drop (t := p ++ c :: u) (c := a) ⟨[], by rw [hbuf]; simp⟩, if_pos hne,
        Nat.mod_eq_of_lt (by omega), ih _ hrest hp' (by omega) (by omega), List.length_cons]
      congr 1
      omega

@[simp] theorem getD_front (done : List Char) (y : Char) (t : List Char) :
    (done ++ y :: t).getD done.length nul = y :=
  getD_at_drop (t := t) (by rw [List.drop_left])

@[simp] theorem getD_front_succ (done : List Char) (y : Char) (t : List Char) :
    (done ++ y :: t).getD (done.length + 1) nul = t.headD nul := by
  rw [List.getD_eq_getElem?_getD, List.getElem?_append_right (Nat.le_add_right _ 1),
    Nat.add_sub_cancel_left, List.getElem?_cons_succ]
  cases t <;> rfl

@[simp] theorem set_front (done : List Char) (y z : Char) (t : List Char) :
    (done ++ y :: t).set done.length z = done ++ z :: t := by
  rw [List.set_append_right _ _ (Nat.le_refl _), Nat.sub_self, List.set_cons_zero]

theorem getD_piece (done p u : List Char) (y c : Char) :
    (done ++ y :: (p ++ c :: u)).getD (done.length + (p.length + 1)) nul = c := by
  have h := getD_front (done ++ y :: p) c u
  rw [List.length_append, List.length_cons, List.append_assoc] at h
  exact h

theorem getD_piece_succ (done p u : List Char) (y c : Char) :
    (done ++ y :: (p ++ c :: u)).getD (done.length + (p.length + 1) + 1) nul = u.headD nul := by
  have h := getD_front_succ (done ++ y :: p) c u
  rw [List.length_append, List.length_cons, List.append_assoc] at h
  exact h

theorem set_piece (done p u : List Char) (y c z : Char) :
    (done ++ y :: (p ++ c :: u)).set (done.length + (p.length + 1)) z =
      done ++ y :: (p ++ z :: u) := by
  have h := set_front (done ++ y :: p) c z u
  rw [List.length_append, List.length_cons, List.append_assoc, List.append_assoc] at h
  exact h

/-- The first turn at a dot: the byte there ends the count at once, and becomes 255. -/
theorem labelLoop_first {done u : List Char} {x : Char} (size fuel : Nat)
    (hx : x = '.' ∨ x = nul) (hsize : done.length < size) :
    labelLoop size (fuel + 1) (done ++ x :: u) done.length =
      if u.headD nul = nul then .ret (done ++ nul :: u, done.length)
      else labelLoop size fuel (done ++ Char.ofNat 255 :: u) done.length := by
  have hcount : countLoop (done ++ x :: u) done.length 256 0 = .ret 0 :=
    countLoop_plain (p := []) (u := u) 256 0 (by simp) ⟨by simp, by simp⟩ hx (by simp) (by simp)
  have hne : Char.ofNat 255 ≠ nul := by decide
  rw [labelLoop, if_pos hsize, hcount, Outcome.ret_bind]
  simp only [Nat.zero_add, Nat.add_zero, set_front, getD_front, getD_front_succ]
  exact if_neg hne

/-- The second turn counts to the end of the piece. -/
theorem labelLoop_second {done p u : List Char} {c : Char} (size fuel : Nat)
    (hc : c = '.' ∨ c = nul) (hp : Plain p) (hle : p.length ≤ 254) (hsize : done.length < size) :
    labelLoop size (fuel + 1) (done ++ Char.ofNat 255 :: (p ++ c :: u)) done.length =
      if c = nul then
        .ret (done ++ Char.ofNat p.length :: (p ++ c :: u), done.length + (p.length + 1))
      else if u.headD nul = nul then
        .ret (done ++ Char.ofNat p.length :: (p ++ nul :: u), done.length + (p.length + 1))
      else
        labelLoop size fuel (done ++ Char.ofNat p.length :: (p ++ c :: u))
          (done.length + (p.length + 1)) := by
  have hfull : Plain (Char.ofNat 255 :: p) := by
    refine ⟨?_, ?_⟩
    · intro hmem
      rcases List.mem_cons.mp hmem with h | h
      · revert h
        decide
      · exact hp.1 h
    · intro hmem
      rcases List.mem_cons.mp hmem with h | h
      · revert h
        decide
      · exact hp.2 h
  have hcount : countLoop (done ++ Char.ofNat 255 :: (p ++ c :: u)) done.length 256 0 =
      .ret (0 + (Char.ofNat 255 :: p).length) :=
    countLoop_plain (p := Char.ofNat 255 :: p) (u := u) 256 0 (by simp) hfull hc
      (by rw [List.length_cons]; omega) (by rw [List.length_cons]; omega)
  have hlen : 0 + (Char.ofNat 255 :: p).length = p.length + 1 := by
    rw [List.length_cons]
    omega
  have hmod : (p.length + 1 + 255) % 256 = p.length := by omega
  rw [labelLoop, if_pos hsize, hcount, Outcome.ret_bind]
  simp only [hlen, hmod, set_front, set_piece, getD_piece, getD_piece_succ]

theorem stops_append {t : List Char} (k : Nat) (h : Stops t) :
    ∃ u, t ++ List.replicate (k + 1) nul = nul :: u := by
  cases t with
  | nil => exact ⟨_, rfl⟩
  | cons c t =>
    obtain rfl : c = nul := h
    exact ⟨_, rfl⟩

theorem headD_append {t : List Char} (k : Nat) :
    (t ++ List.replicate (k + 1) nul).headD nul = t.headD nul := by
  cases t <;> rfl

theorem Plain.headD_ne {p : List Char} (hp : Plain p) (hne : p ≠ []) (u : List Char) :
    (p ++ u).headD nul ≠ nul := by
  cases p with
  | nil => exact absurd rfl hne
  | cons a p =>
    rintro rfl
    exact hp.2 List.mem_cons_self

theorem Plain.headD_dot {p : List Char} (hp : Plain p) (u : List Char) :
    (p ++ '.' :: u).headD nul ≠ nul := by
  cases p with
  | nil =>
    show '.' ≠ nul
    decide
  | cons a p => exact hp.headD_ne (List.cons_ne_nil _ _) _

theorem Encoded.eq_of_stops {t w : List Char} (h : Encoded t w) (hs : Stops t) : w = [nul] := by
  cases h with
  | stop h => rfl
  | last hp hne hle h => exact absurd hs (hp.headD_ne hne _)
  | more hp hle h => exact absurd hs (hp.headD_dot _)

theorem Encoded.length_pos {t w : List Char} (h : Encoded t w) : 0 < w.length := by
  cases h <;> exact Nat.succ_pos _

theorem Encoded.length_le {t w : List Char} (h : Encoded t w) : w.length ≤ t.length + 2 := by
  induction h with
  | stop h =>
    rw [List.length_singleton]
    omega
  | last hp hne hle h =>
    simp only [List.length_append, List.length_cons, List.length_nil]
    omega
  | more hp hle h ih =>
    simp only [List.length_append, List.length_cons]
    omega

/-- **The count writes the encoding over the text**, from the byte in front of `t`. -/
theorem labelLoop_encoded {t w : List Char} (h : Encoded t w) (hne : t ≠ []) (done : List Char)
    (x : Char) (k size fuel : Nat) (hx : x = '.' ∨ x = nul) (hsize : size = done.length + t.length)
    (hfuel : 2 * t.length + 1 ≤ fuel) :
    ∃ buf lastDot,
      labelLoop size fuel (done ++ x :: (t ++ List.replicate (k + 1) nul)) done.length =
        .ret (buf, lastDot) ∧
      buf.take (lastDot + 1) = done ++ w ∧ lastDot + 1 = (done ++ w).length := by
  have hpos := List.length_pos_of_ne_nil hne
  obtain ⟨fuel, rfl⟩ : ∃ f, fuel = f + 2 := ⟨fuel - 2, by omega⟩
  induction h generalizing done x fuel with
  | @stop t h =>
    obtain ⟨u, hu⟩ := stops_append k h
    rw [hu, labelLoop_first size _ hx (by omega)]
    refine ⟨_, _, if_pos rfl, ?_, by simp⟩
    rw [List.take_length_add_append]
    rfl
  | @last p t hp hp0 hle h =>
    obtain ⟨u, hu⟩ := stops_append k h
    rw [List.append_assoc, hu, labelLoop_first size _ hx (by omega),
      if_neg (hp.headD_ne hp0 _), labelLoop_second size _ (.inr rfl) hp hle (by omega)]
    refine ⟨_, _, if_pos rfl, ?_, by simp; omega⟩
    rw [Nat.add_assoc, List.take_length_add_append, List.take_succ_cons,
      List.take_length_add_append]
    rfl
  | @more p r w hp hle h ih =>
    rw [List.append_assoc, List.cons_append, labelLoop_first size _ hx (by omega),
      if_neg (hp.headD_dot _), labelLoop_second size _ (.inl rfl) hp hle (by omega),
      if_neg (by decide), headD_append]
    by_cases hs : r.headD nul = nul
    · -- the dot was the last byte of the text
      rw [if_pos hs, h.eq_of_stops hs]
      refine ⟨_, _, rfl, ?_, by simp; omega⟩
      rw [Nat.add_assoc, List.take_length_add_append, List.take_succ_cons,
        List.take_length_add_append]
      rfl
    · rw [if_neg hs]
      have hr : r ≠ [] := by
        rintro rfl
        exact hs rfl
      have hrpos := List.length_pos_of_ne_nil hr
      rw [List.length_append, List.length_cons] at hsize hfuel
      obtain ⟨fuel, rfl⟩ : ∃ f, fuel = f + 2 := ⟨fuel - 2, by omega⟩
      obtain ⟨buf, lastDot, hloop, htake, hlast⟩ := ih hr (done ++ Char.ofNat p.length :: p) '.'
        (.inl rfl) (by rw [List.length_append, List.length_cons]; omega) hrpos fuel (by omega)
      rw [List.length_append, List.length_cons, List.append_assoc] at hloop
      refine ⟨buf, lastDot, hloop, ?_, ?_⟩
      · rw [htake, List.append_assoc]
      · rw [hlast, List.append_assoc]

/-! ## The encoding of a text with short labels -/

theorem ShortLabels.drop {host : List Char} (h : ShortLabels host) (n : Nat) :
    ShortLabels (host.drop n) := by
  intro i
  rw [List.drop_drop]
  exact h _

/-- The piece in front of a text ends with it, at a dot or at a NUL. -/
theorem exists_piece (t : List Char) :
    ∃ p u, t = p ++ u ∧ Plain p ∧ (Stops u ∨ ∃ r, u = '.' :: r) := by
  induction t with
  | nil => exact ⟨[], [], rfl, ⟨by simp, by simp⟩, .inl rfl⟩
  | cons a t ih =>
    by_cases hdot : a = '.'
    · subst hdot
      exact ⟨[], '.' :: t, rfl, ⟨by simp, by simp⟩, .inr ⟨t, rfl⟩⟩
    by_cases hnul : a = nul
    · exact ⟨[], a :: t, rfl, ⟨by simp, by simp⟩, .inl hnul⟩
    obtain ⟨p, u, rfl, hp, hu⟩ := ih
    refine ⟨a :: p, u, rfl, ⟨fun hmem => ?_, fun hmem => ?_⟩, hu⟩
    · rcases List.mem_cons.mp hmem with h | h
      · exact hdot h.symm
      · exact hp.1 h
    · rcases List.mem_cons.mp hmem with h | h
      · exact hnul h.symm
      · exact hp.2 h

theorem Plain.length_le {p u : List Char} (hp : Plain p) (h : ShortLabels (p ++ u)) :
    p.length ≤ dnsMaxLabel := by
  have h0 := h 0
  rw [List.drop_zero, List.takeWhile_append_of_pos, List.length_append] at h0
  · omega
  · intro c hc
    simp only [ne_eq, decide_eq_true_eq]
    rintro rfl
    exact hp.1 hc

/-- Every such text has an encoding; by induction on its length, a piece at a time. -/
theorem exists_encoded {t : List Char} (h : ShortLabels t) : ∃ w, Encoded t w := by
  induction hn : t.length using Nat.strong_induction_on generalizing t with
  | _ k ih =>
    obtain ⟨p, u, rfl, hp, hu⟩ := exists_piece t
    have hle : p.length ≤ 254 := by
      have := hp.length_le h
      unfold dnsMaxLabel at this
      omega
    rcases hu with hu | ⟨r, rfl⟩
    · by_cases hne : p = []
      · subst hne
        exact ⟨_, .stop hu⟩
      · exact ⟨_, .last hp hne hle hu⟩
    · have hr : ShortLabels r := by
        have hdrop := h.drop (p.length + 1)
        rw [List.drop_length_add_append] at hdrop
        exact hdrop
      rw [List.length_append, List.length_cons] at hn
      obtain ⟨w, hw⟩ := ih r.length (by omega) hr rfl
      exact ⟨_, .more hp hle hw⟩

/-- What `host2qname` makes of the text that is left after the cut. -/
theorem host2qname_of_split {host split w : List Char}
    (hsplit : splitHostLoop host (host.length + 1) 0 [] = .ret split) (hw : Encoded split w)
    (hlen : split.length < 2048) : host2qname host = .ret ((w.length : Int), w) := by
  obtain ⟨k, hk⟩ : ∃ k, 4095 - split.length = k + 1 := ⟨4094 - split.length, by omega⟩
  rw [host2qname, hsplit, Outcome.ret_bind, if_neg (by omega)]
  by_cases hne : split = []
  · subst hne
    obtain rfl := hw.eq_of_stops rfl
    rfl
  · obtain ⟨buf, lastDot, hloop, htake, hlast⟩ := labelLoop_encoded hw hne [] nul k split.length
      (2 * split.length + 2) (.inr rfl) (by simp) (by omega)
    rw [List.nil_append] at hloop htake hlast
    rw [hk]
    show (labelLoop split.length (2 * split.length + 2)
      (nul :: (split ++ List.replicate (k + 1) nul)) ([] : List Char).length >>= _) = _
    rw [hloop, Outcome.ret_bind]
    show Outcome.ret ((lastDot : Int) + 1, buf.take (lastDot + 1)) = _
    rw [htake, ← hlast, Int.natCast_succ]

theorem host2qname_of_encoded {host w : List Char} (h : ShortLabels host) (hw : Encoded host w)
    (hlen : host.length < 2048) : host2qname host = .ret ((w.length : Int), w) := by
  have hsplit := splitHostLoop_eq h (host.length + 1) 0 (by omega)
  rw [List.take_zero] at hsplit
  exact host2qname_of_split hsplit hw hlen

/-- **`host2qname` of a text with short labels is its encoding.** -/
theorem host2qname_encoded {host : List Char} (h : ShortLabels host) (hlen : host.length < 2048) :
    ∃ w, Encoded host w ∧ host2qname host = .ret ((w.length : Int), w) := by
  obtain ⟨w, hw⟩ := exists_encoded h
  exact ⟨w, hw, host2qname_of_encoded h hw hlen⟩

theorem length_takeWhile_dot (a b : List Char) :
    ((a ++ '.' :: b).takeWhile (· ≠ '.')).length ≤ a.length := by
  induction a with
  | nil => exact Nat.zero_le _
  | cons c a ih =>
    rw [List.cons_append, List.takeWhile_cons]
    split
    · exact Nat.succ_le_succ ih
    · exact Nat.zero_le _

/-- The text of a name has short labels, whatever bytes they are made of. -/
theorem shortLabels_text (n : Name) : ShortLabels (text n) := by
  induction n with
  | nil =>
    intro i
    rw [text_nil, List.drop_nil]
    exact Nat.zero_le _
  | cons l n ih =>
    intro i
    rw [text_cons]
    by_cases hi : i ≤ l.bytes.length
    · rw [List.drop_append_of_le_length hi]
      have hle := l.le
      apply Nat.le_trans (length_takeWhile_dot _ _)
      rw [List.length_drop]
      unfold dnsMaxLabel
      omega
    · obtain ⟨j, rfl⟩ : ∃ j, i = l.bytes.length + (j + 1) := ⟨i - l.bytes.length - 1, by omega⟩
      rw [List.drop_length_add_append]
      exact ih j

theorem toLower_dot (c : Char) : c.toLower = '.' ↔ c = '.' := toLower_eq_iff (by decide)

/-- Only the dots count. -/
theorem ShortLabels.congr {a b : List Char} (h : ShortLabels a) (hab : lcs a = lcs b) :
    ShortLabels b := by
  have hlen : ∀ (s : List Char) (i : Nat), ((s.drop i).takeWhile (· ≠ '.')).length =
      (((lcs s).drop i).takeWhile (· ≠ '.')).length := by
    intro s i
    have hcomp : ((fun c : Char => decide (c ≠ '.')) ∘ Char.toLower) =
        fun c => decide (c ≠ '.') := by
      ext c
      simp [toLower_dot]
    rw [lcs, ← List.map_drop, List.takeWhile_map, List.length_map, hcomp]
  intro i
  rw [hlen, ← hab, ← hlen]
  exact h i

theorem ShortLabels.of_append {a : List Char} (h : ShortLabels (a ++ ['.'])) : ShortLabels a := by
  intro i
  refine Nat.le_trans ?_ (h i)
  rw [List.drop_append, List.takeWhile_append]
  split
  · rw [List.length_append]
    omega
  · exact Nat.le_refl _

end Hcpp.Dns
