import Hcpp.Dns.Base64
import Hcpp.Dns.Message
import Hcpp.Dns.NameRoundTrip
import Mathlib.Data.List.Infix

/-!
# The form of a query

`host2qname` is documented to split labels of more than 63 bytes.  Its first loop
looks for the dot behind each label, so it cuts all of them but one: what
follows the last dot is taken as it is.  `Cut` is what the loop does;
`documentedLabels` are the labels that a query should have.
-/

namespace Hcpp.Dns

open DomainName

/-! ## The labels of a text -/

/-- A label in pieces of 63 bytes. -/
def cutLabel (l : List Char) : List (List Char) :=
  if l.length ≤ dnsMaxLabel then [l] else l.take dnsMaxLabel :: cutLabel (l.drop dnsMaxLabel)
termination_by l.length
decreasing_by
  rw [List.length_drop]
  unfold dnsMaxLabel at *
  omega

/-- What stands between the dots; a dot at the end ends the last label. -/
def dotLabels (name : List Char) : List (List Char) :=
  let ls := name.splitOn '.'
  if ls.getLast? = some [] then ls.dropLast else ls

/-- The labels of a query for the name, the long ones split. -/
def documentedLabels (name : List Char) : List (List Char) := (dotLabels name).flatMap cutLabel

/-- Each piece behind its length. -/
def wirePieces (ps : List (List Char)) : List Char := ps.flatMap fun p => Char.ofNat p.length :: p

/-- Each piece before a dot. -/
def dotPieces (ps : List (List Char)) : List Char := ps.flatMap fun p => p ++ ['.']

/-- The loop cuts the text into pieces, which it puts dots behind, and the last one. -/
inductive Cut : List Char → List (List Char) → List Char → Prop
  | last {t : List Char} (h : '.' ∉ t) : Cut t [] t
  | short {p r last : List Char} {ps : List (List Char)} (hp : '.' ∉ p)
      (hle : p.length ≤ dnsMaxLabel) (h : Cut r ps last) : Cut (p ++ '.' :: r) (p :: ps) last
  | long {p r last : List Char} {ps : List (List Char)} (hp : '.' ∉ p)
      (hlt : dnsMaxLabel < p.length) (h : Cut (p.drop dnsMaxLabel ++ '.' :: r) ps last) :
      Cut (p ++ '.' :: r) (p.take dnsMaxLabel :: ps) last

theorem splitHostLoop_cut (host : List Char) (fuel pos1 : Nat) (done : List Char)
    (hfuel : host.length - pos1 < fuel) :
    ∃ ps last, Cut (host.drop pos1) ps last ∧
      splitHostLoop host fuel pos1 done = .ret (done ++ dotPieces ps ++ last) := by
  induction fuel generalizing pos1 done with
  | zero => omega
  | succ fuel ih =>
    rw [splitHostLoop]
    by_cases hpos : pos1 < host.length
    · rw [if_pos hpos]
      cases hf : Search.find ['.'] (host.drop pos1) with
      | none =>
        have hno : '.' ∉ host.drop pos1 := fun h =>
          Search.find_eq_none_iff.mp hf ((List.singleton_infix_iff _ _).mpr h)
        refine ⟨[], _, .last hno, ?_⟩
        simp [dotPieces]
      | some n =>
        obtain ⟨p, r, hsplit, hp, rfl⟩ := find_dot_split hf
        have hlen := congrArg List.length hsplit
        rw [List.length_drop, List.length_append, List.length_cons] at hlen
        simp only
        by_cases hlong : p.length > dnsMaxLabel
        · rw [if_pos hlong]
          have hrest : host.drop (pos1 + dnsMaxLabel) = p.drop dnsMaxLabel ++ '.' :: r := by
            rw [← List.drop_drop, hsplit, List.drop_append_of_le_length (Nat.le_of_lt hlong)]
          have hfront : (host.drop pos1).take dnsMaxLabel = p.take dnsMaxLabel := by
            rw [hsplit, List.take_append_of_le_length (Nat.le_of_lt hlong)]
          obtain ⟨ps, last, hcut, hret⟩ := ih (pos1 + dnsMaxLabel)
            (done ++ (host.drop pos1).take dnsMaxLabel ++ ['.']) (by unfold dnsMaxLabel; omega)
          rw [hrest] at hcut
          refine ⟨p.take dnsMaxLabel :: ps, last, by rw [hsplit]; exact .long hp hlong hcut, ?_⟩
          rw [hret, hfront]
          simp [dotPieces]
        · rw [if_neg hlong]
          have hrest : host.drop (pos1 + p.length + 1) = r := by
            rw [Nat.add_assoc, ← List.drop_drop, hsplit, List.drop_length_add_append]
            rfl
          have hfront : (host.drop pos1).take p.length = p := by rw [hsplit, List.take_left]
          obtain ⟨ps, last, hcut, hret⟩ := ih (pos1 + p.length + 1)
            (done ++ (host.drop pos1).take p.length ++ ['.']) (by omega)
          rw [hrest] at hcut
          refine ⟨p :: ps, last, by rw [hsplit]; exact .short hp (Nat.not_lt.mp hlong) hcut, ?_⟩
          rw [hret, hfront]
          simp [dotPieces]
    · rw [if_neg hpos]
      refine ⟨[], [], ?_, by simp [dotPieces]⟩
      rw [List.drop_eq_nil_of_le (by omega)]
      exact .last (List.not_mem_nil)

/-- The text in front of the pieces, and their labels. -/
theorem Cut.splitOn {t last : List Char} {ps : List (List Char)} (h : Cut t ps last) :
    ∃ ls, t.splitOn '.' = ls ++ [last] ∧ ps = ls.flatMap cutLabel := by
  induction h with
  | last h => exact ⟨[], List.splitOn_eq_singleton h, rfl⟩
  | @short p r last ps hp hle _ ih =>
    obtain ⟨ls, hls, rfl⟩ := ih
    refine ⟨p :: ls, ?_, ?_⟩
    · rw [List.splitOn_append_cons_self, List.splitOn_eq_singleton hp, hls]
      rfl
    · rw [List.flatMap_cons, cutLabel, if_pos hle]
      rfl
  | @long p r last ps hp hlt _ ih =>
    obtain ⟨ls, hls, rfl⟩ := ih
    have hdrop : '.' ∉ p.drop dnsMaxLabel := fun h => hp (List.mem_of_mem_drop h)
    rw [List.splitOn_append_cons_self, List.splitOn_eq_singleton hdrop] at hls
    cases ls with
    | nil =>
      obtain ⟨q, qs, hq⟩ := List.exists_cons_of_ne_nil (List.splitOn_ne_nil '.' r)
      rw [hq] at hls
      cases hls
    | cons l ls =>
      obtain ⟨rfl, hrest⟩ := List.cons.inj hls
      refine ⟨p :: ls, ?_, ?_⟩
      · rw [List.splitOn_append_cons_self, List.splitOn_eq_singleton hp]
        exact congrArg _ hrest
      · rw [List.flatMap_cons, List.flatMap_cons, cutLabel.eq_1 p, if_neg (by omega)]
        rfl

/-- What the pieces are made of. -/
structure Pieces (t : List Char) (ps : List (List Char)) (last : List Char) : Prop where
  mem : ∀ p ∈ ps, ∀ c ∈ p, c ∈ t ∧ c ≠ '.'
  mem_last : ∀ c ∈ last, c ∈ t ∧ c ≠ '.'
  le : ∀ p ∈ ps, p.length ≤ dnsMaxLabel
  length_last : last.length ≤ t.length
  length : (dotPieces ps ++ last).length ≤ 2 * t.length

theorem dotPieces_cons (p : List Char) (ps : List (List Char)) (last : List Char) :
    dotPieces (p :: ps) ++ last = p ++ '.' :: (dotPieces ps ++ last) := by
  simp [dotPieces]

theorem wirePieces_cons (p : List Char) (ps : List (List Char)) :
    wirePieces (p :: ps) = Char.ofNat p.length :: p ++ wirePieces ps := by
  simp [wirePieces]

theorem Cut.pieces {t last : List Char} {ps : List (List Char)} (h : Cut t ps last) :
    Pieces t ps last := by
  induction h with
  | @last t h =>
    have hdot : ∀ c ∈ t, c ∈ t ∧ c ≠ '.' := fun c hc => ⟨hc, fun e => h (e ▸ hc)⟩
    refine ⟨by simp, hdot, by simp, Nat.le_refl _, ?_⟩
    simp [dotPieces]
    omega
  | @short p r last ps hp hle _ ih =>
    have hr : ∀ c ∈ r, c ∈ p ++ '.' :: r := fun c hc => by simp [hc]
    have hdot : ∀ c ∈ p, c ∈ p ++ '.' :: r ∧ c ≠ '.' :=
      fun c hc => ⟨by simp [hc], fun e => hp (e ▸ hc)⟩
    refine ⟨?_, fun c hc => (ih.mem_last c hc).imp_left (hr c), ?_, ?_, ?_⟩
    · rintro q hq c hc
      rcases List.mem_cons.mp hq with rfl | hq
      · exact hdot c hc
      · exact (ih.mem q hq c hc).imp_left (hr c)
    · rintro q hq
      rcases List.mem_cons.mp hq with rfl | hq
      · exact hle
      · exact ih.le q hq
    · have := ih.length_last
      rw [List.length_append, List.length_cons]
      omega
    · have := ih.length
      rw [dotPieces_cons]
      simp only [List.length_append, List.length_cons] at this ⊢
      omega
  | @long p r last ps hp hlt _ ih =>
    have hr : ∀ c ∈ p.drop dnsMaxLabel ++ '.' :: r, c ∈ p ++ '.' :: r := by
      intro c hc
      rcases List.mem_append.mp hc with hc | hc
      · exact List.mem_append.mpr (.inl (List.mem_of_mem_drop hc))
      · exact List.mem_append.mpr (.inr hc)
    refine ⟨?_, fun c hc => (ih.mem_last c hc).imp_left (hr c), ?_, ?_, ?_⟩
    · rintro q hq c hc
      rcases List.mem_cons.mp hq with rfl | hq
      · have hcp := List.mem_of_mem_take hc
        exact ⟨by simp [hcp], fun e => hp (e ▸ hcp)⟩
      · exact (ih.mem q hq c hc).imp_left (hr c)
    · rintro q hq
      rcases List.mem_cons.mp hq with rfl | hq
      · exact List.length_take_le _ _
      · exact ih.le q hq
    · have := ih.length_last
      simp only [List.length_append, List.length_cons, List.length_drop] at this ⊢
      omega
    · have := ih.length
      rw [dotPieces_cons]
      unfold dnsMaxLabel at *
      simp only [List.length_append, List.length_cons, List.length_drop, List.length_take] at this ⊢
      omega

/-! ## What is sent -/

/-- The labels that `host2qname` counts. -/
def sentPieces (ps : List (List Char)) (last : List Char) : List (List Char) :=
  if last = [] then ps else ps ++ [last]

theorem encoded_pieces {ps : List (List Char)} {last : List Char}
    (hps : ∀ p ∈ ps, Plain p ∧ p.length ≤ 254) (hlast : Plain last ∧ last.length ≤ 254) :
    Encoded (dotPieces ps ++ last) (wirePieces (sentPieces ps last) ++ [nul]) := by
  induction ps with
  | nil =>
    unfold sentPieces
    by_cases hnil : last = []
    · subst hnil
      exact .stop rfl
    · rw [if_neg hnil]
      have hlab := Encoded.last (t := []) hlast.1 hnil hlast.2 rfl
      simpa [dotPieces, wirePieces] using hlab
  | cons p ps ih =>
    have hp := hps p List.mem_cons_self
    have hsent : sentPieces (p :: ps) last = p :: sentPieces ps last := by
      unfold sentPieces
      split <;> rfl
    rw [dotPieces_cons, hsent, wirePieces_cons, List.append_assoc]
    exact .more hp.1 hp.2 (ih fun q hq => hps q (List.mem_cons_of_mem _ hq))

/-- The bytes of a name that `valid_name` takes. -/
theorem validName_mem {name : List Char} (h : validName name = true) {c : Char} (hc : c ∈ name) :
    c ≠ nul ∧ c.toNat < 256 := by
  unfold validName at h
  split at h
  · cases h
  · have hchar := List.all_eq_true.mp h c hc
    simp only [Bool.or_eq_true, decide_eq_true_eq] at hchar
    have hle : ∀ {a b : Char}, a ≤ c ∧ c ≤ b → a.toNat ≤ c.toNat ∧ c.toNat ≤ b.toNat :=
      fun hab => hab
    have hnul : c.toNat ≠ 0 → c ≠ nul := by
      rintro hne rfl
      exact hne rfl
    rcases hchar with (((hc | hc) | hc) | hc) | hc
    · have hab := hle hc
      simp only [Char.reduceToNat] at hab
      exact ⟨hnul (by omega), by omega⟩
    · have hab := hle hc
      simp only [Char.reduceToNat] at hab
      exact ⟨hnul (by omega), by omega⟩
    · have hab := hle hc
      simp only [Char.reduceToNat] at hab
      exact ⟨hnul (by omega), by omega⟩
    · subst hc
      exact ⟨by decide, by decide⟩
    · subst hc
      exact ⟨by decide, by decide⟩

theorem validName_length {name : List Char} (h : validName name = true) :
    2 ≤ name.length ∧ name.length ≤ 254 := by
  unfold validName at h
  split at h
  · cases h
  · omega

/-- **What `host2qname` makes of a valid name**: the pieces of the loop, and a zero byte. -/
theorem host2qname_valid {name : List Char} (h : validName name = true) :
    ∃ ls last, name.splitOn '.' = ls ++ [last] ∧ Pieces name (ls.flatMap cutLabel) last ∧
      host2qname name =
        .ret (((wirePieces (sentPieces (ls.flatMap cutLabel) last) ++ [nul]).length : Int),
          wirePieces (sentPieces (ls.flatMap cutLabel) last) ++ [nul]) := by
  obtain ⟨ps, last, hcut, hsplit⟩ := splitHostLoop_cut name (name.length + 1) 0 [] (by omega)
  rw [List.drop_zero] at hcut
  rw [List.nil_append] at hsplit
  obtain ⟨ls, hls, rfl⟩ := hcut.splitOn
  have hpieces := hcut.pieces
  have hlen := (validName_length h).2
  have hplain {q : List Char} (hq : ∀ c ∈ q, c ∈ name ∧ c ≠ '.') : Plain q :=
    ⟨fun hdot => (hq _ hdot).2 rfl, fun hnul => (validName_mem h (hq _ hnul).1).1 rfl⟩
  refine ⟨ls, last, hls, hpieces, host2qname_of_split hsplit (encoded_pieces ?_ ?_) ?_⟩
  · intro q hq
    have hle := hpieces.le q hq
    unfold dnsMaxLabel at hle
    exact ⟨hplain (hpieces.mem q hq), by omega⟩
  · have hle := hpieces.length_last
    exact ⟨hplain hpieces.mem_last, by omega⟩
  · have hle := hpieces.length
    omega

/-! ## Which names are sent well -/

/-- No label is empty, and what follows the last dot has 63 bytes at most. -/
structure FitLabels (name : List Char) : Prop where
  ne_nil : ∀ l ∈ dotLabels name, l ≠ []
  last_le : ∀ l, (name.splitOn '.').getLast? = some l → l.length ≤ dnsMaxLabel

theorem dotLabels_eq {name last : List Char} {ls : List (List Char)}
    (h : name.splitOn '.' = ls ++ [last]) :
    dotLabels name = if last = [] then ls else ls ++ [last] := by
  unfold dotLabels
  rw [h]
  by_cases hnil : last = []
  · simp [hnil]
  · simp [hnil]

theorem cutLabel_of_le {l : List Char} (h : l.length ≤ dnsMaxLabel) : cutLabel l = [l] := by
  rw [cutLabel, if_pos h]

/-- Short labels stay as they are. -/
theorem flatMap_cutLabel {ls : List (List Char)} (h : ∀ l ∈ ls, l.length ≤ dnsMaxLabel) :
    ls.flatMap cutLabel = ls := by
  have hone : ∀ l ∈ ls, cutLabel l = [l] := fun l hl => cutLabel_of_le (h l hl)
  rw [List.flatMap_congr hone, List.flatMap_singleton']

/-- A label that is not empty is cut into pieces that are not. -/
theorem ne_nil_of_mem_cutLabel {l q : List Char} (hl : l ≠ []) (hq : q ∈ cutLabel l) :
    q ≠ [] := by
  induction hn : l.length using Nat.strong_induction_on generalizing l with
  | _ n ih =>
    rw [cutLabel] at hq
    split at hq
    · rw [List.mem_singleton.mp hq]
      exact hl
    · next hlong =>
      have hpos : 0 < l.length := List.length_pos_of_ne_nil hl
      rcases List.mem_cons.mp hq with rfl | hq
      · apply List.ne_nil_of_length_pos
        rw [List.length_take]
        unfold dnsMaxLabel at *
        omega
      · have hrest : l.drop dnsMaxLabel ≠ [] := by
          apply List.ne_nil_of_length_pos
          rw [List.length_drop]
          omega
        refine ih _ ?_ hrest hq rfl
        rw [List.length_drop]
        unfold dnsMaxLabel at *
        omega

/-- Pieces of 1 to 63 bytes are the labels of a name. -/
theorem exists_name {ps : List (List Char)} (h : ∀ p ∈ ps, p ≠ [] ∧ p.length ≤ 63) :
    ∃ n : Name, n.map Label.bytes = ps := by
  induction ps with
  | nil => exact ⟨[], rfl⟩
  | cons p ps ih =>
    obtain ⟨n, hn⟩ := ih fun q hq => h q (List.mem_cons_of_mem _ hq)
    obtain ⟨hne, hle⟩ := h p List.mem_cons_self
    exact ⟨⟨p, hne, hle⟩ :: n, congrArg _ hn⟩

theorem wirePieces_labels (n : Name) : wirePieces (n.map Label.bytes) = wire n := by
  induction n with
  | nil => rfl
  | cons l n ih =>
    rw [List.map_cons, wirePieces_cons, ih, wire_cons]
    rfl

/-- The length bytes tell the pieces apart. -/
theorem wirePieces_inj {ps : List (List Char)} {n : Name} (hps : ∀ p ∈ ps, p.length < 256)
    (h : wirePieces ps = wire n) : n.map Label.bytes = ps := by
  induction ps generalizing n with
  | nil =>
    cases n with
    | nil => rfl
    | cons l n => cases h
  | cons p ps ih =>
    have hp := hps p List.mem_cons_self
    rw [wirePieces_cons] at h
    cases n with
    | nil => cases h
    | cons l n =>
      have hle := l.le
      obtain ⟨hbyte, hrest⟩ := List.cons.inj h
      have hlen : p.length = l.bytes.length := by
        have hnat := congrArg Char.toNat hbyte
        rwa [toNat_byte _ hp, toNat_byte _ (by omega)] at hnat
      obtain ⟨rfl, htail⟩ := List.append_inj hrest hlen
      rw [List.map_cons, ih (fun q hq => hps q (List.mem_cons_of_mem _ hq)) htail]

theorem mem_sentPieces {ps : List (List Char)} {last q : List Char} :
    q ∈ sentPieces ps last ↔ q ∈ ps ∨ last ≠ [] ∧ q = last := by
  unfold sentPieces
  by_cases hnil : last = []
  · simp [hnil]
  · simp [hnil]

/-- The pieces that are sent are the documented labels exactly where all labels fit. -/
theorem sentPieces_iff {name last : List Char} {ls : List (List Char)}
    (h : name.splitOn '.' = ls ++ [last]) (hp : Pieces name (ls.flatMap cutLabel) last)
    (hlen : name.length ≤ 254) :
    (∃ n : Name, wirePieces (sentPieces (ls.flatMap cutLabel) last) = wire n ∧
      n.map Label.bytes = documentedLabels name) ↔ FitLabels name := by
  have hdot := dotLabels_eq h
  have hlast : (name.splitOn '.').getLast? = some last := by rw [h, List.getLast?_concat]
  have hlast_le := hp.length_last
  constructor
  · rintro ⟨n, hwire, -⟩
    have hsmall : ∀ p ∈ sentPieces (ls.flatMap cutLabel) last, p.length < 256 := by
      intro p hmem
      rcases mem_sentPieces.mp hmem with hmem | ⟨-, rfl⟩
      · have hle := hp.le p hmem
        unfold dnsMaxLabel at hle
        omega
      · omega
    -- so each piece is a label of `n`
    have hn := wirePieces_inj hsmall hwire
    have hlabel : ∀ p ∈ sentPieces (ls.flatMap cutLabel) last, p ≠ [] ∧ p.length ≤ 63 := by
      intro p hmem
      rw [← hn] at hmem
      obtain ⟨l, -, rfl⟩ := List.mem_map.mp hmem
      exact ⟨l.ne_nil, l.le⟩
    have hls : ∀ l ∈ ls, l ≠ [] := by
      rintro l hl rfl
      have hmem : [] ∈ ls.flatMap cutLabel := by
        refine List.mem_flatMap.mpr ⟨[], hl, ?_⟩
        rw [cutLabel_of_le (Nat.zero_le _)]
        exact List.mem_singleton.mpr rfl
      exact (hlabel _ (mem_sentPieces.mpr (.inl hmem))).1 rfl
    constructor
    · rw [hdot]
      split
      · exact hls
      · next hne =>
        intro l hl
        rcases List.mem_append.mp hl with hl | hl
        · exact hls l hl
        · rw [List.mem_singleton.mp hl]
          exact hne
    · intro l hl
      rw [hlast, Option.some.injEq] at hl
      subst hl
      by_cases hne : last = []
      · subst hne
        exact Nat.zero_le _
      · exact (hlabel _ (mem_sentPieces.mpr (.inr ⟨hne, rfl⟩))).2
  · rintro ⟨hne, hle⟩
    have hlast_le := hle last hlast
    have hdoc : documentedLabels name = sentPieces (ls.flatMap cutLabel) last := by
      unfold documentedLabels sentPieces
      rw [hdot]
      split
      · rfl
      · rw [List.flatMap_append, List.flatMap_singleton, cutLabel_of_le hlast_le]
    have hlabel : ∀ p ∈ sentPieces (ls.flatMap cutLabel) last, p ≠ [] ∧ p.length ≤ 63 := by
      intro p hmem
      rcases mem_sentPieces.mp hmem with hmem | ⟨hnil, rfl⟩
      · obtain ⟨l, hl, hpl⟩ := List.mem_flatMap.mp hmem
        have hl' : l ∈ dotLabels name := by
          rw [hdot]
          split
          · exact hl
          · exact List.mem_append.mpr (.inl hl)
        exact ⟨ne_nil_of_mem_cutLabel (hne l hl') hpl, hp.le p hmem⟩
      · exact ⟨hnil, hlast_le⟩
    obtain ⟨n, hn⟩ := exists_name hlabel
    refine ⟨n, ?_, by rw [hn, hdoc]⟩
    rw [← hn, wirePieces_labels]

/-! ## The query -/

/-- A DNS query, to its last byte: the id, flags with QR = 0, one question and nothing else; the
question has the documented labels of the name, the type and the class IN. -/
def IsQuery (name : List Char) (qtype : Nat) (bytes : List Char) : Prop :=
  ∃ (id : List Char) (flags codes : Fin 256) (n : Name), id.length = 2 ∧ flags.val < 128 ∧
    n.map Label.bytes = documentedLabels name ∧
    bytes = id ++ [Char.ofNat flags, Char.ofNat codes] ++ be16 1 ++ be16 0 ++ be16 0 ++ be16 0 ++
      wireName n ++ be16 qtype ++ be16 classIN

/-- `make_query` returns nothing, or a query in base64url. -/
def SendsQuery (now : Nat) (name : List Char) (qtype : Nat) : Prop :=
  ∃ t, makeQuery now name qtype = .ret t ∧
    (t = [] ∨ ∃ bytes, Base64Url.decode t = some bytes ∧ IsQuery name qtype bytes)

theorem toNat_be16 {n : Nat} {c : Char} (hc : c ∈ be16 n) : c.toNat < 256 := by
  unfold be16 at hc
  rcases List.mem_cons.mp hc with rfl | hc
  · rw [toNat_byte _ (by omega)]
    omega
  · rw [List.mem_singleton.mp hc, toNat_byte _ (by omega)]
    omega

theorem toNat_queryHeader {id : Nat} {c : Char} (hc : c ∈ queryHeader id) : c.toNat < 256 := by
  unfold queryHeader at hc
  simp only [List.mem_append, List.mem_cons, List.not_mem_nil, or_false] at hc
  rcases hc with ((((rfl | rfl | rfl | rfl) | hc) | hc) | hc) | hc
  · rw [toNat_byte _ (by omega)]
    omega
  · rw [toNat_byte _ (by omega)]
    omega
  · decide
  · decide
  all_goals exact toNat_be16 hc

theorem toNat_wirePieces {ps : List (List Char)} (h : ∀ p ∈ ps, p.length < 256 ∧
    ∀ c ∈ p, c.toNat < 256) {c : Char} (hc : c ∈ wirePieces ps) : c.toNat < 256 := by
  obtain ⟨p, hp, hcp⟩ := List.mem_flatMap.mp hc
  rcases List.mem_cons.mp hcp with rfl | hcp
  · rw [toNat_byte _ (h p hp).1]
    exact (h p hp).1
  · exact (h p hp).2 c hcp

theorem length_wirePieces (ps : List (List Char)) (last : List Char) :
    (wirePieces (sentPieces ps last)).length ≤ (dotPieces ps ++ last).length + 1 := by
  induction ps with
  | nil =>
    unfold sentPieces
    split
    · exact Nat.zero_le _
    · simp [wirePieces, dotPieces]
  | cons p ps ih =>
    have hsent : sentPieces (p :: ps) last = p :: sentPieces ps last := by
      unfold sentPieces
      split <;> rfl
    rw [hsent, wirePieces_cons, dotPieces_cons]
    simp only [List.length_append, List.length_cons] at ih ⊢
    omega

/-- The bytes of a query: its header, the pieces that are sent, the type and the class. -/
def queryBytes (id : Nat) (ps : List (List Char)) (qtype : Nat) : List Char :=
  queryHeader id ++ (wirePieces ps ++ [nul]) ++ be16 qtype ++ be16 classIN

/-- **What `make_query` returns for a valid name.** -/
theorem makeQuery_valid (now : Nat) {name : List Char} (qtype : Nat) (h : validName name = true) :
    ∃ ls last t, name.splitOn '.' = ls ++ [last] ∧ Pieces name (ls.flatMap cutLabel) last ∧
      makeQuery now name qtype = .ret t ∧ t ≠ [] ∧
      Base64Url.decode t =
        some (queryBytes (now % 0xffff) (sentPieces (ls.flatMap cutLabel) last) qtype) := by
  obtain ⟨ls, last, hls, hp, hret⟩ := host2qname_valid h
  have hlen := (validName_length h).2
  have hlast := hp.length_last
  have hsize := length_wirePieces (ls.flatMap cutLabel) last
  have hdots := hp.length
  refine ⟨ls, last, Base64Url.encode (queryBytes (now % 0xffff)
    (sentPieces (ls.flatMap cutLabel) last) qtype), hls, hp, ?_⟩
  generalize hps : sentPieces (ls.flatMap cutLabel) last = ps at hret hsize ⊢
  have hsmall : ∀ p ∈ ps, p.length < 256 ∧ ∀ c ∈ p, c.toNat < 256 := by
    intro p hmem
    rw [← hps] at hmem
    rcases mem_sentPieces.mp hmem with hmem | ⟨-, rfl⟩
    · have hle := hp.le p hmem
      unfold dnsMaxLabel at hle
      exact ⟨by omega, fun c hc => (validName_mem h (hp.mem p hmem c hc).1).2⟩
    · exact ⟨by omega, fun c hc => (validName_mem h (hp.mem_last c hc).1).2⟩
  have hbytes : ∀ c ∈ queryBytes (now % 0xffff) ps qtype, c.toNat < 256 := by
    intro c hc
    unfold queryBytes at hc
    simp only [List.mem_append, List.mem_singleton] at hc
    rcases hc with ((hc | hc | rfl) | hc) | hc
    · exact toNat_queryHeader hc
    · exact toNat_wirePieces hsmall hc
    · decide
    · exact toNat_be16 hc
    · exact toNat_be16 hc
  have hshort : (queryBytes (now % 0xffff) ps qtype).length < (2 ^ 32 - 1) / 2 := by
    have hlength : (queryBytes (now % 0xffff) ps qtype).length = 12 + ((wirePieces ps).length + 1) +
        2 + 2 := by
      unfold queryBytes
      simp only [List.length_append, length_be16]
      rfl
    omega
  refine ⟨?_, ?_, Base64Url.decode_encode _ hbytes⟩
  · rw [makeQuery, hret, Outcome.ret_bind]
    simp only
    rw [if_neg (by simp), ← queryBytes, b64urlEncode_eq hbytes hshort]
  · intro hnil
    have hdec := Base64Url.decode_encode _ hbytes
    rw [hnil] at hdec
    cases hdec

theorem fitLabels_of_sendsQuery {now : Nat} {name : List Char} {qtype : Nat}
    (h : validName name = true) (hs : SendsQuery now name qtype) : FitLabels name := by
  obtain ⟨ls, last, t, hls, hp, hret, hne, hdec⟩ := makeQuery_valid now qtype h
  apply (sentPieces_iff hls hp (validName_length h).2).mp
  obtain ⟨t', hret', hcase⟩ := hs
  rw [hret, Outcome.ret.injEq] at hret'
  subst hret'
  rcases hcase with hnil | ⟨bytes, hdec', id, flags, codes, n, hid, -, hlabels, hbytes⟩
  · exact absurd hnil hne
  · rw [hdec, Option.some.injEq] at hdec'
    subst hdec'
    unfold queryBytes at hbytes
    -- the header has 12 bytes on both sides, and the type and the class are the same
    have hfront := List.append_cancel_right (List.append_cancel_right hbytes)
    have hname := (List.append_inj hfront (by simp [queryHeader, hid])).2
    exact ⟨n, List.append_cancel_right hname, hlabels⟩

theorem sendsQuery_of_fitLabels (now : Nat) {name : List Char} (qtype : Nat)
    (h : validName name = true) (hfit : FitLabels name) : SendsQuery now name qtype := by
  obtain ⟨ls, last, t, hls, hp, hret, hne, hdec⟩ := makeQuery_valid now qtype h
  obtain ⟨n, hwire, hlabels⟩ := (sentPieces_iff hls hp (validName_length h).2).mpr hfit
  refine ⟨t, hret, .inr ⟨_, hdec, [Char.ofNat (now % 0xffff % 256),
    Char.ofNat (now % 0xffff / 256 % 256)], 1, 0, n, rfl, by decide, hlabels, ?_⟩⟩
  rw [queryBytes, hwire]
  rfl

/-- **The form of a query.**  For a valid name, whatever the clock and the type, the query is
well formed exactly where no label is empty and the last one is not too long. -/
theorem makeQuery_wellFormed (now : Nat) (name : List Char) (qtype : Nat)
    (h : validName name = true) : SendsQuery now name qtype ↔ FitLabels name :=
  ⟨fitLabels_of_sendsQuery h, sendsQuery_of_fitLabels now qtype h⟩

/-- `a.b` is sent well. -/
theorem makeQuery_wellFormed_dotted : SendsQuery 0 "a.b".toList typeA := by
  have hsplit : ("a.b".toList).splitOn '.' = [['a'], ['b']] := by decide
  refine (makeQuery_wellFormed 0 "a.b".toList typeA (by decide)).mpr ⟨?_, ?_⟩
  · rw [@dotLabels_eq _ ['b'] [['a']] hsplit]
    decide
  · rw [hsplit]
    decide

/-- Two dots in a row make a zero byte inside the name. -/
theorem makeQuery_empty_label : ¬ SendsQuery 0 "a..b".toList typeA := by
  intro h
  have hfit := fitLabels_of_sendsQuery (by decide) h
  have hsplit : ("a..b".toList).splitOn '.' = [['a'], []] ++ [['b']] := by decide
  apply hfit.ne_nil []
  · rw [dotLabels_eq hsplit]
    decide
  · rfl

end Hcpp.Dns
