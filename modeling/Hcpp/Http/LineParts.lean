import Hcpp.Http.HttpClient

/-!
# The endpoint and the version in a request line

`parser_reuqest_line` matches the text before the path against `endpoint_reg`
and the text behind `HTTP/` against `digit`.  `mem_ways_endpointReg` and
`mem_ways_versionReg` have the texts that match, the former with host and port
in their groups; `parserEndpoint_text`, `parserEndpoint_cases` and
`parserVersion_iff` say what is stored of them.
-/

namespace Hcpp

open Regex

/-! ## The endpoint expression -/

/-- A text of `portNumberReg`. -/
def IsPortText (p : List Char) : Prop :=
  p = ['0'] ∨ ∃ d ds, p = d :: ds ∧ isDigit d = true ∧ d ≠ '0' ∧ ds.length ≤ 4 ∧
    ∀ c ∈ ds, isDigit c = true

/-- `0|[1-9]\d{0,4}` -/
def portNumberReg : Re Char :=
  .alt (.cls (· = '0'))
    (.seq (.cls fun c => isDigit c && decide (c ≠ '0')) (.rep (.cls isDigit) 0 (some 4)))

theorem mem_ways_portNumberReg {len : Nat} {t : List Char} {x : Caps Char × List Char} :
    x ∈ ways len portNumberReg t ↔ x.1 = [] ∧ ∃ p, IsPortText p ∧ t = p ++ x.2 := by
  obtain ⟨caps, t'⟩ := x
  rw [portNumberReg, ways_alt, List.mem_append]
  constructor
  · rintro (h | h)
    · obtain ⟨c, hc, ht, hcaps⟩ := mem_clsWays.mp h
      obtain rfl : c = '0' := by simpa using hc
      exact ⟨hcaps, ['0'], .inl rfl, ht⟩
    · obtain ⟨y, hy, z, hz, hx⟩ := mem_ways_seq.mp h
      obtain ⟨d, hd, ht, hy1⟩ := mem_clsWays.mp hy
      obtain ⟨hz1, ds, hds, -, hlen, hdig⟩ := mem_reps_cls_append.mp hz
      rw [Prod.mk.injEq] at hx
      obtain ⟨rfl, rfl⟩ := hx
      rw [Bool.and_eq_true, decide_eq_true_eq] at hd
      refine ⟨by rw [hy1, hz1]; rfl, d :: ds, .inr ⟨d, ds, rfl, hd.1, hd.2, hlen, hdig⟩, ?_⟩
      rw [ht, hds]
      rfl
  · rintro ⟨hcaps, p, rfl | ⟨d, ds, rfl, hd, hd0, hlen, hdig⟩, rfl⟩
    · left
      exact mem_clsWays.mpr ⟨'0', by decide, rfl, hcaps⟩
    · right
      refine mem_ways_seq.mpr ⟨([], ds ++ t'), ?_, ([], t'), ?_, ?_⟩
      · exact mem_clsWays.mpr ⟨d, by simp [hd, hd0], rfl, rfl⟩
      · exact mem_reps_cls_append.mpr ⟨rfl, ds, rfl, Nat.zero_le _, hlen, hdig⟩
      · rw [Prod.mk.injEq]
        exact ⟨hcaps, rfl⟩

theorem take_sub_length (u t : List Char) : (u ++ t).take ((u ++ t).length - t.length) = u := by
  rw [List.length_append, Nat.add_sub_cancel, List.take_left]

/-- `(:(0|[1-9]\d{0,4}))` -/
def portReg : Re Char := .grp 2 (.seq (.cls (· = ':')) (.grp 3 portNumberReg))

theorem mem_ways_portReg {len : Nat} {t : List Char} {x : Caps Char × List Char} :
    x ∈ ways len portReg t ↔
      ∃ p, IsPortText p ∧ t = ':' :: p ++ x.2 ∧ x.1 = [(2, ':' :: p), (3, p)] := by
  rw [portReg]
  constructor
  · intro hx
    obtain ⟨y, hy, rfl⟩ := mem_ways_grp.mp hx
    obtain ⟨v, hv, w, hw, rfl⟩ := mem_ways_seq.mp hy
    obtain ⟨c, hc, rfl, hv1⟩ := mem_clsWays.mp hv
    obtain ⟨u, hu, rfl⟩ := mem_ways_grp.mp hw
    obtain ⟨hu1, p, hp, hv2⟩ := mem_ways_portNumberReg.mp hu
    obtain rfl : c = ':' := by simpa using hc
    have hcons : ':' :: v.2 = (':' :: p) ++ u.2 := by rw [hv2]; rfl
    refine ⟨p, hp, hcons, ?_⟩
    simp only [hcons, take_sub_length]
    rw [hv1, hu1, hv2, take_sub_length]
    rfl
  · rintro ⟨p, hp, rfl, hx⟩
    refine mem_ways_grp.mpr ⟨([(3, p)], x.2), mem_ways_seq.mpr ⟨([], p ++ x.2), ?_,
      ([(3, p)], x.2), ?_, rfl⟩, ?_⟩
    · exact mem_clsWays.mpr ⟨':', rfl, rfl, rfl⟩
    · refine mem_ways_grp.mpr ⟨([], x.2), mem_ways_portNumberReg.mpr ⟨rfl, p, hp, rfl⟩, ?_⟩
      simp only [take_sub_length]
    · simp only [take_sub_length]
      rw [← hx]

/-- The texts of the endpoint expression, and their groups. -/
theorem mem_ways_endpointReg {s : List Char} {caps : Caps Char} :
    (caps, []) ∈ ways s.length endpointReg s ↔
      ∃ host, (host ≠ [] ∧ ∀ c ∈ host, isHostChar c = true) ∧
        ((s = host ∧ caps = [(1, host)]) ∨ ∃ port, IsPortText port ∧ s = host ++ ':' :: port ∧
          caps = [(1, host), (2, ':' :: port), (3, port)]) := by
  have hreg : endpointReg = .seq .bol (.seq (.grp 1 (.rep (.cls isHostChar) 1 none))
      (.rep portReg 0 (some 1))) := rfl
  have hopt : ∀ {t : List Char} {c : Caps Char},
      (c, []) ∈ ways s.length (.rep portReg 0 (some 1)) t ↔ (t = [] ∧ c = []) ∨
        ∃ p, IsPortText p ∧ t = ':' :: p ∧ c = [(2, ':' :: p), (3, p)] := by
    intro t c
    simp only [ways, Option.getD_some, reps, List.mem_append, List.mem_flatMap, if_true,
      List.mem_singleton, List.map_singleton, Prod.mk.injEq, List.append_nil]
    constructor
    · rintro (⟨x, hx, rfl, hnil⟩ | ⟨rfl, hnil⟩)
      · obtain ⟨p, hp, ht, hcaps⟩ := mem_ways_portReg.mp hx
        rw [← hnil, List.append_nil] at ht
        exact .inr ⟨p, hp, ht, hcaps⟩
      · exact .inl ⟨hnil.symm, rfl⟩
    · rintro (⟨rfl, rfl⟩ | ⟨p, hp, rfl, rfl⟩)
      · exact .inr ⟨rfl, rfl⟩
      · exact .inl ⟨(_, []), mem_ways_portReg.mpr ⟨p, hp, by simp, rfl⟩, rfl, rfl⟩
  rw [hreg, ways_seq_bol]
  constructor
  · intro h
    obtain ⟨v, hv, w, hw, hx⟩ := mem_ways_seq.mp h
    obtain ⟨u, hu, rfl⟩ := mem_ways_grp.mp hv
    obtain ⟨hu1, host, hs, hlo, -, hhost⟩ := mem_reps_cls_append.mp hu
    rw [Prod.mk.injEq] at hx
    obtain ⟨hcaps, hnil⟩ := hx
    obtain ⟨wc, wr⟩ := w
    subst hnil
    have hcut : s.take (s.length - u.2.length) = host := by rw [hs, take_sub_length]
    simp only [hcut, hu1] at hcaps hw
    refine ⟨host, ⟨List.ne_nil_of_length_pos hlo, hhost⟩, ?_⟩
    rcases hopt.mp hw with ⟨ht, rfl⟩ | ⟨p, hp, ht, rfl⟩
    · left
      rw [ht, List.append_nil] at hs
      exact ⟨hs, hcaps⟩
    · right
      exact ⟨p, hp, by rw [hs, ht], hcaps⟩
  · rintro ⟨host, ⟨hne, hhost⟩, h⟩
    obtain ⟨t, c, hs, hcaps, ht⟩ : ∃ t c, s = host ++ t ∧ caps = (1, host) :: c ∧
        (c, []) ∈ ways s.length (.rep portReg 0 (some 1)) t := by
      rcases h with ⟨rfl, rfl⟩ | ⟨p, hp, rfl, rfl⟩
      · exact ⟨[], [], by simp, rfl, hopt.mpr (.inl ⟨rfl, rfl⟩)⟩
      · exact ⟨':' :: p, _, rfl, rfl, hopt.mpr (.inr ⟨p, hp, rfl, rfl⟩)⟩
    refine mem_ways_seq.mpr ⟨([(1, host)], t), ?_, (c, []), ht, by rw [hcaps]; rfl⟩
    refine mem_ways_grp.mpr ⟨([], t), ?_, by rw [hs, take_sub_length]⟩
    have hpos := List.length_pos_of_ne_nil hne
    refine mem_reps_cls_append.mpr ⟨rfl, host, hs, hpos, ?_, hhost⟩
    rw [hs, List.length_append]
    show host.length ≤ host.length + t.length
    omega
/-! ## Host and port -/

/-- What the expression and the bound on the port let pass. -/
structure Authority where
  host : List Char
  port : Option (List Char)
  host_chars : host ≠ [] ∧ ∀ c ∈ host, isHostChar c = true
  port_number : ∀ p ∈ port, IsPortText p ∧ stoul 10 p ≤ 65535

namespace Authority

def text (e : Authority) : List Char :=
  match e.port with
  | none => e.host
  | some p => e.host ++ ':' :: p

/-- The port is 80 when there is none. -/
def portText (e : Authority) : List Char := e.port.getD "80".toList

def store (e : Authority) (h : HttpRequest) : HttpRequest :=
  { h with host := e.host, port := e.portText }

theorem text_ne_nil (e : Authority) : e.text ≠ [] := by
  unfold text
  cases e.port with
  | none => exact e.host_chars.1
  | some p => simp

end Authority

theorem fullMatch_endpointReg {s : List Char} {caps : Caps Char}
    (h : fullMatch endpointReg s = some caps) :
    ∃ host, (host ≠ [] ∧ ∀ c ∈ host, isHostChar c = true) ∧ group 1 caps = some host ∧
      ((s = host ∧ group 3 caps = none) ∨ ∃ port, IsPortText port ∧ s = host ++ ':' :: port ∧
        group 3 caps = some port) := by
  obtain ⟨host, hhost, hs⟩ := mem_ways_endpointReg.mp (exists_way_of_fullMatch h)
  refine ⟨host, hhost, ?_, ?_⟩
  · rcases hs with ⟨-, rfl⟩ | ⟨port, -, -, rfl⟩ <;> rfl
  · rcases hs with ⟨hs, rfl⟩ | ⟨port, hport, hs, rfl⟩
    · exact .inl ⟨hs, rfl⟩
    · exact .inr ⟨port, hport, hs, rfl⟩

theorem cut_at {c : Char} {s t x y : List Char} (hs : c ∉ s) (ht : c ∉ t)
    (h : s ++ c :: x = t ++ c :: y) : s = t ∧ x = y := by
  have hcut : ∀ {s x : List Char}, c ∉ s → (s ++ c :: x).takeWhile (· ≠ c) = s := by
    intro s x hs
    rw [List.takeWhile_append_of_pos, List.takeWhile_cons_of_neg (by simp), List.append_nil]
    intro d hd
    simp only [ne_eq, decide_eq_true_eq]
    rintro rfl
    exact hs hd
  have hst : s = t := by rw [← hcut (x := x) hs, h, hcut ht]
  subst hst
  exact ⟨rfl, (List.cons.inj (List.append_cancel_left h)).2⟩

/-- A text is an endpoint in one way. -/
theorem host_cut {host host' : List Char} (hh : ∀ c ∈ host, isHostChar c = true)
    (hh' : ∀ c ∈ host', isHostChar c = true) :
    (∀ p, host ≠ host' ++ ':' :: p) ∧
      ∀ p p', host ++ ':' :: p = host' ++ ':' :: p' → host = host' ∧ p = p' := by
  have hcolon : ∀ {t : List Char}, (∀ c ∈ t, isHostChar c = true) → ':' ∉ t := by
    intro t ht hc
    exact absurd (ht _ hc) (by decide)
  refine ⟨fun p hp => hcolon hh ?_, fun p p' => cut_at (hcolon hh) (hcolon hh')⟩
  rw [hp]
  simp

theorem parserEndpoint_text (e : Authority) (h : HttpRequest) :
    parserEndpoint e.text h = some (e.store h, true) := by
  obtain ⟨caps, hm⟩ : ∃ caps, fullMatch endpointReg e.text = some caps := by
    unfold Authority.text
    cases hp : e.port with
    | none => exact exists_fullMatch (mem_ways_endpointReg.mpr ⟨_, e.host_chars, .inl ⟨rfl, rfl⟩⟩)
    | some p =>
      exact exists_fullMatch (mem_ways_endpointReg.mpr
        ⟨_, e.host_chars, .inr ⟨p, (e.port_number p hp).1, rfl, rfl⟩⟩)
  obtain ⟨host, hhost, h1, h3⟩ := fullMatch_endpointReg hm
  obtain ⟨hno, hcut⟩ := host_cut e.host_chars.2 hhost.2
  obtain ⟨hno', -⟩ := host_cut hhost.2 e.host_chars.2
  unfold parserEndpoint
  simp only [hm, h1, Option.getD_some]
  unfold Authority.text at h3
  cases hp : e.port with
  | none =>
    rw [hp] at h3
    rcases h3 with ⟨heq, h3⟩ | ⟨port, -, heq, -⟩
    · simp only [h3]
      rw [Authority.store, Authority.portText, hp, ← heq]
      rfl
    · exact absurd heq (hno port)
  | some p =>
    rw [hp] at h3
    rcases h3 with ⟨heq, -⟩ | ⟨port, -, heq, h3⟩
    · exact absurd heq.symm (hno' p)
    · obtain ⟨rfl, rfl⟩ := hcut _ _ heq
      simp only [h3]
      rw [if_neg (Nat.not_lt.mpr (e.port_number p hp).2), Authority.store, Authority.portText, hp]
      rfl

theorem parserEndpoint_cases {service : List Char} {h h' : HttpRequest} {matched : Bool}
    (hp : parserEndpoint service h = some (h', matched)) :
    (matched = false ∧ h' = h) ∨
      (matched = true ∧ ∃ e : Authority, service = e.text ∧ h' = e.store h) := by
  unfold parserEndpoint at hp
  cases hm : fullMatch endpointReg service with
  | none =>
    rw [hm] at hp
    cases hp
    exact Or.inl ⟨rfl, rfl⟩
  | some caps =>
    obtain ⟨host, hhost, h1, hport⟩ := fullMatch_endpointReg hm
    right
    rw [hm] at hp
    rcases hport with ⟨rfl, h3⟩ | ⟨port, hnum, rfl, h3⟩
    · simp only [h1, h3, Option.getD_some, Option.some.injEq, Prod.mk.injEq] at hp
      obtain ⟨rfl, rfl⟩ := hp
      exact ⟨rfl, ⟨service, none, hhost, by simp⟩, rfl, rfl⟩
    · simp only [h1, h3, Option.getD_some] at hp
      by_cases hbig : stoul 10 port > 65535
      · rw [if_pos hbig] at hp
        cases hp
      · rw [if_neg hbig, Option.some.injEq, Prod.mk.injEq] at hp
        obtain ⟨rfl, rfl⟩ := hp
        refine ⟨rfl, ⟨host, some port, hhost, fun p hp => ?_⟩, rfl, rfl⟩
        rw [Option.mem_def, Option.some.injEq] at hp
        subst hp
        exact ⟨hnum, Nat.not_lt.mp hbig⟩

/-- `text` is `host`, or `host:port` with `port` other than the default. -/
def IsService (text host port : List Char) : Prop :=
  (text = host ∧ port = "80".toList) ∨ text = host ++ ':' :: port

theorem Authority.isService (a : Authority) (h : HttpRequest) :
    IsService a.text (a.store h).host (a.store h).port := by
  unfold text store portText
  cases a.port with
  | none => exact Or.inl ⟨rfl, rfl⟩
  | some p => exact Or.inr rfl

theorem parserEndpoint_method {service : List Char} {h h' : HttpRequest} {matched : Bool}
    (hp : parserEndpoint service h = some (h', matched)) : h'.method = h.method := by
  rcases parserEndpoint_cases hp with ⟨-, rfl⟩ | ⟨-, a, -, rfl⟩ <;> rfl

/-! ## The version -/

/-- `HTTP/`, 1 to 5 digits, a dot and 1 to 10 digits. -/
def IsVersion (v : List Char) : Prop :=
  ∃ a b, v = "HTTP/".toList ++ (a ++ '.' :: b) ∧ (∀ c ∈ a ++ b, isDigit c = true) ∧
    1 ≤ a.length ∧ a.length ≤ 5 ∧ 1 ≤ b.length ∧ b.length ≤ 10

theorem mem_ways_versionReg {s : List Char} {caps : Caps Char} :
    (caps, []) ∈ ways s.length versionReg s ↔ caps = [] ∧ ∃ a b, s = a ++ '.' :: b ∧
      (∀ c ∈ a ++ b, isDigit c = true) ∧ 1 ≤ a.length ∧ a.length ≤ 5 ∧ 1 ≤ b.length ∧
      b.length ≤ 10 := by
  rw [versionReg, ways_seq_bol]
  constructor
  · intro h
    obtain ⟨⟨yc, y⟩, hy, z, hz, hx⟩ := mem_ways_seq.mp h
    obtain ⟨hyc, a, hs, hlo, hhi, ha⟩ := mem_reps_cls_append.mp hy
    obtain ⟨v, hv, w, hw, rfl⟩ := mem_ways_seq.mp hz
    obtain ⟨c, hc, hyt, hvc⟩ := mem_clsWays.mp hv
    obtain ⟨⟨uc, u⟩, hu, t, ht, rfl⟩ := mem_ways_seq.mp hw
    obtain ⟨huc, b, hvt, hlo', hhi', hb⟩ := mem_reps_cls_append.mp hu
    obtain rfl : c = '.' := by simpa using hc
    rw [ways] at ht
    by_cases hu0 : u = []
    · rw [if_pos hu0, List.mem_singleton] at ht
      subst ht
      rw [Prod.mk.injEq] at hx
      refine ⟨?_, a, b, ?_, ?_, hlo, hhi, hlo', hhi'⟩
      · rw [hx.1, hyc, hvc, huc]
        rfl
      · dsimp only at hyt
        rw [hs, hyt, hvt, hu0, List.append_nil]
      · intro d hd
        rcases List.mem_append.mp hd with hd | hd
        · exact ha d hd
        · exact hb d hd
    · simp [hu0] at ht
  · rintro ⟨rfl, a, b, rfl, hdig, hlo, hhi, hlo', hhi'⟩
    refine mem_ways_seq.mpr ⟨([], '.' :: b), ?_, ([], []), ?_, rfl⟩
    · exact mem_reps_cls_append.mpr ⟨rfl, a, rfl, hlo, hhi, fun c hc => hdig c (by simp [hc])⟩
    · refine mem_ways_seq.mpr ⟨([], b), ?_, ([], []), ?_, rfl⟩
      · exact mem_clsWays.mpr ⟨'.', rfl, rfl, rfl⟩
      · refine mem_ways_seq.mpr ⟨([], []), ?_, ([], []), by simp [ways], rfl⟩
        exact mem_reps_cls_append.mpr
          ⟨rfl, b, by simp, hlo', hhi', fun c hc => hdig c (by simp [hc])⟩

theorem IsVersion.chars {v : List Char} (h : IsVersion v) :
    ∀ c ∈ v, c ≠ ' ' ∧ c ≠ '\r' ∧ c ≠ '\n' := by
  obtain ⟨a, b, rfl, hdig, -⟩ := h
  have hd : ∀ c, isDigit c = true → c ≠ ' ' ∧ c ≠ '\r' ∧ c ≠ '\n' := fun c hc =>
    ⟨ne_of_class hc (by decide), ne_of_class hc (by decide), ne_of_class hc (by decide)⟩
  have hhttp : ∀ c ∈ "HTTP/".toList, c ≠ ' ' ∧ c ≠ '\r' ∧ c ≠ '\n' := by decide
  intro c hc
  rcases List.mem_append.mp hc with hc | hc
  · exact hhttp c hc
  · rcases List.mem_append.mp hc with hc | hc
    · exact hd c (hdig c (by simp [hc]))
    · rcases List.mem_cons.mp hc with rfl | hc
      · decide
      · exact hd c (hdig c (by simp [hc]))

/-- A beginning without `c` ends before the first `c`. -/
theorem isPrefixOf_cut {c : Char} {p a b : List Char} (hp : c ∉ p) :
    p.isPrefixOf (a ++ c :: b) = p.isPrefixOf a := by
  rw [Bool.eq_iff_iff, List.isPrefixOf_iff_prefix, List.isPrefixOf_iff_prefix]
  constructor
  · intro h
    by_cases hle : p.length ≤ a.length
    · exact List.prefix_of_prefix_length_le h (List.prefix_append _ _) hle
    · have hsp : a ++ [c] <+: a ++ c :: b := (List.prefix_append_right_inj a).mpr ⟨b, rfl⟩
      have hin : a ++ [c] <+: p := by
        apply List.prefix_of_prefix_length_le hsp h
        rw [List.length_append, List.length_singleton]
        omega
      exact absurd (hin.subset (by simp)) hp
  · intro h
    exact h.trans (List.prefix_append _ _)

theorem find_crlf_end {v : List Char} (hv : ¬ crlf <:+: v) :
    Search.find crlf (v ++ crlf) = some v.length := by
  have hend := Search.find_pair_end (a := '\r') (b := '\n') (by decide) hv []
  rwa [List.append_nil] at hend

/-- What is left of the line is a version. -/
theorem parserVersion_iff {v : List Char} (hv : ¬ crlf <:+: v) {h h' : HttpRequest} :
    parserVersion (v ++ crlf) h = some h' ↔ IsVersion v ∧ h' = { h with version := v } := by
  have hcut : (v ++ crlf).take ((v ++ crlf).length - 2) = v := take_sub_length v crlf
  unfold parserVersion
  rw [hcut]
  constructor
  · intro hp
    by_cases hpre : "HTTP/".toList.isPrefixOf (v ++ crlf) = true
    · rw [if_pos hpre] at hp
      -- the five letters are none of the line end
      have hcr : v ++ crlf = v ++ '\r' :: ['\n'] := rfl
      rw [hcr, isPrefixOf_cut (by decide), List.isPrefixOf_iff_prefix] at hpre
      obtain ⟨w, rfl⟩ := hpre
      have hw : ¬ crlf <:+: w := fun h => hv (h.trans (List.suffix_append _ w).isInfix)
      have hdrop : ("HTTP/".toList ++ w ++ crlf).drop 5 = w ++ crlf := by
        rw [List.append_assoc]
        exact List.drop_left' rfl
      simp only [hdrop, find_crlf_end hw, List.take_left] at hp
      cases hm : fullMatch versionReg w with
      | none => simp [hm] at hp
      | some caps =>
        simp only [hm, Option.some.injEq] at hp
        obtain ⟨-, a, b, rfl, hrest⟩ := mem_ways_versionReg.mp (exists_way_of_fullMatch hm)
        exact ⟨⟨a, b, rfl, hrest⟩, hp.symm⟩
    · rw [if_neg hpre] at hp
      cases hp
  · rintro ⟨⟨a, b, rfl, hrest⟩, rfl⟩
    have hw : ¬ crlf <:+: a ++ '.' :: b := fun h =>
      hv (h.trans (List.suffix_append _ _).isInfix)
    have hpre : "HTTP/".toList.isPrefixOf ("HTTP/".toList ++ (a ++ '.' :: b) ++ crlf) = true := by
      rw [List.isPrefixOf_iff_prefix, List.append_assoc]
      exact List.prefix_append _ _
    have hdrop : ("HTTP/".toList ++ (a ++ '.' :: b) ++ crlf).drop 5 = a ++ '.' :: b ++ crlf := by
      rw [List.append_assoc]
      exact List.drop_left' rfl
    obtain ⟨caps, hm⟩ := exists_fullMatch (mem_ways_versionReg.mpr ⟨rfl, a, b, rfl, hrest⟩)
    rw [if_pos hpre]
    simp only [hdrop, find_crlf_end hw, List.take_left, hm]

end Hcpp
