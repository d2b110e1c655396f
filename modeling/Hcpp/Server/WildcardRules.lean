import Mathlib.Data.List.Forall2
import Hcpp.Http.ChunkedBody
import Hcpp.Server.ProxyService

/-!
# What the wildcard rules do

`config_to` registers the first wildcard of the list and drops the others: none
is lost exactly when the hosts of each dropped one belong to other rules anyway
(`registered_iff`).  The regex of the one that is kept takes a dot of the domain
for any letter, and what stands before the domain for one line (`wildcard_exact`).
-/

namespace Hcpp

open Regex

/-- The `*.` groups in front of the domain, which has a letter at least. -/
def starGroups : List Char → Nat
  | '*' :: '.' :: c :: s => starGroups (c :: s) + 1
  | _ => 0

section Registered

variable (regex : List Char → Option (List Char → Bool))

/-- The regex of the entry matches the host, as `find` reads it. -/
def InterceptSet.Accepts (i : InterceptSet) (host : List Char) : Prop :=
  ∃ r, regex (starsReplaced i.starred.host) = some r ∧ r (cString host) = true

/-- Entry `n` goes before entry `m`: fewer groups first, then the order of the list. -/
def Before (n : Nat) (x : InterceptSet) (m : Nat) (e : InterceptSet) : Prop :=
  starGroups x.host < starGroups e.host ∨ starGroups x.host = starGroups e.host ∧ n < m

/-- An exact entry, or a wildcard that goes before entry `m`, takes the host. -/
def Shadowed (es : List InterceptSet) (m : Nat) (e : InterceptSet) (host : List Char) : Prop :=
  (∃ x ∈ es, ¬ x.Wildcard ∧ x.host = cString host) ∨
    ∃ n x, es[n]? = some x ∧ x.Wildcard ∧ Before n x m e ∧ x.Accepts regex host

/-- No wildcard of the list is lost. -/
def Registered (es : List InterceptSet) (hh : HttpHandler) : Prop :=
  ∀ m e, es[m]? = some e → e.Wildcard → ∀ host, e.Accepts regex host →
    ¬ Shadowed regex es m e host → hh.find host = some e.starred

/-- Whatever a wildcard behind another one matches, a rule that goes before it takes. -/
def LaterShadowed (es : List InterceptSet) : Prop :=
  ∀ k m x e, k < m → es[k]? = some x → x.Wildcard → es[m]? = some e → e.Wildcard →
    ∀ host, e.Accepts regex host → Shadowed regex es m e host

end Registered

section Registered

variable {regex : List Char → Option (List Char → Bool)} {es : List InterceptSet}

/-- A rewritten `*` is no wildcard, so that the rewriting keeps the hosts apart. -/
theorem starred_injective {i j : InterceptSet} (hi : i.Wildcard) (hj : j.Wildcard)
    (h : i.starred = j.starred) : i.host = j.host := by
  have hdot : ∀ x : InterceptSet, x.Wildcard → x.host ≠ ['*', '.'] := by
    intro x hx heq
    unfold InterceptSet.Wildcard at hx
    rw [heq] at hx
    revert hx
    decide
  have hhost := congrArg InterceptSet.host h
  unfold InterceptSet.starred at hhost
  by_cases h1 : i.host = ['*'] <;> by_cases h2 : j.host = ['*']
  · rw [h1, h2]
  · rw [if_pos h1, if_neg h2] at hhost
    exact absurd hhost.symm (hdot j hj)
  · rw [if_neg h1, if_pos h2] at hhost
    exact absurd hhost (hdot i hi)
  · rw [if_neg h1, if_neg h2] at hhost
    exact hhost

/-- No wildcard at all, or a first one. -/
theorem first_wildcard
    (hall : ∀ i ∈ es, i.Wildcard → (regex (starsReplaced i.starred.host)).isSome) :
    ((∀ i ∈ es, ¬ i.Wildcard) ∧ wildcards regex es = []) ∨
      ∃ (k : Nat) (x : InterceptSet) (r : List Char → Bool), es[k]? = some x ∧ x.Wildcard ∧
        (∀ j < k, ∀ y : InterceptSet, es[j]? = some y → ¬ y.Wildcard) ∧
        regex (starsReplaced x.starred.host) = some r ∧
        (wildcards regex es).take 1 = [(r, x.starred)] := by
  induction es with
  | nil => exact Or.inl ⟨by simp, rfl⟩
  | cons i es ih =>
    by_cases hw : i.Wildcard
    · right
      obtain ⟨r, hr⟩ := Option.isSome_iff_exists.mp (hall i (by simp) hw)
      refine ⟨0, i, r, rfl, hw, fun j hj => absurd hj (Nat.not_lt_zero j), hr, ?_⟩
      simp [wildcards, hw, hr]
    · have hskip : wildcards regex (i :: es) = wildcards regex es := by simp [wildcards, hw]
      rw [hskip]
      rcases ih fun j hj => hall j (by simp [hj]) with ⟨hnone, hnil⟩ | ⟨k, x, r, hx, hwx, hbef, h⟩
      · left
        refine ⟨?_, hnil⟩
        intro j hj
        rcases List.mem_cons.mp hj with rfl | hj
        · exact hw
        · exact hnone j hj
      · right
        refine ⟨k + 1, x, r, hx, hwx, ?_, h⟩
        intro j hj y hy
        cases j with
        | zero =>
          rw [List.getElem?_cons_zero, Option.some.injEq] at hy
          exact hy ▸ hw
        | succ j => exact hbef j (by omega) y (by simpa using hy)

/-- With no exact entry for the host, `find` is left with the regexes. -/
theorem find_of_no_exact {base : List (List Char × (List Char → List Char))} {hh : HttpHandler}
    (hc : configTo regex es (.fresh base) = .ret hh) {host : List Char}
    (hno : ¬ ∃ x ∈ es, ¬ x.Wildcard ∧ x.host = cString host) {r : List Char → Bool}
    {w : InterceptSet} (htake : (wildcards regex es).take 1 = [(r, w.starred)]) :
    hh.find host = if r (cString host) then some w.starred else none := by
  obtain ⟨hreg, hdir, -⟩ := configTo_ret hc
  have hnone : (hh.directFilter.find? fun d => d.1 = cString host) = none := by
    rw [hdir, HttpHandler.fresh, List.nil_append, List.find?_eq_none]
    intro d hd heq
    obtain ⟨x, hx, rfl⟩ := List.mem_map.mp hd
    rw [List.mem_filter] at hx
    exact hno ⟨x, hx.1, by simpa using hx.2, by simpa using heq⟩
  unfold HttpHandler.find
  rw [hnone, hreg, htake]
  show (List.find? (fun i => i.1 (cString host)) [(r, w.starred)]).map Prod.snd = _
  rw [List.find?_singleton]
  split <;> rfl

/-- No wildcard rule is lost exactly when the lost ones are shadowed. -/
theorem registered_iff {base : List (List Char × (List Char → List Char))} {hh : HttpHandler}
    (hc : configTo regex es (.fresh base) = .ret hh) :
    Registered regex es hh ↔ LaterShadowed regex es := by
  obtain ⟨-, -, hall⟩ := configTo_ret hc
  constructor
  · intro hreg k m x e hkm hx hwx he hwe host hacc
    by_contra hsh
    have hfind := hreg m e he hwe host hacc hsh
    rcases first_wildcard hall with ⟨hnone, -⟩ | ⟨k0, w, r, hw, hww, hbef, hr, htake⟩
    · exact hnone x (List.mem_of_getElem? hx) hwx
    · rw [find_of_no_exact hc (fun h => hsh (Or.inl h)) htake] at hfind
      by_cases hrh : r (cString host) = true
      · rw [if_pos hrh, Option.some.injEq] at hfind
        have hhost := starred_injective hww hwe hfind
        have hk0 : k0 ≤ k := by
          by_contra hlt
          exact hbef k (by omega) x hx hwx
        exact hsh (Or.inr ⟨k0, w, hw, hww, Or.inr ⟨by rw [hhost], by omega⟩, r, hr, hrh⟩)
      · rw [if_neg hrh] at hfind
        cases hfind
  · intro hlater m e he hwe host hacc hsh
    rcases first_wildcard hall with ⟨hnone, -⟩ | ⟨k0, w, r, hw, hww, hbef, hr, htake⟩
    · exact absurd hwe (hnone e (List.mem_of_getElem? he))
    · rw [find_of_no_exact hc (fun h => hsh (Or.inl h)) htake]
      rcases Nat.lt_trichotomy k0 m with hlt | heq | hgt
      · exact absurd (hlater k0 m w e hlt hw hww he hwe host hacc) hsh
      · subst heq
        obtain rfl : w = e := by
          rw [hw, Option.some.injEq] at he
          exact he
        obtain ⟨r', hr', hacc⟩ := hacc
        obtain rfl : r = r' := by
          rw [hr, Option.some.injEq] at hr'
          exact hr'
        rw [if_pos hacc]
      · exact absurd hwe (hbef m hgt e he)

end Registered

/-! ### The rules of two domains -/

/-- An entry that only names its host. -/
def rule (host : List Char) : InterceptSet := { InterceptSet.empty with host }

/-- A regex constructor that refuses what `Regex.compile` does not read. -/
def plainRegex : List Char → Option (List Char → Bool) := stdRegex fun _ => none

/-- A subdomain of a subdomain of `a` is a subdomain of `a`: the second wildcard is dropped,
and nothing is lost. -/
theorem registered_two_wildcards :
    ∃ hh, configTo plainRegex [rule "*.a".toList, rule "*.*.a".toList, rule "x.b".toList]
        (.fresh []) = .ret hh ∧
      Registered plainRegex [rule "*.a".toList, rule "*.*.a".toList, rule "x.b".toList] hh := by
  refine ⟨_, rfl, (registered_iff rfl).mpr ?_⟩
  intro k m x e hkm hx hwx he hwe host hacc
  match m, he with
  | 0, he => omega
  | 1, he =>
    cases he
    obtain rfl : k = 0 := by omega
    cases hx
    refine Or.inr ⟨0, rule "*.a".toList, rfl, hwx, Or.inl (by decide), ?_⟩
    obtain ⟨r, hr, hacc⟩ := hacc
    cases hr
    rw [fullMatch_isSome] at hacc
    simp only [takes_seq, takes_plus, takes_cls] at hacc
    obtain ⟨_, ⟨u, hu, hclean, hhost⟩, _, ⟨_, hdot, rfl⟩, _, ⟨v, -, hclean', rfl⟩, hend⟩ := hacc
    rw [beq_iff_eq] at hdot
    subst hdot
    refine ⟨_, rfl, ?_⟩
    rw [fullMatch_isSome, hhost]
    simp only [takes_seq, takes_plus, takes_cls]
    refine ⟨_, ⟨u ++ '.' :: v, by simp, ?_, by simp⟩, hend⟩
    intro c hc
    rw [List.mem_append, List.mem_cons] at hc
    rcases hc with hc | rfl | hc
    · exact hclean c hc
    · rfl
    · exact hclean' c hc
  | 2, he =>
    cases he
    exact absurd hwe (by decide)
  | m + 3, he => cases he

/-- With two wildcard rules, as the shipped configuration has them, the second is lost. -/
theorem second_wildcard_lost :
    ∃ hh, configTo plainRegex [rule "*.github.com".toList, rule "*.github.io".toList]
        (.fresh []) = .ret hh ∧
      ¬ Registered plainRegex [rule "*.github.com".toList, rule "*.github.io".toList] hh := by
  refine ⟨_, rfl, ?_⟩
  intro hreg
  have hfind := hreg 1 (rule "*.github.io".toList) rfl (by decide) "me.github.io".toList
    ⟨_, rfl, by decide⟩ ?_
  · revert hfind
    decide
  · rintro (⟨x, hx, hw, -⟩ | ⟨n, x, hx, -, hbef, hacc⟩)
    · simp only [List.mem_cons, List.not_mem_nil, or_false] at hx
      rcases hx with rfl | rfl <;> exact hw (by decide)
    · match n, hx with
      | 0, hx =>
        cases hx
        obtain ⟨r, hr, hacc⟩ := hacc
        cases hr
        revert hacc
        decide
      | 1, hx =>
        cases hx
        revert hbef
        unfold Before
        decide
      | n + 2, hx => cases hx

/-! ## The hosts a wildcard matches -/

/-- `[A-Za-z0-9.-]` -/
def DomainChar (c : Char) : Prop := c.isAlphanum = true ∨ c = '.' ∨ c = '-'

instance : DecidablePred DomainChar := fun c =>
  inferInstanceAs (Decidable (c.isAlphanum = true ∨ c = '.' ∨ c = '-'))

/-- What `*.D` names: a subdomain of `D`. -/
def Names (D h : List Char) : Prop := ∃ u, u ≠ [] ∧ h = u ++ '.' :: D

/-- A front without line breaks, a dot, and `D` with any letters for its dots. -/
def FitsPattern (D t : List Char) : Prop :=
  ∃ u w, u ≠ [] ∧ (∀ c ∈ u, anyChar c = true) ∧
    List.Forall₂ (fun d c => letterOf d c = true) D w ∧ t = u ++ '.' :: w

/-- The host `h` is one that the regex for `*.D` reads as it is meant. -/
structure ReadsExactly (D h : List Char) : Prop where
  /-- what stands before the domain is one line, if it is not cut off at a NUL -/
  front : ∀ u, u ≠ [] → h = u ++ '.' :: D →
    (∀ c ∈ u, anyChar c = true ∧ c ≠ '\x00') ∨ '\x00' ∈ u ∧ FitsPattern D (cString u)
  /-- other letters stand for the dots of `D` only where `h` ends in `D` itself -/
  dots : FitsPattern D (cString h) → Names D h

section Names

variable {other : List Char → Option (List Char → Bool)} {D : List Char}

theorem domainChar_ne {a c : Char} (ha : ¬ DomainChar a) (hc : DomainChar c) : c ≠ a := by
  rintro rfl
  exact ha hc

theorem domainChar_plain {c : Char} (hc : DomainChar c) : c = '.' ∨ special c = false := by
  by_cases hdot : c = '.'
  · exact Or.inl hdot
  · right
    have hno : ∀ d ∈ "^$\\.*+?()[]\x7b\x7d|".toList, d ≠ '.' → ¬ DomainChar d := by decide
    unfold special
    by_contra hsp
    rw [Bool.not_eq_false, List.contains_iff_mem] at hsp
    exact hno c hsp hdot hc

theorem domainChar_anyChar {c : Char} (hc : DomainChar c) : anyChar c = true := by
  have hlf := domainChar_ne (a := '\n') (by decide) hc
  have hcr := domainChar_ne (a := '\r') (by decide) hc
  simp [anyChar, hlf, hcr]

/-- A domain has no star to replace. -/
theorem starsReplaced_domain (hD : ∀ c ∈ D, DomainChar c) : starsReplaced D = D := by
  induction D with
  | nil => rfl
  | cons d D ih =>
    have hstar : d ≠ '*' := domainChar_ne (by decide) (hD d (by simp))
    rw [starsReplaced, ih fun c hc => hD c (by simp [hc])]
    intro s hs
    exact absurd hs hstar

/-- The pattern of `*.D`: a front, a dot, and the letters of `D`. -/
theorem compile_pattern (hD : ∀ c ∈ D, DomainChar c) :
    compile (starsReplaced ('*' :: '.' :: D)) =
      some (.seq (.plus anyChar) (.seq (.cls (· == '.')) (.letters letterOf D))) := by
  have hplain : ∀ c ∈ D, c = '.' ∨ special c = false := fun c hc => domainChar_plain (hD c hc)
  rw [starsReplaced, starsReplaced_domain hD, compile, compile, compile_letters hplain]
  · rfl
  · rintro u rfl
    have := hplain '+' (by simp)
    revert this
    decide

/-- The texts that the pattern of `*.D` matches. -/
theorem matches_pattern (t : List Char) :
    (fullMatch (.seq (.plus anyChar) (.seq (.cls (· == '.')) (.letters letterOf D))) t).isSome
        = true ↔
      FitsPattern D t := by
  unfold FitsPattern
  rw [fullMatch_isSome]
  simp only [takes_seq, takes_plus, takes_cls, takes_letters, beq_iff_eq, List.append_nil]
  constructor
  · rintro ⟨_, ⟨u, hu, hclean, rfl⟩, w, ⟨c, rfl, rfl⟩, _, hw, rfl⟩
    exact ⟨u, w, hu, hclean, hw, rfl⟩
  · rintro ⟨u, w, hu, hclean, hw, rfl⟩
    exact ⟨_, ⟨u, hu, hclean, rfl⟩, _, ⟨'.', rfl, rfl⟩, w, hw, rfl⟩

/-- Letters and dots stand for themselves. -/
theorem letterOf_self : List.Forall₂ (fun d c => letterOf d c = true) D D := by
  rw [List.forall₂_same]
  intro c hc
  unfold letterOf
  by_cases hdot : c = '.'
  · rw [if_pos hdot, hdot]
    rfl
  · rw [if_neg hdot, beq_self_eq_true]

theorem domain_no_nul (hD : ∀ c ∈ D, DomainChar c) : ∀ c ∈ '.' :: D, c ≠ '\x00' := by
  intro c hc
  rcases List.mem_cons.mp hc with rfl | hc
  · decide
  · exact domainChar_ne (by decide) (hD c hc)

/-- Nothing is cut off of a text without a NUL. -/
theorem cString_eq_self {s : List Char} (h : ∀ c ∈ s, c ≠ '\x00') : cString s = s :=
  prefix_of_cString h List.prefix_rfl

/-- A text that has a NUL is cut off there. -/
theorem cString_cut {s : List Char} (t : List Char) (h : '\x00' ∈ s) :
    cString (s ++ t) = cString s := by
  induction s with
  | nil => cases h
  | cons c s ih =>
    by_cases hc : c = '\x00'
    · simp [cString, hc]
    · have hs : '\x00' ∈ s := by
        rcases List.mem_cons.mp h with rfl | h
        · exact absurd rfl hc
        · exact h
      have hcons : ∀ r, cString (c :: r) = c :: cString r := fun r => by simp [cString, hc]
      rw [List.cons_append, hcons, hcons, ih hs]

/-- Two texts that end in texts of one length after a letter have the same front. -/
theorem FitsPattern.front_clean {u : List Char} (h : FitsPattern D (u ++ '.' :: D)) :
    ∀ c ∈ u, anyChar c = true := by
  obtain ⟨u', w, -, hclean, hw, heq⟩ := h
  have hlen : ('.' :: D).length = ('.' :: w).length := by
    rw [List.length_cons, List.length_cons, hw.length_eq]
  rw [List.append_inj_left' heq hlen]
  exact hclean

/-- The pattern of `*.D` reads a host as it is meant, or not. -/
theorem reads_iff (hD : ∀ c ∈ D, DomainChar c) (h : List Char) :
    (FitsPattern D (cString h) ↔ Names D h) ↔ ReadsExactly D h := by
  have hnul := domain_no_nul hD
  constructor
  · intro hiff
    constructor
    · rintro u hu rfl
      have hreads := hiff.mpr ⟨u, hu, rfl⟩
      by_cases hcut : '\x00' ∈ u
      · right
        rw [cString_cut _ hcut] at hreads
        exact ⟨hcut, hreads⟩
      · left
        have hu : ∀ c ∈ u, c ≠ '\x00' := by
          rintro c hc rfl
          exact hcut hc
        rw [cString_append hu, cString_eq_self hnul] at hreads
        intro c hc
        exact ⟨hreads.front_clean c hc, hu c hc⟩
    · exact hiff.mp
  · intro hread
    constructor
    · exact hread.dots
    · rintro ⟨u, hu, rfl⟩
      rcases hread.front u hu rfl with hfront | ⟨hcut, hreads⟩
      · rw [cString_append fun c hc => (hfront c hc).2, cString_eq_self hnul]
        exact ⟨u, D, hu, fun c hc => (hfront c hc).1, letterOf_self, rfl⟩
      · rw [cString_cut _ hcut]
        exact hreads

/-- An entry `*.D` is a wildcard. -/
theorem wildcard_of_domain (hne : D ≠ []) (hD : ∀ c ∈ D, DomainChar c) {i : InterceptSet}
    (hi : i.host = '*' :: '.' :: D) : i.Wildcard := by
  have hclean : ∀ c ∈ D, anyChar c = true := fun c hc => domainChar_anyChar (hD c hc)
  unfold InterceptSet.Wildcard wildcardRegex
  rw [hi, fullMatch_isSome, takes_alt]
  right
  have hstar : Takes ('*' :: '.' :: D).length
      (.rep (.grp 2 (.seq (.cls (· == '*')) (.cls (· == '.')))) 1 none) ('*' :: '.' :: D) D := by
    apply takes_once (List.cons_ne_nil _ _)
    simp only [takes_grp, takes_seq, takes_cls]
    exact ⟨'.' :: D, ⟨'*', rfl, rfl⟩, '.', rfl, rfl⟩
  have hrest : Takes ('*' :: '.' :: D).length (.plus anyChar) D [] := by
    rw [takes_plus]
    exact ⟨D, hne, hclean, by rw [List.append_nil]⟩
  simp only [takes_seq, takes_grp, takes_eol]
  exact ⟨[], ⟨D, hstar, hrest⟩, rfl, trivial⟩

/-- `find`, where the handler has one rule only. -/
theorem find_one {regex : List Char → Option (List Char → Bool)} {i : InterceptSet}
    {r : List Char → Bool} (hw : i.Wildcard) (hr : regex (starsReplaced i.starred.host) = some r)
    (base : List (List Char × (List Char → List Char))) :
    ∃ hh, configTo regex [i] (.fresh base) = .ret hh ∧
      ∀ h, (hh.find h).isSome = r (cString h) := by
  obtain ⟨caps, hcaps⟩ := Option.isSome_iff_exists.mp hw
  have hc : ∃ hh, configTo regex [i] (.fresh base) = .ret hh := by
    have hentry : configEntry regex (.fresh base, []) i =
        .ret (.fresh base, [(nstar wildcardRegex, r, i.starred)]) := by
      simp only [configEntry, hcaps, hr, mapInsert]
    refine ⟨(HttpHandler.fresh base).addRegx (r, i.starred), ?_⟩
    rw [configTo, List.foldlM_cons, hentry]
    rfl
  obtain ⟨hh, hc⟩ := hc
  refine ⟨hh, hc, fun h => ?_⟩
  rw [find_of_no_exact hc (r := r) (w := i)]
  · cases hrh : r (cString h) <;> simp
  · simp [hw]
  · simp [wildcards, hw, hr]

/-- What the rule `*` matches: a front without line breaks and a dot. -/
theorem matches_star (t : List Char) :
    (fullMatch (.seq (.plus anyChar) (.seq (.cls (· == '.')) .empty)) t).isSome = true ↔
      ∃ u, u ≠ [] ∧ (∀ c ∈ u, anyChar c = true) ∧ t = u ++ ['.'] := by
  rw [fullMatch_isSome]
  simp only [takes_seq, takes_plus, takes_cls, takes_empty, beq_iff_eq]
  constructor
  · rintro ⟨_, ⟨u, hu, hclean, rfl⟩, _, ⟨c, rfl, rfl⟩, rfl⟩
    exact ⟨u, hu, hclean, rfl⟩
  · rintro ⟨u, hu, hclean, rfl⟩
    exact ⟨_, ⟨u, hu, hclean, rfl⟩, _, ⟨'.', rfl, rfl⟩, rfl⟩

/-- A wildcard rule matches the hosts it names as far as they are read exactly; the
rule `*` matches the hosts that are one line and end in a dot. -/
theorem wildcard_exact (other : List Char → Option (List Char → Bool))
    (base : List (List Char × (List Char → List Char))) (i : InterceptSet) :
    (∀ D : List Char, D ≠ [] → (∀ c ∈ D, DomainChar c) → i.host = '*' :: '.' :: D →
      ∃ hh, configTo (stdRegex other) [i] (.fresh base) = .ret hh ∧
        ∀ h, (((hh.find h).isSome = true ↔ Names D h) ↔ ReadsExactly D h)) ∧
    (i.host = ['*'] →
      ∃ hh, configTo (stdRegex other) [i] (.fresh base) = .ret hh ∧
        ∀ h, (h ≠ [] → (hh.find h).isSome = true) ↔
          h = [] ∨ ∃ u, u ≠ [] ∧ (∀ c ∈ u, anyChar c = true) ∧ cString h = u ++ ['.']) := by
  constructor
  · intro D hne hD hi
    have hstar : i.starred = i := by
      unfold InterceptSet.starred
      rw [if_neg]
      rw [hi]
      simp
    have hr : stdRegex other (starsReplaced i.starred.host) = some fun t =>
        (fullMatch (.seq (.plus anyChar) (.seq (.cls (· == '.')) (.letters letterOf D)))
          t).isSome := by
      rw [hstar, hi, stdRegex, compile_pattern hD]
    obtain ⟨hh, hc, hfind⟩ := find_one (wildcard_of_domain hne hD hi) hr base
    refine ⟨hh, hc, fun h => ?_⟩
    rw [hfind, matches_pattern]
    exact reads_iff hD h
  · intro hi
    have hw : i.Wildcard := by
      unfold InterceptSet.Wildcard
      rw [hi]
      decide
    have hr : stdRegex other (starsReplaced i.starred.host) = some fun t =>
        (fullMatch (.seq (.plus anyChar) (.seq (.cls (· == '.')) .empty)) t).isSome := by
      rw [InterceptSet.starred, if_pos hi]
      rfl
    obtain ⟨hh, hc, hfind⟩ := find_one hw hr base
    refine ⟨hh, hc, fun h => ?_⟩
    rw [hfind, matches_star]
    by_cases hnil : h = []
    · simp [hnil]
    · simp [hnil]

end Names

/-- A domain without a dot, and a host that is one line. -/
theorem wildcard_exact_plain :
    ∃ hh, configTo plainRegex [rule "*.a".toList] (.fresh []) = .ret hh ∧
      ((hh.find "x.a".toList).isSome = true ↔ Names "a".toList "x.a".toList) := by
  obtain ⟨hh, hc, hfind⟩ := (wildcard_exact (fun _ => none) [] (rule "*.a".toList)).1 "a".toList
    (by decide) (by decide) rfl
  refine ⟨hh, hc, (hfind "x.a".toList).mpr ?_⟩
  constructor
  · intro u hu heq
    left
    obtain rfl : u = ['x'] := by
      have happ : ['x'] ++ ['.', 'a'] = u ++ ['.', 'a'] := heq
      exact (List.append_cancel_right happ).symm
    decide
  · intro _
    exact ⟨['x'], by decide, rfl⟩

/-- The rule `*.github.com` takes `www.githubxcom`, and `*` does not take `github.com`. -/
theorem wildcard_overmatch :
    (∃ hh, configTo plainRegex [rule "*.github.com".toList] (.fresh []) = .ret hh ∧
      ¬ ((hh.find "www.githubxcom".toList).isSome = true ↔
        Names "github.com".toList "www.githubxcom".toList)) ∧
    ∃ hh, configTo plainRegex [rule "*".toList] (.fresh []) = .ret hh ∧
      "github.com".toList ≠ [] ∧ (hh.find "github.com".toList).isSome = false := by
  refine ⟨⟨_, rfl, ?_⟩, _, rfl, by decide, by decide⟩
  intro hiff
  obtain ⟨u, -, heq⟩ := hiff.mp (by decide)
  have hend := congrArg (List.drop 3 ∘ List.reverse) heq
  revert hend
  simp

end Hcpp
