import Hcpp.Http.LineParts

/-!
# What the request line parser takes of the line

An accepted line is `method target version`, without further spaces.  Of the
target it takes the text before the first `/` as the endpoint and the text from
there on as the url (`parserLine_parts`); a target that has no endpoint leaves
host and port alone.
-/

namespace Hcpp

open Regex

/-- A request line, without its CRLF. -/
structure RequestLine where
  method : List Char
  target : List Char
  version : List Char
  method_text : ' ' ∉ method
  target_text : ' ' ∉ target
  version_text : ∀ c ∈ version, c ≠ ' ' ∧ c ≠ '\r' ∧ c ≠ '\n'
  noCrlf : ¬ crlf <:+: method ∧ ¬ crlf <:+: target

/-- The target without a leading `http://`. -/
def hierOf (target : List Char) : List Char :=
  if "http://".toList.isPrefixOf target then target.drop 7 else target

namespace RequestLine

def text (l : RequestLine) : List Char :=
  l.method ++ " ".toList ++ l.target ++ " ".toList ++ l.version

/-- The authority part of the target. -/
def service (l : RequestLine) : List Char := (hierOf l.target).takeWhile (· ≠ '/')

/-- Path and query of the target; `/` when there are none. -/
def path (l : RequestLine) : List Char :=
  if (hierOf l.target).dropWhile (· ≠ '/') = [] then "/".toList
  else (hierOf l.target).dropWhile (· ≠ '/')

end RequestLine

/-- A line is read back in one way. -/
theorem RequestLine.text_injective {l k : RequestLine} (h : l.text = k.text) : l = k := by
  have htext : ∀ l : RequestLine, l.text = l.method ++ ' ' :: (l.target ++ ' ' :: l.version) := by
    intro l
    simp [RequestLine.text]
  rw [htext, htext] at h
  obtain ⟨h1, h⟩ := cut_at l.method_text k.method_text h
  obtain ⟨h2, h3⟩ := cut_at l.target_text k.target_text h
  cases l
  cases k
  cases h1
  cases h2
  cases h3
  rfl

theorem RequestLine.text_noCrlf (l : RequestLine) : ¬ crlf <:+: l.text := by
  have htext : l.text = l.method ++ ' ' :: (l.target ++ ' ' :: l.version) := by
    simp [RequestLine.text]
  have hversion : ¬ crlf <:+: l.version := fun h =>
    (l.version_text '\r' (h.subset (by decide))).2.1 rfl
  rw [htext]
  exact Search.not_infix_sep (by decide) l.noCrlf.1
    (Search.not_infix_sep (by decide) l.noCrlf.2 hversion)

theorem hierOf_suffix (target : List Char) : hierOf target <:+ target := by
  unfold hierOf
  by_cases hh : "http://".toList.isPrefixOf target = true
  · rw [if_pos hh]
    exact List.drop_suffix _ _
  · rw [if_neg hh]

theorem RequestLine.service_noCrlf (l : RequestLine) : ¬ crlf <:+: l.service := fun h =>
  l.noCrlf.2 ((h.trans (List.takeWhile_prefix _).isInfix).trans (hierOf_suffix l.target).isInfix)

theorem RequestLine.path_text (l : RequestLine) : ' ' ∉ l.path ∧ ¬ crlf <:+: l.path := by
  have hsuf := (List.dropWhile_suffix (· ≠ '/')).trans (hierOf_suffix l.target)
  unfold RequestLine.path
  by_cases hp : (hierOf l.target).dropWhile (· ≠ '/') = []
  · rw [if_pos hp]
    decide
  · rw [if_neg hp]
    exact ⟨fun h => l.target_text (hsuf.subset h), fun h => l.noCrlf.2 (h.trans hsuf.isInfix)⟩

/-! ## The line -/

theorem find_single {c : Char} {t : List Char} {i : Nat} (h : Search.find [c] t = some i) :
    ∃ b, t = t.take i ++ c :: b ∧ (t.take i).length = i ∧ c ∉ t.take i := by
  have hle := Search.find_add_length_le h
  obtain ⟨hi, ⟨b, hb⟩, hmin⟩ := Search.find_eq_some_iff.mp h
  rw [List.length_singleton] at hle
  refine ⟨b, ?_, List.length_take_of_le hi, fun hc => ?_⟩
  · conv_lhs => rw [← List.take_append_drop i t, ← hb]
    rfl
  · obtain ⟨j, hj, hget⟩ := List.getElem_of_mem hc
    rw [List.length_take] at hj
    rw [List.getElem_take] at hget
    apply hmin j (by omega)
    rw [List.drop_eq_getElem_cons (by omega), hget]
    exact ⟨_, rfl⟩

theorem setUrl_url {url : List Char} {h : HttpRequest} (hh : h.host ≠ []) :
    (setUrl url h).url = if url = [] then "/".toList else url := by
  unfold setUrl
  by_cases hu : url = []
  · rw [if_pos ⟨hu, hh⟩, if_pos hu]
  · rw [if_neg fun h => hu h.1, if_pos hu, if_neg hu]

theorem setUrl_frame (url : List Char) (h : HttpRequest) :
    ∃ u p, setUrl url h = { h with url := u, urlParamStart := p } := by
  unfold setUrl
  by_cases h1 : url = [] ∧ h.host ≠ []
  · exact ⟨_, _, if_pos h1⟩
  · rw [if_neg h1]
    by_cases h2 : url ≠ []
    · exact ⟨_, _, if_pos h2⟩
    · exact ⟨_, _, if_neg h2⟩

/-- What an accepted line gives the request. -/
structure TakesLine (l : RequestLine) (h h' : HttpRequest) : Prop where
  method : h'.methodStr = l.method
  version : h'.version = l.version
  url : h'.host ≠ [] → h'.url = l.path
  service : (l.service = [] ∧ h'.host = h.host ∧ h'.port = h.port) ∨
    (l.service ≠ [] ∧ IsService l.service h'.host h'.port)
  headers : h'.headers = h.headers
  hasError : h'.hasError = h.hasError

theorem find_single_getD (c : Char) (l : List Char) :
    (Search.find [c] l).getD l.length = (l.takeWhile (· ≠ c)).length := by
  induction l with
  | nil => rfl
  | cons d l ih =>
    rw [Search.find_cons]
    by_cases hd : d = c
    · subst hd
      simp [List.cons_prefix_cons]
    · rw [if_neg (by simp [List.cons_prefix_cons, Ne.symm hd])]
      rw [List.takeWhile_cons_of_pos (by simpa using hd), List.length_cons, List.length_cons, ← ih]
      cases Search.find [c] l <;> rfl

theorem parserVersion_method {t : List Char} {h h' : HttpRequest}
    (hp : parserVersion t h = some h') : h'.method = h.method := by
  unfold parserVersion at hp
  by_cases hpre : "HTTP/".toList.isPrefixOf t = true
  · rw [if_pos hpre] at hp
    cases hf : Search.find crlf (t.drop 5) with
    | none => simp [hf] at hp
    | some e =>
      simp only [hf] at hp
      cases hm : fullMatch versionReg ((t.drop 5).take e) with
      | none => simp [hm] at hp
      | some caps =>
        simp only [hm, Option.some.injEq] at hp
        rw [← hp]
  · rw [if_neg hpre] at hp
    cases hp

theorem cut_hier (target rest : List Char) :
    (if "http://".toList.isPrefixOf (target ++ ' ' :: rest) = true then
        (target ++ ' ' :: rest).drop 7 else target ++ ' ' :: rest) = hierOf target ++ ' ' :: rest ∧
      (if "http://".toList.isPrefixOf (target ++ ' ' :: rest) = true then target.length - 7
        else target.length) = (hierOf target).length := by
  rw [isPrefixOf_cut (by decide)]
  unfold hierOf
  by_cases hh : "http://".toList.isPrefixOf target = true
  · have hle : 7 ≤ target.length := (List.isPrefixOf_iff_prefix.mp hh).length_le
    rw [if_pos hh, if_pos hh, if_pos hh, List.drop_append_of_le_length hle, List.length_drop]
    exact ⟨rfl, rfl⟩
  · simp only [if_neg hh, and_self]

/-! ## The parts of the line -/

/-- The endpoint part of the target; it is the whole target of a CONNECT. -/
def servicePart (method target : List Char) : List Char :=
  if getMethod method = .connect then target else (hierOf target).takeWhile (· ≠ '/')

def pathPart (method target : List Char) : List Char :=
  if getMethod method = .connect then [] else (hierOf target).dropWhile (· ≠ '/')

/-- A CONNECT has no url. -/
def setPath (method path : List Char) (h : HttpRequest) : HttpRequest :=
  if getMethod method = .connect then h else setUrl path h

theorem find_space {s : List Char} (hs : ' ' ∉ s) (t : List Char) :
    Search.find [' '] (s ++ ' ' :: t) = some s.length := by
  have htext : s ++ ' ' :: t = s ++ [' '] ++ t := by simp
  rw [htext]
  exact Search.find_of_not_mem hs

theorem drop_behind {s t : List Char} (c : Char) : (s ++ c :: t).drop (s.length + 1) = t := by
  rw [← List.drop_drop, List.drop_left, List.drop_one, List.tail_cons]

/-- A line that is accepted has two spaces. -/
theorem exists_parts {svl : List Char} {h h' : HttpRequest} (hp : parserLine svl h = some h') :
    ∃ method target rest, svl = method ++ ' ' :: (target ++ ' ' :: rest) ∧
      ' ' ∉ method ∧ ' ' ∉ target := by
  unfold parserLine at hp
  cases hme : Search.find [' '] svl with
  | none => simp [hme] at hp
  | some methodEnd =>
    obtain ⟨b, hb, hbl, hbm⟩ := find_single hme
    have hdrop : svl.drop (methodEnd + 1) = b := by
      conv_lhs => rw [hb, ← List.drop_drop, List.drop_left' hbl]
      rfl
    simp only [hme, hdrop] at hp
    cases hue : Search.find [' '] b with
    | none => simp [hue] at hp
    | some uriEnd =>
      obtain ⟨rest, hr, -, hrm⟩ := find_single hue
      exact ⟨_, _, rest, by rw [← hr, ← hb], hbm, hrm⟩

/-- What becomes of the parts. -/
theorem parserLine_parts {method target : List Char} (hm : ' ' ∉ method) (ht : ' ' ∉ target)
    (rest : List Char) (h : HttpRequest) :
    parserLine (method ++ ' ' :: (target ++ ' ' :: rest)) h =
      match parserEndpoint (servicePart method target)
          { h with methodStr := method, method := getMethod method } with
      | none => none
      | some (h2, matched) =>
        let svl := if matched then pathPart method target ++ ' ' :: rest
          else servicePart method target ++ pathPart method target ++ ' ' :: rest
        parserVersion (svl.drop ((pathPart method target).length + 1))
          (setPath method (svl.take (pathPart method target).length) h2) := by
  unfold parserLine servicePart pathPart setPath
  simp only [find_space hm, List.take_left, drop_behind, find_space ht]
  by_cases hc : getMethod method = .connect
  · simp only [hc, ne_eq, not_true_eq_false, decide_false, Bool.false_and, Bool.false_eq_true,
      if_false, List.take_left, Nat.sub_self, if_true]
    cases he : parserEndpoint target _ with
    | none => rfl
    | some r =>
      obtain ⟨h2, matched⟩ := r
      have h2m := parserEndpoint_method he
      dsimp only at h2m
      simp only [h2m, not_true_eq_false, if_false]
      cases matched <;> simp
  · obtain ⟨hsvl, hend⟩ := cut_hier target rest
    have hsplit := List.takeWhile_append_dropWhile (p := (· ≠ '/')) (l := hierOf target)
    generalize htw : (hierOf target).takeWhile (· ≠ '/') = service at hsplit
    generalize hdw : (hierOf target).dropWhile (· ≠ '/') = path at hsplit
    have hcut : (hierOf target).length - service.length = path.length := by
      rw [← hsplit, List.length_append, Nat.add_sub_cancel_left]
    simp only [hc, ne_eq, not_false_eq_true, decide_true, Bool.true_and, if_true, if_false, hsvl,
      hend, List.take_left, find_single_getD, htw, hcut]
    have hservice : (hierOf target ++ ' ' :: rest).take service.length = service := by
      rw [← hsplit, List.append_assoc, List.take_left]
    rw [hservice]
    cases he : parserEndpoint service _ with
    | none => rfl
    | some r =>
      obtain ⟨h2, matched⟩ := r
      have h2m := parserEndpoint_method he
      dsimp only at h2m
      simp only [h2m, hc, not_false_eq_true, if_true]
      cases matched with
      | false => simp only [Bool.false_eq_true, if_false, hsplit]
      | true =>
        have hdrop : (hierOf target ++ ' ' :: rest).drop service.length = path ++ ' ' :: rest := by
          rw [← hsplit, List.append_assoc, List.drop_left]
        simp only [if_true, hdrop]
theorem setPath_method (method path : List Char) (h : HttpRequest) :
    (setPath method path h).method = h.method := by
  unfold setPath
  by_cases hc : getMethod method = .connect
  · rw [if_pos hc]
  · obtain ⟨u, q, hset⟩ := setUrl_frame path h
    rw [if_neg hc, hset]

/-- The method of a line that is accepted. -/
theorem parserLine_parts_method {method target rest : List Char} (hm : ' ' ∉ method)
    (ht : ' ' ∉ target) {h h' : HttpRequest}
    (hp : parserLine (method ++ ' ' :: (target ++ ' ' :: rest)) h = some h') :
    h'.method = getMethod method := by
  rw [parserLine_parts hm ht] at hp
  split at hp
  · cases hp
  · rename_i h2 matched he
    rw [parserVersion_method hp, setPath_method]
    exact parserEndpoint_method he

theorem parserLine_method {l : RequestLine} {t : List Char} {h h' : HttpRequest}
    (hp : parserLine (l.text ++ t) h = some h') : h'.method = getMethod l.method := by
  have htext : l.text ++ t = l.method ++ ' ' :: (l.target ++ ' ' :: (l.version ++ t)) := by
    simp [RequestLine.text]
  rw [htext] at hp
  exact parserLine_parts_method l.method_text l.target_text hp

end Hcpp
