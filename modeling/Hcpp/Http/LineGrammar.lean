import Hcpp.Http.Numbers
import Hcpp.Http.RequestLine

/-!
# The request lines that are accepted

`AcceptedLine` has a line in its parts, as `parser_reuqest_line` takes them;
`parserLine_iff`: the parser accepts these lines and no others, and stores the
parts.
-/

namespace Hcpp

/-- A request line that is accepted, without its CRLF. -/
structure AcceptedLine where
  method : List Char
  /-- whether `http://` stands before the target -/
  scheme : Bool
  authority : Option Authority
  path : List Char
  version : List Char
  method_text : ' ' ∉ method
  path_text : ' ' ∉ path ∧ (path = [] ∨ path.head? = some '/')
  connect : getMethod method = .connect → scheme = false ∧ path = []
  version_text : IsVersion version

namespace AcceptedLine

def schemeText (l : AcceptedLine) : List Char := if l.scheme then "http://".toList else []

def service (l : AcceptedLine) : List Char :=
  match l.authority with
  | none => []
  | some a => a.text

def target (l : AcceptedLine) : List Char := l.schemeText ++ (l.service ++ l.path)

def text (l : AcceptedLine) : List Char := l.method ++ ' ' :: (l.target ++ ' ' :: l.version)

/-- The request with the method. -/
def begin_ (l : AcceptedLine) (h : HttpRequest) : HttpRequest :=
  { h with methodStr := l.method, method := getMethod l.method }

/-- Host and port stay as they are when there is no endpoint. -/
def storeAuthority (l : AcceptedLine) (h : HttpRequest) : HttpRequest :=
  match l.authority with
  | none => h
  | some a => a.store h

/-- The request with the parts of the line. -/
def store (l : AcceptedLine) (h : HttpRequest) : HttpRequest :=
  { setPath l.method l.path (l.storeAuthority (l.begin_ h)) with version := l.version }

end AcceptedLine

/-! ## The text of an endpoint -/

theorem IsPortText.digits {p : List Char} (h : IsPortText p) :
    p ≠ [] ∧ ∀ c ∈ p, isDigit c = true := by
  rcases h with rfl | ⟨d, ds, rfl, hd, -, -, hds⟩
  · decide
  · refine ⟨by simp, fun c hc => ?_⟩
    rcases List.mem_cons.mp hc with rfl | hc
    · exact hd
    · exact hds c hc

theorem IsPortText.length_le {p : List Char} (h : IsPortText p) : p.length ≤ 5 := by
  rcases h with rfl | ⟨d, ds, rfl, -, -, hlen, -⟩
  · decide
  · rw [List.length_cons]
    omega

theorem Authority.text_chars (a : Authority) : ∀ c ∈ a.text, c ≠ ' ' ∧ c ≠ '/' := by
  have hhost : ∀ c, isHostChar c = true → c ≠ ' ' ∧ c ≠ '/' := fun c hc =>
    ⟨ne_of_class hc (by decide), ne_of_class hc (by decide)⟩
  have hdig : ∀ c, isDigit c = true → c ≠ ' ' ∧ c ≠ '/' := fun c hc =>
    ⟨ne_of_class hc (by decide), ne_of_class hc (by decide)⟩
  unfold Authority.text
  intro c hc
  cases hp : a.port with
  | none =>
    rw [hp] at hc
    exact hhost c (a.host_chars.2 c hc)
  | some p =>
    rw [hp] at hc
    rcases List.mem_append.mp hc with hc | hc
    · exact hhost c (a.host_chars.2 c hc)
    · rcases List.mem_cons.mp hc with rfl | hc
      · decide
      · exact hdig c ((a.port_number p hp).1.digits.2 c hc)

/-- No endpoint is the scheme: a port has a digit. -/
theorem Authority.text_ne_scheme (a : Authority) : a.text ≠ "http:".toList := by
  unfold Authority.text
  cases hp : a.port with
  | none =>
    intro h
    have hhost : a.host = "http:".toList := h
    have hc := a.host_chars.2 ':' (by rw [hhost]; decide)
    exact absurd hc (by decide)
  | some p =>
    intro h
    have hcolon : ':' ∉ a.host := fun hc => absurd (a.host_chars.2 _ hc) (by decide)
    have hsplit : a.host ++ ':' :: p = "http".toList ++ ':' :: [] := h
    exact (a.port_number p hp).1.digits.1 (cut_at hcolon (by decide) hsplit).2

/-! ## The parts of an accepted line -/

/-- A text without a slash, and one that begins with it. -/
theorem cut_slash {s p : List Char} (hs : '/' ∉ s) (hp : p = [] ∨ p.head? = some '/') :
    (s ++ p).takeWhile (· ≠ '/') = s ∧ (s ++ p).dropWhile (· ≠ '/') = p := by
  have hall : ∀ c ∈ s, decide (c ≠ '/') = true := by
    intro c hc
    rw [decide_eq_true_eq]
    rintro rfl
    exact hs hc
  rw [List.takeWhile_append_of_pos hall, List.dropWhile_append_of_pos hall]
  rcases hp with rfl | hp
  · simp
  · obtain ⟨t, rfl⟩ : ∃ t, p = '/' :: t := by
      cases p with
      | nil => cases hp
      | cons c t =>
        rw [List.head?_cons, Option.some.injEq] at hp
        exact ⟨t, by rw [hp]⟩
    simp

namespace AcceptedLine

variable (l : AcceptedLine)

theorem service_chars : ' ' ∉ l.service ∧ '/' ∉ l.service ∧ l.service ≠ "http:".toList := by
  unfold service
  cases l.authority with
  | none => decide
  | some a =>
    exact ⟨fun h => (a.text_chars _ h).1 rfl, fun h => (a.text_chars _ h).2 rfl,
      a.text_ne_scheme⟩

theorem target_text : ' ' ∉ l.target := by
  have hscheme : ' ' ∉ l.schemeText := by
    unfold schemeText
    cases l.scheme <;> decide
  unfold target
  simp only [List.mem_append, not_or]
  exact ⟨hscheme, l.service_chars.1, l.path_text.1⟩

theorem hierOf_target : hierOf l.target = l.service ++ l.path := by
  unfold hierOf target schemeText
  cases l.scheme with
  | true =>
    have hpre : "http://".toList.isPrefixOf ("http://".toList ++ (l.service ++ l.path)) = true := by
      rw [List.isPrefixOf_iff_prefix]
      exact List.prefix_append _ _
    rw [if_pos rfl, if_pos hpre]
    exact List.drop_left' rfl
  | false =>
    rw [if_neg Bool.false_ne_true, List.nil_append, if_neg]
    rw [List.isPrefixOf_iff_prefix]
    rintro ⟨t, ht⟩
    -- before its first slash the text would be the scheme
    have hcut := (cut_slash l.service_chars.2.1 l.path_text.2).1
    rw [← ht] at hcut
    exact l.service_chars.2.2 hcut.symm

theorem parts :
    servicePart l.method l.target = l.service ∧ pathPart l.method l.target = l.path := by
  unfold servicePart pathPart
  by_cases hc : getMethod l.method = .connect
  · obtain ⟨hscheme, hpath⟩ := l.connect hc
    rw [if_pos hc, if_pos hc, hpath]
    refine ⟨?_, rfl⟩
    rw [target, schemeText, hscheme, hpath, List.append_nil]
    rfl
  · rw [if_neg hc, if_neg hc, hierOf_target]
    exact cut_slash l.service_chars.2.1 l.path_text.2

end AcceptedLine

/-! ## Both directions -/

theorem AcceptedLine.endpoint (l : AcceptedLine) (h : HttpRequest) :
    ∃ matched, parserEndpoint l.service h = some (l.storeAuthority h, matched) ∧
      (matched = false → l.service = []) := by
  unfold service storeAuthority
  cases l.authority with
  | none => exact ⟨false, rfl, fun _ => rfl⟩
  | some a => exact ⟨true, parserEndpoint_text a h, fun hm => by cases hm⟩

theorem parserLine_text (l : AcceptedLine) (h : HttpRequest) :
    parserLine (l.text ++ crlf) h = some (l.store h) := by
  have htext : l.text ++ crlf = l.method ++ ' ' :: (l.target ++ ' ' :: (l.version ++ crlf)) := by
    simp [AcceptedLine.text]
  obtain ⟨matched, he, hm⟩ := l.endpoint (l.begin_ h)
  unfold AcceptedLine.begin_ at he
  have hv : ¬ crlf <:+: l.version := fun h =>
    (l.version_text.chars '\r' (h.subset (by decide))).2.1 rfl
  have hsvl : (if matched then l.path ++ ' ' :: (l.version ++ crlf)
      else l.service ++ l.path ++ ' ' :: (l.version ++ crlf)) =
        l.path ++ ' ' :: (l.version ++ crlf) := by
    cases matched with
    | true => rfl
    | false =>
      rw [hm rfl]
      rfl
  rw [htext, parserLine_parts l.method_text l.target_text, l.parts.1, l.parts.2]
  simp only [he, hsvl, List.take_left, drop_behind]
  exact (parserVersion_iff hv).mpr ⟨l.version_text, rfl⟩

/-- The line end is behind the last space. -/
theorem exists_rest {s x rest : List Char} (h : s ++ crlf = x ++ ' ' :: rest) :
    ∃ v, rest = v ++ crlf ∧ s = x ++ ' ' :: v := by
  rcases List.append_eq_append_iff.mp h with ⟨t, -, ht⟩ | ⟨t, rfl, ht⟩
  · have hmem : ' ' ∈ crlf := by
      rw [ht]
      simp
    exact absurd hmem (by decide)
  · cases t with
    | nil => exact absurd (List.cons.inj ht).1 (by decide)
    | cons c v =>
      obtain ⟨rfl, rfl⟩ := List.cons.inj ht
      exact ⟨v, rfl, rfl⟩

/-- The target is its scheme, its endpoint part and its path. -/
theorem target_eq (method target : List Char) :
    ∃ scheme : Bool, target = (if scheme then "http://".toList else []) ++
        (servicePart method target ++ pathPart method target) ∧
      (getMethod method = .connect → scheme = false ∧ pathPart method target = []) ∧
      (pathPart method target = [] ∨ (pathPart method target).head? = some '/') := by
  unfold servicePart pathPart
  by_cases hc : getMethod method = .connect
  · rw [if_pos hc, if_pos hc]
    exact ⟨false, by simp, fun _ => ⟨rfl, rfl⟩, .inl rfl⟩
  · rw [if_neg hc, if_neg hc, List.takeWhile_append_dropWhile]
    refine ⟨"http://".toList.isPrefixOf target, ?_, fun h => absurd h hc, ?_⟩
    · unfold hierOf
      by_cases hh : "http://".toList.isPrefixOf target = true
      · obtain ⟨t, rfl⟩ := List.isPrefixOf_iff_prefix.mp hh
        have hdrop : ("http://".toList ++ t).drop 7 = t := List.drop_left' rfl
        rw [if_pos hh, if_pos hh, hdrop]
      · rw [if_neg hh, if_neg hh, List.nil_append]
    · cases hd : (hierOf target).dropWhile (· ≠ '/') with
      | nil => exact .inl rfl
      | cons c t =>
        right
        have hnot := List.head?_dropWhile_not (· ≠ '/') (hierOf target)
        rw [hd] at hnot
        simpa using hnot

/-- The rest of the line behind the target is the version.  An endpoint that is not one is
empty: otherwise what is left of the line still has the space behind the target. -/
theorem parserVersion_target (url : List Char → HttpRequest) {service path v : List Char}
    {h' : HttpRequest} {matched : Bool} (hno : ¬ crlf <:+: service ++ path ++ ' ' :: v)
    (hp : let svl := if matched then path ++ ' ' :: (v ++ crlf)
            else service ++ path ++ ' ' :: (v ++ crlf)
          parserVersion (svl.drop (path.length + 1)) (url (svl.take path.length)) = some h') :
    (matched = false → service = []) ∧ IsVersion v ∧ h' = { url path with version := v } := by
  have hv : ¬ crlf <:+: v := fun h => hno (h.trans ⟨service ++ path ++ [' '], [], by simp⟩)
  have hempty : matched = false → service = [] := by
    rintro rfl
    by_contra hne
    have hpos := List.length_pos_of_ne_nil hne
    have hdrop : (service ++ path ++ ' ' :: (v ++ crlf)).drop (path.length + 1) =
        (service ++ path).drop (path.length + 1) ++ ' ' :: v ++ crlf := by
      rw [List.drop_append_of_le_length (by rw [List.length_append]; omega)]
      simp
    simp only [Bool.false_eq_true, if_false, hdrop] at hp
    have hsuf : (service ++ path).drop (path.length + 1) ++ ' ' :: v <:+:
        service ++ path ++ ' ' :: v := by
      refine ⟨(service ++ path).take (path.length + 1), [], ?_⟩
      rw [List.append_nil, ← List.append_assoc, List.take_append_drop]
    have hver := ((parserVersion_iff fun h => hno (h.trans hsuf)).mp hp).1
    exact (hver.chars ' ' (by simp)).1 rfl
  have hsvl : (if matched then path ++ ' ' :: (v ++ crlf)
      else service ++ path ++ ' ' :: (v ++ crlf)) = path ++ ' ' :: (v ++ crlf) := by
    cases matched with
    | true => rfl
    | false =>
      rw [hempty rfl]
      rfl
  simp only [hsvl, List.take_left, drop_behind] at hp
  exact ⟨hempty, (parserVersion_iff hv).mp hp⟩

/-- **The request lines that are accepted**, and what is stored of them. -/
theorem parserLine_iff {s : List Char} (hs : ¬ crlf <:+: s) {h h' : HttpRequest} :
    parserLine (s ++ crlf) h = some h' ↔ ∃ l : AcceptedLine, s = l.text ∧ h' = l.store h := by
  constructor
  · intro hp
    obtain ⟨method, target, rest, hline, hms, hts⟩ := exists_parts hp
    obtain ⟨v, rfl, rfl⟩ : ∃ v, rest = v ++ crlf ∧ s = method ++ ' ' :: (target ++ ' ' :: v) := by
      have hx : s ++ crlf = (method ++ ' ' :: target) ++ ' ' :: rest := by
        rw [hline]
        simp
      obtain ⟨v, hv, rfl⟩ := exists_rest hx
      exact ⟨v, hv, by simp⟩
    obtain ⟨scheme, htarget, hconnect, hslash⟩ := target_eq method target
    rw [hline, parserLine_parts hms hts] at hp
    generalize servicePart method target = service at htarget hp
    generalize pathPart method target = path at htarget hconnect hslash hp
    subst htarget
    have hpath : ' ' ∉ path := fun hsp =>
      hts (List.mem_append_right _ (List.mem_append_right _ hsp))
    have hin : ∀ t, service ++ path ++ ' ' :: v <:+:
        method ++ ' ' :: (t ++ (service ++ path) ++ ' ' :: v) :=
      fun t => ⟨method ++ ' ' :: t, [], by simp⟩
    have hno : ¬ crlf <:+: service ++ path ++ ' ' :: v := fun h => hs (h.trans (hin _))
    split at hp
    · cases hp
    · rename_i h2 matched he
      obtain ⟨hempty, hver, rfl⟩ := parserVersion_target (setPath method · h2) hno hp
      rcases parserEndpoint_cases he with ⟨hm, rfl⟩ | ⟨-, a, rfl, rfl⟩
      · obtain rfl := hempty hm
        exact ⟨⟨method, scheme, none, path, v, hms, ⟨hpath, hslash⟩, hconnect, hver⟩, rfl, rfl⟩
      · exact ⟨⟨method, scheme, some a, path, v, hms, ⟨hpath, hslash⟩, hconnect, hver⟩, rfl, rfl⟩
  · rintro ⟨l, rfl, rfl⟩
    exact parserLine_text l h

/-! ## Lines that are not a CONNECT -/

theorem AcceptedLine.takesLine (a : AcceptedLine) (hm : getMethod a.method ≠ .connect)
    {l : RequestLine} (h1 : l.method = a.method) (h2 : l.target = a.target)
    (h3 : l.version = a.version) (h : HttpRequest) : TakesLine l h (a.store h) := by
  have hservice : l.service = a.service := by
    rw [← a.parts.1, servicePart, if_neg hm, ← h2]
    rfl
  have hpath : (hierOf l.target).dropWhile (· ≠ '/') = a.path := by
    rw [← a.parts.2, pathPart, if_neg hm, ← h2]
  obtain ⟨u, p, hset⟩ := setUrl_frame a.path (a.storeAuthority (a.begin_ h))
  have hstore : a.store h =
      { setUrl a.path (a.storeAuthority (a.begin_ h)) with version := a.version } := by
    rw [store, setPath, if_neg hm]
  have hurl : (a.store h).url = (setUrl a.path (a.storeAuthority (a.begin_ h))).url := by
    rw [hstore]
  have hframe : (a.storeAuthority (a.begin_ h)).methodStr = a.method ∧
      (a.storeAuthority (a.begin_ h)).headers = h.headers ∧
      (a.storeAuthority (a.begin_ h)).hasError = h.hasError := by
    unfold storeAuthority
    cases a.authority <;> exact ⟨rfl, rfl, rfl⟩
  rw [hset] at hstore
  constructor
  · rw [hstore, h1]
    exact hframe.1
  · rw [hstore, h3]
  · intro hh
    rw [hurl, setUrl_url, RequestLine.path, hpath]
    rw [hstore] at hh
    exact hh
  · rw [hstore, hservice]
    unfold service storeAuthority
    cases a.authority with
    | none => exact Or.inl ⟨rfl, rfl, rfl⟩
    | some e => exact Or.inr ⟨e.text_ne_nil, e.isService h⟩
  · rw [hstore]
    exact hframe.2.1
  · rw [hstore]
    exact hframe.2.2

/-- **An accepted request line**, of a request that is not a CONNECT. -/
theorem parserLine_accepted {s : List Char} (hs : ¬ crlf <:+: s) {h h' : HttpRequest}
    (hp : parserLine (s ++ crlf) h = some h') (hm : h'.method ≠ .connect) :
    ∃ l : RequestLine, s = l.text ∧ TakesLine l h h' := by
  obtain ⟨a, rfl, rfl⟩ := (parserLine_iff hs).mp hp
  have hconnect : getMethod a.method ≠ .connect := by
    have hmethod : (a.store h).method = getMethod a.method := by
      rw [AcceptedLine.store]
      apply (setPath_method _ _ _).trans
      unfold AcceptedLine.storeAuthority
      cases a.authority <;> rfl
    rwa [hmethod] at hm
  have hno : ¬ crlf <:+: a.method ∧ ¬ crlf <:+: a.target := by
    refine ⟨fun h => hs (h.trans (List.prefix_append _ _).isInfix), fun h => hs (h.trans ?_)⟩
    exact ⟨a.method ++ [' '], ' ' :: a.version, by simp [AcceptedLine.text]⟩
  refine ⟨⟨a.method, a.target, a.version, a.method_text, a.target_text, a.version_text.chars, hno⟩,
    ?_, a.takesLine hconnect rfl rfl rfl h⟩
  simp [RequestLine.text, AcceptedLine.text]

/-! ## The lines of a client -/

/-- A decimal number up to 65535, without a leading 0. -/
structure IsPort (p : List Char) : Prop where
  digits : p ≠ [] ∧ ∀ c ∈ p, isDigit c = true
  leading : p.head? = some '0' → p = ['0']
  bound : stoul 10 p ≤ 65535

theorem isPort_iff {p : List Char} : IsPort p ↔ IsPortText p ∧ stoul 10 p ≤ 65535 := by
  constructor
  · rintro ⟨⟨hne, hdig⟩, hlead, hbound⟩
    refine ⟨?_, hbound⟩
    cases p with
    | nil => exact absurd rfl hne
    | cons d ds =>
      by_cases hd : d = '0'
      · left
        exact hlead (by rw [hd]; rfl)
      · have hlow := le_stoul_cons 10 ds (isHex_of_isDigit (hdig d (by simp))) hd
        have hlen : ds.length ≤ 4 := by
          by_contra hlen
          have hpow : 10 ^ 5 ≤ 10 ^ ds.length := Nat.pow_le_pow_right (by decide) (by omega)
          omega
        right
        exact ⟨d, ds, rfl, hdig d (by simp), hd, hlen, fun c hc => hdig c (by simp [hc])⟩
  · rintro ⟨h, hbound⟩
    refine ⟨h.digits, ?_, hbound⟩
    rcases h with rfl | ⟨d, ds, rfl, -, hd, -, -⟩
    · exact fun _ => rfl
    · intro hhead
      exact absurd (Option.some.inj hhead) hd

/-- `host` or `host:port` -/
def IsAuthority (t : List Char) : Prop :=
  ∃ host, (host ≠ [] ∧ ∀ c ∈ host, isHostChar c = true) ∧
    (t = host ∨ ∃ port, IsPort port ∧ t = host ++ ':' :: port)

theorem IsAuthority.exists_text {t : List Char} (h : IsAuthority t) :
    ∃ a : Authority, t = a.text := by
  obtain ⟨host, hhost, rfl | ⟨port, hport, rfl⟩⟩ := h
  · exact ⟨⟨t, none, hhost, by simp⟩, rfl⟩
  · refine ⟨⟨host, some port, hhost, fun p hp => ?_⟩, rfl⟩
    rw [Option.mem_def, Option.some.injEq] at hp
    subst hp
    exact isPort_iff.mp hport

/-- `/path` -/
def IsPath (t : List Char) : Prop := t.head? = some '/' ∧ ' ' ∉ t

/-- The targets of a method. -/
inductive IsTarget (method : List Char) : List Char → Prop
  | connect {t : List Char} (hm : method = "CONNECT".toList) (ht : IsAuthority t) :
    IsTarget method t
  | absolute {t p : List Char} (hm : method ≠ "CONNECT".toList) (ht : IsAuthority t)
    (hp : p = [] ∨ IsPath p) : IsTarget method ("http://".toList ++ (t ++ p))
  | origin {p : List Char} (hm : method ≠ "CONNECT".toList) (hp : IsPath p) : IsTarget method p

def IsClientLine (s : List Char) : Prop :=
  ∃ method target version, s = method ++ ' ' :: (target ++ ' ' :: version) ∧ ' ' ∉ method ∧
    IsTarget method target ∧ IsVersion version

theorem getMethod_eq_connect {method : List Char} :
    getMethod method = .connect ↔ method = "CONNECT".toList := by
  unfold getMethod
  by_cases hm : method = "CONNECT".toList
  · rw [if_pos hm]
    exact iff_of_true rfl hm
  · rw [if_neg hm]
    exact iff_of_false (by decide) hm

/-- **The lines of a client are accepted.** -/
theorem IsClientLine.exists_text {s : List Char} (h : IsClientLine s) :
    ∃ l : AcceptedLine, s = l.text := by
  obtain ⟨method, target, version, rfl, hm, htarget, hver⟩ := h
  cases htarget with
  | connect hc ht =>
    obtain ⟨a, rfl⟩ := ht.exists_text
    refine ⟨⟨method, false, some a, [], version, hm, ⟨by simp, .inl rfl⟩, fun _ => ⟨rfl, rfl⟩,
      hver⟩, ?_⟩
    show method ++ ' ' :: (a.text ++ ' ' :: version) =
      method ++ ' ' :: (a.text ++ [] ++ ' ' :: version)
    rw [List.append_nil]
  | @absolute t p hc ht hp =>
    obtain ⟨a, rfl⟩ := ht.exists_text
    have hpath : ' ' ∉ p ∧ (p = [] ∨ p.head? = some '/') := by
      rcases hp with rfl | hp
      · exact ⟨by simp, .inl rfl⟩
      · exact ⟨hp.2, .inr hp.1⟩
    exact ⟨⟨method, true, some a, p, version, hm, hpath,
      fun h => absurd (getMethod_eq_connect.mp h) hc, hver⟩, rfl⟩
  | origin hc hp =>
    exact ⟨⟨method, false, none, target, version, hm, ⟨hp.2, .inr hp.1⟩,
      fun h => absurd (getMethod_eq_connect.mp h) hc, hver⟩, rfl⟩

/-! ## The request as the parts of a line -/

/-- The parts of the line `s` are those of the request.  A target without a host leaves host
and port empty. -/
def IsLineOf (s : List Char) (h : HttpRequest) : Prop :=
  ∃ scheme service path,
    s = h.methodStr ++ ' ' :: (scheme ++ (service ++ path) ++ ' ' :: h.version) ∧
    (scheme = [] ∨ scheme = "http://".toList) ∧
    (path = h.url ∨ (path = [] ∧ h.url = "/".toList)) ∧
    ((service = [] ∧ h.host = [] ∧ h.port = []) ∨
      (h.host ≠ [] ∧ IsPort h.port ∧ IsService service h.host h.port))

theorem Authority.isPort_portText (a : Authority) : IsPort a.portText := by
  unfold portText
  cases hp : a.port with
  | none => exact isPort_iff.mpr ⟨.inr ⟨'8', ['0'], by decide⟩, by decide⟩
  | some p => exact isPort_iff.mpr (a.port_number p hp)

theorem setPath_url {method path : List Char} {h : HttpRequest}
    (hc : getMethod method = .connect → path = [] ∧ h.url = []) :
    ∃ u p, setPath method path h = { h with url := u, urlParamStart := p } ∧
      (path = u ∨ (path = [] ∧ u = "/".toList)) := by
  unfold setPath setUrl
  by_cases hm : getMethod method = .connect
  · rw [if_pos hm]
    exact ⟨_, _, rfl, .inl ((hc hm).1.trans (hc hm).2.symm)⟩
  · rw [if_neg hm]
    by_cases h1 : path = [] ∧ h.host ≠ []
    · rw [if_pos h1]
      exact ⟨_, _, rfl, .inr ⟨h1.1, rfl⟩⟩
    · rw [if_neg h1]
      by_cases h2 : path ≠ []
      · rw [if_pos h2]
        exact ⟨_, _, rfl, .inl rfl⟩
      · rw [if_neg h2]
        exact ⟨_, _, rfl, .inl rfl⟩

/-- What is stored of an accepted line, in a request that has no host. -/
theorem AcceptedLine.isLineOf (l : AcceptedLine) : IsLineOf l.text (l.store (.make [] [])) := by
  have hbase : (l.storeAuthority (l.begin_ (.make [] []))).methodStr = l.method ∧
      (l.storeAuthority (l.begin_ (.make [] []))).url = [] := by
    unfold storeAuthority
    cases l.authority <;> exact ⟨rfl, rfl⟩
  have hhost : (l.service = [] ∧ (l.storeAuthority (l.begin_ (.make [] []))).host = [] ∧
      (l.storeAuthority (l.begin_ (.make [] []))).port = []) ∨
      ∃ a : Authority, l.service = a.text ∧
        l.storeAuthority (l.begin_ (.make [] [])) = a.store (l.begin_ (.make [] [])) := by
    unfold service storeAuthority
    cases l.authority with
    | none => exact .inl ⟨rfl, rfl, rfl⟩
    | some a => exact .inr ⟨a, rfl, rfl⟩
  unfold store
  generalize l.storeAuthority (l.begin_ (.make [] [])) = h at hbase hhost
  obtain ⟨u, p, hset, hurl⟩ := setPath_url fun hc => ⟨(l.connect hc).2, hbase.2⟩
  rw [hset]
  refine ⟨l.schemeText, l.service, l.path, ?_, ?_, hurl, ?_⟩
  · show l.text = h.methodStr ++ _
    rw [hbase.1]
    rfl
  · unfold schemeText
    cases l.scheme
    · exact .inl rfl
    · exact .inr rfl
  · rcases hhost with hnone | ⟨a, hservice, rfl⟩
    · exact .inl hnone
    · rw [hservice]
      exact .inr ⟨a.host_chars.1, a.isPort_portText, a.isService (.make [] [])⟩

end Hcpp
