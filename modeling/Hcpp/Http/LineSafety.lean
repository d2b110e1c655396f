import Hcpp.Http.LineGrammar
import Hcpp.Http.Numbers
import Hcpp.Http.RequestHead

/-!
# The request line parser on arbitrary heads

`parserMessageWithin` is `parser_reuqest_line` as it is safe to run: what is cut
off the view lies in it, no size falls below 0, and the asserts hold.
`parserMessage_exact`: on every message that ends with CRLFCRLF it does what the
parser does, an accepted line is the text of its parts, and the lines a client
may send are accepted.
-/

namespace Hcpp

open Regex

/-! ## The guarded parser -/

/-- `sv.substr(0, n)` -/
def substrWithin (n : Nat) (sv : List Char) : Outcome (List Char) :=
  if n ≤ sv.length then .ret (sv.take n) else .undefined

/-- `sv.remove_prefix(n)` -/
def removePrefixWithin (n : Nat) (sv : List Char) : Outcome (List Char) :=
  if n ≤ sv.length then .ret (sv.drop n) else .undefined

/-- A difference of sizes. -/
def subWithin (a b : Nat) : Outcome Nat := if b ≤ a then .ret (a - b) else .undefined

def removePrefixIf (c : Bool) (n : Nat) (sv : List Char) : Outcome (List Char) :=
  if c then removePrefixWithin n sv else .ret sv

def subIf (c : Bool) (a b : Nat) : Outcome Nat := if c then subWithin a b else .ret a

/-- `std::stoi` throws when the number is no `int`. -/
def stoiWithin (s : List Char) : Outcome Nat :=
  if stoul 10 s < 2 ^ 31 then .ret (stoul 10 s) else .throws

def parserEndpointWithin (service : List Char) (h : HttpRequest) :
    Outcome (Option (HttpRequest × Bool)) :=
  match fullMatch endpointReg service with
  | none => .ret (some (h, false))
  | some caps =>
    match group 1 caps with
    -- assert(m[1].matched)
    | none => .undefined
    | some host =>
      let h := { h with host := host }
      match group 3 caps with
      | none => .ret (some ({ h with port := "80".toList }, true))
      | some port => do
        let n ← stoiWithin port
        if n > 65535 then .ret none else .ret (some ({ h with port := port }, true))

def parserVersionWithin (svl : List Char) (h : HttpRequest) : Outcome (Option HttpRequest) := do
  let n ← subWithin svl.length 2
  let version ← substrWithin n svl
  let h := { h with version := version }
  if "HTTP/".toList.isPrefixOf svl then do
    let svl ← removePrefixWithin 5 svl
    match Search.find crlf svl with
    | none => .ret none
    | some httpVerEnd => do
      let httpVer ← substrWithin httpVerEnd svl
      match fullMatch versionReg httpVer with
      | none => .ret none
      | some _ => do
        let svl ← removePrefixWithin (httpVerEnd + 2) svl
        -- assert(svl.size() == 0)
        if svl.length = 0 then .ret (some h) else .undefined
  else .ret none

def parserLineWithin (svl : List Char) (h : HttpRequest) : Outcome (Option HttpRequest) :=
  match Search.find [' '] svl with
  | none => .ret none
  | some methodEnd => do
    let methodStr ← substrWithin methodEnd svl
    let h := { h with methodStr := methodStr, method := getMethod methodStr }
    let svl ← removePrefixWithin (methodEnd + 1) svl
    match Search.find [' '] svl with
    | none => .ret none
    | some uriEnd => do
      let http := decide (h.method ≠ .connect) && "http://".toList.isPrefixOf svl
      let svl ← removePrefixIf http 7 svl
      let uriEnd ← subIf http uriEnd 7
      let uri ← substrWithin uriEnd svl
      let serviceEnd :=
        if h.method ≠ .connect then (Search.find ['/'] uri).getD uriEnd else uriEnd
      let service ← substrWithin serviceEnd svl
      match ← parserEndpointWithin service h with
      | none => .ret none
      | some (h, matched) => do
        let svl ← removePrefixIf matched serviceEnd svl
        let urlEnd ← subWithin uriEnd serviceEnd
        let url ← substrWithin urlEnd svl
        let h := if h.method ≠ .connect then setUrl url h else h
        -- the assert before it asks for the same
        let svl ← removePrefixWithin (urlEnd + 1) svl
        parserVersionWithin svl h

/-- `parser_reuqest_line` behind its load. -/
def parserMessage (m : Memory) (msg : List Char) (h : HttpRequest) :
    Memory × Option (HttpRequest × Nat) :=
  match parserLine (firstLine msg) h with
  | none => (m, none)
  | some h => (m.removeSome (firstLine msg).length,
      some (h, toSizeT (msg.length - (firstLine msg).length - 2)))

theorem parserRequestLine_eq (m : Memory) (h : HttpRequest) :
    parserRequestLine m h = do
      let (m, msg) ← m.asyncLoadUntil crlfcrlf
      return parserMessage m msg h := by
  unfold parserRequestLine parserMessage
  congr 1
  ext ⟨m, msg⟩
  dsimp only
  cases parserLine (firstLine msg) h <;> rfl

def parserMessageWithin (m : Memory) (msg : List Char) (h : HttpRequest) :
    Outcome (Memory × Option (HttpRequest × Nat)) := do
  -- npos + 2 is 1
  let svl ← substrWithin (((Search.find crlf msg).map (· + 2)).getD 1) msg
  match ← parserLineWithin svl h with
  | none => .ret (m, none)
  | some h => do
    let n ← subWithin msg.length svl.length
    let headerEnd ← subWithin n 2
    .ret (m.removeSome svl.length, some (h, headerEnd))

/-! ## The guards hold -/

theorem substrWithin_left (s t : List Char) : substrWithin s.length (s ++ t) = .ret s := by
  rw [substrWithin, if_pos (by rw [List.length_append]; omega), List.take_left]

theorem removePrefixWithin_left (s t : List Char) :
    removePrefixWithin s.length (s ++ t) = .ret t := by
  rw [removePrefixWithin, if_pos (by rw [List.length_append]; omega), List.drop_left]

theorem removePrefixWithin_behind (s t : List Char) (c : Char) :
    removePrefixWithin (s.length + 1) (s ++ c :: t) = .ret t := by
  rw [removePrefixWithin, if_pos (by rw [List.length_append, List.length_cons]; omega), drop_behind]

theorem parserEndpointWithin_eq (service : List Char) (h : HttpRequest) :
    parserEndpointWithin service h = .ret (parserEndpoint service h) := by
  unfold parserEndpointWithin parserEndpoint
  cases hm : fullMatch endpointReg service with
  | none => rfl
  | some caps =>
    obtain ⟨host, -, h1, h3⟩ := fullMatch_endpointReg hm
    simp only [h1, Option.getD_some]
    cases hg : group 3 caps with
    | none => rfl
    | some port =>
      obtain ⟨p, hp, hport⟩ : ∃ p, IsPortText p ∧ group 3 caps = some p := by
        rcases h3 with ⟨-, h3⟩ | ⟨p, hp, -, h3⟩
        · rw [hg] at h3
          cases h3
        · exact ⟨p, hp, h3⟩
      rw [hg, Option.some.injEq] at hport
      subst hport
      have hlt : stoul 10 port < 2 ^ 31 := by
        have hbound : stoul 10 port < 10 ^ port.length :=
          stoul_lt fun c hc => digitVal_lt (hp.digits.2 c hc)
        have hpow : 10 ^ port.length ≤ 10 ^ 5 := Nat.pow_le_pow_right (by decide) hp.length_le
        omega
      simp only [stoiWithin, if_pos hlt, Outcome.ret_bind]
      by_cases hbig : stoul 10 port > 65535
      · rw [if_pos hbig, if_pos hbig]
      · rw [if_neg hbig, if_neg hbig]

theorem parserVersionWithin_eq {v : List Char} (hv : ¬ crlf <:+: v) (h : HttpRequest) :
    parserVersionWithin (v ++ crlf) h = .ret (parserVersion (v ++ crlf) h) := by
  have h2 : crlf.length = 2 := rfl
  have hlen : (v ++ crlf).length - 2 = v.length := by
    rw [List.length_append, h2, Nat.add_sub_cancel]
  unfold parserVersionWithin parserVersion
  rw [subWithin, if_pos (by rw [List.length_append]; omega), Outcome.ret_bind, hlen,
    substrWithin_left, Outcome.ret_bind, List.take_left]
  have hcr : v ++ crlf = v ++ '\r' :: ['\n'] := rfl
  by_cases hpre : "HTTP/".toList.isPrefixOf (v ++ crlf) = true
  · rw [if_pos hpre, if_pos hpre]
    rw [hcr, isPrefixOf_cut (by decide), List.isPrefixOf_iff_prefix] at hpre
    obtain ⟨w, rfl⟩ := hpre
    have hw : ¬ crlf <:+: w := fun h => hv (h.trans (List.suffix_append _ w).isInfix)
    have hdrop : ("HTTP/".toList ++ w ++ crlf).drop 5 = w ++ crlf := by
      rw [List.append_assoc]
      exact List.drop_left' rfl
    rw [removePrefixWithin, if_pos (by simp), Outcome.ret_bind]
    simp only [hdrop, find_crlf_end hw, substrWithin_left, Outcome.ret_bind, List.take_left]
    cases hm : fullMatch versionReg w with
    | none => rfl
    | some caps =>
      have hall : removePrefixWithin (w.length + 2) (w ++ crlf) = .ret [] := by
        rw [removePrefixWithin, if_pos (by rw [List.length_append]; omega),
          List.drop_eq_nil_of_le (by rw [List.length_append]; omega)]
      simp only [hall, Outcome.ret_bind]
      rfl
  · rw [if_neg hpre, if_neg hpre]

/-- The scheme is cut off the rest of the line, and off the end of the target. -/
theorem cut_schemeWithin (target rest : List Char) (http : Bool)
    (hh : http = true → "http://".toList <+: target) :
    ∃ hier, removePrefixIf http 7 (target ++ ' ' :: rest) = .ret (hier ++ ' ' :: rest) ∧
      subIf http target.length 7 = .ret hier.length ∧
      (if http then (target ++ ' ' :: rest).drop 7 else target ++ ' ' :: rest) =
        hier ++ ' ' :: rest ∧
      (if http then target.length - 7 else target.length) = hier.length ∧ hier <:+ target := by
  cases http with
  | false => exact ⟨target, rfl, rfl, rfl, rfl, List.suffix_refl _⟩
  | true =>
    obtain ⟨t, rfl⟩ := hh rfl
    have h7 : "http://".toList.length = 7 := rfl
    have hlen : ("http://".toList ++ t).length - 7 = t.length := by
      rw [List.length_append, h7, Nat.add_sub_cancel_left]
    refine ⟨t, ?_, ?_, ?_, hlen, List.suffix_append _ _⟩
    · rw [List.append_assoc]
      exact removePrefixWithin_left "http://".toList (t ++ ' ' :: rest)
    · rw [subIf, if_pos rfl, subWithin, if_pos (by rw [List.length_append]; omega), hlen]
    · rw [List.append_assoc]
      exact List.drop_left' rfl

/-- Behind the endpoint: whether it is cut off or not, the url and the space behind it are
in the view, and so is the line end. -/
theorem behind_endpointWithin {service path v : List Char}
    (hno : ¬ crlf <:+: service ++ path ++ ' ' :: v) (matched : Bool)
    (url : List Char → HttpRequest) :
    (do
      let svl ← removePrefixIf matched service.length (service ++ path ++ ' ' :: (v ++ crlf))
      let u ← substrWithin path.length svl
      let svl ← removePrefixWithin (path.length + 1) svl
      parserVersionWithin svl (url u)) =
    .ret (let svl := if matched then (service ++ path ++ ' ' :: (v ++ crlf)).drop service.length
        else service ++ path ++ ' ' :: (v ++ crlf)
      parserVersion (svl.drop (path.length + 1)) (url (svl.take path.length))) := by
  -- what is left is a text with the space at the end of the url or behind it
  have hleft : ∀ y : List Char, y <:+: service ++ path ++ ' ' :: v → path.length + 1 ≤ y.length →
      (do
        let u ← substrWithin path.length (y ++ crlf)
        let svl ← removePrefixWithin (path.length + 1) (y ++ crlf)
        parserVersionWithin svl (url u)) =
      .ret (parserVersion ((y ++ crlf).drop (path.length + 1))
        (url ((y ++ crlf).take path.length))) := by
    intro y hy hle
    have hlen : (y ++ crlf).length = y.length + 2 := by
      rw [List.length_append]
      rfl
    have hyno : ¬ crlf <:+: y.drop (path.length + 1) := fun h =>
      hno (h.trans ((List.drop_suffix _ _).isInfix.trans hy))
    rw [substrWithin, if_pos (by omega), Outcome.ret_bind, removePrefixWithin,
      if_pos (by omega), Outcome.ret_bind, List.drop_append_of_le_length hle]
    exact parserVersionWithin_eq hyno _
  cases matched with
  | false =>
    have hy := hleft (service ++ path ++ ' ' :: v) (List.infix_refl _) (by simp; omega)
    simpa [removePrefixIf] using hy
  | true =>
    have hy := hleft (path ++ ' ' :: v) ⟨service, [], by simp⟩ (by simp)
    have hdrop : (service ++ path ++ ' ' :: (v ++ crlf)).drop service.length =
        path ++ ' ' :: (v ++ crlf) := by
      rw [List.append_assoc, List.drop_left]
    have hremove : removePrefixIf true service.length (service ++ path ++ ' ' :: (v ++ crlf)) =
        .ret (path ++ ' ' :: (v ++ crlf)) := by
      rw [List.append_assoc]
      exact removePrefixWithin_left _ _
    simp only [if_true, hremove, hdrop, Outcome.ret_bind]
    simpa using hy

/-- On a line, the guarded parser does what the parser does. -/
theorem parserLineWithin_eq {s : List Char} (hs : ¬ crlf <:+: s) (h : HttpRequest) :
    parserLineWithin (s ++ crlf) h = .ret (parserLine (s ++ crlf) h) := by
  unfold parserLineWithin parserLine
  cases hme : Search.find [' '] (s ++ crlf) with
  | none => rfl
  | some methodEnd =>
    obtain ⟨b, hb, hbl, -⟩ := find_single hme
    generalize (s ++ crlf).take methodEnd = method at hb hbl
    subst hbl
    simp only [hb, substrWithin_left, removePrefixWithin_behind, Outcome.ret_bind, List.take_left,
      drop_behind]
    cases hue : Search.find [' '] b with
    | none => rfl
    | some uriEnd =>
      obtain ⟨rest, hr, hrl, -⟩ := find_single hue
      generalize b.take uriEnd = target at hr hrl
      subst hrl hr
      have hx : s ++ crlf = (method ++ ' ' :: target) ++ ' ' :: rest := by
        rw [hb]
        simp
      obtain ⟨v, rfl, rfl⟩ := exists_rest hx
      generalize hhttp : (decide (getMethod method ≠ .connect) &&
        "http://".toList.isPrefixOf (target ++ ' ' :: (v ++ crlf))) = http
      obtain ⟨hier, h1, h2, h3, h4, hsuf⟩ := cut_schemeWithin target (v ++ crlf) http (by
        rintro rfl
        rw [Bool.and_eq_true, isPrefixOf_cut (by decide), List.isPrefixOf_iff_prefix] at hhttp
        exact hhttp.2)
      simp only [h1, h2, h3, h4, Outcome.ret_bind, substrWithin_left, List.take_left]
      obtain ⟨service, path, rfl, hend⟩ : ∃ service path, hier = service ++ path ∧
          (if getMethod method ≠ .connect then (Search.find ['/'] hier).getD hier.length
            else hier.length) = service.length := by
        by_cases hc : getMethod method ≠ .connect
        · rw [if_pos hc, find_single_getD]
          exact ⟨_, _, (List.takeWhile_append_dropWhile (p := (· ≠ '/'))).symm, rfl⟩
        · rw [if_neg hc]
          exact ⟨hier, [], (List.append_nil _).symm, rfl⟩
      have hcut : (service ++ path).length - service.length = path.length := by
        rw [List.length_append, Nat.add_sub_cancel_left]
      have hsub : subWithin (service ++ path).length service.length = .ret path.length := by
        rw [subWithin, if_pos (by rw [List.length_append]; omega), hcut]
      have hservice : substrWithin service.length (service ++ path ++ ' ' :: (v ++ crlf)) =
          .ret service := by
        rw [List.append_assoc]
        exact substrWithin_left _ _
      have htake : (service ++ path ++ ' ' :: (v ++ crlf)).take service.length = service := by
        rw [List.append_assoc, List.take_left]
      have hno : ¬ crlf <:+: service ++ path ++ ' ' :: v := by
        intro h
        apply hs
        obtain ⟨t, rfl⟩ := hsuf
        exact h.trans ⟨method ++ ' ' :: t, [], by simp⟩
      simp only [hend, hcut, hsub, hservice, htake, Outcome.ret_bind, parserEndpointWithin_eq]
      cases he : parserEndpoint service _ with
      | none => rfl
      | some r =>
        obtain ⟨h2, matched⟩ := r
        exact behind_endpointWithin hno matched fun u =>
          if h2.method ≠ .connect then setUrl u h2 else h2

/-! ## The whole message -/

/-- A message that ends with CRLFCRLF: its first line, the fields and the last line end. -/
theorem exists_lines {msg : List Char} (h : crlfcrlf <:+ msg) :
    ∃ s fields, msg = s ++ crlf ++ (fields ++ crlf) ∧ ¬ crlf <:+: s := by
  obtain ⟨t, rfl⟩ := h
  have hmsg : t ++ crlfcrlf = t ++ crlf ++ crlf := by rw [List.append_assoc]; rfl
  have hin : crlf <:+: t ++ crlf ++ crlf := (List.suffix_append _ crlf).isInfix
  obtain ⟨p, hp⟩ := Search.exists_find hin
  obtain ⟨hsplit, hs⟩ := split_line hp
  rw [hmsg]
  rcases crlf_next hs hsplit.symm with ⟨ht, hrest⟩ | ⟨a, -, hrest⟩
  · rw [hrest] at hsplit
    exact ⟨_, [], hsplit, hs⟩
  · rw [hrest] at hsplit
    exact ⟨_, a ++ crlf, hsplit, hs⟩

variable {m : Memory} {s fields : List Char}

theorem parserMessage_of_lines (hs : ¬ crlf <:+: s)
    (hlen : (s ++ crlf ++ (fields ++ crlf)).length < 2 ^ 64) (h : HttpRequest) :
    parserMessage m (s ++ crlf ++ (fields ++ crlf)) h =
      match parserLine (s ++ crlf) h with
      | none => (m, none)
      | some h' => (m.removeSome (s ++ crlf).length, some (h', fields.length)) := by
  have h2 : crlf.length = 2 := rfl
  have hcut : toSizeT ((s ++ crlf ++ (fields ++ crlf)).length - (s ++ crlf).length - 2) =
      fields.length := by
    simp only [List.length_append, h2] at hlen ⊢
    unfold toSizeT
    omega
  rw [parserMessage, firstLine_block hs, hcut]

theorem parserMessageWithin_of_lines (hs : ¬ crlf <:+: s) (h : HttpRequest) :
    parserMessageWithin m (s ++ crlf ++ (fields ++ crlf)) h =
      .ret (match parserLine (s ++ crlf) h with
      | none => (m, none)
      | some h' => (m.removeSome (s ++ crlf).length, some (h', fields.length))) := by
  have h2 : crlf.length = 2 := rfl
  have hfind : Search.find crlf (s ++ crlf ++ (fields ++ crlf)) = some s.length :=
    Search.find_pair_end (by decide) hs _
  have hline : substrWithin (s.length + 2) (s ++ crlf ++ (fields ++ crlf)) = .ret (s ++ crlf) := by
    have hlen : s.length + 2 = (s ++ crlf).length := by rw [List.length_append, h2]
    rw [hlen]
    exact substrWithin_left _ _
  have hsub : subWithin (s ++ crlf ++ (fields ++ crlf)).length (s ++ crlf).length =
      .ret (fields ++ crlf).length := by
    have hle : (s ++ crlf ++ (fields ++ crlf)).length =
        (s ++ crlf).length + (fields ++ crlf).length := List.length_append
    rw [hle, subWithin, if_pos (by omega), Nat.add_sub_cancel_left]
  have hend : subWithin (fields ++ crlf).length 2 = .ret fields.length := by
    rw [List.length_append, h2, subWithin, if_pos (by omega), Nat.add_sub_cancel]
  rw [parserMessageWithin, hfind]
  simp only [Option.map_some, Option.getD_some, hline, Outcome.ret_bind, parserLineWithin_eq hs]
  cases parserLine (s ++ crlf) h with
  | none => rfl
  | some h' => simp only [hsub, hend, Outcome.ret_bind]

/-- What `parser_reuqest_line` does with a message of a first line, fields and an empty line. -/
structure ReadsMessage (m : Memory) (s fields : List Char) (h : HttpRequest) : Prop where
  /-- nothing is cut off beyond the view, and no assert fails -/
  safe : parserMessageWithin m (s ++ crlf ++ (fields ++ crlf)) h =
    .ret (parserMessage m (s ++ crlf ++ (fields ++ crlf)) h)
  accepted : ∀ m' h' headerEnd,
    parserMessage m (s ++ crlf ++ (fields ++ crlf)) h = (m', some (h', headerEnd)) →
      IsLineOf s h' ∧ m' = m.removeSome (s ++ crlf).length ∧ headerEnd = fields.length ∧
      (m.WF → ∀ t, m.unread = s ++ crlf ++ (fields ++ crlf) ++ t →
        m'.unread = fields ++ crlf ++ t)
  accepts : IsClientLine s → ∃ m' h' headerEnd,
    parserMessage m (s ++ crlf ++ (fields ++ crlf)) h = (m', some (h', headerEnd))

/-- **The request line parser**, on a fresh request and every message that ends with
CRLFCRLF, wherever it was loaded from. -/
theorem parserMessage_exact {msg : List Char} (hend : crlfcrlf <:+ msg)
    (hlen : msg.length < 2 ^ 64) (m : Memory) :
    (∀ m₀ : Memory, m₀.asyncLoadUntil crlfcrlf = .ret (m, msg) →
      parserRequestLine m₀ (.make [] []) = .ret (parserMessage m msg (.make [] []))) ∧
    ∃ s fields, msg = s ++ crlf ++ (fields ++ crlf) ∧ ¬ crlf <:+: s ∧
      ReadsMessage m s fields (.make [] []) := by
  constructor
  · intro m₀ hload
    rw [parserRequestLine_eq, hload, Outcome.ret_bind]
    rfl
  · obtain ⟨s, fields, rfl, hs⟩ := exists_lines hend
    refine ⟨s, fields, rfl, hs, ?_, ?_, ?_⟩
    · rw [parserMessage_of_lines hs hlen, parserMessageWithin_of_lines hs]
    · intro m' h' headerEnd hp
      rw [parserMessage_of_lines hs hlen] at hp
      cases hl : parserLine (s ++ crlf) (.make [] []) with
      | none =>
        rw [hl] at hp
        cases hp
      | some h =>
        rw [hl] at hp
        cases hp
        obtain ⟨l, rfl, rfl⟩ := (parserLine_iff hs).mp hl
        refine ⟨l.isLineOf, rfl, rfl, fun hwf t hu => ?_⟩
        rw [List.append_assoc (l.text ++ crlf)] at hu
        have hle : (l.text ++ crlf).length ≤ m.unread.length := by
          rw [hu]
          exact (List.prefix_append _ _).length_le
        rw [(Memory.removeSome_spec hwf hle).2, hu, List.drop_left]
    · intro hclient
      obtain ⟨l, rfl⟩ := hclient.exists_text
      rw [parserMessage_of_lines hs hlen, parserLine_text]
      exact ⟨_, _, _, rfl⟩

/-- A request with an absolute target, and a field. -/
theorem parserMessage_exact_absolute :
    ReadsMessage (.fresh .plain [] none) "GET http://a:8080/x?y HTTP/1.1".toList "A: b\r\n".toList
      (.make [] []) := by
  have hend : crlfcrlf <:+ "GET http://a:8080/x?y HTTP/1.1".toList ++ crlf ++
      ("A: b\r\n".toList ++ crlf) := by decide
  obtain ⟨-, s, fields, hmsg, hs, hreads⟩ :=
    parserMessage_exact hend (by decide) (.fresh .plain [] none)
  obtain ⟨rfl, hfields⟩ := crlf_cut (by decide) hs hmsg
  obtain rfl := List.append_cancel_right hfields
  exact hreads

/-- A target without a host has no port: a request for the proxy itself. -/
theorem parserRequestLine_no_port :
    ∃ m' h headerEnd, parserRequestLine
        (.fresh .plain ["GET / HTTP/1.1\r\n\r\n".toList] none) (.make [] []) =
          .ret (m', some (h, headerEnd)) ∧
      h.port = [] ∧ ¬ IsPort h.port :=
  ⟨_, _, _, rfl, rfl, fun h => h.digits.1 rfl⟩

end Hcpp
