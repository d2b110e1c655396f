import Hcpp.Lib.Pattern
import Hcpp.Server.Intercept

/-!
# Loading the intercept rules

`config::config_to(http_handler)` (config.cpp) sorts the `proxy_service` entries
into exact hosts and wildcards.  The wildcards pass through a map keyed by
`mr.size()`, which is the same for all of them: the first wildcard of the list is
the only one the handler gets (`regxFilter_configTo`).
-/

namespace Hcpp

open Regex

/-- `^\*|((\*\.)+.+)$` -/
def wildcardRegex : Re Char :=
  .alt (.seq .bol (.cls (· == '*')))
    (.seq (.grp 1 (.seq (.rep (.grp 2 (.seq (.cls (· == '*')) (.cls (· == '.')))) 1 none)
      (.plus anyChar))) .eol)

/-- `regex_replace(host_, \*\., .+\.)` -/
def starsReplaced : List Char → List Char
  | '*' :: '.' :: s => '.' :: '+' :: '\\' :: '.' :: starsReplaced s
  | c :: s => c :: starsReplaced s
  | [] => []

/-- `mr.size()` after a match, less the two that are always there. -/
def nstar (r : Re Char) : Nat :=
  let size := r.marks + 1
  if size > 2 then size - 2 else size

/-- The entry as it is moved into the map: a lone `*` reads `*.` by then. -/
def InterceptSet.starred (i : InterceptSet) : InterceptSet :=
  if i.host = ['*'] then { i with host := ['*', '.'] } else i

/-- `std::map::insert`: in the order of the keys, and nothing where the key is taken. -/
def mapInsert {β : Type} (k : Nat) (v : β) : List (Nat × β) → List (Nat × β)
  | [] => [(k, v)]
  | (k', v') :: m =>
    if k < k' then (k, v) :: (k', v') :: m
    else if k = k' then (k', v') :: m
    else (k', v') :: mapInsert k v m

/-- `add_intercept` for a host: `emplace` keeps the entry that is there. -/
def HttpHandler.addDirect (hh : HttpHandler) (i : List Char × InterceptSet) : HttpHandler :=
  if (hh.directFilter.find? fun d => d.1 = i.1).isSome then hh
  else { hh with directFilter := hh.directFilter ++ [i] }

/-- `add_intercept` for a regex. -/
def HttpHandler.addRegx (hh : HttpHandler) (i : (List Char → Bool) × InterceptSet) : HttpHandler :=
  { hh with regxFilter := hh.regxFilter ++ [i] }

/-- A handler no rule was added to. -/
def HttpHandler.fresh (base : List (List Char × (List Char → List Char))) : HttpHandler :=
  ⟨base, [], []⟩

abbrev StarMap := List (Nat × ((List Char → Bool) × InterceptSet))

section Load

-- `std::regex(s)`: what `regex_match` says of a text, `none` where it throws
variable (regex : List Char → Option (List Char → Bool))

/-- One entry of `proxy_service_`. -/
def configEntry (st : HttpHandler × StarMap) (i : InterceptSet) : Outcome (HttpHandler × StarMap) :=
  match fullMatch wildcardRegex i.host with
  | some _ =>
    match regex (starsReplaced i.starred.host) with
    | some r => .ret (st.1, mapInsert (nstar wildcardRegex) (r, i.starred) st.2)
    | none => .throws
  | none => .ret (st.1.addDirect (i.host, i), st.2)

/-- `config::config_to(http_handler)` -/
def configTo (proxyService : List InterceptSet) (hh : HttpHandler) : Outcome HttpHandler := do
  let (hh, starMap) ← proxyService.foldlM (configEntry regex) (hh, [])
  return starMap.foldl (fun hh i => hh.addRegx i.2) hh

end Load

/-- `std::regex(s)` and `regex_match`: the pattern where its syntax is that of
`Regex.compile`, any answer else. -/
def stdRegex (other : List Char → Option (List Char → Bool)) (s : List Char) :
    Option (List Char → Bool) :=
  match compile s with
  | some r => some fun t => (fullMatch r t).isSome
  | none => other s

/-! ## What the handler gets -/

/-- An entry that `config_to` takes for a wildcard. -/
def InterceptSet.Wildcard (i : InterceptSet) : Prop :=
  (fullMatch wildcardRegex i.host).isSome = true

instance (i : InterceptSet) : Decidable i.Wildcard := instDecidableEqBool _ _

theorem nstar_wildcardRegex : nstar wildcardRegex = 1 := rfl

section Load

variable {regex : List Char → Option (List Char → Bool)}

/-- The exact entries, as `add_intercept` gets them. -/
def exacts (es : List InterceptSet) : List (List Char × InterceptSet) :=
  (es.filter fun i => ¬ i.Wildcard).map fun i => (i.host, i)

/-- The wildcards, each with its regex. -/
def wildcards (regex : List Char → Option (List Char → Bool)) (es : List InterceptSet) :
    List ((List Char → Bool) × InterceptSet) :=
  (es.filter fun i => i.Wildcard).filterMap fun i =>
    (regex (starsReplaced i.starred.host)).map (·, i.starred)

/-- A lookup after `emplace` finds what a lookup in the list of all entries finds. -/
theorem find?_addDirect (hh : HttpHandler) (i : List Char × InterceptSet) (host : List Char) :
    ((hh.addDirect i).directFilter.find? fun d => d.1 = host) =
      (hh.directFilter ++ [i]).find? fun d => d.1 = host := by
  unfold HttpHandler.addDirect
  by_cases htaken : (hh.directFilter.find? fun d => d.1 = i.1).isSome
  · rw [if_pos htaken, List.find?_append]
    by_cases hkey : i.1 = host
    · rw [hkey] at htaken
      obtain ⟨x, hx⟩ := Option.isSome_iff_exists.mp htaken
      rw [hx, Option.some_or]
    · rw [List.find?_cons_of_neg (by simpa using hkey), List.find?_nil, Option.or_none]
  · rw [if_neg htaken]

/-- A map that holds nothing but key 1 keeps its first entry. -/
theorem mapInsert_take {β : Type} (v : β) {m : List β} (hm : m.length ≤ 1) :
    mapInsert 1 v (m.map (1, ·)) = ((m ++ [v]).take 1).map (1, ·) := by
  cases m with
  | nil => rfl
  | cons w m =>
    obtain rfl : m = [] := List.eq_nil_of_length_eq_zero (by simpa using hm)
    rfl

/-- What one entry leaves: the regexes and the other handlers are untouched. -/
theorem configEntry_ret {st st' : HttpHandler × StarMap} {i : InterceptSet}
    (h : configEntry regex st i = .ret st') :
    (i.Wildcard ∧ ∃ r, regex (starsReplaced i.starred.host) = some r ∧
        st' = (st.1, mapInsert 1 (r, i.starred) st.2)) ∨
      (¬ i.Wildcard ∧ st' = (st.1.addDirect (i.host, i), st.2)) := by
  unfold configEntry at h
  unfold InterceptSet.Wildcard
  cases hm : fullMatch wildcardRegex i.host with
  | some caps =>
    rw [hm] at h
    left
    refine ⟨rfl, ?_⟩
    cases hr : regex (starsReplaced i.starred.host) with
    | none => simp [hr] at h
    | some r =>
      simp only [hr, nstar_wildcardRegex, Outcome.ret.injEq] at h
      exact ⟨r, rfl, h.symm⟩
  | none =>
    rw [hm] at h
    simp only [Outcome.ret.injEq] at h
    right
    exact ⟨by simp, h.symm⟩

/-- The loop over the entries; the map never holds more than one. -/
theorem configLoop {es : List InterceptSet} {hh hh' : HttpHandler} {sm' : StarMap}
    {m : List ((List Char → Bool) × InterceptSet)} (hm : m.length ≤ 1)
    (h : es.foldlM (configEntry regex) (hh, m.map (1, ·)) = .ret (hh', sm')) :
    sm' = ((m ++ wildcards regex es).take 1).map (1, ·) ∧ hh'.regxFilter = hh.regxFilter ∧
      (∀ host, (hh'.directFilter.find? fun d => d.1 = host) =
        (hh.directFilter ++ exacts es).find? fun d => d.1 = host) ∧
      ∀ i ∈ es, i.Wildcard → (regex (starsReplaced i.starred.host)).isSome := by
  induction es generalizing hh m with
  | nil =>
    rw [List.foldlM_nil, Outcome.pure_eq, Outcome.ret.injEq, Prod.mk.injEq] at h
    obtain ⟨rfl, rfl⟩ := h
    refine ⟨?_, rfl, by simp [exacts], by simp⟩
    simp only [wildcards, List.filter_nil, List.filterMap_nil, List.append_nil]
    rw [List.take_of_length_le hm]
  | cons i es ih =>
    rw [List.foldlM_cons] at h
    obtain ⟨st, hst, h⟩ := Outcome.bind_eq_ret.mp h
    rcases configEntry_ret hst with ⟨hw, r, hr, rfl⟩ | ⟨hw, rfl⟩
    · rw [mapInsert_take _ hm] at h
      have hlen : ((m ++ [(r, i.starred)]).take 1).length ≤ 1 := by
        rw [List.length_take]
        omega
      obtain ⟨hsm, hreg, hdir, hall⟩ := ih hlen h
      refine ⟨?_, hreg, ?_, ?_⟩
      · rw [hsm]
        have hcons : wildcards regex (i :: es) = (r, i.starred) :: wildcards regex es := by
          simp [wildcards, hw, hr]
        rw [hcons]
        cases m with
        | nil => rfl
        | cons x m => rfl
      · intro host
        rw [hdir]
        simp [exacts, hw]
      · intro j hj hwj
        rcases List.mem_cons.mp hj with rfl | hj
        · rw [hr]
          rfl
        · exact hall j hj hwj
    · obtain ⟨hsm, hreg, hdir, hall⟩ := ih hm h
      have hexacts : exacts (i :: es) = (i.host, i) :: exacts es := by simp [exacts, hw]
      refine ⟨?_, ?_, ?_, ?_⟩
      · rw [hsm]
        simp [wildcards, hw]
      · rw [hreg]
        unfold HttpHandler.addDirect
        split <;> rfl
      · intro host
        rw [hdir, List.find?_append, find?_addDirect, hexacts, ← List.find?_append,
          List.append_assoc]
        rfl
      · intro j hj hwj
        rcases List.mem_cons.mp hj with rfl | hj
        · exact absurd hwj hw
        · exact hall j hj hwj

/-- The handler after `config_to`. -/
theorem configTo_ret {es : List InterceptSet} {hh hh' : HttpHandler}
    (h : configTo regex es hh = .ret hh') :
    hh'.regxFilter = hh.regxFilter ++ (wildcards regex es).take 1 ∧
      (∀ host, (hh'.directFilter.find? fun d => d.1 = host) =
        (hh.directFilter ++ exacts es).find? fun d => d.1 = host) ∧
      ∀ i ∈ es, i.Wildcard → (regex (starsReplaced i.starred.host)).isSome := by
  unfold configTo at h
  obtain ⟨⟨hh1, sm⟩, hloop, h⟩ := Outcome.bind_eq_ret.mp h
  simp only [Outcome.pure_eq, Outcome.ret.injEq] at h
  obtain ⟨hsm, hreg, hdir, hall⟩ := configLoop (m := []) (Nat.zero_le 1) hloop
  rw [List.nil_append] at hsm
  subst hsm
  subst h
  refine ⟨?_, ?_, hall⟩
  · rw [← hreg]
    cases wildcards regex es with
    | nil => simp
    | cons x xs => rfl
  · intro host
    rw [← hdir]
    cases wildcards regex es with
    | nil => rfl
    | cons x xs => rfl

end Load

end Hcpp
