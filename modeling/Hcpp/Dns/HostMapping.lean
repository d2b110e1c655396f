import Hcpp.Lib.OrderedMap
import Hcpp.Http.Numbers
import Hcpp.Dns.CnameChain
import Mathlib.Data.Char
import Mathlib.Data.List.Lex
import Mathlib.Data.Prod.Lex

/-!
# The saved host mapping

`slow_dns::save_hm` makes a `host_mapping` of each entry of `edp_cache_`, and
`load_hm` makes the entries again (dns.cpp).  A `host_mapping` begins with the
address 127.0.0.1 (config.h), and `save_hm` appends to it: what is loaded has
one endpoint more in every list (`load_saved`), and an empty list is taken for
one with a first endpoint.
-/

namespace Hcpp.Dns

/-- `host_mapping`, with its default members. -/
structure HostMapping where
  host : List Char := "localhost".toList
  port : List Char := "8080".toList
  ips : List (List Char) := ["127.0.0.1".toList]

/-- `host_edp`: host and service, in the order of `std::pair`. -/
abbrev HostEdp := List Char ×ₗ List Char

/-- What `load_hm` and `save_hm` use of `slow_dns_imp`. -/
structure SlowDnsImp where
  dnsPath : List Char
  edpCache : OrderedMap HostEdp (List Endpoint)
  hasInit : Bool := false
  hasSave : Bool := false

/-- `std::stoi`; `none` where it throws. -/
def stoi (s : List Char) : Option Int :=
  let s := s.dropWhile isSpace
  let neg := s.head? = some '-'
  let s := if s.head? = some '-' ∨ s.head? = some '+' then s.drop 1 else s
  let digits := s.takeWhile isDigit
  let n : Int := if neg then -(stoul 10 digits : Int) else (stoul 10 digits : Int)
  if digits = [] ∨ n < -2 ^ 31 ∨ 2 ^ 31 ≤ n then none else some n

section Save

-- `address::to_string`
variable (toString : Address → List Char)

/-- One entry of the cache; the first endpoint of an empty list is not there. -/
def saveEntry (i : HostEdp × List Endpoint) : Outcome HostMapping :=
  let hm : HostMapping := {}
  let hm := { hm with host := i.1.1 }
  let hm := { hm with ips := hm.ips ++ i.2.map fun i2 => toString i2.address }
  if hm.ips.length > 0 then
    match i.2 with
    | [] => .undefined
    | edp :: _ => .ret { hm with port := Nat.toDigits 10 edp.port }
  else .ret hm

def saveEntries : List (HostEdp × List Endpoint) → Outcome (List HostMapping)
  | [] => .ret []
  | i :: is => do
    let hm ← saveEntry toString i
    let hms ← saveEntries is
    .ret (hm :: hms)

def saveHm (imp : SlowDnsImp) (hm : List HostMapping) : Outcome (SlowDnsImp × List HostMapping) :=
  if imp.dnsPath = [] then .ret (imp, hm)
  else if imp.hasSave then .ret (imp, hm)
  else do
    let hms ← saveEntries toString imp.edpCache.entries
    .ret ({ imp with hasSave := true }, hm ++ hms)

end Save

section Load

-- `make_address`; `none` where it throws
variable (makeAddress : List Char → Option Address)

/-- One entry; the port is made an `unsigned short`. -/
def loadEntry (i : HostMapping) : Outcome (HostEdp × List Endpoint) :=
  match stoi i.port with
  | none => .throws
  | some port => do
    let v ← endpoints makeAddress (port % 65536).toNat i.ips
    .ret (toLex (i.host, i.port), v)

def loadEntries (cache : OrderedMap HostEdp (List Endpoint)) :
    List HostMapping → Outcome (OrderedMap HostEdp (List Endpoint))
  | [] => .ret cache
  | i :: is => do
    let (k, v) ← loadEntry makeAddress i
    loadEntries (cache.insert k v) is

def loadHm (imp : SlowDnsImp) (hm : List HostMapping) : Outcome SlowDnsImp :=
  if imp.dnsPath = [] then .ret imp
  else if imp.hasInit then .ret imp
  else do
    let cache ← loadEntries makeAddress imp.edpCache hm
    .ret { imp with edpCache := cache, hasInit := true }

end Load

/-! ## One entry -/

/-- The key has a port in decimal, and the endpoints this port. -/
def CarriesPort (i : HostEdp × List Endpoint) : Prop :=
  ∃ port < 65536, i.1.2 = Nat.toDigits 10 port ∧ ∀ edp ∈ i.2, edp.port = port

section Entry

variable {toString : Address → List Char} {makeAddress : List Char → Option Address}

/-- A port is read back. -/
theorem stoi_toDigits {port : Nat} (h : port < 65536) :
    stoi (Nat.toDigits 10 port) = some (port : Int) := by
  have hne : Nat.toDigits 10 port ≠ [] := Nat.toDigits_ne_nil
  obtain ⟨c, cs, hcs⟩ := List.exists_cons_of_ne_nil hne
  have hdigits : ∀ d ∈ Nat.toDigits 10 port, isDigit d = true := fun d hd => isDigit_toDigits hd
  have hval := stoul_toDigits port
  rw [hcs] at hval hdigits ⊢
  have hc := hdigits c List.mem_cons_self
  have hspace : isSpace c = false := by
    simp only [isDigit, decide_eq_true_eq, Char.le_def, UInt32.le_iff_toNat_le] at hc
    have h0 : ('0' : Char).val.toNat = 48 := rfl
    have hr : ('\r' : Char).val.toNat = 13 := rfl
    have hne : c ≠ ' ' := by
      rintro rfl
      exact absurd hc.1 (by decide)
    simp only [isSpace, hne, decide_false, Bool.false_or, Bool.and_eq_false_iff,
      decide_eq_false_iff_not, Char.le_def, UInt32.le_iff_toNat_le]
    omega
  have hminus : c ≠ '-' := ne_of_class hc (by decide)
  have hplus : c ≠ '+' := ne_of_class hc (by decide)
  have htake : (c :: cs).takeWhile isDigit = c :: cs := List.takeWhile_eq_self_iff.mpr hdigits
  unfold stoi
  simp only [List.dropWhile_cons, hspace, List.head?_cons, Option.some.injEq, hminus, hplus,
    Bool.false_eq_true, if_false, or_self, htake, hval]
  rw [if_neg]
  rintro (h' | h' | h')
  · cases h'
  · omega
  · omega

/-- What is made of a list of addresses. -/
theorem endpoints_toString {port : Nat} {v : List Endpoint}
    (hinv : ∀ edp ∈ v, makeAddress (toString edp.address) = some edp.address)
    (hv : ∀ edp ∈ v, edp.port = port) :
    endpoints makeAddress port (v.map fun edp => toString edp.address) = .ret v := by
  rw [endpoints_eq_ret_iff, List.map_map]
  exact ⟨List.map_congr_left hinv, hv⟩

/-- The mapping that is saved for an entry with an endpoint. -/
def savedEntry (toString : Address → List Char) (i : HostEdp × List Endpoint) : HostMapping :=
  ⟨i.1.1, i.1.2, "127.0.0.1".toList :: i.2.map fun edp => toString edp.address⟩

theorem saveEntry_eq {i : HostEdp × List Endpoint} (hi : CarriesPort i) :
    saveEntry toString i = if i.2 = [] then .undefined else .ret (savedEntry toString i) := by
  obtain ⟨k, v⟩ := i
  obtain ⟨port, -, hkey, hall⟩ := hi
  cases v with
  | nil => rfl
  | cons edp v =>
    have hport : Nat.toDigits 10 edp.port = k.2 := by
      rw [hall edp List.mem_cons_self]
      exact hkey.symm
    rw [if_neg (List.cons_ne_nil _ _)]
    show Outcome.ret (HostMapping.mk k.1 (Nat.toDigits 10 edp.port) _) = _
    rw [hport]
    rfl

/-- The entry as it is loaded: an endpoint with `address` in front of the others. -/
def prepended (address : Address) (i : HostEdp × List Endpoint) : HostEdp × List Endpoint :=
  (i.1, (i.2.head?.map fun edp => Endpoint.mk address edp.port).toList ++ i.2)

theorem prepended_ne (address : Address) {i : HostEdp × List Endpoint} (h : i.2 ≠ []) :
    prepended address i ≠ i := by
  intro heq
  obtain ⟨edp, v, hv⟩ := List.exists_cons_of_ne_nil h
  have hlen := congrArg (fun e => e.2.length) heq
  rw [prepended, hv] at hlen
  simp at hlen

theorem loadEntry_saved {i : HostEdp × List Endpoint}
    (hinv : ∀ edp ∈ i.2, makeAddress (toString edp.address) = some edp.address)
    (hi : CarriesPort i) (hne : i.2 ≠ []) :
    loadEntry makeAddress (savedEntry toString i) =
      match makeAddress "127.0.0.1".toList with
      | none => .throws
      | some address => .ret (prepended address i) := by
  obtain ⟨port, hlt, hkey, hall⟩ := hi
  have hstoi : stoi (savedEntry toString i).port = some (port : Int) := by
    show stoi i.1.2 = _
    rw [hkey, stoi_toDigits hlt]
  have hport : ((port : Int) % 65536).toNat = port := by omega
  rw [loadEntry, hstoi]
  simp only
  rw [hport]
  show (endpoints makeAddress port ("127.0.0.1".toList ::
    i.2.map fun edp => toString edp.address) >>= fun v => .ret (i.1, v)) = _
  rw [endpoints]
  cases makeAddress "127.0.0.1".toList with
  | none => rfl
  | some address =>
    obtain ⟨edp, v, hv⟩ := List.exists_cons_of_ne_nil hne
    have hfirst := hall edp (hv ▸ List.mem_cons_self)
    simp only
    rw [endpoints_toString hinv hall, Outcome.ret_bind, Outcome.ret_bind, prepended, hv, ← hfirst]
    rfl

end Entry

/-! ## The whole cache -/

section Cache

variable {toString : Address → List Char} {makeAddress : List Char → Option Address}
  {es : List (HostEdp × List Endpoint)}

/-- **What is saved**: a mapping for each entry, when no list is empty. -/
theorem saveEntries_eq (h : ∀ i ∈ es, CarriesPort i) :
    saveEntries toString es =
      if ∃ i ∈ es, i.2 = [] then .undefined else .ret (es.map (savedEntry toString)) := by
  induction es with
  | nil => rfl
  | cons i es ih =>
    rw [saveEntries, saveEntry_eq (h i List.mem_cons_self)]
    by_cases hi : i.2 = []
    · rw [if_pos hi, if_pos ⟨i, List.mem_cons_self, hi⟩]
      rfl
    · rw [if_neg hi, Outcome.ret_bind, ih fun j hj => h j (List.mem_cons_of_mem _ hj)]
      by_cases hes : ∃ j ∈ es, j.2 = []
      · obtain ⟨j, hj, hnil⟩ := hes
        rw [if_pos ⟨j, hj, hnil⟩, if_pos ⟨j, List.mem_cons_of_mem _ hj, hnil⟩]
        rfl
      · rw [if_neg hes, if_neg]
        · rfl
        · rintro ⟨j, hj, hnil⟩
          rcases List.mem_cons.mp hj with rfl | hj
          · exact hi hnil
          · exact hes ⟨j, hj, hnil⟩

/-- **What is loaded**, behind what the cache has: the entries with one endpoint more. -/
theorem loadEntries_saved
    (hinv : ∀ i ∈ es, ∀ edp ∈ i.2, makeAddress (toString edp.address) = some edp.address)
    {address : Address} (hloop : makeAddress "127.0.0.1".toList = some address)
    (h : ∀ i ∈ es, CarriesPort i)
    (hne : ∀ i ∈ es, i.2 ≠ []) (hsorted : es.Pairwise fun a b => a.1 < b.1)
    (cache : OrderedMap HostEdp (List Endpoint))
    (hbelow : ∀ a ∈ cache.entries, ∀ b ∈ es, a.1 < b.1) :
    ∃ cache', loadEntries makeAddress cache (es.map (savedEntry toString)) = .ret cache' ∧
      cache'.entries = cache.entries ++ es.map (prepended address) := by
  induction es generalizing cache with
  | nil => exact ⟨cache, rfl, (List.append_nil _).symm⟩
  | cons i es ih =>
    obtain ⟨hfirst, hrest⟩ := List.pairwise_cons.mp hsorted
    have hload : loadEntry makeAddress (savedEntry toString i) = .ret (prepended address i) := by
      rw [loadEntry_saved (hinv i List.mem_cons_self) (h i List.mem_cons_self)
        (hne i List.mem_cons_self), hloop]
    have hlast := cache.insert_last (prepended address i).2
      fun e he => hbelow e he i List.mem_cons_self
    obtain ⟨cache', hcache', hentries⟩ := ih (fun j hj => hinv j (List.mem_cons_of_mem _ hj))
      (fun j hj => h j (List.mem_cons_of_mem _ hj))
      (fun j hj => hne j (List.mem_cons_of_mem _ hj)) hrest
      (cache.insert i.1 (prepended address i).2) (by
        intro a ha b hb
        rw [hlast] at ha
        rcases List.mem_append.mp ha with ha | ha
        · exact hbelow a ha b (List.mem_cons_of_mem _ hb)
        · rw [List.mem_singleton.mp ha]
          exact hfirst b hb)
    refine ⟨cache', ?_, ?_⟩
    · rw [List.map_cons, loadEntries, hload, Outcome.ret_bind]
      exact hcache'
    · rw [hentries, hlast, List.append_assoc, List.map_cons]
      rfl

/-- Where 127.0.0.1 is no address, nothing is loaded. -/
theorem loadEntries_throws
    (hinv : ∀ i ∈ es, ∀ edp ∈ i.2, makeAddress (toString edp.address) = some edp.address)
    (hloop : makeAddress "127.0.0.1".toList = none) (h : ∀ i ∈ es, CarriesPort i)
    (hne : ∀ i ∈ es, i.2 ≠ []) (hes : es ≠ []) (cache : OrderedMap HostEdp (List Endpoint)) :
    loadEntries makeAddress cache (es.map (savedEntry toString)) = .throws := by
  obtain ⟨i, es', rfl⟩ := List.exists_cons_of_ne_nil hes
  rw [List.map_cons, loadEntries, loadEntry_saved (hinv i List.mem_cons_self)
    (h i List.mem_cons_self) (hne i List.mem_cons_self), hloop]
  rfl

end Cache

/-! ## Saving and loading -/

/-- `slow_dns_imp` before anything is loaded. -/
def SlowDnsImp.fresh (dnsPath : List Char) : SlowDnsImp where
  dnsPath := dnsPath
  edpCache := .empty

/-- What is saved into an empty vector is loaded again as the same cache. -/
def LoadsBack (toString : Address → List Char) (makeAddress : List Char → Option Address)
    (imp : SlowDnsImp) (dnsPath : List Char) : Prop :=
  ∃ imp' hm loaded, saveHm toString imp [] = .ret (imp', hm) ∧
    loadHm makeAddress (.fresh dnsPath) hm = .ret loaded ∧ loaded.edpCache = imp.edpCache

section Law

variable {toString : Address → List Char} {makeAddress : List Char → Option Address}
  {imp : SlowDnsImp} {dnsPath : List Char}

theorem saveHm_eq (toString : Address → List Char) (hpath : imp.dnsPath ≠ [])
    (hsave : imp.hasSave = false)
    (h : ∀ i ∈ imp.edpCache.entries, CarriesPort i) :
    saveHm toString imp [] =
      if ∃ i ∈ imp.edpCache.entries, i.2 = [] then .undefined
      else .ret ({ imp with hasSave := true },
        imp.edpCache.entries.map (savedEntry toString)) := by
  rw [saveHm, if_neg hpath, if_neg (by rw [hsave]; exact Bool.false_ne_true), saveEntries_eq h]
  by_cases hnil : ∃ i ∈ imp.edpCache.entries, i.2 = []
  · rw [if_pos hnil, if_pos hnil]
    rfl
  · rw [if_neg hnil, if_neg hnil]
    rfl

theorem loadHm_fresh (hpath : dnsPath ≠ []) (hm : List HostMapping) :
    loadHm makeAddress (.fresh dnsPath) hm = (loadEntries makeAddress .empty hm >>= fun cache =>
      .ret { SlowDnsImp.fresh dnsPath with edpCache := cache, hasInit := true }) := by
  rw [loadHm, if_neg (show ¬ (SlowDnsImp.fresh dnsPath).dnsPath = [] from hpath)]
  rfl

/-- **What is loaded of what was saved**, where no list is empty: one endpoint more in each. -/
theorem load_saved (hpath : imp.dnsPath ≠ []) (hpath' : dnsPath ≠ [])
    (hsave : imp.hasSave = false) (h : ∀ i ∈ imp.edpCache.entries, CarriesPort i)
    (hne : ∀ i ∈ imp.edpCache.entries, i.2 ≠ [])
    (hinv : ∀ i ∈ imp.edpCache.entries, ∀ edp ∈ i.2,
      makeAddress (toString edp.address) = some edp.address)
    {address : Address} (hloop : makeAddress "127.0.0.1".toList = some address) :
    ∃ imp' hm loaded, saveHm toString imp [] = .ret (imp', hm) ∧
      loadHm makeAddress (.fresh dnsPath) hm = .ret loaded ∧
      loaded.edpCache.entries = imp.edpCache.entries.map (prepended address) := by
  have hsaved := saveHm_eq toString hpath hsave h
  rw [if_neg] at hsaved
  · obtain ⟨cache, hcache, hentries⟩ := loadEntries_saved hinv hloop h hne imp.edpCache.sorted
      .empty (fun a ha => absurd ha List.not_mem_nil)
    have hload : loadHm makeAddress (.fresh dnsPath)
        (imp.edpCache.entries.map (savedEntry toString)) =
          .ret { SlowDnsImp.fresh dnsPath with edpCache := cache, hasInit := true } := by
      rw [loadHm_fresh hpath', hcache, Outcome.ret_bind]
    exact ⟨_, _, _, hsaved, hload, hentries⟩
  · rintro ⟨i, hi, hnil⟩
    exact hne i hi hnil

/-- A cache with an entry is not loaded back. -/
theorem entries_eq_nil (hpath : imp.dnsPath ≠ []) (hpath' : dnsPath ≠ [])
    (hsave : imp.hasSave = false) (h : ∀ i ∈ imp.edpCache.entries, CarriesPort i)
    (hinv : ∀ i ∈ imp.edpCache.entries, ∀ edp ∈ i.2,
      makeAddress (toString edp.address) = some edp.address)
    (hback : LoadsBack toString makeAddress imp dnsPath) : imp.edpCache.entries = [] := by
  obtain ⟨imp', hm, loaded, hsaved, hload, hsame⟩ := hback
  have hall := saveHm_eq toString hpath hsave h
  rw [hsaved] at hall
  split_ifs at hall with hnil
  · have hne : ∀ i ∈ imp.edpCache.entries, i.2 ≠ [] := fun i hi h => hnil ⟨i, hi, h⟩
    cases hloop : makeAddress "127.0.0.1".toList with
    | none =>
      by_contra hes
      have hthrows := loadEntries_throws hinv hloop h hne hes .empty
      rw [(Prod.mk.inj (Outcome.ret.inj hall)).2, loadHm_fresh hpath', hthrows] at hload
      cases hload
    | some address =>
      obtain ⟨imp'', hm', loaded', hsaved', hload', hentries⟩ :=
        load_saved hpath hpath' hsave h hne hinv hloop
      rw [hsaved, Outcome.ret.injEq, Prod.mk.injEq] at hsaved'
      rw [← hsaved'.2, hload, Outcome.ret.injEq] at hload'
      rw [← hload', hsame] at hentries
      cases hes : imp.edpCache.entries with
      | nil => rfl
      | cons i es =>
        rw [hes, List.map_cons] at hentries
        have hi : i ∈ imp.edpCache.entries := by
          rw [hes]
          exact List.mem_cons_self
        exact absurd (List.cons.inj hentries).1.symm (prepended_ne address (hne i hi))

end Law

/-- **What is saved loads back unchanged only when it is nothing.** -/
theorem loadsBack_iff (toString : Address → List Char)
    (makeAddress : List Char → Option Address) (imp : SlowDnsImp) (dnsPath : List Char)
    (hpath : imp.dnsPath ≠ []) (hpath' : dnsPath ≠ []) (hsave : imp.hasSave = false)
    (h : ∀ i ∈ imp.edpCache.entries, CarriesPort i)
    (hinv : ∀ i ∈ imp.edpCache.entries, ∀ edp ∈ i.2,
      makeAddress (toString edp.address) = some edp.address) :
    LoadsBack toString makeAddress imp dnsPath ↔ imp.edpCache.entries = [] := by
  constructor
  · exact entries_eq_nil hpath hpath' hsave h hinv
  · intro hnil
    have hsaved := saveHm_eq toString hpath hsave h
    rw [hnil] at hsaved
    refine ⟨_, _, { SlowDnsImp.fresh dnsPath with hasInit := true }, hsaved, ?_, ?_⟩
    · rw [loadHm_fresh hpath']
      rfl
    · exact OrderedMap.ext hnil.symm

/-- `to_string` on dotted quads. -/
def writeV4 : Address → List Char
  | .v4 a b c d => dotted [Char.ofNat a, Char.ofNat b, Char.ofNat c, Char.ofNat d]
  | .v6 _ _ => []

/-- A cache with one list, for port 80. -/
def oneList (v : List Endpoint) : SlowDnsImp where
  dnsPath := "dns".toList
  edpCache := ⟨[(toLex ("github.com".toList, "80".toList), v)], List.pairwise_singleton _ _⟩

theorem oneList_carries : ∀ i ∈ (oneList [⟨.v4 10 0 0 1, 80⟩]).edpCache.entries,
    CarriesPort i ∧ i.2 ≠ [] ∧
      ∀ edp ∈ i.2, readV4 (writeV4 edp.address) = some edp.address := by
  intro i hi
  rw [List.mem_singleton.mp hi]
  exact ⟨⟨80, by decide, by decide, by decide⟩, List.cons_ne_nil _ _, by decide +kernel⟩

/-- One endpoint is not loaded back as one. -/
theorem loadsBack_iff_one : ¬ LoadsBack writeV4 readV4 (oneList [⟨.v4 10 0 0 1, 80⟩])
    "dns".toList := by
  rw [loadsBack_iff writeV4 readV4 (oneList [⟨.v4 10 0 0 1, 80⟩]) "dns".toList (by decide)
    (by decide) rfl (fun i hi => (oneList_carries i hi).1)
    fun i hi => (oneList_carries i hi).2.2]
  exact List.cons_ne_nil _ _

/-- It is loaded behind 127.0.0.1, and of an empty list the first endpoint is taken. -/
theorem loads_with_loopback :
    (∃ imp' hm loaded, saveHm writeV4 (oneList [⟨.v4 10 0 0 1, 80⟩]) [] = .ret (imp', hm) ∧
      loadHm readV4 (.fresh "dns".toList) hm = .ret loaded ∧
      loaded.edpCache.entries = [(toLex ("github.com".toList, "80".toList),
        [⟨.v4 127 0 0 1, 80⟩, ⟨.v4 10 0 0 1, 80⟩])]) ∧
      ¬ LoadsBack writeV4 readV4 (oneList [⟨.v4 10 0 0 1, 80⟩]) "dns".toList ∧
      saveHm writeV4 (oneList []) [] = .undefined := by
  have hpath : "dns".toList ≠ [] := by decide
  have hload := @load_saved writeV4 readV4 (oneList [⟨.v4 10 0 0 1, 80⟩]) "dns".toList hpath hpath
    rfl (fun i hi => (oneList_carries i hi).1) (fun i hi => (oneList_carries i hi).2.1)
    (fun i hi => (oneList_carries i hi).2.2)
    _ (show readV4 "127.0.0.1".toList = some (.v4 127 0 0 1) by decide +kernel)
  refine ⟨hload, ?_, rfl⟩
  intro hback
  exact List.cons_ne_nil _ _ (entries_eq_nil hpath hpath rfl
    (fun i hi => (oneList_carries i hi).1) (fun i hi => (oneList_carries i hi).2.2) hback)

end Hcpp.Dns
