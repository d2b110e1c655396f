import Hcpp.Dns.DohResolve

/-!
# Addresses behind CNAME records

`FollowsCnames`: `resolve` returns the addresses of the canonical names, and each
once.  The set of names that `parse_rfc8484` accepts A records for is that of the
question alone, and the target of a CNAME record goes into the answers in wire
form, which `make_address` takes for no IPv4 address.  So the exact condition
(`Clean`) is that the record loop comes past no CNAME record, does nothing
undefined, and finds the wanted addresses under the queried name.
-/

namespace Hcpp.Dns

open DomainName

/-- The address in the data of an A record. -/
def addressV4 : List Char → Option Address
  | [a, b, c, d] => some (.v4 (Fin.ofNat 256 a.toNat) (Fin.ofNat 256 b.toNat)
      (Fin.ofNat 256 c.toNat) (Fin.ofNat 256 d.toNat))
  | _ => none

/-- What the code relies on of `make_address`: dotted quads are the addresses they
spell, and a text that it takes for an IPv4 address, as a C string, is made of at most
15 digits and dots. -/
structure MakesAddresses (makeAddress : List Char → Option Address) : Prop where
  dotted : ∀ s a, addressV4 s = some a → makeAddress (dotted s) = some a
  digits : ∀ s a b c d, makeAddress s = some (.v4 a b c d) →
    s.takeWhile (· ≠ nul) ≠ [] ∧ (s.takeWhile (· ≠ nul)).length ≤ 15 ∧
      ∀ x ∈ s.takeWhile (· ≠ nul), x = '.' ∨ isDigit x = true

/-- An address that an answer section has for the canonical name. -/
def WantedAddress (replies : List Reply) (a : Address) : Prop :=
  ∃ rp ∈ replies, ∃ rdata, rp.msg.Wanted rp.canonical rdata ∧ addressV4 rdata = some a

/-- An address of an A record that the loop comes past and reads as the queried name's. -/
def FoundAddress (name : List Char) (replies : List Reply) (a : Address) : Prop :=
  ∃ rp ∈ replies, rp.looked name = true ∧ ∃ p ∈ rp.passed,
    ownedBy rp.msg.bytes rp.fqdn typeA p = true ∧ addressV4 p.2.rdata = some a

/-- `resolve` returns the wanted addresses, each once, with the port of the service. -/
def FollowsCnames (makeAddress : List Char → Option Address) (o : IpOrder) (svcRes : List Nat)
    (name : List Char) (replies : List Reply) : Prop :=
  ∃ el, resolve makeAddress o svcRes name (replies.map Reply.provider) = .ret el ∧ el.Nodup ∧
    ∀ e, e ∈ el ↔ WantedAddress replies e.address ∧ svcRes.head? = some e.port

/-- No reply brings the loop to a CNAME record or to anything undefined, and the A
records it comes past under the queried name are those wanted. -/
structure Clean (name : List Char) (replies : List Reply) : Prop where
  finds : ∀ rp ∈ replies, rp.fetched name = true → rp.Finds
  defined : ∀ rp ∈ replies, rp.looked name = true → rp.Defined
  noCname : ∀ rp ∈ replies, rp.looked name = true → ∀ p ∈ rp.passed, p.2.type.val ≠ typeCNAME
  found : ∀ a, WantedAddress replies a → FoundAddress name replies a
  wanted : ∀ a, FoundAddress name replies a → WantedAddress replies a

/-! ## The texts of the answers -/

theorem toNat_isDigit {c : Char} (h : isDigit c = true) : 48 ≤ c.toNat ∧ c.toNat ≤ 57 :=
  of_decide_eq_true h

/-- The wire form of a name is not the text of an IPv4 address: a length that is a digit
or a dot has too many bytes behind it. -/
theorem makeAddress_encoded {makeAddress : List Char → Option Address}
    (hm : MakesAddresses makeAddress) {t w : List Char} (h : Encoded t w) (a b c d : Fin 256) :
    makeAddress w ≠ some (.v4 a b c d) := by
  intro haddr
  obtain ⟨hne, hle, hall⟩ := hm.digits w a b c d haddr
  have hpiece : ∀ p u, Plain p → p.length ≤ 254 → w = Char.ofNat p.length :: (p ++ u) → False := by
    rintro p u hp hlen rfl
    by_cases h0 : p = []
    · subst h0
      exact hne rfl
    · have hpos := List.length_pos_of_ne_nil h0
      have htoNat := toNat_byte p.length (by omega)
      have hc : Char.ofNat p.length ≠ nul := by
        intro hc
        rw [hc, toNat_nul] at htoNat
        omega
      have hplain : ∀ x ∈ p, decide (x ≠ nul) = true := by
        intro x hx
        simp only [ne_eq, decide_eq_true_eq]
        rintro rfl
        exact hp.2 hx
      rw [List.takeWhile_cons_of_pos (by simpa using hc),
        List.takeWhile_append_of_pos hplain] at hle hall
      rw [List.length_cons, List.length_append] at hle
      rcases hall _ List.mem_cons_self with hdot | hdigit
      · rw [hdot] at htoNat
        have h46 : '.'.toNat = 46 := rfl
        omega
      · have hdigit := toNat_isDigit hdigit
        omega
  cases h with
  | stop h => exact hne rfl
  | last hp hp0 hlen h => exact hpiece _ _ hp hlen rfl
  | more hp hlen h => exact hpiece _ _ hp hlen rfl

/-- Data of the same address has the same text. -/
theorem dotted_congr {r s : List Char} {a : Address} (hr : addressV4 r = some a)
    (hs : addressV4 s = some a) : dotted r = dotted s := by
  match r, s, hr, hs with
  | [r1, r2, r3, r4], [s1, s2, s3, s4], hr, hs =>
    have heq := hr.trans hs.symm
    simp only [addressV4, Option.some.injEq, Address.v4.injEq, Fin.ext_iff, Fin.val_ofNat] at heq
    obtain ⟨h1, h2, h3, h4⟩ := heq
    simp only [dotted, List.flatMap_cons, List.flatMap_nil, h1, h2, h3, h4]

/-- The data of a wanted A record is an address. -/
theorem exists_address {r : List Char} (h : r.length = 4) :
    ∃ a b c d, addressV4 r = some (.v4 a b c d) := by
  match r, h with
  | [a, b, c, d], _ => exact ⟨_, _, _, _, rfl⟩

theorem isV4_of_address {r : List Char} {x : Address} (h : addressV4 r = some x) :
    ∃ a b c d, x = .v4 a b c d := by
  match r, h with
  | [a, b, c, d], h => exact ⟨_, _, _, _, (Option.some.inj h).symm⟩

section Texts

variable {msg fqdn : List Char} {p : Nat × Record}

theorem answerOf_address (h : ownedBy msg fqdn typeA p = true) :
    ∃ ans, answerOf msg fqdn p = some ans ∧ ans.rdata = dotted p.2.rdata :=
  ⟨_, answerOf_owned h, rfl⟩

theorem answerOf_other {ans : AnswerT} (h : answerOf msg fqdn p = some ans)
    (hne : p.2.type.val ≠ typeCNAME) :
    ownedBy msg fqdn typeA p = true ∧ ans.rdata = dotted p.2.rdata := by
  by_cases hown : ownedBy msg fqdn typeA p = true
  · obtain ⟨ans', hans, hdata⟩ := answerOf_address hown
    rw [h] at hans
    obtain rfl := Option.some.inj hans
    exact ⟨hown, hdata⟩
  · rw [answerOf_eq_none (Bool.eq_false_iff.mpr hown) hne] at h
    cases h

/-- The answer of a CNAME record that the loop comes past: its target in wire form. -/
theorem answerOf_cname (fqdn : List Char) (hp : p.2.bytes <+: msg.drop p.1)
    (hpass : passes msg p = true) (htype : p.2.type.val = typeCNAME) :
    ∃ ans t, answerOf msg fqdn p = some ans ∧ Encoded t ans.rdata := by
  have hfits := (fields_stand hp).fits
  simp only [passes, htype, Bool.and_eq_true, Bool.or_eq_true, decide_eq_true_eq, ne_eq,
    not_true_eq_false, false_or] at hpass
  obtain ⟨cname, ht⟩ := Option.isSome_iff_exists.mp hpass.2
  obtain ⟨v, n, hpos, hq, -, rfl, hlen⟩ := nameRead_eq_some (by omega) ht
  obtain ⟨w, hw, -, hret⟩ := host2qname_text hlen
  have hno : ownedBy msg fqdn typeA p = false := by
    rw [Bool.eq_false_iff]
    intro h
    simp only [ownedBy, htype, Bool.and_eq_true, decide_eq_true_eq] at h
    cases h.1
  exact ⟨_, text n, answerOf_alias hno htype ht hret, hw⟩

end Texts

/-- A placed record stands in the message. -/
theorem prefix_of_placed {msg : List Char} {rs : List Record} {o : Nat} {p : Nat × Record}
    (h : msg.drop o = rs.flatMap Record.bytes) (hp : p ∈ placed o rs) :
    p.2.bytes <+: msg.drop p.1 := by
  induction rs generalizing o with
  | nil => cases hp
  | cons r rs ih =>
    rw [placed] at hp
    rcases List.mem_cons.mp hp with rfl | hp
    · show r.bytes <+: msg.drop o
      rw [h]
      exact List.prefix_append _ _
    · refine ih ?_ hp
      rw [← List.drop_drop, h, List.flatMap_cons, List.drop_left]

/-! ## The list that is returned -/

section Resolve

variable {name : List Char} {replies : List Reply}

/-- The texts that are inserted, reply after reply. -/
def texts (name : List Char) (replies : List Reply) : List (List Char) :=
  replies.flatMap fun rp => (rp.answers name).map AnswerT.rdata

theorem mem_texts_iff {i : List Char} :
    i ∈ texts name replies ↔ ∃ rp ∈ replies, rp.looked name = true ∧ ∃ p ∈ rp.passed,
      ∃ ans, answerOf rp.msg.bytes rp.fqdn p = some ans ∧ ans.rdata = i := by
  unfold texts
  rw [List.mem_flatMap]
  constructor
  · rintro ⟨rp, hrp, hi⟩
    obtain ⟨ans, hans, rfl⟩ := List.mem_map.mp hi
    unfold Reply.answers at hans
    cases hl : rp.looked name with
    | false =>
      rw [hl, if_neg Bool.false_ne_true] at hans
      cases hans
    | true =>
      rw [hl, if_pos rfl] at hans
      obtain ⟨p, hp, hans⟩ := List.mem_filterMap.mp hans
      exact ⟨rp, hrp, hl, p, hp, ans, hans, rfl⟩
  · rintro ⟨rp, hrp, hl, p, hp, ans, hans, rfl⟩
    refine ⟨rp, hrp, List.mem_map.mpr ⟨ans, ?_, rfl⟩⟩
    rw [Reply.answers, if_pos hl]
    exact List.mem_filterMap.mpr ⟨p, hp, hans⟩

/-- A record that the loop comes past stands in the message. -/
theorem Reply.prefix_of_passed {rp : Reply} {p : Nat × Record} (hp : p ∈ rp.passed) :
    passes rp.msg.bytes p = true ∧ p.2.bytes <+: rp.msg.bytes.drop p.1 :=
  ⟨List.mem_takeWhile_imp hp,
    prefix_of_placed (drop_start rp.msg) ((List.takeWhile_prefix _).subset hp)⟩

theorem address_of_passed {rp : Reply} (hw : rp.WellFormed name) {p : Nat × Record}
    (hp : p ∈ rp.passed) (hown : ownedBy rp.msg.bytes rp.fqdn typeA p = true) :
    ∃ a, addressV4 p.2.rdata = some a := by
  have hpass := (Reply.prefix_of_passed hp).1
  simp only [passes, ownedBy, Bool.and_eq_true, decide_eq_true_eq] at hpass hown
  have h4 := hw.msg.lengthA p ((List.takeWhile_prefix _).subset hp) ⟨hown.1, hpass.1.1.2⟩
  obtain ⟨a, b, c, d, ha⟩ := exists_address h4
  exact ⟨_, ha⟩

/-- `resolve`, when no reply spoils it: the texts, in some order and each once, and the
addresses made of them. -/
theorem resolve_eq_ret_iff {makeAddress : List Char → Option Address} {o : IpOrder} {svc : Nat}
    {svcs : List Nat} {el : List Endpoint} (hw : ∀ rp ∈ replies, rp.WellFormed name) :
    resolve makeAddress o (svc :: svcs) name (replies.map Reply.provider) = .ret el ↔
      (∀ rp ∈ replies, (rp.fetched name = true → rp.Finds) ∧
        (rp.looked name = true → rp.Defined)) ∧
      (o.order ((texts name replies).foldl insertIp [])).map makeAddress =
        el.map (fun e => some e.address) ∧ ∀ e ∈ el, e.port = svc := by
  rw [resolve, Outcome.bind_eq_ret]
  constructor
  · rintro ⟨ips, hips, hel⟩
    obtain ⟨h1, rfl⟩ := (gather_eq_ret_iff hw).mp hips
    exact ⟨h1, endpoints_eq_ret_iff.mp hel⟩
  · rintro ⟨h1, hel⟩
    exact ⟨_, (gather_eq_ret_iff hw).mpr ⟨h1, rfl⟩, endpoints_eq_ret_iff.mpr hel⟩

theorem mem_order_iff (o : IpOrder) {ts : List (List Char)} {i : List Char} :
    i ∈ o.order (ts.foldl insertIp []) ↔ i ∈ ts := by
  rw [(o.perm _).mem_iff, mem_foldl_insertIp]
  simp

theorem nodup_order (o : IpOrder) (ts : List (List Char)) :
    (o.order (ts.foldl insertIp [])).Nodup :=
  (o.perm _).nodup_iff.mpr (nodup_foldl_insertIp List.nodup_nil)

/-- A wanted address is an IPv4 address. -/
theorem WantedAddress.isV4 {a : Address} (h : WantedAddress replies a) :
    ∃ w x y z, a = .v4 w x y z := by
  obtain ⟨rp, -, rdata, -, ha⟩ := h
  exact isV4_of_address ha

section Makes

variable {makeAddress : List Char → Option Address} {o : IpOrder} {svc : Nat} {svcs : List Nat}

/-- What a list with the wanted addresses says about the replies. -/
theorem clean_of_follows (hm : MakesAddresses makeAddress)
    (hw : ∀ rp ∈ replies, rp.WellFormed name)
    (h : FollowsCnames makeAddress o (svc :: svcs) name replies) : Clean name replies := by
  obtain ⟨el, hret, hnodup, hel⟩ := h
  obtain ⟨hok, hmap, hport⟩ := (resolve_eq_ret_iff hw).mp hret
  -- every text is made an address that is wanted
  have hmade : ∀ i ∈ texts name replies, ∃ a, makeAddress i = some a ∧ WantedAddress replies a := by
    intro i hi
    have hmem : makeAddress i ∈ el.map fun e => some e.address := by
      rw [← hmap]
      exact List.mem_map_of_mem ((mem_order_iff o).mpr hi)
    obtain ⟨e, he, hea⟩ := List.mem_map.mp hmem
    exact ⟨e.address, hea.symm, ((hel e).mp he).1⟩
  have hnoCname : ∀ rp ∈ replies, rp.looked name = true → ∀ p ∈ rp.passed,
      p.2.type.val ≠ typeCNAME := by
    intro rp hrp hl p hp htype
    obtain ⟨hpass, hpre⟩ := Reply.prefix_of_passed hp
    obtain ⟨ans, t, hans, henc⟩ := answerOf_cname rp.fqdn hpre hpass htype
    obtain ⟨a, ha, hwant⟩ := hmade ans.rdata
      (mem_texts_iff.mpr ⟨rp, hrp, hl, p, hp, ans, hans, rfl⟩)
    obtain ⟨w, x, y, z, rfl⟩ := hwant.isV4
    exact makeAddress_encoded hm henc w x y z ha
  refine ⟨fun rp hrp => (hok rp hrp).1, fun rp hrp => (hok rp hrp).2, hnoCname, ?_, ?_⟩
  · intro a hwant
    have he : (⟨a, svc⟩ : Endpoint) ∈ el := (hel ⟨a, svc⟩).mpr ⟨hwant, rfl⟩
    have hmem : some a ∈ (o.order ((texts name replies).foldl insertIp [])).map makeAddress := by
      rw [hmap]
      exact List.mem_map.mpr ⟨_, he, rfl⟩
    obtain ⟨i, hi, hia⟩ := List.mem_map.mp hmem
    obtain ⟨rp, hrp, hl, p, hp, ans, hans, rfl⟩ := mem_texts_iff.mp ((mem_order_iff o).mp hi)
    obtain ⟨hown, hdata⟩ := answerOf_other hans (hnoCname rp hrp hl p hp)
    obtain ⟨b, hb⟩ := address_of_passed (hw rp hrp) hp hown
    rw [hdata, hm.dotted _ _ hb] at hia
    exact ⟨rp, hrp, hl, p, hp, hown, Option.some.inj hia ▸ hb⟩
  · rintro a ⟨rp, hrp, hl, p, hp, hown, ha⟩
    obtain ⟨ans, hans, hdata⟩ := answerOf_address hown
    obtain ⟨b, hb, hwant⟩ := hmade ans.rdata
      (mem_texts_iff.mpr ⟨rp, hrp, hl, p, hp, ans, hans, rfl⟩)
    rw [hdata, hm.dotted _ _ ha] at hb
    exact Option.some.inj hb ▸ hwant

/-- Every text is that of an address that was found, and the other way round. -/
theorem Clean.makes (hm : MakesAddresses makeAddress) (hw : ∀ rp ∈ replies, rp.WellFormed name)
    (h : Clean name replies) (i : List Char) :
    i ∈ texts name replies ↔
      ∃ rdata a, i = dotted rdata ∧ addressV4 rdata = some a ∧ makeAddress i = some a ∧
        ∃ rp ∈ replies, rp.looked name = true ∧ ∃ p ∈ rp.passed,
          ownedBy rp.msg.bytes rp.fqdn typeA p = true ∧ p.2.rdata = rdata := by
  rw [mem_texts_iff]
  constructor
  · rintro ⟨rp, hrp, hl, p, hp, ans, hans, rfl⟩
    obtain ⟨hown, hdata⟩ := answerOf_other hans (h.noCname rp hrp hl p hp)
    obtain ⟨a, ha⟩ := address_of_passed (hw rp hrp) hp hown
    refine ⟨p.2.rdata, a, hdata, ha, ?_, rp, hrp, hl, p, hp, hown, rfl⟩
    rw [hdata, hm.dotted _ _ ha]
  · rintro ⟨-, a, rfl, -, -, rp, hrp, hl, p, hp, hown, rfl⟩
    obtain ⟨ans, hans, hdata⟩ := answerOf_address hown
    exact ⟨rp, hrp, hl, p, hp, ans, hans, hdata⟩

theorem map_filterMap {α β : Type} {f : α → Option β} {l : List α}
    (h : ∀ i ∈ l, ∃ a, f i = some a) : l.map f = (l.filterMap f).map some := by
  induction l with
  | nil => rfl
  | cons i l ih =>
    obtain ⟨a, ha⟩ := h i List.mem_cons_self
    rw [List.map_cons, List.filterMap_cons_some ha, List.map_cons, ha,
      ih fun j hj => h j (List.mem_cons_of_mem _ hj)]

/-- And what the replies say about the list. -/
theorem follows_of_clean (hm : MakesAddresses makeAddress)
    (hw : ∀ rp ∈ replies, rp.WellFormed name) (h : Clean name replies) :
    FollowsCnames makeAddress o (svc :: svcs) name replies := by
  have hmakes := h.makes hm hw
  let ips := o.order ((texts name replies).foldl insertIp [])
  have hips : ∀ i, i ∈ ips ↔ i ∈ texts name replies := fun i => mem_order_iff o
  let el : List Endpoint := (ips.filterMap makeAddress).map fun a => ⟨a, svc⟩
  have hsome : ∀ i ∈ ips, ∃ a, makeAddress i = some a := by
    intro i hi
    obtain ⟨-, a, -, -, ha, -⟩ := (hmakes i).mp ((hips i).mp hi)
    exact ⟨a, ha⟩
  have hmap : ips.map makeAddress = el.map fun e => some e.address := by
    rw [map_filterMap hsome, List.map_map]
    rfl
  have hret : resolve makeAddress o (svc :: svcs) name (replies.map Reply.provider) = .ret el :=
    (resolve_eq_ret_iff hw).mpr ⟨fun rp hrp => ⟨h.finds rp hrp, h.defined rp hrp⟩, hmap, by
      intro e he
      obtain ⟨a, -, rfl⟩ := List.mem_map.mp he
      rfl⟩
  refine ⟨el, hret, ?_, ?_⟩
  · apply List.Nodup.of_map fun e : Endpoint => some e.address
    rw [← hmap]
    refine List.Nodup.map_on ?_ (nodup_order o _)
    intro i hi j hj hij
    obtain ⟨r, a, rfl, hr, ha, -⟩ := (hmakes i).mp ((hips i).mp hi)
    obtain ⟨s, b, rfl, hs, hb, -⟩ := (hmakes j).mp ((hips j).mp hj)
    rw [ha, hb] at hij
    obtain rfl := Option.some.inj hij
    exact dotted_congr hr hs
  · intro e
    constructor
    · intro he
      obtain ⟨a, ha, rfl⟩ := List.mem_map.mp he
      obtain ⟨i, hi, hia⟩ := List.mem_filterMap.mp ha
      obtain ⟨r, b, -, hr, hib, rp, hrp, hl, p, hp, hown, hdata⟩ := (hmakes i).mp ((hips i).mp hi)
      rw [hia] at hib
      obtain rfl := Option.some.inj hib
      exact ⟨h.wanted a ⟨rp, hrp, hl, p, hp, hown, hdata ▸ hr⟩, rfl⟩
    · rintro ⟨hwant, hport⟩
      obtain ⟨rp, hrp, hl, p, hp, hown, ha⟩ := h.found _ hwant
      have hmade := hm.dotted _ _ ha
      have hi := (hmakes _).mpr ⟨_, _, rfl, ha, hmade, rp, hrp, hl, p, hp, hown, rfl⟩
      obtain rfl := Option.some.inj hport
      exact List.mem_map.mpr
        ⟨e.address, List.mem_filterMap.mpr ⟨_, (hips _).mpr hi, hmade⟩, rfl⟩

end Makes

/-- **CNAME chains are followed** if and only if there are none that the record loop comes
to: every reply is `Clean`. -/
theorem followsCnames_iff {makeAddress : List Char → Option Address} {o : IpOrder}
    {svcRes : List Nat} (hm : MakesAddresses makeAddress)
    (hw : ∀ rp ∈ replies, rp.WellFormed name) :
    FollowsCnames makeAddress o svcRes name replies ↔ svcRes ≠ [] ∧ Clean name replies := by
  cases svcRes with
  | nil =>
    constructor
    · rintro ⟨el, hret, -⟩
      cases hret
    · rintro ⟨h, -⟩
      exact absurd rfl h
  | cons svc svcs =>
    constructor
    · exact fun h => ⟨List.cons_ne_nil _ _, clean_of_follows hm hw h⟩
    · exact fun h => follows_of_clean hm hw h.2

end Resolve

/-! ## Two replies -/

/-- A byte in decimal, without leading zeros. -/
def readByte (t : List Char) : Option (Fin 256) :=
  if h : stoul 10 t < 256 then
    if Nat.toDigits 10 (stoul 10 t) = t then some ⟨stoul 10 t, h⟩ else none
  else none

/-- `make_address` on dotted quads. -/
def readV4 (s : List Char) : Option Address :=
  match ((s.takeWhile (· ≠ nul)).splitOn '.').map readByte with
  | [some a, some b, some c, some d] => some (.v4 a b c d)
  | _ => none

theorem readByte_toDigits : ∀ n : Fin 256, readByte (Nat.toDigits 10 n.val) = some n := by
  decide +kernel

theorem toDigits_byte : ∀ n : Fin 256, (Nat.toDigits 10 n.val).length ≤ 3 ∧
    Nat.toDigits 10 n.val ≠ [] ∧ ∀ c ∈ Nat.toDigits 10 n.val, isDigit c = true := by
  decide +kernel

theorem readByte_eq_some {t : List Char} {n : Fin 256} (h : readByte t = some n) :
    t = Nat.toDigits 10 n.val := by
  unfold readByte at h
  split at h
  · split at h
    · rename_i heq
      obtain rfl := Option.some.inj h
      exact heq.symm
    · cases h
  · cases h

theorem isDigit_ne {c : Char} (h : isDigit c = true) : c ≠ '.' ∧ c ≠ nul := by
  refine ⟨?_, ?_⟩
  · rintro rfl
    revert h
    decide
  · rintro rfl
    revert h
    decide

theorem mem_dotted {s : List Char} {x : Char} (h : x ∈ dotted s) : x = '.' ∨ isDigit x = true := by
  obtain ⟨c, -, hx⟩ := List.mem_flatMap.mp (List.dropLast_subset _ h)
  rcases List.mem_append.mp hx with hx | hx
  · exact .inr ((toDigits_byte (Fin.ofNat 256 c.toNat)).2.2 x hx)
  · exact .inl (List.mem_singleton.mp hx)

theorem dotted_eq (c1 c2 c3 c4 : Char) : dotted [c1, c2, c3, c4] =
    ['.'].intercalate ([c1, c2, c3, c4].map fun c => Nat.toDigits 10 (c.toNat % 256)) := by
  have hflat : dotted [c1, c2, c3, c4] = (Nat.toDigits 10 (c1.toNat % 256) ++
      '.' :: (Nat.toDigits 10 (c2.toNat % 256) ++ '.' :: (Nat.toDigits 10 (c3.toNat % 256) ++
        '.' :: Nat.toDigits 10 (c4.toNat % 256))) ++ ['.']).dropLast := by
    simp [dotted]
  rw [hflat, List.dropLast_concat]
  simp [List.intercalate]

/-- It reads the dotted quads. -/
theorem readV4_dotted {s : List Char} {a : Address} (h : addressV4 s = some a) :
    readV4 (dotted s) = some a := by
  match s, h with
  | [c1, c2, c3, c4], h =>
    obtain rfl := Option.some.inj h
    have hval : ∀ c : Char, (Fin.ofNat 256 c.toNat).val = c.toNat % 256 := fun _ => rfl
    have hnul : ∀ x ∈ dotted [c1, c2, c3, c4], decide (x ≠ nul) = true := by
      intro x hx
      rcases mem_dotted hx with rfl | hdigit
      · decide
      · exact decide_eq_true (isDigit_ne hdigit).2
    rw [readV4, List.takeWhile_eq_self_iff.mpr hnul, dotted_eq, List.splitOn_intercalate]
    · simp only [List.map_cons, List.map_nil, ← hval, readByte_toDigits]
    · intro l hl hdot
      obtain ⟨c, -, rfl⟩ := List.mem_map.mp hl
      exact (isDigit_ne ((toDigits_byte (Fin.ofNat 256 c.toNat)).2.2 _ hdot)).1 rfl
    · exact List.cons_ne_nil _ _

/-- And nothing else. -/
theorem eq_of_readV4 {s : List Char} {a b c d : Fin 256} (h : readV4 s = some (.v4 a b c d)) :
    s.takeWhile (· ≠ nul) = Nat.toDigits 10 a.val ++ '.' :: (Nat.toDigits 10 b.val ++
      '.' :: (Nat.toDigits 10 c.val ++ '.' :: Nat.toDigits 10 d.val)) := by
  unfold readV4 at h
  generalize s.takeWhile (· ≠ nul) = t at h ⊢
  split at h
  · rename_i w x y z heq
    cases h
    obtain ⟨p1, r1, hs, h1, heq⟩ := List.map_eq_cons_iff.mp heq
    obtain ⟨p2, r2, rfl, h2, heq⟩ := List.map_eq_cons_iff.mp heq
    obtain ⟨p3, r3, rfl, h3, heq⟩ := List.map_eq_cons_iff.mp heq
    obtain ⟨p4, r4, rfl, h4, heq⟩ := List.map_eq_cons_iff.mp heq
    obtain rfl := List.map_eq_nil_iff.mp heq
    obtain rfl := readByte_eq_some h1
    obtain rfl := readByte_eq_some h2
    obtain rfl := readByte_eq_some h3
    obtain rfl := readByte_eq_some h4
    have hjoin : ['.'].intercalate (t.splitOn '.') = t := List.intercalate_splitOn '.'
    rw [hs] at hjoin
    rw [← hjoin]
    simp [List.intercalate]
  · cases h

/-- It is one that the code can rely on. -/
theorem makesAddresses_readV4 : MakesAddresses readV4 where
  dotted := fun _ _ h => readV4_dotted h
  digits := by
    intro s a b c d h
    rw [eq_of_readV4 h]
    obtain ⟨l1, n1, d1⟩ := toDigits_byte a
    obtain ⟨l2, -, d2⟩ := toDigits_byte b
    obtain ⟨l3, -, d3⟩ := toDigits_byte c
    obtain ⟨l4, -, d4⟩ := toDigits_byte d
    refine ⟨?_, ?_, ?_⟩
    · intro hnil
      exact n1 (List.append_eq_nil_iff.mp hnil).1
    · simp only [List.length_append, List.length_cons]
      omega
    · intro x hx
      simp only [List.mem_append, List.mem_cons] at hx
      rcases hx with hx | hx | hx | hx | hx | hx | hx
      · exact .inr (d1 x hx)
      · exact .inl hx
      · exact .inr (d2 x hx)
      · exact .inl hx
      · exact .inr (d3 x hx)
      · exact .inl hx
      · exact .inr (d4 x hx)

/-- The name `ab`, which the replies are about. -/
def nameAb : Name := [⟨['a', 'b'], List.cons_ne_nil _ _, Nat.le_of_ble_eq_true rfl⟩]

/-- An A record of the name at `offset`, for 1.2.3.4. -/
def recordA (offset : Fin 16384) : Record where
  owner := ⟨[], .pointer offset⟩
  type := 1
  cls := 1
  ttl := 60
  rdata := [Char.ofNat 1, Char.ofNat 2, Char.ofNat 3, Char.ofNat 4]
  length_lt := Nat.le_of_ble_eq_true rfl

/-- The query of `ab` with these answers, and `length`, the length of the message, in
the head. -/
def replyWith (length : List Char) (answers : List Record) (canonical : Name) : Reply :=
  let msg : Message := ⟨7, 129, 128, nameAb, answers, [], []⟩
  let head := "HTTP/1.1 200 OK\r\nContent-Length: ".toList ++ length ++ crlfcrlf
  { host := "1.1.1.1".toList
    now := 0
    room := none
    head := head
    body := msg.bytes
    segments := [head, msg.bytes]
    msg := msg
    canonical := canonical }

theorem replyWith_wellFormed {length : List Char} {answers : List Record} {canonical : Name}
    (hmsg : (replyWith length answers canonical).msg.WellFormed)
    (hcanonical : (replyWith length answers canonical).msg.Canonical canonical)
    (hhead : ∃ i, Search.find crlfcrlf ((replyWith length answers canonical).head ++
      (replyWith length answers canonical).body) = some i ∧
        (replyWith length answers canonical).head.length = i + 4)
    (hlen : contentLength (replyWith length answers canonical).head =
      some (replyWith length answers canonical).msg.bytes.length) :
    (replyWith length answers canonical).WellFormed "ab".toList where
  msg := hmsg
  question := by
    left
    show lcs ("ab".toList ++ ['.']) = lcs (text nameAb)
    decide
  canonical := hcanonical
  segments := by
    show [_, _].flatten = _ ++ _
    rw [List.flatten_cons, List.flatten_singleton]
    rfl
  head := hhead
  counted := by
    intro cl hcl
    rw [hlen] at hcl
    exact ⟨(Option.some.inj hcl).symm, rfl⟩

/-- One A record of the queried name. -/
def plainReply : Reply := replyWith "36".toList [recordA 12] nameAb

theorem plainReply_placed : plainReply.msg.placedRecords = [(20, recordA 12)] := rfl

theorem plainReply_decodes : Decodes plainReply.msg.bytes 20 nameAb :=
  .pointer (p := 12) (by decide) (by decide) (.label (by decide) (.root (by decide)))

theorem plainReply_msg : plainReply.msg.WellFormed where
  response := by decide
  noError := by decide
  answers_lt := by decide
  authority_lt := by decide
  additional_lt := by decide
  size := by decide
  question := by decide
  owners := by
    rw [plainReply_placed, List.forall_mem_singleton]
    exact ⟨nameAb, plainReply_decodes, by decide⟩
  lengthA := by
    rw [plainReply_placed, List.forall_mem_singleton]
    decide
  lengthAAAA := by
    rw [plainReply_placed, List.forall_mem_singleton]
    decide
  target := by
    rw [plainReply_placed, List.forall_mem_singleton]
    intro h
    exact absurd h (by decide)

theorem plainReply_canonical : plainReply.msg.Canonical nameAb where
  chain := .refl _
  last := by
    show ∀ p ∈ [(20, recordA 12)], _
    rw [List.forall_mem_singleton]
    intro h
    exact absurd h (by decide)

theorem plainReply_wellFormed : plainReply.WellFormed "ab".toList :=
  replyWith_wellFormed plainReply_msg plainReply_canonical ⟨35, by decide, by decide⟩ (by decide)

theorem plainReply_passed : plainReply.passed = [(20, recordA 12)] := by
  have hpass : passes plainReply.msg.bytes (20, recordA 12) = true := by decide
  rw [Reply.passed, plainReply_placed, walked_cons, if_pos hpass]
  rfl

theorem plainReply_clean : Clean "ab".toList [plainReply] where
  finds := by
    rw [List.forall_mem_singleton]
    intro _ r n segs hp
    have hread : Feed.pullUntil crlfcrlf [] plainReply.segments =
        some (plainReply.head, 39, [plainReply.body]) := by decide
    rw [hread] at hp
    cases hp
    exact .inl (by decide)
  defined := by
    rw [List.forall_mem_singleton]
    intro _
    refine ⟨?_, ?_⟩
    · rw [plainReply_passed, List.forall_mem_singleton]
      decide
    · rw [plainReply_placed, stopper_cons, if_pos (by decide)]
      intro p hp
      cases hp
  noCname := by
    rw [List.forall_mem_singleton, plainReply_passed, List.forall_mem_singleton]
    exact fun _ => by decide
  found := by
    rintro a ⟨rp, hrp, rdata, ⟨p, hp, -, -, rfl⟩, ha⟩
    obtain rfl := List.mem_singleton.mp hrp
    obtain rfl : p = (20, recordA 12) := List.mem_singleton.mp hp
    refine ⟨plainReply, List.mem_singleton_self _, by decide, (20, recordA 12), ?_, by decide, ha⟩
    rw [plainReply_passed]
    exact List.mem_singleton_self _
  wanted := by
    rintro a ⟨rp, hrp, -, p, hp, -, ha⟩
    obtain rfl := List.mem_singleton.mp hrp
    rw [plainReply_passed] at hp
    obtain rfl := List.mem_singleton.mp hp
    exact ⟨plainReply, List.mem_singleton_self _, _, ⟨(20, recordA 12), List.mem_singleton_self _,
      by decide, ⟨nameAb, plainReply_decodes, rfl⟩, rfl⟩, ha⟩

def sameOrder : IpOrder := ⟨id, fun ips => List.Perm.refl ips⟩

/-- Without a CNAME record the address is returned. -/
theorem followsCnames_plain :
    FollowsCnames readV4 sameOrder [443] "ab".toList [plainReply] :=
  (followsCnames_iff makesAddresses_readV4
    (by rw [List.forall_mem_singleton]; exact plainReply_wellFormed)).mpr
    ⟨List.cons_ne_nil _ _, plainReply_clean⟩

def nameCd : Name := [⟨['c', 'd'], List.cons_ne_nil _ _, Nat.le_of_ble_eq_true rfl⟩]

/-- A CNAME record of the queried name, whose target is `cd`. -/
def recordCname : Record where
  owner := ⟨[], .pointer 12⟩
  type := 5
  cls := 1
  ttl := 60
  rdata := Written.bytes ⟨nameCd, .root⟩
  length_lt := Nat.le_of_ble_eq_true rfl

/-- The queried name is an alias of `cd`, and `cd` has an A record. -/
def cnameReply : Reply := replyWith "52".toList [recordCname, recordA 32] nameCd

theorem cnameReply_resolve :
    resolve readV4 sameOrder [443] "ab".toList [cnameReply.provider] = .throws := by
  decide +kernel

theorem cnameReply_placed :
    cnameReply.msg.placedRecords = [(20, recordCname), (36, recordA 32)] := rfl

theorem cnameReply_alias : Decodes cnameReply.msg.bytes 20 nameAb :=
  .pointer (p := 12) (by decide) (by decide) (.label (by decide) (.root (by decide)))

theorem cnameReply_target : Decodes cnameReply.msg.bytes 32 nameCd :=
  .label (by decide) (.root (by decide))

theorem cnameReply_owner : Decodes cnameReply.msg.bytes 36 nameCd :=
  .pointer (p := 32) (by decide) (by decide) cnameReply_target

theorem cnameReply_msg : cnameReply.msg.WellFormed where
  response := by decide
  noError := by decide
  answers_lt := by decide
  authority_lt := by decide
  additional_lt := by decide
  size := by decide
  question := by decide
  owners := by
    rw [cnameReply_placed, List.forall_mem_cons, List.forall_mem_singleton]
    exact ⟨⟨nameAb, cnameReply_alias, by decide⟩, nameCd, cnameReply_owner, by decide⟩
  lengthA := by
    rw [cnameReply_placed, List.forall_mem_cons, List.forall_mem_singleton]
    decide
  lengthAAAA := by
    rw [cnameReply_placed, List.forall_mem_cons, List.forall_mem_singleton]
    decide
  target := by
    rw [cnameReply_placed, List.forall_mem_cons, List.forall_mem_singleton]
    exact ⟨fun _ => ⟨⟨_, rfl⟩, nameCd, cnameReply_target, by decide⟩,
      fun h => absurd h (by decide)⟩

theorem cnameReply_canonical : cnameReply.msg.Canonical nameCd where
  chain := .step (p := (20, recordCname)) List.mem_cons_self (by decide)
    ⟨nameAb, cnameReply_alias, rfl⟩ cnameReply_target (.refl _)
  last := by
    show ∀ p ∈ [(20, recordCname), (36, recordA 32)], _
    rw [List.forall_mem_cons, List.forall_mem_singleton]
    refine ⟨?_, fun h => absurd h (by decide)⟩
    rintro - ⟨k, hk, hsame⟩
    rw [← cnameReply_alias.unique hk] at hsame
    revert hsame
    unfold SameName
    decide

theorem cnameReply_wellFormed : cnameReply.WellFormed "ab".toList :=
  replyWith_wellFormed cnameReply_msg cnameReply_canonical ⟨35, by decide, by decide⟩ (by decide)

/-- **A reply with a CNAME record makes `resolve` throw.** -/
theorem cname_not_followed :
    ¬ ∀ (makeAddress : List Char → Option Address) (o : IpOrder) (svc : Nat) (name : List Char)
      (replies : List Reply), MakesAddresses makeAddress →
        (∀ rp ∈ replies, rp.WellFormed name) → FollowsCnames makeAddress o [svc] name replies := by
  intro hall
  obtain ⟨el, hret, -⟩ := hall readV4 sameOrder 443 "ab".toList [cnameReply]
    makesAddresses_readV4 (by rw [List.forall_mem_singleton]; exact cnameReply_wellFormed)
  rw [List.map_singleton, cnameReply_resolve] at hret
  cases hret

end Hcpp.Dns
