import Hcpp.Dns.NameDecoding
import Hcpp.Dns.ParseRecords

/-!
# The record loop on any bytes

`rawRecord` is the record at an offset as its bytes say, and `Walk` the records
that the loop goes past, whatever the message is.  Behind the walk the loop is
at the end of the message, or at the one place where it stops.  On records that
stand one behind the other the walk is over these, and for a query of type A the
loop comes to `scan`.
-/

namespace Hcpp.Dns

open DomainName

/-- A record behind an owner that is read, and is not the root. -/
structure RawRecord where
  owner : List Char
  type : Nat
  ttl : Nat
  /-- where its data begins -/
  data : Nat
  rdlen : Nat
deriving DecidableEq

/-- The record at `o`: of class IN, with data that is not empty and inside the message. -/
def rawRecord (msg : List Char) (o : Nat) : Option RawRecord :=
  match qname2host msg o with
  | .ret (v, owner) =>
    let e := o + v.toNat
    match load16 msg e, load16 msg (e + 2), load32 msg (e + 4), load16 msg (e + 8) with
    | .ret type, .ret cls, .ret ttl, .ret rdlen =>
      if 0 < v ∧ e + 10 < msg.length ∧ e + 10 + rdlen ≤ msg.length ∧ cls = classIN ∧ rdlen ≠ 0 then
        some ⟨owner, type, ttl, e + 10, rdlen⟩
      else none
    | _, _, _, _ => none
  | _ => none

namespace RawRecord

/-- The queried name owns the record, and it is of this type. -/
def Owned (fqdn : List Char) (type : Nat) (r : RawRecord) : Prop :=
  r.type = type ∧ lcs r.owner = fqdn

instance (fqdn : List Char) (type : Nat) (r : RawRecord) : Decidable (r.Owned fqdn type) :=
  inferInstanceAs (Decidable (_ ∧ _))

/-- The address is read through a pointer into a string that is gone. -/
def Dangling (fqdn : List Char) (r : RawRecord) : Prop := r.Owned fqdn typeAAAA ∧ r.rdlen = 16

instance (fqdn : List Char) (r : RawRecord) : Decidable (r.Dangling fqdn) :=
  inferInstanceAs (Decidable (_ ∧ _))

/-- The loop goes past the record. -/
def Accepted (msg fqdn : List Char) (r : RawRecord) : Prop :=
  (r.Owned fqdn typeA → r.rdlen = 4) ∧ ¬ r.Owned fqdn typeAAAA ∧
    (r.type = typeCNAME → (nameRead msg r.data).isSome)

instance (msg fqdn : List Char) (r : RawRecord) : Decidable (r.Accepted msg fqdn) :=
  inferInstanceAs (Decidable (_ ∧ _ ∧ _))

/-- It counts as an answer of its own accord. -/
def Answers (fqdn : List Char) (type : Nat) (r : RawRecord) : Prop :=
  r.Owned fqdn typeA ∨ r.type ≠ typeCNAME ∧ (r.type = typeNS ∨ r.type = typeMX) ∧ r.type = type

instance (fqdn : List Char) (type : Nat) (r : RawRecord) : Decidable (r.Answers fqdn type) :=
  inferInstanceAs (Decidable (_ ∨ _))

/-- The answer without its data. -/
def head (r : RawRecord) : AnswerT := ⟨r.owner.dropLast, r.type, classIN, r.ttl, []⟩

/-- What is put into `result` for the record. -/
def answer (msg fqdn : List Char) (type : Nat) (r : RawRecord) : List AnswerT :=
  if r.Owned fqdn typeA then [{ r.head with rdata := dotted ((msg.drop r.data).take 4) }]
  else if r.type = typeCNAME then
    match host2qname ((nameRead msg r.data).getD []) with
    | .ret (_, qcname) => [{ r.head with rdata := qcname }]
    | _ => []
  else if (r.type = typeNS ∨ r.type = typeMX) ∧ r.type = type then
    [{ r.head with rdata := (msg.drop r.data).take r.rdlen }]
  else []

def next (r : RawRecord) : Nat := r.data + r.rdlen

end RawRecord

/-- `result[acnt++] = a` for each of the answers. -/
def DnsReply.putAll (result : DnsReply) (acnt : Nat) : List AnswerT → DnsReply
  | [] => result
  | a :: as => (result.put acnt a).putAll (acnt + 1) as

/-! ## What is spelled -/

/-- A text that is spelled at `o`, with ten pointers at most: not empty, and in 255 bytes. -/
def SpelledAt (msg : List Char) (o : Nat) (t : List Char) : Prop :=
  ∃ size, Spells msg 10 o size t ∧ t ≠ [] ∧ t.length ≤ 255

/-- A name takes a byte. -/
theorem Spells.size_pos {msg t : List Char} {d o size : Nat} (h : Spells msg d o size t) :
    0 < size := by
  cases h <;> omega

/-- Where the bytes of a root owner are misread, no owner is read. -/
theorem nameRead_misread {msg : List Char} {o : Nat} (h : misread msg o = true) :
    nameRead msg o = none := by
  unfold misread at h
  simp only [Bool.and_eq_true, decide_eq_true_eq] at h
  rw [nameRead, h.1.1.1]
  rfl

/-- **What is read is what is spelled.** -/
theorem nameRead_iff {msg t : List Char} {o : Nat} (hpos : 0 < o) (ho : o ≤ msg.length) :
    nameRead msg o = some t ↔ SpelledAt msg o t := by
  unfold nameRead
  rcases qname2host_spells hpos ho with ⟨size, t', hspell, hret⟩ | ⟨hno, hret⟩
  · have hsize := hspell.size_pos
    rw [hret, returned]
    constructor
    · intro h
      split_ifs at h with hnil hlong
      · cases h
      · cases h
      · simp only [Int.natCast_pos, hsize, if_true, Option.some.injEq] at h
        subst h
        exact ⟨size, hspell, List.ne_nil_of_length_pos (by omega), by omega⟩
    · rintro ⟨size', hs, hne, hlen⟩
      obtain ⟨rfl, rfl⟩ := hspell.unique hs
      have hlong := List.length_pos_of_ne_nil hne
      rw [if_neg (by omega), if_neg (by omega)]
      exact if_pos (by omega)
  · rw [hret]
    constructor
    · intro h
      cases h
    · rintro ⟨size, hs, -⟩
      exact absurd hs (hno size t)

/-! ## One turn -/

section Turn

variable {msg fqdn : List Char} {o : Nat}

theorem exists_load32 (msg : List Char) (o : Nat) (ho : o + 3 ≤ msg.length) :
    ∃ n, load32 msg o = .ret n := by
  obtain ⟨hi, hhi⟩ := exists_load16 msg o (by omega)
  obtain ⟨lo, hlo⟩ := exists_load16 msg (o + 2) (by omega)
  rw [load32, hhi, Outcome.ret_bind, hlo, Outcome.ret_bind]
  exact ⟨_, rfl⟩

theorem rawRecord_unread (ho : o ≤ msg.length) (ht : nameRead msg o = none) :
    rawRecord msg o = none := by
  obtain ⟨v, hv, hq⟩ := nameRead_eq_none ho ht
  rw [rawRecord, hq]
  simp only
  split
  · rw [if_neg (by omega)]
  · rfl

/-- What there is to know of a record that is there. -/
theorem rawRecord_spec (ho : o ≤ msg.length) {r : RawRecord} (hr : rawRecord msg o = some r) :
    nameRead msg o = some r.owner ∧ (∃ n, n ≠ [] ∧ r.owner = text n ∧ (text n).length ≤ 255) ∧
      o < r.data ∧ 0 < r.rdlen ∧ r.next ≤ msg.length := by
  cases ht : nameRead msg o with
  | none =>
    rw [rawRecord_unread ho ht] at hr
    cases hr
  | some t =>
    obtain ⟨v, n, hpos, hq, hne, htext, hlen⟩ := nameRead_eq_some ho ht
    rw [rawRecord, hq] at hr
    simp only at hr
    split at hr
    · split_ifs at hr with hfits
      rw [Option.some.injEq] at hr
      subst hr
      exact ⟨rfl, ⟨n, hne, htext, hlen⟩, by show o < o + v.toNat + 10; omega,
        Nat.pos_of_ne_zero hfits.2.2.2.2, hfits.2.2.1⟩
    · cases hr

/-- **The head of a record on any bytes.** -/
theorem recordHead_raw (ho : o < msg.length) :
    recordHead msg o =
      match rawRecord msg o with
      | some r => .ret (some (r.head, r.owner, r.data, r.rdlen))
      | none => if misread msg o then .undefined else .ret none := by
  cases ht : nameRead msg o with
  | none =>
    rw [rawRecord_unread (by omega) ht]
    by_cases hend : o + 9 ≤ msg.length
    · exact recordHead_unread hend ht
    · obtain ⟨v, hv, hq⟩ := nameRead_eq_none (by omega) ht
      have hno : misread msg o = false := by
        simp [misread, show ¬ o + 10 < msg.length by omega]
      rw [recordHead, hq, Outcome.ret_bind, hno]
      rcases hv with rfl | rfl
      · rfl
      · simp only [Int.toNat_zero, Nat.add_zero]
        rw [if_neg (by omega), if_pos (by omega)]
        rfl
  | some t =>
    obtain ⟨v, n, hpos, hq, hne, rfl, hlen⟩ := nameRead_eq_some (by omega) ht
    have hno : misread msg o = false := by
      rw [Bool.eq_false_iff]
      intro hmis
      rw [nameRead_misread hmis] at ht
      cases ht
    obtain ⟨w, -, hw, hret⟩ := host2qname_text hlen
    have hback : (text n).getLast? = some '.' := getLast_text hne
    rw [recordHead, rawRecord, hq, Outcome.ret_bind, hno]
    simp only
    generalize o + v.toNat = e
    rw [if_neg (by omega)]
    by_cases hend : e + 10 ≥ msg.length
    · rw [if_pos hend]
      split
      · next heq =>
        split at heq
        · rw [if_neg (by omega)] at heq
          cases heq
        · cases heq
      · rfl
    · obtain ⟨qtype, h0⟩ := exists_load16 msg e (by omega)
      obtain ⟨qclass, h2⟩ := exists_load16 msg (e + 2) (by omega)
      obtain ⟨ttl, h4⟩ := exists_load32 msg (e + 4) (by omega)
      obtain ⟨rdlen, h8⟩ := exists_load16 msg (e + 8) (by omega)
      rw [if_neg hend, h0, Outcome.ret_bind, h2, Outcome.ret_bind, h4, Outcome.ret_bind, h8,
        Outcome.ret_bind]
      by_cases hd : e + 10 + rdlen > msg.length ∨ qclass ≠ classIN ∨ rdlen = 0
      · rw [if_pos hd]
        simp only
        rw [if_neg (by omega)]
        rfl
      · have hcls : qclass = classIN := by
          by_contra hc
          exact hd (.inr (.inl hc))
        subst hcls
        rw [if_neg hd, hret, Outcome.ret_bind]
        simp only
        rw [if_neg (by omega), if_neg (text_ne_nil hne), hback, if_pos rfl,
          if_pos ⟨hpos, by omega, by omega, trivial, by omega⟩]
        rfl

theorem putAll_append (result : DnsReply) (acnt : Nat) (as bs : List AnswerT) :
    result.putAll acnt (as ++ bs) = (result.putAll acnt as).putAll (acnt + as.length) bs := by
  induction as generalizing result acnt with
  | nil => rfl
  | cons a as ih =>
    show (result.put acnt a).putAll (acnt + 1) (as ++ bs) = _
    rw [ih, List.length_cons, Nat.add_assoc, Nat.add_comm 1]
    rfl

/-- The answers stand one after the other from `acnt` on, over what stood there. -/
theorem putAll_eq (result : DnsReply) {acnt : Nat} (hacnt : acnt ≤ result.length)
    (as : List AnswerT) :
    result.putAll acnt as = result.take acnt ++ as ++ result.drop (acnt + as.length) := by
  induction as generalizing result acnt with
  | nil => simp [DnsReply.putAll]
  | cons a as ih =>
    show (result.put acnt a).putAll (acnt + 1) as = _
    by_cases hlt : acnt < result.length
    · have hput : result.put acnt a = result.set acnt a := if_pos hlt
      have htake : (result.set acnt a).take (acnt + 1) = result.take acnt ++ [a] := by
        rw [List.take_add_one, List.take_set_of_le (Nat.le_refl _),
          List.getElem?_set_self hlt]
        rfl
      have hdrop : (result.set acnt a).drop (acnt + 1 + as.length) =
          result.drop (acnt + (a :: as).length) := by
        rw [List.drop_set_of_lt (by omega), List.length_cons, Nat.add_assoc,
          Nat.add_comm 1]
      rw [hput, ih _ (by rw [List.length_set]; omega), htake, hdrop]
      simp
    · obtain rfl : acnt = result.length := by omega
      have hend : (result ++ [a]).length = result.length + 1 := List.length_append
      rw [put_next, ih _ (by omega), List.drop_eq_nil_of_le (by omega),
        List.drop_eq_nil_of_le (by omega), List.take_of_length_le (by omega), List.take_length]
      simp

/-- An empty `result` is what the answers are. -/
theorem putAll_nil (as : List AnswerT) : DnsReply.putAll [] 0 as = as := by
  rw [putAll_eq [] (Nat.le_refl 0) as]
  simp

/-- **One turn on any bytes.** -/
theorem recordLoop_raw (type fuel acnt : Nat) (result : DnsReply) (has : Bool)
    (ho : o < msg.length) :
    recordLoop msg fqdn type (fuel + 1) o acnt result has =
      match rawRecord msg o with
      | none => if misread msg o then .undefined else .ret (-1, result)
      | some r =>
        if r.Accepted msg fqdn then
          recordLoop msg fqdn type fuel r.next (acnt + (r.answer msg fqdn type).length)
            (result.putAll acnt (r.answer msg fqdn type)) (has || decide (r.Answers fqdn type))
        else if r.Dangling fqdn then .undefined else .ret (-1, result) := by
  rw [recordLoop, if_neg (by omega), recordHead_raw ho]
  cases hr : rawRecord msg o with
  | none =>
    simp only
    split <;> rfl
  | some r =>
    obtain ⟨hread, ⟨n, hne, howner, hlen⟩, -, hrdlen, hnext⟩ := rawRecord_spec (by omega) hr
    simp only [Outcome.ret_bind, RawRecord.head]
    by_cases hA : r.type = typeA ∧ lcs r.owner = fqdn
    · have h6 : ¬ r.Owned fqdn typeAAAA := fun h => absurd (hA.1.symm.trans h.1) (by decide)
      have hcname : r.type ≠ typeCNAME := fun h => absurd (hA.1.symm.trans h) (by decide)
      rw [if_pos hA]
      by_cases h4 : r.rdlen = 4
      · have hacc : r.Accepted msg fqdn := ⟨fun _ => h4, h6, fun h => absurd h hcname⟩
        have hans : r.answer msg fqdn type =
            [{ r.head with rdata := dotted ((msg.drop r.data).take 4) }] := if_pos hA
        rw [if_neg (not_not.mpr h4), if_pos hacc, hans, decide_eq_true (.inl hA), Bool.or_true]
        rfl
      · have hacc : ¬ r.Accepted msg fqdn := fun h => h4 (h.1 hA)
        rw [if_pos h4, if_neg hacc, if_neg fun h => h6 h.1]
    · rw [if_neg hA]
      by_cases h6 : r.type = typeAAAA ∧ lcs r.owner = fqdn
      · have hacc : ¬ r.Accepted msg fqdn := fun h => h.2.1 h6
        rw [if_pos h6, if_neg hacc]
        by_cases h16 : r.rdlen = 16
        · rw [if_neg (not_not.mpr h16), if_pos ⟨h6, h16⟩]
        · rw [if_pos h16, if_neg fun h => h16 h.2]
      · rw [if_neg h6]
        by_cases hcname : r.type = typeCNAME
        · rw [if_pos hcname]
          have hnoAns : ¬ r.Answers fqdn type := by
            rintro (h | h)
            · exact hA h
            · exact h.1 hcname
          have hdata : r.data ≤ msg.length := by
            unfold RawRecord.next at hnext
            omega
          cases ht : nameRead msg r.data with
          | none =>
            have hacc : ¬ r.Accepted msg fqdn := by
              intro h
              have := h.2.2 hcname
              rw [ht] at this
              cases this
            obtain ⟨v, hv, hq⟩ := nameRead_eq_none hdata ht
            rw [hq, Outcome.ret_bind, if_neg hacc,
              if_neg (show ¬ r.Dangling fqdn from fun h => h6 h.1)]
            simp only
            rw [if_pos (by omega)]
          | some cname =>
            have hacc : r.Accepted msg fqdn :=
              ⟨fun h => absurd h hA, h6, fun _ => by rw [ht]; rfl⟩
            obtain ⟨v, m, hpos, hq, -, rfl, hmlen⟩ := nameRead_eq_some hdata ht
            obtain ⟨w, -, hw, hret⟩ := host2qname_text hmlen
            have hans : r.answer msg fqdn type = [{ r.head with rdata := w }] := by
              unfold RawRecord.answer
              rw [if_neg (show ¬ r.Owned fqdn typeA from hA), if_pos hcname, ht,
                Option.getD_some, hret]
            rw [hq, Outcome.ret_bind, if_pos hacc, hans, decide_eq_false hnoAns, Bool.or_false]
            simp only
            rw [if_neg (by omega), hret, Outcome.ret_bind]
            simp only
            rw [if_neg (by omega)]
            rfl
        · have hacc : r.Accepted msg fqdn := ⟨fun h => absurd h hA, h6, fun h => absurd h hcname⟩
          rw [if_neg hcname, if_pos hacc]
          by_cases hns : (r.type = typeNS ∨ r.type = typeMX) ∧ r.type = type
          · have hans : r.answer msg fqdn type =
                [{ r.head with rdata := (msg.drop r.data).take r.rdlen }] := by
              unfold RawRecord.answer
              rw [if_neg (show ¬ r.Owned fqdn typeA from hA), if_neg hcname, if_pos hns]
            rw [if_pos hns, hans, decide_eq_true (.inr ⟨hcname, hns⟩), Bool.or_true]
            rfl
          · have hans : r.answer msg fqdn type = [] := by
              unfold RawRecord.answer
              rw [if_neg (show ¬ r.Owned fqdn typeA from hA), if_neg hcname, if_neg hns]
            have hnoAns : ¬ r.Answers fqdn type := by
              rintro (h | h)
              · exact hA h
              · exact hns h.2
            rw [if_neg hns, hans, decide_eq_false hnoAns, Bool.or_false]
            rfl

end Turn

/-! ## The walk -/

/-- From the first offset the loop goes past these records, to the last one. -/
inductive Walk (msg fqdn : List Char) : Nat → List RawRecord → Nat → Prop
  | nil (o : Nat) : Walk msg fqdn o [] o
  | cons {o e : Nat} {r : RawRecord} {rs : List RawRecord} (ho : o < msg.length)
      (hr : rawRecord msg o = some r) (hacc : r.Accepted msg fqdn)
      (h : Walk msg fqdn r.next rs e) : Walk msg fqdn o (r :: rs) e

/-- What is put into `result` for the records, and whether one of them is an answer. -/
def answersOf (msg fqdn : List Char) (type : Nat) (rs : List RawRecord) : List AnswerT :=
  rs.flatMap (RawRecord.answer msg fqdn type)

def anyAnswers (fqdn : List Char) (type : Nat) (rs : List RawRecord) : Bool :=
  rs.any fun r => decide (r.Answers fqdn type)

/-- The loop ends the program, or leaves it undefined, at `e`: it does not go past it. -/
def StopsAt (msg fqdn : List Char) (e : Nat) : Prop :=
  ∀ r, rawRecord msg e = some r → e < msg.length → ¬ r.Accepted msg fqdn

/-- What is at `e` makes the behaviour undefined. -/
def UndefinedAt (msg fqdn : List Char) (e : Nat) : Prop :=
  e < msg.length ∧ (misread msg e = true ∨ ∃ r, rawRecord msg e = some r ∧ r.Dangling fqdn)

section Walk

variable {msg fqdn : List Char}

theorem Walk.le {o e : Nat} {rs : List RawRecord} (ho : o ≤ msg.length)
    (h : Walk msg fqdn o rs e) : e ≤ msg.length := by
  induction h with
  | nil o => exact ho
  | cons hlt hr _ _ ih => exact ih (rawRecord_spec (by omega) hr).2.2.2.2

/-- The walk comes to an end: every record takes bytes. -/
theorem exists_walk (fqdn : List Char) {o : Nat} (ho : o ≤ msg.length) :
    ∃ rs e, Walk msg fqdn o rs e ∧ StopsAt msg fqdn e := by
  induction hn : msg.length - o using Nat.strong_induction_on generalizing o with
  | _ n ih =>
    by_cases hstop : StopsAt msg fqdn o
    · exact ⟨[], o, .nil o, hstop⟩
    · obtain ⟨r, hr, hlt, hacc⟩ : ∃ r, rawRecord msg o = some r ∧ o < msg.length ∧
          r.Accepted msg fqdn := by
        by_contra hno
        exact hstop fun r hr hlt hacc => hno ⟨r, hr, hlt, hacc⟩
      obtain ⟨-, -, hdata, hrdlen, hnext⟩ := rawRecord_spec ho hr
      have hmove : r.next = r.data + r.rdlen := rfl
      obtain ⟨rs, e, hw, he⟩ := ih (msg.length - r.next) (by omega) hnext rfl
      exact ⟨r :: rs, e, .cons hlt hr hacc hw, he⟩

/-- There is one walk. -/
theorem Walk.unique {o e e' : Nat} {rs rs' : List RawRecord} (h : Walk msg fqdn o rs e)
    (he : StopsAt msg fqdn e) (h' : Walk msg fqdn o rs' e') (he' : StopsAt msg fqdn e') :
    rs = rs' ∧ e = e' := by
  induction h generalizing rs' e' with
  | nil o =>
    cases h' with
    | nil => exact ⟨rfl, rfl⟩
    | cons hlt hr hacc _ => exact absurd hacc (he _ hr hlt)
  | cons hlt hr hacc _ ih =>
    cases h' with
    | nil => exact absurd hacc (he' _ hr hlt)
    | cons hlt' hr' hacc' hw' =>
      rw [hr, Option.some.injEq] at hr'
      subst hr'
      obtain ⟨rfl, rfl⟩ := ih he hw' he'
      exact ⟨rfl, rfl⟩

/-- **The loop follows the walk.** -/
theorem recordLoop_walk {o e : Nat} {rs : List RawRecord} (h : Walk msg fqdn o rs e)
    (ho : o ≤ msg.length) (type fuel acnt : Nat) (result : DnsReply) (has : Bool)
    (hfuel : msg.length - o < fuel) :
    ∃ fuel', msg.length - e < fuel' ∧ recordLoop msg fqdn type fuel o acnt result has =
      recordLoop msg fqdn type fuel' e (acnt + (answersOf msg fqdn type rs).length)
        (result.putAll acnt (answersOf msg fqdn type rs)) (has || anyAnswers fqdn type rs) := by
  induction h generalizing fuel acnt result has with
  | nil o => exact ⟨fuel, hfuel, by simp [answersOf, anyAnswers, DnsReply.putAll]⟩
  | @cons o e r rs hlt hr hacc _ ih =>
    obtain ⟨fuel, rfl⟩ : ∃ f, fuel = f + 1 := ⟨fuel - 1, by omega⟩
    obtain ⟨-, -, hdata, hrdlen, hnext⟩ := rawRecord_spec ho hr
    have hmove : r.next = r.data + r.rdlen := rfl
    obtain ⟨fuel', hfuel', hloop⟩ := ih hnext fuel (acnt + (r.answer msg fqdn type).length)
      (result.putAll acnt (r.answer msg fqdn type)) (has || decide (r.Answers fqdn type))
      (by omega)
    refine ⟨fuel', hfuel', ?_⟩
    rw [recordLoop_raw type fuel acnt result has hlt, hr]
    simp only
    have hanswers : answersOf msg fqdn type (r :: rs) =
        r.answer msg fqdn type ++ answersOf msg fqdn type rs := List.flatMap_cons
    have hany : anyAnswers fqdn type (r :: rs) =
        (decide (r.Answers fqdn type) || anyAnswers fqdn type rs) := List.any_cons
    rw [if_pos hacc, hloop, hanswers, putAll_append, List.length_append, ← Nat.add_assoc, hany,
      Bool.or_assoc]

/-- **What the loop comes to**, on any bytes: behind its walk it returns at the end of the
message, is undefined, or returns -1. -/
theorem recordLoop_end {o e : Nat} {rs : List RawRecord} (h : Walk msg fqdn o rs e)
    (he : StopsAt msg fqdn e) (ho : o ≤ msg.length) (type fuel : Nat) (result : DnsReply)
    (hfuel : msg.length - o < fuel) :
    (e = msg.length ∧ recordLoop msg fqdn type fuel o 0 result false =
        .ret (if anyAnswers fqdn type rs then 1 else 0,
          result.putAll 0 (answersOf msg fqdn type rs))) ∨
      (UndefinedAt msg fqdn e ∧ recordLoop msg fqdn type fuel o 0 result false = .undefined) ∨
      (e < msg.length ∧ ¬ UndefinedAt msg fqdn e ∧
        recordLoop msg fqdn type fuel o 0 result false =
          .ret (-1, result.putAll 0 (answersOf msg fqdn type rs))) := by
  obtain ⟨fuel', hfuel', hloop⟩ := recordLoop_walk h ho type fuel 0 result false hfuel
  obtain ⟨fuel', rfl⟩ : ∃ f, fuel' = f + 1 := ⟨fuel' - 1, by omega⟩
  have hle := h.le ho
  rw [hloop, Bool.false_or]
  by_cases hend : e = msg.length
  · refine .inl ⟨hend, ?_⟩
    rw [recordLoop, if_pos (by omega)]
  · have hlt : e < msg.length := by omega
    right
    rw [recordLoop_raw type fuel' _ _ _ hlt]
    cases hr : rawRecord msg e with
    | none =>
      simp only
      by_cases hmis : misread msg e = true
      · exact .inl ⟨⟨hlt, .inl hmis⟩, if_pos hmis⟩
      · refine .inr ⟨hlt, ?_, if_neg hmis⟩
        rintro ⟨-, h | ⟨r, h, -⟩⟩
        · exact hmis h
        · rw [hr] at h
          cases h
    | some r =>
      simp only
      rw [if_neg (he r hr hlt)]
      by_cases hdang : r.Dangling fqdn
      · exact .inl ⟨⟨hlt, .inr ⟨r, hr, hdang⟩⟩, if_pos hdang⟩
      · refine .inr ⟨hlt, ?_, if_neg hdang⟩
        rintro ⟨-, hmis | ⟨r', h, hd⟩⟩
        · have hread := (rawRecord_spec (by omega) hr).1
          rw [nameRead_misread hmis] at hread
          cases hread
        · rw [hr, Option.some.injEq] at h
          subst h
          exact hdang hd

end Walk

/-! ## Records that stand one behind the other -/

section Stands

variable {msg fqdn : List Char} {o : Nat} {r : Record}

/-- The record at `p` as the loop reads it. -/
def rawAt (msg : List Char) (p : Nat × Record) : RawRecord :=
  ⟨(nameRead msg p.1).getD [], p.2.type, p.2.ttl, p.1 + p.2.head.length, p.2.rdata.length⟩

theorem next_rawAt (o : Nat) (r : Record) : (rawAt msg (o, r)).next = o + r.bytes.length := by
  show o + r.head.length + r.rdata.length = _
  rw [Record.length_bytes, Record.length_head]
  omega

/-- **A record that stands at `o`** is seen there when its owner is read. -/
theorem rawRecord_stands (h : r.bytes <+: msg.drop o) :
    rawRecord msg o =
      if (nameRead msg o).isSome ∧ r.cls.val = classIN ∧ r.rdata ≠ [] then
        some (rawAt msg (o, r))
      else none := by
  have hf := fields_stand h
  have hfits := hf.fits
  rw [Record.length_head] at hfits
  cases ht : nameRead msg o with
  | none =>
    rw [if_neg (by simp)]
    exact rawRecord_unread (by omega) ht
  | some t =>
    obtain ⟨v, n, hpos, hq, -⟩ := nameRead_eq_some (by omega) ht
    obtain rfl := owner_read h hpos hq
    rw [rawRecord, hq, rawAt, ht]
    simp only [Int.toNat_natCast, hf.type, hf.cls, hf.ttl, hf.rdlen]
    by_cases hd : r.cls.val = classIN ∧ r.rdata ≠ []
    · have hlen := List.length_pos_of_ne_nil hd.2
      rw [if_pos ⟨hpos, by omega, by omega, hd.1, by omega⟩, if_pos ⟨rfl, hd⟩,
        Record.length_head, Nat.add_assoc o]
      rfl
    · rw [if_neg, if_neg fun h => hd h.2]
      rintro ⟨-, -, -, hcls, hlen⟩
      exact hd ⟨hcls, fun hnil => hlen (by rw [hnil]; rfl)⟩

theorem rawAt_owned {p : Nat × Record} (hread : (nameRead msg p.1).isSome) (type : Nat) :
    (rawAt msg p).Owned fqdn type ↔ ownedBy msg fqdn type p = true := by
  obtain ⟨t, ht⟩ := Option.isSome_iff_exists.mp hread
  simp [RawRecord.Owned, rawAt, ownedBy, ht]

/-- A query for addresses is answered by the addresses alone. -/
theorem answers_typeA (r : RawRecord) : r.Answers fqdn typeA ↔ r.Owned fqdn typeA := by
  constructor
  · rintro (h | ⟨-, h | h, hA⟩)
    · exact h
    · exact absurd (h.symm.trans hA) (by decide)
    · exact absurd (h.symm.trans hA) (by decide)
  · exact .inl

/-- What is put into the result for the record that stands there. -/
theorem rawAt_answer {p : Nat × Record} (hread : (nameRead msg p.1).isSome)
    (hcls : p.2.cls.val = classIN) (hdata : p.2.rdata <+: msg.drop (p.1 + p.2.head.length))
    (hA : ownedBy msg fqdn typeA p = true → p.2.rdata.length = 4) :
    (rawAt msg p).answer msg fqdn typeA = (answerOf msg fqdn p).toList := by
  have hown := @rawAt_owned msg fqdn p hread typeA
  have hhead : (rawAt msg p).head = ⟨((nameRead msg p.1).getD []).dropLast, p.2.type.val,
      p.2.cls.val, p.2.ttl.val, []⟩ := by
    rw [hcls]
    rfl
  unfold RawRecord.answer answerOf
  by_cases hyes : ownedBy msg fqdn typeA p = true
  · have htake := take_front hdata
    rw [hA hyes] at htake
    rw [if_pos (hown.mpr hyes), if_pos hyes, hhead]
    simp only [rawAt, htake, Option.toList]
  · have htype : (rawAt msg p).type = p.2.type.val := rfl
    have hns : ¬ ((p.2.type.val = typeNS ∨ p.2.type.val = typeMX) ∧ p.2.type.val = typeA) := by
      rintro ⟨h | h, hA⟩
      · exact absurd (h.symm.trans hA) (by decide)
      · exact absurd (h.symm.trans hA) (by decide)
    rw [if_neg fun h => hyes (hown.mp h), if_neg hyes, htype, if_neg hns, hhead]
    by_cases hcname : p.2.type.val = typeCNAME
    · rw [if_pos hcname, if_pos hcname]
      simp only [rawAt]
      cases host2qname ((nameRead msg (p.1 + p.2.head.length)).getD []) <;> rfl
    · rw [if_neg hcname, if_neg hcname]
      rfl

/-- The loop goes past it when `passes` says so and no address is read through a dangling
pointer. -/
theorem rawAt_accepted {p : Nat × Record} (hread : (nameRead msg p.1).isSome)
    (hcls : p.2.cls.val = classIN) (hne : p.2.rdata ≠ [])
    (hA : ownedBy msg fqdn typeA p = true → p.2.rdata.length = 4) :
    (rawAt msg p).Accepted msg fqdn ↔
      passes msg p = true ∧ ¬ dangling msg fqdn p = true := by
  have howned (type : Nat) := @rawAt_owned msg fqdn p hread type
  have hpass : passes msg p = true ↔
      (p.2.type.val = typeCNAME → (nameRead msg (p.1 + p.2.head.length)).isSome) := by
    simp [passes, hread, hcls, hne, imp_iff_not_or]
  constructor
  · rintro ⟨-, h6, hcname⟩
    exact ⟨hpass.mpr hcname, fun h => h6 ((howned typeAAAA).mpr h)⟩
  · rintro ⟨hgo, h6⟩
    exact ⟨fun h => hA ((howned typeA).mp h), fun h => h6 ((howned typeAAAA).mp h),
      hpass.mp hgo⟩

/-- **One record** that stands at `o`. -/
theorem recordLoop_step (h : r.bytes <+: msg.drop o) (hA : r.Is typeA → r.rdata.length = 4)
    (hAAAA : r.Is typeAAAA → r.rdata.length = 16) (fuel : Nat) (acc : DnsReply) (has : Bool) :
    recordLoop msg fqdn typeA (fuel + 1) o acc.length acc has =
      if passes msg (o, r) then
        if dangling msg fqdn (o, r) then .undefined
        else
          recordLoop msg fqdn typeA fuel (o + r.bytes.length)
            (acc ++ (answerOf msg fqdn (o, r)).toList).length
            (acc ++ (answerOf msg fqdn (o, r)).toList) (has || ownedBy msg fqdn typeA (o, r))
      else if misread msg o then .undefined else .ret (-1, acc) := by
  have hf := fields_stand h
  have hfits := hf.fits
  rw [Record.length_head] at hfits
  rw [recordLoop_raw typeA fuel acc.length acc has (by omega), rawRecord_stands h]
  by_cases hd : (nameRead msg o).isSome ∧ r.cls.val = classIN ∧ r.rdata ≠ []
  · obtain ⟨hread, hcls, hne⟩ := hd
    have hmis : ¬ misread msg o = true := by
      intro hmis
      rw [nameRead_misread hmis] at hread
      cases hread
    have howned (type : Nat) := @rawAt_owned msg fqdn (o, r) hread type
    have hA4 (hown : ownedBy msg fqdn typeA (o, r) = true) : r.rdata.length = 4 :=
      hA ⟨((howned typeA).mpr hown).1, hcls⟩
    have hdang : (rawAt msg (o, r)).Dangling fqdn ↔ dangling msg fqdn (o, r) = true := by
      constructor
      · intro h
        exact (howned typeAAAA).mp h.1
      · intro h
        have hown := (howned typeAAAA).mpr h
        exact ⟨hown, hAAAA ⟨hown.1, hcls⟩⟩
    have hacc := @rawAt_accepted msg fqdn (o, r) hread hcls hne hA4
    have hhas : decide ((rawAt msg (o, r)).Answers fqdn typeA) =
        ownedBy msg fqdn typeA (o, r) := by
      rw [Bool.eq_iff_iff, decide_eq_true_iff, answers_typeA, howned typeA]
    rw [if_pos ⟨hread, hcls, hne⟩, if_neg hmis]
    simp only
    by_cases hgo : passes msg (o, r) = true
    · rw [if_pos hgo]
      by_cases h6 : dangling msg fqdn (o, r) = true
      · rw [if_pos h6, if_neg fun h => (hacc.mp h).2 h6, if_pos (hdang.mpr h6)]
      · rw [if_neg h6, if_pos (hacc.mpr ⟨hgo, h6⟩), next_rawAt, hhas,
          @rawAt_answer msg fqdn (o, r) hread hcls hf.rdata hA4, putAll_eq acc (Nat.le_refl _),
          List.take_length, List.drop_eq_nil_of_le (by omega), List.append_nil,
          List.length_append]
    · -- the alias whose target is not read
      have hcname : r.type.val = typeCNAME := by
        by_contra hother
        exact hgo (by simp [passes, hread, hcls, hne, hother])
      have h6 : ¬ (rawAt msg (o, r)).Dangling fqdn := fun h =>
        absurd (hcname.symm.trans h.1.1) (by decide)
      rw [if_neg hgo, if_neg fun h => hgo (hacc.mp h).1, if_neg h6]
  · have hpass : ¬ passes msg (o, r) = true := by
      intro hp
      simp only [passes, Bool.and_eq_true, decide_eq_true_eq] at hp
      exact hd ⟨hp.1.1.1, hp.1.1.2, hp.1.2⟩
    rw [if_neg hd, if_neg hpass]

/-- **The loop over the records to the end of the message.** -/
theorem recordLoop_scan (rs : List Record) (fuel o : Nat) (acc : DnsReply) (has : Bool)
    (h : msg.drop o = rs.flatMap Record.bytes)
    (hA : ∀ r ∈ rs, r.Is typeA → r.rdata.length = 4)
    (hAAAA : ∀ r ∈ rs, r.Is typeAAAA → r.rdata.length = 16)
    (hfuel : msg.length - o < fuel) :
    (recordLoop msg fqdn typeA fuel o acc.length acc has >>= fun p => .ret p.2) =
      scan msg fqdn (placed o rs) acc := by
  induction rs generalizing fuel o acc has with
  | nil =>
    obtain ⟨fuel, rfl⟩ : ∃ f, fuel = f + 1 := ⟨fuel - 1, by omega⟩
    have hend : o ≥ msg.length := List.drop_eq_nil_iff.mp h
    rw [recordLoop, if_pos hend, Outcome.ret_bind]
    rfl
  | cons r rs ih =>
    obtain ⟨fuel, rfl⟩ : ∃ f, fuel = f + 1 := ⟨fuel - 1, by omega⟩
    have hr : r.bytes <+: msg.drop o := by
      rw [h]
      exact List.prefix_append _ _
    have hrest : msg.drop (o + r.bytes.length) = rs.flatMap Record.bytes := by
      rw [← List.drop_drop, h, List.flatMap_cons, List.drop_left]
    have hfits := (fields_stand hr).fits
    have hlen := r.length_bytes
    rw [Record.length_head] at hfits
    rw [recordLoop_step hr (hA r List.mem_cons_self) (hAAAA r List.mem_cons_self), placed, scan]
    cases passes msg (o, r) with
    | false => cases misread msg o <;> rfl
    | true =>
      cases dangling msg fqdn (o, r) with
      | true => rfl
      | false =>
        simp only [if_true, Bool.false_eq_true, if_false]
        exact ih fuel _ _ _ hrest (fun r' hr' => hA r' (List.mem_cons_of_mem _ hr'))
          (fun r' hr' => hAAAA r' (List.mem_cons_of_mem _ hr')) (by omega)

/-- The loop goes past the record that stands at `p`. -/
structure GoesPast (msg fqdn : List Char) (p : Nat × Record) : Prop where
  owner : (nameRead msg p.1).isSome
  cls : p.2.cls.val = classIN
  rdata : p.2.rdata ≠ []
  accepted : (rawAt msg p).Accepted msg fqdn

/-- **The walk over records that stand one behind the other** comes to the end of the message
when each of them is gone past. -/
theorem walk_placed {rs : List Record} {raws : List RawRecord}
    (ho : o ≤ msg.length) (h : msg.drop o = rs.flatMap Record.bytes) :
    Walk msg fqdn o raws msg.length ↔
      (∀ p ∈ placed o rs, GoesPast msg fqdn p) ∧ raws = (placed o rs).map (rawAt msg) := by
  induction rs generalizing o raws with
  | nil =>
    have hend : msg.length ≤ o := List.drop_eq_nil_iff.mp h
    obtain rfl : o = msg.length := by omega
    constructor
    · intro hw
      cases hw with
      | nil => exact ⟨fun p hp => absurd hp List.not_mem_nil, rfl⟩
      | cons hlt _ _ _ => omega
    · rintro ⟨-, rfl⟩
      exact .nil _
  | cons r rs ih =>
    rw [List.flatMap_cons] at h
    have hr : r.bytes <+: msg.drop o := by
      rw [h]
      exact List.prefix_append _ _
    have hrest : msg.drop (o + r.bytes.length) = rs.flatMap Record.bytes := by
      rw [← List.drop_drop, h, List.drop_left]
    have hfits := (fields_stand hr).fits
    have hhead := r.length_head
    have hbytes := r.length_bytes
    have hraw {r' : RawRecord} : rawRecord msg o = some r' ↔
        ((nameRead msg o).isSome ∧ r.cls.val = classIN ∧ r.rdata ≠ []) ∧
          rawAt msg (o, r) = r' := by
      rw [rawRecord_stands hr, Option.ite_none_right_eq_some, Option.some.injEq]
    rw [placed, List.forall_mem_cons, List.map_cons]
    constructor
    · intro hw
      generalize hend : msg.length = e at hw
      cases hw with
      | nil => omega
      | cons hlt hr' hacc hw' =>
        obtain ⟨⟨howner, hcls, hdata⟩, rfl⟩ := hraw.mp hr'
        rw [next_rawAt, ← hend] at hw'
        obtain ⟨hall, rfl⟩ := (ih (by omega) hrest).mp hw'
        exact ⟨⟨⟨howner, hcls, hdata, hacc⟩, hall⟩, rfl⟩
    · rintro ⟨⟨hp, hall⟩, rfl⟩
      refine .cons (by omega) (hraw.mpr ⟨⟨hp.owner, hp.cls, hp.rdata⟩, rfl⟩) hp.accepted ?_
      rw [next_rawAt]
      exact (ih (by omega) hrest).mpr ⟨hall, rfl⟩

end Stands

/-! ## In front of the records -/

/-- The question as it is compared, and where the first record stands; `none` where the
message is rejected before the records. -/
def asked (name msg : List Char) : Option (List Char × Nat) :=
  if msg.length < 12 + 5 ∨ (msg.getD 2 nul).toNat / 128 % 2 ≠ 1 ∨
      (msg.getD 3 nul).toNat % 16 ≠ 0 then none
  else
    match qname2host msg 12 with
    | .ret (qnlen, tmp) =>
      if qnlen ≤ 0 ∨ 12 + qnlen.toNat + 4 ≥ msg.length ∨ lcs (name ++ ['.']) ≠ lcs tmp then none
      else some (lcs tmp, 12 + qnlen.toNat + 4)
    | _ => none

/-- **A message is its question and its records.** -/
theorem parseMessage_asked (name : List Char) (type : Nat) (result : DnsReply)
    (msg : List Char) :
    parseMessage name type result msg =
      match asked name msg with
      | none => .ret (-1, result)
      | some (fqdn, o) => recordLoop msg fqdn type (msg.length + 1) o 0 result false := by
  rw [parseMessage, asked]
  by_cases hlen : msg.length < 12 + 5
  · rw [if_pos hlen, if_pos (.inl hlen)]
  · rw [if_neg hlen, charAt_of_le (by omega), Outcome.ret_bind, charAt_of_le (by omega),
      Outcome.ret_bind]
    by_cases hqr : (msg.getD 2 nul).toNat / 128 % 2 ≠ 1
    · rw [if_pos hqr, if_pos (.inr (.inl hqr))]
    · rw [if_neg hqr]
      by_cases hrcode : (msg.getD 3 nul).toNat % 16 ≠ 0
      · rw [if_pos hrcode, if_pos (.inr (.inr hrcode))]
      · obtain ⟨⟨v, t⟩, hq, -⟩ := @qname2host_reading msg 12 (by omega)
        rw [if_neg hrcode, if_neg (by omega), hq, Outcome.ret_bind]
        simp only
        by_cases hend : v ≤ 0 ∨ 12 + v.toNat + 4 ≥ msg.length
        · have hor : v ≤ 0 ∨ 12 + v.toNat + 4 ≥ msg.length ∨ lcs (name ++ ['.']) ≠ lcs t := by
            omega
          rw [if_pos hend, if_pos hor]
        · rw [if_neg hend]
          by_cases hsame : lcs (name ++ ['.']) ≠ lcs t
          · rw [if_pos hsame, if_pos (.inr (.inr hsame))]
          · have hor : ¬ (v ≤ 0 ∨ 12 + v.toNat + 4 ≥ msg.length ∨
                lcs (name ++ ['.']) ≠ lcs t) := by
              rintro (h | h | h)
              · exact hend (.inl h)
              · exact hend (.inr h)
              · exact hsame h
            rw [if_neg hsame, if_neg hor]

theorem asked_le {name msg fqdn : List Char} {o : Nat} (h : asked name msg = some (fqdn, o)) :
    o ≤ msg.length := by
  unfold asked at h
  split at h
  · cases h
  · split at h
    · split_ifs at h with hno
      simp only [Option.some.injEq, Prod.mk.injEq] at h
      omega
    · cases h

/-- **A message with one question** is asked for the name when this is its question, with a dot
behind it, and a record follows. -/
theorem asked_stands {name msg : List Char} {n : Name} (hqr : (msg.getD 2 nul).toNat / 128 = 1)
    (hrcode : (msg.getD 3 nul).toNat % 16 = 0)
    (hq : Written.bytes ⟨n, .root⟩ <+: msg.drop 12) (hlen : (text n).length ≤ 255) :
    asked name msg =
      if 12 + ((wire n).length + 1) + 4 < msg.length ∧ lcs (name ++ ['.']) = lcs (text n) then
        some (lcs (text n), 12 + ((wire n).length + 1) + 4)
      else none := by
  have hvalue := qname2host_root hq hlen
  have htoNat : (((wire n).length : Int) + 1).toNat = (wire n).length + 1 := by omega
  unfold asked
  by_cases hboth : 12 + ((wire n).length + 1) + 4 < msg.length ∧
      lcs (name ++ ['.']) = lcs (text n)
  · have hne : n ≠ [] := by
      rintro rfl
      have hlen := congrArg List.length hboth.2
      simp [lcs] at hlen
    rw [if_neg hne] at hvalue
    rw [if_pos hboth, if_neg (by omega), hvalue]
    simp only
    rw [htoNat, if_neg]
    rintro (h | h | h)
    · omega
    · omega
    · exact h hboth.2
  · rw [if_neg hboth]
    by_cases hfront : msg.length < 12 + 5 ∨ (msg.getD 2 nul).toNat / 128 % 2 ≠ 1 ∨
        (msg.getD 3 nul).toNat % 16 ≠ 0
    · exact if_pos hfront
    · rw [if_neg hfront, hvalue]
      by_cases hne : n = []
      · rw [if_pos hne]
        exact if_pos (.inl (Int.le_refl 0))
      · rw [if_neg hne]
        simp only
        rw [htoNat, if_pos]
        by_cases hend : 12 + ((wire n).length + 1) + 4 < msg.length
        · exact .inr (.inr fun hsame => hboth ⟨hend, hsame⟩)
        · exact .inr (.inl (by omega))

end Hcpp.Dns
