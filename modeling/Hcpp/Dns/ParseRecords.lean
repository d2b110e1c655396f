import Hcpp.Dns.EncodeQname
import Hcpp.Dns.Message

/-!
# The records of a well-formed message

`recordLoop` goes past a record (`passes`) when `qname2host` reads its owner, it
is of class IN and its data is not empty, and for a CNAME record when its target
is read too; at the first other record it stops, and keeps what it has.  Two
things are undefined: a root owner is not skipped, and if the bytes from it on
look like a record of class IN, `back()` of an empty view is taken (`misread`);
and the address of an AAAA record of the queried name is read through a dangling
pointer (`dangling`).
-/

namespace Hcpp.Dns

open DomainName

/-- The text of the name at `o`, where `qname2host` reads one that is not the root. -/
def nameRead (msg : List Char) (o : Nat) : Option (List Char) :=
  match qname2host msg o with
  | .ret (v, t) => if 0 < v then some t else none
  | _ => none

def passes (msg : List Char) (p : Nat × Record) : Bool :=
  (nameRead msg p.1).isSome && decide (p.2.cls.val = classIN) && decide (p.2.rdata ≠ []) &&
    (decide (p.2.type.val ≠ typeCNAME) || (nameRead msg (p.1 + p.2.head.length)).isSome)

/-- The name at `o` is read as the root, and the ten bytes from `o` on, which begin with
it, pass for the rest of a record. -/
def misread (msg : List Char) (o : Nat) : Bool :=
  decide (qname2host msg o = .ret (0, [])) && decide (o + 10 < msg.length) &&
    decide (load16 msg (o + 2) = .ret classIN) &&
    match load16 msg (o + 8) with
    | .ret rdlen => decide (rdlen ≠ 0) && decide (o + 10 + rdlen ≤ msg.length)
    | _ => false

/-- The record is read as one of this type that the queried name owns. -/
def ownedBy (msg fqdn : List Char) (type : Nat) (p : Nat × Record) : Bool :=
  decide (p.2.type.val = type) && decide ((nameRead msg p.1).map lcs = some fqdn)

def dangling (msg fqdn : List Char) (p : Nat × Record) : Bool := ownedBy msg fqdn typeAAAA p

/-- The answer made of a record that the loop goes past. -/
def answerOf (msg fqdn : List Char) (p : Nat × Record) : Option AnswerT :=
  let ans : AnswerT :=
    ⟨((nameRead msg p.1).getD []).dropLast, p.2.type.val, p.2.cls.val, p.2.ttl.val, []⟩
  if ownedBy msg fqdn typeA p then some { ans with rdata := dotted p.2.rdata }
  else if p.2.type.val = typeCNAME then
    match host2qname ((nameRead msg (p.1 + p.2.head.length)).getD []) with
    | .ret (_, qcname) => some { ans with rdata := qcname }
    | _ => none
  else none

/-- The records the loop goes past, and the one it stops at. -/
def walked (msg : List Char) (ps : List (Nat × Record)) : List (Nat × Record) :=
  ps.takeWhile (passes msg)

def stopper (msg : List Char) (ps : List (Nat × Record)) : Option (Nat × Record) :=
  (ps.dropWhile (passes msg)).head?

/-! ## One record -/

section Head

variable {msg : List Char} {o : Nat}

theorem nameRead_eq_some {t : List Char} (ho : o ≤ msg.length) (h : nameRead msg o = some t) :
    ∃ v n, 0 < v ∧ qname2host msg o = .ret (v, t) ∧ n ≠ [] ∧ t = text n ∧
      (text n).length ≤ 255 := by
  obtain ⟨p, hp, hread⟩ := qname2host_reading ho
  rw [nameRead, hp] at h
  cases hread with
  | fails => cases h
  | root => cases h
  | @name v n hne hlen hpos hv =>
    simp only [if_pos hpos, Option.some.injEq] at h
    subst h
    exact ⟨v, n, hpos, hp, hne, rfl, hlen⟩

theorem nameRead_eq_none (ho : o ≤ msg.length) (h : nameRead msg o = none) :
    ∃ v, (v = -1 ∨ v = 0) ∧ qname2host msg o = .ret (v, []) := by
  obtain ⟨p, hp, hread⟩ := qname2host_reading ho
  rw [nameRead, hp] at h
  cases hread with
  | fails => exact ⟨-1, .inl rfl, hp⟩
  | root => exact ⟨0, .inr rfl, hp⟩
  | name hne hlen hpos hv =>
    simp only [if_pos hpos] at h
    cases h

/-- The text of a name ends in a dot. -/
theorem getLast_text {n : Name} (hne : n ≠ []) : (text n).getLast? = some '.' := by
  obtain ⟨k, l, rfl⟩ := List.eq_nil_or_concat' n |>.resolve_left hne
  rw [text_append, text_cons, text_nil, ← List.append_assoc, List.getLast?_concat]

theorem text_ne_nil {n : Name} (hne : n ≠ []) : text n ≠ [] := by
  intro h
  have := getLast_text hne
  rw [h] at this
  cases this

/-- A text that `qname2host` made is encoded. -/
theorem host2qname_text {n : Name} (hlen : (text n).length ≤ 255) :
    ∃ w, Encoded (text n) w ∧ 0 < w.length ∧ host2qname (text n) = .ret ((w.length : Int), w) := by
  obtain ⟨w, hw, hret⟩ := host2qname_encoded (shortLabels_text n) (by omega)
  exact ⟨w, hw, hw.length_pos, hret⟩

variable {r : Record}

/-- The parts of a record behind its owner, where they stand. -/
structure Fields (msg : List Char) (o : Nat) (r : Record) : Prop where
  type : load16 msg (o + r.owner.bytes.length) = .ret r.type.val
  cls : load16 msg (o + r.owner.bytes.length + 2) = .ret r.cls.val
  ttl : load32 msg (o + r.owner.bytes.length + 4) = .ret r.ttl.val
  rdlen : load16 msg (o + r.owner.bytes.length + 8) = .ret r.rdata.length
  rdata : r.rdata <+: msg.drop (o + r.head.length)
  fits : o + r.head.length + r.rdata.length ≤ msg.length

theorem fields_stand (h : r.bytes <+: msg.drop o) : Fields msg o r := by
  have hhead : r.head <+: msg.drop o := prefix_front h
  have h1 := prefix_behind hhead
  have h2 := prefix_behind h1
  have h3 := prefix_behind h2
  have h4 := prefix_behind h3
  rw [length_be16] at h2 h3 h4
  rw [length_be16, length_be32] at h4
  rw [length_be16] at h3
  have hle : o + r.bytes.length ≤ msg.length := length_le_append (by
    intro hnil
    have hlen := congrArg List.length hnil
    rw [Record.length_bytes, List.length_nil] at hlen
    omega) h
  rw [Record.length_bytes] at hle
  refine ⟨load16_be16 (prefix_front h1) r.type.isLt, load16_be16 (prefix_front h2) r.cls.isLt,
    load32_be32 (prefix_front h3) r.ttl.isLt, load16_be16 h4 r.length_lt, prefix_behind h, ?_⟩
  rw [Record.length_head]
  omega

/-- The record's owner is written in front of it, so the value says where it ends. -/
theorem owner_read (h : r.bytes <+: msg.drop o) {v : Int} {t : List Char} (hv : 0 < v)
    (hq : qname2host msg o = .ret (v, t)) : v = r.owner.bytes.length := by
  obtain ⟨v', t', hq', hcase⟩ := qname2host_written (prefix_front (prefix_front h))
  rw [hq] at hq'
  cases hq'
  rcases hcase with ⟨hle, -⟩ | ⟨hlen, -⟩
  · omega
  · exact hlen

theorem exists_load16 (msg : List Char) (o : Nat) (ho : o + 1 ≤ msg.length) :
    ∃ n, load16 msg o = .ret n := by
  rw [load16, charAt_of_le (by omega), Outcome.ret_bind, charAt_of_le ho, Outcome.ret_bind]
  exact ⟨_, rfl⟩

theorem misread_iff {rdlen : Nat} (h8 : load16 msg (o + 8) = .ret rdlen) :
    misread msg o = true ↔ qname2host msg o = .ret (0, []) ∧ o + 10 < msg.length ∧
      load16 msg (o + 2) = .ret classIN ∧ rdlen ≠ 0 ∧ o + 10 + rdlen ≤ msg.length := by
  rw [misread, h8]
  simp only [Bool.and_eq_true, decide_eq_true_eq, and_assoc]

/-- What the loop makes of a record whose owner it does not read. -/
theorem recordHead_unread (ho : o + 9 ≤ msg.length) (ht : nameRead msg o = none) :
    recordHead msg o = if misread msg o then .undefined else .ret none := by
  obtain ⟨v, hv, hq⟩ := nameRead_eq_none (by omega) ht
  obtain ⟨qtype, h0⟩ := exists_load16 msg o (by omega)
  obtain ⟨qclass, h2⟩ := exists_load16 msg (o + 2) (by omega)
  obtain ⟨ttlHi, h4⟩ := exists_load16 msg (o + 4) (by omega)
  obtain ⟨ttlLo, h6⟩ := exists_load16 msg (o + 4 + 2) (by omega)
  obtain ⟨rdlen, h8⟩ := exists_load16 msg (o + 8) (by omega)
  have hmis := misread_iff h8
  rw [hq, h2] at hmis
  rw [recordHead, hq, Outcome.ret_bind]
  rcases hv with rfl | rfl
  · have hno : ¬ misread msg o = true := fun h => by cases (hmis.mp h).1
    rw [if_neg hno]
    rfl
  · simp only [Int.toNat_zero, Nat.add_zero]
    rw [if_neg (by omega)]
    by_cases hend : o + 10 ≥ msg.length
    · rw [if_pos hend, if_neg fun h => by have := (hmis.mp h).2.1; omega]
    · have hroot : host2qname [] = .ret (1, [nul]) := rfl
      rw [if_neg hend, h0, Outcome.ret_bind, h2, Outcome.ret_bind, load32, h4, Outcome.ret_bind,
        h6, Outcome.ret_bind, Outcome.ret_bind, h8, Outcome.ret_bind, hroot]
      by_cases hd : o + 10 + rdlen > msg.length ∨ qclass ≠ classIN ∨ rdlen = 0
      · rw [if_pos hd, if_neg]
        intro h
        obtain ⟨-, -, hc, hne, hle⟩ := hmis.mp h
        rcases hd with hd | hd | hd
        · omega
        · exact hd (Outcome.ret.inj hc)
        · exact hne hd
      · have hc : qclass = classIN := by
          by_contra hc
          exact hd (.inr (.inl hc))
        have hyes : misread msg o = true :=
          hmis.mpr ⟨rfl, by omega, by rw [hc], by omega, by omega⟩
        rw [if_neg hd, if_pos hyes]
        rfl

end Head

/-! ## The records it goes past -/

section Past

variable {msg fqdn : List Char}

theorem put_next (acc : DnsReply) (a : AnswerT) : acc.put acc.length a = acc ++ [a] :=
  if_neg (Nat.lt_irrefl _)

theorem take_front {a b : List Char} (h : a <+: b) : b.take a.length = a :=
  (List.prefix_iff_eq_take.mp h).symm

theorem answerOf_owned {p : Nat × Record} (hown : ownedBy msg fqdn typeA p = true) :
    answerOf msg fqdn p = some ⟨((nameRead msg p.1).getD []).dropLast, p.2.type.val,
      p.2.cls.val, p.2.ttl.val, dotted p.2.rdata⟩ :=
  if_pos hown

theorem answerOf_alias {p : Nat × Record} {t w : List Char} {v : Int}
    (hown : ownedBy msg fqdn typeA p = false) (hcname : p.2.type.val = typeCNAME)
    (ht : nameRead msg (p.1 + p.2.head.length) = some t) (hret : host2qname t = .ret (v, w)) :
    answerOf msg fqdn p = some ⟨((nameRead msg p.1).getD []).dropLast, p.2.type.val,
      p.2.cls.val, p.2.ttl.val, w⟩ := by
  simp only [answerOf, hown, hcname, ht, hret, if_true, if_false, Bool.false_eq_true,
    Option.getD_some]

theorem answerOf_eq_none {p : Nat × Record} (hown : ownedBy msg fqdn typeA p = false)
    (hother : p.2.type.val ≠ typeCNAME) : answerOf msg fqdn p = none := by
  simp only [answerOf, hown, hother, if_false, Bool.false_eq_true]

/-- What the loop does over the records `ps`, as far as the answers go. -/
def scan (msg fqdn : List Char) : List (Nat × Record) → DnsReply → Outcome DnsReply
  | [], acc => .ret acc
  | p :: ps, acc =>
    if passes msg p then
      if dangling msg fqdn p then .undefined
      else scan msg fqdn ps (acc ++ (answerOf msg fqdn p).toList)
    else if misread msg p.1 then .undefined
    else .ret acc

theorem walked_cons (p : Nat × Record) (ps : List (Nat × Record)) :
    walked msg (p :: ps) = if passes msg p then p :: walked msg ps else [] :=
  List.takeWhile_cons

theorem stopper_cons (p : Nat × Record) (ps : List (Nat × Record)) :
    stopper msg (p :: ps) = if passes msg p then stopper msg ps else some p := by
  unfold stopper
  rw [List.dropWhile_cons]
  split <;> rfl

/-- It ends well where no record it goes past is dangling and the one it stops at is not
misread; then there is an answer for each record that makes one. -/
theorem scan_eq_ret_iff {ps : List (Nat × Record)} {acc l : DnsReply} :
    scan msg fqdn ps acc = .ret l ↔
      (∀ p ∈ walked msg ps, dangling msg fqdn p = false) ∧
        (∀ p ∈ stopper msg ps, misread msg p.1 = false) ∧
        l = acc ++ (walked msg ps).filterMap (answerOf msg fqdn) := by
  induction ps generalizing acc with
  | nil =>
    rw [scan]
    constructor
    · intro h
      cases h
      refine ⟨?_, ?_, ?_⟩
      · intro p hp
        cases hp
      · intro p hp
        cases hp
      · simp [walked]
    · rintro ⟨-, -, rfl⟩
      simp [walked]
  | cons p ps ih =>
    rw [scan, walked_cons, stopper_cons]
    cases hpass : passes msg p with
    | false =>
      simp only [Bool.false_eq_true, if_false, List.not_mem_nil, false_implies, implies_true,
        true_and, Option.mem_some_iff, forall_eq', List.filterMap_nil, List.append_nil]
      cases hmis : misread msg p.1 with
      | false =>
        simp only [Bool.false_eq_true, if_false, true_and, Outcome.ret.injEq]
        exact eq_comm
      | true => simp only [if_true, reduceCtorEq, Bool.true_eq_false, false_and]
    | true =>
      simp only [if_true]
      cases hdang : dangling msg fqdn p with
      | true => simp only [if_true, reduceCtorEq, List.forall_mem_cons, hdang, Bool.true_eq_false,
          false_and]
      | false =>
        have happ : acc ++ (answerOf msg fqdn p).toList ++
            (walked msg ps).filterMap (answerOf msg fqdn) =
              acc ++ (p :: walked msg ps).filterMap (answerOf msg fqdn) := by
          rw [List.filterMap_cons, List.append_assoc]
          cases answerOf msg fqdn p <;> rfl
        simp only [Bool.false_eq_true, if_false, ih, List.forall_mem_cons, hdang, true_and, happ]

end Past

end Hcpp.Dns
