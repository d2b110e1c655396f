import Hcpp.Dns.DnsHttps

/-!
# Replies to a query (RFC 1035, 4.1)

A `Message` is the header, one question and the records of three sections; its
bytes are what `parse_rfc8484` gets.  What the names of a message are is said by
`DomainName.Decodes`.  `Alias` follows the CNAME records of the answer section,
and `Wanted` is an address of the name they lead to.
-/

namespace Hcpp.Dns

open DomainName

/-- The low `w` bits of a number. -/
def low (w n : Nat) : Fin (2 ^ w) := ⟨n % 2 ^ w, Nat.mod_lt n (Nat.two_pow_pos w)⟩

def be32 (n : Nat) : List Char := be16 (n / 65536) ++ be16 n

structure Record where
  owner : Written
  type : Fin 65536
  cls : Fin 65536
  ttl : Fin (2 ^ 32)
  rdata : List Char
  length_lt : rdata.length < 65536

namespace Record

/-- All of a record in front of its data. -/
def head (r : Record) : List Char :=
  r.owner.bytes ++ (be16 r.type ++ (be16 r.cls ++ (be32 r.ttl ++ be16 r.rdata.length)))

def bytes (r : Record) : List Char := r.head ++ r.rdata

/-- The record is of this type, and of class IN. -/
def Is (r : Record) (type : Nat) : Prop := r.type.val = type ∧ r.cls.val = classIN

instance (r : Record) (type : Nat) : Decidable (r.Is type) := inferInstanceAs (Decidable (_ ∧ _))

end Record

/-- The records with the offsets they stand at. -/
def placed : Nat → List Record → List (Nat × Record)
  | _, [] => []
  | o, r :: rs => (o, r) :: placed (o + r.bytes.length) rs

structure Message where
  id : Fin 65536
  /-- the third byte of the header: QR, OPCODE, AA, TC, RD -/
  flags : Fin 256
  /-- the fourth: RA, Z, RCODE -/
  codes : Fin 256
  question : Name
  answers : List Record
  authority : List Record
  additional : List Record

namespace Message

def header (m : Message) : List Char :=
  be16 m.id ++ ([Char.ofNat m.flags, Char.ofNat m.codes] ++ (be16 1 ++ (be16 m.answers.length ++
    (be16 m.authority.length ++ be16 m.additional.length))))

def questionBytes (m : Message) : List Char :=
  Written.bytes ⟨m.question, .root⟩ ++ (be16 typeA ++ be16 classIN)

def records (m : Message) : List Record := m.answers ++ (m.authority ++ m.additional)

def bytes (m : Message) : List Char :=
  m.header ++ (m.questionBytes ++ m.records.flatMap Record.bytes)

/-- Where the first record stands. -/
def start (m : Message) : Nat := 12 + m.questionBytes.length

/-- All records, and those of the answer section. -/
def placedRecords (m : Message) : List (Nat × Record) := placed m.start m.records

def placedAnswers (m : Message) : List (Nat × Record) := placed m.start m.answers

/-- The record at `p` is owned by `n`, or by `n` in other letters. -/
def Owns (m : Message) (n : Name) (p : Nat × Record) : Prop :=
  ∃ k, Decodes m.bytes p.1 k ∧ SameName k n

/-- A name within the 255 bytes of RFC 1035, 2.3.4. -/
def HasName (m : Message) (offset : Nat) : Prop :=
  ∃ n, Decodes m.bytes offset n ∧ (text n).length ≤ 254

/-- A response without an error, well formed. -/
structure WellFormed (m : Message) : Prop where
  response : m.flags.val / 128 = 1
  noError : m.codes.val % 16 = 0
  answers_lt : m.answers.length < 65536
  authority_lt : m.authority.length < 65536
  additional_lt : m.additional.length < 65536
  size : m.bytes.length ≤ 65535
  question : (text m.question).length ≤ 254
  owners : ∀ p ∈ m.placedRecords, m.HasName p.1
  lengthA : ∀ p ∈ m.placedRecords, p.2.Is typeA → p.2.rdata.length = 4
  lengthAAAA : ∀ p ∈ m.placedRecords, p.2.Is typeAAAA → p.2.rdata.length = 16
  target : ∀ p ∈ m.placedRecords, p.2.Is typeCNAME →
    (∃ w : Written, p.2.rdata = w.bytes) ∧ m.HasName (p.1 + p.2.head.length)

/-- CNAME records of the answer section lead from the first name to the second. -/
inductive Alias (m : Message) : Name → Name → Prop
  | refl (n : Name) : Alias m n n
  | step {n t c : Name} {p : Nat × Record} (hp : p ∈ m.placedAnswers) (htype : p.2.Is typeCNAME)
      (hown : m.Owns n p) (ht : Decodes m.bytes (p.1 + p.2.head.length) t) (h : Alias m t c) :
      Alias m n c

/-- The chain from the queried name ends at `c`. -/
structure Canonical (m : Message) (c : Name) : Prop where
  chain : Alias m m.question c
  last : ∀ p ∈ m.placedAnswers, p.2.Is typeCNAME → ¬ m.Owns c p

/-- The address of an A record of `c` in the answer section. -/
def Wanted (m : Message) (c : Name) (rdata : List Char) : Prop :=
  ∃ p ∈ m.placedAnswers, p.2.Is typeA ∧ m.Owns c p ∧ p.2.rdata = rdata

end Message

/-! ## Where things stand -/

@[simp] theorem length_be16 (n : Nat) : (be16 n).length = 2 := rfl

@[simp] theorem length_be32 (n : Nat) : (be32 n).length = 4 := rfl

@[simp] theorem length_header (m : Message) : m.header.length = 12 := rfl

theorem Record.length_head (r : Record) : r.head.length = r.owner.bytes.length + 10 := by
  simp [Record.head]

theorem Record.length_bytes (r : Record) :
    r.bytes.length = r.owner.bytes.length + 10 + r.rdata.length := by
  rw [Record.bytes, List.length_append, Record.length_head]

/-- What follows a part of the message. -/
theorem prefix_behind {msg a b : List Char} {o : Nat} (h : a ++ b <+: msg.drop o) :
    b <+: msg.drop (o + a.length) := by
  obtain ⟨u, hu⟩ := h
  refine ⟨u, ?_⟩
  rw [← List.drop_drop, ← hu, List.append_assoc, List.drop_left]

theorem prefix_front {msg a b : List Char} {o : Nat} (h : a ++ b <+: msg.drop o) :
    a <+: msg.drop o :=
  (List.prefix_append a b).trans h

theorem load16_be16 {msg : List Char} {o n : Nat} (h : be16 n <+: msg.drop o) (hn : n < 65536) :
    load16 msg o = .ret n := by
  have hle : o + 2 ≤ msg.length := length_le_append (List.cons_ne_nil _ _) h
  have hlo : [Char.ofNat (n % 256)] <+: msg.drop (o + 1) :=
    prefix_behind (a := [Char.ofNat (n / 256 % 256)]) h
  rw [load16, charAt_of_le (by omega), Outcome.ret_bind, charAt_of_le (by omega),
    Outcome.ret_bind, getD_at_drop h, getD_at_drop hlo, toNat_byte _ (by omega),
    toNat_byte _ (by omega)]
  congr 1
  omega

theorem load32_be32 {msg : List Char} {o n : Nat} (h : be32 n <+: msg.drop o) (hn : n < 2 ^ 32) :
    load32 msg o = .ret n := by
  have hhi : be16 (n / 65536 % 65536) = be16 (n / 65536) := by
    rw [Nat.mod_eq_of_lt (by omega)]
  have hlo : be16 (n % 65536) = be16 n := by
    unfold be16
    rw [show n % 65536 / 256 % 256 = n / 256 % 256 by omega,
      show n % 65536 % 256 = n % 256 by omega]
  have h1 : be16 (n / 65536 % 65536) <+: msg.drop o := hhi ▸ prefix_front h
  have h2 : be16 (n % 65536) <+: msg.drop (o + 2) := hlo ▸ prefix_behind (a := be16 (n / 65536)) h
  rw [load32, load16_be16 h1 (by omega), Outcome.ret_bind, load16_be16 h2 (by omega),
    Outcome.ret_bind]
  congr 1
  omega

end Hcpp.Dns
