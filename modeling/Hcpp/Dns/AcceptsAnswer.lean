import Hcpp.Dns.GetReply
import Hcpp.Dns.RecordTurns

/-!
# Which answers `parse_rfc8484` accepts

A `Response` is a reply to a question of any type; its records stand with the
names that own them.  The parser returns 1 with the wanted addresses when every
record is one it goes past, whichever section it is in, and the A records that
are read as those of the queried name are the ones it owns.  An OPT record, with
the root for its owner, is never gone past.
-/

namespace Hcpp.Dns

open DomainName

def typeOPT : Nat := 41

/-- A message whose question has this type and class. -/
structure Response extends Message where
  qtype : Fin 65536
  qclass : Fin 65536
  /-- who owns the record that stands at an offset -/
  owner : Nat → Name

namespace Response

def bytes (m : Response) : List Char :=
  m.header ++ (Written.bytes ⟨m.question, .root⟩ ++ (be16 m.qtype ++ be16 m.qclass) ++
    m.records.flatMap Record.bytes)

/-- An A record of the queried name. -/
def Wanted (m : Response) (p : Nat × Record) : Prop :=
  p.2.Is typeA ∧ SameName (m.owner p.1) m.question

instance (m : Response) (p : Nat × Record) : Decidable (m.Wanted p) :=
  inferInstanceAs (Decidable (_ ∧ (_ = _)))

/-- A well-formed answer to the query of `name`, without an error. -/
structure WellFormed (name : List Char) (m : Response) : Prop where
  response : m.flags.val / 128 = 1
  noError : m.codes.val % 16 = 0
  answers_lt : m.answers.length < 65536
  authority_lt : m.authority.length < 65536
  additional_lt : m.additional.length < 65536
  size : m.bytes.length ≤ 65535
  question : (text m.question).length ≤ 254
  /-- the question is the name, which may have a dot at its end, in other letters -/
  queried : lcs name = lcs (text m.question) ∨ lcs (name ++ ['.']) = lcs (text m.question)
  owners : ∀ p ∈ m.placedRecords,
    Decodes m.bytes p.1 (m.owner p.1) ∧ (text (m.owner p.1)).length ≤ 254
  classes : ∀ p ∈ m.placedRecords,
    p.2.cls.val = classIN ∨ p.2.type.val = typeOPT ∧ p.2.owner = ⟨[], .root⟩
  lengthA : ∀ p ∈ m.placedRecords, p.2.Is typeA → p.2.rdata.length = 4
  lengthAAAA : ∀ p ∈ m.placedRecords, p.2.Is typeAAAA → p.2.rdata.length = 16
  target : ∀ p ∈ m.placedRecords, p.2.Is typeCNAME → (∃ w : Written, p.2.rdata = w.bytes) ∧
    ∃ n, Decodes m.bytes (p.1 + p.2.head.length) n ∧ (text n).length ≤ 254
  wanted : ∃ p ∈ m.placedRecords, m.Wanted p

end Response

/-- An address under the name `t.`, as it is put into `result`. -/
def addressAnswer (t : List Char) (r : Record) : AnswerT :=
  ⟨t.dropLast, typeA, classIN, r.ttl, dotted r.rdata⟩

namespace Response

/-- The answers to be given: owner, TTL and address of the wanted records. -/
def expected (m : Response) : List AnswerT :=
  (m.placedRecords.filter fun p => m.Wanted p).map fun p => addressAnswer (text (m.owner p.1)) p.2

/-- The parser returns 1, and the A answers of `result`, which was empty, are the wanted ones. -/
def Accepted (name head : List Char) (type : Nat) (m : Response) : Prop :=
  ∃ result, parseRfc8484 name type [] (head ++ m.bytes) (some head.length) m.bytes.length =
      .ret (1, result) ∧
    result.filter (fun a => a.qtype = typeA) = m.expected

/-- What is spelled at a record lets it pass. -/
structure Passes (m : Response) (spelled : Nat → List Char) (p : Nat × Record) : Prop where
  owner : SpelledAt m.bytes p.1 (spelled p.1)
  cls : p.2.cls.val = classIN
  rdata : p.2.rdata ≠ []
  notAAAA : p.2.type.val = typeAAAA → lcs (spelled p.1) ≠ lcs (text m.question)
  target : p.2.type.val = typeCNAME → ∃ t, SpelledAt m.bytes (p.1 + p.2.head.length) t

/-- The A records whose owner is spelled as the queried name. -/
def spelledAnswers (m : Response) (spelled : Nat → List Char) : List AnswerT :=
  (m.placedRecords.filter fun p =>
    p.2.type.val = typeA ∧ lcs (spelled p.1) = lcs (text m.question)).map
      fun p => addressAnswer (spelled p.1) p.2

/-- The name has no dot at its end, every record passes, and the A records spelled as the
queried name's are the same, in the same order, as those it owns. -/
structure Readable (name : List Char) (m : Response) (spelled : Nat → List Char) : Prop where
  noDot : lcs (name ++ ['.']) = lcs (text m.question)
  records : ∀ p ∈ m.placedRecords, m.Passes spelled p
  addresses : m.spelledAnswers spelled = m.expected

/-! ## Where its records stand -/

section Bytes

variable {m : Response} {name : List Char}

theorem start_eq (m : Response) : m.start = 12 + ((wire m.question).length + 1) + 4 := by
  rw [Message.start, length_questionBytes]
  omega

theorem bytes_drop (m : Response) : m.bytes.drop 12 =
    Written.bytes ⟨m.question, .root⟩ ++ (be16 m.qtype ++ be16 m.qclass) ++
      m.records.flatMap Record.bytes :=
  List.drop_left' (length_header m.toMessage)

theorem bytes_drop_start (m : Response) :
    m.bytes.drop m.start = m.records.flatMap Record.bytes := by
  have hfront : (Written.bytes ⟨m.question, .root⟩ ++ (be16 m.qtype ++ be16 m.qclass)).length =
      (wire m.question).length + 5 := by
    simp [Written.bytes, Ending.bytes]
  rw [start_eq, Nat.add_assoc, ← List.drop_drop, bytes_drop, List.drop_left' (by omega)]

theorem length_bytes (m : Response) :
    m.bytes.length = m.start + (m.records.flatMap Record.bytes).length := by
  have hdrop := congrArg List.length (bytes_drop_start m)
  have hlong : m.start ≤ m.bytes.length := by
    rw [start_eq, bytes]
    simp [Written.bytes, Ending.bytes]
    omega
  rw [List.length_drop] at hdrop
  omega

theorem placed_ge {o : Nat} {rs : List Record} {p : Nat × Record} (h : p ∈ placed o rs) :
    o ≤ p.1 := by
  induction rs generalizing o with
  | nil => cases h
  | cons r rs ih =>
    rcases List.mem_cons.mp h with rfl | h
    · exact Nat.le_refl _
    · have := ih h
      omega

/-- A record stands where it is placed. -/
theorem placed_stands {msg : List Char} {o : Nat} {rs : List Record} {p : Nat × Record}
    (h : msg.drop o = rs.flatMap Record.bytes) (hp : p ∈ placed o rs) :
    p.2.bytes <+: msg.drop p.1 := by
  induction rs generalizing o with
  | nil => cases hp
  | cons r rs ih =>
    rw [List.flatMap_cons] at h
    rcases List.mem_cons.mp hp with rfl | hp
    · rw [h]
      exact List.prefix_append _ _
    · refine ih ?_ hp
      rw [← List.drop_drop, h, List.drop_left]

/-- A record is inside the message, behind the question. -/
theorem place (m : Response) {p : Nat × Record} (hp : p ∈ m.placedRecords) :
    0 < p.1 ∧ p.1 + p.2.head.length + p.2.rdata.length ≤ m.bytes.length := by
  have hge := placed_ge hp
  have hstart := start_eq m
  exact ⟨by omega, (fields_stand (placed_stands (bytes_drop_start m) hp)).fits⟩

/-- The question passes when it is the name with a dot. -/
theorem asked_response (hw : m.WellFormed name) :
    asked name m.bytes =
      if lcs (name ++ ['.']) = lcs (text m.question) then
        some (lcs (text m.question), m.start)
      else none := by
  have hstart := start_eq m
  have hlen := length_bytes m
  have hresponse := hw.response
  have hquestion := hw.question
  have hrecords : 0 < (m.records.flatMap Record.bytes).length := by
    obtain ⟨p, hp, -⟩ := hw.wanted
    have hplace := (place m hp).2
    have hge := placed_ge hp
    rw [Record.length_head] at hplace
    omega
  have h2 : m.bytes.getD 2 nul = Char.ofNat m.flags := rfl
  have h3 : m.bytes.getD 3 nul = Char.ofNat m.codes := rfl
  have hq : Written.bytes ⟨m.question, .root⟩ <+: m.bytes.drop 12 := by
    rw [bytes_drop, List.append_assoc]
    exact List.prefix_append _ _
  rw [asked_stands (by rw [h2, toNat_byte _ m.flags.isLt]; exact hresponse)
    (by rw [h3, toNat_byte _ m.codes.isLt]; exact hw.noError) hq (by omega), hstart]
  have hmore : 12 + ((wire m.question).length + 1) + 4 < m.bytes.length := by omega
  simp only [hmore, true_and]

end Bytes

/-! ## What the loop makes of the records -/

section Records

variable {m : Response} {name : List Char} {type : Nat}

/-- A record that passes is gone past, and the other way round. -/
theorem passes_iff (hw : m.WellFormed name) {spelled : Nat → List Char} {p : Nat × Record}
    (hp : p ∈ m.placedRecords) :
    m.Passes spelled p ↔
      GoesPast m.bytes (lcs (text m.question)) p ∧ nameRead m.bytes p.1 = some (spelled p.1) := by
  obtain ⟨hpos, hfits⟩ := place m hp
  have hread {t : List Char} : nameRead m.bytes p.1 = some t ↔ SpelledAt m.bytes p.1 t :=
    nameRead_iff hpos (by omega)
  have htarget {t : List Char} : nameRead m.bytes (p.1 + p.2.head.length) = some t ↔
      SpelledAt m.bytes (p.1 + p.2.head.length) t :=
    nameRead_iff (by omega) (by omega)
  constructor
  · intro h
    have hname := hread.mpr h.owner
    refine ⟨⟨?_, h.cls, h.rdata, ?_, ?_, ?_⟩, hname⟩
    · rw [hname]
      rfl
    · intro hown
      exact hw.lengthA p hp ⟨hown.1, h.cls⟩
    · rintro ⟨htype, hown⟩
      rw [rawAt, hname] at hown
      exact h.notAAAA htype hown
    · intro hcname
      obtain ⟨t, ht⟩ := h.target hcname
      show (nameRead m.bytes (p.1 + p.2.head.length)).isSome
      rw [htarget.mpr ht]
      rfl
  · rintro ⟨h, hname⟩
    refine ⟨hread.mp hname, h.cls, h.rdata, ?_, ?_⟩
    · intro htype hown
      refine h.accepted.2.1 ⟨htype, ?_⟩
      rw [rawAt, hname]
      exact hown
    · intro hcname
      obtain ⟨t, ht⟩ := Option.isSome_iff_exists.mp (h.accepted.2.2 hcname)
      exact ⟨t, htarget.mp ht⟩

/-- The A answers of a record that is gone past. -/
theorem answer_filter {spelled : Nat → List Char} {p : Nat × Record}
    (hp : p ∈ m.placedRecords) (hpast : GoesPast m.bytes (lcs (text m.question)) p)
    (hname : nameRead m.bytes p.1 = some (spelled p.1)) :
    ((rawAt m.bytes p).answer m.bytes (lcs (text m.question)) type).filter
        (fun a => a.qtype = typeA) =
      if p.2.type.val = typeA ∧ lcs (spelled p.1) = lcs (text m.question) then
        [addressAnswer (spelled p.1) p.2]
      else [] := by
  have hacc := hpast.accepted
  have hraw : rawAt m.bytes p =
      ⟨spelled p.1, p.2.type, p.2.ttl, p.1 + p.2.head.length, p.2.rdata.length⟩ := by
    rw [rawAt, hname, Option.getD_some]
  have howned : (rawAt m.bytes p).Owned (lcs (text m.question)) typeA ↔
      p.2.type.val = typeA ∧ lcs (spelled p.1) = lcs (text m.question) := by
    rw [hraw]
    exact Iff.rfl
  rw [hraw] at hacc howned ⊢
  unfold RawRecord.answer
  by_cases hown : p.2.type.val = typeA ∧ lcs (spelled p.1) = lcs (text m.question)
  · have h4 : p.2.rdata.length = 4 := hacc.1 hown
    have hdata := take_front (fields_stand (placed_stands (bytes_drop_start m) hp)).rdata
    rw [h4] at hdata
    rw [if_pos hown, if_pos (howned.mpr hown), hdata]
    show List.filter (fun a : AnswerT => a.qtype = typeA) [⟨(spelled p.1).dropLast,
      p.2.type.val, classIN, p.2.ttl.val, dotted p.2.rdata⟩] = _
    rw [hown.1]
    rfl
  · rw [if_neg hown, if_neg fun h => hown (howned.mp h), List.filter_eq_nil_iff]
    intro a ha
    simp only [decide_eq_true_eq]
    split at ha
    · next hcname =>
      split at ha
      · rw [List.mem_singleton.mp ha]
        exact fun h => absurd (hcname.symm.trans h) (by decide)
      · cases ha
    · split at ha
      · next hns =>
        rw [List.mem_singleton.mp ha]
        rintro (h : p.2.type.val = typeA)
        rcases hns.1 with hns | hns
        · exact absurd (hns.symm.trans h) (by decide)
        · exact absurd (hns.symm.trans h) (by decide)
      · cases ha

/-- The A answers of all records are those of the records spelled as the queried name's. -/
theorem answers_filter {spelled : Nat → List Char}
    (hall : ∀ p ∈ m.placedRecords, GoesPast m.bytes (lcs (text m.question)) p ∧
      nameRead m.bytes p.1 = some (spelled p.1)) :
    (answersOf m.bytes (lcs (text m.question)) type (m.placedRecords.map (rawAt m.bytes))).filter
        (fun a => a.qtype = typeA) = m.spelledAnswers spelled := by
  have hlist : ∀ ps : List (Nat × Record), (∀ p ∈ ps, p ∈ m.placedRecords) →
      (answersOf m.bytes (lcs (text m.question)) type (ps.map (rawAt m.bytes))).filter
          (fun a => a.qtype = typeA) =
        (ps.filter fun p =>
          p.2.type.val = typeA ∧ lcs (spelled p.1) = lcs (text m.question)).map
            fun p => addressAnswer (spelled p.1) p.2 := by
    intro ps hps
    induction ps with
    | nil => rfl
    | cons p ps ih =>
      have hp := hps p List.mem_cons_self
      obtain ⟨hpast, hname⟩ := hall p hp
      have hrest := ih fun q hq => hps q (List.mem_cons_of_mem _ hq)
      have hcons : answersOf m.bytes (lcs (text m.question)) type
          ((p :: ps).map (rawAt m.bytes)) =
            (rawAt m.bytes p).answer m.bytes (lcs (text m.question)) type ++
            answersOf m.bytes (lcs (text m.question)) type (ps.map (rawAt m.bytes)) := by
        rw [List.map_cons]
        exact List.flatMap_cons
      rw [hcons, List.filter_append, answer_filter hp hpast hname, hrest, List.filter_cons]
      split_ifs with hown h h
      · rfl
      · exact absurd (decide_eq_true hown) h
      · exact absurd (of_decide_eq_true h) hown
      · rfl
  exact hlist m.placedRecords fun _ hp => hp

/-- What is given for records that are all gone past has an A answer only when one of them
is an answer. -/
theorem anyAnswers_of_filter (type : Nat) {spelled : Nat → List Char}
    (hall : ∀ p ∈ m.placedRecords, nameRead m.bytes p.1 = some (spelled p.1))
    (h : m.spelledAnswers spelled ≠ []) :
    anyAnswers (lcs (text m.question)) type (m.placedRecords.map (rawAt m.bytes)) = true := by
  obtain ⟨a, ha⟩ := List.exists_mem_of_ne_nil _ h
  obtain ⟨p, hp, -⟩ := List.mem_map.mp ha
  obtain ⟨hp, hown⟩ := List.mem_filter.mp hp
  have hown := of_decide_eq_true hown
  refine List.any_eq_true.mpr ⟨rawAt m.bytes p, List.mem_map.mpr ⟨p, hp, rfl⟩, ?_⟩
  refine decide_eq_true (.inl ⟨hown.1, ?_⟩)
  rw [rawAt, hall p hp]
  exact hown.2

end Records

/-! ## The answer -/

/-- A response that is accepted is readable. -/
theorem readable_of_accepted {name head : List Char} {type : Nat} {m : Response}
    (hw : m.WellFormed name) (h : m.Accepted name head type) :
    ∃ spelled, m.Readable name spelled := by
  obtain ⟨result, hret, hresult⟩ := h
  have hlen := length_bytes m
  have hmsg : m.bytes ≠ [] := List.append_ne_nil_of_left_ne_nil (List.cons_ne_nil _ _) _
  rw [parseRfc8484_counted name type [] head hmsg, parseMessage_asked, asked_response hw] at hret
  by_cases hdot : lcs (name ++ ['.']) = lcs (text m.question)
  · rw [if_pos hdot] at hret
    simp only at hret
    obtain ⟨rs, e, hwalk, hstop⟩ := exists_walk (lcs (text m.question))
      (show m.start ≤ m.bytes.length by omega)
    rcases recordLoop_end hwalk hstop (by omega) type (m.bytes.length + 1) [] (by omega)
      with ⟨rfl, hend⟩ | ⟨-, hend⟩ | ⟨-, -, hend⟩
    · rw [hend, Outcome.ret.injEq, Prod.mk.injEq, putAll_nil] at hret
      obtain ⟨hall, rfl⟩ := (walk_placed (by omega) (bytes_drop_start m)).mp hwalk
      have hname : ∀ p ∈ m.placedRecords,
          nameRead m.bytes p.1 = some ((nameRead m.bytes p.1).getD []) := by
        intro p hp
        obtain ⟨t, ht⟩ := Option.isSome_iff_exists.mp (hall p hp).owner
        rw [ht, Option.getD_some]
      refine ⟨fun o => (nameRead m.bytes o).getD [], hdot, ?_, ?_⟩
      · exact fun p hp => (passes_iff hw hp).mpr ⟨hall p hp, hname p hp⟩
      · rw [← hresult, ← hret.2]
        exact (answers_filter fun p hp => ⟨hall p hp, hname p hp⟩).symm
    · rw [hend] at hret
      cases hret
    · rw [hend, Outcome.ret.injEq, Prod.mk.injEq] at hret
      exact absurd hret.1 (by decide)
  · rw [if_neg hdot, Outcome.ret.injEq, Prod.mk.injEq] at hret
    exact absurd hret.1 (by decide)

/-- **Which answers are accepted.** -/
theorem accepted_iff_readable (name head : List Char) (type : Nat) (m : Response)
    (hw : m.WellFormed name) :
    m.Accepted name head type ↔ ∃ spelled, m.Readable name spelled := by
  refine ⟨readable_of_accepted hw, ?_⟩
  rintro ⟨spelled, h⟩
  have hlen := length_bytes m
  have hmsg : m.bytes ≠ [] := List.append_ne_nil_of_left_ne_nil (List.cons_ne_nil _ _) _
  have hall : ∀ p ∈ m.placedRecords, GoesPast m.bytes (lcs (text m.question)) p ∧
      nameRead m.bytes p.1 = some (spelled p.1) :=
    fun p hp => (passes_iff hw hp).mp (h.records p hp)
  have hwalk := (walk_placed (by omega) (bytes_drop_start m)).mpr
    ⟨fun p hp => (hall p hp).1, rfl⟩
  have hstop : StopsAt m.bytes (lcs (text m.question)) m.bytes.length :=
    fun r _ hlt => absurd hlt (by omega)
  have hsome : m.spelledAnswers spelled ≠ [] := by
    obtain ⟨p, hp, hwanted⟩ := hw.wanted
    rw [h.addresses]
    exact List.ne_nil_of_mem (List.mem_map.mpr
      ⟨p, List.mem_filter.mpr ⟨hp, decide_eq_true hwanted⟩, rfl⟩)
  unfold Accepted
  rw [parseRfc8484_counted name type [] head hmsg, parseMessage_asked, asked_response hw,
    if_pos h.noDot]
  simp only
  rcases recordLoop_end hwalk hstop (by omega) type (m.bytes.length + 1) [] (by omega)
    with ⟨-, hend⟩ | ⟨⟨hlt, -⟩, -⟩ | ⟨hlt, -⟩
  · have hany := anyAnswers_of_filter type (fun p hp => (hall p hp).2) hsome
    rw [putAll_nil] at hend
    refine ⟨answersOf m.bytes (lcs (text m.question)) type (m.placedRecords.map (rawAt m.bytes)),
      hend.trans ?_, (answers_filter hall).trans h.addresses⟩
    congr 2
    exact if_pos hany
  · omega
  · omega

end Response

/-! ## Captured replies -/

def githubCom : Name :=
  [⟨"github".toList, by decide, by decide⟩, ⟨"com".toList, by decide, by decide⟩]

/-- The reply of rubyfish.cn. -/
def rubyfishReply : Response where
  id := low 16 21953
  flags := low 8 129
  codes := low 8 128
  question := githubCom
  answers := [⟨⟨[], .pointer (low 14 12)⟩, low 16 typeA, low 16 classIN, low 32 37,
    "\xc0\x1e\xff\x71".toList, by decide⟩]
  authority := []
  additional := []
  qtype := low 16 typeA
  qclass := low 16 classIN
  owner := fun _ => githubCom

/-- The reply of 1.1.1.1, with its OPT record. -/
def oneOneOneOneReply : Response where
  id := low 16 61141
  flags := low 8 129
  codes := low 8 144
  question := githubCom
  answers := [⟨⟨githubCom, .root⟩, low 16 typeA, low 16 classIN, low 32 46,
    "\xc0\x1e\xff\x70".toList, by decide⟩]
  authority := []
  additional := [⟨⟨[], .root⟩, low 16 typeOPT, low 16 4096, low 32 0, [], by decide⟩]
  qtype := low 16 typeA
  qclass := low 16 classIN
  owner := fun o => if o = 28 then githubCom else []

section Captured

theorem decodes_githubCom {msg : List Char} {o : Nat}
    (h : Written.bytes ⟨githubCom, .root⟩ <+: msg.drop o) : Decodes msg o githubCom := by
  have hcom := prefix_behind (a := Label.wire ⟨"github".toList, by decide, by decide⟩) h
  have hroot := prefix_behind (a := Label.wire ⟨"com".toList, by decide, by decide⟩) hcom
  exact .label (prefix_front h) (.label (prefix_front hcom) (.root hroot))

theorem rubyfishReply_wellFormed : rubyfishReply.WellFormed "github.com".toList where
  response := by decide
  noError := by decide
  answers_lt := by decide
  authority_lt := by decide
  additional_lt := by decide
  size := by decide
  question := by decide
  queried := .inr (by decide)
  owners := by
    intro p hp
    obtain rfl := List.mem_singleton.mp hp
    refine ⟨.pointer (p := 12) (by decide) (by decide) (decodes_githubCom (by decide)), ?_⟩
    decide
  classes := by
    intro p hp
    obtain rfl := List.mem_singleton.mp hp
    exact .inl rfl
  lengthA := by decide
  lengthAAAA := by decide
  target := by
    intro p hp htype
    obtain rfl := List.mem_singleton.mp hp
    exact absurd htype (by decide)
  wanted := by decide

/-- The reply of rubyfish.cn is accepted. -/
theorem accepted_rubyfish : rubyfishReply.Accepted "github.com".toList [] typeA := by
  refine (Response.accepted_iff_readable "github.com".toList [] typeA rubyfishReply
    rubyfishReply_wellFormed).mpr ⟨fun _ => "github.com.".toList, by decide, ?_, by decide⟩
  intro p hp
  obtain rfl := List.mem_singleton.mp hp
  refine ⟨?_, rfl, by decide, fun h => absurd h (by decide), fun h => absurd h (by decide)⟩
  exact (nameRead_iff (by decide) (by decide)).mp (by decide +kernel)

theorem oneOneOneOneReply_wellFormed : oneOneOneOneReply.WellFormed "github.com".toList where
  response := by decide
  noError := by decide
  answers_lt := by decide
  authority_lt := by decide
  additional_lt := by decide
  size := by decide
  question := by decide
  queried := .inr (by decide)
  owners := by
    intro p hp
    rcases List.mem_pair.mp hp with rfl | rfl
    · exact ⟨decodes_githubCom (by decide), by decide⟩
    · exact ⟨.root (by decide), by decide⟩
  classes := by
    intro p hp
    rcases List.mem_pair.mp hp with rfl | rfl
    · exact .inl rfl
    · exact .inr ⟨rfl, rfl⟩
  lengthA := by decide
  lengthAAAA := by decide
  target := by
    intro p hp htype
    rcases List.mem_pair.mp hp with rfl | rfl
    · exact absurd htype (by decide)
    · exact absurd htype (by decide)
  wanted := by decide

/-- The reply of 1.1.1.1 is not: its last record is owned by the root. -/
theorem not_accepted_oneOneOneOne :
    oneOneOneOneReply.WellFormed "github.com".toList ∧
      ¬ oneOneOneOneReply.Accepted "github.com".toList [] typeA := by
  refine ⟨oneOneOneOneReply_wellFormed, ?_⟩
  rintro ⟨result, hret, -⟩
  have hfail : parseRfc8484 "github.com".toList typeA [] ([] ++ oneOneOneOneReply.bytes)
      (some 0) oneOneOneOneReply.bytes.length =
        .ret (-1, [⟨"github.com".toList, typeA, classIN, 46, "192.30.255.112".toList⟩]) := by
    decide +kernel
  rw [show ([] : List Char).length = 0 from rfl, hfail] at hret
  exact absurd (Prod.mk.inj (Outcome.ret.inj hret)).1 (by decide)

end Captured

end Hcpp.Dns
