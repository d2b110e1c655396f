import Hcpp.Dns.NameDecoding
import Hcpp.Dns.QueryForm
import Hcpp.Dns.RecordTurns
import Hcpp.Dns.GetReply

/-!
# The answer to a query that `make_query` made

A server echoes the question of the query and puts address records behind it,
whose owners point back to the question.  `parse_rfc8484` reads the question
with `qname2host` and compares it with the name and a dot: the two agree when
the encoder changed nothing, that is when the name has labels of 1 to 63 bytes
between its dots and no dot at its end.
-/

namespace Hcpp.Dns

open DomainName

/-- An address with its time to live. -/
structure AddressRecord where
  ttl : Fin (2 ^ 32)
  address : List Char
  length_eq : address.length = 4

/-- The record of class IN, owned by the name of the question. -/
def AddressRecord.record (a : AddressRecord) : Record where
  owner := ⟨[], .pointer (low 14 12)⟩
  type := low 16 typeA
  cls := low 16 classIN
  ttl := a.ttl
  rdata := a.address
  length_lt := by rw [a.length_eq]; decide

/-- The message that answers `query`: its id, flags with QR, RCODE 0, the counts, the question
as it is in the query, and the records. -/
def echo (query : List Char) (flags codes : Fin 256) (as : List AddressRecord) : List Char :=
  query.take 2 ++ [Char.ofNat flags, Char.ofNat codes] ++ be16 1 ++ be16 as.length ++ be16 0 ++
    be16 0 ++ query.drop 12 ++ as.flatMap fun a => a.record.bytes

/-! ## Reading names -/

section Names

variable {msg : List Char} {o : Nat}

/-- A written name is spelled as its text. -/
theorem spells_written {n : Name} (d : Nat) (h : Written.bytes ⟨n, .root⟩ <+: msg.drop o) :
    Spells msg d o ((wire n).length + 1) (text n) := by
  induction n generalizing o with
  | nil =>
    have hroot : Ending.root.bytes <+: msg.drop o := h
    have hle := length_le_append (List.cons_ne_nil _ _) hroot
    exact .zero (by omega) (byteAt_root hroot)
  | cons l n ih =>
    have hall : l.wire ++ Written.bytes ⟨n, .root⟩ <+: msg.drop o := by
      simpa [Written.bytes] using h
    have hl := prefix_front hall
    have hbyte := byteAt_wire hl
    have hfits := wire_fits hl
    have htake := take_wire hl
    have hpos := l.length_pos
    have hle := l.le
    have hrest := ih (prefix_behind hall)
    rw [Label.length_wire, ← hbyte] at hrest
    have hlab := Spells.label (by omega) (by omega) (by omega) hrest
    rw [hbyte, htake] at hlab
    rw [text_cons, wire_cons, List.length_append, Label.length_wire, Nat.add_assoc]
    exact hlab

/-- A pointer to it, with no more than a low byte. -/
theorem spells_pointer {n : Name} {p : Fin 16384} (d : Nat)
    (h : (Ending.pointer p).bytes <+: msg.drop o) (hlow : p.val < 256)
    (hn : Written.bytes ⟨n, .root⟩ <+: msg.drop p) : Spells msg (d + 1) o 2 (text n) := by
  have hbyte := byteAt_pointer h
  have htarget := lowTarget_pointer h
  rw [Nat.mod_eq_of_lt hlow] at htarget
  have hend : o + 2 ≤ msg.length := length_le_append (List.cons_ne_nil _ _) h
  have hlt : p.val < msg.length := by
    have hle := length_le_append (by simp [Written.bytes, Ending.bytes]) hn
    have hpos : 0 < (Written.bytes ⟨n, .root⟩).length := by simp [Written.bytes, Ending.bytes]
    omega
  have hdiv : p.val / 256 = 0 := by omega
  refine .jump (by omega) ?_ (by omega) (by omega) (htarget ▸ spells_written d hn)
  rw [hbyte, hdiv]
  decide

/-- What spells a text of a name is read so. -/
theorem qname2host_of_spells {size : Nat} {t : List Char} (ho : 0 < o) (hle : o ≤ msg.length)
    (h : Spells msg 10 o size t) (hne : t ≠ []) (hlen : t.length ≤ 255) :
    qname2host msg o = .ret ((size : Int), t) := by
  have hpos := List.length_pos_of_ne_nil hne
  rcases qname2host_spells ho hle with ⟨size', t', h', hret⟩ | ⟨hno, -⟩
  · obtain ⟨rfl, rfl⟩ := h.unique h'
    rw [hret, returned, if_neg (by omega), if_neg (by omega)]
  · exact absurd h (hno _ _)

end Names

/-! ## The pieces of the name -/

/-- The labels between the dots, when each has 1 to 63 bytes. -/
def PlainLabels (name : List Char) : Prop :=
  ∀ l ∈ name.splitOn '.', l ≠ [] ∧ l.length ≤ dnsMaxLabel

theorem dotPieces_append (ps qs : List (List Char)) :
    dotPieces (ps ++ qs) = dotPieces ps ++ dotPieces qs := List.flatMap_append

theorem dotPieces_splitOn (name : List Char) : dotPieces (name.splitOn '.') = name ++ ['.'] := by
  have hjoin : ∀ ls : List (List Char), ls ≠ [] →
      dotPieces ls = ['.'].intercalate ls ++ ['.'] := by
    intro ls hne
    induction ls with
    | nil => exact absurd rfl hne
    | cons l ls ih =>
      cases ls with
      | nil => simp [dotPieces, List.intercalate]
      | cons l' ls =>
        have hcons : dotPieces (l :: l' :: ls) = l ++ ['.'] ++ dotPieces (l' :: ls) :=
          List.flatMap_cons
        rw [hcons, ih (List.cons_ne_nil _ _)]
        simp [List.intercalate]
  rw [hjoin _ (List.splitOn_ne_nil _ _), List.intercalate_splitOn]

/-- The dots of a text with short labels cut it into short pieces. -/
theorem Cut.short_pieces {t last : List Char} {ps : List (List Char)} (h : Cut t ps last)
    (hs : ShortLabels t) : ∀ l ∈ t.splitOn '.', l.length ≤ dnsMaxLabel := by
  have hfirst {p u : List Char} (hp : '.' ∉ p) (hs : ShortLabels (p ++ u)) :
      p.length ≤ dnsMaxLabel := by
    have h0 := hs 0
    rw [List.drop_zero, List.takeWhile_append_of_pos, List.length_append] at h0
    · omega
    · intro c hc
      simp only [ne_eq, decide_eq_true_eq]
      rintro rfl
      exact hp hc
  induction h with
  | @last t h =>
    rw [List.splitOn_eq_singleton h]
    intro l hl
    rw [List.mem_singleton.mp hl]
    exact hfirst (u := []) h (by rw [List.append_nil]; exact hs)
  | @short p r last ps hp hle _ ih =>
    rw [List.splitOn_append_cons_self, List.splitOn_eq_singleton hp]
    intro l hl
    rcases List.mem_append.mp hl with hl | hl
    · rw [List.mem_singleton.mp hl]
      exact hle
    · have hr := hs.drop (p.length + 1)
      rw [List.drop_length_add_append] at hr
      exact ih hr l hl
  | long hp hlt _ _ => exact absurd (hfirst hp hs) (by omega)

/-- What is spelled where pieces are written: up to the first that is empty. -/
theorem spells_pieces {msg : List Char} {d o size : Nat} {t : List Char}
    {ps : List (List Char)} (hle : ∀ p ∈ ps, p.length ≤ dnsMaxLabel)
    (h : wirePieces ps ++ [nul] <+: msg.drop o) (ht : Spells msg d o size t) :
    t = dotPieces (ps.takeWhile fun p => decide (p ≠ [])) := by
  have hzero (h0 : byteAt msg o = 0) : t = [] := by
    cases ht with
    | zero _ _ => rfl
    | label hpos _ _ _ => omega
    | jump hmax _ _ _ _ => omega
  induction ps generalizing o size t with
  | nil =>
    apply hzero
    unfold byteAt
    rw [getD_at_drop h]
    rfl
  | cons p ps ih =>
    have hp : p.length ≤ 63 := hle p List.mem_cons_self
    rw [wirePieces_cons, List.append_assoc] at h
    have hbyte : byteAt msg o = p.length := by
      unfold byteAt
      rw [getD_at_drop h, toNat_byte _ (by omega)]
    by_cases hnil : p = []
    · subst hnil
      rw [hzero hbyte]
      rfl
    · have hpos := List.length_pos_of_ne_nil hnil
      obtain ⟨hfits, size', t', -, rfl, hrest⟩ := ht.of_label (by omega) (by omega)
      have htake : (msg.drop (o + 1)).take p.length = p := by
        obtain ⟨u, hu⟩ := h
        rw [← List.drop_drop, ← hu]
        simp
      have hnext : wirePieces ps ++ [nul] <+: msg.drop (o + (byteAt msg o + 1)) := by
        have hbehind := prefix_behind h
        rwa [List.length_cons, ← hbyte] at hbehind
      have hzero' (h0 : byteAt msg (o + (byteAt msg o + 1)) = 0) : t' = [] := by
        cases hrest with
        | zero _ _ => rfl
        | label hpos _ _ _ => omega
        | jump hmax _ _ _ _ => omega
      have hrec := ih (fun q hq => hle q (List.mem_cons_of_mem _ hq)) hnext hrest hzero'
      rw [hbyte, htake, hrec, List.takeWhile_cons_of_pos (by simpa using hnil)]
      simp [dotPieces]

/-- Pieces that spell as many bytes as all of them, none of them is empty. -/
theorem ne_nil_of_length {ps : List (List Char)}
    (h : (dotPieces (ps.takeWhile fun p => decide (p ≠ []))).length = (dotPieces ps).length) :
    ∀ p ∈ ps, p ≠ [] := by
  induction ps with
  | nil => simp
  | cons p ps ih =>
    by_cases hp : p = []
    · subst hp
      rw [List.takeWhile_cons_of_neg (by simp)] at h
      simp [dotPieces] at h
    · rw [List.takeWhile_cons_of_pos (by simpa using hp)] at h
      have hrest := ih (by simpa [dotPieces] using h)
      rintro q hq
      rcases List.mem_cons.mp hq with rfl | hq
      · exact hp
      · exact hrest q hq

/-! ## The records -/

/-- The answer that an address should become. -/
def AddressRecord.answer (name : List Char) (a : AddressRecord) : AnswerT :=
  ⟨name, typeA, classIN, a.ttl, dotted a.address⟩

/-- The loop goes past all the records, and puts their addresses into `result`. -/
theorem walk_echo {msg : List Char} {n : Name} {o : Nat} (type : Nat) (as : List AddressRecord)
    (hne : n ≠ []) (hlen : (text n).length ≤ 255) (ho : 0 < o)
    (hn : Written.bytes ⟨n, .root⟩ <+: msg.drop 12)
    (h : msg.drop o = as.flatMap fun a => a.record.bytes) :
    ∃ rs, Walk msg (lcs (text n)) o rs (max o msg.length) ∧
      answersOf msg (lcs (text n)) type rs = as.map (AddressRecord.answer (text n).dropLast) ∧
      anyAnswers (lcs (text n)) type rs = !as.isEmpty := by
  induction as generalizing o with
  | nil =>
    have hend : msg.length ≤ o := List.drop_eq_nil_iff.mp h
    rw [Nat.max_eq_left hend]
    exact ⟨[], .nil o, rfl, rfl⟩
  | cons a as ih =>
    rw [List.flatMap_cons] at h
    have hstands : a.record.bytes <+: msg.drop o := by
      rw [h]
      exact List.prefix_append _ _
    have hrest : msg.drop (o + a.record.bytes.length) = as.flatMap fun a => a.record.bytes := by
      rw [← List.drop_drop, h, List.drop_left]
    have hf := fields_stand hstands
    have hfits := hf.fits
    have hhead := a.record.length_head
    have hbytes := a.record.length_bytes
    have howner : (Ending.pointer (low 14 12)).bytes <+: msg.drop o :=
      prefix_front (prefix_front hstands)
    have hq := qname2host_of_spells ho (by omega)
      (spells_pointer 9 howner (by decide) hn) (text_ne_nil hne) hlen
    have hread : nameRead msg o = some (text n) := by
      rw [nameRead, hq]
      rfl
    have h4 : a.record.rdata.length = 4 := a.length_eq
    have hraw : rawRecord msg o = some ⟨text n, typeA, a.ttl, o + a.record.head.length, 4⟩ := by
      have hdata : a.record.rdata ≠ [] := List.ne_nil_of_length_pos (by omega)
      rw [rawRecord_stands hstands, if_pos ⟨by rw [hread]; rfl, rfl, hdata⟩, rawAt, hread, h4]
      rfl
    have hown : RawRecord.Owned (lcs (text n)) typeA
        ⟨text n, typeA, a.ttl, o + a.record.head.length, 4⟩ := ⟨rfl, rfl⟩
    obtain ⟨rs, hw, hans, -⟩ := ih (o := o + a.record.bytes.length) (by omega) hrest
    have hnext : RawRecord.next ⟨text n, typeA, a.ttl, o + a.record.head.length, 4⟩ =
        o + a.record.bytes.length := by
      show o + a.record.head.length + 4 = _
      omega
    have hmax : max (o + a.record.bytes.length) msg.length = max o msg.length := by omega
    rw [hmax, ← hnext] at hw
    refine ⟨_ :: rs, .cons (by omega) hraw ?_ hw, ?_, ?_⟩
    · exact ⟨fun _ => rfl, fun h => absurd (show typeA = typeAAAA from h.1) (by decide),
        fun h => absurd (show typeA = typeCNAME from h) (by decide)⟩
    · have hdata := take_front hf.rdata
      rw [h4] at hdata
      have hone : RawRecord.answer msg (lcs (text n)) type
          ⟨text n, typeA, a.ttl, o + a.record.head.length, 4⟩ =
            [AddressRecord.answer (text n).dropLast a] := by
        rw [RawRecord.answer, if_pos hown, hdata]
        rfl
      have hall : answersOf msg (lcs (text n)) type
          (⟨text n, typeA, a.ttl, o + a.record.head.length, 4⟩ :: rs) =
            RawRecord.answer msg (lcs (text n)) type
              ⟨text n, typeA, a.ttl, o + a.record.head.length, 4⟩ ++
            answersOf msg (lcs (text n)) type rs := List.flatMap_cons
      rw [hall, hone, hans]
      rfl
    · exact (congrArg (· || _) (decide_eq_true (.inl hown))).trans (Bool.true_or _)

/-! ## The question -/

section Question

variable {name : List Char} {flags codes : Fin 256} {as : List AddressRecord} {id : Nat}
  {ps : List (List Char)}

/-- The id of a query, in the order of the host. -/
theorem take_query : (queryBytes id ps typeA).take 2 =
    [Char.ofNat (id % 256), Char.ofNat (id / 256 % 256)] := by
  unfold queryBytes queryHeader
  simp only [List.append_assoc]
  rfl

/-- Behind the header of the answer stand the pieces of the name. -/
theorem drop_echo : (echo (queryBytes id ps typeA) flags codes as).drop 12 =
    wirePieces ps ++ [nul] ++ (be16 typeA ++ be16 classIN ++
      as.flatMap fun a => a.record.bytes) := by
  have hquery : (queryBytes id ps typeA).drop 12 =
      wirePieces ps ++ [nul] ++ (be16 typeA ++ be16 classIN) := by
    have hheader : (queryHeader id).length = 12 := rfl
    rw [queryBytes, List.append_assoc, List.append_assoc, List.drop_left' hheader]
  have hfront : ([Char.ofNat (id % 256), Char.ofNat (id / 256 % 256)] ++
      [Char.ofNat flags, Char.ofNat codes] ++ be16 1 ++ be16 as.length ++ be16 0 ++
        be16 0).length = 12 := rfl
  rw [echo, take_query, List.append_assoc, List.drop_left' hfront, hquery]
  simp only [List.append_assoc]

theorem length_echo : (echo (queryBytes id ps typeA) flags codes as).length =
    12 + ((wirePieces ps).length + 1 + (4 + (as.flatMap fun a => a.record.bytes).length)) := by
  have hdrop := congrArg List.length (@drop_echo flags codes as id ps)
  have hlong : 12 ≤ (echo (queryBytes id ps typeA) flags codes as).length := by
    have hhead : (echo (queryBytes id ps typeA) flags codes as).length =
        12 + ((queryBytes id ps typeA).drop 12 ++ as.flatMap fun a => a.record.bytes).length := by
      rw [echo, take_query, List.append_assoc, List.length_append]
      rfl
    omega
  simp only [List.length_drop, List.length_append, List.length_singleton, length_be16] at hdrop
  omega

/-- The flags and the codes of the answer. -/
theorem echo_flags :
    (echo (queryBytes id ps typeA) flags codes as).getD 2 nul = Char.ofNat flags ∧
      (echo (queryBytes id ps typeA) flags codes as).getD 3 nul = Char.ofNat codes := by
  rw [echo, take_query]
  exact ⟨rfl, rfl⟩

/-- The question passes only where each piece is a label, and the text is the name. -/
theorem plainLabels_of_asked {ls : List (List Char)} {last fqdn : List Char} {o : Nat}
    (hls : name.splitOn '.' = ls ++ [last]) (hid : ps = sentPieces (ls.flatMap cutLabel) last)
    (h : asked name (echo (queryBytes id ps typeA) flags codes as) = some (fqdn, o)) :
    PlainLabels name := by
  generalize hmsg : echo (queryBytes id ps typeA) flags codes as = msg at h
  obtain ⟨v, t, hpos, hq, hsame⟩ : ∃ v t, 0 < v ∧ qname2host msg 12 = .ret (v, t) ∧
      lcs (name ++ ['.']) = lcs t := by
    unfold asked at h
    split at h
    · cases h
    · split at h
      · next v t hq =>
        split_ifs at h with hno
        refine ⟨v, t, by omega, hq, ?_⟩
        by_contra hne
        exact hno (.inr (.inr hne))
      · cases h
  have hle : 12 ≤ msg.length := by
    rw [← hmsg, length_echo]
    omega
  -- what was read has short labels, so the name has
  have hread : nameRead msg 12 = some t := by
    rw [nameRead, hq]
    exact if_pos hpos
  obtain ⟨v', n, -, -, hne, htext, -⟩ := nameRead_eq_some hle hread
  have hshort : ShortLabels name :=
    ((shortLabels_text n).congr (htext ▸ hsame.symm)).of_append
  obtain ⟨ps', last', hcut, -⟩ := splitHostLoop_cut name (name.length + 1) 0 [] (by omega)
  have hlabels := hcut.short_pieces hshort
  rw [List.drop_zero] at hlabels
  -- so nothing was cut
  have hcut_eq : ls.flatMap cutLabel = ls := flatMap_cutLabel fun l hl =>
    hlabels l (by rw [hls]; exact List.mem_append.mpr (.inl hl))
  rw [hcut_eq] at hid
  have hsmall : ∀ p ∈ ps, p.length ≤ dnsMaxLabel := by
    intro p hp
    rw [hid] at hp
    apply hlabels
    rw [hls]
    rcases mem_sentPieces.mp hp with hp | ⟨-, rfl⟩
    · exact List.mem_append.mpr (.inl hp)
    · exact List.mem_append.mpr (.inr (List.mem_singleton.mpr rfl))
  have hstands : wirePieces ps ++ [nul] <+: msg.drop 12 := by
    rw [← hmsg, drop_echo]
    exact List.prefix_append _ _
  obtain ⟨size, hspell, -⟩ := (nameRead_iff (by decide) hle).mp hread
  have ht := spells_pieces hsmall hstands hspell
  have hlen : t.length = (dotPieces (ls ++ [last])).length := by
    rw [← hls, dotPieces_splitOn]
    have hlcs := congrArg List.length hsame
    simpa [lcs] using hlcs.symm
  have hlast : last ≠ [] := by
    rintro rfl
    have hsent : ps = ls := hid.trans (if_pos rfl)
    have hprefix : (dotPieces (ls.takeWhile fun p => decide (p ≠ []))).length ≤
        (dotPieces ls).length := by
      conv_rhs => rw [← List.takeWhile_append_dropWhile (p := fun p => decide (p ≠ [])) (l := ls)]
      rw [dotPieces_append, List.length_append]
      omega
    rw [ht, hsent, dotPieces_append, List.length_append] at hlen
    have hone : (dotPieces [([] : List Char)]).length = 1 := rfl
    omega
  have hsent : ps = ls ++ [last] := hid.trans (if_neg hlast)
  rw [ht, hsent] at hlen
  intro l hl
  exact ⟨ne_nil_of_length hlen l (hls ▸ hl), hlabels l hl⟩

end Question

/-! ## The answer -/

/-- The parser takes the reply, and finds these addresses in it. -/
def Finds (name reply : List Char) (type : Nat) (contentIdx : Option Nat) (cl : Nat)
    (as : List AddressRecord) : Prop :=
  ∃ r, parseRfc8484 name type [] reply contentIdx cl = .ret (1, r) ∧
    r.map AnswerT.rdata = as.map fun a => dotted a.address

section Answer

variable {name query : List Char} {now : Nat} {t : List Char}

/-- What `make_query` sent is the bytes of a query. -/
theorem query_eq (hv : validName name = true) (ht : makeQuery now name typeA = .ret t)
    (hq : Base64Url.decode t = some query) :
    ∃ ls last, name.splitOn '.' = ls ++ [last] ∧
      query = queryBytes (now % 0xffff) (sentPieces (ls.flatMap cutLabel) last) typeA := by
  obtain ⟨ls, last, t', hls, -, hret, -, hdec⟩ := makeQuery_valid now typeA hv
  rw [ht, Outcome.ret.injEq] at hret
  subst hret
  rw [hq, Option.some.injEq] at hdec
  exact ⟨ls, last, hls, hdec⟩

/-- Plain labels are sent as they are: they are the labels of a name, whose text is the name
with a dot. -/
theorem exists_sentName {ls : List (List Char)} {last : List Char}
    (hls : name.splitOn '.' = ls ++ [last]) (h : PlainLabels name) :
    ∃ n : Name, n ≠ [] ∧ wirePieces (sentPieces (ls.flatMap cutLabel) last) = wire n ∧
      text n = name ++ ['.'] := by
  have hmem : ∀ l ∈ ls ++ [last], l ≠ [] ∧ l.length ≤ 63 := fun l hl => h l (hls ▸ hl)
  obtain ⟨n, hn⟩ := exists_name hmem
  have hcut : ls.flatMap cutLabel = ls := flatMap_cutLabel fun l hl =>
    (hmem l (List.mem_append.mpr (.inl hl))).2
  have hlast : last ≠ [] := (hmem last (by simp)).1
  have hsent : sentPieces (ls.flatMap cutLabel) last = ls ++ [last] := by
    rw [hcut]
    exact if_neg hlast
  refine ⟨n, ?_, ?_, ?_⟩
  · rintro rfl
    simp at hn
  · rw [hsent, ← hn, wirePieces_labels]
  · have htext : text n = dotPieces (n.map Label.bytes) := by
      unfold text dotPieces
      rw [List.flatMap_map]
    rw [htext, hn, ← hls, dotPieces_splitOn]

/-- The question of the answer passes when the name has plain labels. -/
theorem asked_echo {ps : List (List Char)} {id : Nat} {flags codes : Fin 256}
    {as : List AddressRecord} {n : Name} (hwire : wirePieces ps = wire n)
    (htext : text n = name ++ ['.']) (hlen : (text n).length ≤ 255) (hqr : 128 ≤ flags.val)
    (hrcode : codes.val % 16 = 0) (has : as ≠ []) :
    asked name (echo (queryBytes id ps typeA) flags codes as) =
      some (lcs (text n), 12 + ((wire n).length + 1) + 4) := by
  have hsize := @length_echo flags codes as id ps
  have hrecords : 0 < (as.flatMap fun a => a.record.bytes).length := by
    obtain ⟨a, as', rfl⟩ := List.exists_cons_of_ne_nil has
    rw [List.flatMap_cons, List.length_append, Record.length_bytes]
    omega
  have hflags := flags.isLt
  have hstands : Written.bytes ⟨n, .root⟩ <+:
      (echo (queryBytes id ps typeA) flags codes as).drop 12 := by
    rw [drop_echo, hwire]
    exact List.prefix_append _ _
  obtain ⟨h2, h3⟩ := @echo_flags flags codes as id ps
  rw [hwire] at hsize
  rw [asked_stands (by rw [h2, toNat_byte _ flags.isLt]; omega)
    (by rw [h3, toNat_byte _ codes.isLt]; exact hrcode) hstands hlen, if_pos]
  exact ⟨by omega, by rw [htext]⟩

/-- A reply that carries the message is parsed as the message. -/
theorem parseRfc8484_body {reply msg : List Char} {type cl : Nat} {contentIdx : Option Nat}
    (hbody : replyBody reply contentIdx cl = .ret (some msg)) :
    parseRfc8484 name type [] reply contentIdx cl =
      match asked name msg with
      | none => .ret (-1, [])
      | some (fqdn, o) => recordLoop msg fqdn type (msg.length + 1) o 0 [] false := by
  rw [parseRfc8484, hbody, Outcome.ret_bind]
  exact parseMessage_asked name type [] msg

/-- Where the addresses are found, the question has passed. -/
theorem plainLabels_of_finds {reply : List Char} {type cl : Nat} {contentIdx : Option Nat}
    {flags codes : Fin 256} {as : List AddressRecord} (hv : validName name = true)
    (ht : makeQuery now name typeA = .ret t) (hquery : Base64Url.decode t = some query)
    (hbody : replyBody reply contentIdx cl = .ret (some (echo query flags codes as)))
    (h : Finds name reply type contentIdx cl as) : PlainLabels name := by
  obtain ⟨ls, last, hls, rfl⟩ := query_eq hv ht hquery
  obtain ⟨r, hret, -⟩ := h
  rw [parseRfc8484_body hbody] at hret
  cases ha : asked name (echo (queryBytes (now % 0xffff)
    (sentPieces (ls.flatMap cutLabel) last) typeA) flags codes as) with
  | none =>
    rw [ha] at hret
    cases hret
  | some p => exact plainLabels_of_asked hls rfl ha

/-- **Query and answer agree.**  For a valid name, from a reply that carries the answer to the
query that `make_query` made, with one address or more, the parser takes these addresses
exactly where the name has labels of 1 to 63 bytes between its dots. -/
theorem finds_iff_plainLabels (now : Nat) (name t query reply : List Char) (type : Nat)
    (contentIdx : Option Nat) (cl : Nat) (flags codes : Fin 256) (as : List AddressRecord)
    (hv : validName name = true) (ht : makeQuery now name typeA = .ret t)
    (hquery : Base64Url.decode t = some query) (hqr : 128 ≤ flags.val)
    (hrcode : codes.val % 16 = 0) (has : as ≠ [])
    (hbody : replyBody reply contentIdx cl = .ret (some (echo query flags codes as))) :
    Finds name reply type contentIdx cl as ↔ PlainLabels name := by
  constructor
  · exact plainLabels_of_finds hv ht hquery hbody
  · intro hplain
    obtain ⟨ls, last, hls, rfl⟩ := query_eq hv ht hquery
    obtain ⟨n, hne, hwire, htext⟩ := exists_sentName hls hplain
    have hlen : (text n).length ≤ 255 := by
      have := (validName_length hv).2
      rw [htext, List.length_append, List.length_singleton]
      omega
    have ha := @asked_echo name _ (now % 0xffff) flags codes as n hwire htext hlen hqr hrcode has
    have ho := asked_le ha
    unfold Finds
    rw [parseRfc8484_body hbody]
    generalize hm : echo (queryBytes (now % 0xffff) (sentPieces (ls.flatMap cutLabel) last) typeA)
      flags codes as = msg at ha ho ⊢
    have hdrop : msg.drop 12 = wire n ++ [nul] ++ (be16 typeA ++ be16 classIN ++
        as.flatMap fun a => a.record.bytes) := by
      rw [← hm, drop_echo, hwire]
    have hrecords : msg.drop (12 + ((wire n).length + 1) + 4) =
        as.flatMap fun a => a.record.bytes := by
      rw [Nat.add_assoc, ← List.drop_drop, hdrop, ← List.append_assoc, List.drop_left']
      simp
    obtain ⟨rs, hw, hans, hany⟩ := walk_echo type as hne hlen (by omega)
      (by rw [hdrop]; exact List.prefix_append _ _) hrecords
    have hmax : max (12 + ((wire n).length + 1) + 4) msg.length = msg.length := by omega
    rw [hmax] at hw
    have hstop : StopsAt msg (lcs (text n)) msg.length := fun r _ hlt => absurd hlt (by omega)
    rw [ha]
    rcases recordLoop_end hw hstop ho type (msg.length + 1) [] (by omega) with
      ⟨-, hret⟩ | ⟨⟨hlt, -⟩, -⟩ | ⟨hlt, -⟩
    · have hsome : as.isEmpty = false := List.isEmpty_eq_false_iff.mpr has
      rw [hany, hsome, hans, putAll_nil] at hret
      refine ⟨_, hret, ?_⟩
      rw [List.map_map]
      rfl
    · omega
    · omega

end Answer

/-- The address of this host. -/
def loopback : AddressRecord where
  ttl := ⟨60, by decide⟩
  address := "\x7f\x00\x00\x01".toList
  length_eq := rfl

/-- `a.b` -/
theorem finds_iff_plainLabels_dotted :
    Finds "a.b".toList (echo (queryBytes 0 [['a'], ['b']] typeA) 128 0 [loopback]) typeA
      (some 0) 37 [loopback] :=
  (finds_iff_plainLabels 0 "a.b".toList "AAABAAABAAAAAAAAAWEBYgAAAQAB".toList
    (queryBytes 0 [['a'], ['b']] typeA) _ typeA (some 0) 37 128 0 [loopback] (by decide)
    (by decide +kernel) (by decide +kernel) (by decide) (by decide) (List.cons_ne_nil _ _)
    (by decide +kernel)).mpr (by unfold PlainLabels; decide)

/-- The dot at the end of `a.` is not in the query, but one more is expected in the answer. -/
theorem finds_trailing_dot :
    validName "a.".toList = true ∧
      makeQuery 0 "a.".toList typeA = .ret "AAABAAABAAAAAAAAAWEAAAEAAQ".toList ∧
      Base64Url.decode "AAABAAABAAAAAAAAAWEAAAEAAQ".toList =
        some (queryBytes 0 [['a']] typeA) ∧
      ¬ Finds "a.".toList (echo (queryBytes 0 [['a']] typeA) 128 0 [loopback]) typeA (some 0) 35
        [loopback] := by
  have ht : makeQuery 0 "a.".toList typeA = .ret "AAABAAABAAAAAAAAAWEAAAEAAQ".toList := by
    decide +kernel
  have hquery : Base64Url.decode "AAABAAABAAAAAAAAAWEAAAEAAQ".toList =
      some (queryBytes 0 [['a']] typeA) := by decide +kernel
  refine ⟨by decide, ht, hquery, ?_⟩
  intro h
  have hbody : replyBody (echo (queryBytes 0 [['a']] typeA) 128 0 [loopback]) (some 0) 35 =
      .ret (some (echo (queryBytes 0 [['a']] typeA) 128 0 [loopback])) := by decide +kernel
  have hplain := plainLabels_of_finds (by decide) ht hquery hbody h
  exact (hplain [] (by decide)).1 rfl

end Hcpp.Dns
