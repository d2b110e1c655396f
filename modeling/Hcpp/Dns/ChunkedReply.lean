import Hcpp.Dns.DnsHttps
import Hcpp.Http.TransferChunk

/-!
# A chunked reply of the name server

`parse_rfc8484` takes a body without a length apart chunk by chunk.  What it makes of
the bytes received so far is known for every chunked body and every place where the
bytes may end: the message is what the chunks hold, once the line of the last chunk has
come, and there is none before that.  It is then the message of the same reply with a
`Content-Length`.

    IsHead head → b.Plain → p <+: b.encode →
      chunkedBody (head ++ p) = .ret (if b.Fits ∧ b.Complete p then some b.payload else none)
-/

namespace Hcpp.Dns

/-- The first CRLFCRLF ends the text. -/
def IsHead (head : List Char) : Prop := Search.find crlfcrlf head = some (head.length - 4)

end Hcpp.Dns

namespace Hcpp

open Dns

/-- `strtoul` would take an `x` behind the digit 0 for a mark of the base. -/
def SizeLine.Plain (l : SizeLine) : Prop := ∀ c, l.ext.head? = some c → c ≠ 'x' ∧ c ≠ 'X'

namespace ChunkedBody

def Plain (b : ChunkedBody) : Prop := (∀ c ∈ b.chunks, c.line.Plain) ∧ b.last.Plain

/-- `cl > 65535` holds of no chunk. -/
def Fits (b : ChunkedBody) : Prop := ∀ c ∈ b.chunks, c.data.length ≤ 65535

/-- The bytes `p` received go to the end of the last chunk's line at least. -/
def Complete (b : ChunkedBody) (p : List Char) : Prop :=
  (b.chunks.flatMap Chunk.encode ++ b.last.encode).length ≤ p.length

/-- What the chunks hold. -/
def payload (b : ChunkedBody) : List Char := b.chunks.flatMap Chunk.data

instance (b : ChunkedBody) : Decidable b.Fits :=
  inferInstanceAs (Decidable (∀ c ∈ b.chunks, c.data.length ≤ 65535))

instance (b : ChunkedBody) (p : List Char) : Decidable (b.Complete p) :=
  inferInstanceAs (Decidable (_ ≤ _))

end ChunkedBody

/-! ## The size -/

theorem isSpace_of_isHex {c : Char} (h : isHex c = true) : isSpace c = false := by
  have hne : c ≠ ' ' := ne_of_class h (by decide)
  have hge : 48 ≤ c.toNat := by
    rcases hex_cases h with h | h | h <;> omega
  have hval : c.val.toNat = c.toNat := rfl
  have hr : ('\r' : Char).val.toNat = 13 := rfl
  simp only [isSpace, hne, decide_false, Bool.false_or, Bool.and_eq_false_iff,
    decide_eq_false_iff_not, Char.le_def, UInt32.le_iff_toNat_le]
  omega

/-- The digits end where the extension or the CRLF begins. -/
theorem SizeLine.takeWhile_encode (l : SizeLine) (t : List Char) :
    (l.encode ++ t).takeWhile isHex = l.digits := by
  rw [encode, text, List.append_assoc, List.append_assoc,
    List.takeWhile_append_of_pos fun c hc => l.hex c hc]
  have hstop : ∀ c, (l.ext ++ (crlf ++ t)).head? = some c → isHex c = false := by
    intro c hc
    cases hext : l.ext with
    | nil =>
      rw [hext, List.nil_append] at hc
      obtain rfl : '\r' = c := by simpa [crlf] using hc
      decide
    | cons d ds =>
      rw [hext] at hc
      obtain rfl : d = c := by simpa using hc
      exact l.ext_head d (by simp [hext])
  cases hrest : l.ext ++ (crlf ++ t) with
  | nil => simp
  | cons c cs => simp [hstop c (by simp [hrest])]

/-- No mark of the base stands in a plain line. -/
theorem SizeLine.no_mark {l : SizeLine} (hl : l.Plain) (t : List Char) :
    ¬ ((l.encode ++ t).take 2 = ['0', 'x'] ∨ (l.encode ++ t).take 2 = ['0', 'X']) := by
  obtain ⟨d, ds, hd⟩ := List.exists_cons_of_ne_nil l.digits_ne
  have hsecond : ∀ c, (ds ++ (l.ext ++ (crlf ++ t))).head? = some c → c ≠ 'x' ∧ c ≠ 'X' := by
    intro c hc
    cases hds : ds with
    | cons e es =>
      rw [hds] at hc
      obtain rfl : e = c := by simpa using hc
      have hhex := l.hex e (by simp [hd, hds])
      exact ⟨ne_of_class hhex (by decide), ne_of_class hhex (by decide)⟩
    | nil =>
      cases hext : l.ext with
      | cons e es =>
        rw [hds, hext] at hc
        obtain rfl : e = c := by simpa using hc
        exact hl e (by simp [hext])
      | nil =>
        rw [hds, hext] at hc
        obtain rfl : '\r' = c := by simpa [crlf] using hc
        decide
  have hshape : l.encode ++ t = d :: (ds ++ (l.ext ++ (crlf ++ t))) := by
    simp [encode, text, hd]
  rw [hshape]
  cases hrest : ds ++ (l.ext ++ (crlf ++ t)) with
  | nil => simp
  | cons c cs =>
    have hc := hsecond c (by simp [hrest])
    rintro (h | h) <;> simp_all

/-- **The size is read as what the digits say**, as far as 64 bits go. -/
theorem SizeLine.strtoul_encode {l : SizeLine} (hl : l.Plain) (t : List Char) :
    strtoul 16 (l.encode ++ t) = if l.value ≥ 2 ^ 64 then 2 ^ 64 - 1 else l.value := by
  obtain ⟨d, ds, hd⟩ := List.exists_cons_of_ne_nil l.digits_ne
  have hhex := l.hex d (by simp [hd])
  have hshape : l.encode ++ t = d :: (ds ++ (l.ext ++ (crlf ++ t))) := by
    simp [encode, text, hd]
  have hdrop : (l.encode ++ t).dropWhile isSpace = l.encode ++ t := by
    rw [hshape, List.dropWhile_cons, isSpace_of_isHex hhex]
    rfl
  have hminus : (l.encode ++ t).head? ≠ some '-' := by
    rw [hshape, List.head?_cons, ne_eq, Option.some.injEq]
    exact ne_of_class hhex (by decide)
  have hplus : (l.encode ++ t).head? ≠ some '+' := by
    rw [hshape, List.head?_cons, ne_eq, Option.some.injEq]
    exact ne_of_class hhex (by decide)
  unfold strtoul
  simp only [hdrop, hminus, hplus, or_self, if_false, SizeLine.no_mark hl t, false_and, and_false,
    if_true]
  rw [l.takeWhile_encode t]
  rfl

/-- A chunk is never taken for the last one, and is too long exactly when its data is. -/
theorem Chunk.strtoul_encode {c : Chunk} (hc : c.line.Plain) (t : List Char) :
    strtoul 16 (c.line.encode ++ t) ≠ 0 ∧
      (c.data.length ≤ 65535 → strtoul 16 (c.line.encode ++ t) = c.data.length) ∧
      (65535 < c.data.length → 65535 < strtoul 16 (c.line.encode ++ t)) := by
  have hpos : 0 < c.data.length := List.length_pos_of_ne_nil c.data_ne
  rw [SizeLine.strtoul_encode hc, c.size]
  by_cases hbig : c.data.length ≥ 2 ^ 64
  · rw [if_pos hbig]
    refine ⟨by omega, fun h => ?_, fun _ => by omega⟩
    omega
  · rw [if_neg hbig]
    exact ⟨by omega, fun _ => rfl, id⟩

theorem ChunkedBody.strtoul_last {b : ChunkedBody} (hb : b.last.Plain) (t : List Char) :
    strtoul 16 (b.last.encode ++ t) = 0 := by
  have hzero : b.last.value = 0 := stoul_eq_zero b.zeros
  rw [SizeLine.strtoul_encode hb, hzero, if_neg (by omega)]

namespace Dns

/-! ## The loop -/

/-- A line of which the end has not come. -/
theorem chunkLoop_short {pre p rest : List Char} {l : SizeLine} {fuel : Nat} {acc : List Char}
    (hp : p <+: l.encode ++ rest) (hlen : p.length < l.encode.length) (hfuel : p.length < fuel) :
    chunkLoop (pre ++ p) fuel pre.length acc = .ret none := by
  obtain ⟨fuel, rfl⟩ : ∃ k, fuel = k + 1 := ⟨fuel - 1, by omega⟩
  rw [chunkLoop, List.drop_left, find_of_short hp hlen]

/-- The line of the last chunk. -/
theorem chunkLoop_last {pre q : List Char} {b : ChunkedBody} {fuel : Nat} {acc : List Char}
    (hb : b.last.Plain) (hfuel : 0 < fuel) :
    chunkLoop (pre ++ (b.last.encode ++ q)) fuel pre.length acc = .ret (some acc) := by
  obtain ⟨fuel, rfl⟩ : ∃ k, fuel = k + 1 := ⟨fuel - 1, by omega⟩
  have hlen := b.last.length_encode
  rw [chunkLoop, List.drop_left, b.last.find_encode q]
  simp only
  rw [if_neg (by simp only [List.length_append]; omega),
    if_pos (ChunkedBody.strtoul_last hb q)]

/-- The line of a chunk has come: it is taken when it fits and all of it is there. -/
theorem chunkLoop_chunk {pre q : List Char} {c : Chunk} {fuel : Nat} {acc : List Char}
    (hc : c.line.Plain) :
    chunkLoop (pre ++ (c.line.encode ++ q)) (fuel + 1) pre.length acc =
      if c.data.length ≤ 65535 ∧ c.data.length + 2 ≤ q.length then
        chunkLoop (pre ++ (c.line.encode ++ q)) fuel
          (pre.length + (c.line.encode.length + (c.data.length + 2)))
          (acc ++ q.take c.data.length)
      else .ret none := by
  have hlen := c.line.length_encode
  obtain ⟨hne, hfits, hbig⟩ := Chunk.strtoul_encode hc q
  have hlength : (pre ++ (c.line.encode ++ q)).length =
      pre.length + (c.line.encode.length + q.length) := by simp only [List.length_append]
  have hat : pre.length + c.line.text.length + 2 = pre.length + c.line.encode.length := by omega
  rw [chunkLoop, List.drop_left, c.line.find_encode q]
  simp only [hat]
  rw [if_neg (by omega), if_neg hne]
  by_cases hsmall : c.data.length ≤ 65535
  · rw [hfits hsmall]
    by_cases hq : c.data.length + 2 ≤ q.length
    · have hdata : (pre ++ (c.line.encode ++ q)).drop (pre.length + c.line.encode.length) = q := by
        rw [← List.append_assoc, ← List.length_append, List.drop_left]
      rw [if_neg (by omega), if_pos ⟨hsmall, hq⟩, hdata, Nat.add_assoc]
    · rw [if_pos (by omega), if_neg (fun h => hq h.2)]
  · have := hbig (by omega)
    rw [if_pos (by omega), if_neg (fun h => hsmall h.1)]

/-- The turns over the chunks `cs` that are left, when the bytes end with `p`. -/
theorem chunkLoop_eq {b : ChunkedBody} (hb : b.last.Plain) {rest : List Char} :
    ∀ (cs : List Chunk) (fuel : Nat) (pre p acc : List Char), (∀ c ∈ cs, c.line.Plain) →
      p <+: cs.flatMap Chunk.encode ++ (b.last.encode ++ rest) → p.length < fuel →
      chunkLoop (pre ++ p) fuel pre.length acc =
        .ret (if (∀ c ∈ cs, c.data.length ≤ 65535) ∧
            (cs.flatMap Chunk.encode ++ b.last.encode).length ≤ p.length then
          some (acc ++ cs.flatMap Chunk.data) else none) := by
  intro cs
  induction cs with
  | nil =>
    intro fuel pre p acc _ hp hfuel
    simp only [List.flatMap_nil, List.nil_append, List.append_nil] at hp ⊢
    by_cases hlen : p.length < b.last.encode.length
    · rw [chunkLoop_short hp hlen hfuel, if_neg (by omega)]
    · obtain ⟨q, rfl⟩ := List.prefix_of_prefix_length_le (List.prefix_append _ _) hp (by omega)
      rw [chunkLoop_last hb (by omega), if_pos ⟨by simp, by omega⟩]
  | cons c cs ih =>
    intro fuel pre p acc hplain hp hfuel
    have hc : c.line.Plain := hplain c (by simp)
    have hcs : ∀ d ∈ cs, d.line.Plain := fun d hd => hplain d (by simp [hd])
    have hshape : (c :: cs).flatMap Chunk.encode ++ (b.last.encode ++ rest) = c.line.encode ++
        (c.data ++ (crlf ++ (cs.flatMap Chunk.encode ++ (b.last.encode ++ rest)))) := by
      simp [Chunk.encode]
    have htotal : ((c :: cs).flatMap Chunk.encode ++ b.last.encode).length = c.line.encode.length +
        (c.data.length + 2 + (cs.flatMap Chunk.encode ++ b.last.encode).length) := by
      simp [Chunk.encode, crlf]
      omega
    rw [hshape] at hp
    rw [htotal]
    by_cases hlen : p.length < c.line.encode.length
    · rw [chunkLoop_short hp hlen hfuel, if_neg (by omega)]
    · obtain ⟨q, rfl⟩ := List.prefix_of_prefix_length_le (List.prefix_append _ _) hp (by omega)
      have hpos := c.line.length_encode
      rw [List.prefix_append_right_inj] at hp
      rw [List.length_append] at hfuel
      have hwhole : (c.line.encode ++ q).length = c.line.encode.length + q.length := by
        rw [List.length_append]
      obtain ⟨fuel, rfl⟩ : ∃ k, fuel = k + 1 := ⟨fuel - 1, by omega⟩
      rw [chunkLoop_chunk hc]
      by_cases htake : c.data.length ≤ 65535 ∧ c.data.length + 2 ≤ q.length
      · -- the chunk is there, with its CRLF
        have hframe : (c.data ++ crlf).length = c.data.length + 2 := by simp [crlf]
        rw [← List.append_assoc] at hp
        obtain ⟨q', rfl⟩ := List.prefix_of_prefix_length_le (List.prefix_append _ _) hp
          (by rw [hframe]; exact htake.2)
        rw [List.prefix_append_right_inj] at hp
        have hbehind : (c.data ++ crlf ++ q').length = c.data.length + 2 + q'.length := by
          rw [List.length_append, hframe]
        rw [hbehind] at hfuel hwhole
        have hnext := ih fuel (pre ++ c.encode) q' (acc ++ c.data) hcs hp (by omega)
        have hpre : pre ++ (c.line.encode ++ (c.data ++ crlf ++ q')) = pre ++ c.encode ++ q' := by
          simp [Chunk.encode]
        have hat : pre.length + (c.line.encode.length + (c.data.length + 2)) =
            (pre ++ c.encode).length := by
          simp [Chunk.encode, crlf]
        have hdata : (c.data ++ crlf ++ q').take c.data.length = c.data := by
          rw [List.append_assoc, List.take_left]
        have hpayload : acc ++ c.data ++ cs.flatMap Chunk.data =
            acc ++ (c :: cs).flatMap Chunk.data := by
          rw [List.flatMap_cons, List.append_assoc]
        rw [if_pos htake, hwhole, hpre, hat, hdata, hnext, hpayload]
        congr 1
        apply if_congr _ rfl rfl
        rw [List.forall_mem_cons]
        constructor
        · rintro ⟨hfit, hle⟩
          exact ⟨⟨htake.1, hfit⟩, by omega⟩
        · rintro ⟨⟨-, hfit⟩, hle⟩
          exact ⟨hfit, by omega⟩
      · rw [if_neg htake, if_neg]
        rintro ⟨hfit, hle⟩
        exact htake ⟨hfit c (by simp), by omega⟩

theorem chunkedBody_eq {b : ChunkedBody} {head p : List Char} (hhead : IsHead head)
    (hb : b.Plain) (hp : p <+: b.encode) :
    chunkedBody (head ++ p) = .ret (if b.Fits ∧ b.Complete p then some b.payload else none) := by
  have hfind := Search.find_append_of_some (b := p) hhead
  have hfour := Search.find_add_length_le hhead
  have hcrlf : crlfcrlf.length = 4 := rfl
  have hlast := b.last.length_encode
  unfold chunkedBody
  rw [hfind]
  simp only
  rw [Nat.sub_add_cancel (by omega)]
  by_cases hend : head.length ≥ (head ++ p).length
  · rw [if_pos hend, if_neg]
    rw [List.length_append] at hend
    rintro ⟨-, hdone⟩
    unfold ChunkedBody.Complete at hdone
    rw [List.length_append] at hdone
    omega
  · rw [if_neg hend]
    have htail : b.encode = b.chunks.flatMap Chunk.encode ++ (b.last.encode ++
        (b.trailer.flatMap (fun l => l ++ crlf) ++ crlf)) := by
      rw [ChunkedBody.encode, ChunkedBody.tail, List.append_assoc]
    rw [htail] at hp
    exact chunkLoop_eq hb.2 b.chunks _ head p [] hb.1 hp (by rw [List.length_append]; omega)

/-! ## The message -/

/-- A reply with a length is the message behind the head. -/
theorem replyBody_length {head body : List Char} (hhead : IsHead head) :
    replyBody (head ++ body) (some head.length) body.length =
      .ret (if body = [] then none else some body) := by
  have hfour := Search.find_add_length_le hhead
  have hcrlf : crlfcrlf.length = 4 := rfl
  unfold replyBody
  simp only [List.drop_left]
  cases body with
  | nil =>
    rw [if_neg (by simp), if_pos rfl, List.append_nil]
    unfold chunkedBody
    rw [hhead]
    simp only
    rw [if_pos (by omega)]
  | cons c cs =>
    rw [if_pos (by simp), if_neg (by simp), if_neg (by omega), if_neg (by simp)]

/-- **A chunked reply is read as the reply with a length that says the same**, whatever its
chunks, extensions and trailer are and wherever the bytes end behind the last chunk's line;
before that line, or with a chunk that is too long, it is no reply. -/
theorem parseRfc8484_chunked (b : ChunkedBody) (head head' p : List Char) (name : List Char)
    (type : Nat) (result : DnsReply) (contentIdx : Option Nat) (cl : Nat)
    (hhead : IsHead head) (hhead' : IsHead head') (hb : b.Plain) (hp : p <+: b.encode)
    (hlen : contentIdx = none ∨ cl = 0) :
    parseRfc8484 name type result (head ++ p) contentIdx cl =
      if b.Fits ∧ b.Complete p then
        parseRfc8484 name type result (head' ++ b.payload) (some head'.length) b.payload.length
      else .ret (-1, result) := by
  have hbranch : replyBody (head ++ p) contentIdx cl = chunkedBody (head ++ p) := by
    rcases hlen with rfl | rfl
    · rfl
    · cases contentIdx <;> rfl
  unfold parseRfc8484
  rw [hbranch, chunkedBody_eq hhead hb hp, replyBody_length hhead']
  by_cases hdone : b.Fits ∧ b.Complete p
  · rw [if_pos hdone, if_pos hdone]
    by_cases hempty : b.payload = []
    · rw [if_pos hempty, hempty]
      rfl
    · rw [if_neg hempty]
  · rw [if_neg hdone, if_neg hdone]
    rfl

/-- The address of `a` is 127.0.0.1. -/
def localReply : List Char :=
  [0, 0, 129, 128, 0, 1, 0, 1, 0, 0, 0, 0, 1, 97, 0, 0, 1, 0, 1, 1, 97, 0, 0, 1, 0, 1,
    0, 0, 0, 60, 0, 4, 127, 0, 0, 1].map Char.ofNat

/-- Its record stands in a chunk of its own. -/
def localBody : ChunkedBody where
  chunks := [{
    line := {
      digits := "13".toList
      ext := ";part=1".toList
      digits_ne := by decide
      hex := by decide
      ext_text := by unfold LineText; decide
      ext_head := by rintro c ⟨⟩; decide }
    data := localReply.take 19
    size := by decide
    data_ne := by decide }, {
    line := { zeroLine with digits := "11".toList, digits_ne := by decide, hex := by decide }
    data := localReply.drop 19
    size := by decide
    data_ne := by decide }]
  last := { zeroLine with digits := "00".toList, digits_ne := by decide, hex := by decide }
  zeros := by decide
  trailer := ["X: y".toList]
  trailer_text := by decide

/-- The trailer has not come. -/
theorem parseRfc8484_chunked_local :
    parseRfc8484 "a".toList typeA [] ("HTTP/1.1 200 OK\r\n\r\n".toList ++
        (localBody.chunks.flatMap Chunk.encode ++ localBody.last.encode)) none 0 =
      .ret (1, [⟨"a".toList, typeA, classIN, 60, "127.0.0.1".toList⟩]) := by
  have hplain : localBody.Plain := by
    constructor
    · intro c hc
      rcases List.mem_cons.mp hc with rfl | hc
      · rintro c ⟨⟩
        decide
      · obtain rfl := List.mem_singleton.mp hc
        rintro c ⟨⟩
    · rintro c ⟨⟩
  have hpre : localBody.chunks.flatMap Chunk.encode ++ localBody.last.encode <+:
      localBody.encode := by
    rw [ChunkedBody.encode, ChunkedBody.tail, List.append_assoc]
    exact (List.prefix_append_right_inj _).mpr (List.prefix_append _ _)
  rw [parseRfc8484_chunked localBody _ "\r\n\r\n".toList _ _ _ _ none 0 (by unfold IsHead; decide)
      (by unfold IsHead; decide) hplain hpre (Or.inl rfl),
    if_pos ⟨by decide, le_refl _⟩]
  decide +kernel

end Dns

end Hcpp
