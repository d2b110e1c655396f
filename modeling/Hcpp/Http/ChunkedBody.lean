import Hcpp.Http.Numbers
import Hcpp.Mem.TransferSpec

/-!
# Chunked bodies and what `transfer_chunk` relays of them

`ChunkedBody` is the grammar of RFC 2616 section 3.6.1.  `transfer_chunk` relays
such a body exactly when `Relays` holds of the bytes cached and the reads to come:

* a size line must fit, with its CRLF, into the 18 bytes that are looked at, or
  be cached whole when it is looked for (`Scannable`);
* a size that begins with `0` is read as 0, whatever digits follow, so the rest
  of the body, from the first such line on, is moved by `transfer_mem_until`
  and must be a text this gets right (`TailOk`).
-/

namespace Hcpp

open Memory Regex

/-! ## The grammar -/

/-- The text of a line: no CR, LF or NUL. -/
def LineText (s : List Char) : Prop := ∀ c ∈ s, c ≠ '\r' ∧ c ≠ '\n' ∧ c ≠ '\x00'

/-- `chunk-size [ chunk-extension ] CRLF` -/
structure SizeLine where
  digits : List Char
  ext : List Char
  digits_ne : digits ≠ []
  hex : ∀ c ∈ digits, isHex c = true
  ext_text : LineText ext
  ext_head : ∀ c, ext.head? = some c → isHex c = false

namespace SizeLine

def text (l : SizeLine) : List Char := l.digits ++ l.ext

def encode (l : SizeLine) : List Char := l.text ++ crlf

/-- The chunk size. -/
def value (l : SizeLine) : Nat := stoul 16 l.digits

end SizeLine

/-- `chunk-size [ chunk-extension ] CRLF chunk-data CRLF` -/
structure Chunk where
  line : SizeLine
  data : List Char
  size : line.value = data.length
  data_ne : data ≠ []

def Chunk.encode (c : Chunk) : List Char := c.line.encode ++ c.data ++ crlf

/-- `*chunk last-chunk trailer CRLF` -/
structure ChunkedBody where
  chunks : List Chunk
  last : SizeLine
  zeros : ∀ c ∈ last.digits, c = '0'
  trailer : List (List Char)
  trailer_text : ∀ l ∈ trailer, l ≠ [] ∧ ∀ c ∈ l, c ≠ '\r' ∧ c ≠ '\n'

/-- `last-chunk trailer CRLF` -/
def ChunkedBody.tail (b : ChunkedBody) : List Char :=
  b.last.encode ++ b.trailer.flatMap (fun l => l ++ crlf) ++ crlf

def ChunkedBody.encode (b : ChunkedBody) : List Char := b.chunks.flatMap Chunk.encode ++ b.tail

/-! ## When it is relayed -/

/-- The size line `l` can be found from the cached bytes and the next reads. -/
def Scannable (f : Feed Char) (l : SizeLine) : Prop :=
  l.encode.length ≤ 18 ∨ l.encode.length ≤ f.cached.length

/-- The cache when the size line has been found. -/
def scanned (f : Feed Char) (l : SizeLine) : Feed Char := f.fill (1024 * 4) l.encode.length

/-- `transfer_mem_until` moves exactly the bytes of `t`, the rest of the body:
either CRLFCRLF is cached and the cache is `t`, or the reads go on to the first
CRLFCRLF, and `t` ends there. -/
def TailOk (f : Feed Char) (t : List Char) : Prop :=
  (crlfcrlf <:+: f.cached ∧ f.cached = t) ∨
    (¬ crlfcrlf <:+: f.cached ∧ ReadsOn crlfcrlf f ∧
      ∃ i, Search.find crlfcrlf f.bytes = some i ∧ t.length = i + crlfcrlf.length)

/-- The size begins with the digit 0. -/
def SizeLine.LeadingZero (l : SizeLine) : Prop := l.digits.head? = some '0'

instance (l : SizeLine) : Decidable l.LeadingZero :=
  inferInstanceAs (Decidable (l.digits.head? = some '0'))

/-- The condition, chunk by chunk; `tail` is what follows the chunks. -/
def RelaysFrom (last : SizeLine) (tail : List Char) : Feed Char → List Chunk → Prop
  | f, [] => Scannable f last ∧ TailOk (scanned f last) tail
  | f, c :: cs =>
    Scannable f c.line ∧
      if c.line.LeadingZero then
        TailOk (scanned f c.line) ((c :: cs).flatMap Chunk.encode ++ tail)
      else RelaysFrom last tail ((scanned f c.line).skip c.encode.length) cs

def Relays (f : Feed Char) (b : ChunkedBody) : Prop := RelaysFrom b.last b.tail f b.chunks

/-! ## The size line -/

theorem isHex_ne {c : Char} (h : isHex c = true) : c ≠ '\r' ∧ c ≠ '\n' ∧ c ≠ '\x00' :=
  ⟨ne_of_class h (by decide), ne_of_class h (by decide), ne_of_class h (by decide)⟩

theorem SizeLine.lineText (l : SizeLine) : LineText l.text := by
  intro c hc
  rcases List.mem_append.mp hc with h | h
  · exact isHex_ne (l.hex c h)
  · exact l.ext_text c h

theorem SizeLine.find_encode (l : SizeLine) (t : List Char) :
    Search.find crlf (l.encode ++ t) = some l.text.length :=
  Search.find_of_not_mem fun h => (l.lineText _ h).1 rfl

theorem SizeLine.length_encode (l : SizeLine) : l.encode.length = l.text.length + 2 := by
  simp [SizeLine.encode, crlf]

theorem cString_append {s t : List Char} (h : ∀ c ∈ s, c ≠ '\x00') :
    cString (s ++ t) = s ++ cString t := by
  unfold cString
  rw [List.takeWhile_append_of_pos]
  intro c hc
  simpa using h c hc

theorem SizeLine.ne_nul (l : SizeLine) : ∀ c ∈ l.encode, c ≠ '\x00' := by
  intro c hc
  rcases List.mem_append.mp hc with h | h
  · exact (l.lineText c h).2.2
  · rintro rfl
    exact absurd h (by decide)

theorem prefix_of_cString {s t : List Char} (h : ∀ c ∈ t, c ≠ '\x00') (hs : s <+: t) :
    cString s = s := by
  have := cString_append (t := []) fun c hc => h c (hs.subset hc)
  simpa [cString] using this

/-- The cache holds the line, or a part of it that ends before the line does. -/
theorem cached_cases {f : Feed Char} {l : SizeLine} {rest : List Char}
    (hb : f.bytes = l.encode ++ rest) :
    (∃ more, f.cached = l.encode ++ more) ∨
      f.cached.length < l.encode.length ∧ f.cached <+: l.encode ∧ f.segs.flatten ≠ [] := by
  have hpre : f.cached <+: l.encode ++ rest := by
    rw [← hb]
    exact List.prefix_append _ _
  rcases Nat.lt_or_ge f.cached.length l.encode.length with hlt | hge
  · right
    refine ⟨hlt, List.prefix_of_prefix_length_le hpre (List.prefix_append _ _) hlt.le, ?_⟩
    intro h0
    have := congrArg List.length hb
    rw [Feed.bytes, h0, List.append_nil, List.length_append] at this
    omega
  · left
    obtain ⟨more, hm⟩ := List.prefix_of_prefix_length_le (List.prefix_append _ _) hpre hge
    exact ⟨more, hm.symm⟩

/-- No CRLF in what ends before the line does. -/
theorem find_of_short {l : SizeLine} {rest s : List Char} (hs : s <+: l.encode ++ rest)
    (hlen : s.length < l.encode.length) : Search.find crlf s = none := by
  apply Search.find_eq_none_of_prefix (l.find_encode rest) hs
  rw [l.length_encode] at hlen
  exact hlen

/-- Reading on until the line is cached. -/
theorem scanSize_fill {l : SizeLine} {rest : List Char} (hl : l.encode.length ≤ 18) :
    ∀ (steps fuel : Nat) (self : Memory) (f : Feed Char), self.Represents f →
      f.bytes = l.encode ++ rest → l.encode.length - f.cached.length ≤ steps → steps < fuel →
      ∃ self', scanSize fuel self (f.cached.take 18) =
          .ret (self', (Feed.fillFor (1024 * 4) l.encode.length steps f).cached.take 18) ∧
        self'.Represents (Feed.fillFor (1024 * 4) l.encode.length steps f) ∧
        self'.frame = self.frame ∧
        l.encode.length ≤ (Feed.fillFor (1024 * 4) l.encode.length steps f).cached.length := by
  intro steps
  induction steps with
  | zero =>
    intro fuel self f h hb hk hfuel
    obtain ⟨fuel, rfl⟩ : ∃ k, fuel = k + 1 := ⟨fuel - 1, by omega⟩
    rcases cached_cases hb with ⟨more, hm⟩ | ⟨hlt, -, -⟩
    · have hfind : Search.find crlf (f.cached.take 18) = some l.text.length := by
        rw [hm, List.take_append, List.take_of_length_le hl]
        exact l.find_encode _
      refine ⟨self, ?_, h, rfl, by rw [Feed.fillFor]; omega⟩
      rw [scanSize, if_neg (by simp [hfind])]
      rfl
    · omega
  | succ steps ih =>
    intro fuel self f h hb hk hfuel
    obtain ⟨fuel, rfl⟩ : ∃ k, fuel = k + 1 := ⟨fuel - 1, by omega⟩
    rcases cached_cases hb with ⟨more, hm⟩ | ⟨hlt, hpre, hne⟩
    · have hfind : Search.find crlf (f.cached.take 18) = some l.text.length := by
        rw [hm, List.take_append, List.take_of_length_le hl]
        exact l.find_encode _
      have hle : l.encode.length ≤ f.cached.length := by
        rw [hm, List.length_append]
        omega
      rw [Feed.fillFor_of_le hle]
      exact ⟨self, by rw [scanSize, if_neg (by simp [hfind])], h, rfl, hle⟩
    · have hall : f.cached.take 18 = f.cached := List.take_of_length_le (by omega)
      have hnone := find_of_short (hpre.trans (List.prefix_append _ rest)) hlt
      have hpull : ∃ r segs, Feed.pull (1024 * 4) f.segs = some (r, segs) := Feed.exists_pull hne
      obtain ⟨r, segs, hp⟩ := hpull
      obtain ⟨m, hm, hrep, hfr⟩ := h.load (by omega) hp
      have hload : f.load (1024 * 4) = ⟨f.cached ++ r, segs⟩ := by simp only [Feed.load, hp]
      have hpos := List.length_pos_of_ne_nil (Feed.ne_nil_of_pull (by omega) hp)
      have hcs : f.cached ++ r.take (18 - f.cached.length) = (f.cached ++ r).take 18 := by
        rw [List.take_append, hall]
      have hb' : (Feed.mk (f.cached ++ r) segs).bytes = l.encode ++ rest := by
        rw [← hload, Feed.bytes_load, hb]
      obtain ⟨self', hs, hrep', hfr', hlen⟩ := ih fuel m ⟨f.cached ++ r, segs⟩ hrep hb'
        (by rw [List.length_append]; omega) (by omega)
      rw [Feed.fillFor, if_neg (by omega), hload]
      refine ⟨self', ?_, hrep', by rw [hfr', hfr], hlen⟩
      rw [hall, scanSize_open ⟨hnone, by omega⟩, hm]
      simp only [hcs]
      exact hs

/-- A line that does not fit is not found by reading on. -/
theorem scanSize_long {l : SizeLine} {rest : List Char} (hl : 18 < l.encode.length) :
    ∀ (fuel : Nat) (self : Memory) (f : Feed Char), self.Represents f →
      f.bytes = l.encode ++ rest → ∀ self' cs,
      scanSize fuel self (f.cached.take 18) = .ret (self', cs) → Search.find crlf cs = none := by
  intro fuel
  induction fuel with
  | zero => intro _ _ _ _ _ _ h; cases h
  | succ fuel ih =>
    intro self f h hb self' cs hret
    have hnone : Search.find crlf (f.cached.take 18) = none := by
      have hpre : f.cached.take 18 <+: l.encode ++ rest := by
        rw [← hb]
        exact (List.take_prefix _ _).trans (List.prefix_append _ _)
      exact find_of_short hpre (by rw [List.length_take]; omega)
    by_cases hlt : f.cached.length < 18
    · have hall : f.cached.take 18 = f.cached := List.take_of_length_le (by omega)
      rw [scanSize_open ⟨hnone, by rw [hall]; exact hlt⟩] at hret
      have hne : f.segs.flatten ≠ [] := by
        intro h0
        have := congrArg List.length hb
        rw [Feed.bytes, h0, List.append_nil, List.length_append] at this
        omega
      have hpull : ∃ r segs, Feed.pull (1024 * 4) f.segs = some (r, segs) := Feed.exists_pull hne
      obtain ⟨r, segs, hp⟩ := hpull
      obtain ⟨m, hm, hrep, -⟩ := h.load (by omega) hp
      have hb' : (Feed.mk (f.cached ++ r) segs).bytes = l.encode ++ rest := by
        rw [← hb, ← Feed.bytes_load (1024 * 4) f]
        simp only [Feed.load, hp]
      have hcs : f.cached ++ r.take (18 - f.cached.length) = (f.cached ++ r).take 18 := by
        rw [List.take_append, hall]
      rw [hm, hall] at hret
      simp only [hcs] at hret
      exact ih m ⟨f.cached ++ r, segs⟩ hrep hb' self' cs hret
    · rw [scanSize, if_neg (by rw [List.length_take]; omega), Outcome.ret.injEq,
        Prod.mk.injEq] at hret
      rw [← hret.2]
      exact hnone

/-- **The size line is found**, and the memory has read just as far as that takes. -/
theorem scan_ok {self : Memory} {f : Feed Char} {l : SizeLine} {rest : List Char} {fuel : Nat}
    (h : self.Represents f) (hone : self.buffs.length ≤ 1) (hb : f.bytes = l.encode ++ rest)
    (hs : Scannable f l) (hfuel : l.encode.length < fuel) :
    ∃ self' cs, scanSize fuel self (cString self.getSome) = .ret (self', cs) ∧
      Search.find crlf cs = some l.text.length ∧ cs.take l.text.length = l.text ∧
      self'.Represents (scanned f l) ∧ self'.frame = self.frame ∧
      l.encode.length ≤ (scanned f l).cached.length := by
  rw [h.getSome hone]
  have hline : ∀ t, (l.encode ++ t).take l.text.length = l.text := by
    intro t
    rw [SizeLine.encode, List.append_assoc, List.take_left]
  rcases cached_cases hb with ⟨more, hm⟩ | ⟨hlt, hpre, -⟩
  · have hle : l.encode.length ≤ f.cached.length := by
      rw [hm, List.length_append]
      omega
    obtain ⟨fuel, rfl⟩ : ∃ k, fuel = k + 1 := ⟨fuel - 1, by omega⟩
    have hcs : cString f.cached = l.encode ++ cString more := by
      rw [hm, cString_append l.ne_nul]
    rw [hcs]
    refine ⟨self, l.encode ++ cString more, ?_, l.find_encode _, hline _, ?_, rfl, ?_⟩
    · rw [scanSize, if_neg (by simp [l.find_encode])]
    · rw [scanned, Feed.fill, Feed.fillFor_of_le hle]
      exact h
    · rw [scanned, Feed.fill, Feed.fillFor_of_le hle]
      exact hle
  · have hl : l.encode.length ≤ 18 := by
      rcases hs with h18 | hle <;> omega
    have hcs : cString f.cached = f.cached.take 18 := by
      rw [prefix_of_cString l.ne_nul hpre, List.take_of_length_le (by omega)]
    rw [hcs]
    obtain ⟨self', hs', hrep, hfr, hlen⟩ := scanSize_fill hl l.encode.length fuel self f h hb
      (by omega) hfuel
    have hbytes := Feed.bytes_fillFor (1024 * 4) l.encode.length l.encode.length f
    rw [hb] at hbytes
    obtain ⟨more, hm⟩ : ∃ more, (Feed.fillFor (1024 * 4) l.encode.length l.encode.length f).cached =
        l.encode ++ more := by
      rcases cached_cases hbytes with hm | ⟨hlt', -, -⟩
      · exact hm
      · omega
    refine ⟨self', _, hs', ?_, ?_, hrep, hfr, hlen⟩
    · rw [hm, List.take_append, List.take_of_length_le hl]
      exact l.find_encode _
    · rw [hm, List.take_append, List.take_of_length_le hl]
      exact hline _

/-- **It is not found** when it does not fit. -/
theorem scan_fail {self : Memory} {f : Feed Char} {l : SizeLine} {rest : List Char} {fuel : Nat}
    (h : self.Represents f) (hone : self.buffs.length ≤ 1) (hb : f.bytes = l.encode ++ rest)
    (hs : ¬ Scannable f l) {self' : Memory} {cs : List Char}
    (hret : scanSize fuel self (cString self.getSome) = .ret (self', cs)) :
    Search.find crlf cs = none := by
  rw [h.getSome hone] at hret
  unfold Scannable at hs
  rcases cached_cases hb with ⟨more, hm⟩ | ⟨hlt, hpre, -⟩
  · rw [hm, List.length_append] at hs
    omega
  · rw [prefix_of_cString l.ne_nul hpre] at hret
    by_cases h18 : f.cached.length ≤ 18
    · have hall : f.cached.take 18 = f.cached := List.take_of_length_le h18
      rw [← hall] at hret
      exact scanSize_long (by omega) fuel self f h hb self' cs hret
    · cases fuel with
      | zero => cases hret
      | succ fuel =>
        rw [scanSize, if_neg (by omega), Outcome.ret.injEq, Prod.mk.injEq] at hret
        rw [← hret.2]
        exact find_of_short (hpre.trans (List.prefix_append _ rest)) hlt

/-! ## The chunk size -/

/-- A size that begins with 0 is read as 0. -/
theorem SizeLine.hexStrTo_zero {l : SizeLine} (h : l.LeadingZero) : hexStrTo l.text = .ret 0 := by
  obtain ⟨ds, hd⟩ : ∃ ds, l.digits = '0' :: ds := by
    unfold LeadingZero at h
    cases hl : l.digits with
    | nil => simp [hl] at h
    | cons c ds =>
      rw [hl, List.head?_cons, Option.some.injEq] at h
      exact ⟨ds, by rw [h]⟩
  have htext : l.text = '0' :: (ds ++ l.ext) := by rw [text, hd, List.cons_append]
  have hone : 1 ≤ (l.text.takeWhile (· = '0')).length := by simp [htext]
  have hways : (ways l.text.length hexReg l.text).head? =
      some ([], l.text.drop (min 15 (l.text.takeWhile (· = '0')).length)) := by
    rw [hexReg, head?_ways_alt, ways_seq_bol, head?_ways_rep_cls, if_pos (by omega)]
    rfl
  have hlen := (List.takeWhile_prefix (l := l.text) (· = '0')).length_le
  rw [hexStrTo, search_of_head hways]
  simp only [List.length_drop]
  rw [Nat.sub_sub_self (by omega), take_min_takeWhile, stoul_eq_zero]
  intro c hc
  simpa using List.mem_takeWhile_imp (List.mem_of_mem_take hc)

/-- The first digit of a size that has no leading 0. -/
theorem SizeLine.exists_digit {l : SizeLine} (h : ¬ l.LeadingZero) :
    ∃ d ds, l.digits = d :: ds ∧ d ≠ '0' ∧ isHex d = true := by
  obtain ⟨d, ds, hd⟩ := List.exists_cons_of_ne_nil l.digits_ne
  refine ⟨d, ds, hd, ?_, l.hex d (by simp [hd])⟩
  rintro rfl
  exact h (by rw [LeadingZero, hd]; rfl)

/-- Any other size of at most 16 digits is read as what it says. -/
theorem SizeLine.hexStrTo_value {l : SizeLine} (h : ¬ l.LeadingZero) (hlen : l.digits.length ≤ 16) :
    hexStrTo l.text = .ret l.value := by
  obtain ⟨d, ds, hd, hd0, hhex⟩ := SizeLine.exists_digit h
  have htext : l.text = d :: (ds ++ l.ext) := by rw [text, hd, List.cons_append]
  have htake : (ds ++ l.ext).takeWhile isHex = ds := by
    rw [List.takeWhile_append_of_pos fun c hc => l.hex c (by simp [hd, hc])]
    cases hext : l.ext with
    | nil => simp
    | cons c cs => simp [l.ext_head c (by simp [hext])]
  rw [hd, List.length_cons] at hlen
  have hways : (ways l.text.length hexReg l.text).head? = some ([], l.ext) := by
    have hno : ¬ 1 ≤ min 15 (l.text.takeWhile (· = '0')).length := by simp [htext, hd0]
    rw [hexReg, head?_ways_alt, ways_seq_bol, head?_ways_rep_cls, if_neg hno, Option.none_or,
      htext, head?_ways_cls_rep _ _ _ _ (by simp [hhex, hd0]), htake, Nat.min_eq_right (by omega),
      List.drop_left]
  rw [hexStrTo, search_of_head hways]
  have hcut : l.text.take (l.text.length - l.ext.length) = l.digits := by
    simp [text]
  simp only [hcut]
  rfl

end Hcpp
