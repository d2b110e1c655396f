import Hcpp.Lib.DomainName
import Hcpp.Http.HttpMsg

/-!
# Names in DNS messages

`qname2host` and `host2qname` (dnshttps.cc) turn a name of a message into text
and back.  `qname2host` reads `msg` at indices; `host2qname` counts the labels
in a copy of the text, in place: the byte in front of a label is first the NUL
of the cleared buffer, or the dot behind the label before, so each label is
met twice, and only the second time is it counted.
-/

namespace Hcpp.Dns

/-! ## The functions -/

def nul : Char := '\x00'

/-- `lcs` -/
def lcs (s : List Char) : List Char := s.map Char.toLower

def dnsMaxLabel : Nat := 63

/-- `msg[i]` of a `std::string`; at `size()` it is the terminating NUL. -/
def charAt (msg : List Char) (i : Nat) : Outcome Char :=
  if i ≤ msg.length then .ret (msg.getD i nul) else .undefined

/-- `while ((len = msg[i]) != 0)`, and what follows it: the value and `result`. -/
def qname2hostLoop (msg : List Char) (startIdx : Nat) :
    Nat → Nat → Nat → Nat → List Char → Outcome (Int × List Char)
  | 0, _, _, _, _ => .spins
  | fuel + 1, i, r, compressDepth, s => do
    let len := (← charAt msg i).toNat
    if len = 0 then
      if s.length = 0 then .ret (0, [])
      else if s.length > 255 then .ret (-1, [])
      else .ret (r + 1, s)
    else if len > dnsMaxLabel then
      if startIdx = 0 ∨ compressDepth + 1 > 10 then .ret (-1, [])
      else if len &&& 0xc0 ≠ 0 then
        if i + 1 ≥ msg.length then .ret (-1, [])
        else do
          -- the low byte alone: the six bits of `len` are dropped
          let i := (← charAt msg (i + 1)).toNat &&& 0xff
          if i ≥ msg.length then .ret (-1, [])
          else
            qname2hostLoop msg startIdx fuel i (if compressDepth + 1 ≤ 1 then r + 1 else r)
              (compressDepth + 1) s
      else .ret (-1, [])
    else if len + i + 1 > msg.length then .ret (-1, [])
    else
      qname2hostLoop msg startIdx fuel (i + (len + 1))
        (if compressDepth = 0 then r + (len + 1) else r) compressDepth
        (s ++ (msg.drop (i + 1)).take len ++ ['.'])

/-- Ten pointers are followed at most, and between two of them `i` only grows. -/
def qname2host (msg : List Char) (startIdx : Nat) : Outcome (Int × List Char) :=
  qname2hostLoop msg startIdx (11 * (msg.length + 2)) startIdx 0 0 []

/-- The loop that cuts labels of more than 63 bytes. -/
def splitHostLoop (host : List Char) : Nat → Nat → List Char → Outcome (List Char)
  | 0, _, _ => .spins
  | fuel + 1, pos1, splitHost =>
    if pos1 < host.length then
      match Search.find ['.'] (host.drop pos1) with
      | none => .ret (splitHost ++ host.drop pos1)
      | some n =>
        -- `n` is `pos2 - pos1`
        if n > dnsMaxLabel then
          splitHostLoop host fuel (pos1 + dnsMaxLabel)
            (splitHost ++ (host.drop pos1).take dnsMaxLabel ++ ['.'])
        else splitHostLoop host fuel (pos1 + n + 1) (splitHost ++ (host.drop pos1).take n ++ ['.'])
    else .ret splitHost

/-- `while (buf[last_dot + i] != '.' && buf[last_dot + i] != 0) ++i`, where `i` is a
`uint8_t`: a stretch of 256 bytes is never left. -/
def countLoop (buf : List Char) (lastDot : Nat) : Nat → Nat → Outcome Nat
  | 0, _ => .spins
  | fuel + 1, i =>
    if buf.getD (lastDot + i) nul ≠ '.' ∧ buf.getD (lastDot + i) nul ≠ nul then
      countLoop buf lastDot fuel ((i + 1) % 256)
    else .ret i

/-- `for (; last_dot < split_host.size();)` -/
def labelLoop (size : Nat) : Nat → List Char → Nat → Outcome (List Char × Nat)
  | 0, _, _ => .spins
  | fuel + 1, buf, lastDot =>
    if lastDot < size then do
      let i ← countLoop buf lastDot 256 0
      let buf := buf.set lastDot (Char.ofNat ((i + 255) % 256))
      let lastDot := lastDot + i
      if buf.getD lastDot nul = nul then .ret (buf, lastDot)
      else if buf.getD (lastDot + 1) nul = nul then .ret (buf.set lastDot nul, lastDot)
      else labelLoop size fuel buf lastDot
    else .ret (buf, lastDot)

def host2qname (host : List Char) : Outcome (Int × List Char) := do
  let splitHost ← splitHostLoop host (host.length + 1) 0 []
  if splitHost.length ≥ 2048 then .ret (-1, [])
  else do
    let buf := nul :: splitHost ++ List.replicate (4095 - splitHost.length) nul
    let (buf, lastDot) ← labelLoop splitHost.length (2 * splitHost.length + 2) buf 0
    .ret (lastDot + 1, buf.take (lastDot + 1))

def validName (name : List Char) : Bool :=
  if name.length > 254 ∨ name.length < 2 then false
  else name.all fun c => decide ('0' ≤ c ∧ c ≤ '9') || decide ('a' ≤ c ∧ c ≤ 'z') ||
    decide ('A' ≤ c ∧ c ≤ 'Z') || decide (c = '-') || decide (c = '.')

/-! ## What `qname2host` returns -/

open DomainName

@[simp] theorem toNat_nul : nul.toNat = 0 := rfl

theorem charAt_of_le {msg : List Char} {i : Nat} (h : i ≤ msg.length) :
    charAt msg i = .ret (msg.getD i nul) := if_pos h

theorem getD_at_drop {msg t : List Char} {c : Char} {i : Nat} (h : c :: t <+: msg.drop i) :
    msg.getD i nul = c := by
  obtain ⟨u, hu⟩ := h
  rw [List.getD_eq_getElem?_getD, ← Nat.add_zero i, ← List.getElem?_drop, ← hu]
  rfl

theorem length_le_append {msg t : List Char} {i : Nat} (ht : t ≠ []) (h : t <+: msg.drop i) :
    i + t.length ≤ msg.length := by
  have hle := h.length_le
  have hpos := List.length_pos_of_ne_nil ht
  rw [List.length_drop] at hle
  omega

/-- A value and a text that `qname2host` can return, when it has counted `r` bytes
and followed `compressDepth` pointers. -/
inductive Reading (r compressDepth : Nat) : Int × List Char → Prop
  | fails : Reading r compressDepth (-1, [])
  | root : Reading r compressDepth (0, [])
  | name {v : Int} {n : Name} (hne : n ≠ []) (hlen : (text n).length ≤ 255) (hpos : 0 < v)
      (hv : 0 < compressDepth → v = r + 1) : Reading r compressDepth (v, text n)

/-- The count stands still behind the first pointer. -/
theorem Reading.of_next {r r' compressDepth depth' : Nat} {p : Int × List Char}
    (h : Reading r' depth' p) (hstill : 0 < compressDepth → 0 < depth' ∧ r' = r) :
    Reading r compressDepth p := by
  cases h with
  | fails => exact .fails
  | root => exact .root
  | name hne hlen hpos hv =>
    refine .name hne hlen hpos fun hlt => ?_
    obtain ⟨hd, rfl⟩ := hstill hlt
    exact hv hd

theorem text_append (a b : Name) : text (a ++ b) = text a ++ text b := List.flatMap_append

/-- It returns from anywhere in the message.  By induction on the fuel: a pointer takes
one of the ten, and a label moves `i` on. -/
theorem qname2hostLoop_reading {msg : List Char} (startIdx fuel i r compressDepth : Nat)
    (n : Name) (hi : i ≤ msg.length) (hd : compressDepth ≤ 10)
    (hfuel : (10 - compressDepth) * (msg.length + 2) + (msg.length - i) < fuel) :
    ∃ p, qname2hostLoop msg startIdx fuel i r compressDepth (text n) = .ret p ∧
      Reading r compressDepth p := by
  induction fuel generalizing i r compressDepth n with
  | zero => omega
  | succ fuel ih =>
    rw [qname2hostLoop, charAt_of_le hi, Outcome.ret_bind]
    simp only
    generalize hc : (msg.getD i nul).toNat = len
    by_cases h0 : len = 0
    · rw [if_pos h0]
      by_cases hs : (text n).length = 0
      · exact ⟨_, if_pos hs, .root⟩
      · rw [if_neg hs]
        have hne : n ≠ [] := by
          rintro rfl
          exact hs rfl
        by_cases hlong : (text n).length > 255
        · exact ⟨_, if_pos hlong, .fails⟩
        · exact ⟨_, if_neg hlong, .name hne (by omega) (by omega) fun _ => rfl⟩
    · rw [if_neg h0]
      by_cases hmax : len > dnsMaxLabel
      · rw [if_pos hmax]
        by_cases hdeep : startIdx = 0 ∨ compressDepth + 1 > 10
        · exact ⟨_, if_pos hdeep, .fails⟩
        · rw [if_neg hdeep]
          by_cases hbits : len &&& 0xc0 ≠ 0
          · rw [if_pos hbits]
            by_cases hend : i + 1 ≥ msg.length
            · exact ⟨_, if_pos hend, .fails⟩
            · rw [if_neg hend, charAt_of_le (by omega), Outcome.ret_bind]
              generalize (msg.getD (i + 1) nul).toNat &&& 0xff = j
              by_cases hj : j ≥ msg.length
              · exact ⟨_, if_pos hj, .fails⟩
              · rw [if_neg hj]
                have hten : compressDepth + 1 ≤ 10 := by omega
                obtain ⟨k, hk⟩ : ∃ k, 10 - compressDepth = k + 1 := ⟨9 - compressDepth, by omega⟩
                have hk' : 10 - (compressDepth + 1) = k := by omega
                rw [hk, Nat.succ_mul] at hfuel
                obtain ⟨p, hp, hread⟩ := ih j (if compressDepth + 1 ≤ 1 then r + 1 else r)
                  (compressDepth + 1) n (by omega) hten (by rw [hk']; omega)
                exact ⟨p, hp, hread.of_next fun hlt => ⟨Nat.succ_pos _, if_neg (by omega)⟩⟩
          · exact ⟨_, if_neg hbits, .fails⟩
      · rw [if_neg hmax]
        by_cases hout : len + i + 1 > msg.length
        · exact ⟨_, if_pos hout, .fails⟩
        · rw [if_neg hout]
          have hlen : ((msg.drop (i + 1)).take len).length = len := by
            rw [List.length_take, List.length_drop]
            omega
          have hle : len ≤ 63 := Nat.not_lt.mp hmax
          let l : Label := ⟨(msg.drop (i + 1)).take len, List.ne_nil_of_length_pos (by omega),
            by omega⟩
          have htext : text n ++ (msg.drop (i + 1)).take len ++ ['.'] = text (n ++ [l]) := by
            rw [text_append, text_cons, text_nil, List.append_assoc]
          rw [htext]
          obtain ⟨p, hp, hread⟩ := ih (i + (len + 1))
            (if compressDepth = 0 then r + (len + 1) else r) compressDepth (n ++ [l])
            (by omega) hd (by omega)
          exact ⟨p, hp, hread.of_next fun hlt => ⟨hlt, if_neg (by omega)⟩⟩

/-- **`qname2host` always returns.** -/
theorem qname2host_reading {msg : List Char} {startIdx : Nat} (h : startIdx ≤ msg.length) :
    ∃ p, qname2host msg startIdx = .ret p ∧ Reading 0 0 p :=
  qname2hostLoop_reading startIdx _ startIdx 0 0 [] h (by omega) (by omega)

section Written

variable {msg : List Char} {startIdx : Nat}

/-- Labels that stand at `i` are read one after the other. -/
theorem qname2hostLoop_labels (n : Name) (fuel i r : Nat) (s : List Char)
    (h : wire n <+: msg.drop i) :
    qname2hostLoop msg startIdx (n.length + fuel) i r 0 s =
      qname2hostLoop msg startIdx fuel (i + (wire n).length) (r + (wire n).length) 0
        (s ++ text n) := by
  induction n generalizing i r s with
  | nil => simp
  | cons l n ih =>
    have hl : l.wire <+: msg.drop i := (List.prefix_append _ _).trans h
    have hend : i + l.wire.length ≤ msg.length := length_le_append (List.cons_ne_nil _ _) hl
    have hpos := l.length_pos
    have hle := l.le
    rw [Label.length_wire] at hend
    have hbyte : (msg.getD i nul).toNat = l.bytes.length := by
      rw [getD_at_drop hl, toNat_byte _ (by omega)]
    have hrest : wire n <+: msg.drop (i + (l.bytes.length + 1)) := by
      obtain ⟨u, hu⟩ := h
      refine ⟨u, ?_⟩
      rw [← List.drop_drop, ← hu, wire_cons, List.append_assoc, List.drop_left' l.length_wire]
    have htake : (msg.drop (i + 1)).take l.bytes.length = l.bytes := by
      obtain ⟨u, hu⟩ := hl
      rw [← List.drop_drop, ← hu]
      simp [Label.wire]
    have hfuel : (l :: n).length + fuel = (n.length + fuel) + 1 := by
      rw [List.length_cons]
      omega
    rw [hfuel, qname2hostLoop, charAt_of_le (by omega), Outcome.ret_bind]
    simp only [hbyte, htake]
    rw [if_neg (by omega), if_neg (by unfold dnsMaxLabel; omega), if_neg (by omega),
      if_pos trivial, ih _ _ _ hrest, wire_cons, List.length_append, Label.length_wire, text_cons,
      Nat.add_assoc i, Nat.add_assoc r, List.append_assoc, List.append_assoc, List.singleton_append]

/-- The labels of a name that is written at `startIdx`, and the loop behind them. -/
theorem qname2host_labels {w : Written} (h : w.bytes <+: msg.drop startIdx) :
    ∃ fuel, 10 * (msg.length + 2) + (msg.length - (startIdx + (wire w.labels).length)) < fuel ∧
      qname2host msg startIdx = qname2hostLoop msg startIdx fuel
        (startIdx + (wire w.labels).length) (wire w.labels).length 0 (text w.labels) := by
  have hpos := w.ending.length_pos
  have hle := length_le_append (by
    intro hnil
    have hlen := congrArg List.length hnil
    rw [Written.bytes, List.length_append, List.length_nil] at hlen
    omega) h
  rw [Written.bytes, List.length_append] at hle
  have hlab := length_le_wire w.labels
  refine ⟨11 * (msg.length + 2) - w.labels.length, by omega, ?_⟩
  have hfuel : 11 * (msg.length + 2) =
      w.labels.length + (11 * (msg.length + 2) - w.labels.length) := by omega
  rw [qname2host, hfuel, qname2hostLoop_labels _ _ _ _ _ ((List.prefix_append _ _).trans h),
    ← hfuel, Nat.zero_add, List.nil_append]

theorem ending_stands {w : Written} {o : Nat} (h : w.bytes <+: msg.drop o) :
    w.ending.bytes <+: msg.drop (o + (wire w.labels).length) := by
  obtain ⟨u, hu⟩ := h
  refine ⟨u, ?_⟩
  rw [← List.drop_drop, ← hu, Written.bytes, List.append_assoc, List.drop_left]

/-- The loop at a zero byte. -/
theorem qname2hostLoop_zero {i r compressDepth : Nat} {s : List Char} (fuel : Nat)
    (h : Ending.root.bytes <+: msg.drop i) :
    qname2hostLoop msg startIdx (fuel + 1) i r compressDepth s =
      if s.length = 0 then .ret (0, [])
      else if s.length > 255 then .ret (-1, [])
      else .ret (r + 1, s) := by
  have hle := length_le_append (List.cons_ne_nil _ _) h
  have hbyte : (msg.getD i nul).toNat = 0 := by
    rw [getD_at_drop h]
    rfl
  rw [qname2hostLoop, charAt_of_le (by omega), Outcome.ret_bind]
  exact if_pos hbyte

/-- The loop at the first pointer of a name: it fails, or goes on at the low byte. -/
theorem qname2hostLoop_pointer {p : Fin 16384} {i : Nat} (startIdx fuel r : Nat) (s : List Char)
    (h : (Ending.pointer p).bytes <+: msg.drop i) :
    qname2hostLoop msg startIdx (fuel + 1) i r 0 s = .ret (-1, []) ∨
      ∃ j, j < msg.length ∧ qname2hostLoop msg startIdx (fuel + 1) i r 0 s =
        qname2hostLoop msg startIdx fuel j (r + 1) 1 s := by
  have hle : i + (Ending.pointer p).bytes.length ≤ msg.length :=
    length_le_append (List.cons_ne_nil _ _) h
  have hp := p.isLt
  have hbyte : (msg.getD i nul).toNat = 192 + p.val / 256 := by
    rw [getD_at_drop h, toNat_byte _ (by omega)]
  have hlen : (Ending.pointer p).bytes.length = 2 := rfl
  rw [qname2hostLoop, charAt_of_le (by omega), Outcome.ret_bind]
  simp only [hbyte]
  rw [if_neg (by omega), if_pos (by unfold dnsMaxLabel; omega)]
  by_cases hdeep : startIdx = 0 ∨ 0 + 1 > 10
  · exact .inl (if_pos hdeep)
  · rw [if_neg hdeep]
    by_cases hbits : (192 + p.val / 256) &&& 0xc0 ≠ 0
    · rw [if_pos hbits, if_neg (by omega), charAt_of_le (by omega), Outcome.ret_bind]
      by_cases hj : (msg.getD (i + 1) nul).toNat &&& 0xff ≥ msg.length
      · exact .inl (if_pos hj)
      · exact .inr ⟨_, Nat.not_le.mp hj, if_neg hj⟩
    · exact .inl (if_neg hbits)

/-- A name that ends in a zero byte is read to that byte; the root gives the value 0. -/
theorem qname2host_root {n : Name} (h : Written.bytes ⟨n, .root⟩ <+: msg.drop startIdx)
    (hlen : (text n).length ≤ 255) :
    qname2host msg startIdx =
      if n = [] then .ret (0, []) else .ret (((wire n).length : Int) + 1, text n) := by
  obtain ⟨fuel, hfuel, hloop⟩ := qname2host_labels h
  obtain ⟨fuel, rfl⟩ : ∃ k, fuel = k + 1 := ⟨fuel - 1, by omega⟩
  rw [hloop, qname2hostLoop_zero fuel (ending_stands h)]
  by_cases hne : n = []
  · rw [if_pos hne]
    subst hne
    rfl
  · have htext : (text n).length ≠ 0 := by
      rw [← length_wire]
      have hpos := List.length_pos_of_ne_nil hne
      have hle := length_le_wire n
      omega
    rw [if_neg htext, if_neg (Nat.not_lt.mpr hlen), if_neg hne]

/-- **Where `qname2host` reads a written name, it reads it to its end**: the value is
that of an error, that of the root, or the number of bytes the name takes. -/
theorem qname2host_written {w : Written} (h : w.bytes <+: msg.drop startIdx) :
    ∃ v t, qname2host msg startIdx = .ret (v, t) ∧
      ((v = -1 ∨ v = 0) ∧ t = [] ∨
        v = w.bytes.length ∧ ∃ n : Name, n ≠ [] ∧ t = text n ∧ (text n).length ≤ 255) := by
  obtain ⟨fuel, hfuel, hloop⟩ := qname2host_labels h
  obtain ⟨fuel, rfl⟩ : ∃ k, fuel = k + 1 := ⟨fuel - 1, by omega⟩
  have hend := ending_stands h
  have hsize : (w.bytes.length : Int) = (wire w.labels).length + w.ending.bytes.length := by
    rw [Written.bytes, List.length_append]
    omega
  rw [hloop]
  cases he : w.ending with
  | root =>
    rw [he] at hend hsize
    rw [qname2hostLoop_zero fuel hend]
    by_cases h0 : (text w.labels).length = 0
    · exact ⟨0, [], if_pos h0, .inl ⟨.inr rfl, rfl⟩⟩
    · rw [if_neg h0]
      by_cases hlong : (text w.labels).length > 255
      · exact ⟨-1, [], if_pos hlong, .inl ⟨.inl rfl, rfl⟩⟩
      · have hne : w.labels ≠ [] := by
          intro hnil
          rw [hnil] at h0
          exact h0 rfl
        exact ⟨_, _, if_neg hlong, .inr ⟨hsize.symm, w.labels, hne, rfl, by omega⟩⟩
  | pointer p =>
    rw [he] at hend hsize
    rcases qname2hostLoop_pointer startIdx fuel (wire w.labels).length (text w.labels)
      hend with hfail | ⟨j, hj, hgo⟩
    · exact ⟨-1, [], hfail, .inl ⟨.inl rfl, rfl⟩⟩
    · obtain ⟨q, hq, hread⟩ := qname2hostLoop_reading startIdx fuel j
        ((wire w.labels).length + 1) 1 w.labels (Nat.le_of_lt hj) (by omega) (by omega)
      rw [hgo, hq]
      cases hread with
      | fails => exact ⟨-1, [], rfl, .inl ⟨.inl rfl, rfl⟩⟩
      | root => exact ⟨0, [], rfl, .inl ⟨.inr rfl, rfl⟩⟩
      | name hne hlen hpos hv =>
        refine ⟨_, _, rfl, .inr ⟨?_, _, hne, rfl, hlen⟩⟩
        rw [hv (by omega), hsize]
        show _ = _ + ((2 : Nat) : Int)
        omega

end Written

end Hcpp.Dns
