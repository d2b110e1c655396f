import Hcpp.Dns.EncodeQname
import Hcpp.Dns.DnsHttps

/-!
# `host2qname` and `qname2host` are inverse

On names whose labels have no dots and no NUL, a text is encoded to the wire
form and read back.  `parse_rfc8484` does this with the target of a CNAME
record, in the other order, to get rid of the pointers.
-/

namespace Hcpp.Dns

open DomainName

/-- The labels can be told apart in the text. -/
def PlainName (n : Name) : Prop := ∀ l ∈ n, Plain l.bytes

/-- The wire form of a whole name. -/
def wireName (n : Name) : List Char := wire n ++ [nul]

theorem plainName_cons {l : Label} {n : Name} (h : PlainName (l :: n)) :
    Plain l.bytes ∧ PlainName n :=
  ⟨h l List.mem_cons_self, fun l' hl' => h l' (List.mem_cons_of_mem l hl')⟩

theorem wireName_cons (l : Label) (n : Name) :
    wireName (l :: n) = Char.ofNat l.bytes.length :: l.bytes ++ wireName n := by
  rw [wireName, wire_cons, List.append_assoc]
  rfl

theorem encoded_text {n : Name} (h : PlainName n) : Encoded (text n) (wireName n) := by
  induction n with
  | nil => exact .stop rfl
  | cons l n ih =>
    obtain ⟨hl, hn⟩ := plainName_cons h
    have hle := l.le
    rw [text_cons, wireName_cons]
    exact .more hl (by omega) (ih hn)

/-- The text without the dot at its end. -/
theorem dropLast_text_cons (l : Label) {n : Name} (hne : n ≠ []) :
    (text (l :: n)).dropLast = l.bytes ++ '.' :: (text n).dropLast := by
  have hnil : text n ≠ [] := by
    intro h
    have hlen := length_wire n
    have hle := length_le_wire n
    rw [h, List.length_nil] at hlen
    exact hne (List.length_eq_zero_iff.mp (by omega))
  rw [text_cons, List.dropLast_append_of_ne_nil (List.cons_ne_nil _ _),
    List.dropLast_cons_of_ne_nil hnil]

theorem encoded_dropLast {n : Name} (hne : n ≠ []) (h : PlainName n) :
    Encoded (text n).dropLast (wireName n) := by
  induction n with
  | nil => exact absurd rfl hne
  | cons l n ih =>
    obtain ⟨hl, hn⟩ := plainName_cons h
    have hle := l.le
    rw [wireName_cons]
    by_cases hnil : n = []
    · subst hnil
      have hlast : (text [l]).dropLast = l.bytes ++ [] := by
        rw [text_cons, text_nil, List.dropLast_concat, List.append_nil]
      rw [hlast]
      exact .last hl l.ne_nil (by omega) rfl
    · rw [dropLast_text_cons l hnil]
      exact .more hl (by omega) (ih hnil hn)

/-- The text of a name without the last dot has no long labels either. -/
theorem shortLabels_dropLast {n : Name} (hne : n ≠ []) : ShortLabels (text n).dropLast := by
  obtain ⟨k, l, rfl⟩ := List.eq_nil_or_concat' n |>.resolve_left hne
  have htext : text (k ++ [l]) = text k ++ l.bytes ++ ['.'] := by
    rw [text_append, text_cons, text_nil, List.append_assoc]
  have hshort := shortLabels_text (k ++ [l])
  rw [htext] at hshort ⊢
  rw [List.dropLast_concat]
  exact hshort.of_append

theorem host2qname_text_plain {n : Name} (h : PlainName n) (hlen : (text n).length ≤ 255) :
    host2qname (text n) = .ret (((wireName n).length : Int), wireName n) :=
  host2qname_of_encoded (shortLabels_text n) (encoded_text h) (by omega)

/-- **Text to wire and back.**  The text of a name, with the dot at its end or without it, is
encoded to the wire form, and the wire form is read as the text; and where the target of a
CNAME record reads as the name, its wire form is stored as the data of the answer. -/
theorem host2qname_inverse (n : Name) (hne : n ≠ []) (h : PlainName n)
    (hlen : (text n).length ≤ 255) :
    host2qname (text n) = .ret (((wireName n).length : Int), wireName n) ∧
    host2qname (text n).dropLast = .ret (((wireName n).length : Int), wireName n) ∧
    qname2host (wireName n) 0 = .ret (((wireName n).length : Int), text n) ∧
    ∀ (msg fqdn : List Char) (type fuel o acnt : Nat) (result : DnsReply) (has : Bool)
      (ans : AnswerT) (aname : List Char) (idx rdlen : Nat) (v : Int),
      o < msg.length → recordHead msg o = .ret (some (ans, aname, idx, rdlen)) →
      ans.qtype = typeCNAME → qname2host msg idx = .ret (v, text n) → 0 < v →
      recordLoop msg fqdn type (fuel + 1) o acnt result has =
        recordLoop msg fqdn type fuel (idx + rdlen) (acnt + 1)
          (result.put acnt { ans with rdata := wireName n }) has := by
  have hpos : 0 < (wireName n).length := by simp [wireName]
  refine ⟨host2qname_text_plain h hlen, ?_, ?_, ?_⟩
  · refine host2qname_of_encoded (shortLabels_dropLast hne) (encoded_dropLast hne h) ?_
    rw [List.length_dropLast]
    omega
  · have hstands : Written.bytes ⟨n, .root⟩ <+: (wireName n).drop 0 := List.prefix_refl _
    rw [qname2host_root hstands hlen, if_neg hne, wireName, List.length_append]
    rfl
  · intro msg fqdn type fuel o acnt result has ans aname idx rdlen v ho hhead hcname hq hv
    have hno (type : Nat) (hne : typeCNAME ≠ type) : ¬ (ans.qtype = type ∧ lcs aname = fqdn) :=
      fun hown => hne (hcname.symm.trans hown.1)
    rw [recordLoop, if_neg (by omega), hhead, Outcome.ret_bind]
    simp only
    rw [if_neg (hno _ (by decide)), if_neg (hno _ (by decide)), if_pos hcname, hq,
      Outcome.ret_bind]
    simp only
    rw [if_neg (by omega), host2qname_text_plain h hlen, Outcome.ret_bind]
    simp only
    rw [if_neg (by omega)]

/-- `foo.bar.` -/
theorem host2qname_inverse_foo :
    host2qname "foo.bar.".toList = .ret (9, "\x03foo\x03bar\x00".toList) := by
  let n : Name := [⟨"foo".toList, by decide, by decide⟩, ⟨"bar".toList, by decide, by decide⟩]
  have hplain : PlainName n := by
    unfold PlainName Plain
    decide
  exact (host2qname_inverse n (by decide) hplain (by decide)).1

end Hcpp.Dns
