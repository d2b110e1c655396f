import Hcpp.Dns.RecordTurns

/-!
# `parse_rfc8484` and the bounds of the reply

Whatever the reply is, the parser returns, or meets one of two things on its
walk: a root owner that passes for the front of a record, where `back()` is
taken of an empty view, and an AAAA record of the queried name, whose address is
read through a pointer into a string that is gone.
-/

namespace Hcpp.Dns

section Body

variable {reply : List Char}

/-- The chunks come to an end: each takes bytes. -/
theorem exists_chunkLoop (fuel idx : Nat) (dnsReply : List Char)
    (hfuel : reply.length + 1 - idx < fuel) :
    ∃ body, chunkLoop reply fuel idx dnsReply = .ret body := by
  induction fuel generalizing idx dnsReply with
  | zero => omega
  | succ fuel ih =>
    rw [chunkLoop]
    cases hf : Search.find crlf (reply.drop idx) with
    | none => exact ⟨_, rfl⟩
    | some n =>
      have hlt : n + 2 ≤ (reply.drop idx).length := Search.find_add_length_le hf
      rw [List.length_drop] at hlt
      simp only
      rw [if_neg (by omega)]
      by_cases h0 : strtoul 16 (reply.drop idx) = 0
      · exact ⟨_, if_pos h0⟩
      · rw [if_neg h0]
        by_cases hbig : strtoul 16 (reply.drop idx) > 65535 ∨
            idx + n + 2 + strtoul 16 (reply.drop idx) + 2 > reply.length
        · exact ⟨_, if_pos hbig⟩
        · rw [if_neg hbig]
          exact ih _ _ (by omega)

theorem exists_chunkedBody (reply : List Char) : ∃ body, chunkedBody reply = .ret body := by
  unfold chunkedBody
  split
  · exact ⟨_, rfl⟩
  · next idx _ =>
    by_cases hend : idx + 4 ≥ reply.length
    · exact ⟨_, if_pos hend⟩
    · rw [if_neg hend]
      exact exists_chunkLoop _ _ _ (by omega)

theorem exists_replyBody {contentIdx : Nat} (cl : Nat) (h : contentIdx ≤ reply.length) :
    ∃ body, replyBody reply (some contentIdx) cl = .ret body := by
  unfold replyBody
  simp only
  by_cases hcl : cl > 0
  · rw [if_pos hcl, if_neg (by omega)]
    by_cases hshort : (reply.drop contentIdx).length < cl
    · exact ⟨_, if_pos hshort⟩
    · exact ⟨_, if_neg hshort⟩
  · rw [if_neg hcl]
    exact exists_chunkedBody reply

end Body

/-- What is undefined at `e` is not gone past. -/
theorem UndefinedAt.stopsAt {msg fqdn : List Char} {e : Nat} (h : UndefinedAt msg fqdn e) :
    StopsAt msg fqdn e := by
  obtain ⟨hlt, hmis | ⟨r, hr, hd⟩⟩ := h
  · intro r hr _
    have hread := (rawRecord_spec (by omega) hr).1
    rw [nameRead_misread hmis] at hread
    cases hread
  · intro r' hr' _ hacc
    rw [hr, Option.some.injEq] at hr'
    subst hr'
    exact hacc.2.1 hd.1

/-- The parser meets something undefined behind the records it goes past. -/
def MeetsUndefined (name msg : List Char) : Prop :=
  ∃ fqdn o rs e, asked name msg = some (fqdn, o) ∧ Walk msg fqdn o rs e ∧ UndefinedAt msg fqdn e

/-- **A message is parsed to its end, or is undefined** where `MeetsUndefined` says so. -/
theorem parseMessage_cases (name : List Char) (type : Nat) (result : DnsReply)
    (msg : List Char) :
    (¬ MeetsUndefined name msg ∧ ∃ p, parseMessage name type result msg = .ret p) ∨
      MeetsUndefined name msg ∧ parseMessage name type result msg = .undefined := by
  rw [parseMessage_asked]
  cases ha : asked name msg with
  | none =>
    refine .inl ⟨?_, _, rfl⟩
    rintro ⟨fqdn, o, rs, e, h, -⟩
    rw [ha] at h
    cases h
  | some p =>
    obtain ⟨fqdn, o⟩ := p
    have ho := asked_le ha
    obtain ⟨rs, e, hw, he⟩ := exists_walk fqdn ho
    simp only
    have hmeets : MeetsUndefined name msg ↔ UndefinedAt msg fqdn e := by
      constructor
      · rintro ⟨fqdn', o', rs', e', h, hw', hu⟩
        rw [ha, Option.some.injEq, Prod.mk.injEq] at h
        obtain ⟨rfl, rfl⟩ := h
        obtain ⟨-, rfl⟩ := hw.unique he hw' hu.stopsAt
        exact hu
      · exact fun hu => ⟨fqdn, o, rs, e, ha, hw, hu⟩
    rw [hmeets]
    rcases recordLoop_end hw he ho type (msg.length + 1) result (by omega) with
      ⟨hend, hret⟩ | ⟨hu, hret⟩ | ⟨-, hu, hret⟩
    · refine .inl ⟨?_, _, hret⟩
      rintro ⟨hlt, -⟩
      omega
    · exact .inr ⟨hu, hret⟩
    · exact .inl ⟨hu, _, hret⟩

/-- **In bounds, and to an end.**  `parse_rfc8484` returns exactly where the message of the
reply, if it has one, does not meet an empty view or a string that is gone. -/
theorem parseRfc8484_safe (name : List Char) (type : Nat) (result : DnsReply)
    (reply : List Char) (contentIdx cl : Nat) (h : contentIdx ≤ reply.length) :
    (∃ p, parseRfc8484 name type result reply (some contentIdx) cl = .ret p) ↔
      ∀ msg, replyBody reply (some contentIdx) cl = .ret (some msg) →
        ¬ MeetsUndefined name msg := by
  obtain ⟨body, hbody⟩ := exists_replyBody cl h
  rw [parseRfc8484, hbody, Outcome.ret_bind]
  cases body with
  | none =>
    refine ⟨fun _ msg hmsg => ?_, fun _ => ⟨_, rfl⟩⟩
    cases hmsg
  | some msg =>
    simp only [Outcome.ret.injEq, Option.some.injEq, forall_eq']
    rcases parseMessage_cases name type result msg with ⟨hno, hret⟩ | ⟨hm, hret⟩
    · exact ⟨fun _ => hno, fun _ => hret⟩
    · rw [hret]
      constructor
      · rintro ⟨p, hp⟩
        cases hp
      · exact fun hno => absurd hm hno

/-- The answer to the question for `a`: its name through a pointer, and the address 1.2.3.4. -/
def addressReply : List Char :=
  "\x00\x00\x80\x00\x00\x01\x00\x01\x00\x00\x00\x00\x01a\x00\x00\x01\x00\x01".toList ++
    (Char.ofNat 192 :: "\x0c\x00\x01\x00\x01\x00\x00\x00\x3c\x00\x04\x01\x02\x03\x04".toList)

/-- A reply with a record is read to its end: nothing undefined is on the way. -/
theorem parseRfc8484_safe_address :
    parseRfc8484 ['a'] typeA [] addressReply (some 0) addressReply.length =
        .ret (1, [⟨['a'], typeA, 1, 60, "1.2.3.4".toList⟩]) ∧
      ¬ MeetsUndefined ['a'] addressReply := by
  have hret : parseRfc8484 ['a'] typeA [] addressReply (some 0) addressReply.length =
      .ret (1, [⟨['a'], typeA, 1, 60, "1.2.3.4".toList⟩]) := by decide +kernel
  refine ⟨hret, ?_⟩
  exact (parseRfc8484_safe ['a'] typeA [] addressReply 0 addressReply.length
    (Nat.zero_le _)).mp ⟨_, hret⟩ addressReply (by decide +kernel)

/-- The answer to the question for `a`: behind it the root, and ten bytes that begin with it
and pass for the front of a record. -/
def rootOwner : List Char :=
  "\x00\x00\x80\x00\x00\x01\x00\x01\x00\x00\x00\x00\x01a\x00\x00\x01\x00\x01".toList ++
    "\x00\x00\x00\x01\x00\x00\x00\x00\x00\x01\x00".toList

theorem parseRfc8484_empty_view :
    ¬ ∃ p, parseRfc8484 ['a'] typeA [] rootOwner (some 0) rootOwner.length = .ret p := by
  have h : parseRfc8484 ['a'] typeA [] rootOwner (some 0) rootOwner.length = .undefined := by
    decide +kernel
  rintro ⟨p, hp⟩
  rw [h] at hp
  cases hp

end Hcpp.Dns
