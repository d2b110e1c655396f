import Hcpp.Dns.AcceptsAnswer
import Hcpp.Dns.DohResolve

/-!
# What a rejected reply leaves behind

`get` ends with 0 whatever `parse_rfc8484` returns, so a reply that is rejected
behind good records has left their answers in `result`, and `resolve` takes them
for those of the provider.
-/

namespace Hcpp.Dns

/-! ## What the parser has put into `result` -/

/-- The answers put into `result` when the reply is rejected: those of the records that the
loop goes past, if it comes to the records. -/
inductive PutBefore (name reply : List Char) (type : Nat) (contentIdx : Option Nat) (cl : Nat) :
    List AnswerT → Prop
  | noBody (hbody : replyBody reply contentIdx cl = .ret none) :
      PutBefore name reply type contentIdx cl []
  | noRecords {msg : List Char} (hbody : replyBody reply contentIdx cl = .ret (some msg))
      (hasked : asked name msg = none) : PutBefore name reply type contentIdx cl []
  | records {msg fqdn : List Char} {o e : Nat} {rs : List RawRecord}
      (hbody : replyBody reply contentIdx cl = .ret (some msg))
      (hasked : asked name msg = some (fqdn, o)) (hwalk : Walk msg fqdn o rs e)
      (hstop : StopsAt msg fqdn e) :
      PutBefore name reply type contentIdx cl (answersOf msg fqdn type rs)

section Parse

variable {name reply : List Char} {type cl : Nat} {contentIdx : Option Nat}
  {result result' : DnsReply}

/-- **What a rejected reply leaves in `result`.** -/
theorem parseRfc8484_rejected
    (h : parseRfc8484 name type result reply contentIdx cl = .ret (-1, result')) :
    ∃ as, PutBefore name reply type contentIdx cl as ∧ result' = result.putAll 0 as := by
  rw [parseRfc8484, Outcome.bind_eq_ret] at h
  obtain ⟨body, hbody, h⟩ := h
  cases body with
  | none =>
    have hsame := Outcome.ret.inj h
    exact ⟨[], .noBody hbody, (Prod.mk.inj hsame).2.symm⟩
  | some msg =>
    simp only [parseMessage_asked] at h
    cases ha : asked name msg with
    | none =>
      rw [ha] at h
      exact ⟨[], .noRecords hbody ha, (Prod.mk.inj (Outcome.ret.inj h)).2.symm⟩
    | some p =>
      obtain ⟨fqdn, o⟩ := p
      rw [ha] at h
      simp only at h
      have ho := asked_le ha
      obtain ⟨rs, e, hwalk, hstop⟩ := exists_walk fqdn ho
      refine ⟨_, .records hbody ha hwalk hstop, ?_⟩
      rcases recordLoop_end hwalk hstop ho type (msg.length + 1) result (by omega)
        with ⟨-, hret⟩ | ⟨-, hret⟩ | ⟨-, -, hret⟩
      · rw [hret, Outcome.ret.injEq, Prod.mk.injEq] at h
        have hne : (if anyAnswers fqdn type rs then (1 : Int) else 0) ≠ -1 := by
          split <;> decide
        exact absurd h.1 hne
      · rw [hret] at h
        cases h
      · rw [hret, Outcome.ret.injEq, Prod.mk.injEq] at h
        exact h.2.symm

/-- Answers that are put leave `result` as it was when they stood there. -/
theorem putAll_eq_self_iff (result : DnsReply) (as : List AnswerT) :
    result.putAll 0 as = result ↔ as <+: result := by
  rw [putAll_eq result (Nat.zero_le _), List.take_zero, List.nil_append, Nat.zero_add]
  constructor
  · intro h
    exact ⟨_, h⟩
  · rintro ⟨rest, rfl⟩
    rw [List.drop_left]

end Parse

/-! ## What `get` makes of it -/

/-- What `get` hands to `parse_rfc8484`: the reply, where its content begins, and how long it
is; or nothing, when `get` fails before. -/
def handed (m : Memory) (dnsHost : List Char) (now : Nat) (name : List Char) (qtype : Nat) :
    Outcome (Option (List Char × Nat × Nat)) :=
  if ¬ validName name then .ret none
  else do
    let query ← makeQuery now name qtype
    if query.length = 0 then .ret none
    else do
      let m := m.asyncWriteAll (getRequest dnsHost query)
      let (m, reply) ← m.asyncLoadUntil crlfcrlf
      let m := m.removeSome reply.length
      match contentLength reply with
      | none => .ret none
      | some cl =>
        if cl > 65535 then .ret none
        else do
          let sv2 := m.getSome
          let (_, all) ← bodyLoop cl (cl + 1) (m.removeSome sv2.length) (reply ++ sv2) sv2.length
          .ret (some (all, reply.length, cl))

section Get

variable {m : Memory} {dnsHost : List Char} {now : Nat} {name : List Char} {qtype : Nat}
  {result result' : DnsReply} {reply : List Char} {contentIdx cl : Nat}

/-- **`get` is the exchange and the parser**, and what the parser returns is dropped. -/
theorem get_eq (m : Memory) (dnsHost : List Char) (now : Nat) (name : List Char) (qtype : Nat)
    (result : DnsReply) :
    get m dnsHost now name qtype result =
      (handed m dnsHost now name qtype >>= fun h =>
        match h with
        | none => .ret (-1, result)
        | some (reply, contentIdx, cl) =>
          parseRfc8484 name qtype result reply (some contentIdx) cl >>= fun p =>
            .ret (0, p.2)) := by
  unfold get handed
  by_cases hv : ¬ validName name
  · rw [if_pos hv, if_pos hv]
    rfl
  · rw [if_neg hv, if_neg hv]
    cases makeQuery now name qtype with
    | ret query =>
      simp only [Outcome.ret_bind]
      by_cases hlen : query.length = 0
      · rw [if_pos hlen, if_pos hlen]
        rfl
      · rw [if_neg hlen, if_neg hlen]
        cases (m.asyncWriteAll (getRequest dnsHost query)).asyncLoadUntil crlfcrlf with
        | ret p =>
          simp only [Outcome.ret_bind]
          cases contentLength p.2 with
          | none => rfl
          | some cl =>
            simp only
            by_cases hcl : cl > 65535
            · rw [if_pos hcl, if_pos hcl]
              rfl
            · rw [if_neg hcl, if_neg hcl]
              generalize bodyLoop cl (cl + 1) _ _ _ = loop
              cases loop <;> rfl
        | _ => rfl
    | _ => rfl

/-- Whatever the parser returns, `get` returns 0. -/
theorem get_of_handed {v : Int} (h : handed m dnsHost now name qtype =
      .ret (some (reply, contentIdx, cl)))
    (hparse : parseRfc8484 name qtype result reply (some contentIdx) cl = .ret (v, result')) :
    get m dnsHost now name qtype result = .ret (0, result') := by
  rw [get_eq, h, Outcome.ret_bind]
  simp only
  rw [hparse, Outcome.ret_bind]

/-- No trace is left of the reply: `result` is as it was, and `get` returns a negative value. -/
structure NoTrace (m : Memory) (dnsHost : List Char) (now : Nat) (name : List Char) (qtype : Nat)
    (result : DnsReply) (reply : List Char) (contentIdx cl : Nat) : Prop where
  unchanged : ∀ v result', parseRfc8484 name qtype result reply (some contentIdx) cl =
    .ret (v, result') → result' = result
  negative : ∃ v result', get m dnsHost now name qtype result = .ret (v, result') ∧ v < 0

/-- `get` does not fail where the parser does. -/
theorem not_noTrace {v : Int} (h : handed m dnsHost now name qtype =
      .ret (some (reply, contentIdx, cl)))
    (hparse : parseRfc8484 name qtype result reply (some contentIdx) cl = .ret (v, result')) :
    ¬ NoTrace m dnsHost now name qtype result reply contentIdx cl := by
  rintro ⟨-, v', r', hget, hneg⟩
  rw [get_of_handed h hparse, Outcome.ret.injEq, Prod.mk.injEq] at hget
  omega

end Get

/-- **A rejected reply leaves a trace**: of every reply that `get` hands to the parser, and
that the parser rejects, `get` returns 0, with the answers of the records in front of the bad
one over what stood in `result`; it is as it was when they stood there. -/
theorem get_rejected (m : Memory) (dnsHost : List Char) (now : Nat) (name : List Char)
    (qtype : Nat) (result result' : DnsReply) (reply : List Char) (contentIdx cl : Nat)
    (h : handed m dnsHost now name qtype = .ret (some (reply, contentIdx, cl)))
    (hparse : parseRfc8484 name qtype result reply (some contentIdx) cl = .ret (-1, result')) :
    ¬ NoTrace m dnsHost now name qtype result reply contentIdx cl ∧
      get m dnsHost now name qtype result = .ret (0, result') ∧
      ∃ as, PutBefore name reply qtype (some contentIdx) cl as ∧ result' = result.putAll 0 as ∧
        (result' = result ↔ as <+: result) := by
  obtain ⟨as, hput, rfl⟩ := parseRfc8484_rejected hparse
  exact ⟨not_noTrace h hparse, get_of_handed h hparse, as, hput, rfl,
    putAll_eq_self_iff result as⟩

/-- **What `resolve` takes from it**: the data of these answers. -/
theorem gather_rejected {name reply : List Char} {p : Provider} {result : DnsReply}
    {contentIdx cl : Nat}
    (h : handed p.mem p.host p.now name typeA = .ret (some (reply, contentIdx, cl)))
    (hparse : parseRfc8484 name typeA [] reply (some contentIdx) cl = .ret (-1, result))
    (ps : List Provider) (ips : List (List Char)) :
    ∃ as, PutBefore name reply typeA (some contentIdx) cl as ∧
      gather name (p :: ps) ips = gather name ps ((as.map AnswerT.rdata).foldl insertIp ips) := by
  obtain ⟨as, hput, rfl⟩ := parseRfc8484_rejected hparse
  rw [putAll_nil] at hparse
  refine ⟨as, hput, ?_⟩
  rw [gather, getA, get_of_handed h hparse, Outcome.ret_bind]

/-! ## The reply with an OPT record -/

def oneOneOneOneBytes : List Char :=
  "HTTP/1.1 200 OK\r\nContent-Length: 65\r\n\r\n".toList ++ oneOneOneOneReply.bytes

/-- 1.1.1.1, with its reply in one segment. -/
def oneOneOneOne : Provider where
  host := "1.1.1.1".toList
  now := 0
  mem := Memory.fresh .ssl [oneOneOneOneBytes] none

/-- Its address. -/
def oneOneOneOneAnswer : AnswerT :=
  ⟨"github.com".toList, typeA, classIN, 46, "192.30.255.112".toList⟩

theorem handed_oneOneOneOne : handed oneOneOneOne.mem oneOneOneOne.host oneOneOneOne.now
    "github.com".toList typeA = .ret (some (oneOneOneOneBytes, 39, 65)) := by
  decide +kernel

theorem parse_oneOneOneOne : parseRfc8484 "github.com".toList typeA [] oneOneOneOneBytes (some 39)
    65 = .ret (-1, [oneOneOneOneAnswer]) := by
  decide +kernel

/-- `get` returns 0 for it, with its address. -/
theorem get_rejected_opt : get oneOneOneOne.mem oneOneOneOne.host oneOneOneOne.now
    "github.com".toList typeA [] = .ret (0, [oneOneOneOneAnswer]) :=
  (get_rejected oneOneOneOne.mem oneOneOneOne.host oneOneOneOne.now "github.com".toList typeA []
    [oneOneOneOneAnswer] oneOneOneOneBytes 39 65 handed_oneOneOneOne parse_oneOneOneOne).2.1

/-- The address is left in `result`, `get` does not fail, and `resolve` gathers it. -/
theorem rejected_gathered :
    handed oneOneOneOne.mem oneOneOneOne.host oneOneOneOne.now "github.com".toList typeA =
        .ret (some (oneOneOneOneBytes, 39, 65)) ∧
      parseRfc8484 "github.com".toList typeA [] oneOneOneOneBytes (some 39) 65 =
        .ret (-1, [oneOneOneOneAnswer]) ∧
      ¬ NoTrace oneOneOneOne.mem oneOneOneOne.host oneOneOneOne.now "github.com".toList typeA []
        oneOneOneOneBytes 39 65 ∧
      gather "github.com".toList [oneOneOneOne] [] = .ret ["192.30.255.112".toList] := by
  refine ⟨handed_oneOneOneOne, parse_oneOneOneOne,
    not_noTrace handed_oneOneOneOne parse_oneOneOneOne, ?_⟩
  have hget := get_of_handed handed_oneOneOneOne parse_oneOneOneOne
  rw [gather, getA, hget, Outcome.ret_bind]
  rfl

end Hcpp.Dns
