import Hcpp.Dns.DohResolve
import Hcpp.Dns.ParseSafety
import Hcpp.Dns.QueryForm
import Hcpp.Dns.RejectedReply
import Hcpp.Server.RelayLoops

/-!
# `resolve` against any providers

Nothing is assumed of what the providers send.  Each makes the query of a name
end in one of three ways: fewer bytes come than the head announces, and `get`
waits without end (`Starves`); the message meets something undefined (`Trips`);
or `get` returns (`Answers`).  `resolve` goes as the first provider goes that
does not answer, and where all do, it returns or throws (`resolve_any`).
-/

namespace Hcpp.Dns

open Memory

/-- A provider, and the segments it sends until it closes. -/
structure Server where
  host : List Char
  now : Nat
  room : Option Nat
  segments : List (List Char)

/-- Where the body begins and the length that the head announces, as `get` takes them. -/
def announced (bytes : List Char) : Option (Nat × Nat) :=
  match Search.find crlfcrlf bytes with
  | none => none
  | some i =>
    match contentLength (bytes.take (i + 4)) with
    | none => none
    | some cl => if cl > 65535 then none else some (i + 4, cl)

namespace Server

def bytes (s : Server) : List Char := s.segments.flatten

def memory (s : Server) : Memory := fresh .ssl s.segments s.room

def provider (s : Server) : Provider := ⟨s.host, s.now, s.memory⟩

/-- The bytes behind the head are fewer than it says. -/
def Starves (name : List Char) (s : Server) : Prop :=
  validName name = true ∧ ∃ idx cl, announced s.bytes = some (idx, cl) ∧ s.bytes.length < idx + cl

/-- The message of the reply meets what is undefined. -/
def Trips (name : List Char) (s : Server) : Prop :=
  ∃ reply idx cl msg, handed s.memory s.host s.now name typeA = .ret (some (reply, idx, cl)) ∧
    replyBody reply (some idx) cl = .ret (some msg) ∧ MeetsUndefined name msg

def Answers (name : List Char) (s : Server) : Prop := ¬ s.Starves name ∧ ¬ s.Trips name

end Server

/-! ## The exchange -/

section Exchange

variable {name : List Char} {s : Server} {idx cl : Nat}

/-- The loop only adds to the reply. -/
theorem bodyLoop_keeps {m m' : Memory} {reply all : List Char} {cli : Nat} (fuel : Nat)
    (h : bodyLoop cl fuel m reply cli = .ret (m', all)) : reply <+: all := by
  induction fuel generalizing m reply cli with
  | zero => cases h
  | succ fuel ih =>
    rw [bodyLoop] at h
    by_cases hlt : cli < cl
    · rw [if_pos hlt] at h
      exact (List.prefix_append _ _).trans (ih h)
    · rw [if_neg hlt, Outcome.ret.injEq, Prod.mk.injEq] at h
      rw [h.2]

theorem represents_asked (s : Server) (request : List Char) (h : s.bytes.length < 2 ^ 31) :
    (s.memory.asyncWriteAll request).Represents ⟨[], s.segments⟩ := by
  obtain ⟨-, hread, -, -⟩ := takes_buffer s.memory [request]
  have hfresh : s.memory.Represents ⟨[], s.segments⟩ := represents_fresh .ssl s.segments s.room h
  refine ⟨hfresh.wf.takes [request], ?_, ?_⟩
  · exact (takes_reads s.memory [request]).1.trans hfresh.feed
  · rw [takes_cons, takes_nil] at hread
    rw [hread]
    exact hfresh.small

/-- Where the head of a reply ends. -/
theorem announced_eq_some (h : announced s.bytes = some (idx, cl)) :
    ∃ r segs, Feed.pullUntil crlfcrlf [] s.segments = some (r, idx, segs) ∧ idx ≤ r.length ∧
      r ++ segs.flatten = s.bytes ∧ contentLength (r.take idx) = some cl ∧ cl ≤ 65535 := by
  unfold announced at h
  cases hf : Search.find crlfcrlf s.bytes with
  | none =>
    rw [hf] at h
    cases h
  | some i =>
    rw [hf] at h
    simp only at h
    have hnone : ¬ crlfcrlf <:+: ([] : List Char) := by decide
    obtain ⟨r, n, segs, hp⟩ := Feed.exists_pullUntil hnone (Search.isInfix_of_find hf)
    obtain ⟨hle, htake, j, hj, hn⟩ := Feed.take_of_pullUntil hp
    obtain ⟨hflat, -⟩ := Feed.pullUntil_spec hp
    have hji : j = i := Option.some.inj (hj.symm.trans hf)
    have hn4 : n = i + 4 := by
      rw [hn, hji]
      rfl
    cases hcl : contentLength (s.bytes.take (i + 4)) with
    | none =>
      rw [hcl] at h
      cases h
    | some cl' =>
      rw [hcl] at h
      simp only at h
      by_cases hbig : cl' > 65535
      · rw [if_pos hbig] at h
        cases h
      · rw [if_neg hbig, Option.some.injEq, Prod.mk.injEq] at h
        obtain ⟨rfl, rfl⟩ := h
        subst hn4
        refine ⟨r, segs, hp, hle, hflat, ?_, by omega⟩
        rw [htake]
        exact hcl

/-- The query of a valid name is sent. -/
theorem exists_query (now : Nat) (h : validName name = true) :
    ∃ query, makeQuery now name typeA = .ret query ∧ query.length ≠ 0 := by
  obtain ⟨-, -, t, -, -, ht, hne, -⟩ := makeQuery_valid now typeA h
  exact ⟨t, ht, mt List.length_eq_zero_iff.mp hne⟩

/-- Nothing is handed on of what `get` does not take. -/
theorem handed_refused (hs : s.bytes.length < 2 ^ 31)
    (h : validName name = true → announced s.bytes = none) :
    handed s.memory s.host s.now name typeA = .ret none := by
  unfold handed
  by_cases hv : validName name = true
  · obtain ⟨query, hq, hlen⟩ := exists_query s.now hv
    have hrep := represents_asked s (getRequest s.host query) hs
    rw [if_neg (not_not.mpr hv), hq, Outcome.ret_bind, if_neg hlen]
    have hno := h hv
    simp only
    cases hp : Feed.pullUntil crlfcrlf [] s.segments with
    | none =>
      rw [asyncLoadUntil_of_none (by decide) (by rw [hrep.incoming]; exact hp), Outcome.ret_bind]
      rfl
    | some p =>
      obtain ⟨r, n, segs⟩ := p
      obtain ⟨m', hload, -⟩ := hrep.loadUntil (by decide) (by decide) hp
      obtain ⟨-, htake, i, hi, rfl⟩ := Feed.take_of_pullUntil hp
      have hhead : contentLength (r.take (i + crlfcrlf.length)) =
          contentLength (s.bytes.take (i + 4)) := congrArg contentLength htake
      have hi : Search.find crlfcrlf s.bytes = some i := hi
      rw [announced, hi] at hno
      simp only at hno
      rw [hload, Outcome.ret_bind]
      simp only [hhead]
      cases hcl : contentLength (s.bytes.take (i + 4)) with
      | none => rfl
      | some cl =>
        rw [hcl] at hno
        simp only at hno ⊢
        by_cases hbig : cl > 65535
        · rw [if_pos hbig]
        · rw [if_neg hbig] at hno
          cases hno
  · rw [if_pos hv]

/-- What `get` takes comes down to the body loop, which has its head, and what came with it. -/
theorem handed_taken (hs : s.bytes.length < 2 ^ 31) (hv : validName name = true)
    (h : announced s.bytes = some (idx, cl)) :
    ∃ m reply cli, m.WF ∧ cli + m.incoming.flatten.length + idx = s.bytes.length ∧
      idx ≤ reply.length ∧
      handed s.memory s.host s.now name typeA =
        bodyLoop cl (cl + 1) m reply cli >>= fun p => .ret (some (p.2, idx, cl)) := by
  obtain ⟨r, segs, hp, hle, hflat, hcl, hsmall⟩ := announced_eq_some h
  obtain ⟨query, hq, hlen⟩ := exists_query s.now hv
  have hrep := represents_asked s (getRequest s.host query) hs
  obtain ⟨m1, hload, hrep1, -⟩ := hrep.loadUntil (by decide) (by decide) hp
  have hlength : (r.take idx).length = idx := by
    rw [List.length_take]
    omega
  -- what was read stands in one block, so `get_some` gives all that is left of it
  have hblocks : (m1.removeSome idx).buffs.length ≤ 1 := by
    obtain ⟨hbuffs, -⟩ := takes_buffer s.memory [getRequest s.host query]
    rw [takes_cons, takes_nil] at hbuffs
    have hbuffs : (s.memory.asyncWriteAll (getRequest s.host query)).buffs = [] := hbuffs
    have happend := asyncLoadUntil_of_pull hrep.wf (d := crlfcrlf) (by decide) (by decide)
      (by rw [hrep.incoming]; exact hp)
    rw [hload, Outcome.ret.injEq, Prod.mk.injEq] at happend
    rw [happend.1, removeSome, append_buffs, hbuffs]
    exact (List.dropWhile_sublist _).length_le
  have hcached : ([] ++ r : List Char).length = r.length := rfl
  obtain ⟨hrep2, -⟩ := hrep1.remove (n := idx) hle
  have hget := hrep2.getSome hblocks
  have hsome : (m1.removeSome idx).getSome.length = r.length - idx := by
    rw [hget, List.length_drop, hcached]
  obtain ⟨hrep3, -⟩ := hrep2.remove (n := (m1.removeSome idx).getSome.length) (by rw [hget])
  refine ⟨_, r.take idx ++ (m1.removeSome idx).getSome, (m1.removeSome idx).getSome.length,
    hrep3.wf, ?_, ?_, ?_⟩
  · rw [hrep3.incoming, hsome, ← hflat, List.length_append]
    show r.length - idx + segs.flatten.length + idx = _
    omega
  · rw [List.length_append, hlength]
    omega
  · unfold handed
    rw [if_neg (not_not.mpr hv), hq, Outcome.ret_bind, if_neg hlen]
    simp only
    rw [hload, Outcome.ret_bind]
    simp only
    rw [hlength, hcl]
    simp only
    rw [if_neg (by omega)]

/-- A starved exchange hands nothing on, and never ends. -/
theorem handed_starved (hs : s.bytes.length < 2 ^ 31) (h : s.Starves name) :
    handed s.memory s.host s.now name typeA = .spins := by
  obtain ⟨hv, idx, cl, ha, hlt⟩ := h
  obtain ⟨m, reply, cli, hwf, hlen, -, heq⟩ := handed_taken hs hv ha
  rw [heq, bodyLoop_spins _ _ _ _ hwf (by omega)]
  rfl

/-- One that is not starved hands the whole reply on. -/
theorem handed_fed (hs : s.bytes.length < 2 ^ 31) (hv : validName name = true)
    (h : announced s.bytes = some (idx, cl)) (hle : idx + cl ≤ s.bytes.length) :
    ∃ reply, idx ≤ reply.length ∧
      handed s.memory s.host s.now name typeA = .ret (some (reply, idx, cl)) := by
  obtain ⟨m, reply, cli, hwf, hlen, hidx, heq⟩ := handed_taken hs hv h
  have hcome : cl ≤ cli + m.incoming.flatten.length := by omega
  obtain ⟨⟨m', all⟩, hloop⟩ := bodyLoop_ends (cl + 1) m reply cli hwf hcome (by omega)
  have hmore : reply.length ≤ all.length := (bodyLoop_keeps _ hloop).length_le
  exact ⟨all, by omega, by rw [heq, hloop, Outcome.ret_bind]⟩

end Exchange

/-! ## The three ways -/

section Ways

variable {name : List Char} {s : Server}

/-- How the query of one provider goes. -/
inductive Goes (name : List Char) (s : Server) : Outcome (Int × DnsReply) → Prop
  | starves (h : s.Starves name) : Goes name s .spins
  | trips (h : s.Trips name) : Goes name s .undefined
  | answers (h : s.Answers name) (v : Int) (dr : DnsReply) : Goes name s (.ret (v, dr))

/-- A starved provider has no message to trip over. -/
theorem Server.Starves.not_trips (hs : s.bytes.length < 2 ^ 31) (h : s.Starves name) :
    ¬ s.Trips name := by
  rintro ⟨reply, idx, cl, msg, hret, -⟩
  rw [handed_starved hs h] at hret
  cases hret

/-- **`get_A` goes one of the three ways**, and does not throw. -/
theorem getA_goes (name : List Char) (hs : s.bytes.length < 2 ^ 31) :
    Goes name s (getA s.memory s.host s.now name []) := by
  rw [getA, get_eq]
  by_cases hstarve : s.Starves name
  · rw [handed_starved hs hstarve]
    exact .starves hstarve
  · by_cases htaken : validName name = true ∧ ∃ idx cl, announced s.bytes = some (idx, cl)
    · obtain ⟨hv, idx, cl, ha⟩ := htaken
      have hle : idx + cl ≤ s.bytes.length := by
        by_contra hlt
        exact hstarve ⟨hv, idx, cl, ha, by omega⟩
      obtain ⟨reply, hidx, hret⟩ := handed_fed hs hv ha hle
      obtain ⟨body, hbody⟩ := exists_replyBody cl hidx
      -- `handed` and `replyBody` are functions: this is the only message there is
      have htrips : s.Trips name ↔ ∃ msg, body = some msg ∧ MeetsUndefined name msg := by
        constructor
        · rintro ⟨reply', idx', cl', msg, hret', hbody', hmeets⟩
          rw [hret, Outcome.ret.injEq, Option.some.injEq, Prod.mk.injEq, Prod.mk.injEq] at hret'
          obtain ⟨rfl, rfl, rfl⟩ := hret'
          rw [hbody, Outcome.ret.injEq] at hbody'
          exact ⟨msg, hbody', hmeets⟩
        · rintro ⟨msg, rfl, hmeets⟩
          exact ⟨reply, idx, cl, msg, hret, hbody, hmeets⟩
      rw [hret, Outcome.ret_bind]
      simp only
      rw [parseRfc8484, hbody, Outcome.ret_bind]
      cases body with
      | none =>
        refine .answers ⟨hstarve, ?_⟩ 0 []
        rw [htrips]
        rintro ⟨msg, hmsg, -⟩
        cases hmsg
      | some msg =>
        simp only
        rcases parseMessage_cases name typeA [] msg with ⟨hno, p, hparse⟩ | ⟨hmeets, hparse⟩
        · rw [hparse, Outcome.ret_bind]
          refine .answers ⟨hstarve, ?_⟩ 0 p.2
          rw [htrips]
          rintro ⟨msg', hmsg, hmeets⟩
          rw [Option.some.inj hmsg] at hno
          exact hno hmeets
        · rw [hparse]
          exact .trips (htrips.mpr ⟨msg, rfl, hmeets⟩)
    · have hnone : validName name = true → announced s.bytes = none := by
        intro hv
        cases ha : announced s.bytes with
        | none => rfl
        | some p => exact absurd ⟨hv, p.1, p.2, ha⟩ htaken
      rw [handed_refused hs hnone, Outcome.ret_bind]
      refine .answers ⟨hstarve, ?_⟩ (-1) []
      rintro ⟨reply, idx, cl, msg, hret, -⟩
      rw [handed_refused hs hnone] at hret
      cases hret

/-- The first provider that does not answer. -/
def FirstOut (name : List Char) (Way : Server → Prop) (servers : List Server) : Prop :=
  ∃ before s after, servers = before ++ s :: after ∧ (∀ t ∈ before, t.Answers name) ∧ Way s

/-- How the queries of all providers go, one after the other. -/
inductive AllGo (name : List Char) (servers : List Server) : Outcome (List (List Char)) → Prop
  | starves (h : FirstOut name (Server.Starves name) servers) : AllGo name servers .spins
  | trips (h : FirstOut name (Server.Trips name) servers) : AllGo name servers .undefined
  | answer (h : ∀ s ∈ servers, s.Answers name) (ips : List (List Char)) :
      AllGo name servers (.ret ips)

theorem FirstOut.cons {Way : Server → Prop} {servers : List Server} (hs : s.Answers name)
    (h : FirstOut name Way servers) : FirstOut name Way (s :: servers) := by
  obtain ⟨before, t, after, rfl, hbefore, ht⟩ := h
  exact ⟨s :: before, t, after, rfl, List.forall_mem_cons.mpr ⟨hs, hbefore⟩, ht⟩

/-- **The loop over the providers** goes as the first one goes that does not answer. -/
theorem gather_goes (name : List Char) (servers : List Server)
    (hs : ∀ s ∈ servers, s.bytes.length < 2 ^ 31) (ips : List (List Char)) :
    AllGo name servers (gather name (servers.map Server.provider) ips) := by
  induction servers generalizing ips with
  | nil => exact .answer (by simp) ips
  | cons s servers ih =>
    obtain ⟨hsmall, hrest⟩ := List.forall_mem_cons.mp hs
    have hgo := getA_goes name hsmall
    rw [List.map_cons, gather]
    change Goes name s (getA s.provider.mem s.provider.host s.provider.now name []) at hgo
    generalize getA s.provider.mem s.provider.host s.provider.now name [] = out at hgo ⊢
    cases hgo with
    | starves h => exact .starves ⟨[], s, servers, rfl, by simp, h⟩
    | trips h => exact .trips ⟨[], s, servers, rfl, by simp, h⟩
    | answers h v dr =>
      rw [Outcome.ret_bind]
      have hnext := ih hrest ((dr.map AnswerT.rdata).foldl insertIp ips)
      simp only
      generalize gather name (servers.map Server.provider) _ = out at hnext ⊢
      cases hnext with
      | starves h' => exact .starves (h'.cons h)
      | trips h' => exact .trips (h'.cons h)
      | answer h' ips' => exact .answer (List.forall_mem_cons.mpr ⟨h, h'⟩) ips'

/-- There is one first provider that does not answer, and it goes one way. -/
theorem FirstOut.not_both {A B : Server → Prop} {servers : List Server}
    (hA : ∀ s, A s → ¬ s.Answers name) (hB : ∀ s, B s → ¬ s.Answers name)
    (hAB : ∀ s ∈ servers, A s → ¬ B s) (ha : FirstOut name A servers) :
    ¬ FirstOut name B servers := by
  obtain ⟨before, s, after, rfl, hbefore, hs⟩ := ha
  rintro ⟨before', t, after', heq, hbefore', ht⟩
  induction before generalizing before' with
  | nil =>
    cases before' with
    | nil =>
      obtain ⟨rfl, -⟩ := List.cons.inj heq
      exact hAB s List.mem_cons_self hs ht
    | cons u before' =>
      obtain ⟨rfl, -⟩ := List.cons.inj heq
      exact hA s hs (hbefore' s List.mem_cons_self)
  | cons u before ih =>
    cases before' with
    | nil =>
      obtain ⟨rfl, -⟩ := List.cons.inj heq
      exact hB u ht (hbefore u List.mem_cons_self)
    | cons u' before' =>
      obtain ⟨rfl, htail⟩ := List.cons.inj heq
      exact ih (fun s hs => hAB s (List.mem_cons_of_mem _ hs)) (List.forall_mem_cons.mp hbefore).2
        before' htail (List.forall_mem_cons.mp hbefore').2

theorem FirstOut.not_all {A : Server → Prop} {servers : List Server}
    (hA : ∀ s, A s → ¬ s.Answers name) (h : FirstOut name A servers) :
    ¬ ∀ s ∈ servers, s.Answers name := by
  obtain ⟨before, s, after, rfl, -, hs⟩ := h
  exact fun hall => hA s hs (hall s (List.mem_append_right _ List.mem_cons_self))

/-- The endpoints are made without a wait. -/
theorem endpoints_ends (makeAddress : List Char → Option Address) (svc : Nat)
    (ips : List (List Char)) :
    endpoints makeAddress svc ips = .throws ∨ ∃ el, endpoints makeAddress svc ips = .ret el := by
  induction ips with
  | nil => exact .inr ⟨[], rfl⟩
  | cons i ips ih =>
    rw [endpoints]
    cases makeAddress i with
    | none => exact .inl rfl
    | some address =>
      rcases ih with h | ⟨el, h⟩
      · exact .inl (by simp only [h]; rfl)
      · exact .inr ⟨⟨address, svc⟩ :: el, by simp only [h]; rfl⟩

end Ways

/-- **`resolve` against any providers**: it waits without end exactly where the first provider
that does not answer is one that starves it, runs into the undefined exactly where that one
trips it, and comes to an end exactly where all answer. -/
theorem resolve_any (makeAddress : List Char → Option Address) (o : IpOrder) (svc : Nat)
    (svcRes : List Nat) (name : List Char) (servers : List Server)
    (hs : ∀ s ∈ servers, s.bytes.length < 2 ^ 31) :
    (resolve makeAddress o (svc :: svcRes) name (servers.map Server.provider) = .spins ↔
      FirstOut name (Server.Starves name) servers) ∧
    (resolve makeAddress o (svc :: svcRes) name (servers.map Server.provider) = .undefined ↔
      FirstOut name (Server.Trips name) servers) ∧
    ((resolve makeAddress o (svc :: svcRes) name (servers.map Server.provider) = .throws ∨
        ∃ el, resolve makeAddress o (svc :: svcRes) name (servers.map Server.provider) = .ret el) ↔
      ∀ s ∈ servers, s.Answers name) := by
  have hA : ∀ s : Server, s.Starves name → ¬ s.Answers name := fun s h hans => hans.1 h
  have hB : ∀ s : Server, s.Trips name → ¬ s.Answers name := fun s h hans => hans.2 h
  have hAB : ∀ s ∈ servers, s.Starves name → ¬ s.Trips name :=
    fun s hmem h => h.not_trips (hs s hmem)
  have hgo := gather_goes name servers hs []
  rw [resolve]
  generalize gather name (servers.map Server.provider) [] = out at hgo ⊢
  cases hgo with
  | starves h =>
    have hno := FirstOut.not_both hA hB hAB h
    have hnot := FirstOut.not_all hA h
    simp [h, hno, hnot]
  | trips h =>
    have hno : ¬ FirstOut name (Server.Starves name) servers :=
      fun h' => FirstOut.not_both hA hB hAB h' h
    have hnot := FirstOut.not_all hB h
    simp [h, hno, hnot]
  | answer h ips =>
    have hno1 : ¬ FirstOut name (Server.Starves name) servers := fun h' => h'.not_all hA h
    have hno2 : ¬ FirstOut name (Server.Trips name) servers := fun h' => h'.not_all hB h
    have hend := endpoints_ends makeAddress svc (o.order ips)
    rw [Outcome.ret_bind]
    refine ⟨iff_of_false ?_ hno1, iff_of_false ?_ hno2, fun _ => h, fun _ => hend⟩
    · rcases hend with hend | ⟨el, hend⟩ <;> simp [hend]
    · rcases hend with hend | ⟨el, hend⟩ <;> simp [hend]

/-- A provider that closes at once. -/
def closedServer : Server := ⟨"dns.alidns.com".toList, 0, none, []⟩

/-- One that closes two bytes before the end of the body. -/
def shortServer : Server :=
  ⟨"1.1.1.1".toList, 0, none, ["HTTP/1.1 200 OK\r\nContent-Length: 4\r\n\r\n".toList, "ab".toList]⟩

/-- `resolve` goes past the first, and never comes back from the second. -/
theorem resolve_any_short :
    resolve (fun _ => none) ⟨id, fun _ => .refl _⟩ [443] "a.".toList
      ([closedServer, shortServer].map Server.provider) = .spins := by
  refine (resolve_any (fun _ => none) ⟨id, fun _ => .refl _⟩ 443 [] "a.".toList
    [closedServer, shortServer] (by decide +kernel)).1.mpr
    ⟨[closedServer], shortServer, [], rfl, ?_, by decide +kernel, 38, 4, by decide +kernel,
      by decide +kernel⟩
  -- nothing of the first reply is handed to the parser
  have hnone : handed closedServer.memory closedServer.host closedServer.now "a.".toList typeA =
      .ret none := handed_refused (by decide) fun _ => rfl
  intro t ht
  rw [List.mem_singleton.mp ht]
  constructor
  · rintro ⟨-, idx, cl, h, -⟩
    cases h
  · rintro ⟨reply, idx, cl, msg, h, -⟩
    rw [hnone] at h
    cases h

end Hcpp.Dns
