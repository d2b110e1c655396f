import Hcpp.Dns.GetReply
import Mathlib.Data.List.Nodup

/-!
# `resolve` over the DNS providers

The DoH branch (dns.cpp): the A query of the host goes to every provider, the
`rdata` of all answers go into one `unordered_set`, and `make_address` turns each
into an endpoint with the port of the service.  The connections to the providers
are given, with what they bring; `make_address` is asio's.
-/

namespace Hcpp.Dns

/-- `asio::ip::address` -/
inductive Address where
  | v4 (a b c d : Fin 256)
  | v6 (bytes : List (Fin 256)) (scope : Nat)
deriving DecidableEq, Repr

structure Endpoint where
  address : Address
  port : Nat
deriving DecidableEq, Repr

/-- The iteration order of the `unordered_set`. -/
structure IpOrder where
  order : List (List Char) → List (List Char)
  perm : ∀ ips, (order ips).Perm ips

/-- `host_`, the clock when it is asked, and the memory around its connection. -/
structure Provider where
  host : List Char
  now : Nat
  mem : Memory

/-- `ips.insert` -/
def insertIp (ips : List (List Char)) (rdata : List Char) : List (List Char) :=
  if rdata ∈ ips then ips else ips ++ [rdata]

/-- `for (auto &&provider : dns_providers)` -/
def gather (name : List Char) : List Provider → List (List Char) → Outcome (List (List Char))
  | [], ips => .ret ips
  | provider :: providers, ips => do
    let (_, dr) ← getA provider.mem provider.host provider.now name []
    gather name providers ((dr.map AnswerT.rdata).foldl insertIp ips)

/-- `for (auto &&i : ips)`: where `make_address` accepts no address, it throws. -/
def endpoints (makeAddress : List Char → Option Address) (svc : Nat) :
    List (List Char) → Outcome (List Endpoint)
  | [] => .ret []
  | i :: ips =>
    match makeAddress i with
    | none => .throws
    | some address => do
      let el ← endpoints makeAddress svc ips
      .ret (⟨address, svc⟩ :: el)

/-- `svcRes` are the ports that the resolver gives for the service. -/
def resolve (makeAddress : List Char → Option Address) (o : IpOrder) (svcRes : List Nat)
    (name : List Char) (providers : List Provider) : Outcome (List Endpoint) :=
  match svcRes with
  | [] => .throws
  | svc :: _ => do
    let ips ← gather name providers []
    endpoints makeAddress svc (o.order ips)

def Reply.provider (rp : Reply) : Provider := ⟨rp.host, rp.now, rp.memory⟩

/-! ## The set of texts -/

theorem mem_foldl_insertIp {texts ips : List (List Char)} {i : List Char} :
    i ∈ texts.foldl insertIp ips ↔ i ∈ ips ∨ i ∈ texts := by
  induction texts generalizing ips with
  | nil => simp
  | cons t texts ih =>
    rw [List.foldl_cons, ih, insertIp]
    by_cases ht : t ∈ ips
    · rw [if_pos ht, List.mem_cons]
      constructor
      · rintro (h | h)
        · exact .inl h
        · exact .inr (.inr h)
      · rintro (h | rfl | h)
        · exact .inl h
        · exact .inl ht
        · exact .inr h
    · rw [if_neg ht, List.mem_append, List.mem_singleton, List.mem_cons, or_assoc]

theorem nodup_foldl_insertIp {texts ips : List (List Char)} (h : ips.Nodup) :
    (texts.foldl insertIp ips).Nodup := by
  induction texts generalizing ips with
  | nil => exact h
  | cons t texts ih =>
    rw [List.foldl_cons]
    apply ih
    rw [insertIp]
    by_cases ht : t ∈ ips
    · rw [if_pos ht]
      exact h
    · rw [if_neg ht]
      refine List.nodup_append.mpr ⟨h, List.nodup_singleton t, ?_⟩
      rintro a ha b hb rfl
      exact ht (List.mem_singleton.mp hb ▸ ha)

/-- The answers of all providers, one after the other. -/
theorem gather_eq_ret_iff {name : List Char} {replies : List Reply} {ips out : List (List Char)}
    (hw : ∀ rp ∈ replies, rp.WellFormed name) :
    gather name (replies.map Reply.provider) ips = .ret out ↔
      (∀ rp ∈ replies, (rp.fetched name = true → rp.Finds) ∧
        (rp.looked name = true → rp.Defined)) ∧
      out = (replies.flatMap fun rp => (rp.answers name).map AnswerT.rdata).foldl insertIp ips := by
  induction replies generalizing ips with
  | nil =>
    rw [List.map_nil, gather, Outcome.ret.injEq]
    exact ⟨fun h => ⟨by simp, h.symm⟩, fun h => h.2.symm⟩
  | cons rp replies ih =>
    have hrp := hw rp List.mem_cons_self
    have hrest : ∀ rp' ∈ replies, rp'.WellFormed name :=
      fun rp' hrp' => hw rp' (List.mem_cons_of_mem _ hrp')
    rw [List.map_cons, gather, Outcome.bind_eq_ret, List.forall_mem_cons, List.flatMap_cons,
      List.foldl_append]
    constructor
    · rintro ⟨⟨v, dr⟩, hget, hgo⟩
      obtain ⟨h1, h2, rfl⟩ := (getA_eq_ret_iff hrp).mp ⟨v, hget⟩
      obtain ⟨h3, h4⟩ := (ih hrest).mp hgo
      exact ⟨⟨⟨h1, h2⟩, h3⟩, h4⟩
    · rintro ⟨⟨⟨h1, h2⟩, h3⟩, h4⟩
      obtain ⟨v, hget⟩ := (getA_eq_ret_iff hrp).mpr ⟨h1, h2, rfl⟩
      exact ⟨_, hget, (ih hrest).mpr ⟨h3, h4⟩⟩

theorem endpoints_eq_ret_iff {makeAddress : List Char → Option Address} {svc : Nat}
    {ips : List (List Char)} {el : List Endpoint} :
    endpoints makeAddress svc ips = .ret el ↔
      ips.map makeAddress = el.map (fun e => some e.address) ∧ ∀ e ∈ el, e.port = svc := by
  induction ips generalizing el with
  | nil =>
    rw [endpoints]
    cases el <;> simp
  | cons i ips ih =>
    rw [endpoints]
    cases hi : makeAddress i with
    | none =>
      cases el <;> simp [hi]
    | some address =>
      simp only [Outcome.bind_eq_ret, ih]
      cases el with
      | nil => simp [hi]
      | cons e el =>
        obtain ⟨a, port⟩ := e
        simp only [List.map_cons, hi, List.cons.injEq, Outcome.ret.injEq, Option.some.injEq,
          Endpoint.mk.injEq, List.forall_mem_cons]
        constructor
        · rintro ⟨el', ⟨h1, h2⟩, ⟨rfl, rfl⟩, rfl⟩
          exact ⟨⟨rfl, h1⟩, rfl, h2⟩
        · rintro ⟨⟨rfl, h1⟩, rfl, h2⟩
          exact ⟨el, ⟨h1, h2⟩, ⟨rfl, rfl⟩, rfl⟩

end Hcpp.Dns
