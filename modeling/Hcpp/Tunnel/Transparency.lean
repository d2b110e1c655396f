import Hcpp.Http.RequestHead
import Hcpp.Tunnel.SocketTunnel

/-!
# What a tunnel relays

As long as no write failed, what `bind_write` has written and still has to
write is what it has read, and the same holds of `bind_read` (`TunnelInv`).  But
the tunnel forwards what its loads return, and the bytes that came behind the
CONNECT head in the head's own read are cached: they are never sent.
`tunnel_transparent_iff`: a tunnel is transparent if and only if there are none.
-/

namespace Hcpp.Tunnel

open Memory Runs

/-- The bytes of the client behind the head, and the bytes of the server, are
written, being written, or still to come, in this order. -/
structure Transparent (client server : List Char) (t : Tunnel) : Prop where
  toServer : t.s.written ++ inFlight t.bindWrite ++ t.c.incoming.flatten = client
  toClient : fromServer t ++ inFlight t.bindRead ++ t.s.incoming.flatten = server

/-- What holds in every state of a tunnel between `c` and `s`. -/
structure TunnelInv (c : Memory) (s : TunnelMem) (t : Tunnel) : Prop where
  wf : t.c.WF
  data : ∀ data rest, t.bindWrite = .writing data rest → data.length ≤ t.c.unread.length
  toServer : t.s.writeOk = true →
    t.s.written ++ inFlight t.bindWrite ++ t.c.incoming.flatten = c.incoming.flatten
  toClient : t.c.writeOk = true →
    fromServer t ++ inFlight t.bindRead ++ t.s.incoming.flatten = s.incoming.flatten

theorem tunnelInv_start {c : Memory} (h : c.WF) (incoming : List (List Char)) :
    TunnelInv c (.make incoming) (start c (.make incoming)) where
  wf := h
  data := by rintro data rest ⟨⟩
  toServer := fun _ => rfl
  toClient := fun _ => rfl

/-- A load of `bind_write` appends what it returns, or fails. -/
theorem clientLoad_cases {m : Memory} (h : m.WF) :
    (∃ r incoming, r ++ incoming.flatten = m.incoming.flatten ∧ r ≠ [] ∧
      m.readSome (1024 * 4) = (m.append r incoming, r)) ∨
    m.readSome (1024 * 4) = ({ m with readOk := false }, []) := by
  cases hp : Feed.pull (1024 * 4) m.incoming with
  | none => exact .inr (readSome_of_closed (Feed.pull_eq_none_iff.mp hp))
  | some p =>
    exact .inl ⟨p.1, p.2, Feed.flatten_of_pull hp, Feed.ne_nil_of_pull (by omega) hp,
      readSome_of_pull h hp⟩

/-- What a load of `bind_read` returns is taken off what the server sends. -/
theorem serverLoad (s : TunnelMem) (n : Nat) :
    (s.asyncLoadSome n).2 ++ (s.asyncLoadSome n).1.incoming.flatten = s.incoming.flatten ∧
      (s.asyncLoadSome n).1.written = s.written ∧ (s.asyncLoadSome n).1.writeOk = s.writeOk := by
  unfold TunnelMem.asyncLoadSome
  cases hp : Feed.pull (min s.buffSize n) s.incoming with
  | none => exact ⟨rfl, rfl, rfl⟩
  | some p => exact ⟨Feed.flatten_of_pull hp, rfl, rfl⟩

theorem wf_setFlags {m : Memory} (h : m.WF) (readOk writeOk : Bool) :
    ({ m with readOk := readOk, writeOk := writeOk } : Memory).WF :=
  ⟨h.chain, h.base_le, h.inFirst⟩

theorem fromServer_append_server (l : List (Sender × Char)) (s : List Char) :
    (((l ++ s.map fun c => (Sender.server, c)).filter fun x => x.1 = .server).map Prod.snd) =
      (l.filter fun x => x.1 = .server).map Prod.snd ++ s := by
  rw [List.filter_append, List.map_append]
  congr 1
  induction s with
  | nil => rfl
  | cons c s ih => simpa using ih

theorem fromServer_append_head (l : List (Sender × Char)) (s : List Char) :
    (((l ++ s.map fun c => (Sender.head, c)).filter fun x => x.1 = .server).map Prod.snd) =
      (l.filter fun x => x.1 = .server).map Prod.snd := by
  rw [List.filter_append, List.map_append, List.append_right_eq_self]
  simp

section Step

variable {c : Memory} {s : TunnelMem} {t t' : Tunnel}

/-- A read of the client that fails: nothing is taken of what it sends. -/
theorem inv_clientFails (h : TunnelInv c s t) (hp : t.bindWrite = .loading) :
    TunnelInv c s { t with c := { t.c with readOk := false }, bindWrite := .writing [] [] } := by
  refine ⟨wf_setFlags h.wf _ _, ?_, fun hwo => ?_, h.toClient⟩
  · rintro data rest hd
    obtain ⟨rfl, -⟩ := Phase.writing.inj hd
    exact Nat.zero_le _
  · have := h.toServer hwo
    rw [hp] at this
    exact this

theorem inv_readTop (h : TunnelInv c s t) (hs : step t .readTop = some t') : TunnelInv c s t' := by
  simp only [step] at hs
  split at hs
  · rename_i hp
    obtain rfl := Option.some.inj hs
    refine ⟨h.wf, h.data, h.toServer, fun hw => ?_⟩
    have := h.toClient hw
    rw [hp] at this
    by_cases hok : t.ok = true
    · simpa [hok, inFlight, fromServer] using this
    · simpa [hok, inFlight, fromServer] using this
  · cases hs

theorem inv_writeTop (h : TunnelInv c s t) (hs : step t .writeTop = some t') :
    TunnelInv c s t' := by
  simp only [step] at hs
  split at hs
  · rename_i hp
    obtain rfl := Option.some.inj hs
    have hno : ∀ data rest,
        (if t.ok = true then Phase.loading else .done) ≠ .writing data rest := by
      intro data rest
      by_cases hok : t.ok = true <;> simp [hok]
    refine ⟨h.wf, fun data rest hd => absurd hd (hno data rest), fun hw => ?_, h.toClient⟩
    have := h.toServer hw
    rw [hp] at this
    by_cases hok : t.ok = true
    · simpa [hok, inFlight] using this
    · simpa [hok, inFlight] using this
  · cases hs

theorem inv_readLoad (h : TunnelInv c s t) (hs : step t .readLoad = some t') :
    TunnelInv c s t' := by
  simp only [step] at hs
  split at hs
  · rename_i hp
    obtain rfl := Option.some.inj hs
    obtain ⟨hin, hw, hok⟩ := serverLoad t.s (1024 * 4)
    refine ⟨h.wf, h.data, fun hwo => ?_, fun hwo => ?_⟩
    · have := h.toServer (hok ▸ hwo)
      simpa only [hw] using this
    · have := h.toClient hwo
      rw [hp, ← hin] at this
      simpa [inFlight, fromServer] using this
  · cases hs

theorem inv_writeLoad (h : TunnelInv c s t) (hs : step t .writeLoad = some t') :
    TunnelInv c s t' := by
  simp only [step] at hs
  split at hs
  · rename_i hp
    obtain rfl := Option.some.inj hs
    rcases clientLoad_cases h.wf with ⟨r, incoming, hflat, hr, hl⟩ | hl
    · simp only [hl]
      refine ⟨h.wf.append hr incoming, ?_, fun hwo => ?_, h.toClient⟩
      · rintro data rest hd
        obtain ⟨rfl, -⟩ := Phase.writing.inj hd
        rw [unread_append h.wf, List.length_append]
        omega
      · have := h.toServer hwo
        rw [hp, ← hflat] at this
        simpa [inFlight] using this
    · simp only [hl]
      exact inv_clientFails h hp
  · cases hs

theorem inv_readError (h : TunnelInv c s t) (hs : step t .readError = some t') :
    TunnelInv c s t' := by
  simp only [step] at hs
  split at hs
  · rename_i hp
    obtain rfl := Option.some.inj hs
    refine ⟨h.wf, h.data, h.toServer, fun hwo => ?_⟩
    have := h.toClient hwo
    rw [hp] at this
    exact this
  · cases hs

theorem inv_writeError (h : TunnelInv c s t) (hs : step t .writeError = some t') :
    TunnelInv c s t' := by
  simp only [step] at hs
  split at hs
  · rename_i hp
    obtain rfl := Option.some.inj hs
    exact inv_clientFails h hp
  · cases hs

theorem inv_toClient {k : Nat} (h : TunnelInv c s t) (hs : step t (.toClient k) = some t') :
    TunnelInv c s t' := by
  simp only [step] at hs
  split at hs
  · rename_i data rest hp
    by_cases hk : k < rest.length
    · rw [if_pos hk] at hs
      obtain rfl := Option.some.inj hs
      refine ⟨h.wf, h.data, h.toServer, fun hwo => ?_⟩
      have := h.toClient hwo
      rw [hp] at this
      simp only [fromServer, inFlight] at this ⊢
      rw [fromServer_append_server, List.append_assoc _ (rest.take _), List.take_append_drop]
      exact this
    · rw [if_neg hk] at hs
      cases hs
  · cases hs

theorem inv_toServer {k : Nat} (h : TunnelInv c s t) (hs : step t (.toServer k) = some t') :
    TunnelInv c s t' := by
  simp only [step] at hs
  split at hs
  · rename_i data rest hp
    by_cases hk : k < rest.length
    · rw [if_pos hk] at hs
      obtain rfl := Option.some.inj hs
      refine ⟨h.wf, ?_, fun hwo => ?_, h.toClient⟩
      · rintro data' rest' hd
        obtain ⟨rfl, -⟩ := Phase.writing.inj hd
        exact h.data _ _ hp
      · have := h.toServer hwo
        rw [hp] at this
        simp only [inFlight] at this ⊢
        rw [List.append_assoc _ (rest.take _), List.take_append_drop]
        exact this
    · rw [if_neg hk] at hs
      cases hs
  · cases hs

theorem inv_headToClient {k : Nat} (h : TunnelInv c s t)
    (hs : step t (.headToClient k) = some t') : TunnelInv c s t' := by
  simp only [step] at hs
  by_cases hk : k < t.head.length
  · rw [if_pos hk] at hs
    obtain rfl := Option.some.inj hs
    refine ⟨h.wf, h.data, h.toServer, fun hwo => ?_⟩
    have := h.toClient hwo
    simp only [fromServer] at this ⊢
    rw [fromServer_append_head]
    exact this
  · rw [if_neg hk] at hs
    cases hs

theorem inv_fails {a : Act} (ha : a = .toClientFails ∨ a = .toServerFails ∨ a = .headFails)
    (h : TunnelInv c s t) (hs : step t a = some t') : TunnelInv c s t' := by
  rcases ha with rfl | rfl | rfl <;> simp only [step] at hs
  · split at hs
    · obtain rfl := Option.some.inj hs
      exact ⟨wf_setFlags h.wf _ _, h.data, h.toServer, by rintro ⟨⟩⟩
    · cases hs
  · split at hs
    · rename_i data rest hp
      obtain rfl := Option.some.inj hs
      refine ⟨h.wf, ?_, by rintro ⟨⟩, h.toClient⟩
      rintro data' rest' hd
      obtain ⟨rfl, -⟩ := Phase.writing.inj hd
      exact h.data _ _ hp
    · cases hs
  · obtain rfl := Option.some.inj hs
    exact ⟨wf_setFlags h.wf _ _, h.data, h.toServer, by rintro ⟨⟩⟩

theorem inv_readDone (h : TunnelInv c s t) (hs : step t .readDone = some t') :
    TunnelInv c s t' := by
  simp only [step] at hs
  split at hs
  · rename_i data hp
    obtain rfl := Option.some.inj hs
    have hshut : shutClient t.c data = t.c ∨
        shutClient t.c data = { t.c with writeOk := false } := by
      unfold shutClient
      split
      · exact .inl rfl
      · by_cases hd : data = []
        · exact .inr (by rw [if_pos hd])
        · exact .inl (by rw [if_neg hd])
    rcases hshut with hc | hc <;> simp only [hc]
    · refine ⟨h.wf, h.data, h.toServer, fun hwo => ?_⟩
      have := h.toClient hwo
      rw [hp] at this
      exact this
    · exact ⟨wf_setFlags h.wf _ _, h.data, h.toServer, by rintro ⟨⟩⟩
  · cases hs

theorem inv_writeDone (h : TunnelInv c s t) (hs : step t .writeDone = some t') :
    TunnelInv c s t' := by
  simp only [step] at hs
  split at hs
  · rename_i data hp
    obtain rfl := Option.some.inj hs
    obtain ⟨hwf, -⟩ := removeSome_spec h.wf (h.data _ _ hp)
    refine ⟨hwf, by rintro data rest ⟨⟩, fun hwo => ?_, h.toClient⟩
    have := h.toServer hwo
    rw [hp] at this
    exact this
  · cases hs

/-- Every step keeps the invariant. -/
theorem inv_step {a : Act} (h : TunnelInv c s t) (hs : step t a = some t') : TunnelInv c s t' := by
  cases a with
  | readTop => exact inv_readTop h hs
  | writeTop => exact inv_writeTop h hs
  | readLoad => exact inv_readLoad h hs
  | writeLoad => exact inv_writeLoad h hs
  | readError => exact inv_readError h hs
  | writeError => exact inv_writeError h hs
  | toClient k => exact inv_toClient h hs
  | toServer k => exact inv_toServer h hs
  | headToClient k => exact inv_headToClient h hs
  | toClientFails => exact inv_fails (.inl rfl) h hs
  | toServerFails => exact inv_fails (.inr (.inl rfl)) h hs
  | headFails => exact inv_fails (.inr (.inr rfl)) h hs
  | readDone => exact inv_readDone h hs
  | writeDone => exact inv_writeDone h hs

end Step

/-- In every reachable state in which both sides are ok, nothing the tunnel has
read is lost. -/
theorem relayed_of_run {c : Memory} (h : c.WF) {incoming : List (List Char)} {acts : List Act}
    {t : Tunnel} (hr : run step (start c (.make incoming)) acts = some t) (hok : t.ok = true) :
    t.s.written ++ inFlight t.bindWrite ++ t.c.incoming.flatten = c.incoming.flatten ∧
      fromServer t ++ inFlight t.bindRead ++ t.s.incoming.flatten = incoming.flatten := by
  have hinv := run_inv (fun _ _ _ hi hs => inv_step hi hs) (tunnelInv_start h incoming) hr
  simp only [Tunnel.ok, Memory.ok, TunnelMem.ok, Bool.and_eq_true] at hok
  exact ⟨hinv.toServer hok.2.2, hinv.toClient hok.1.2⟩

/-- A tunnel of a memory `c` is transparent when nothing is cached in `c`, and
not transparent from its first state on when something is. -/
theorem transparent_iff_unread {c : Memory} (h : c.WF) (hok : c.ok = true)
    (incoming : List (List Char)) :
    (∀ acts t, run step (start c (.make incoming)) acts = some t → t.ok = true →
      Transparent c.stream incoming.flatten t) ↔ c.unread = [] := by
  constructor
  · intro hall
    have h0 : (start c (.make incoming)).ok = true := by
      simp only [Tunnel.ok, start, hok]
      rfl
    have hstart := (hall [] _ rfl h0).toServer
    simp only [start, inFlight, TunnelMem.make, List.nil_append, stream] at hstart
    exact List.append_left_eq_self.mp hstart.symm
  · intro hu acts t hr htok
    obtain ⟨hs, hc⟩ := relayed_of_run h hr htok
    exact ⟨by rw [hs, stream, hu, List.nil_append], hc⟩

/-- The read that completes the head brings nothing behind it. -/
def HeadEndsRead (segs : List (List Char)) : Prop :=
  ∀ r n segs', Feed.pullUntil crlfcrlf [] segs = some (r, n, segs') → r.length = n

/-- **The tunnel of a CONNECT request is transparent** if and only if no byte
came behind the head in the read that completed it. -/
theorem tunnel_transparent_iff {m m1 c : Memory} {e : List Char}
    {req req1 req2 req3 : HttpRequest} {headerEnd : Nat} (h : m.WF) (hu : m.unread = [])
    (hok : m.ok = true) (he : IsHead e m.stream) (hsize : m.stream.length < 2 ^ 64)
    (hline : parserRequestLine m req = .ret (m1, some (req1, headerEnd)))
    (hheaders : parserRequestHeaders m1 req2 headerEnd = .ret (c, some req3))
    (server : List (List Char)) :
    (∀ acts t, run step (start c (.make server)) acts = some t → t.ok = true →
      Transparent (m.stream.drop e.length) server.flatten t) ↔ HeadEndsRead m.incoming := by
  have hst : m.stream = m.incoming.flatten := by rw [stream, hu, List.nil_append]
  have hin : crlfcrlf <:+: [] ++ m.incoming.flatten := by
    obtain ⟨i, hi, -⟩ := he
    rw [List.nil_append, ← hst]
    exact Search.isInfix_of_find hi
  obtain ⟨r, n, incoming, hp⟩ := Feed.exists_pullUntil (by decide) hin
  obtain ⟨hn, -, i, hi, rfl⟩ := Feed.take_of_pullUntil hp
  obtain ⟨-, hele, -, -⟩ := he.length
  have hen : e.length = i + crlfcrlf.length := by
    obtain ⟨j, hj, rfl⟩ := he
    rw [List.nil_append, ← hst, hj, Option.some.injEq] at hi
    subst hi
    have hle := Search.find_add_length_le hj
    rw [List.length_take]
    have h4 : crlfcrlf.length = 4 := rfl
    omega
  have ht := takesHead_of_parsers h hu hp (by omega) hline hheaders
  have hcs : c.stream = m.stream.drop e.length := by
    have hflat : r ++ incoming.flatten = m.incoming.flatten := (Feed.pullUntil_spec hp).1
    rw [stream, ht.unread, ht.incoming, hst, ← hflat, hen, List.drop_append_of_le_length hn]
  have hcok : c.ok = true := by
    have hf := ht.frame
    simp only [frame, Prod.mk.injEq] at hf
    rw [Memory.ok, hf.2.1, hf.2.2.1]
    exact hok
  rw [← hcs, transparent_iff_unread ht.wf hcok, ht.unread, List.drop_eq_nil_iff]
  constructor
  · intro hle r' n' segs' hp'
    rw [hp, Option.some.injEq, Prod.mk.injEq, Prod.mk.injEq] at hp'
    obtain ⟨rfl, rfl, -⟩ := hp'
    omega
  · intro hend
    exact (hend _ _ _ hp).le

/-! ## Two clients -/

def connectHead : List Char := "CONNECT a:1 HTTP/1.1\r\n\r\n".toList

/-- The request of `connectHead`. -/
def connectRequest : HttpRequest :=
  { HttpRequest.make "a".toList "1".toList with
    methodStr := "CONNECT".toList
    version := "HTTP/1.1".toList }

/-- A client memory that holds `text`, in which `n` bytes are consumed. -/
def taken (text : List Char) (n : Nat) (incoming : List (List Char)) : Memory :=
  { fresh .plain incoming none with
    buffs := [⟨0, text⟩]
    readIndex := n
    writeIndex := text.length }

/-- The head ends with its read: the tunnel sends what comes behind it. -/
theorem tunnel_transparent_patient :
    Transparent "hi".toList [] (start
      { fresh .plain [] none with
        buffs := [⟨24, "hi".toList⟩]
        readIndex := 24
        writeIndex := 26 }
      { TunnelMem.make [] with written := ['h'] } |> fun t =>
        { t with bindWrite := .writing "hi".toList "i".toList }) := by
  have hline : parserRequestLine (fresh .plain [connectHead, "hi".toList] none) (.make [] []) =
      .ret (taken connectHead 22 ["hi".toList], some (connectRequest, 0)) := by decide
  have hheaders : parserRequestHeaders (taken connectHead 22 ["hi".toList]) connectRequest 0 =
      .ret ({ fresh .plain ["hi".toList] none with readIndex := 24, writeIndex := 24 },
        some connectRequest) := by decide
  have hends : HeadEndsRead [connectHead, "hi".toList] := by
    intro r n segs' hp
    have hpull : Feed.pullUntil crlfcrlf [] [connectHead, "hi".toList] =
        some (connectHead, 24, ["hi".toList]) := by decide
    rw [hpull, Option.some.injEq, Prod.mk.injEq, Prod.mk.injEq] at hp
    rw [← hp.1, ← hp.2.1]
    decide
  exact (tunnel_transparent_iff (wf_fresh .plain [connectHead, "hi".toList] none) rfl rfl
    (e := connectHead) ⟨20, by decide, by decide⟩ (by decide) hline hheaders []).mpr hends
    [.writeTop, .writeLoad, .toServer 0] _ (by decide) (by decide)

/-- The client sends `hi` with the head: it is not sent on. -/
theorem tunnel_loses_early_data :
    ¬ ∀ (incoming server : List (List Char)) (m c : Memory) (req req' : HttpRequest)
      (headerEnd : Nat) (e : List Char) (acts : List Act) (t : Tunnel),
      parserRequestLine (fresh .plain incoming none) (.make [] []) =
        .ret (m, some (req, headerEnd)) → req.method = .connect →
      parserRequestHeaders m req headerEnd = .ret (c, some req') →
      IsHead e incoming.flatten → run step (start c (.make server)) acts = some t →
      t.ok = true → Transparent (incoming.flatten.drop e.length) server.flatten t := by
  intro hall
  have hline : parserRequestLine (fresh .plain [connectHead ++ "hi".toList] none) (.make [] []) =
      .ret (taken (connectHead ++ "hi".toList) 22 [], some (connectRequest, 0)) := by decide
  have hheaders : parserRequestHeaders (taken (connectHead ++ "hi".toList) 22 []) connectRequest 0 =
      .ret (taken (connectHead ++ "hi".toList) 24 [], some connectRequest) := by decide
  have hlost := (hall _ [] _ _ _ _ _ connectHead [] _ hline rfl hheaders
    ⟨20, by decide, by decide⟩ rfl (by decide)).toServer
  exact absurd hlost (by decide)

end Hcpp.Tunnel
