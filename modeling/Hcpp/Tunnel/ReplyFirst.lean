import Hcpp.Tunnel.Transparency

/-!
# The 200 head and the server's bytes

`make_tunnel` spawns the relay before it writes the 200 head, so a server that
speaks first can be heard first.  The head comes first in every run in which
`bind_read` is brought no byte before the head is written (`reply_first`); over
all schedules, that is only sure of a server that sends nothing.
-/

namespace Hcpp.Tunnel

open Memory Runs

def ofHead (cs : List Char) : List (Sender × Char) := cs.map fun c => (.head, c)

def ofServer (cs : List Char) : List (Sender × Char) := cs.map fun c => (.server, c)

/-- What was written to the client begins with the 200 head; until all of it is written
there is nothing else. -/
def HeadFirst (t : Tunnel) : Prop :=
  ∃ done srv, t.toClient = ofHead done ++ ofServer srv ∧ done <+: tunnelHead ∧
    (srv ≠ [] → done = tunnelHead)

/-- The bytes of the 200 head among those written to the client. -/
def fromHead (t : Tunnel) : List Char :=
  (t.toClient.filter fun x => x.1 = .head).map Prod.snd

/-- A load of `bind_read` brings bytes only when the 200 head is written. -/
def SpeaksAfter (t : Tunnel) (a : Act) : Prop :=
  a = .readLoad → t.s.incoming.flatten ≠ [] → fromHead t = tunnelHead

/-- What such runs preserve: `make_tunnel` goes on where it stopped, or has given up, and
the relay has bytes only behind the whole head. -/
structure ReplyInv (t : Tunnel) (done srv : List Char) : Prop where
  client : t.toClient = ofHead done ++ ofServer srv
  part : done <+: tunnelHead
  head : t.head = [] ∨ done ++ t.head = tunnelHead
  behind : srv ≠ [] ∨ inFlight t.bindRead ≠ [] → done = tunnelHead

section Step

variable {t t' : Tunnel} {done srv : List Char}

theorem fromHead_eq (h : ReplyInv t done srv) : fromHead t = done := by
  unfold fromHead
  rw [h.client, List.filter_append, List.map_append]
  have h1 : ∀ cs, ((ofHead cs).filter fun x => x.1 = .head).map Prod.snd = cs := by
    intro cs
    induction cs with
    | nil => rfl
    | cons c cs ih => exact congrArg (c :: ·) ih
  have h2 : ((ofServer srv).filter fun x => x.1 = .head).map Prod.snd = [] := by
    unfold ofServer
    simp
  rw [h1, h2, List.append_nil]

/-- A step that writes nothing to the client and brings the relay nothing. -/
theorem ReplyInv.quiet (h : ReplyInv t done srv) (hc : t'.toClient = t.toClient)
    (hh : t'.head = t.head ∨ t'.head = [])
    (hr : inFlight t'.bindRead ≠ [] → inFlight t.bindRead ≠ []) : ReplyInv t' done srv where
  client := hc.trans h.client
  part := h.part
  head := by
    rcases hh with hh | hh
    · rw [hh]
      exact h.head
    · exact Or.inl hh
  behind := by
    intro hb
    apply h.behind
    rcases hb with hb | hb
    · exact Or.inl hb
    · exact Or.inr (hr hb)

theorem replyInv_readLoad (h : ReplyInv t done srv) (hC : SpeaksAfter t .readLoad)
    (hs : step t .readLoad = some t') : ReplyInv t' done srv := by
  simp only [step] at hs
  split at hs
  · obtain rfl := Option.some.inj hs
    refine ⟨h.client, h.part, h.head, fun hb => ?_⟩
    rcases hb with hb | hb
    · exact h.behind (Or.inl hb)
    · -- the load brought bytes
      have hne : t.s.incoming.flatten ≠ [] := by
        obtain ⟨hin, -, -⟩ := serverLoad t.s (1024 * 4)
        rw [← hin]
        intro hnil
        exact hb (List.append_eq_nil_iff.mp hnil).1
      rw [← fromHead_eq h]
      exact hC rfl hne
  · cases hs

theorem replyInv_toClient (h : ReplyInv t done srv) {k : Nat}
    (hs : step t (.toClient k) = some t') : ∃ srv', ReplyInv t' done srv' := by
  simp only [step] at hs
  split at hs
  · rename_i data rest hp
    by_cases hk : k < rest.length
    · rw [if_pos hk] at hs
      obtain rfl := Option.some.inj hs
      have hrest : rest ≠ [] := List.ne_nil_of_length_pos (by omega)
      have hne : inFlight t.bindRead ≠ [] := by
        rw [hp]
        exact hrest
      refine ⟨srv ++ rest.take (k + 1), ⟨?_, h.part, h.head, fun _ => h.behind (Or.inr hne)⟩⟩
      show t.toClient ++ ofServer (rest.take (k + 1)) = _
      unfold ofServer
      rw [h.client, List.map_append, List.append_assoc]
      rfl
    · rw [if_neg hk] at hs
      cases hs
  · cases hs

theorem replyInv_headToClient (h : ReplyInv t done srv) {k : Nat}
    (hs : step t (.headToClient k) = some t') : ∃ done', ReplyInv t' done' srv := by
  simp only [step] at hs
  by_cases hk : k < t.head.length
  · rw [if_pos hk] at hs
    obtain rfl := Option.some.inj hs
    have hne : t.head ≠ [] := List.ne_nil_of_length_pos (by omega)
    have hhead : done ++ t.head = tunnelHead := by
      rcases h.head with h0 | h0
      · exact absurd h0 hne
      · exact h0
    -- some of the head is missing, so the relay has written nothing
    have hless : done ≠ tunnelHead := by
      intro heq
      rw [heq] at hhead
      exact hne (List.append_right_eq_self.mp hhead)
    have hsrv : srv = [] := by
      by_contra hsrv
      exact hless (h.behind (Or.inl hsrv))
    have hidle : inFlight t.bindRead = [] := by
      by_contra hfl
      exact hless (h.behind (Or.inr hfl))
    have hsplit : (done ++ t.head.take (k + 1)) ++ t.head.drop (k + 1) = tunnelHead := by
      rw [List.append_assoc, List.take_append_drop, hhead]
    refine ⟨done ++ t.head.take (k + 1), ⟨?_, ⟨_, hsplit⟩, Or.inr hsplit, fun hb => ?_⟩⟩
    · show t.toClient ++ ofHead (t.head.take (k + 1)) = _
      rw [h.client, hsrv]
      unfold ofHead ofServer
      simp
    · rcases hb with hb | hb
      · exact absurd hsrv hb
      · exact absurd hidle hb
  · rw [if_neg hk] at hs
    cases hs

theorem replyInv_step (a : Act) (h : ∃ done srv, ReplyInv t done srv) (hC : SpeaksAfter t a)
    (hs : step t a = some t') : ∃ done srv, ReplyInv t' done srv := by
  obtain ⟨done, srv, h⟩ := h
  have hquiet : t'.toClient = t.toClient → (t'.head = t.head ∨ t'.head = []) →
      (inFlight t'.bindRead ≠ [] → inFlight t.bindRead ≠ []) →
      ∃ done srv, ReplyInv t' done srv := fun hc hh hr => ⟨done, srv, h.quiet hc hh hr⟩
  cases a with
  | readTop =>
    simp only [step] at hs
    split at hs
    · obtain rfl := Option.some.inj hs
      refine hquiet rfl (Or.inl rfl) fun hne => ?_
      by_cases hok : t.ok = true
      · simp [hok, inFlight] at hne
      · simp [hok, inFlight] at hne
    · cases hs
  | readLoad => exact ⟨done, srv, replyInv_readLoad h hC hs⟩
  | readError =>
    simp only [step] at hs
    split at hs
    · obtain rfl := Option.some.inj hs
      exact hquiet rfl (Or.inl rfl) fun hne => absurd rfl hne
    · cases hs
  | toClient k =>
    obtain ⟨srv', h'⟩ := replyInv_toClient h hs
    exact ⟨done, srv', h'⟩
  | headToClient k =>
    obtain ⟨done', h'⟩ := replyInv_headToClient h hs
    exact ⟨done', srv, h'⟩
  | toClientFails =>
    simp only [step] at hs
    split at hs
    · obtain rfl := Option.some.inj hs
      exact hquiet rfl (Or.inl rfl) fun hne => absurd rfl hne
    · cases hs
  | headFails =>
    obtain rfl := Option.some.inj hs
    exact hquiet rfl (Or.inr rfl) id
  | readDone =>
    simp only [step] at hs
    split at hs
    · obtain rfl := Option.some.inj hs
      exact hquiet rfl (Or.inl rfl) fun hne => absurd rfl hne
    · cases hs
  | writeTop =>
    simp only [step] at hs
    split at hs
    · obtain rfl := Option.some.inj hs
      exact hquiet rfl (Or.inl rfl) id
    · cases hs
  | writeLoad =>
    simp only [step] at hs
    split at hs
    · obtain rfl := Option.some.inj hs
      exact hquiet rfl (Or.inl rfl) id
    · cases hs
  | writeError =>
    simp only [step] at hs
    split at hs
    · obtain rfl := Option.some.inj hs
      exact hquiet rfl (Or.inl rfl) id
    · cases hs
  | toServer k =>
    simp only [step] at hs
    split at hs
    · split at hs
      · obtain rfl := Option.some.inj hs
        exact hquiet rfl (Or.inl rfl) id
      · cases hs
    · cases hs
  | toServerFails =>
    simp only [step] at hs
    split at hs
    · obtain rfl := Option.some.inj hs
      exact hquiet rfl (Or.inl rfl) id
    · cases hs
  | writeDone =>
    simp only [step] at hs
    split at hs
    · obtain rfl := Option.some.inj hs
      exact hquiet rfl (Or.inl rfl) id
    · cases hs

/-- A server that has nothing more to send stays silent. -/
theorem silent_step (a : Act) (h : t.s.incoming.flatten = []) (hs : step t a = some t') :
    t'.s.incoming.flatten = [] := by
  cases a with
  | readLoad =>
    simp only [step] at hs
    split at hs
    · obtain rfl := Option.some.inj hs
      obtain ⟨hin, -, -⟩ := serverLoad t.s (1024 * 4)
      rw [h] at hin
      exact (List.append_eq_nil_iff.mp hin).2
    · cases hs
  | _ =>
    simp only [step] at hs
    repeat' split at hs
    all_goals cases hs
    all_goals exact h

end Step

theorem replyInv_start (c : Memory) (s : TunnelMem) : ReplyInv (start c s) [] [] where
  client := rfl
  part := List.nil_prefix
  head := Or.inr rfl
  behind := by
    rintro (h | h)
    · exact absurd rfl h
    · exact absurd rfl h

theorem headFirst_of_meets {c : Memory} {s : TunnelMem} {acts : List Act} {t : Tunnel}
    (hC : Meets step SpeaksAfter (start c s) acts) (hrun : run step (start c s) acts = some t) :
    HeadFirst t := by
  obtain ⟨done, srv, h⟩ := run_inv_of_meets
    (fun t a t' h hC hs => replyInv_step a h hC hs) ⟨[], [], replyInv_start c s⟩ hC hrun
  exact ⟨done, srv, h.client, h.part, fun hsrv => h.behind (Or.inl hsrv)⟩

/-- A silent server cannot speak too early. -/
theorem meets_of_silent {t : Tunnel} {acts : List Act} (h : t.s.incoming.flatten = []) :
    Meets step SpeaksAfter t acts := by
  induction acts generalizing t with
  | nil => trivial
  | cons a as ih =>
    refine ⟨fun _ hne => absurd h hne, fun t' hs => ih (silent_step a h hs)⟩

/-- The server's first load and a byte of it, before `make_tunnel` goes on. -/
theorem serverFirst {c : Memory} {server : List (List Char)} (hok : c.ok = true)
    (hne : server.flatten ≠ []) :
    ∃ t, run step (start c (.make server)) [.readTop, .readLoad, .toClient 0] = some t ∧
      ¬ HeadFirst t := by
  obtain ⟨r, rest, hp⟩ : ∃ r rest, Feed.pull (min (TunnelMem.make server).buffSize (1024 * 4))
    server = some (r, rest) := Feed.exists_pull hne
  have hmax : 0 < min (TunnelMem.make server).buffSize (1024 * 4) := by
    show 0 < min (1024 * 4 * 4) (1024 * 4)
    decide
  have hr : r ≠ [] := Feed.ne_nil_of_pull hmax hp
  obtain ⟨x, r, rfl⟩ := List.exists_cons_of_ne_nil hr
  let t0 := start c (.make server)
  let t1 : Tunnel := { t0 with bindRead := .loading }
  let t2 : Tunnel := { t1 with
    s := { t1.s with incoming := rest }, bindRead := .writing (x :: r) (x :: r) }
  let t3 : Tunnel := { t2 with bindRead := .writing (x :: r) r, toClient := [(.server, x)] }
  have h1 : step t0 .readTop = some t1 := by
    have hok0 : t0.ok = true := by
      show (c.ok && true) = true
      rw [hok]
      rfl
    show some { t0 with bindRead := if t0.ok then Phase.loading else .done } = some t1
    rw [hok0]
    rfl
  have h2 : step t1 .readLoad = some t2 := by
    show some { t1 with
      s := (t1.s.asyncLoadSome (1024 * 4)).1
      bindRead := .writing (t1.s.asyncLoadSome (1024 * 4)).2 (t1.s.asyncLoadSome (1024 * 4)).2 } =
      some t2
    have hload : t1.s.asyncLoadSome (1024 * 4) = (t2.s, x :: r) := by
      unfold TunnelMem.asyncLoadSome
      rw [show t1.s = TunnelMem.make server from rfl, show (TunnelMem.make server).incoming =
        server from rfl, hp]
      rfl
    rw [hload]
  have h3 : step t2 (.toClient 0) = some t3 := rfl
  refine ⟨t3, ?_, ?_⟩
  · rw [run_cons_eq_some]
    refine ⟨t1, h1, ?_⟩
    rw [run_cons_eq_some]
    exact ⟨t2, h2, run_cons_eq_some.mpr ⟨t3, h3, rfl⟩⟩
  · rintro ⟨done, srv, hclient, -, hdone⟩
    have hclient' : [(Sender.server, x)] = ofHead done ++ ofServer srv := hclient
    cases done with
    | nil =>
      have hsrv : srv ≠ [] := by
        rintro rfl
        cases hclient'
      have hempty := hdone hsrv
      cases hempty
    | cons d ds => cases hclient'

/-- **The reply comes first** in every run in which `bind_read` is brought bytes only behind
the 200 head; every schedule is such a run, or keeps the order otherwise, if and only if
the server sends nothing. -/
theorem reply_first (c : Memory) (server : List (List Char)) :
    (∀ acts t, Meets step SpeaksAfter (start c (.make server)) acts →
      run step (start c (.make server)) acts = some t → HeadFirst t) ∧
    (c.ok = true →
      ((∀ acts t, run step (start c (.make server)) acts = some t → HeadFirst t) ↔
        server.flatten = [])) := by
  refine ⟨fun acts t hC hrun => headFirst_of_meets hC hrun, fun hok => ⟨fun hall => ?_, ?_⟩⟩
  · by_contra hne
    obtain ⟨t, hrun, hnot⟩ := serverFirst hok hne
    exact hnot (hall _ t hrun)
  · intro hsilent acts t hrun
    have hnone : (start c (.make server)).s.incoming.flatten = [] := hsilent
    exact headFirst_of_meets (meets_of_silent hnone) hrun

/-- The head is written before the server's first byte is loaded. -/
theorem reply_first_patient :
    HeadFirst { start (fresh .plain [] none) (.make []) with
      head := [], bindRead := .writing ['x'] [],
      toClient := ofHead tunnelHead ++ ofServer ['x'] } := by
  refine (reply_first (fresh .plain [] none) [['x']]).1
    [.readTop, .headToClient 18, .readLoad, .toClient 0] _ ?_ (by rfl)
  refine ⟨nofun, fun t1 h1 => ⟨nofun, fun t2 h2 => ⟨fun _ _ => ?_, fun t3 h3 => ⟨nofun,
    fun _ _ => trivial⟩⟩⟩⟩
  cases h1
  cases h2
  decide

/-- A server that speaks first is heard first. -/
theorem reply_after_data :
    ¬ ∀ (c : Memory) (server : List (List Char)) (acts : List Act) (t : Tunnel),
      run step (start c (.make server)) acts = some t → HeadFirst t := by
  intro hall
  have hok : (fresh .plain [] none).ok = true := rfl
  have hne : [['x']].flatten ≠ [] := by decide
  obtain ⟨t, hrun, hnot⟩ := serverFirst hok hne
  exact hnot (hall _ _ _ t hrun)

end Hcpp.Tunnel
