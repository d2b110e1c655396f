import Hcpp.Tunnel.Transparency

/-!
# The end of a tunnel

The two loops test both sides, so a side that closes or fails ends them both.  A loop
that waits for a load is not woken, though: it takes one more segment, relays it and
stops at its next test.  `Winding` is what one action does to a tunnel that is not ok.
-/

namespace Hcpp.Tunnel

open Runs

/-- `bind_read` goes on. -/
def ofRead : Act → Bool
  | .readTop | .readLoad | .readError | .toClient _ | .readDone => true
  | _ => false

/-- `bind_write` goes on. -/
def ofWrite : Act → Bool
  | .writeTop | .writeLoad | .writeError | .toServer _ | .writeDone => true
  | _ => false

/-- A load of the server ends. -/
def readLoads : Act → Bool
  | .readLoad | .readError => true
  | _ => false

/-- A load of the client ends. -/
def writeLoads : Act → Bool
  | .writeLoad | .writeError => true
  | _ => false

/-- A bound of the actions of a loop whose next test fails. -/
def actionsLeft : Phase → Nat
  | .top => 1
  | .loading => 1024 * 4 + 3
  | .writing _ rest => rest.length + 2
  | .done => 0

/-- The loads it still takes. -/
def loadsLeft : Phase → Nat
  | .loading => 1
  | _ => 0

/-- The action `a` brings a tunnel that is not ok closer to its end. -/
structure Winding (t : Tunnel) (a : Act) (t' : Tunnel) : Prop where
  ok : t'.ok = false
  read : actionsLeft t'.bindRead + (if ofRead a then 1 else 0) ≤ actionsLeft t.bindRead
  write : actionsLeft t'.bindWrite + (if ofWrite a then 1 else 0) ≤ actionsLeft t.bindWrite
  readLoads : loadsLeft t'.bindRead + (if readLoads a then 1 else 0) ≤ loadsLeft t.bindRead
  writeLoads : loadsLeft t'.bindWrite + (if writeLoads a then 1 else 0) ≤ loadsLeft t.bindWrite

section Wind

variable {c : Memory} {s : TunnelMem} {t t' : Tunnel}

theorem ok_eq_false_iff : t.ok = false ↔
    (t.c.readOk = true → t.c.writeOk = true → t.s.readOk = true → t.s.writeOk = false) := by
  unfold Tunnel.ok Memory.ok TunnelMem.ok
  cases t.c.readOk <;> cases t.c.writeOk <;> cases t.s.readOk <;> cases t.s.writeOk <;> decide

/-- No action sets a flag again. -/
theorem ok_of_flags (hok : t.ok = false) (h1 : t'.c.readOk = true → t.c.readOk = true)
    (h2 : t'.c.writeOk = true → t.c.writeOk = true) (h3 : t'.s.readOk = true → t.s.readOk = true)
    (h4 : t'.s.writeOk = true → t.s.writeOk = true) : t'.ok = false := by
  rw [ok_eq_false_iff] at hok ⊢
  intro c1 c2 s1
  have hbad := hok (h1 c1) (h2 c2) (h3 s1)
  cases hs : t'.s.writeOk with
  | false => rfl
  | true =>
    rw [h4 hs] at hbad
    cases hbad

theorem serverLoad_bound (s : TunnelMem) :
    (s.asyncLoadSome (1024 * 4)).2.length ≤ 1024 * 4 ∧
      ((s.asyncLoadSome (1024 * 4)).1.readOk = true → s.readOk = true) ∧
      (s.asyncLoadSome (1024 * 4)).1.writeOk = s.writeOk := by
  unfold TunnelMem.asyncLoadSome
  cases hp : Feed.pull (min s.buffSize (1024 * 4)) s.incoming with
  | none => exact ⟨Nat.zero_le _, by simp, rfl⟩
  | some p => exact ⟨(Feed.length_of_pull hp).trans (Nat.min_le_right _ _), id, rfl⟩

theorem clientLoad_bound {m : Memory} (h : m.WF) :
    (m.readSome (1024 * 4)).2.length ≤ 1024 * 4 ∧
      ((m.readSome (1024 * 4)).1.readOk = true → m.readOk = true) ∧
      (m.readSome (1024 * 4)).1.writeOk = m.writeOk := by
  cases hp : Feed.pull (1024 * 4) m.incoming with
  | none =>
    rw [Memory.readSome_of_closed (Feed.pull_eq_none_iff.mp hp)]
    exact ⟨Nat.zero_le _, by simp, rfl⟩
  | some p =>
    rw [Memory.readSome_of_pull h hp]
    exact ⟨Feed.length_of_pull hp, id, rfl⟩

theorem winding_readTop (hok : t.ok = false) (hs : step t .readTop = some t') :
    Winding t .readTop t' := by
  simp only [step] at hs
  split at hs
  · next hp =>
    rw [hok, if_neg Bool.false_ne_true] at hs
    obtain rfl := Option.some.inj hs
    exact ⟨hok, by simp [hp, actionsLeft, ofRead], by simp [ofWrite],
      by simp [loadsLeft, readLoads], by simp [writeLoads]⟩
  · cases hs

theorem winding_writeTop (hok : t.ok = false) (hs : step t .writeTop = some t') :
    Winding t .writeTop t' := by
  simp only [step] at hs
  split at hs
  · next hp =>
    rw [hok, if_neg Bool.false_ne_true] at hs
    obtain rfl := Option.some.inj hs
    exact ⟨hok, by simp [ofRead], by simp [hp, actionsLeft, ofWrite], by simp [readLoads],
      by simp [loadsLeft, writeLoads]⟩
  · cases hs

theorem winding_readLoad (hok : t.ok = false) (hs : step t .readLoad = some t') :
    Winding t .readLoad t' := by
  simp only [step] at hs
  split at hs
  · next hp =>
    obtain rfl := Option.some.inj hs
    obtain ⟨hlen, hread, hwrite⟩ := serverLoad_bound t.s
    refine ⟨ok_of_flags hok id id hread fun h => hwrite ▸ h, ?_, by simp [ofWrite], ?_,
      by simp [writeLoads]⟩
    · simp only [hp, actionsLeft, ofRead, if_true]
      omega
    · simp [hp, loadsLeft, readLoads]
  · cases hs

theorem winding_writeLoad (h : TunnelInv c s t) (hok : t.ok = false)
    (hs : step t .writeLoad = some t') : Winding t .writeLoad t' := by
  simp only [step] at hs
  split at hs
  · next hp =>
    obtain rfl := Option.some.inj hs
    obtain ⟨hlen, hread, hwrite⟩ := clientLoad_bound h.wf
    refine ⟨ok_of_flags hok hread (fun h => hwrite ▸ h) id id, by simp [ofRead], ?_,
      by simp [readLoads], ?_⟩
    · simp only [hp, actionsLeft, ofWrite, if_true]
      omega
    · simp [hp, loadsLeft, writeLoads]
  · cases hs

theorem winding_readError (hs : step t .readError = some t') : Winding t .readError t' := by
  simp only [step] at hs
  split at hs
  · next hp =>
    obtain rfl := Option.some.inj hs
    exact ⟨ok_eq_false_iff.mpr (fun _ _ h => by cases h), by simp [hp, actionsLeft, ofRead],
      by simp [ofWrite], by simp [hp, loadsLeft, readLoads], by simp [writeLoads]⟩
  · cases hs

theorem winding_writeError (hs : step t .writeError = some t') : Winding t .writeError t' := by
  simp only [step] at hs
  split at hs
  · next hp =>
    obtain rfl := Option.some.inj hs
    exact ⟨ok_eq_false_iff.mpr (fun h => by cases h), by simp [ofRead],
      by simp [hp, actionsLeft, ofWrite], by simp [readLoads], by simp [hp, loadsLeft, writeLoads]⟩
  · cases hs

theorem winding_toClient {k : Nat} (hok : t.ok = false) (hs : step t (.toClient k) = some t') :
    Winding t (.toClient k) t' := by
  simp only [step] at hs
  split at hs
  · next data rest hp =>
    split at hs
    · next hk =>
      obtain rfl := Option.some.inj hs
      refine ⟨hok, ?_, by simp [ofWrite], by simp [loadsLeft, readLoads], by simp [writeLoads]⟩
      simp only [hp, actionsLeft, ofRead, if_true, List.length_drop]
      omega
    · cases hs
  · cases hs

theorem winding_toServer {k : Nat} (hok : t.ok = false) (hs : step t (.toServer k) = some t') :
    Winding t (.toServer k) t' := by
  simp only [step] at hs
  split at hs
  · next data rest hp =>
    split at hs
    · next hk =>
      obtain rfl := Option.some.inj hs
      refine ⟨hok, by simp [ofRead], ?_, by simp [readLoads], by simp [loadsLeft, writeLoads]⟩
      simp only [hp, actionsLeft, ofWrite, if_true, List.length_drop]
      omega
    · cases hs
  · cases hs

theorem winding_headToClient {k : Nat} (hok : t.ok = false)
    (hs : step t (.headToClient k) = some t') : Winding t (.headToClient k) t' := by
  simp only [step] at hs
  split at hs
  · obtain rfl := Option.some.inj hs
    exact ⟨hok, by simp [ofRead], by simp [ofWrite], by simp [readLoads], by simp [writeLoads]⟩
  · cases hs

theorem winding_fails {a : Act} (ha : a = .toClientFails ∨ a = .toServerFails ∨ a = .headFails)
    (hs : step t a = some t') : Winding t a t' := by
  rcases ha with rfl | rfl | rfl
  · simp only [step] at hs
    split at hs
    · next data rest hp =>
      obtain rfl := Option.some.inj hs
      exact ⟨ok_eq_false_iff.mpr (fun _ h => by cases h), by simp [hp, actionsLeft, ofRead],
        by simp [ofWrite], by simp [loadsLeft, readLoads], by simp [writeLoads]⟩
    · cases hs
  · simp only [step] at hs
    split at hs
    · next data rest hp =>
      obtain rfl := Option.some.inj hs
      exact ⟨ok_eq_false_iff.mpr (fun _ _ _ => rfl), by simp [ofRead],
        by simp [hp, actionsLeft, ofWrite], by simp [readLoads], by simp [loadsLeft, writeLoads]⟩
    · cases hs
  · obtain rfl := Option.some.inj hs
    exact ⟨ok_eq_false_iff.mpr (fun _ h => by cases h), by simp [ofRead], by simp [ofWrite],
      by simp [readLoads], by simp [writeLoads]⟩

theorem winding_readDone (hok : t.ok = false) (hs : step t .readDone = some t') :
    Winding t .readDone t' := by
  simp only [step] at hs
  split at hs
  · next data hp =>
    obtain rfl := Option.some.inj hs
    refine ⟨ok_of_flags hok ?_ ?_ id id, by simp [hp, actionsLeft, ofRead], by simp [ofWrite],
      by simp [loadsLeft, readLoads], by simp [writeLoads]⟩
    · intro h
      unfold shutClient at h
      split at h
      · exact h
      · split at h <;> exact h
    · intro h
      unfold shutClient at h
      split at h
      · exact h
      · split at h
        · cases h
        · exact h
  · cases hs

theorem winding_writeDone (hok : t.ok = false) (hs : step t .writeDone = some t') :
    Winding t .writeDone t' := by
  simp only [step] at hs
  split at hs
  · next data hp =>
    obtain rfl := Option.some.inj hs
    exact ⟨hok, by simp [ofRead], by simp [hp, actionsLeft, ofWrite], by simp [readLoads],
      by simp [loadsLeft, writeLoads]⟩
  · cases hs

theorem winding_step {a : Act} (h : TunnelInv c s t) (hok : t.ok = false)
    (hs : step t a = some t') : Winding t a t' := by
  cases a with
  | readTop => exact winding_readTop hok hs
  | writeTop => exact winding_writeTop hok hs
  | readLoad => exact winding_readLoad hok hs
  | writeLoad => exact winding_writeLoad h hok hs
  | readError => exact winding_readError hs
  | writeError => exact winding_writeError hs
  | toClient k => exact winding_toClient hok hs
  | toServer k => exact winding_toServer hok hs
  | headToClient k => exact winding_headToClient hok hs
  | toClientFails => exact winding_fails (Or.inl rfl) hs
  | toServerFails => exact winding_fails (Or.inr (Or.inl rfl)) hs
  | headFails => exact winding_fails (Or.inr (Or.inr rfl)) hs
  | readDone => exact winding_readDone hok hs
  | writeDone => exact winding_writeDone hok hs

/-- A loop that has not ended can go on. -/
theorem exists_ofRead (h : t.bindRead ≠ .done) : ∃ a t', ofRead a = true ∧ step t a = some t' := by
  cases hp : t.bindRead with
  | top => exact ⟨.readTop, _, rfl, by simp only [step, hp]; rfl⟩
  | loading => exact ⟨.readLoad, _, rfl, by simp only [step, hp]; rfl⟩
  | writing data rest =>
    cases rest with
    | nil => exact ⟨.readDone, _, rfl, by simp only [step, hp]; rfl⟩
    | cons x rest =>
      have hk : 0 < (x :: rest).length := Nat.succ_pos _
      exact ⟨.toClient 0, _, rfl, by simp only [step, hp, hk, if_true]; rfl⟩
  | done => exact absurd hp h

theorem exists_ofWrite (h : t.bindWrite ≠ .done) :
    ∃ a t', ofWrite a = true ∧ step t a = some t' := by
  cases hp : t.bindWrite with
  | top => exact ⟨.writeTop, _, rfl, by simp only [step, hp]; rfl⟩
  | loading => exact ⟨.writeLoad, _, rfl, by simp only [step, hp]; rfl⟩
  | writing data rest =>
    cases rest with
    | nil => exact ⟨.writeDone, _, rfl, by simp only [step, hp]; rfl⟩
    | cons x rest =>
      have hk : 0 < (x :: rest).length := Nat.succ_pos _
      exact ⟨.toServer 0, _, rfl, by simp only [step, hp, hk, if_true]; rfl⟩
  | done => exact absurd hp h

end Wind

/-- **A tunnel winds down** once a side is not ok, whatever the order of the steps: it stays
so, each loop takes one more load at most and a bounded number of actions, and can go on until
it has ended. -/
theorem winds_down {c : Memory} (hc : c.WF) (incoming : List (List Char)) (as bs : List Act)
    (t t' : Tunnel) (hs : run step (start c (.make incoming)) as = some t) (hok : t.ok = false)
    (hs' : run step t bs = some t') :
    t'.ok = false ∧
      (bs.countP readLoads ≤ 1 ∧ bs.countP ofRead + actionsLeft t'.bindRead ≤
        actionsLeft t.bindRead ∧
        (t'.bindRead ≠ .done → ∃ a u, ofRead a = true ∧ step t' a = some u)) ∧
      bs.countP writeLoads ≤ 1 ∧ bs.countP ofWrite + actionsLeft t'.bindWrite ≤
        actionsLeft t.bindWrite ∧
        (t'.bindWrite ≠ .done → ∃ a u, ofWrite a = true ∧ step t' a = some u) := by
  have hinv : TunnelInv c (.make incoming) t :=
    run_inv (fun _ _ _ h hs => inv_step h hs) (tunnelInv_start hc incoming) hs
  have hI : TunnelInv c (.make incoming) t ∧ t.ok = false := ⟨hinv, hok⟩
  have hkeep : ∀ (u : Tunnel) (a : Act) (u' : Tunnel), (TunnelInv c (.make incoming) u ∧
      u.ok = false) → step u a = some u' → TunnelInv c (.make incoming) u' ∧ u'.ok = false :=
    fun u a u' hu h => ⟨inv_step hu.1 h, (winding_step hu.1 hu.2 h).ok⟩
  have hread := run_variant hkeep
    (fun u a u' hu h => (winding_step hu.1 hu.2 h).read) hI hs'
  have hwrite := run_variant hkeep
    (fun u a u' hu h => (winding_step hu.1 hu.2 h).write) hI hs'
  have hreadLoads := run_variant hkeep
    (fun u a u' hu h => (winding_step hu.1 hu.2 h).readLoads) hI hs'
  have hwriteLoads := run_variant hkeep
    (fun u a u' hu h => (winding_step hu.1 hu.2 h).writeLoads) hI hs'
  have hone : ∀ p : Phase, loadsLeft p ≤ 1 := fun p => by cases p <;> simp [loadsLeft]
  have h1 := hone t.bindRead
  have h2 := hone t.bindWrite
  exact ⟨(run_inv hkeep hI hs').2, ⟨by omega, by omega, exists_ofRead⟩, by omega, by omega,
    exists_ofWrite⟩

/-- The server closes while `bind_write` waits for the client: what the client sends then is
relayed, and both loops end. -/
theorem winds_down_half_closed : ∃ t', run step (start (Memory.fresh .plain ["a".toList] none)
      (.make [])) [.readTop, .writeTop, .readLoad, .writeLoad, .toServer 0, .writeDone, .writeTop,
        .readDone, .readTop] = some t' ∧ t'.ok = false ∧ t'.s.written = "a".toList ∧
      t'.bindRead = .done ∧ t'.bindWrite = .done := by
  have hwf : (Memory.fresh .plain ["a".toList] none).WF := Memory.wf_fresh _ _ _
  exact ⟨_, rfl, (winds_down hwf [] [.readTop, .writeTop, .readLoad]
    [.writeLoad, .toServer 0, .writeDone, .writeTop, .readDone, .readTop] _ _ rfl rfl rfl).1,
    by decide, by decide, by decide⟩

end Hcpp.Tunnel
