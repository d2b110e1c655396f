import Hcpp.Dns.SingleFlight
import Hcpp.Lib.AtomicCell

/-!
# An entry of the resolver's cache is an atomic cell

`resolve` reads `edp_cache_` in one critical section, `async_resolve` registers
in a second, inserts in a third and notifies in a fourth, and the caller hears
of it through a channel.  For one key all of this is a run of an atomic cell
(`AtomicCell`): the callers get their list at the look into the cache or at the
notification (`seen`), other keys do nothing to it.  The one exception is a
`remove_svc` between an insert and its notification: the callers that come in
then are given the removed list.
-/

namespace Hcpp.Dns.SlowDns

open Runs

variable {K L C : Type} [DecidableEq K] [DecidableEq C]

/-- What a caller has got: a list in its channel is its own already. -/
def callerOf : Waiter L → List (Answer L) → AtomicCell.Reader (Answer L)
  | .returned a, _ => .got a
  | .timedOut, _ => .gaveUp
  | .receiving, a :: _ => .got a
  | .receiving, [] => .asked

def readerOf (s : SlowDns K L C) (k : K) (c : C) : Option (AtomicCell.Reader (Answer L)) :=
  match s.calls c with
  | some call => if call.hedp = k then some (callerOf call.waiter (s.chan c).buff) else none
  | none => none

/-- The entry of `k` as a cell. -/
def cellOf (k : K) (s : SlowDns K L C) : AtomicCell.Cell (Answer L) C where
  value := s.edpCache k
  reader := readerOf s k

/-- The caller is in `async_receive`. -/
def waits (s : SlowDns K L C) (c : C) : Bool :=
  match s.calls c with
  | some ⟨_, _, .receiving, _⟩ => true
  | _ => false

/-- What an action is for the entry of `k`. -/
def seen (k : K) (s : SlowDns K L C) : Act K L C → List (AtomicCell.Act (Answer L) C)
  | .call c hedp _ =>
    if hedp = k then .ask c :: (if (s.edpCache k).isSome then [.read c] else []) else []
  | .insert c =>
    match s.calls c with
    | some ⟨hedp, _, _, .resolved a⟩ =>
      if hedp = k ∧ (s.edpCache k).isNone then [.publish a] else []
    | _ => []
  | .notify c =>
    match s.calls c with
    | some call =>
      if call.hedp = k then (((s.resolveRunning k).getD []).filter (waits s)).map .read else []
    | none => []
  | .timeout c =>
    match s.calls c with
    | some call => if call.hedp = k then [.giveUp c] else []
    | none => []
  | .removeSvc hedp => if hedp = k then [.remove] else []
  | _ => []

/-- The step does not remove `k` between an insert and its notification. -/
def Quiet (k : K) (s : SlowDns K L C) (a : Act K L C) : Prop :=
  a = .removeSvc k → ∀ c doh w el, s.calls c ≠ some ⟨k, doh, w, .inserted el⟩

/-- Who has inserted and not notified yet holds the list of the cache. -/
def Held (k : K) (s : SlowDns K L C) : Prop :=
  ∀ c doh w el, s.calls c = some ⟨k, doh, w, .inserted el⟩ → s.edpCache k = some el

/-! ## The readers -/

section Readers

variable {s t : SlowDns K L C} {c : C} {k : K}

omit [DecidableEq C] in
theorem readerOf_of_calls {call : Call K L} (h : s.calls c = some call) :
    readerOf s k c =
      if call.hedp = k then some (callerOf call.waiter (s.chan c).buff) else none := by
  simp only [readerOf, h]

theorem readerOf_setCall (s : SlowDns K L C) (c : C) (call : Call K L) (k : K) :
    readerOf (s.setCall c call) k = Function.update (readerOf s k) c
      (if call.hedp = k then some (callerOf call.waiter (s.chan c).buff) else none) := by
  ext1 d
  unfold readerOf
  by_cases h : d = c
  · subst h
    simp
  · simp [Function.update_of_ne h]

omit [DecidableEq C] in
theorem readerOf_congr (hc : t.calls = s.calls) (hch : t.chan = s.chan) :
    readerOf t k = readerOf s k := by
  ext1 d
  simp only [readerOf, hc, hch]

/-- A call that keeps its key and its waiter is the same reader. -/
theorem readerOf_setCall_same {old call : Call K L} (hc : t.calls = s.calls)
    (hch : t.chan = s.chan) (h : s.calls c = some old) (hk : call.hedp = old.hedp)
    (hw : call.waiter = old.waiter) : readerOf (t.setCall c call) k = readerOf s k := by
  rw [readerOf_setCall, readerOf_congr hc hch, hk, hw, hch, ← readerOf_of_calls h,
    Function.update_eq_self]

end Readers

/-! ## The list between the insert and the notification -/

omit [DecidableEq K] [DecidableEq C] in
theorem held_init (cache : K → Option (Answer L)) (k : K) :
    Held k (init cache : SlowDns K L C) := by
  intro c doh w el h
  cases h

omit [DecidableEq K] in
/-- Storing a call, where the entry of `k` stays if it is there. -/
theorem Held.setCall {s t : SlowDns K L C} {k : K} {c : C} {call : Call K L} (h : Held k s)
    (ht : t.calls = s.calls) (hcache : ∀ el, s.edpCache k = some el → t.edpCache k = some el)
    (hc : ∀ el, call.hedp = k → call.task = .inserted el → t.edpCache k = some el) :
    Held k (t.setCall c call) := by
  intro d doh w el hd
  rw [setCall_calls] at hd
  by_cases hdc : d = c
  · rw [hdc, Function.update_self, Option.some.injEq] at hd
    subst hd
    exact hc el rfl rfl
  · rw [Function.update_of_ne hdc, ht] at hd
    exact hcache el (h d doh w el hd)

theorem held_step {s s' : SlowDns K L C} {k : K} (a : Act K L C) (h : Held k s)
    (hq : Quiet k s a) (hs : step s a = some s') : Held k s' := by
  have hkeep : ∀ el, s.edpCache k = some el → s.edpCache k = some el := fun _ h => h
  cases a with
  | call c hedp doh =>
    obtain ⟨-, ⟨a, -, rfl⟩ | ⟨-, rfl⟩⟩ := step_call hs <;>
      exact h.setCall rfl hkeep (by rintro el - ⟨⟩)
  | register c =>
    obtain ⟨hedp, doh, w, -, ⟨l, -, rfl⟩ | ⟨-, rfl⟩⟩ := step_register hs <;>
      exact h.setCall rfl hkeep (by rintro el - ⟨⟩)
  | resolveOk c el =>
    obtain ⟨hedp, doh, w, -, rfl⟩ := step_resolveOk hs
    exact h.setCall rfl hkeep (by rintro el - ⟨⟩)
  | resolveFail c =>
    obtain ⟨hedp, doh, w, -, rfl⟩ := step_resolveFail hs
    exact h.setCall rfl hkeep (by rintro el - ⟨⟩)
  | insert c =>
    obtain ⟨hedp, doh, w, a, -, ⟨a', ha', rfl⟩ | ⟨hnone, rfl⟩⟩ := step_insert hs
    · refine h.setCall rfl hkeep ?_
      rintro el rfl ⟨⟩
      exact ha'
    · refine h.setCall rfl (fun el hel => ?_) ?_
      · have hne : k ≠ hedp := by
          rintro rfl
          rw [hnone] at hel
          cases hel
        rw [setCache_edpCache, Function.update_of_ne hne]
        exact hel
      · rintro el rfl ⟨⟩
        simp
  | notify c =>
    obtain ⟨hedp, doh, w, a, l, -, -, rfl⟩ := step_notify hs
    exact h.setCall (by simp) (by simp) (by rintro el - ⟨⟩)
  | receive c =>
    obtain ⟨hedp, doh, t, a, rest, hc, -, rfl⟩ := step_receive hs
    refine h.setCall rfl hkeep ?_
    rintro el rfl rfl
    exact h c doh _ el hc
  | timeout c =>
    obtain ⟨hedp, doh, t, hc, rfl⟩ := step_timeout hs
    refine h.setCall rfl hkeep ?_
    rintro el rfl rfl
    exact h c doh _ el hc
  | removeSvc hedp =>
    obtain rfl := step_removeSvc hs
    intro c doh w el hc
    have hne : k ≠ hedp := by
      rintro rfl
      exact hq rfl c doh w el hc
    rw [setCache_edpCache, Function.update_of_ne hne]
    exact h c doh w el hc

/-! ## What the actions are for the cell -/

section Steps

variable {s s' : SlowDns K L C} {k : K} {c : C}

omit [DecidableEq C] in
theorem cellOf_eq {t : SlowDns K L C} (hcache : t.edpCache k = s.edpCache k)
    (hr : readerOf t k = readerOf s k) : cellOf k t = cellOf k s := by
  simp only [cellOf, hcache, hr]

/-- Registering, resolving and failing are seen as nothing. -/
theorem cellOf_task {t : SlowDns K L C} {old call : Call K L} (hc : t.calls = s.calls)
    (hch : t.chan = s.chan) (hcache : t.edpCache = s.edpCache) (h : s.calls c = some old)
    (hk : call.hedp = old.hedp) (hw : call.waiter = old.waiter) :
    cellOf k (t.setCall c call) = cellOf k s :=
  cellOf_eq (congrFun hcache k) (readerOf_setCall_same hc hch h hk hw)

theorem seen_task {t : SlowDns K L C} {old call : Call K L} (hc : t.calls = s.calls)
    (hch : t.chan = s.chan) (hcache : t.edpCache = s.edpCache) (h : s.calls c = some old)
    (hk : call.hedp = old.hedp) (hw : call.waiter = old.waiter) :
    run AtomicCell.step (cellOf k s) [] = some (cellOf k (t.setCall c call)) := by
  rw [run_nil, cellOf_task hc hch hcache h hk hw]

/-- The look into the cache: a hit reads the cell. -/
theorem seen_call {hedp : K} {doh : Bool} (hi : Inv s)
    (hs : step s (.call c hedp doh) = some s') :
    run AtomicCell.step (cellOf k s) (seen k s (.call c hedp doh)) = some (cellOf k s') := by
  obtain ⟨hc, hcase⟩ := step_call hs
  have hnone : readerOf s k c = none := by simp [readerOf, hc]
  have hbuff : (s.chan c).buff = [] := by
    rw [hi.fresh c (.inl (by simp [roleAt, hc]))]
    rfl
  by_cases hk : hedp = k
  · subst hk
    rcases hcase with ⟨a, ha, rfl⟩ | ⟨ha, rfl⟩
    · simp [seen, run, AtomicCell.step, AtomicCell.Cell.setReader, cellOf, readerOf_setCall,
        ha, hnone, callerOf]
    · simp [seen, run, AtomicCell.step, AtomicCell.Cell.setReader, cellOf, readerOf_setCall,
        ha, hnone, callerOf, hbuff]
  · have hsame : ∀ call : Call K L, call.hedp = hedp →
        readerOf (s.setCall c call) k = readerOf s k := by
      intro call hcall
      rw [readerOf_setCall, hcall, if_neg hk, ← hnone, Function.update_eq_self]
    rcases hcase with ⟨a, -, rfl⟩ | ⟨-, rfl⟩ <;>
      simp [seen, hk, cellOf, hsame]

/-- The insert publishes the list where there is none. -/
theorem seen_insert (hs : step s (.insert c) = some s') :
    run AtomicCell.step (cellOf k s) (seen k s (.insert c)) = some (cellOf k s') := by
  obtain ⟨hedp, doh, w, a, hc, hcase⟩ := step_insert hs
  rcases hcase with ⟨a', ha', rfl⟩ | ⟨ha', rfl⟩
  · have hseen : seen k s (.insert c) = [] := by
      simp only [seen, hc]
      refine if_neg ?_
      rintro ⟨rfl, h⟩
      rw [ha'] at h
      cases h
    rw [hseen]
    exact seen_task rfl rfl rfl hc rfl rfl
  · have hread : readerOf ((s.setCache hedp (some a)).setCall c ⟨hedp, doh, w, .inserted a⟩) k =
        readerOf s k := readerOf_setCall_same rfl rfl hc rfl rfl
    by_cases hk : hedp = k
    · subst hk
      simp [seen, hc, ha', run, AtomicCell.step, cellOf, hread]
    · have hk' : k ≠ hedp := fun h => hk h.symm
      simp [seen, hc, hk, cellOf, hread, Function.update_of_ne hk']

theorem seen_timeout (hs : step s (.timeout c) = some s') :
    run AtomicCell.step (cellOf k s) (seen k s (.timeout c)) = some (cellOf k s') := by
  obtain ⟨hedp, doh, t, hc, rfl⟩ := step_timeout hs
  by_cases hk : hedp = k
  · subst hk
    have hread := readerOf_of_calls (k := hedp) hc
    cases hb : (s.chan c).buff <;>
      simp [seen, hc, run, AtomicCell.step, AtomicCell.Cell.setReader, cellOf, readerOf_setCall,
        hread, callerOf, hb]
  · have hnone : readerOf s k c = none := by simp [readerOf, hc, hk]
    have hsame : readerOf (s.setCall c ⟨hedp, doh, .timedOut, t⟩) k = readerOf s k := by
      rw [readerOf_setCall, if_neg hk, ← hnone, Function.update_eq_self]
    simp [seen, hc, hk, cellOf, hsame]

/-- Taking the list out of the channel: it was read when it came. -/
theorem seen_receive (hs : step s (.receive c) = some s') : cellOf k s' = cellOf k s := by
  obtain ⟨hedp, doh, t, a, rest, hc, hb, rfl⟩ := step_receive hs
  refine cellOf_eq rfl ?_
  ext1 d
  by_cases hdc : d = c
  · subst hdc
    rw [readerOf_setCall, Function.update_self, readerOf_of_calls hc, hb]
    rfl
  · rw [readerOf_setCall, Function.update_of_ne hdc]
    simp only [readerOf, setChan_calls, setChan_chan, Function.update_of_ne hdc]

omit [DecidableEq K] [DecidableEq C] in
/-- A listed call is a call on the key it is listed under. -/
theorem calls_of_listed {l : List C} {d : C} (hi : Inv s) (hl : s.resolveRunning k = some l)
    (hd : d ∈ l) : ∃ doh w t, s.calls d = some ⟨k, doh, w, t⟩ := by
  rcases (hi.listed k l d hl hd).1 with h | h <;>
    obtain ⟨⟨k', doh, w, t⟩, hcall, he⟩ := Option.map_eq_some_iff.mp h <;>
    obtain ⟨rfl, -⟩ := Prod.mk.inj he <;>
    exact ⟨doh, w, t, hcall⟩

omit [DecidableEq C] in
/-- A listed caller that waits has asked. -/
theorem readerOf_waits {l : List C} {d : C} (hi : Inv s) (hl : s.resolveRunning k = some l)
    (hd : d ∈ l) (hw : waits s d = true) : readerOf s k d = some .asked := by
  obtain ⟨doh, w, t, hcall⟩ := calls_of_listed hi hl hd
  have hempty := (hi.listed k l d hl hd).2
  cases w with
  | receiving =>
    rw [readerOf_of_calls hcall, if_pos rfl, hempty]
    rfl
  | returned a => simp [waits, hcall] at hw
  | timedOut => simp [waits, hcall] at hw

/-- What the notification of `k` is for its own readers. -/
theorem readerOf_sendAll {a : Answer L} {l : List C} (hi : Inv s)
    (hl : s.resolveRunning k = some l) (d : C) :
    readerOf (s.sendAll a l) k d =
      if d ∈ l.filter (waits s) then some (.got a) else readerOf s k d := by
  by_cases hd : d ∈ l
  · obtain ⟨doh, w, t, hcall⟩ := calls_of_listed hi hl hd
    have hchan : ((s.sendAll a l).chan d).buff = [a] := by
      rw [sendAll_chan_mem s d a l (hi.nodup k l hl) hd, (hi.listed k l d hl hd).2]
      rfl
    cases w <;> simp [readerOf, waits, hcall, hd, hchan, callerOf]
  · simp [readerOf, hd, sendAll_chan_not_mem s d a l hd]

/-- The notification of another key. -/
theorem readerOf_sendAll_ne {a : Answer L} {l : List C} {hedp : K} (hi : Inv s)
    (hl : s.resolveRunning hedp = some l) (hk : hedp ≠ k) :
    readerOf (s.sendAll a l) k = readerOf s k := by
  ext1 d
  by_cases hd : d ∈ l
  · obtain ⟨doh, w, t, hcall⟩ := calls_of_listed hi hl hd
    simp [readerOf, hcall, hk]
  · simp [readerOf, sendAll_chan_not_mem s d a l hd]

/-- The notification: every listed caller that waits reads the cell. -/
theorem seen_notify (hi : Inv s) (hheld : Held k s) (hs : step s (.notify c) = some s') :
    run AtomicCell.step (cellOf k s) (seen k s (.notify c)) = some (cellOf k s') := by
  obtain ⟨hedp, doh, w, a, l, hc, hl, rfl⟩ := step_notify hs
  have hafter : cellOf k (((s.sendAll a l).setRunning hedp none).setCall c
      ⟨hedp, doh, w, .finished⟩) = cellOf k (s.sendAll a l) := by
    have hc' : (s.sendAll a l).calls c = some ⟨hedp, doh, w, .inserted a⟩ := by simpa using hc
    exact cellOf_task rfl rfl rfl hc' rfl rfl
  rw [hafter]
  by_cases hk : hedp = k
  · subst hk
    have hseen : seen hedp s (.notify c) = (l.filter (waits s)).map .read := by
      simp [seen, hc, hl]
    have hvalue : (cellOf hedp s).value = some a := hheld c doh w a hc
    have hask : ∀ d ∈ l.filter (waits s), (cellOf hedp s).reader d = some .asked := by
      intro d hd
      rw [List.mem_filter] at hd
      exact readerOf_waits hi hl hd.1 hd.2
    rw [hseen, AtomicCell.run_reads hvalue ((hi.nodup hedp l hl).filter _) hask]
    congr 1
    simp only [cellOf, sendAll_edpCache]
    congr 1
    ext1 d
    rw [readerOf_sendAll hi hl d]
  · have hseen : seen k s (.notify c) = [] := by simp [seen, hc, hk]
    rw [hseen, run_nil, cellOf_eq (by simp) (readerOf_sendAll_ne hi hl hk)]

/-- **Every action is, for the entry of `k`, a run of the cell.** -/
theorem seen_step (a : Act K L C) (hi : Inv s) (hheld : Held k s) (hs : step s a = some s') :
    run AtomicCell.step (cellOf k s) (seen k s a) = some (cellOf k s') := by
  cases a with
  | call c hedp doh => exact seen_call hi hs
  | register c =>
    obtain ⟨hedp, doh, w, hc, ⟨l, -, rfl⟩ | ⟨-, rfl⟩⟩ := step_register hs
    · exact seen_task rfl rfl rfl hc rfl rfl
    · exact seen_task rfl rfl rfl hc rfl rfl
  | resolveOk c el =>
    obtain ⟨hedp, doh, w, hc, rfl⟩ := step_resolveOk hs
    exact seen_task rfl rfl rfl hc rfl rfl
  | resolveFail c =>
    obtain ⟨hedp, doh, w, hc, rfl⟩ := step_resolveFail hs
    exact seen_task rfl rfl rfl hc rfl rfl
  | insert c => exact seen_insert hs
  | notify c => exact seen_notify hi hheld hs
  | receive c => exact congrArg some (seen_receive hs).symm
  | timeout c => exact seen_timeout hs
  | removeSvc hedp =>
    obtain rfl := step_removeSvc hs
    have hread : readerOf (s.setCache hedp none) k = readerOf s k := readerOf_congr rfl rfl
    by_cases hk : hedp = k
    · subst hk
      simp [seen, run, AtomicCell.step, cellOf, hread]
    · have hk' : k ≠ hedp := fun h => hk h.symm
      simp [seen, hk, cellOf, hread, Function.update_of_ne hk']

end Steps

omit [DecidableEq C] in
/-- Only a removal of the key is seen as one. -/
theorem removes_of_seen {s : SlowDns K L C} {k : K} {a : Act K L C} (h : .remove ∈ seen k s a) :
    a = .removeSvc k := by
  cases a with
  | removeSvc hedp =>
    by_cases hk : hedp = k
    · rw [hk]
    · simp [seen, hk] at h
  | call c hedp doh =>
    simp only [seen] at h
    repeat' split at h
    all_goals simp at h
  | insert c =>
    simp only [seen] at h
    repeat' split at h
    all_goals simp at h
  | notify c =>
    simp only [seen] at h
    repeat' split at h
    all_goals simp at h
  | timeout c =>
    simp only [seen] at h
    repeat' split at h
    all_goals simp at h
  | register c => simp [seen] at h
  | resolveOk c el => simp [seen] at h
  | resolveFail c => simp [seen] at h
  | receive c => simp [seen] at h

/-! ## The stale list -/

section Stale

variable {s : SlowDns K L C} {k : K} {c d : C} {el : Answer L}

/-- A call that comes in between the removal and the notification of `c`. -/
def staleRun (k : K) (c d : C) : List (Act K L C) :=
  [.removeSvc k, .call d k false, .register d, .notify c, .receive d]

theorem stale_run {doh : Bool} {w : Waiter L} (hi : Inv s)
    (hc : s.calls c = some ⟨k, doh, w, .inserted el⟩) (hd : s.calls d = none) :
    ∃ s', run step s (staleRun k c d) = some s' ∧
      s'.calls d = some ⟨k, false, .returned el, .joined⟩ ∧ s'.edpCache k = none ∧
      run AtomicCell.step (cellOf k s) (trace step (seen k) s (staleRun k c d)) = none := by
  obtain ⟨l, hl, hcl⟩ := hi.own_mem c k (roleAt_of_calls hc)
  have hdl : d ∉ l := by
    intro hm
    obtain ⟨doh', w', t, hd'⟩ := calls_of_listed hi hl hm
    rw [hd] at hd'
    cases hd'
  have hne : c ≠ d := by
    rintro rfl
    rw [hc] at hd
    cases hd
  have hempty : s.chan d = .empty := hi.fresh d (.inl (by simp [roleAt, hd]))
  -- the five states, one action after the other
  obtain ⟨s₁, h1, hs1⟩ : ∃ s₁, step s (.removeSvc k) = some s₁ ∧ s₁ = s.setCache k none :=
    ⟨_, rfl, rfl⟩
  obtain ⟨s₂, h2, hs2⟩ : ∃ s₂, step s₁ (.call d k false) = some s₂ ∧
      s₂ = s₁.setCall d ⟨k, false, .receiving, .spawned⟩ := by
    refine ⟨_, ?_, rfl⟩
    simp [step, hs1, hd]
  obtain ⟨s₃, h3, hs3⟩ : ∃ s₃, step s₂ (.register d) = some s₃ ∧
      s₃ = (s₂.setRunning k (some (l ++ [d]))).setCall d ⟨k, false, .receiving, .joined⟩ := by
    refine ⟨_, ?_, rfl⟩
    simp [step, hs2, hs1, hl]
  have hc3 : s₃.calls c = some ⟨k, doh, w, .inserted el⟩ := by
    simp [hs3, hs2, hs1, Function.update_of_ne hne, hc]
  have hl3 : s₃.resolveRunning k = some (l ++ [d]) := by simp [hs3]
  obtain ⟨s₄, h4, hs4⟩ : ∃ s₄, step s₃ (.notify c) = some s₄ ∧
      s₄ = ((s₃.sendAll el (l ++ [d])).setRunning k none).setCall c ⟨k, doh, w, .finished⟩ := by
    refine ⟨_, ?_, rfl⟩
    simp only [step, hc3, hl3]
  have hchan : s₄.chan d = ⟨[el], [el]⟩ := by
    have hmem : d ∈ l ++ [d] := List.mem_append_right _ (List.mem_singleton_self d)
    have hnodup : (l ++ [d]).Nodup := by
      rw [List.nodup_append]
      exact ⟨hi.nodup k l hl, List.nodup_singleton d, fun a ha b hb hab =>
        hdl (List.mem_singleton.mp hb ▸ hab ▸ ha)⟩
    rw [hs4, setCall_chan, setRunning_chan, sendAll_chan_mem s₃ d el _ hnodup hmem]
    simp [hs3, hs2, hs1, hempty, Channel.trySend, Channel.empty]
  have hd4 : s₄.calls d = some ⟨k, false, .receiving, .joined⟩ := by
    simp [hs4, hs3, Function.update_of_ne hne.symm]
  obtain ⟨s₅, h5, hs5⟩ : ∃ s₅, step s₄ (.receive d) = some s₅ ∧
      s₅ = (s₄.setChan d { s₄.chan d with buff := [] }).setCall d
        ⟨k, false, .returned el, .joined⟩ := by
    refine ⟨_, ?_, rfl⟩
    simp only [step, hd4, hchan]
  refine ⟨s₅, ?_, by simp [hs5], by simp [hs5, hs4, hs3, hs2, hs1], ?_⟩
  · simp only [staleRun, run, h1, h2, h3, h4, h5, Option.bind_some]
  · -- the first of the listed callers reads after the removal
    obtain ⟨e, rest, hseen⟩ : ∃ e rest, seen k s₃ (.notify c) = .read e :: rest := by
      have hd3 : d ∈ (l ++ [d]).filter (waits s₃) := by
        rw [List.mem_filter]
        exact ⟨List.mem_append_right _ (List.mem_singleton_self d), by simp [waits, hs3]⟩
      obtain ⟨e, es, hes⟩ := List.exists_cons_of_ne_nil (List.ne_nil_of_mem hd3)
      refine ⟨e, es.map .read, ?_⟩
      simp only [seen, hc3, hl3, Option.getD_some, hes, if_pos]
      rfl
    have hask : seen k s₁ (.call d k false) = [.ask d] := by simp [seen, hs1]
    have hnone : readerOf s k d = none := by simp [readerOf, hd]
    rw [staleRun, trace_cons h1, trace_cons h2, trace_cons h3, trace_cons h4, hseen, hask]
    simp only [seen, if_pos, List.cons_append, List.nil_append]
    rw [run, AtomicCell.step, Option.bind_some, run, AtomicCell.step,
      if_pos (by exact hnone), Option.bind_some]
    exact AtomicCell.run_read_none rfl e _

end Stale

/-! ## The theorems -/

/-- A run that does not remove `k` between an insert and its notification. -/
theorem cell_of_quiet {cache : K → Option (Answer L)} {acts : List (Act K L C)}
    {s : SlowDns K L C} {k : K} (hq : Meets step (Quiet k) (init cache) acts)
    (hs : run step (init cache) acts = some s) :
    run AtomicCell.step (AtomicCell.init (cache k)) (trace step (seen k) (init cache) acts) =
      some (cellOf k s) := by
  have hstep : ∀ (t : SlowDns K L C) (a : Act K L C) (t' : SlowDns K L C),
      (Inv t ∧ Held k t) → Quiet k t a → step t a = some t' →
      (Inv t' ∧ Held k t') ∧
        run AtomicCell.step (cellOf k t) (seen k t a) = some (cellOf k t') := by
    intro t a t' ht hqa h
    exact ⟨⟨inv_step a ht.1 h, held_step a ht.2 hqa h⟩, seen_step a ht.1 ht.2 h⟩
  exact run_refines hstep ⟨inv_init cache, held_init cache k⟩ hq hs

/-- **An entry of the resolver's cache is an atomic cell.**  Every run is, for each key that
it does not remove between an insert and its notification, a run of the cell: a caller gets
the list that the entry holds at one moment between its call and its return.  A removal in
between breaks it: the next caller on the key returns the removed list, while the entry is
empty from before it came in until it returns. -/
theorem cell_of_run (cache : K → Option (Answer L)) (acts : List (Act K L C))
    (s : SlowDns K L C) (hs : run step (init cache) acts = some s) (k : K) :
    (Meets step (Quiet k) (init cache) acts →
      run AtomicCell.step (AtomicCell.init (cache k)) (trace step (seen k) (init cache) acts) =
        some (cellOf k s)) ∧
    (∀ c d doh w el, s.calls c = some ⟨k, doh, w, .inserted el⟩ → s.calls d = none →
      ∃ s', run step s (staleRun k c d) = some s' ∧
        s'.calls d = some ⟨k, false, .returned el, .joined⟩ ∧ s'.edpCache k = none ∧
        run AtomicCell.step (cellOf k s) (trace step (seen k) s (staleRun k c d)) = none) := by
  refine ⟨fun hq => cell_of_quiet hq hs, ?_⟩
  intro c d doh w el hc hd
  exact stale_run (inv_run hs) hc hd

/-- One call inserts, is not notified yet, and a second comes in after the removal. -/
theorem cell_of_run_stale : ∃ s : SlowDns Nat Nat Nat,
    run step (init fun _ => none)
      [.call 0 7 false, .register 0, .resolveOk 0 42, .insert 0] = some s ∧
    ∃ s', run step s (staleRun 7 0 1) = some s' ∧
      s'.calls 1 = some ⟨7, false, .returned ⟨.system, 42⟩, .joined⟩ := by
  refine ⟨_, rfl, ?_⟩
  obtain ⟨s', h1, h2, -⟩ := (cell_of_run (fun _ => none)
    [.call 0 7 false, .register 0, .resolveOk 0 42, .insert 0] _ rfl 7).2 0 1 false .receiving
    ⟨.system, 42⟩ (by rfl) (by rfl)
  exact ⟨s', h1, h2⟩

/-- **Callers agree.**  In a run that does not remove the key, every list that a caller of
it returns is the one in the cache. -/
theorem callers_agree (cache : K → Option (Answer L)) (acts : List (Act K L C))
    (s : SlowDns K L C) (hs : run step (init cache) acts = some s) (k : K)
    (hk : .removeSvc k ∉ acts) (c : C) (call : Call K L) (a : Answer L)
    (hc : s.calls c = some call) (hcall : call.hedp = k) (ha : call.waiter = .returned a) :
    s.edpCache k = some a := by
  have hquiet : ∀ b ∈ acts, b ≠ .removeSvc k := by
    rintro b hb rfl
    exact hk hb
  have hmeets : Meets step (Quiet k) (init cache) acts := by
    apply meets_mono _ (meets_of_forall hquiet)
    intro t b hb hrem
    exact absurd hrem hb
  have hno : .remove ∉ trace step (seen k) (init cache) acts := by
    intro hm
    obtain ⟨t, b, hb, hseen⟩ := mem_trace hm
    exact hquiet b hb (removes_of_seen hseen)
  apply AtomicCell.agrees_run hno (cell_of_quiet hmeets hs) c a
  show readerOf s k c = _
  rw [readerOf_of_calls hc, if_pos hcall, ha]
  rfl

/-- The second caller joins the first; both return its list. -/
theorem callers_agree_joined : ∃ s : SlowDns Nat Nat Nat,
    run step (init fun _ => none)
      [.call 0 7 false, .call 1 7 false, .register 0, .register 1, .resolveOk 0 42, .insert 0,
        .notify 0, .receive 1] = some s ∧ s.edpCache 7 = some ⟨.system, 42⟩ := by
  refine ⟨_, rfl, ?_⟩
  exact callers_agree (fun _ => none)
    [.call 0 7 false, .call 1 7 false, .register 0, .register 1, .resolveOk 0 42, .insert 0,
      .notify 0, .receive 1] _ rfl 7 (by decide) 1 ⟨7, false, .returned ⟨.system, 42⟩, .joined⟩
    ⟨.system, 42⟩ (by rfl) rfl rfl

end Hcpp.Dns.SlowDns
