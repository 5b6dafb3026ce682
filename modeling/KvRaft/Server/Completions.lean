import KvRaft.Lib.Recent
import KvRaft.Server.Waiters

/-! The results that no call waited for: `completed`, `completionQ` and the calls that come for
them. -/

namespace KvRaft.Server

open Raft Store

/-- `completed` and `completionQ`. -/
def RaftKVServer.recent (srv : RaftKVServer) : Recent PendingKey (Option Err) :=
  ⟨srv.completed, srv.completionQ⟩

theorem RaftKVServer.recent_complete (srv : RaftKVServer) (key : PendingKey) (err : Option Err) :
    (srv.complete key err).recent = srv.recent.record maxCompletedNotifications key err := by
  unfold complete Recent.record recent
  by_cases hfull : srv.completionQ.length ≥ maxCompletedNotifications
  · simp only [hfull, if_true, Recent.evict]
    cases hq : srv.completionQ with
    | nil => simp [hq]
    | cons oldest rest => rfl
  · simp only [hfull, if_false]

/-- The key of the message that the applier takes in the step. -/
def WaitEvent.delivered : WaitEvent → Option PendingKey
  | .apply msg _ _ => some ⟨msg.index, msg.term⟩
  | _ => none

/-- The keys of the messages that the applier takes in a run. -/
def delivered (es : List WaitEvent) : List PendingKey := es.filterMap WaitEvent.delivered

namespace Waiters

/-- The key whose result the step puts into `completed`. -/
def recorded (s : Waiters) : WaitEvent → Option PendingKey
  | .notify => (s.server.applied.map Prod.fst).filter fun key => (s.server.pending key).isNone
  | _ => none

/-- What a step does to the kept results: the applier adds one, or a call takes its own, or nothing
changes. -/
inductive Keeps (s s' : Waiters) : WaitEvent → Prop
  | records {key : PendingKey} {err : Option Err} (ha : s.server.applied = some (key, err))
      (hp : s.server.pending key = none)
      (hrecent : s'.server.recent = s.server.recent.record maxCompletedNotifications key err) :
      Keeps s s' .notify
  | takes {id : Nat} {c : Waiter} {key : PendingKey} (hc : s.calls id = some c)
      (hk : c.waitKey = some key) (hrecent : s'.server.recent = s.server.recent.take key)
      (hcalls : ∃ c', s'.calls id = some c' ∧ c'.waitKey = some key ∧ c'.stage ≠ .submitted) :
      Keeps s s' (.register id)
  | same {e : WaitEvent} (hrecorded : s.recorded e = none)
      (hrecent : s'.server.recent = s.server.recent) : Keeps s s' e

variable {s s' : Waiters} {e : WaitEvent} {id : Nat} {c : Waiter} {key : PendingKey}
  {err : Option Err}

theorem Keeps.of_step (h : Step s e s') : Keeps s s' e := by
  cases h with
  | submit answer hnew =>
    cases answer with
    | none => exact .same rfl rfl
    | some key => exact .same rfl rfl
  | @register id c key hc hstage hk =>
    by_cases hclosed : s.closed = true
    · exact .same rfl (by rw [register, if_pos hclosed]; rfl)
    · rw [register, if_neg hclosed]
      cases hcompleted : s.server.completed key with
      | none => exact .same rfl (by simp only [hcompleted]; rfl)
      | some err =>
        simp only [hcompleted]
        exact .takes hc hk rfl ⟨_, setCall_self, hk, by simp [Waiter.finish]⟩
  | receive hc hx => exact .same rfl rfl
  | expire err hc => exact .same rfl rfl
  | seeClosed hc => exact .same rfl rfl
  | leave key err hc => exact .same rfl rfl
  | apply msg ts outcomes => exact .same rfl rfl
  | @notify key err ha =>
    cases hp : s.server.pending key with
    | some id =>
      refine .same (by simp [recorded, ha, hp]) ?_
      simp only [notify, hp]
      rfl
    | none =>
      refine .records ha hp ?_
      simp only [notify, hp, RaftKVServer.recent_complete]
      rfl
  | close => exact .same rfl rfl
  | drain => exact .same rfl rfl
  | use w => exact .same rfl rfl

/-! ### The queue -/

/-- The messages that were processed are those that the applier took. -/
theorem log_step (h : Step s e s') :
    s'.log.map Prod.fst = s.log.map Prod.fst ++ e.delivered.toList := by
  cases h with
  | apply msg ts outcomes => exact List.map_append
  | submit answer hnew => cases answer <;> exact (List.append_nil _).symm
  | @register id c key hc hstage hk =>
    unfold register
    split
    · exact (List.append_nil _).symm
    · simp only
      split <;> exact (List.append_nil _).symm
  | @notify key err ha =>
    unfold notify
    simp only
    split <;> exact (List.append_nil _).symm
  | _ => exact (List.append_nil _).symm

/-- The applier passes on the result of a message, and changes nothing else of the kind. -/
theorem applied_step (h : Step s e s') (ha : s'.server.applied = some (key, err)) :
    e.delivered = some key ∨ s.server.applied = some (key, err) ∧ e ≠ .notify := by
  cases h with
  | apply msg ts outcomes =>
    exact Or.inl (congrArg some (Prod.mk.inj (Option.some.inj ha)).1)
  | submit answer hnew =>
    refine Or.inr ⟨?_, by simp⟩
    cases answer <;> exact ha
  | @register id c key hc hstage hk =>
    refine Or.inr ⟨?_, by simp⟩
    unfold register at ha
    split at ha
    · exact ha
    · simp only at ha
      split at ha <;> exact ha
  | @notify key err ha' =>
    unfold notify at ha
    simp only at ha
    split at ha
    · cases ha
    · cases (RaftKVServer.complete_same ..).2.2.1.symm.trans ha
  | _ => exact Or.inr ⟨ha, by simp⟩

/-- The queue is in order, and holds keys of processed messages only, other than the one whose
result is still to be passed on. -/
structure Recorded (s : Waiters) : Prop where
  bounded : s.server.recent.Bounded maxCompletedNotifications
  queued : ∀ key ∈ s.server.completionQ, key ∈ s.log.map Prod.fst
  applied : ∀ key err, s.server.applied = some (key, err) →
    key ∈ s.log.map Prod.fst ∧ key ∉ s.server.completionQ

/-- What one step keeps, if no message is processed twice. -/
theorem Recorded.step (h : s.Recorded) (hstep : Step s e s')
    (hnodup : (s'.log.map Prod.fst).Nodup) : s'.Recorded := by
  rw [log_step hstep] at hnodup
  have hfresh : ∀ key, e.delivered = some key → key ∉ s.log.map Prod.fst := by
    intro key hkey hin
    exact (List.nodup_append.mp hnodup).2.2 key hin key (Option.mem_toList.mpr hkey) rfl
  have hlog : ∀ key ∈ s.log.map Prod.fst, key ∈ s'.log.map Prod.fst := by
    intro key hin
    rw [log_step hstep]
    exact List.mem_append_left _ hin
  -- the message that waits for its notification is not in a queue that has not grown
  have happlied : (∀ key ∈ s'.server.completionQ, key ∈ s.server.completionQ) →
      ∀ key err, s'.server.applied = some (key, err) →
        key ∈ s'.log.map Prod.fst ∧ key ∉ s'.server.completionQ := by
    intro hqueue key err ha
    rcases applied_step hstep ha with hnew | ⟨hold, -⟩
    · refine ⟨?_, fun hin => hfresh key hnew (h.queued key (hqueue key hin))⟩
      rw [log_step hstep]
      exact List.mem_append_right _ (Option.mem_toList.mpr hnew)
    · obtain ⟨hin, hout⟩ := h.applied key err hold
      exact ⟨hlog key hin, fun hq => hout (hqueue key hq)⟩
  cases Keeps.of_step hstep with
  | @records key err ha hp hrecent =>
    obtain ⟨hin, hout⟩ := h.applied key err ha
    refine ⟨hrecent ▸ h.bounded.record (by decide) hout, fun k hk => ?_, fun k err' ha' => ?_⟩
    · have hk : k ∈ s'.server.recent.queue := hk
      rw [hrecent] at hk
      rcases Recent.mem_queue_record hk with hk | rfl
      · exact hlog k (h.queued k hk)
      · exact hlog k hin
    · rcases applied_step hstep ha' with hnew | ⟨-, hne⟩
      · cases hnew
      · exact absurd rfl hne
  | @takes id c key hc hk hrecent hcalls =>
    have hqueue : s'.server.completionQ = s.server.completionQ := congrArg Recent.queue hrecent
    refine ⟨hrecent ▸ h.bounded.take key, fun k hk => hlog k (h.queued k (hqueue ▸ hk)),
      happlied fun k hk => hqueue ▸ hk⟩
  | same hrecorded hrecent =>
    have hqueue : s'.server.completionQ = s.server.completionQ := congrArg Recent.queue hrecent
    exact ⟨hrecent ▸ h.bounded, fun k hk => hlog k (h.queued k (hqueue ▸ hk)),
      happlied fun k hk => hqueue ▸ hk⟩

theorem Recorded.initial (h : waiters.initial s) : s.Recorded := by
  obtain ⟨w, rfl⟩ := h
  exact ⟨⟨fun key a hk => (by cases hk), List.nodup_nil, Nat.zero_le _⟩, by simp, by simp⟩

/-! ### The calls -/

/-- A call keeps its key, and does not go back to the point before it takes `pendingLock`. -/
theorem calls_step (h : Step s e s') (hc : s.calls id = some c) : ∃ c', s'.calls id = some c' ∧
    c'.waitKey = c.waitKey ∧ (c.stage ≠ .submitted → c'.stage ≠ .submitted) := by
  -- a step that moves the call `i` on
  have hmoves : ∀ {t : Waiters} {i : Nat} {d d' : Waiter}, t.calls = s.calls →
      s.calls i = some d → d'.waitKey = d.waitKey → d'.stage ≠ .submitted →
      ∃ c', (t.setCall i d').calls id = some c' ∧ c'.waitKey = c.waitKey ∧
        (c.stage ≠ .submitted → c'.stage ≠ .submitted) := by
    intro t i d d' ht hd hkey hstage
    by_cases hi : id = i
    · subst hi
      obtain rfl := Option.some.inj (hc.symm.trans hd)
      exact ⟨d', setCall_self, hkey, fun _ => hstage⟩
    · exact ⟨c, (setCall_other hi).trans ((congrFun ht id).trans hc), rfl, fun hne => hne⟩
  cases h with
  | @submit new answer hnew =>
    have hne : id ≠ new := by
      rintro rfl
      rw [hnew] at hc
      cases hc
    refine ⟨c, ?_, rfl, fun hne => hne⟩
    cases answer with
    | none => exact (setCall_other hne).trans hc
    | some key => exact (setCall_other hne).trans hc
  | @register i d key hd hstage hk =>
    unfold register
    split
    · exact hmoves rfl hd rfl (by simp [Waiter.finish])
    · simp only
      split
      · exact hmoves rfl hd rfl (by simp [Waiter.finish])
      · exact hmoves rfl hd rfl (by simp)
  | receive hd hx => exact hmoves rfl hd rfl (by simp [Waiter.finish])
  | expire err hd => exact hmoves rfl hd rfl (by simp)
  | seeClosed hd => exact hmoves rfl hd rfl (by simp)
  | leave key err hd => exact hmoves rfl hd rfl (by simp [Waiter.finish])
  | @notify key err ha =>
    unfold notify
    simp only
    split
    · next i hp =>
      by_cases hi : id = i
      · subst hi
        exact ⟨_, (Function.update_self ..).trans (congrArg _ hc), rfl, fun hne => hne⟩
      · exact ⟨c, (Function.update_of_ne hi ..).trans hc, rfl, fun hne => hne⟩
    · exact ⟨c, hc, rfl, fun hne => hne⟩
  | drain =>
    have hmap : s.drain.calls id = some (if c.waitKey.bind s.server.pending = some id then
        c.send (.error .serverClosed) else c) := congrArg (Option.map _) hc
    refine ⟨_, hmap, ?_⟩
    split
    · exact ⟨rfl, fun hne => hne⟩
    · exact ⟨rfl, fun hne => hne⟩
  | apply msg ts outcomes => exact ⟨c, hc, rfl, fun hne => hne⟩
  | close => exact ⟨c, hc, rfl, fun hne => hne⟩
  | use w => exact ⟨c, hc, rfl, fun hne => hne⟩

/-- A call has taken `pendingLock` for the key. -/
def Claimed (key : PendingKey) (s : Waiters) : Prop :=
  ∃ id c, s.calls id = some c ∧ c.waitKey = some key ∧ c.stage ≠ .submitted

theorem Claimed.step (h : Claimed key s) (hstep : Step s e s') : Claimed key s' := by
  obtain ⟨id, c, hc, hk, hstage⟩ := h
  obtain ⟨c', hc', hkey, hstage'⟩ := calls_step hstep hc
  exact ⟨id, c', hc', hkey.trans hk, hstage' hstage⟩

theorem Claimed.leads (h : Claimed key s) (hrun : waiters.Leads s s') : Claimed key s' :=
  hrun.invariant (fun _ _ _ h hstep => h.step (.of_step hstep)) h

/-- As long as the results recorded since are few, a result is kept until a call comes for it. -/
structure Window (key : PendingKey) (err : Option Err) (later : List PendingKey) (s : Waiters) :
    Prop where
  recorded : (s.log.map Prod.fst).Nodup → s.Recorded
  kept : (s.log.map Prod.fst).Nodup → later.length < maxCompletedNotifications →
    s.server.recent.Since key err later ∨ Claimed key s

theorem nodup_of_step (hstep : Step s e s') (h : (s'.log.map Prod.fst).Nodup) :
    (s.log.map Prod.fst).Nodup := by
  rw [log_step hstep] at h
  exact (List.nodup_append.mp h).1

theorem Window.step {later : List PendingKey} (h : Window key err later s) (hstep : Step s e s') :
    Window key err (later ++ (s.recorded e).toList) s' := by
  refine ⟨fun hnodup => (h.recorded (nodup_of_step hstep hnodup)).step hstep hnodup,
    fun hnodup hlater => ?_⟩
  rw [List.length_append] at hlater
  have hold := nodup_of_step hstep hnodup
  have hrecorded := h.recorded hold
  rcases h.kept hold (by omega) with hsince | hclaimed
  swap
  · exact Or.inr (hclaimed.step hstep)
  cases Keeps.of_step hstep with
  | @records k err' ha hp hrecent =>
    have hnew : s.recorded .notify = some k := by simp [Waiters.recorded, ha, hp]
    have hk : k ≠ key := by
      rintro rfl
      obtain ⟨earlier, hqueue⟩ := hsince.2
      refine (hrecorded.applied k err' ha).2 ?_
      rw [show s.server.completionQ = _ from hqueue]
      simp
    rw [hnew, Option.toList_some, List.length_singleton] at hlater
    rw [hnew, hrecent]
    exact Or.inl (hsince.record hrecorded.bounded hk hlater)
  | @takes i d k hd hk hrecent hcalls =>
    by_cases heq : k = key
    · subst heq
      obtain ⟨d', hd', hk', hstage'⟩ := hcalls
      exact Or.inr ⟨i, d', hd', hk', hstage'⟩
    · rw [hrecent, show later ++ (s.recorded (.register i)).toList = later from List.append_nil _]
      exact Or.inl (hsince.take heq)
  | same hnone hrecent =>
    rw [hrecent, hnone, Option.toList_none, List.append_nil]
    exact Or.inl hsince

end Waiters

theorem log_exec {s s' : Waiters} {es : List WaitEvent} (hrun : waiters.exec s es = some s') :
    s'.log.map Prod.fst = s.log.map Prod.fst ++ delivered es := by
  induction es generalizing s with
  | nil =>
    obtain rfl := Option.some.inj hrun
    exact (List.append_nil _).symm
  | cons e es ih =>
    obtain ⟨s₁, h₁, hrest⟩ := Machine.exec_cons_eq_some.mp hrun
    rw [ih hrest, Waiters.log_step (.of_step h₁), List.append_assoc]
    congr 1
    rw [delivered, delivered, List.filterMap_cons]
    cases e.delivered with
    | none => rfl
    | some key => rfl

/-- Every run has the queue in order. -/
theorem Waiters.Recorded.of_run {s₀ s : Waiters} {es : List WaitEvent} (h₀ : waiters.initial s₀)
    (hrun : waiters.exec s₀ es = some s) (hnodup : (s.log.map Prod.fst).Nodup) : s.Recorded :=
  Machine.Leads.invariant (P := fun s => (s.log.map Prod.fst).Nodup → s.Recorded)
    (fun _ _ _ h hstep hnodup =>
      (h (nodup_of_step (.of_step hstep) hnodup)).step (.of_step hstep) hnodup)
    ⟨es, hrun⟩ (fun _ => .initial h₀) hnodup

/-- In every order of the steps of calls, the applier and `Close`, if `Submit` answers with distinct
keys and no key is applied twice: the keys of `completed` are in `completionQ`, which has no key
twice and at most `maxCompletedNotifications` of them; and a call that takes `pendingLock` of the
open server after the result of its entry was passed on returns this result at once, if fewer than
`maxCompletedNotifications` results were recorded since. -/
theorem early_results_survive {s₀ s : Waiters} {es : List WaitEvent} (h₀ : waiters.initial s₀)
    (hrun : waiters.exec s₀ es = some s) (hsubmitted : (submitted es).Nodup)
    (hdelivered : (delivered es).Nodup) :
    ((∀ key err, s.server.completed key = some err → key ∈ s.server.completionQ) ∧
      s.server.completionQ.Nodup ∧ s.server.completionQ.length ≤ maxCompletedNotifications) ∧
    ∀ es₁ es₂ s₁ s₂ key err id c, es = es₁ ++ .notify :: es₂ → waiters.exec s₀ es₁ = some s₁ →
      s₁.server.applied = some (key, err) → waiters.step s₁ .notify = some s₂ →
      (waiters.reads Waiters.recorded s₂ es₂).length < maxCompletedNotifications →
      s.closed = false → s.calls id = some c → c.stage = .submitted → c.waitKey = some key →
      ∃ s' n, waiters.step s (.register id) = some s' ∧ s'.resultOf id = some (.result n err) ∧
        s.log[n]? = some (key, err) := by
  have hempty : s₀.log.map Prod.fst = [] := by
    obtain ⟨w, rfl⟩ := h₀
    rfl
  have hnodup : (s.log.map Prod.fst).Nodup := by
    rw [log_exec hrun, hempty]
    exact hdelivered
  have hrecorded := Waiters.Recorded.of_run h₀ hrun hnodup
  refine ⟨⟨hrecorded.bounded.among, hrecorded.bounded.nodup, hrecorded.bounded.length⟩, ?_⟩
  intro es₁ es₂ s₁ s₂ key err id c hes hrun₁ ha hnotify hfew hopen hc hstage hk
  subst hes
  obtain ⟨s₁', hrun₁', hrest⟩ := Machine.exec_append_eq_some.mp hrun
  obtain rfl := Option.some.inj (hrun₁.symm.trans hrun₁')
  obtain ⟨s₂', hnotify', hrun₂⟩ := Machine.exec_cons_eq_some.mp hrest
  obtain rfl := Option.some.inj (hnotify.symm.trans hnotify')
  have hsound := Waiters.Sound.of_run h₀ hrun
  have hkeyed := Waiters.Keyed.of_run h₀ hrun hsubmitted
  have hunclaimed : ¬ Waiters.Claimed key s := by
    rintro ⟨id', c', hc', hk', hstage'⟩
    have hid : id' = id := hkeyed.one id' id key (by rw [Waiters.keyOf, hc']; exact hk')
      (by rw [Waiters.keyOf, hc]; exact hk)
    subst hid
    obtain rfl := Option.some.inj (hc.symm.trans hc')
    exact hstage' hstage
  -- a call that waited for the result would have taken the lock for the key
  have hpending : s₁.server.pending key = none := by
    cases hp : s₁.server.pending key with
    | none => rfl
    | some i =>
      obtain ⟨d, hd, hkd, hstaged, -⟩ := (Waiters.Sound.of_run h₀ hrun₁).pending key i hp
      exact absurd (Waiters.Claimed.leads ⟨i, d, hd, hkd, hstaged⟩ ⟨_, hrest⟩) hunclaimed
  have hfirst : Waiters.Window key err [] s₂ := by
    have hrun₂ : waiters.exec s₀ (es₁ ++ [.notify]) = some s₂ :=
      Machine.exec_append_eq_some.mpr ⟨s₁, hrun₁, Machine.exec_singleton.trans hnotify⟩
    refine ⟨fun hlog => Waiters.Recorded.of_run h₀ hrun₂ hlog, fun _ _ => Or.inl ?_⟩
    have hstep : Waiters.Step s₁ .notify s₂ := .of_step hnotify
    cases Waiters.Keeps.of_step hstep with
    | records ha' hp' hrecent =>
      obtain ⟨rfl, rfl⟩ := Prod.mk.inj (Option.some.inj (ha.symm.trans ha'))
      exact hrecent ▸ Recent.since_record
    | same hnone hrecent => simp [Waiters.recorded, ha, hpending] at hnone
  have hwindow := Machine.reads_invariant (I := Waiters.Window key err)
    (fun _ _ _ _ h hstep => h.step (.of_step hstep)) hrun₂ hfirst
  rcases hwindow.kept hnodup hfew with ⟨hcompleted, -⟩ | hclaimed
  · refine ⟨s.register id c key, s.origin key, ?_, ?_, hsound.completed key err hcompleted⟩
    · change s.step (.register id) = _
      simp only [Waiters.step, hc, Option.bind_eq_bind, Option.bind_some, hstage, hk]
    · have hregister : (s.register id c key).calls id =
          some (c.finish (.result (s.origin key) err)) := by
        have hcompleted : s.server.completed key = some err := hcompleted
        rw [Waiters.register, if_neg (by simp [hopen])]
        simp only [hcompleted]
        exact Waiters.setCall_self
      rw [Waiters.resultOf, hregister]
      rfl
  · exact absurd hclaimed hunclaimed

/-- The barrier of call 0 is applied, and the put of call 1 is applied and fetched, before call 0
takes `pendingLock`. -/
def lateCall : List WaitEvent :=
  [.submit 0 (some ⟨1, 1⟩), .apply ⟨1, 1, { type := .readBarrier }⟩ 5 []] ++ .notify ::
    [.submit 1 (some ⟨2, 1⟩), .apply ⟨2, 1, { type := .put, key := [1], value := [7] }⟩ 6 [],
      .notify, .register 1]

theorem early_results_survive_lateCall :
    ∃ s s', waiters.exec { server := { store := World.empty } } lateCall = some s ∧
      (submitted lateCall).Nodup ∧ (delivered lateCall).Nodup ∧
      s.server.completionQ = [⟨1, 1⟩, ⟨2, 1⟩] ∧ s.server.completionQ.Nodup ∧
      waiters.step s (.register 0) = some s' ∧ ∃ n, s'.resultOf 0 = some (.result n none) := by
  have hsubmitted : (submitted lateCall).Nodup := by decide
  have hdelivered : (delivered lateCall).Nodup := by decide
  have h₀ : waiters.initial { server := { store := World.empty } } := ⟨_, rfl⟩
  obtain ⟨⟨-, hqueue, -⟩, hlate⟩ := early_results_survive h₀ rfl hsubmitted hdelivered
  obtain ⟨s', n, hstep, hresult, -⟩ := hlate _ _ _ _ ⟨1, 1⟩ none 0 _ rfl rfl rfl rfl
    (by decide +kernel) rfl rfl rfl rfl
  exact ⟨_, s', rfl, hsubmitted, hdelivered, rfl, hqueue, hstep, n, hresult⟩

end KvRaft.Server
