import KvRaft.Server.Waiters

/-! The two models of `submitAndWait`. In the runs of the whole system, what one server and the
calls on it do is a run of the machine of that server alone: what is proved of the machine for any
backend holds of the system, whose backend is a raft node. -/

namespace KvRaft.Server

open Raft Store

variable {n : Nat} {carries : AppendEntriesArgs → Prop} {s s' : System n} {t t' : Waiters}
  {i : Fin n} {id : Nat} {call : ClientCall n} {key : PendingKey} {err : Option Err}

/-- What a call returns when its wait ends with `x`. Only a `Get` goes on after a wait without an
error. -/
inductive Ends (x : Notice) : Request → Result → Prop
  | failed {err : Error} (request : Request) (hx : x.err = some err) : Ends x request (.failed err)
  | value (key bytes : Bytes) (hx : x.err = none) : Ends x (.get key) (.value bytes)
  | unread (key : Bytes) (err : Err) (hx : x.err = none) : Ends x (.get key) (.failed (.store err))
  | put (key value : Bytes) (hx : x.err = none) : Ends x (.put key value) .nil
  | delete (key : Bytes) (hx : x.err = none) : Ends x (.delete key) .nil

/-- How a call of the system stands in the machine of its server. -/
inductive Mirrored (request : Request) (waitKey : Option PendingKey) :
    Progress → Option Waiter → Prop
  | invoked (hk : waitKey = none) : Mirrored request waitKey .invoked none
  | submitted : Mirrored request waitKey .submitted (some ⟨waitKey, .submitted, []⟩)
  | waiting : Mirrored request waitKey .waiting (some ⟨waitKey, .waiting, []⟩)
  | notified (k : Nat) (err : Option Err) :
      Mirrored request waitKey (.notified err) (some ⟨waitKey, .waiting, [.result k err]⟩)
  | applied {x : Notice} {sent : List Notice} (hx : x.err = none) :
      Mirrored request waitKey .applied (some ⟨waitKey, .returned x, sent⟩)
  | found {entry : KeyDirEntry} {x : Notice} {sent : List Notice} (hx : x.err = none) :
      Mirrored request waitKey (.found entry) (some ⟨waitKey, .returned x, sent⟩)
  | returned {result : Result} {x : Notice} {sent : List Notice} (h : Ends x request result) :
      Mirrored request waitKey (.returned result) (some ⟨waitKey, .returned x, sent⟩)

theorem Mirrored.finish (call : ClientCall n) (k : Nat) (err : Option Err) (sent : List Notice) :
    Mirrored call.request call.waitKey (call.finish err).progress
      (some ⟨call.waitKey, .returned (.result k err), sent⟩) := by
  obtain ⟨node, request, waitKey, progress⟩ := call
  cases err with
  | some err => exact .returned (.failed request rfl)
  | none =>
    cases request with
    | get key => exact .applied rfl
    | put key value => exact .returned (.put key value rfl)
    | delete key => exact .returned (.delete key rfl)

/-- The result of an entry comes to a call that waits, or to one that has gone. -/
theorem Mirrored.receive {c : Waiter} (k : Nat) (err : Option Err)
    (h : Mirrored call.request call.waitKey call.progress (some c)) (hnone : c.sent = [])
    (hstage : c.stage ≠ .submitted) :
    Mirrored call.request call.waitKey (call.receive err).progress
      (some (c.send (.result k err))) := by
  obtain ⟨node, request, waitKey, progress⟩ := call
  cases h with
  | submitted => exact absurd rfl hstage
  | waiting => exact .notified k err
  | notified => cases hnone
  | applied hx => exact .applied hx
  | found hx => exact .found hx
  | returned hends => exact .returned hends

theorem RaftKVServer.applyMsg_failure {srv srv' : RaftKVServer} {ts : Int64} {msg : ApplyMsg}
    (h : srv.applyMsg ts msg = some srv') : ∃ w, srv' = { srv with
      store := w
      taken := srv.taken + 1
      applied := some (⟨msg.index, msg.term⟩,
        failure srv.store (applyCommand ts msg.command)) } := by
  simp only [applyMsg] at h
  split at h
  · next w hok => exact ⟨w, by simp [failure, hok, ← Option.some.inj h]⟩
  · cases h
  · next err w _ herr => exact ⟨w, by simp [failure, herr, ← Option.some.inj h]⟩

theorem leads_of_step {e : WaitEvent} (h : t.step e = some t') : waiters.Leads t t' :=
  .of_step (a := e) h

/-- The machine of server `i` stands where the system does. -/
structure Mirrors (i : Fin n) (s : System n) (t : Waiters) : Prop where
  server : t.server = s.server i
  opened : t.closed = false
  call : ∀ id call, s.calls id = some call → call.node = i →
    Mirrored call.request call.waitKey call.progress (t.calls id)
  other : ∀ id, (∀ call, s.calls id = some call → call.node ≠ i) → t.calls id = none

namespace Mirrors

/-- A step of another server, or of a call on another server. -/
theorem elsewhere (h : Mirrors i s t) (hserver : s'.server i = s.server i)
    (hcalls : ∀ id call, call.node = i → (s'.calls id = some call ↔ s.calls id = some call)) :
    Mirrors i s' t where
  server := h.server.trans hserver.symm
  opened := h.opened
  call id call hc hi := h.call id call ((hcalls id call hi).mp hc) hi
  other id hno := h.other id fun call hc hi => hno call ((hcalls id call hi).mpr hc) hi

theorem setServer_other (h : Mirrors i s t) {j : Fin n} (hj : j ≠ i) (srv : RaftKVServer) :
    Mirrors i (s.setServer j srv) t :=
  h.elsewhere (Function.update_of_ne hj.symm ..) fun _ _ _ => Iff.rfl

theorem setCall_other (h : Mirrors i s t) (hi : call.node ≠ i)
    (hold : ∀ c, s.calls id = some c → c.node ≠ i) : Mirrors i (s.setCall id call) t := by
  refine h.elsewhere rfl fun k c hc => ?_
  by_cases hk : k = id
  · subst hk
    refine ⟨fun heq => ?_, fun heq => absurd hc (hold c heq)⟩
    obtain rfl : call = c := by simpa [System.setCall] using heq
    exact absurd hc hi
  · simp [System.setCall, hk]

/-- A call on server `i` goes on. -/
theorem setCall (h : Mirrors i s t) (call : ClientCall n) (hi : call.node = i)
    (hserver : t'.server = s'.server i) (hopened : t'.closed = false)
    (hs : s'.calls = Function.update s.calls id (some call))
    {c : Option Waiter} (ht : t'.calls = Function.update t.calls id c)
    (hc : Mirrored call.request call.waitKey call.progress c) : Mirrors i s' t' where
  server := hserver
  opened := hopened
  call k d hd hk := by
    rw [hs] at hd
    rw [ht]
    rcases Recent.of_update hd with ⟨rfl, heq⟩ | ⟨hne, hd⟩
    · obtain rfl := Option.some.inj heq
      rwa [Function.update_self]
    · rw [Function.update_of_ne hne]
      exact h.call k d hd hk
  other k hno := by
    by_cases hk : k = id
    · subst hk
      exact absurd hi (hno call (by rw [hs, Function.update_self]))
    · rw [ht, Function.update_of_ne hk]
      exact h.other k fun d hd => hno d (by rw [hs, Function.update_of_ne hk, hd])

/-- A step of the applier of server `i`, or a use of its store. -/
theorem setServer (h : Mirrors i s t) {srv : RaftKVServer} (hserver : t'.server = srv)
    (hopened : t'.closed = false) (hcalls : t'.calls = t.calls) :
    Mirrors i (s.setServer i srv) t' where
  server := by simpa [System.setServer] using hserver
  opened := hopened
  call k d hd hk := hcalls ▸ h.call k d hd hk
  other k hno := hcalls ▸ h.other k hno

/-- A call on another server goes on, and its server with it. -/
theorem setBoth_other (h : Mirrors i s t) (hc : s.calls id = some call) (hi : call.node ≠ i)
    (srv : RaftKVServer) {call' : ClientCall n} (hnode : call'.node = call.node) :
    Mirrors i ((s.setServer call.node srv).setCall id call') t := by
  refine (h.setServer_other hi srv).setCall_other (hnode ▸ hi) fun c heq => ?_
  obtain rfl := Option.some.inj (hc.symm.trans heq)
  exact hi

/-- A part of `store.Get`. -/
theorem read (h : Mirrors i s t) (hc : s.calls id = some call) (w : World) {progress : Progress}
    (hgo : call.node = i → Mirrored call.request call.waitKey progress (t.calls id)) :
    ∃ t', waiters.Leads t t' ∧
      Mirrors i ((s.setServer call.node { s.server call.node with store := w }).setCall id
        { call with progress := progress }) t' := by
  by_cases hi : call.node = i
  · refine ⟨{ t with server := { t.server with store := w } }, leads_of_step (e := .use w) rfl, ?_⟩
    refine h.setCall { call with progress := progress } hi ?_ h.opened rfl
      (Function.update_eq_self id t.calls).symm (hgo hi)
    simp [System.setCall, System.setServer, h.server, hi]
  · exact ⟨t, .refl t, h.setBoth_other hc hi _ rfl⟩

/-- `Submit` answers a call. -/
theorem submit (h : Mirrors i s t) (hc : s.calls id = some call) (hp : call.progress = .invoked)
    (c : Cluster n) (key : PendingKey) :
    (∃ t', waiters.Leads t t' ∧ Mirrors i (s.setCall id
      { call with progress := .returned (.failed .notLeader) }) t') ∧
    ∃ t', waiters.Leads t t' ∧ Mirrors i ({ s with cluster := c }.setCall id
      { call with waitKey := some key, progress := .submitted }) t' := by
  by_cases hi : call.node = i
  · have hcall := h.call id call hc hi
    rw [hp] at hcall
    generalize hat : t.calls id = d at hcall
    cases hcall with
    | invoked hk =>
      have hstep : ∀ answer, t.step (.submit id answer) = some (t.submit id answer) := by
        intro answer
        simp [Waiters.step, hat]
      refine ⟨⟨_, leads_of_step (hstep none), ?_⟩, ⟨_, leads_of_step (hstep (some key)), ?_⟩⟩
      · refine h.setCall { call with progress := .returned (.failed .notLeader) } hi
          h.server h.opened rfl rfl ?_
        rw [hk]
        exact .returned (.failed _ rfl)
      · exact h.setCall { call with waitKey := some key, progress := .submitted } hi
          h.server h.opened rfl rfl .submitted
  · have hold : ∀ d, s.calls id = some d → d.node ≠ i := by
      intro d hd
      obtain rfl := Option.some.inj (hc.symm.trans hd)
      exact hi
    exact ⟨⟨t, .refl t, h.setCall_other hi hold⟩, ⟨t, .refl t,
      (h.elsewhere rfl fun _ _ _ => Iff.rfl : Mirrors i { s with cluster := c } t).setCall_other
        hi hold⟩⟩

/-- The call takes a kept result, or starts to wait. -/
theorem register (h : Mirrors i s t) (hc : s.calls id = some call)
    (hp : call.progress = .submitted) (hk : call.waitKey = some key) :
    (∀ err, (s.server call.node).completed key = some err → ∃ t', waiters.Leads t t' ∧
      Mirrors i ((s.setServer call.node { s.server call.node with
        completed := Function.update (s.server call.node).completed key none }).setCall id
          (call.finish err)) t') ∧
    ((s.server call.node).completed key = none → ∃ t', waiters.Leads t t' ∧
      Mirrors i ((s.setServer call.node { s.server call.node with
        pending := Function.update (s.server call.node).pending key (some id) }).setCall id
          { call with progress := .waiting }) t') := by
  by_cases hi : call.node = i
  · subst hi
    have hcall := h.call id call hc rfl
    rw [hp] at hcall
    generalize hat : t.calls id = d at hcall
    cases hcall with
    | submitted =>
      have hstep : t.step (.register id) =
          some (t.register id ⟨call.waitKey, .submitted, []⟩ key) := by
        simp [Waiters.step, hat, hk]
      refine ⟨fun err hd => ⟨_, leads_of_step hstep, ?_⟩, fun hd => ⟨_, leads_of_step hstep, ?_⟩⟩
      · rw [← h.server] at hd
        simp only [Waiters.register, h.opened, Bool.false_eq_true, if_false, hd]
        refine h.setCall (call.finish err) rfl ?_ rfl rfl rfl
          (Mirrored.finish call (t.origin key) err [])
        simp [System.setCall, System.setServer, Waiters.setCall, h.server]
      · rw [← h.server] at hd
        simp only [Waiters.register, h.opened, Bool.false_eq_true, if_false, hd]
        refine h.setCall { call with progress := .waiting } rfl ?_ rfl rfl rfl .waiting
        simp [System.setCall, System.setServer, Waiters.setCall, h.server]
  · exact ⟨fun err _ => ⟨t, .refl t, h.setBoth_other hc hi _ rfl⟩,
      fun _ => ⟨t, .refl t, h.setBoth_other hc hi _ rfl⟩⟩

/-- The call receives its result. -/
theorem wake (h : Mirrors i s t) (hc : s.calls id = some call)
    (hp : call.progress = .notified err) :
    ∃ t', waiters.Leads t t' ∧ Mirrors i (s.setCall id (call.finish err)) t' := by
  by_cases hi : call.node = i
  · have hcall := h.call id call hc hi
    rw [hp] at hcall
    generalize hat : t.calls id = d at hcall
    cases hcall with
    | notified k =>
      have hstep : t.step (.receive id) = some (t.setCall id
          (Waiter.finish ⟨call.waitKey, .waiting, [.result k err]⟩ (.result k err))) := by
        simp [Waiters.step, hat]
      refine ⟨_, leads_of_step hstep, ?_⟩
      exact h.setCall (call.finish err) hi h.server h.opened rfl rfl
        (Mirrored.finish call k err _)
  · refine ⟨t, .refl t, h.setCall_other hi fun c heq => ?_⟩
    obtain rfl := Option.some.inj (hc.symm.trans heq)
    exact hi

/-- The context of the call ends. -/
theorem giveUp (h : Mirrors i s t) (hc : s.calls id = some call) (hk : call.waitKey = some key)
    (hp : call.progress = .waiting ∨ ∃ err, call.progress = .notified err) (canceled : Bool) :
    ∃ t', waiters.Leads t t' ∧
      Mirrors i ((s.setServer call.node { s.server call.node with
        pending := Function.update (s.server call.node).pending key none }).setCall id
          (call.giveUp canceled)) t' := by
  by_cases hi : call.node = i
  · subst hi
    have hcall := h.call id call hc rfl
    obtain ⟨sent, hat⟩ : ∃ sent, t.calls id = some ⟨call.waitKey, .waiting, sent⟩ := by
      generalize t.calls id = d at hcall
      rcases hp with hp | ⟨err, hp⟩
      · rw [hp] at hcall
        cases hcall with
        | waiting => exact ⟨_, rfl⟩
      · rw [hp] at hcall
        cases hcall with
        | notified k => exact ⟨_, rfl⟩
    generalize hwhy : (if canceled then Error.canceled else .commitTimeout) = why
    have hexpire : t.step (.expire id canceled) =
        some (t.setCall id ⟨call.waitKey, .leaving why, sent⟩) := by
      simp [Waiters.step, hat, hwhy]
    have hleave : (t.setCall id ⟨call.waitKey, .leaving why, sent⟩).step (.leave id) =
        some ((t.setCall id ⟨call.waitKey, .leaving why, sent⟩).leave id
          ⟨call.waitKey, .leaving why, sent⟩ key why) := by
      simp [Waiters.step, Waiters.setCall, hk]
    refine ⟨_, (leads_of_step hexpire).trans (leads_of_step hleave), ?_⟩
    refine h.setCall (call.giveUp canceled) rfl ?_ h.opened rfl
      (c := some ⟨call.waitKey, .returned (.error why), sent⟩) ?_ ?_
    · simp [System.setCall, System.setServer, Waiters.setCall, Waiters.leave, h.server]
    · simp [Waiters.setCall, Waiters.leave, Waiter.finish]
    · simp only [ClientCall.giveUp, hwhy]
      exact .returned (.failed _ rfl)
  · exact ⟨t, .refl t, h.setBoth_other hc hi _ rfl⟩

/-- The applier of a server takes a message. -/
theorem apply (h : Mirrors i s t) {j : Fin n} {ts : Int64} {msg : ApplyMsg} {srv : RaftKVServer}
    (hs : (s.server j).applyMsg ts msg = some srv) (hnone : (s.server j).applied = none) :
    ∃ t', waiters.Leads t t' ∧ Mirrors i (s.setServer j srv) t' := by
  by_cases hj : j = i
  · subst hj
    obtain ⟨w, rfl⟩ := RaftKVServer.applyMsg_failure hs
    have hstep : t.step (.apply msg ts t.server.store.outcomes) =
        some (t.apply msg ts t.server.store.outcomes) := by
      simp [Waiters.step, h.server, hnone]
    refine ⟨_, (leads_of_step hstep).trans (leads_of_step (e := .use w) rfl), ?_⟩
    refine h.setServer ?_ h.opened rfl
    simp [Waiters.apply, h.server]
  · exact ⟨t, .refl t, h.setServer_other hj srv⟩

/-- A call in `pending` of server `i` is one on that server. -/
theorem node_of_pending (h : Mirrors i s t) (ht : t.Sound)
    (hw : (s.server i).pending key = some id) : ∃ call, s.calls id = some call ∧ call.node = i := by
  rw [← h.server] at hw
  obtain ⟨c, hat, -⟩ := ht.pending key id hw
  by_contra hno
  have hgone := h.other id fun call hc hi => hno ⟨call, hc, hi⟩
  rw [hat] at hgone
  cases hgone

/-- The applier of server `i` passes a result on. -/
theorem notify (h : Mirrors i s t) (ht : t.Sound) (ha : (s.server i).applied = some (key, err)) :
    (∀ id call, (s.server i).pending key = some id → s.calls id = some call → call.node = i →
      ∃ t', waiters.Leads t t' ∧ Mirrors i ((s.setServer i { s.server i with
        applied := none, pending := Function.update (s.server i).pending key none }).setCall id
          (call.receive err)) t') ∧
    ((s.server i).pending key = none → ∃ t', waiters.Leads t t' ∧ Mirrors i (s.setServer i
      (RaftKVServer.complete { s.server i with applied := none } key err)) t') := by
  have hstep : t.step .notify = some (t.notify key err) := by
    simp [Waiters.step, h.server, ha]
  refine ⟨fun id call hw hc hi => ⟨_, leads_of_step hstep, ?_⟩,
    fun hw => ⟨_, leads_of_step hstep, ?_⟩⟩
  · rw [← h.server] at hw
    obtain ⟨c, hat, -, hstage, hsent⟩ := ht.pending key id hw
    have hcall := h.call id call hc hi
    rw [hat] at hcall
    simp only [Waiters.notify, hw, hat, Option.map_some]
    refine h.setCall (call.receive err) hi ?_ h.opened rfl rfl
      (hcall.receive _ err hsent hstage)
    simp [System.setCall, System.setServer, h.server]
  · rw [← h.server] at hw
    simp only [Waiters.notify, hw]
    exact h.setServer (by rw [h.server]) h.opened rfl

end Mirrors

/-- Every server of the system is mirrored by a run of its machine. -/
def System.Mirrored (s : System n) : Prop := ∀ i, ∃ t, waiters.Reachable t ∧ Mirrors i s t

theorem Waiters.Sound.of_reachable (h : waiters.Reachable t) : t.Sound := by
  obtain ⟨t₀, es, h₀, hrun⟩ := h
  exact .of_run h₀ hrun

/-- What one step of the system is for a server. -/
theorem System.Mirrored.step (h : s.Mirrored) (hstep : System.Step carries s s') : s'.Mirrored := by
  intro i
  obtain ⟨t, ht, hm⟩ := h i
  suffices hgo : ∃ t', waiters.Leads t t' ∧ Mirrors i s' t' by
    obtain ⟨t', hl, hm'⟩ := hgo
    exact ⟨t', ht.leads hl, hm'⟩
  -- the calls that a server tells of a result are its own
  have hown : ∀ {j key id call}, (s.server j).pending key = some id → s.calls id = some call →
      call.node = j := by
    intro j key id call hw hc
    obtain ⟨u, hu, hmj⟩ := h j
    obtain ⟨call', hc', hj⟩ := hmj.node_of_pending (.of_reachable hu) hw
    obtain rfl := Option.some.inj (hc.symm.trans hc')
    exact hj
  cases hstep with
  | raft => exact ⟨t, .refl t, hm.elsewhere rfl fun _ _ _ => Iff.rfl⟩
  | @invoke id j request hnew =>
    refine ⟨t, .refl t, ?_⟩
    by_cases hj : j = i
    · have hnone : t.calls id = none := hm.other id (by simp [hnew])
      exact hm.setCall { node := j, request := request } hj hm.server hm.opened rfl
        (by rw [← hnone, Function.update_eq_self]) (.invoked rfl)
    · exact hm.setCall_other hj (by simp [hnew])
  | refused hc hp => exact (hm.submit hc hp s.cluster ⟨0, 0⟩).1
  | submit hc hp hs => exact (hm.submit hc hp _ _).2
  | take hc hp hk hd => exact (hm.register hc hp hk).1 _ hd
  | wait hc hp hk hd => exact (hm.register hc hp hk).2 hd
  | wake hc hp => exact hm.wake hc hp
  | giveUp hc hk hp => exact hm.giveUp hc hk hp _
  | @find id call key _ hc hp hr hs =>
    obtain ⟨w, progress, hprogress, rfl⟩ := System.reading_cases hs
    refine hm.read hc w fun hi => ?_
    have hcall := hm.call id call hc hi
    rw [hp] at hcall
    generalize t.calls id = d at hcall
    cases hcall with
    | applied hx =>
      rcases hprogress with ⟨entry, rfl⟩ | ⟨err, rfl⟩
      · exact .found hx
      · exact hr ▸ .returned (.unread key err hx)
  | @read id call key entry _ hc hp hr hs =>
    obtain ⟨w, progress, hprogress, rfl⟩ := System.reading_cases hs
    refine hm.read hc w fun hi => ?_
    have hcall := hm.call id call hc hi
    rw [hp] at hcall
    generalize t.calls id = d at hcall
    cases hcall with
    | found hx =>
      rcases hprogress with ⟨bytes, rfl⟩ | ⟨err, rfl⟩
      · exact hr ▸ .returned (.value key bytes hx)
      · exact hr ▸ .returned (.unread key err hx)
  | apply _ hs hnone => exact hm.apply hs hnone
  | @told j key err id call ha hw hc =>
    have hnode := hown hw hc
    by_cases hj : j = i
    · subst hj
      exact (hm.notify (.of_reachable ht) ha).1 id call hw hc hnode
    · subst hnode
      exact ⟨t, .refl t, hm.setBoth_other hc hj _ rfl⟩
  | @lost j key id hw hc =>
    obtain ⟨u, hu, hmj⟩ := h j
    obtain ⟨call, hc', -⟩ := hmj.node_of_pending (.of_reachable hu) hw
    rw [hc] at hc'
    cases hc'
  | @keep j key err ha hw =>
    by_cases hj : j = i
    · subst hj
      exact (hm.notify (.of_reachable ht) ha).2 hw
    · exact ⟨t, .refl t, hm.setServer_other hj _⟩

/-- In every run of the system each server, with the calls on it, has gone through a run of the
machine of a single server. -/
theorem System.mirrored_of_reachable [DecidablePred carries]
    (h : (system n carries).Reachable s) : s.Mirrored := by
  refine h.invariant (fun s₀ h₀ i => ?_) fun _ _ _ hs hstep => hs.step (.of_step hstep)
  obtain ⟨-, hcalls, hserver⟩ := h₀
  obtain ⟨w, -, hsrv⟩ := hserver i
  refine ⟨{ server := { store := w } }, ⟨_, [], ⟨w, rfl⟩, rfl⟩, hsrv.symm, rfl, ?_, fun _ _ => rfl⟩
  simp [hcalls]

/-- What is sent to a call in `pending` finds an empty channel: the channel has room for one value,
and the applier that sends to it holds `pendingLock`. -/
theorem System.channel_empty [DecidablePred carries] (h : (system n carries).Reachable s)
    (hw : (s.server i).pending key = some id) :
    ∃ call, s.calls id = some call ∧ call.node = i ∧ call.waitKey = some key ∧
      ∀ err, call.progress ≠ .notified err := by
  obtain ⟨t, ht, hm⟩ := System.mirrored_of_reachable h i
  have hsound := Waiters.Sound.of_reachable ht
  obtain ⟨call, hc, hi⟩ := hm.node_of_pending hsound hw
  obtain ⟨c, hat, hk, -, hsent⟩ := hsound.pending key id (hm.server ▸ hw)
  have hcall := hm.call id call hc hi
  rw [hat] at hcall
  refine ⟨call, hc, hi, ?_, fun err hp => ?_⟩
  · generalize call.progress = progress at hcall
    cases hcall <;> exact hk
  · rw [hp] at hcall
    cases hcall
    cases hsent

end KvRaft.Server
