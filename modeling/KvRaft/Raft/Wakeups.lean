import KvRaft.Raft.Goroutines
import KvRaft.Raft.Progress

/-! No goroutine of a node sleeps through its work. The sends to the channels that wake them are
dropped when a channel is full, and a worker that is busy does not look at its trigger; still an
applier that waits has applied what is committed, and a leader whose workers all wait, with nothing
left in their channels and no call lost, has brought every follower of its term up to date. -/

namespace KvRaft.Raft

open Lineage

variable {n capacity : Nat}

namespace Wired

variable {w w' : Wired n}

/-- The goroutines only take steps that the cluster has. -/
theorem reachable_cluster (h : (wired n capacity).Reachable w) :
    (Raft.cluster n).Reachable w.cluster := by
  refine h.invariant (P := fun w => (Raft.cluster n).Reachable w.cluster) (fun s hs => ?_)
    fun s t s' hs hstep => ?_
  · obtain ⟨peers, hp, rfl⟩ := hs
    exact .of_initial ⟨peers, hp, rfl⟩
  · have hturns : Turns (fun _ _ _ _ => True) capacity s s' :=
      turns_of_step hstep fun _ _ _ _ _ => trivial
    rcases hturns.cluster with heq | ⟨a, ha⟩
    · rwa [heq]
    · exact hs.leads (.of_step (a := a) ha)

/-- A property of one node holds throughout if every step of a node keeps it, which may rely on what
the cluster provides for the node and for the replies to its calls. -/
theorem reachable_nodeAt {P I : Fin n → Local n → Prop}
    {guard : Local n → Fin n → AppendEntriesArgs → AppendEntriesReply → Prop}
    (hI : ∀ w : Wired n, (Raft.cluster n).Reachable w.cluster → ∀ i, I i (w.nodeAt i))
    (hguard : ∀ w : Wired n, (Raft.cluster n).Reachable w.cluster → ∀ i j args reply,
      w.cluster.append i j = .answered args reply → guard (w.nodeAt i) j args reply)
    (hstart : ∀ (peers : List String) (i : Fin n), P i ((start peers).nodeAt i))
    (hstep : ∀ i x y, I i x → P i x → Local.Step guard capacity i x y → P i y)
    (h : (wired n capacity).Reachable w) (i : Fin n) : P i (w.nodeAt i) := by
  have hall : (Raft.cluster n).Reachable w.cluster ∧ ∀ i, P i (w.nodeAt i) := by
    refine h.invariant (P := fun w => (Raft.cluster n).Reachable w.cluster ∧ ∀ i, P i (w.nodeAt i))
      (fun s hs => ?_) fun s t s' hs hst => ?_
    · obtain ⟨peers, hp, rfl⟩ := hs
      exact ⟨.of_initial ⟨peers, hp, rfl⟩, hstart peers⟩
    · obtain ⟨hreach, hP⟩ := hs
      have hturns : Turns guard capacity s s' := turns_of_step hst (hguard s hreach)
      refine ⟨?_, fun k => ?_⟩
      · rcases hturns.cluster with heq | ⟨a, ha⟩
        · rwa [heq]
        · exact hreach.leads (.of_step (a := a) ha)
      · obtain ⟨p, hlocal, hothers⟩ := hturns.node
        by_cases hk : k = p
        · rw [hk]
          exact hstep p _ _ (hI s hreach p) (hP p) hlocal
        · rw [hothers k hk]
          exact hP k
  exact hall.2 i

end Wired

/-- A call of `signalAllReplications` only moves itself on. -/
theorem Routines.continueSignal_eq (r : Routines n) (src : Option Nat) (peers : List (Fin n)) :
    ∃ m s, r.continueSignal src peers = { r with main := m, submits := s } := by
  rcases src with _ | k
  · rw [Routines.continueSignal]
    split
    · exact ⟨_, r.submits, rfl⟩
    · exact ⟨r.main, r.submits, rfl⟩
  · exact ⟨r.main, _, rfl⟩

/-! ### The applier -/

namespace Node

variable {nd nd' : Node}

theorem handleRequestVote_applied {args : RequestVoteArgs} {reply : RequestVoteReply}
    (h : nd.handleRequestVote args = some (nd', reply)) :
    nd'.commitIndex = nd.commitIndex ∧ nd'.lastApplied = nd.lastApplied := by
  have hobs : ∀ T, (nd.observe T).commitIndex = nd.commitIndex ∧
      (nd.observe T).lastApplied = nd.lastApplied := by
    intro T
    unfold observe
    split <;> exact ⟨rfl, rfl⟩
  rcases handleRequestVote_cases h with ⟨rfl, -⟩ | ⟨-, ⟨rfl, -⟩ | ⟨rfl, -⟩⟩
  · exact ⟨rfl, rfl⟩
  · exact hobs _
  · exact hobs _

/-- A request moves the commit index only if it is accepted and has a greater one. -/
theorem handleAppendEntries_applied {args : AppendEntriesArgs} {reply : AppendEntriesReply}
    (h : nd.handleAppendEntries args = some (nd', reply)) :
    (nd'.commitIndex = nd.commitIndex ∨
      reply.success = true ∧ args.leaderCommit > nd.commitIndex) ∧
      nd'.lastApplied = nd.lastApplied := by
  rcases handleAppendEntries_cases h with ⟨-, rfl, -⟩ | ⟨-, ⟨rfl, -⟩ | ⟨log, -, rfl, hs, -⟩⟩
  · exact ⟨Or.inl rfl, rfl⟩
  · exact ⟨Or.inl rfl, rfl⟩
  · refine ⟨?_, rfl⟩
    by_cases hc : args.leaderCommit > nd.commitIndex
    · exact Or.inr ⟨hs, hc⟩
    · exact Or.inl (if_neg hc)

theorem replicateReply_applied (nd : Node) (peerIdx : Int) (args : AppendEntriesArgs)
    (reply : AppendEntriesReply) :
    (nd.replicateReply peerIdx args reply).1.lastApplied = nd.lastApplied := by
  rcases nd.replicateReply_cases peerIdx args reply with
    ⟨-, h⟩ | h | ⟨-, -, ⟨-, -, h⟩ | ⟨-, -, h⟩⟩
  · rw [h]
    rfl
  · rw [h]
  · rw [h]
    rcases (nd.matchPeer peerIdx (args.prevLogIndex +
      args.entries.length)).tryAdvanceCommitIndexLocked_cases with h' | ⟨N, -, -, -, h'⟩
    · rw [h']
      rfl
    · rw [h']
      rfl
  · rw [h]

/-- A vote request leaves a leader what it knows of the others, or makes a follower of it. -/
theorem handleRequestVote_leader {args : RequestVoteArgs} {reply : RequestVoteReply}
    (h : nd.handleRequestVote args = some (nd', reply)) (hlead : nd'.state = .leader) :
    nd.state = .leader ∧ nd'.nextIndex = nd.nextIndex ∧ nd'.matchIndex = nd.matchIndex ∧
      nd'.log = nd.log ∧ nd'.currentTerm = nd.currentTerm := by
  have hobs : ∀ T, (nd.observe T).state = .leader → nd.observe T = nd := by
    intro T hst
    unfold observe at hst ⊢
    split
    · next hlt =>
      rw [if_pos hlt] at hst
      cases hst
    · rfl
  rcases handleRequestVote_cases h with ⟨rfl, -⟩ | ⟨-, ⟨rfl, -⟩ | ⟨rfl, -⟩⟩
  · exact ⟨hlead, rfl, rfl, rfl, rfl⟩
  · have hsame := hobs args.term hlead
    rw [hsame] at hlead ⊢
    exact ⟨hlead, rfl, rfl, rfl, rfl⟩
  · have hsame := hobs args.term hlead
    rw [hsame] at hlead ⊢
    exact ⟨hlead, rfl, rfl, rfl, rfl⟩

theorem handleAppendEntries_leader {args : AppendEntriesArgs} {reply : AppendEntriesReply}
    (h : nd.handleAppendEntries args = some (nd', reply)) (hlead : nd'.state = .leader) :
    nd' = nd := by
  rcases handleAppendEntries_cases h with ⟨-, rfl, -⟩ | ⟨-, ⟨rfl, -⟩ | ⟨log, -, rfl, -⟩⟩
  · rfl
  · cases hlead
  · cases hlead

/-- The reply to a call for `peerIdx` leaves a leader its log, its term and what it knows of the
others. -/
theorem replicateReply_others (nd : Node) (peerIdx : Int) (args : AppendEntriesArgs)
    (reply : AppendEntriesReply)
    (hlead : (nd.replicateReply peerIdx args reply).1.state = .leader) :
    nd.state = .leader ∧ (nd.replicateReply peerIdx args reply).1.log = nd.log ∧
      (nd.replicateReply peerIdx args reply).1.currentTerm = nd.currentTerm ∧
      ∀ q, q ≠ peerIdx →
        (nd.replicateReply peerIdx args reply).1.nextIndex q = nd.nextIndex q ∧
        (nd.replicateReply peerIdx args reply).1.matchIndex q = nd.matchIndex q := by
  rcases nd.replicateReply_cases peerIdx args reply with
    ⟨-, h⟩ | h | ⟨hst, -, ⟨-, -, h⟩ | ⟨-, -, h⟩⟩
  · rw [h] at hlead
    cases hlead
  · rw [h] at hlead ⊢
    exact ⟨hlead, rfl, rfl, fun _ _ => ⟨rfl, rfl⟩⟩
  · rw [h]
    have hrule := (nd.matchPeer peerIdx (args.prevLogIndex +
      args.entries.length)).tryAdvanceCommitIndexLocked_cases
    have hsame : ∀ q, q ≠ peerIdx →
        (nd.matchPeer peerIdx (args.prevLogIndex + args.entries.length)).nextIndex q =
          nd.nextIndex q ∧
        (nd.matchPeer peerIdx (args.prevLogIndex + args.entries.length)).matchIndex q =
          nd.matchIndex q := fun q hq => by simp [matchPeer, hq]
    rcases hrule with h' | ⟨N, -, -, -, h'⟩
    · rw [h']
      exact ⟨hst, rfl, rfl, hsame⟩
    · rw [h']
      exact ⟨hst, rfl, rfl, hsame⟩
  · rw [h]
    exact ⟨hst, rfl, rfl, fun q hq => ⟨by simp [hq], rfl⟩⟩

/-- The reply to a call of the current term: the worker calls again, or the leader knows the
follower to hold its whole log. The two entries of its view between which a call of this term leaves
them are those of the request. -/
theorem replicateReply_serves {peerIdx : Int} {args : AppendEntriesArgs}
    {reply : AppendEntriesReply} (hlead : (nd.replicateReply peerIdx args reply).1.state = .leader)
    (hterm : args.term = nd.currentTerm) (hpos : 0 ≤ nd.matchIndex peerIdx)
    (hlt : nd.matchIndex peerIdx < nd.nextIndex peerIdx)
    (hle : nd.nextIndex peerIdx ≤ nd.log.length)
    (hprev : args.prevLogIndex + 1 = nd.nextIndex peerIdx)
    (hend : args.prevLogIndex + args.entries.length < nd.log.length)
    (hno : reply.success = false → reply.term ≤ args.term →
      nd.matchIndex peerIdx < args.prevLogIndex) :
    (nd.replicateReply peerIdx args reply).2 = true ∨
      (nd.replicateReply peerIdx args reply).1.nextIndex peerIdx = nd.log.length ∧
      (nd.replicateReply peerIdx args reply).1.matchIndex peerIdx = nd.log.length - 1 := by
  obtain ⟨hst, -⟩ := nd.replicateReply_others peerIdx args reply hlead
  have hreply : reply.term ≤ nd.currentTerm := by
    by_contra hgt
    rw [replicateReply, if_pos (by omega)] at hlead
    cases hlead
  cases hs : reply.success with
  | true =>
    obtain ⟨nd', heq, hnd⟩ :=
      replicateReply_accepted peerIdx args reply hst hreply hterm.symm hs
    rw [heq]
    by_cases hagain : nd'.nextIndex peerIdx < nd'.log.length
    · exact Or.inl (decide_eq_true hagain)
    · refine Or.inr ?_
      dsimp only
      rcases hnd with ⟨-, rfl⟩ | ⟨hold, rfl⟩
      · obtain ⟨hlog, hn, hm⟩ := Node.tryAdvanceCommitIndexLocked_same
          (nd.matchPeer peerIdx (args.prevLogIndex + args.entries.length))
        rw [hlog, hn] at hagain
        rw [hn, hm]
        simp only [matchPeer, Function.update_self] at hagain ⊢
        omega
      · omega
  | false =>
    have := hno hs (by omega)
    refine Or.inl ?_
    rw [replicateReply, if_neg (by omega), if_neg (by simp [hst, hterm]), if_neg (by simp [hs]),
      if_pos (by omega)]

end Node

/-- The message that the applier has taken from the log and not yet sent. -/
def Applier.held : Applier → List ApplyMsg
  | .send msg => [msg]
  | _ => []

/-- The applier of a node and its two channels. -/
structure Fed (capacity : Nat) (x : Local n) : Prop where
  /-- what has been taken from the log is on its way to the server, in this order -/
  passed : x.emitted = x.routines.received ++ x.routines.applyCh ++ x.routines.applier.held
  bounded : x.routines.applyCh.length ≤ capacity
  /-- a wait that nothing is going to end has nothing to apply -/
  awake : x.routines.applier = .wait → x.routines.commitNotifyCh = true ∨
    ¬ x.node.lastApplied < x.node.commitIndex
  stopped : x.routines.applier = .stopped → x.routines.shutdownCh = true

namespace Fed

variable {x y : Local n} {i : Fin n}
  {guard : Local n → Fin n → AppendEntriesArgs → AppendEntriesReply → Prop}

theorem start (peers : List String) (i : Fin n) : Fed capacity ((Wired.start peers).nodeAt i) where
  passed := rfl
  bounded := Nat.zero_le _
  awake h := by cases h
  stopped h := by cases h

/-- A step beside the applier: what it applies next may change, with a notification. -/
theorem frame (h : Fed capacity x) (hemit : y.emitted = x.emitted)
    (hreceived : y.routines.received = x.routines.received)
    (hch : y.routines.applyCh = x.routines.applyCh)
    (happlier : y.routines.applier = x.routines.applier)
    (hnotify : x.routines.commitNotifyCh = true → y.routines.commitNotifyCh = true)
    (hnode : y.routines.commitNotifyCh = true ∨
      y.node.lastApplied = x.node.lastApplied ∧ y.node.commitIndex = x.node.commitIndex)
    (hshut : x.routines.shutdownCh = true → y.routines.shutdownCh = true) : Fed capacity y where
  passed := by rw [hemit, hreceived, hch, happlier]; exact h.passed
  bounded := by rw [hch]; exact h.bounded
  awake hw := by
    rcases hnode with hn | ⟨hl, hc⟩
    · exact Or.inl hn
    · rw [hl, hc]
      exact (h.awake (happlier ▸ hw)).imp_left hnotify
  stopped hs := hshut (h.stopped (happlier ▸ hs))

/-- A step beside the applier that leaves both channels and the indices alone. -/
theorem keep (h : Fed capacity x) (hemit : y.emitted = x.emitted)
    (hreceived : y.routines.received = x.routines.received)
    (hch : y.routines.applyCh = x.routines.applyCh)
    (happlier : y.routines.applier = x.routines.applier)
    (hnotify : y.routines.commitNotifyCh = x.routines.commitNotifyCh)
    (hlast : y.node.lastApplied = x.node.lastApplied)
    (hcommit : y.node.commitIndex = x.node.commitIndex)
    (hshut : y.routines.shutdownCh = x.routines.shutdownCh) : Fed capacity y :=
  h.frame hemit hreceived hch happlier (fun hn => hnotify.trans hn) (Or.inr ⟨hlast, hcommit⟩)
    fun hs => hshut.trans hs

theorem step (h : Fed capacity x) (hstep : Local.Step guard capacity i x y) : Fed capacity y := by
  cases hstep with
  | idle => exact h
  | checkShutdown | woken | timerFires | takeTimer | abandonElection | electionTimeout | stepDown
  | win | tally | leaderTick | leaderReturns | stopMain | takeTrigger | callNobody | callFollower
  | abandonAppend | stopWorker =>
    exact h.keep rfl rfl rfl rfl rfl rfl rfl rfl
  | readState =>
    cases x.node.state <;> exact h.keep rfl rfl rfl rfl rfl rfl rfl rfl
  | startElection _ _ hs =>
    obtain ⟨-, rfl, -⟩ := Node.startElection_cases hs
    exact h.keep rfl rfl rfl rfl rfl rfl rfl rfl
  | @signalCheck src _ =>
    obtain ⟨m, s, hr⟩ := x.routines.continueSignal_eq src
      (if x.node.state = .leader then otherPeers i else [])
    rw [hr]
    exact h.keep rfl rfl rfl rfl rfl rfl rfl rfl
  | @signalSend src peers j _ _ =>
    obtain ⟨m, s, hr⟩ := x.routines.continueSignal_eq src (peers.erase j)
    rw [hr]
    exact h.keep rfl rfl rfl rfl rfl rfl rfl rfl
  | vote hh =>
    obtain ⟨hc, hl⟩ := Node.handleRequestVote_applied hh
    exact h.keep rfl rfl rfl rfl rfl hl hc rfl
  | submit hs =>
    obtain ⟨-, -, -, rfl⟩ := Node.submit_cases hs
    exact h.keep rfl rfl rfl rfl rfl rfl rfl rfl
  | shutdown =>
    exact h.frame rfl rfl rfl rfl id (Or.inr ⟨rfl, rfl⟩) fun _ => rfl
  -- the two that move the commit index
  | @append nd args reply hh =>
    obtain ⟨hc, hl⟩ := Node.handleAppendEntries_applied hh
    refine h.frame rfl rfl rfl rfl (fun hn => by simp [Routines.heard, hn]) ?_ id
    rcases hc with hc | ⟨hs, hgt⟩
    · exact Or.inr ⟨hl, hc⟩
    · exact Or.inl (by simp [Routines.heard, hs, hgt])
  | @finishAppend j args reply _ _ _ =>
    refine h.frame rfl rfl rfl rfl (fun hn => by simp [Routines.replied, hn]) ?_ id
    by_cases hc : x.node.commitIndex = (x.node.replicateReply j args reply).1.commitIndex
    · exact Or.inr ⟨x.node.replicateReply_applied j args reply, hc.symm⟩
    · exact Or.inl (by simp [Routines.replied, hc])
  -- the applier itself, and the server
  | applierCheck ha =>
    refine { h with passed := ?_, awake := fun hw => ?_, stopped := fun hs => ?_ }
    · rw [h.passed, ha]
      dsimp only
      split <;> rfl
    · dsimp only at hw
      split at hw <;> cases hw
    · dsimp only at hs
      split at hs
      · next hdown => exact hdown
      · cases hs
  | @apply nd msg ha hnext =>
    refine { h with
      passed := ?_, awake := fun hw => (by cases hw), stopped := fun hs => by cases hs }
    rw [h.passed, ha]
    simp [Applier.held]
  | applierWait ha hno =>
    refine { h with passed := ?_, awake := fun _ => Or.inr hno, stopped := fun hs => by cases hs }
    rw [h.passed, ha]
    rfl
  | @applierSend msg ha hroom =>
    refine ⟨?_, ?_, fun hw => (by cases hw), fun hs => by cases hs⟩
    · rw [h.passed, ha]
      simp [Applier.held]
    · rw [List.length_append]
      exact hroom
  | applierWake ha =>
    refine { h with
      passed := ?_, awake := fun hw => (by cases hw), stopped := fun hs => by cases hs }
    rw [h.passed, ha]
    rfl
  | applierStop ha hs =>
    refine { h with passed := ?_, awake := fun hw => (by cases hw), stopped := fun _ => hs }
    rw [h.passed, ha]
    rfl
  | @receive msg rest hch =>
    refine { h with passed := ?_, bounded := ?_ }
    · rw [h.passed, hch]
      simp
    · have := h.bounded
      rw [hch, List.length_cons] at this
      exact Nat.le_of_succ_le this

theorem of_reachable {w : Wired n} (h : (wired n capacity).Reachable w) (i : Fin n) :
    Fed capacity (w.nodeAt i) :=
  Wired.reachable_nodeAt (P := fun _ x => Fed capacity x) (I := fun _ _ => True)
    (fun _ _ _ => trivial) (fun _ _ _ _ _ _ _ => trivial) start
    (fun _ _ _ _ hx (hs : Local.Step (fun _ _ _ _ => True) capacity _ _ _) => hx.step hs) h i

end Fed

/-! ### The workers -/

/-- The call has still to signal the worker for `j`. -/
def Signal.Owes (j : Fin n) : Signal n → Prop
  | .check => True
  | .send peers => j ∈ peers

/-- A call of `signalAllReplications`, by `run` or by `Submit`, has still to signal the worker for
`j`. -/
def Routines.Owes (r : Routines n) (j : Fin n) : Prop :=
  (∃ s b, r.main = .signal s b ∧ s.Owes j) ∨ ∃ s ∈ r.submits, s.Owes j

namespace Routines

variable {r : Routines n} {j : Fin n} {src : Option Nat} {s : Signal n} {peers : List (Fin n)}

/-- Going on with a call takes no worker off that the call still had, except those that it drops. -/
theorem Owes.continueSignal (h : r.Owes j) (hs : r.signalAt src = some s)
    (hj : s.Owes j → j ∈ peers) : (r.continueSignal src peers).Owes j := by
  rcases src with _ | k
  · -- the call of `run`
    rw [signalAt] at hs
    split at hs
    · next t b hm =>
      obtain rfl : t = s := Option.some.inj hs
      rcases h with ⟨t', b', hm', ho⟩ | hsub
      · rw [hm] at hm'
        obtain ⟨rfl, rfl⟩ := MainLoop.signal.inj hm'
        have hne : peers ≠ [] := List.ne_nil_of_mem (hj ho)
        exact Or.inl ⟨.send peers, b, by simp [Routines.continueSignal, hm, hne], hj ho⟩
      · exact Or.inr (by simpa [Routines.continueSignal, hm] using hsub)
    · cases hs
  · -- a call of `Submit`
    rw [signalAt] at hs
    rcases h with hmain | ⟨t, ht, ho⟩
    · exact Or.inl hmain
    · obtain ⟨m, hm⟩ := List.getElem?_of_mem ht
      by_cases hmk : m = k
      · obtain rfl : t = s := by rw [hmk, hs] at hm; exact (Option.some.inj hm).symm
        have hne : peers ≠ [] := List.ne_nil_of_mem (hj ho)
        refine Or.inr ⟨.send peers, ?_, hj ho⟩
        rw [Routines.continueSignal, if_pos hne]
        obtain ⟨hlt, -⟩ := List.getElem?_eq_some_iff.mp hs
        exact List.mem_set hlt _
      · refine Or.inr ⟨t, ?_, ho⟩
        rw [Routines.continueSignal]
        dsimp only
        split
        · exact List.mem_of_getElem? ((List.getElem?_set_ne (Ne.symm hmk)).trans hm)
        · exact List.mem_eraseIdx_iff_getElem?.mpr ⟨m, hmk, hm⟩

end Routines

/-- The worker for `j` has brought its follower up to date with the log of the leader, or it is
going to call it, or it has called it in this term and waits for the reply; or its last call has
been lost, or it has been stopped. -/
inductive Attended (x : Local n) (j : Fin n) : Prop
  | served (hnext : x.node.nextIndex j = x.node.log.length)
      (hmatch : x.node.matchIndex j = x.node.log.length - 1)
  | triggered (h : x.routines.replicationTrigger j = true)
  | owed (h : x.routines.Owes j)
  | call (h : x.routines.worker j = .call)
  | calling {args : AppendEntriesArgs} (h : x.routines.worker j = .calling)
      (hc : x.calls j = some args) (ht : args.term = x.node.currentTerm)
  | lost (h : x.routines.worker j = .wait true)
  | stopped (h : x.routines.worker j = .stopped)

/-- What the cluster provides for the leader `i` and its view of the others. -/
structure Tracked (i : Fin n) (x : Local n) : Prop where
  id : x.node.id = i
  loop : x.node.state = .leader → x.loop = .top ∨ x.loop = .leader
  nonneg : x.node.state = .leader → ∀ j, j ≠ i → 0 ≤ x.node.matchIndex j
  lt : x.node.state = .leader → ∀ j, j ≠ i → x.node.matchIndex j < x.node.nextIndex j
  le : x.node.state = .leader → ∀ j, j ≠ i → x.node.nextIndex j ≤ x.node.log.length

/-- What the cluster provides for the reply to a call of the current term. -/
def Fresh (x : Local n) (j : Fin n) (args : AppendEntriesArgs) (reply : AppendEntriesReply) :
    Prop :=
  x.node.state = .leader → (j : Int) ≠ x.node.id → args.term = x.node.currentTerm →
    args.prevLogIndex + 1 = x.node.nextIndex j ∧
      args.prevLogIndex + args.entries.length < x.node.log.length ∧
      (reply.success = false → reply.term ≤ args.term → x.node.matchIndex j < args.prevLogIndex)

theorem Tracked.of_reachable (hn : n ≤ 3) (w : Wired n) (h : (cluster n).Reachable w.cluster)
    (i : Fin n) : Tracked i (w.nodeAt i) := by
  obtain ⟨g, hs, hv⟩ := Views.of_reachable hn i h
  exact {
    id := hs.votes.id i
    loop := hs.votes.leader_loop i
    nonneg := fun hlead j hj => (hv.view i j hlead hj).nonneg
    lt := fun hlead j hj => (hv.view i j hlead hj).lt
    le := fun hlead j hj => (hv.view i j hlead hj).le }

theorem Fresh.of_reachable (hn : n ≤ 3) (w : Wired n) (h : (cluster n).Reachable w.cluster)
    (i j : Fin n) (args : AppendEntriesArgs) (reply : AppendEntriesReply)
    (ha : w.cluster.append i j = .answered args reply) : Fresh (w.nodeAt i) j args reply := by
  obtain ⟨g, hs, hv⟩ := Views.of_reachable hn i h
  intro hlead hj hterm
  have hne : j ≠ i := fun heq => hj (by rw [heq]; exact (hs.votes.id i).symm)
  obtain ⟨hprev, hend, -, hno⟩ := (hv.view i j hlead hne).answered args reply ha hterm
  exact ⟨hprev, hend, hno⟩

namespace Attended

variable {x y : Local n} {i j : Fin n}

/-- A step that does not touch the worker for `j` nor take anything from it. -/
theorem frame (h : Attended x j) (hnext : y.node.nextIndex j = x.node.nextIndex j)
    (hmatch : y.node.matchIndex j = x.node.matchIndex j) (hlog : y.node.log = x.node.log)
    (hterm : y.node.currentTerm = x.node.currentTerm)
    (htrigger : x.routines.replicationTrigger j = true → y.routines.replicationTrigger j = true)
    (howes : x.routines.Owes j → y.routines.Owes j)
    (hworker : y.routines.worker j = x.routines.worker j) (hcalls : y.calls j = x.calls j) :
    Attended y j := by
  cases h with
  | served hn hm => exact .served (by rw [hnext, hlog, hn]) (by rw [hmatch, hlog, hm])
  | triggered h => exact .triggered (htrigger h)
  | owed h => exact .owed (howes h)
  | call h => exact .call (hworker.trans h)
  | calling h hc ht => exact .calling (hworker.trans h) (hcalls.trans hc) (ht.trans hterm.symm)
  | lost h => exact .lost (hworker.trans h)
  | stopped h => exact .stopped (hworker.trans h)

/-- A step of `run` outside `signalAllReplications`. -/
theorem main (h : Attended x j) (hm : ∀ s b, x.routines.main ≠ .signal s b)
    (hnode : y.node = x.node) (hcalls : y.calls = x.calls)
    (htrigger : y.routines.replicationTrigger = x.routines.replicationTrigger)
    (hworker : y.routines.worker = x.routines.worker)
    (hsubmits : y.routines.submits = x.routines.submits) : Attended y j := by
  refine h.frame (by rw [hnode]) (by rw [hnode]) (by rw [hnode]) (by rw [hnode])
    (fun ht => by rw [htrigger]; exact ht) (fun ho => ?_) (by rw [hworker]) (by rw [hcalls])
  rcases ho with ⟨s, b, hs, -⟩ | ho
  · exact absurd hs (hm s b)
  · exact Or.inr (hsubmits ▸ ho)

/-- A step of the worker for another follower. -/
theorem other {k : Fin n} (h : Attended x j) (hjk : j ≠ k) (hlog : y.node.log = x.node.log)
    (hterm : y.node.currentTerm = x.node.currentTerm)
    (hnext : y.node.nextIndex j = x.node.nextIndex j)
    (hmatch : y.node.matchIndex j = x.node.matchIndex j)
    (hmain : y.routines.main = x.routines.main)
    (hsubmits : y.routines.submits = x.routines.submits)
    (htrigger : ∀ k', k' ≠ k →
      y.routines.replicationTrigger k' = x.routines.replicationTrigger k')
    (hworker : ∀ k', k' ≠ k → y.routines.worker k' = x.routines.worker k')
    (hcalls : ∀ k', k' ≠ k → y.calls k' = x.calls k') : Attended y j := by
  refine h.frame hnext hmatch hlog hterm (fun ht => by rw [htrigger j hjk]; exact ht) (fun ho => ?_)
    (hworker j hjk) (hcalls j hjk)
  rwa [Routines.Owes, hmain, hsubmits]

/-- The worker for `j` comes back from its call. -/
theorem finish {args : AppendEntriesArgs} {reply : AppendEntriesReply} (h : Attended x j)
    (hx : Tracked i x) (hj : j ≠ i) (hw : x.routines.worker j = .calling)
    (hc : x.calls j = some args) (hfresh : Fresh x j args reply)
    (hlead : (x.node.replicateReply j args reply).1.state = .leader) :
    Attended { x with
      node := (x.node.replicateReply j args reply).1
      calls := Function.update x.calls j none
      routines := x.routines.replied j x.node (x.node.replicateReply j args reply).1
        (x.node.replicateReply j args reply).2 } j := by
  obtain ⟨hst, hlog, -, -⟩ := x.node.replicateReply_others j args reply hlead
  by_cases hterm : args.term = x.node.currentTerm
  · have hid : (j : Int) ≠ x.node.id := by
      rw [hx.id]
      exact fun heq => hj (Fin.ext (Int.ofNat.inj heq))
    obtain ⟨hprev, hend, hno⟩ := hfresh hst hid hterm
    rcases Node.replicateReply_serves hlead hterm (hx.nonneg hst j hj) (hx.lt hst j hj)
      (hx.le hst j hj) hprev hend hno with hagain | ⟨hnext, hmatch⟩
    · exact .call (by simp [Routines.replied, Routines.setWorker, hagain])
    · exact .served (hnext.trans (by rw [hlog])) (hmatch.trans (by rw [hlog]))
  · -- the reply to a call of an earlier term says nothing about this one
    have hsame : (x.node.replicateReply j args reply).1 = x.node := by
      rcases x.node.replicateReply_cases j args reply with ⟨-, h⟩ | h | ⟨-, ht, -⟩
      · rw [h] at hlead
        cases hlead
      · exact h
      · exact absurd ht.symm hterm
    cases h with
    | served hn hm => exact .served (by rw [hsame]; exact hn) (by rw [hsame]; exact hm)
    | triggered h => exact .triggered h
    | owed h => exact .owed h
    | call h => rw [hw] at h; cases h
    | calling _ hc' ht =>
      rw [hc] at hc'
      exact absurd ((Option.some.inj hc') ▸ ht) hterm
    | lost h => rw [hw] at h; cases h
    | stopped h => rw [hw] at h; cases h

theorem step (hx : Tracked i x) (h : x.node.state = .leader → ∀ j, j ≠ i → Attended x j)
    (hstep : Local.Step Fresh capacity i x y) (hlead : y.node.state = .leader) (j : Fin n)
    (hj : j ≠ i) : Attended y j := by
  cases hstep with
  | idle => exact h hlead j hj
  -- run
  | checkShutdown hm | stopMain hm | woken hm | takeTimer hm | abandonElection hm | tally hm
  | leaderReturns hm =>
    exact (h hlead j hj).main (by simp [hm]) rfl rfl rfl rfl rfl
  | readState hm =>
    refine (h hlead j hj).main (by simp [hm]) rfl rfl ?_ ?_ ?_
    all_goals dsimp only; rw [hlead]; rfl
  | electionTimeout => cases hlead
  | stepDown => cases hlead
  | startElection _ hl hs =>
    obtain ⟨-, rfl, -⟩ := Node.startElection_cases hs
    rcases hx.loop hlead with hl' | hl' <;> rw [hl] at hl' <;> cases hl'
  | win => exact .owed (Or.inl ⟨.check, false, rfl, trivial⟩)
  | leaderTick => exact .owed (Or.inl ⟨.check, true, rfl, trivial⟩)
  -- signalAllReplications
  | @signalCheck src hs =>
    obtain ⟨m, s, hr⟩ := x.routines.continueSignal_eq src
      (if x.node.state = .leader then otherPeers i else [])
    have hmem : j ∈ if x.node.state = .leader then otherPeers i else [] := by
      rw [if_pos hlead]
      simp [otherPeers, hj]
    exact (h hlead j hj).frame rfl rfl rfl rfl (fun ht => by rw [hr]; exact ht)
      (fun ho => ho.continueSignal hs fun _ => hmem) (by rw [hr]) rfl
  | @signalSend src peers k hs hk =>
    by_cases hjk : j = k
    · exact .triggered (by simp [hjk, Routines.setTrigger])
    · obtain ⟨m, s, hr⟩ := x.routines.continueSignal_eq src (peers.erase k)
      refine (h hlead j hj).frame rfl rfl rfl rfl (fun ht => ?_) (fun ho => ?_) ?_ rfl
      · rw [hr]
        simpa [Routines.setTrigger, hjk] using ht
      · exact ho.continueSignal hs fun hmem => (List.mem_erase_of_ne hjk).mpr hmem
      · rw [hr]
        rfl
  -- the applier, the timer and the server
  | applierCheck | applierWait | applierSend | applierWake | applierStop | receive | timerFires
  | shutdown =>
    exact (h hlead j hj).frame rfl rfl rfl rfl id id rfl rfl
  | apply _ ha =>
    obtain ⟨-, rfl, -⟩ := Node.applyNext_cases ha
    exact (h hlead j hj).frame rfl rfl rfl rfl id id rfl rfl
  -- replicationWorker
  | @takeTrigger k _ _ _ =>
    by_cases hjk : j = k
    · exact .call (by simp [hjk, Routines.setTrigger, Routines.setWorker])
    · exact (h hlead j hj).other hjk rfl rfl rfl rfl rfl rfl
        (fun k' hk' => Function.update_of_ne hk' _ _) (fun k' hk' => Function.update_of_ne hk' _ _)
        fun _ _ => rfl
  | @callNobody k _ ha =>
    by_cases hjk : j = k
    · -- the indices of a leader are in range
      subst hjk
      have hst : x.node.state = .leader := hlead
      have hpos := hx.nonneg hst j hj
      have hlt := hx.lt hst j hj
      have hle := hx.le hst j hj
      obtain ⟨m, hm⟩ : ∃ m : Nat, x.node.nextIndex j = m + 1 :=
        ⟨(x.node.nextIndex j - 1).toNat, by omega⟩
      rw [replicateArgs_at hst hm (by omega)] at ha
      cases ha
    · exact (h hlead j hj).other hjk rfl rfl rfl rfl rfl rfl (fun _ _ => rfl)
        (fun k' hk' => Function.update_of_ne hk' _ _) fun _ _ => rfl
  | @callFollower k args _ ha =>
    by_cases hjk : j = k
    · obtain ⟨-, m, hm, rfl⟩ := Node.replicateArgs_cases ha
      subst hjk
      exact .calling (Function.update_self _ _ _) (Function.update_self _ _ _) rfl
    · exact (h hlead j hj).other hjk rfl rfl rfl rfl rfl rfl (fun _ _ => rfl)
        (fun k' hk' => Function.update_of_ne hk' _ _) fun k' hk' => Function.update_of_ne hk' _ _
  | @finishAppend k args reply hw hc hg =>
    obtain ⟨hst, hlog, hterm, hothers⟩ := x.node.replicateReply_others k args reply hlead
    by_cases hjk : j = k
    · subst hjk
      exact (h hst j hj).finish hx hj hw hc hg hlead
    · have hne : (j : Int) ≠ k := fun heq => hjk (Fin.ext (Int.ofNat.inj heq))
      exact (h hst j hj).other hjk hlog hterm (hothers j hne).1 (hothers j hne).2 rfl rfl
        (fun _ _ => rfl) (fun k' hk' => Function.update_of_ne hk' _ _)
        fun k' hk' => Function.update_of_ne hk' _ _
  | @abandonAppend k _ =>
    by_cases hjk : j = k
    · exact .lost (by simp [hjk, Routines.setWorker])
    · exact (h hlead j hj).other hjk rfl rfl rfl rfl rfl rfl (fun _ _ => rfl)
        (fun k' hk' => Function.update_of_ne hk' _ _) fun k' hk' => Function.update_of_ne hk' _ _
  | @stopWorker k _ _ _ =>
    by_cases hjk : j = k
    · exact .stopped (by simp [hjk, Routines.setWorker])
    · exact (h hlead j hj).other hjk rfl rfl rfl rfl rfl rfl (fun _ _ => rfl)
        (fun k' hk' => Function.update_of_ne hk' _ _) fun _ _ => rfl
  -- the handlers and Submit
  | vote hh =>
    obtain ⟨hst, hnext, hmatch, hlog, hterm⟩ := Node.handleRequestVote_leader hh hlead
    exact (h hst j hj).frame (by rw [hnext]) (by rw [hmatch]) hlog hterm id id rfl rfl
  | append hh =>
    have hsame := Node.handleAppendEntries_leader hh hlead
    subst hsame
    exact (h hlead j hj).frame rfl rfl rfl rfl id id rfl rfl
  | submit =>
    exact .owed (Or.inr ⟨.check, by simp, trivial⟩)

theorem of_reachable (hn : n ≤ 3) {w : Wired n} (h : (wired n capacity).Reachable w)
    (hlead : (w.cluster.node i).state = .leader) (hj : j ≠ i) : Attended (w.nodeAt i) j :=
  Wired.reachable_nodeAt
    (P := fun i x => x.node.state = .leader → ∀ j, j ≠ i → Attended x j) (I := Tracked)
    (Tracked.of_reachable hn) (Fresh.of_reachable hn) (fun _ _ hl => by cases hl)
    (fun _ _ _ hx hP hs => step hx hP hs) h i hlead j hj

end Attended

/-- Nothing is under way for the followers of node `i`: nobody is about to signal a worker, no
trigger is set, and every worker waits after a call that came back. -/
structure Routines.Resting (r : Routines n) (i : Fin n) : Prop where
  main : ∀ s b, r.main ≠ .signal s b
  submits : r.submits = []
  trigger : ∀ j, j ≠ i → r.replicationTrigger j = false
  worker : ∀ j, j ≠ i → r.worker j = .wait false

/-- A worker at rest has served its follower. -/
theorem Attended.served_of_resting {x : Local n} {i j : Fin n} (h : Attended x j)
    (hrest : x.routines.Resting i) (hj : j ≠ i) :
    x.node.matchIndex j = x.node.log.length - 1 := by
  have hw := hrest.worker j hj
  cases h with
  | served _ hmatch => exact hmatch
  | triggered h => rw [hrest.trigger j hj] at h; cases h
  | owed h =>
    rcases h with ⟨s, b, hs, -⟩ | ⟨s, hs, -⟩
    · exact absurd hs (hrest.main s b)
    · rw [hrest.submits] at hs
      cases hs
  | call h => rw [hw] at h; cases h
  | calling h => rw [hw] at h; cases h
  | lost h => rw [hw] at h; cases h
  | stopped h => rw [hw] at h; cases h

/-- No replication work is lost between the goroutines: in every run, when the workers of a leader
have come to rest, every node that has not gone on to a later term holds the leader's whole log, and
the leader has committed it if it ends with an entry of its term. -/
theorem resting_leader (hn : 2 ≤ n) (hn' : n ≤ 3) {w : Wired n}
    (h : (wired n capacity).Reachable w) {i : Fin n} (hlead : (w.cluster.node i).state = .leader)
    (hrest : (w.routines i).Resting i) :
    (∀ p, (w.cluster.node p).currentTerm ≤ (w.cluster.node i).currentTerm →
      (w.cluster.node i).log <+: (w.cluster.node p).log) ∧
    ((w.cluster.node i).log.getLast?.map LogEntry.term = some (w.cluster.node i).currentTerm →
      (w.cluster.node i).commitIndex = (w.cluster.node i).log.length - 1) := by
  have hreach := Wired.reachable_cluster h
  have hmatch : ∀ j, j ≠ i → (w.cluster.node i).matchIndex j =
      (w.cluster.node i).log.length - 1 := fun j hj =>
    (Attended.of_reachable hn' h hlead hj).served_of_resting hrest hj
  refine ⟨fun p hp => ?_, fun hlast =>
    Cluster.leader_commitIndex_eq hn hn' hreach hlead hlast hmatch⟩
  by_cases hpi : p = i
  · rw [hpi]
  · obtain ⟨g, -, hv⟩ := Views.of_reachable hn' i hreach
    have hagrees := (hv.view i p hlead hpi).agrees hp
    rwa [hmatch p hpi, Int.sub_add_cancel, Int.toNat_natCast, List.take_length] at hagrees

/-- Node 0 is elected and signals its workers; a command follows while they have not looked. -/
def electedTurns : List (Turn 3) :=
  [.checkShutdown 0, .readState 0, .timerFires 0, .takeTimer 0, .electionTimeout 0,
    .checkShutdown 0, .readState 0, .startElection 0, .deliverVote 0 1, .deliverVote 0 2,
    .countVote 0 1, .countVote 0 2, .signalCheck 0 none, .signalSend 0 none 1,
    .signalSend 0 none 2, .submit 0 { type := .readBarrier }, .signalCheck 0 (some 0),
    .signalSend 0 (some 0) 1, .signalSend 0 (some 0) 2]

/-- The one signal that is left in each trigger is enough for both. -/
def servedTurns : List (Turn 3) :=
  electedTurns ++
    [.takeTrigger 0 1, .callFollower 0 1, .deliverAppend 0 1, .finishAppend 0 1,
      .takeTrigger 0 2, .callFollower 0 2, .deliverAppend 0 2, .finishAppend 0 2]

theorem resting_leader_served :
    ∃ w, (wired 3 1).exec (Wired.start ["a", "b", "c"]) servedTurns = some w ∧
      (w.cluster.node 0).state = .leader ∧ (w.routines 0).Resting 0 ∧
      (w.cluster.node 0).log.length = 2 ∧
      (∀ p, (w.cluster.node p).currentTerm ≤ (w.cluster.node 0).currentTerm →
        (w.cluster.node 0).log <+: (w.cluster.node p).log) ∧
      ((w.cluster.node 0).log.getLast?.map LogEntry.term = some (w.cluster.node 0).currentTerm →
        (w.cluster.node 0).commitIndex = (w.cluster.node 0).log.length - 1) := by
  have hrun : ((wired 3 1).exec (Wired.start ["a", "b", "c"]) servedTurns).map
      (fun w => decide ((w.cluster.node 0).state = .leader ∧ (w.cluster.node 0).log.length = 2 ∧
        (w.routines 0).main = .top ∧ (w.routines 0).submits = [] ∧
        (∀ j, j ≠ 0 → (w.routines 0).replicationTrigger j = false) ∧
        ∀ j, j ≠ 0 → (w.routines 0).worker j = .wait false)) = some true := by decide +kernel
  simp only [Option.map_eq_some_iff, decide_eq_true_eq] at hrun
  obtain ⟨w, hw, hlead, hlen, hmain, hsubmits, htrigger, hworker⟩ := hrun
  have hrest : (w.routines 0).Resting 0 := ⟨by simp [hmain], hsubmits, htrigger, hworker⟩
  exact ⟨w, hw, hlead, hrest, hlen, resting_leader (by decide) (by decide)
    ⟨_, _, ⟨["a", "b", "c"], rfl, rfl⟩, hw⟩ hlead hrest⟩

end KvRaft.Raft
