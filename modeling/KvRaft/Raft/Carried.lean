import KvRaft.Raft.Safety

/-! What the RPC layer can carry bounds what can be committed. When every delivered append request
has only entries of `P`, an entry outside `P` stays in the log of the leader that submitted it: no
follower accepts it, no reply acknowledges it, and so no leader of a cluster of three commits it. -/

namespace KvRaft.Raft

open Lineage

variable {n : Nat}

/-- How much of the leader's log a follower has once it has accepted the request. -/
def AppendEntriesArgs.reach (args : AppendEntriesArgs) : Nat :=
  (args.prevLogIndex + args.entries.length + 1).toNat

structure Carried (P : LogEntry → Prop) (g : Ghost n) (c : Cluster n) : Prop where
  log : ∀ j, ∀ e ∈ (c.node j).log, P e ∨ g.owner e.term = some j
  request : ∀ j args, c.AppendRequest j args → ∃ o, o ≠ j ∧ g.owner args.term = some o ∧
    args.reach ≤ (g.leaderLog args.term).length ∧ args.leaderCommit.toNat + 1 ≤ args.reach ∧
    (∀ e ∈ (g.leaderLog args.term).take args.reach, P e ∨ g.owner e.term = some o) ∧
    ∀ e ∈ (g.leaderLog args.term).take (args.leaderCommit.toNat + 1), P e
  answered : ∀ i j args reply, c.append i j = .answered args reply → reply.success = true →
    args.reach ≤ (g.leaderLog args.term).length ∧
      ∀ e ∈ (g.leaderLog args.term).take args.reach, P e
  matched : ∀ i, (c.node i).state = .leader → ∀ j : Fin n, j ≠ i →
    ((c.node i).matchIndex j + 1).toNat ≤ (c.node i).log.length ∧
      ∀ e ∈ (c.node i).log.take ((c.node i).matchIndex j + 1).toNat, P e
  commit : ∀ i, ∀ e ∈ (c.node i).log.take ((c.node i).commitIndex + 1), P e

namespace Carried

variable {P : LogEntry → Prop} {g g' : Ghost n} {c c' : Cluster n}

theorem start (hP : P sentinel) (peers : List String) (x : Fin n) :
    Carried P (Ghost.start x) (Cluster.start peers) where
  log j e he := by
    simp only [Cluster.start, newNode, List.mem_singleton] at he
    exact Or.inl (he ▸ hP)
  request _ _ h := by simp [Cluster.AppendRequest, Cluster.start] at h
  answered _ _ _ _ h := by simp [Cluster.start] at h
  matched _ h := by simp [Cluster.start, newNode] at h
  commit i e he := by
    simp only [Cluster.start, newNode, List.take_succ_cons, List.take_nil, List.mem_singleton] at he
    exact he ▸ hP

theorem mono (h : Carried P g c) (hg : g ≤ g') : Carried P g' c := by
  have htake : ∀ T k, k ≤ (g.leaderLog T).length →
      (g'.leaderLog T).take k = (g.leaderLog T).take k := fun T k hk =>
    take_prefix_eq (hg.2.2.1 T) hk
  have hlen : ∀ T, (g.leaderLog T).length ≤ (g'.leaderLog T).length := fun T =>
    (hg.2.2.1 T).length_le
  refine { h with log := fun j e he => (h.log j e he).imp_right (hg.2.1 _ _)
                  request := fun j args hreq => ?_, answered := fun i j args reply ha hs => ?_ }
  · obtain ⟨o, hne, hown, hle, hcommit, hlog, hsmall⟩ := h.request j args hreq
    refine ⟨o, hne, hg.2.1 _ _ hown, hle.trans (hlen _), hcommit, ?_, ?_⟩
    · rw [htake _ _ hle]
      exact fun e he => (hlog e he).imp_right (hg.2.1 _ _)
    · rw [htake _ _ (hcommit.trans hle)]
      exact hsmall
  · obtain ⟨hle, hsmall⟩ := h.answered i j args reply ha hs
    rw [htake _ _ hle]
    exact ⟨hle.trans (hlen _), hsmall⟩

/-- Only calls and goroutines change. -/
theorem frame (h : Carried P g c) (hnode : c'.node = c.node)
    (hreq : ∀ j args, c'.AppendRequest j args → c.AppendRequest j args)
    (hans : ∀ i j args reply, c'.append i j = .answered args reply →
      c.append i j = .answered args reply) : Carried P g c' where
  log := hnode ▸ h.log
  request j args hr := h.request j args (hreq j args hr)
  answered i j args reply ha := h.answered i j args reply (hans i j args reply ha)
  matched := hnode ▸ h.matched
  commit := hnode ▸ h.commit

theorem setNode (h : Carried P g c) {p : Fin n} {nd : Node}
    (hlog : ∀ e ∈ nd.log, P e ∨ g.owner e.term = some p)
    (hmatch : nd.state = .leader → ∀ j : Fin n, j ≠ p →
      (nd.matchIndex j + 1).toNat ≤ nd.log.length ∧
        ∀ e ∈ nd.log.take (nd.matchIndex j + 1).toNat, P e)
    (hcommit : ∀ e ∈ nd.log.take (nd.commitIndex + 1), P e) : Carried P g (c.setNode p nd) := by
  refine { h with log := fun j => ?_, matched := fun i => ?_, commit := fun i => ?_ }
  · by_cases hj : j = p
    · subst hj; simpa using hlog
    · simpa [hj] using h.log j
  · by_cases hi : i = p
    · subst hi; simpa using hmatch
    · simpa [hi] using h.matched i
  · by_cases hi : i = p
    · subst hi; simpa using hcommit
    · simpa [hi] using h.commit i

/-- A node that keeps its log and its commit index, and its match indices if it leads. -/
theorem quiet (h : Carried P g c) {p : Fin n} {nd : Node} (hlog : nd.log = (c.node p).log)
    (hcommit : nd.commitIndex = (c.node p).commitIndex)
    (hlead : nd.state = .leader →
      (c.node p).state = .leader ∧ nd.matchIndex = (c.node p).matchIndex) :
    Carried P g (c.setNode p nd) := by
  refine h.setNode (hlog ▸ h.log p) (fun hst => ?_) (hlog ▸ hcommit ▸ h.commit p)
  obtain ⟨hold, hmatch⟩ := hlead hst
  rw [hlog, hmatch]
  exact h.matched p hold

theorem becomeFollower (h : Carried P g c) (p : Fin n) (term : Int) :
    Carried P g (c.setNode p ((c.node p).becomeFollowerLocked term)) :=
  h.quiet rfl rfl nofun

/-- A call of a replication worker ends. -/
theorem endAppend (h : Carried P g c) (i j : Fin n) : Carried P g (c.setAppend i j .idle) := by
  refine h.frame rfl (fun k args hreq => ?_) fun k m args reply ha => ?_
  · exact (Cluster.appendRequest_setAppend hreq).resolve_right (by simp)
  · rw [Cluster.setAppend_apply] at ha
    split at ha
    · simp at ha
    · exact ha

/-- An append request with entries of `P` is handled. -/
theorem handleAppend (hs : Sound g c) (h : Carried P g c) {j : Fin n} {args : AppendEntriesArgs}
    {nd : Node} {reply : AppendEntriesReply} (hp : ∀ e ∈ args.entries, P e)
    (hreq : c.AppendRequest j args) (hh : (c.node j).handleAppendEntries args = some (nd, reply)) :
    Carried P g (c.setNode j nd) ∧ (reply.success = true →
      args.reach ≤ (g.leaderLog args.term).length ∧
        ∀ e ∈ (g.leaderLog args.term).take args.reach, P e) := by
  obtain ⟨o, hne, hown, hle, hcommit, hlog, hsmall⟩ := h.request j args hreq
  rcases Node.handleAppendEntries_cases hh with ⟨-, rfl, hno⟩ | ⟨hterm, ⟨rfl, hno⟩ | hacc⟩
  · rw [Cluster.setNode_self]
    exact ⟨h, fun hyes => absurd hyes (by simp [hno])⟩
  · exact ⟨h.quiet rfl rfl nofun, fun hyes => absurd hyes (by simp [hno])⟩
  · obtain ⟨log, hloop, rfl, -, hprev⟩ := hacc
    obtain ⟨⟨k, hk, hlen, hpiece⟩, hkeep, -⟩ := hs.logs.accept hreq hterm hloop hprev
    have hreach : args.reach = k + 1 + args.entries.length := by
      rw [AppendEntriesArgs.reach, hk]
      omega
    have hlog' : ∀ e ∈ log, P e ∨ g.owner e.term = some j := by
      intro e he
      rw [hk, show (k : Int) + 1 = ((k + 1 : Nat) : Int) by omega, Node.appendLoop_eq,
        Option.some.injEq] at hloop
      rcases mem_drop_splice (j := 0) (hloop ▸ he) with hold | hnew
      · exact h.log j e hold
      · exact Or.inl (hp e hnew)
    rw [← hreach] at hpiece
    have hreached : ∀ e ∈ (g.leaderLog args.term).take args.reach, P e := by
      intro e he
      rcases hlog e he with hP | ho
      · exact hP
      · refine (hlog' e (hpiece.subset he)).resolve_right fun hj => hne ?_
        rw [ho, Option.some.injEq] at hj
        exact hj
    refine ⟨h.setNode hlog' nofun fun e he => ?_, fun _ => ⟨hle, hreached⟩⟩
    change e ∈ log.take ((c.node j).commitTo log args.leaderCommit + 1) at he
    unfold Node.commitTo at he
    split at he
    · -- what the leader had committed is within the reach of the request
      have hsame : log.take (args.leaderCommit.toNat + 1) =
          (g.leaderLog args.term).take (args.leaderCommit.toNat + 1) := by
        rw [take_prefix_eq hpiece (by rw [List.length_take]; omega), List.take_take,
          min_eq_left hcommit]
      refine hsmall e (hsame ▸ (List.take_prefix_take_left ?_).subset he)
      omega
    · obtain ⟨-, hold⟩ := hs.keeps_commit hreq hterm hkeep
      obtain ⟨hlt, -⟩ := hs.commits.commit j
      rw [take_prefix_eq hold (by rw [List.length_take]; omega), List.take_take, min_self] at he
      exact h.commit j e he

/-- The leader's request has what its log has, and its own entries are the only ones outside `P`. -/
theorem replicate (hs : Sound g c) (h : Carried P g c) {i j : Fin n} {args : AppendEntriesArgs}
    (hij : i ≠ j) (ha : (c.node i).replicateArgs j = some args) :
    Carried P g (c.setAppend i j (.sent args)) := by
  obtain ⟨hlead, k, hk, rfl⟩ := Node.replicateArgs_cases ha
  have hL := hs.logs.leader i hlead
  obtain ⟨hci, -⟩ := hs.commits.commit i
  refine { h with request := fun m args' hreq => ?_, answered := fun a b args' reply hans => ?_ }
  · rcases Cluster.appendRequest_setAppend hreq with hold | ⟨rfl, hsent⟩
    · exact h.request m args' hold
    · simp only [AppendCall.sent.injEq] at hsent
      subst hsent
      have hreach : AppendEntriesArgs.reach ⟨(c.node i).currentTerm, (c.node i).id, k,
          (c.node i).log[k].term, (c.node i).log.drop (k + 1), (c.node i).commitIndex⟩ =
          (c.node i).log.length := by
        simp only [AppendEntriesArgs.reach, List.length_drop]
        omega
      rw [hreach, hL]
      refine ⟨i, hij, hs.votes.leader i hlead, le_rfl, by simpa using Nat.succ_le_of_lt hci, ?_, ?_⟩
      · exact fun e he => h.log i e (List.mem_of_mem_take he)
      · simpa using h.commit i
  · rw [Cluster.setAppend_apply] at hans
    split at hans
    · simp at hans
    · exact h.answered a b args' reply hans

/-- The leader commits only what a reply of another node has acknowledged. -/
theorem advance (h : Carried P g c) (hn : 2 ≤ n) {i : Fin n} {N : Nat}
    (hid : (c.node i).id = i) (hpeers : (c.node i).peers.length = n)
    (hlead : (c.node i).state = .leader)
    (hcount : (c.node i).replicationCount N > (c.node i).peers.length / 2) :
    Carried P g (c.setNode i { c.node i with commitIndex := N }) := by
  refine h.setNode (h.log i) (fun _ => h.matched i hlead) fun e he => ?_
  change e ∈ (c.node i).log.take (N + 1) at he
  rw [Node.replicationCount, hpeers, hid] at hcount
  have hpos : 0 < ((List.range n).filter fun (k : Nat) =>
      (k : Int) ≠ i ∧ (c.node i).matchIndex k ≥ N).length := by omega
  obtain ⟨k, hk⟩ := List.exists_mem_of_length_pos hpos
  simp only [List.mem_filter, List.mem_range, decide_eq_true_eq] at hk
  obtain ⟨hkn, hne, hmatch⟩ := hk
  have hj : (⟨k, hkn⟩ : Fin n) ≠ i := by
    rintro rfl
    exact hne rfl
  obtain ⟨-, hsmall⟩ := h.matched i hlead ⟨k, hkn⟩ hj
  refine hsmall e ((List.take_prefix_take_left ?_).subset he)
  change (N : Nat) + 1 ≤ ((c.node i).matchIndex k + 1).toNat
  omega

/-- A reply reaches the replication worker. -/
theorem handleReply (hs : Sound g c) (h : Carried P g c) (hn : 2 ≤ n) {i j : Fin n}
    {args : AppendEntriesArgs} {reply : AppendEntriesReply}
    (ha : c.append i j = .answered args reply) :
    Carried P g (c.setNode i ((c.node i).replicateReply j args reply).1) := by
  rcases (c.node i).replicateReply_cases j args reply with
    ⟨-, he⟩ | he | ⟨hlead, hterm, ⟨hyes, -, he⟩ | ⟨-, -, he⟩⟩
  · rw [he]
    exact h.becomeFollower i reply.term
  · rw [he, Cluster.setNode_self]
    exact h
  · rw [he]
    generalize hmatched : args.prevLogIndex + args.entries.length = matched
    have hm : Carried P g (c.setNode i ((c.node i).matchPeer j matched)) := by
      refine h.setNode (h.log i) (fun _ k hk => ?_) (h.commit i)
      by_cases hkj : k = j
      · subst hkj
        obtain ⟨hle, hsmall⟩ := h.answered i k args reply ha hyes
        rw [AppendEntriesArgs.reach, hmatched, ← hterm, hs.logs.leader i hlead] at hle hsmall
        simpa [Node.matchPeer] using And.intro hle hsmall
      · have hne : (k : Int) ≠ (j : Int) := by
          intro heq
          exact hkj (Fin.ext (by omega))
        simpa [Node.matchPeer, hne] using h.matched i hlead k hk
    rcases Node.tryAdvanceCommitIndexLocked_cases ((c.node i).matchPeer j matched) with
      hsame | ⟨N, -, -, hcount, hadv⟩
    · rw [hsame]
      exact hm
    · rw [hadv]
      have := hm.advance hn (i := i) (N := N) (by simpa [Node.matchPeer] using hs.votes.id i)
        (by simpa [Node.matchPeer] using hs.votes.peers i)
        (by simpa [Node.matchPeer] using hlead) (by simpa using hcount)
      simpa [Cluster.setNode] using this
  · rw [he]
    exact h.quiet rfl rfl fun _ => ⟨hlead, rfl⟩

/-- A command goes to the end of the leader's log. -/
theorem submit (hs : Sound g c) (h : Carried P g c) {i : Fin n} {cmd : Command} {nd : Node}
    {index term : Int} (hsub : (c.node i).submit cmd = some (nd, index, term)) :
    Carried P g (c.setNode i nd) := by
  obtain ⟨hlead, -, -, rfl⟩ := Node.submit_cases hsub
  refine h.setNode (fun e he => ?_) (fun _ j hj => ?_) ?_
  · rcases List.mem_append.mp he with hold | hnew
    · exact h.log i e hold
    · rw [List.mem_singleton.mp hnew]
      exact Or.inr (hs.votes.leader i hlead)
  · obtain ⟨hle, hsmall⟩ := h.matched i hlead j hj
    have hne : (j : Int) ≠ (c.node i).id := by
      rw [hs.votes.id i]
      exact fun heq => hj (Fin.ext (by omega))
    simp only [Function.update_of_ne hne]
    rw [List.take_append_of_le_length hle]
    exact ⟨by simp; omega, hsmall⟩
  · obtain ⟨hlt, -⟩ := hs.commits.commit i
    change ∀ e ∈ ((c.node i).log ++ _).take ((c.node i).commitIndex + 1), P e
    rw [List.take_append_of_le_length (by omega)]
    exact h.commit i

/-- A new leader has nothing acknowledged but the sentinel. -/
theorem win (hP : P sentinel) (hs : Sound g c) (h : Carried P g c) (i : Fin n) :
    Carried P g (c.setNode i (c.node i).becomeLeaderLocked) := by
  refine h.setNode (h.log i) (fun _ j hj => ?_) (h.commit i)
  have hne : (j : Int) ≠ (c.node i).id := by
    rw [hs.votes.id i]
    exact fun heq => hj (Fin.ext (by omega))
  have hwf := hs.logs.log i
  obtain ⟨rest, hlog⟩ : ∃ rest, (c.node i).log = sentinel :: rest := by
    have hhead := hwf.head
    cases hl : (c.node i).log with
    | nil => exact absurd hl hwf.ne_nil
    | cons a rest =>
      rw [hl, List.head?_cons, Option.some.injEq] at hhead
      exact ⟨rest, by rw [hhead]⟩
  simp only [Node.becomeLeaderLocked, Function.update_of_ne hne, hlog]
  simpa using hP

theorem handleVote (h : Carried P g c) {j : Fin n} {args : RequestVoteArgs} {nd : Node}
    {reply : RequestVoteReply} (hh : (c.node j).handleRequestVote args = some (nd, reply)) :
    Carried P g (c.setNode j nd) := by
  have hobs : ∀ v,
      Carried P g (c.setNode j { (c.node j).observe args.term with votedFor := v }) := by
    intro v
    refine h.quiet ((c.node j).observe_log args.term) ?_ fun hst => ?_
    · unfold Node.observe
      split <;> rfl
    · unfold Node.observe at hst ⊢
      split at hst
      · cases hst
      · next hle => exact ⟨hst, by rw [if_neg hle]⟩
  rcases Node.handleRequestVote_cases hh with ⟨rfl, -⟩ | ⟨-, ⟨rfl, -⟩ | ⟨rfl, -⟩⟩
  · rw [Cluster.setNode_self]
    exact h
  · exact hobs _
  · exact hobs _

/-- Every step that delivers only requests with entries of `P`. -/
theorem move (hP : P sentinel) (hn : 2 ≤ n) (hs : Sound g c) (h : Carried P g c) {a : Action n}
    (hm : Cluster.Step c a c')
    (hp : ∀ args, c.delivered a = some args → ∀ e ∈ args.entries, P e) : Carried P g c' := by
  cases hm with
  | leaderStays => exact h
  | readState | wakeFollower | abandonElection | leaderReturns | tally =>
    exact h.frame rfl (fun _ _ hr => hr) fun _ _ _ _ ha => ha
  | @electionTimeout i =>
    have hq : Carried P g (c.setNode i (c.node i).electionTimeout) := h.quiet rfl rfl nofun
    exact hq.frame rfl (fun _ _ hr => hr) fun _ _ _ _ ha => ha
  | @startElection i nd args hl hst =>
    obtain ⟨-, rfl, rfl⟩ := Node.startElection_cases hst
    have hq : Carried P g (c.setNode i { c.node i with
        currentTerm := (c.node i).currentTerm + 1, votedFor := (c.node i).id, leaderID := -1 }) :=
      h.quiet rfl rfl fun hst => ⟨hst, rfl⟩
    exact hq.frame rfl (fun _ _ hr => hr) fun _ _ _ _ ha => ha
  | @stepDown i j T v r =>
    exact (h.becomeFollower i r.term).frame rfl (fun _ _ hr => hr) fun _ _ _ _ ha => ha
  | @win i => exact (h.win hP hs i).frame rfl (fun _ _ hr => hr) fun _ _ _ _ ha => ha
  | deliverVote _ hh =>
    exact (h.handleVote hh).frame rfl (fun _ _ hr => hr) fun _ _ _ _ ha => ha
  | deliverLateVote _ hh =>
    exact (h.handleVote hh).frame rfl (fun _ _ hr => hr) fun _ _ _ _ ha => ha
  | submit hsub => exact h.submit hs hsub
  | replicate hij ha => exact h.replicate hs hij ha
  | @deliverAppend i j args nd reply ha hh =>
    obtain ⟨h', hans⟩ :=
      h.handleAppend hs (hp args (by simp [Cluster.delivered, ha])) (Or.inl ⟨i, ha⟩) hh
    refine { h' with request := fun m args' hr => ?_, answered := fun a b args' reply' ha' => ?_ }
    · exact h'.request m args' ((Cluster.appendRequest_setAppend hr).resolve_right (by simp))
    · rw [Cluster.setAppend_apply] at ha'
      split at ha'
      · simp only [AppendCall.answered.injEq] at ha'
        obtain ⟨rfl, rfl⟩ := ha'
        exact hans
      · exact h'.answered a b args' reply' ha'
  | @deliverLateAppend k j args nd reply ha hh =>
    obtain ⟨h', -⟩ := h.handleAppend hs (hp args (by simp [Cluster.delivered, ha]))
      (Or.inr (List.mem_of_getElem? ha)) hh
    exact h'.frame rfl (fun _ _ hr => hr.imp_right List.mem_of_mem_eraseIdx) fun _ _ _ _ ha => ha
  | finishAppend ha => exact (h.handleReply hs hn ha).endAppend _ _
  | @loseRequest i j args ha =>
    refine h.frame rfl (fun m args' hr => ?_) fun a b args' reply ha' => ?_
    · rcases hr with ⟨k, hk⟩ | hk
      · exact (Cluster.appendRequest_setAppend (Or.inl ⟨k, hk⟩)).resolve_right (by simp)
      · rcases List.mem_append.mp hk with hold | hnew
        · exact Or.inr hold
        · simp only [List.mem_singleton, Prod.mk.injEq] at hnew
          exact Or.inl ⟨i, by rw [hnew.1, hnew.2]; exact ha⟩
    · rw [show ({ c.setAppend i j .idle with
          lateAppends := c.lateAppends ++ [(j, args)] } : Cluster n).append =
          (c.setAppend i j .idle).append from rfl, Cluster.setAppend_apply] at ha'
      split at ha'
      · simp at ha'
      · exact ha'
  | loseReply => exact h.endAppend _ _
  | @apply i nd msg ha =>
    obtain ⟨-, rfl, -⟩ := Node.applyNext_cases ha
    have hq : Carried P g (c.setNode i
        { c.node i with lastApplied := (c.node i).lastApplied + 1 }) :=
      h.quiet rfl rfl fun hst => ⟨hst, rfl⟩
    exact hq.frame rfl (fun _ _ hr => hr) fun _ _ _ _ ha => ha

/-- What a node has emitted is in `P`. -/
theorem emitted (hs : Sound g c) (h : Carried P g c) (i : Fin n) {msg : ApplyMsg}
    (hmsg : msg ∈ c.emitted i) : ∃ e, P e ∧ msg = e.toMsg := by
  obtain ⟨hlt, hp⟩ := hs.commits.commit i
  rw [hs.commits.emitted i] at hmsg
  obtain ⟨e, he, rfl⟩ := List.mem_map.mp hmsg
  have happ := hs.commits.applied i
  have htake : g.committed.take ((c.node i).lastApplied + 1) =
      (c.node i).log.take ((c.node i).lastApplied + 1) := by
    rw [take_prefix_eq hp (by rw [List.length_take]; omega), List.take_take,
      min_eq_left (by omega)]
  have hmem := List.mem_of_mem_tail he
  rw [htake] at hmem
  exact ⟨e, h.commit i e ((List.take_prefix_take_left (by omega)).subset hmem), rfl⟩

end Carried

end KvRaft.Raft
