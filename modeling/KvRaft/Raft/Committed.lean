import KvRaft.Raft.Safety

/-! What a node has committed stays as it is: terms, commit indices and applied indices never fall,
no step touches a log at or below the commit index, and a follower commits only what the request
that made it do so has shown to be in its leader's log. -/

namespace KvRaft.Raft

open Lineage

variable {n : Nat}

namespace Node

/-- No counter of the node falls. -/
structure Advances (nd nd' : Node) : Prop where
  term : nd.currentTerm ≤ nd'.currentTerm
  commit : nd.commitIndex ≤ nd'.commitIndex
  applied : nd.lastApplied ≤ nd'.lastApplied

/-- The positions at which the loop of `HandleAppendEntries` cuts the log. -/
def cuts (log : List LogEntry) (idx : Int) : List LogEntry → List Int
  | [] => []
  | entry :: rest =>
    if idx < log.length then
      if (logAt log idx).map LogEntry.term ≠ some entry.term then
        idx :: cuts (log.take idx.toNat ++ [entry]) (idx + 1) rest
      else cuts log (idx + 1) rest
    else cuts (log ++ [entry]) (idx + 1) rest

variable {nd nd' : Node}

theorem Advances.refl (nd : Node) : nd.Advances nd := ⟨le_rfl, le_rfl, le_rfl⟩

theorem advances_becomeFollowerLocked (nd : Node) (term : Int) :
    nd.Advances (nd.becomeFollowerLocked term) :=
  ⟨(nd.becomeFollowerLocked_term term).1, le_rfl, le_rfl⟩

theorem advances_electionTimeout (nd : Node) : nd.Advances nd.electionTimeout :=
  ⟨le_rfl, le_rfl, le_rfl⟩

theorem advances_becomeLeaderLocked (nd : Node) : nd.Advances nd.becomeLeaderLocked :=
  ⟨le_rfl, le_rfl, le_rfl⟩

theorem advances_startElection {args : RequestVoteArgs}
    (h : nd.startElection = some (nd', args)) : nd.Advances nd' := by
  obtain ⟨-, rfl, -⟩ := startElection_cases h
  exact ⟨by simp, le_rfl, le_rfl⟩

theorem advances_submit {cmd : Command} {index term : Int}
    (h : nd.submit cmd = some (nd', index, term)) : nd.Advances nd' := by
  obtain ⟨-, -, -, rfl⟩ := submit_cases h
  exact ⟨le_rfl, le_rfl, le_rfl⟩

theorem advances_applyNext {msg : ApplyMsg} (h : nd.applyNext = some (nd', msg)) :
    nd.Advances nd' := by
  obtain ⟨-, rfl, -⟩ := applyNext_cases h
  exact ⟨le_rfl, le_rfl, Nat.le_succ _⟩

theorem advances_handleRequestVote {args : RequestVoteArgs} {reply : RequestVoteReply}
    (h : nd.handleRequestVote args = some (nd', reply)) : nd.Advances nd' := by
  have hobs : nd.Advances (nd.observe args.term) := by
    unfold observe
    split
    · exact nd.advances_becomeFollowerLocked args.term
    · exact .refl nd
  rcases handleRequestVote_cases h with ⟨rfl, -⟩ | ⟨-, ⟨rfl, -⟩ | ⟨rfl, -⟩⟩
  · exact .refl _
  · exact hobs
  · exact ⟨hobs.term, hobs.commit, hobs.applied⟩

theorem advances_replicateReply (nd : Node) (peerIdx : Int) (args : AppendEntriesArgs)
    (reply : AppendEntriesReply) : nd.Advances (nd.replicateReply peerIdx args reply).1 := by
  rcases nd.replicateReply_cases peerIdx args reply with
    ⟨-, he⟩ | he | ⟨-, -, ⟨-, -, he⟩ | ⟨-, -, he⟩⟩
  · rw [he]
    exact nd.advances_becomeFollowerLocked reply.term
  · rw [he]
    exact .refl nd
  · rw [he]
    rcases tryAdvanceCommitIndexLocked_cases
      (nd.matchPeer peerIdx (args.prevLogIndex + args.entries.length)) with hs | ⟨N, hlt, -, -, hs⟩
    · rw [hs]
      exact ⟨le_rfl, le_rfl, le_rfl⟩
    · rw [hs]
      exact ⟨le_rfl, hlt.le, le_rfl⟩
  · rw [he]
    exact ⟨le_rfl, le_rfl, le_rfl⟩

/-- The loop over entries of `l` cuts nothing that the log and `l` have in common. -/
theorem length_le_of_mem_cuts {log l p entries : List LogEntry} {k : Nat} (hp : p <+: log)
    (hl : p <+: l) (hentries : entries <+: l.drop k) {m : Int} (hm : m ∈ cuts log k entries) :
    p.length ≤ m := by
  induction entries generalizing log k with
  | nil => cases hm
  | cons e rest ih =>
    have hk : k < l.length := by
      have := hentries.length_le
      rw [List.length_drop, List.length_cons] at this
      omega
    rw [List.drop_eq_getElem_cons hk, List.cons_prefix_cons] at hentries
    obtain ⟨rfl, hrest⟩ := hentries
    rw [cuts, show (k : Int) + 1 = ((k + 1 : Nat) : Int) by omega] at hm
    split at hm
    · next hlt =>
      have hlog : k < log.length := by omega
      rw [logAt, if_pos (Int.natCast_nonneg k), Int.toNat_natCast,
        List.getElem?_eq_getElem hlog] at hm
      split at hm
      · next hterm =>
        -- an entry of the common part would agree
        have hle : p.length ≤ k := by
          by_contra hin
          refine hterm ?_
          rw [Option.map_some, getElem_prefix_eq hp (by omega), getElem_prefix_eq hl (by omega)]
        rcases List.mem_cons.mp hm with rfl | hm
        · omega
        · exact ih ((prefix_take hp hle).trans (List.prefix_append _ _)) hrest hm
      · exact ih hp hrest hm
    · exact ih (hp.trans (List.prefix_append _ _)) hrest hm

end Node

/-- A step that changes one node. -/
theorem Cluster.advances_setNode {c : Cluster n} {p : Fin n} {nd : Node}
    (h : (c.node p).Advances nd) (i : Fin n) : (c.node i).Advances ((c.setNode p nd).node i) := by
  by_cases hi : i = p
  · subst hi
    rwa [Cluster.setNode_same]
  · rw [Cluster.setNode_ne _ _ _ hi]
    exact .refl _

namespace Sound

variable {g : Ghost n} {c c' : Cluster n} {p : AppendEntriesArgs → Prop}

theorem advances_handleAppend (h : Sound g c) {j : Fin n} {args : AppendEntriesArgs} {nd : Node}
    {reply : AppendEntriesReply} (hreq : c.AppendRequest j args)
    (hh : (c.node j).handleAppendEntries args = some (nd, reply)) : (c.node j).Advances nd := by
  have hfollow := (c.node j).advances_becomeFollowerLocked args.term
  rcases Node.handleAppendEntries_cases hh with ⟨-, rfl, -⟩ | ⟨hle, ⟨rfl, -⟩ | hacc⟩
  · exact .refl _
  · exact ⟨hfollow.term, le_rfl, le_rfl⟩
  · obtain ⟨log, hloop, rfl, -, hprev⟩ := hacc
    obtain ⟨-, -, hup, -⟩ := h.accepted hreq hle hloop hprev rfl
    exact ⟨hfollow.term, hup, le_rfl⟩

theorem advances {a : Action n} (h : Sound g c) (hm : Cluster.Step c a c') (i : Fin n) :
    (c.node i).Advances (c'.node i) := by
  cases hm with
  | readState | wakeFollower | abandonElection | leaderStays | leaderReturns | tally | replicate
  | loseRequest | loseReply => exact .refl _
  | electionTimeout => exact Cluster.advances_setNode (Node.advances_electionTimeout _) i
  | startElection _ hs => exact Cluster.advances_setNode (Node.advances_startElection hs) i
  | stepDown => exact Cluster.advances_setNode (Node.advances_becomeFollowerLocked _ _) i
  | win => exact Cluster.advances_setNode (Node.advances_becomeLeaderLocked _) i
  | deliverVote _ hh | deliverLateVote _ hh =>
    exact Cluster.advances_setNode (Node.advances_handleRequestVote hh) i
  | submit hs => exact Cluster.advances_setNode (Node.advances_submit hs) i
  | @deliverAppend k _ _ _ _ ha hh =>
    exact Cluster.advances_setNode (h.advances_handleAppend (Or.inl ⟨k, ha⟩) hh) i
  | deliverLateAppend ha hh =>
    exact Cluster.advances_setNode
      (h.advances_handleAppend (Or.inr (List.mem_of_getElem? ha)) hh) i
  | finishAppend => exact Cluster.advances_setNode (Node.advances_replicateReply _ _ _ _) i
  | apply ha => exact Cluster.advances_setNode (Node.advances_applyNext ha) i

/-- Two states of a run agree on what the earlier one has committed. -/
theorem take_eq {g' : Ghost n} (h : Sound g c) (h' : Sound g' c') (hg : g ≤ g') {i : Fin n}
    (hle : (c.node i).commitIndex ≤ (c'.node i).commitIndex) :
    (c'.node i).log.take ((c.node i).commitIndex + 1) =
      (c.node i).log.take ((c.node i).commitIndex + 1) := by
  obtain ⟨hlt, hp⟩ := h.commits.commit i
  obtain ⟨hlt', hp'⟩ := h'.commits.commit i
  have hold := hp.trans hg.2.2.2
  have hnew : (c'.node i).log.take ((c.node i).commitIndex + 1) <+: g'.committed :=
    (List.take_prefix_take_left (by omega)).trans hp'
  refine (prefix_of_length_le hnew hold ?_).eq_of_length ?_
  all_goals
    rw [List.length_take, List.length_take]
    omega

/-- An accepted request cuts the log only above the commit index. -/
theorem lt_of_mem_cuts (h : Sound g c) {j : Fin n} {args : AppendEntriesArgs} {nd : Node}
    {reply : AppendEntriesReply} (hreq : c.AppendRequest j args)
    (hh : (c.node j).handleAppendEntries args = some (nd, reply)) (hyes : reply.success = true)
    {m : Int} (hm : m ∈ Node.cuts (c.node j).log (args.prevLogIndex + 1) args.entries) :
    (c.node j).commitIndex < m := by
  rcases Node.handleAppendEntries_cases hh with ⟨-, -, hno⟩ | ⟨hle, ⟨-, hno⟩ | hacc⟩
  · simp [hno] at hyes
  · simp [hno] at hyes
  · obtain ⟨log, hloop, -, -, hprev⟩ := hacc
    obtain ⟨-, hkeep, -⟩ := h.logs.accept hreq hle hloop hprev
    obtain ⟨hL, -⟩ := h.keeps_commit hreq hle hkeep
    obtain ⟨k, hk, -, hentries⟩ := h.logs.request j args hreq
    obtain ⟨hlt, hp⟩ := h.commits.commit j
    rw [hk, show (k : Int) + 1 = ((k + 1 : Nat) : Int) by omega] at hm
    have := Node.length_le_of_mem_cuts (List.take_prefix _ _) (hp.trans hL) hentries hm
    rw [List.length_take] at this
    omega

/-- The next committed entry can always be read. -/
theorem applyNext_isSome (h : Sound g c) {i : Fin n}
    (hlt : (c.node i).lastApplied < (c.node i).commitIndex) : (c.node i).applyNext ≠ none := by
  have hlen : (c.node i).lastApplied + 1 < (c.node i).log.length := by
    have := (h.commits.commit i).1
    omega
  simp [Node.applyNext, hlt, List.getElem?_eq_getElem hlen]

end Sound

/-- Committed prefixes are immutable: the indices are in range, no step takes a counter of a node
back or changes its log at or below its commit index; in particular no accepted request cuts there,
and the entry that is applied next is in the log. -/
theorem committed_immutable {c : Cluster 3} (h : (cluster 3).Reachable c) :
    (∀ i, (c.node i).lastApplied ≤ (c.node i).commitIndex ∧
      (c.node i).commitIndex ≤ (c.node i).log.length - 1) ∧
    (∀ a c', (cluster 3).step c a = some c' → ∀ i,
      (c.node i).currentTerm ≤ (c'.node i).currentTerm ∧
      (c.node i).commitIndex ≤ (c'.node i).commitIndex ∧
      (c.node i).lastApplied ≤ (c'.node i).lastApplied ∧
      ∀ k ≤ (c.node i).commitIndex, (c'.node i).log[k]? = (c.node i).log[k]?) ∧
    (∀ j args nd reply, c.AppendRequest j args →
      (c.node j).handleAppendEntries args = some (nd, reply) → reply.success = true →
      ∀ m ∈ Node.cuts (c.node j).log (args.prevLogIndex + 1) args.entries,
        (c.node j).commitIndex < m) ∧
    ∀ i, (c.node i).lastApplied < (c.node i).commitIndex → (c.node i).applyNext ≠ none := by
  obtain ⟨g, hs⟩ := Sound.of_reachable le_rfl 0 h
  refine ⟨fun i => ⟨hs.commits.applied i, Nat.le_sub_one_of_lt (hs.commits.commit i).1⟩, ?_,
    fun j args nd reply hreq hh hyes m hm => hs.lt_of_mem_cuts hreq hh hyes hm,
    fun i hlt => hs.applyNext_isSome hlt⟩
  intro a c' hstep i
  have hadv := hs.advances (.of_step hstep) i
  obtain ⟨g', hg, hs'⟩ := hs.step le_rfl hstep
  refine ⟨hadv.term, hadv.commit, hadv.applied, fun k hk => ?_⟩
  have htake := hs.take_eq hs' hg hadv.commit
  have hget := congrArg (fun l : List LogEntry => l[k]?) htake
  simpa [List.getElem?_take, Nat.lt_succ_of_le hk] using hget

/-- After `oneCommand`, node 0 has committed its command, and its worker for node 2 takes a step. -/
theorem committed_immutable_oneCommand :
    ∃ c c', (cluster 3).exec (Cluster.start ["a", "b", "c"]) oneCommand = some c ∧
      (cluster 3).step c (.replicate 0 2) = some c' ∧ (c.node 0).commitIndex = 1 ∧
      1 ≤ (c'.node 0).commitIndex ∧ (c'.node 0).log[1]? = (c.node 0).log[1]? := by
  have hrun : (((cluster 3).exec (Cluster.start ["a", "b", "c"]) oneCommand).bind fun c =>
      ((cluster 3).step c (.replicate 0 2)).map fun _ => (c.node 0).commitIndex) = some 1 := by
    decide +kernel
  simp only [Option.bind_eq_some_iff, Option.map_eq_some_iff] at hrun
  obtain ⟨c, hc, c', hc', hci⟩ := hrun
  have hreach : (cluster 3).Reachable c := ⟨_, _, ⟨["a", "b", "c"], rfl, rfl⟩, hc⟩
  obtain ⟨-, hcommit, -, hlog⟩ := (committed_immutable hreach).2.1 _ c' hc' 0
  exact ⟨c, c', hc, hc', hci, hci ▸ hcommit, hlog 1 hci.ge⟩

/-- The action that delivers a request runs the handler of its target. -/
theorem Cluster.step_delivered {c c' : Cluster n} {a : Action n} {args : AppendEntriesArgs}
    (hd : c.delivered a = some args) (h : c.step a = some c') :
    ∃ j nd reply, c.AppendRequest j args ∧
      (c.node j).handleAppendEntries args = some (nd, reply) ∧
      c'.node = Function.update c.node j nd := by
  cases a with
  | deliverAppend i j =>
    simp only [delivered] at hd
    split at hd
    · next args' ha =>
      obtain rfl := Option.some.inj hd
      simp only [step, ha, Option.bind_eq_bind, Option.pure_def, Option.bind_eq_some_iff,
        Option.some.injEq] at h
      obtain ⟨⟨nd, reply⟩, hh, rfl⟩ := h
      exact ⟨j, nd, reply, Or.inl ⟨i, ha⟩, hh, rfl⟩
    · cases hd
  | deliverLateAppend k =>
    simp only [delivered, Option.map_eq_some_iff] at hd
    obtain ⟨⟨j, args'⟩, ha, rfl⟩ := hd
    simp only [step, ha, Option.bind_eq_bind, Option.bind_some, Option.pure_def,
      Option.bind_eq_some_iff, Option.some.injEq] at h
    obtain ⟨⟨nd, reply⟩, hh, rfl⟩ := h
    exact ⟨j, nd, reply, Or.inr (List.mem_of_getElem? ha), hh, rfl⟩
  | _ => cases hd

/-- A request that moves the commit index of its target shows it the log up to there. -/
theorem Sound.commit_verified {g : Ghost n} {c : Cluster n} (h : Sound g c) {j : Fin n}
    {args : AppendEntriesArgs} {nd : Node} {reply : AppendEntriesReply}
    (hreq : c.AppendRequest j args)
    (hh : (c.node j).handleAppendEntries args = some (nd, reply))
    (hmoved : (c.node j).commitIndex < nd.commitIndex) :
    nd.commitIndex ≤ args.prevLogIndex + args.entries.length ∧
      nd.log.take (nd.commitIndex + 1) = (g.leaderLog args.term).take (nd.commitIndex + 1) := by
  rcases Node.handleAppendEntries_cases hh with ⟨-, rfl, -⟩ | ⟨hle, ⟨rfl, -⟩ | hacc⟩
  · exact absurd hmoved (lt_irrefl _)
  · exact absurd hmoved (lt_irrefl _)
  · obtain ⟨log, hloop, rfl, -, hprev⟩ := hacc
    exact (h.accepted hreq hle hloop hprev rfl).2.2.2 hmoved

/-- A follower commits only what the message has verified. `args` is built by node `i` in `c`, and a
copy of it is handled in any later state `c₁`. -/
theorem follower_commits_verified {c : Cluster 3} (h : (cluster 3).Reachable c) {i j : Fin 3}
    {args : AppendEntriesArgs} (hbuilt : (c.node i).replicateArgs j = some args) :
    args.leaderCommit ≤ args.prevLogIndex + args.entries.length ∧
    ∀ c₁ c₂ a p, (cluster 3).Leads c c₁ → c₁.delivered a = some args →
      (cluster 3).step c₁ a = some c₂ → (c₁.node p).commitIndex < (c₂.node p).commitIndex →
      (c₂.node p).commitIndex ≤ args.prevLogIndex + args.entries.length ∧
        ∀ k ≤ (c₂.node p).commitIndex, (c₂.node p).log[k]? = (c.node i).log[k]? := by
  obtain ⟨g, hs⟩ := Sound.of_reachable le_rfl 0 h
  obtain ⟨hlead, k₀, hk₀, rfl⟩ := Node.replicateArgs_cases hbuilt
  have hci := (hs.commits.commit i).1
  have hreach : (k₀ : Int) + ((c.node i).log.drop (k₀ + 1)).length + 1 = (c.node i).log.length := by
    rw [List.length_drop]
    omega
  refine ⟨by simp only; omega, fun c₁ c₂ a p hl hd hstep hmoved => ?_⟩
  obtain ⟨g₁, hg, hs₁⟩ := hs.of_leads le_rfl hl
  obtain ⟨q, nd, reply, hreq, hh, hnode⟩ := Cluster.step_delivered hd hstep
  have hp : p = q := by
    by_contra hne
    rw [hnode, Function.update_of_ne hne] at hmoved
    exact lt_irrefl _ hmoved
  subst hp
  rw [hnode, Function.update_self] at hmoved ⊢
  obtain ⟨hle, htake⟩ := hs₁.commit_verified hreq hh hmoved
  simp only at hle htake
  -- what the leader has written since then comes after what it sent
  have hsame : nd.log.take (nd.commitIndex + 1) =
      (c.node i).log.take (nd.commitIndex + 1) := by
    rw [htake, ← hs.logs.leader i hlead]
    refine take_prefix_eq (hg.2.2.1 _) ?_
    rw [hs.logs.leader i hlead]
    omega
  refine ⟨hle, fun k hk => ?_⟩
  have hget := congrArg (fun l : List LogEntry => l[k]?) hsame
  simpa [List.getElem?_take, Nat.lt_succ_of_le hk] using hget

/-- The leader builds a heartbeat for node 1 after it has committed its command, and node 1 commits
the command on handling it. -/
theorem follower_commits_verified_oneCommand :
    ∃ c c₁ c₂, (cluster 3).exec (Cluster.start ["a", "b", "c"]) (oneCommand.take 13) = some c ∧
      (cluster 3).step c (.replicate 0 1) = some c₁ ∧
      (cluster 3).step c₁ (.deliverAppend 0 1) = some c₂ ∧ (c₁.node 1).commitIndex = 0 ∧
      (c₂.node 1).commitIndex = 1 ∧ (c₂.node 1).log[1]? = (c.node 0).log[1]? := by
  have hrun : (((cluster 3).exec (Cluster.start ["a", "b", "c"]) (oneCommand.take 13)).bind fun c =>
      ((cluster 3).step c (.replicate 0 1)).bind fun c₁ =>
      ((cluster 3).step c₁ (.deliverAppend 0 1)).map fun c₂ =>
        decide (((c.node 0).replicateArgs 1).isSome ∧
          c₁.delivered (.deliverAppend 0 1) = (c.node 0).replicateArgs 1 ∧
          (c₁.node 1).commitIndex = 0 ∧ (c₂.node 1).commitIndex = 1)) = some true := by
    decide +kernel
  simp only [Option.bind_eq_some_iff, Option.map_eq_some_iff, decide_eq_true_eq] at hrun
  obtain ⟨c, hc, c₁, hc₁, c₂, hc₂, hargs, hsent, h₀, h₁⟩ := hrun
  obtain ⟨args, hargs⟩ := Option.isSome_iff_exists.mp hargs
  have hreach : (cluster 3).Reachable c := ⟨_, _, ⟨["a", "b", "c"], rfl, rfl⟩, hc⟩
  obtain ⟨-, hlog⟩ := (follower_commits_verified (i := 0) (j := 1) hreach hargs).2 c₁ c₂
    (.deliverAppend 0 1) 1 (.of_step hc₁) (hsent.trans hargs) hc₂ (by omega)
  exact ⟨c, c₁, c₂, hc, hc₁, hc₂, h₀, h₁, hlog 1 h₁.ge⟩

end KvRaft.Raft
