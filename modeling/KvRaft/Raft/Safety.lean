import KvRaft.Raft.Commits

/-! Runs of a cluster of at most three nodes, where `votesNeeded` is the whole cluster: every step
keeps the vote bookkeeping, the lineage of the logs and the committed log. -/

namespace KvRaft.Raft

open Lineage

variable {n : Nat}

/-- The invariant of a run with the history `g`. -/
structure Sound (g : Ghost n) (c : Cluster n) : Prop where
  votes : Votes g c
  logs : Logs g c
  commits : Commits g c

theorem Cluster.appendRequest_setAppend {c : Cluster n} {i j k : Fin n} {a : AppendCall}
    {args : AppendEntriesArgs} (h : (c.setAppend i j a).AppendRequest k args) :
    c.AppendRequest k args ∨ k = j ∧ a = .sent args := by
  rcases h with ⟨m, hm⟩ | hlate
  · rw [setAppend_apply] at hm
    split at hm
    · next hk => exact Or.inr ⟨hk.2, hm⟩
    · exact Or.inl (Or.inl ⟨m, hm⟩)
  · exact Or.inl (Or.inr hlate)

namespace Sound

variable {g : Ghost n} {c c' : Cluster n}

theorem start (peers : List String) (hp : peers.length = n) (x : Fin n) :
    Sound (Ghost.start x) (Cluster.start peers) :=
  ⟨Votes.start peers hp x, Logs.start peers x, Commits.start peers x⟩

theorem setLoop (h : Sound g c) {i : Fin n} {l : Loop} (hl : ∀ T v, l ≠ .counting T v)
    (hlead : (c.node i).state = .leader → l = .top ∨ l = .leader) : Sound g (c.setLoop i l) := by
  refine ⟨h.votes.setLoop hl hlead, h.logs.frame rfl h.logs.request ?_,
    h.commits.frame rfl rfl h.commits.request ?_⟩
  · exact fun k j args T v hs hc => ⟨hs, v, Votes.counting_of_setLoop hl hc⟩
  · exact fun k T v hc => ⟨v, Votes.counting_of_setLoop hl hc⟩

/-- Append calls end; no request is new. -/
theorem appends (h : Sound g c) (hnode : c'.node = c.node) (hloop : c'.loop = c.loop)
    (hvote : c'.vote = c.vote) (hlate : c'.lateVotes = c.lateVotes)
    (hemit : c'.emitted = c.emitted)
    (hreq : ∀ j args, c'.AppendRequest j args → c.AppendRequest j args) : Sound g c' := by
  refine ⟨h.votes.appends hnode hloop hvote hlate ?_, h.logs.frame hnode ?_ ?_,
    h.commits.frame hnode hemit ?_ ?_⟩
  · exact fun j args ha => h.votes.append_owner j args (hreq j args ha)
  · exact fun j args ha => h.logs.request j args (hreq j args ha)
  · exact fun k j args T v hs hc => ⟨hvote ▸ hs, v, hloop ▸ hc⟩
  · exact fun j args ha => h.commits.request j args (hreq j args ha)
  · exact fun k T v hc => ⟨v, hloop ▸ hc⟩

theorem endAppend (h : Sound g c) {i j : Fin n} {a : AppendCall} (ha : ∀ args, a ≠ .sent args) :
    Sound g (c.setAppend i j a) := by
  refine h.appends rfl rfl rfl rfl rfl fun k args hk => ?_
  rcases Cluster.appendRequest_setAppend hk with hk | ⟨-, hs⟩
  · exact hk
  · exact absurd hs (ha args)

/-- One node changes something other than its log and its commit index. -/
theorem quiet (h : Sound g c) {p : Fin n} {nd : Node} (hid : nd.id = (c.node p).id)
    (hpeers : nd.peers = (c.node p).peers) (hlog : nd.log = (c.node p).log)
    (hci : nd.commitIndex = (c.node p).commitIndex)
    (hla : nd.lastApplied = (c.node p).lastApplied)
    (hterm : (c.node p).currentTerm ≤ nd.currentTerm)
    (hlead : nd.state = .leader →
      (c.node p).state = .leader ∧ nd.currentTerm = (c.node p).currentTerm)
    (hcand : nd.state = .candidate → ∀ T v, c.loop p = .counting T v →
      (c.node p).state = .candidate ∧ nd.currentTerm = (c.node p).currentTerm)
    (hown : g.voted p nd.currentTerm p → g.owner nd.currentTerm = none → nd.votedFor = p) :
    Sound g (c.setNode p nd) := by
  refine ⟨h.votes.setNode ?_ ?_ hterm ?_ hown ?_, h.logs.setNode ?_ ?_ ?_,
    h.commits.setNode ?_ hla ?_ ?_ ?_⟩
  · rw [hid]
    exact h.votes.id p
  · rw [hpeers]
    exact h.votes.peers p
  · intro T v hc hst
    obtain ⟨hst', ht⟩ := hcand hst T v hc
    rw [ht]
    exact h.votes.counting_term p T v hc hst'
  · intro hst
    obtain ⟨hst', ht⟩ := hlead hst
    rw [ht]
    exact ⟨h.votes.leader p hst', h.votes.leader_loop p hst'⟩
  · rw [hlog]
    exact (h.logs.log p).mono (fun _ => List.prefix_refl _) hterm
  · intro hst
    obtain ⟨hst', ht⟩ := hlead hst
    rw [ht, hlog]
    exact h.logs.leader p hst'
  · exact fun T v hc hst => ⟨(hcand hst T v hc).1, hlog⟩
  · rw [hci, hlog]
    exact h.commits.commit p
  · rw [hla, hci]
    exact h.commits.applied p
  · rw [hlog]
    exact fun hp => hp
  · exact fun T v hc hst => (hcand hst T v hc).1

/-- A node steps down into a term in which it is nobody's candidate. -/
theorem becomeFollower (h : Sound g c) {p : Fin n} {term l : Int}
    (hfree : g.voted p ((c.node p).becomeFollowerLocked term).currentTerm p →
      g.owner ((c.node p).becomeFollowerLocked term).currentTerm ≠ none) :
    Sound g (c.setNode p { (c.node p).becomeFollowerLocked term with leaderID := l }) := by
  refine h.quiet rfl rfl rfl rfl rfl ?_ ?_ ?_ ?_
  · exact ((c.node p).becomeFollowerLocked_term term).1
  · simp [Node.becomeFollowerLocked]
  · simp [Node.becomeFollowerLocked]
  · exact fun hv ho => absurd ho (hfree hv)

theorem becomeFollower_of_lt (h : Sound g c) {p : Fin n} {term : Int}
    (hlt : (c.node p).currentTerm < term) :
    Sound g (c.setNode p ((c.node p).becomeFollowerLocked term)) := by
  refine h.becomeFollower (l := -1) fun hv => ?_
  rw [Node.becomeFollowerLocked_of_le hlt.le] at hv
  have := h.votes.voted_le p term p hv
  omega

theorem stand (h : Sound g c) {i : Fin n} {nd : Node} {args : RequestVoteArgs}
    (hl : c.loop i = .candidate) (hs : (c.node i).startElection = some (nd, args)) :
    Sound (g.vote i args.term i) { (c.setNode i nd).setLoop i (.counting args.term 1) with
      vote := Function.update c.vote i (Cluster.newVotes i args)
      lateVotes := c.lateVotes ++ c.unsentVotes i } := by
  obtain ⟨-, rfl, rfl⟩ := Node.startElection_cases hs
  have hnone : ∀ T v, c.loop i ≠ .counting T v := by simp [hl]
  have hfresh : ∀ k, ¬ g.voted k ((c.node i).currentTerm + 1) i := by
    intro k hv
    have := h.votes.voted_le i _ i (h.votes.voted_self k _ i hv)
    omega
  have hlead : (c.node i).state ≠ .leader := by
    intro hst
    have := h.votes.leader_loop i hst
    simp [hl] at this
  have hwf := h.logs.log i
  have hlogs : Logs (g.vote i ((c.node i).currentTerm + 1) i) (c.setNode i { c.node i with
      currentTerm := (c.node i).currentTerm + 1, votedFor := (c.node i).id, leaderID := -1 }) :=
    (h.logs.vote (by have := hwf.nonneg; omega)).setNode
      (hwf.mono (fun _ => List.prefix_refl _) (by simp)) (fun hst => absurd hst hlead)
      (fun T v hc => absurd hc (hnone T v))
  have hcommits : Commits (g.vote i ((c.node i).currentTerm + 1) i) (c.setNode i { c.node i with
      currentTerm := (c.node i).currentTerm + 1, votedFor := (c.node i).id, leaderID := -1 }) :=
    (h.commits.vote fun v hc => absurd hc (hnone _ v)).setNode (h.commits.commit i) rfl
      (h.commits.applied i) (fun hp => hp) (fun T v hc => absurd hc (hnone T v))
  refine ⟨h.votes.stand hl hs, { hlogs with candidacy := ?_ }, { hcommits with candidate := ?_ }⟩
  · intro k j args ha T v hc hst
    by_cases hk : k = i
    · subst hk
      simp only [Function.update_self, Cluster.newVotes] at ha
      split at ha
      · simp at ha
      · simp only [VoteCall.sent.injEq] at ha
        subst ha
        simp
    · refine hlogs.candidacy k j args ?_ T v ?_ hst
      · simpa [hk] using ha
      · simpa [hk] using hc
  · intro k T v hc hst hv hlt
    by_cases hk : k = i
    · subst hk
      simp only [Cluster.setLoop_same, Loop.counting.injEq] at hc
      rcases hv with hv | ⟨hcomm, -, -⟩
      · rw [← hc.1] at hv
        exact absurd hv (hfresh _)
      · have := h.commits.committer
        rw [show g.committer = k from hcomm] at this
        simpa [Ghost.vote] using this
    · exact hcommits.candidate k T v (by simpa [hk] using hc) hst hv hlt

/-- A vote request of the candidate `i` is handled by `j`; a granted vote goes on record. -/
theorem handleVote (h : Sound g c) {i j : Fin n} {args : RequestVoteArgs} {nd : Node}
    {reply : RequestVoteReply} (hij : i ≠ j) (hcand : args.candidateId = i)
    (hself : g.voted i args.term i)
    (hlog : ∀ v, c.loop i = .counting args.term v → (c.node i).state = .candidate →
      args.lastLogIndex = ((c.node i).log.length : Int) - 1 ∧
        args.lastLogTerm = lastTerm LogEntry.term (c.node i).log)
    (hh : (c.node j).handleRequestVote args = some (nd, reply)) :
    ∃ g', g ≤ g' ∧ Sound g' (c.setNode j nd) ∧
      (reply.voteGranted = true → g'.voted j args.term i) := by
  have hobs : (c.node j).currentTerm ≤ args.term →
      Sound g (c.setNode j ((c.node j).observe args.term)) := by
    intro hle
    unfold Node.observe
    split
    · next hlt => exact h.becomeFollower_of_lt hlt
    · rw [Cluster.setNode_self]
      exact h
  rcases Node.handleRequestVote_cases hh with ⟨rfl, hr⟩ | ⟨hle, ⟨rfl, hr⟩ | ⟨rfl, hr, hfor, -, hup⟩⟩
  · rw [Cluster.setNode_self]
    exact ⟨g, le_refl g, h, by simp [hr]⟩
  · exact ⟨g, le_refl g, hobs hle, by simp [hr]⟩
  · have hterm : ((c.node j).observe args.term).currentTerm = args.term := by
      unfold Node.observe
      split
      · exact Node.becomeFollowerLocked_of_le hle
      · omega
    have hfree : g.voted j args.term j → g.owner args.term ≠ none := by
      intro hv ho
      have hvote := (hobs hle).votes.own j args.term hv (by simpa using hterm) ho
      rw [Cluster.setNode_same] at hvote
      rw [hvote, hcand] at hfor
      omega
    have hset : Sound g ((c.setNode j ((c.node j).observe args.term)).setNode j
        { (c.node j).observe args.term with votedFor := args.candidateId }) := (hobs hle).quiet
      (by simp) (by simp) (by simp) (by simp) (by simp) (by simp) (by simp)
      (fun hst _ _ _ => by simpa using hst)
      (by
        rw [hterm]
        exact fun hv ho => absurd ho (hfree hv))
    rw [show (c.setNode j ((c.node j).observe args.term)).setNode j
        { (c.node j).observe args.term with votedFor := args.candidateId } =
        c.setNode j { (c.node j).observe args.term with votedFor := args.candidateId } by
      simp [Cluster.setNode]] at hset
    refine ⟨g.vote j args.term i, g.le_vote j args.term i, ⟨?_, ?_, ?_⟩,
      fun _ => Or.inr ⟨rfl, rfl, rfl⟩⟩
    · refine hset.votes.vote hij ?_ hself hfree
      simp [hterm]
    · exact hset.logs.vote (h.logs.voted_pos i _ i hself)
    · refine hset.commits.vote fun v hc hst hlt hp => ?_
      simp only [Cluster.setNode_same, Cluster.setNode_ne _ _ _ hij, Node.observe_log] at hst hp ⊢
      obtain ⟨hidx, hlast⟩ := hlog v hc hst
      exact h.commits.upToDate h.logs hup hidx hlast hp

theorem deliverVote (h : Sound g c) {i j : Fin n} {args : RequestVoteArgs} {nd : Node}
    {reply : RequestVoteReply} (hv : c.vote i j = .sent args)
    (hh : (c.node j).handleRequestVote args = some (nd, reply)) :
    ∃ g', g ≤ g' ∧ Sound g' ((c.setNode j nd).setVote i j (.answered reply)) ∧
      (reply.voteGranted = true → ∃ q : Fin n, args.candidateId = q ∧ g'.voted j args.term q) := by
  have hij : i ≠ j := by
    rintro rfl
    simp [h.votes.self_call i] at hv
  obtain ⟨hcand, hself⟩ := h.votes.request i j args hv
  obtain ⟨g', hle, hs, hgrant⟩ := h.handleVote hij hcand hself
    (fun v hc hst => h.logs.candidacy i j args hv args.term v hc hst) hh
  refine ⟨g', hle, ⟨hs.votes.answer hv ?_, hs.logs.frame rfl hs.logs.request ?_,
    hs.commits.frame rfl rfl hs.commits.request fun k T v hc => ⟨v, hc⟩⟩,
    fun hr => ⟨i, hcand, hgrant hr⟩⟩
  · intro hr T v hc
    rw [← h.votes.request_term i j args hv T v hc]
    exact hgrant hr
  · intro k m args' T v ha hc
    rw [Cluster.setVote_apply] at ha
    split at ha
    · simp at ha
    · exact ⟨ha, v, hc⟩

theorem deliverLateVote (h : Sound g c) {k : Nat} {j : Fin n} {args : RequestVoteArgs} {nd : Node}
    {reply : RequestVoteReply} (hv : c.lateVotes[k]? = some (j, args))
    (hh : (c.node j).handleRequestVote args = some (nd, reply)) :
    ∃ g', g ≤ g' ∧ Sound g' { c.setNode j nd with lateVotes := c.lateVotes.eraseIdx k } ∧
      (reply.voteGranted = true → ∃ q : Fin n, args.candidateId = q ∧ g'.voted j args.term q) := by
  obtain ⟨i, hij, hcand, hself, hlate⟩ := h.votes.late j args (List.mem_of_getElem? hv)
  obtain ⟨g', hle, hs, hgrant⟩ := h.handleVote hij hcand hself
    (fun v hc _ => absurd (hlate _ v hc) (lt_irrefl _)) hh
  exact ⟨g', hle, ⟨hs.votes.eraseLate k,
    hs.logs.frame rfl hs.logs.request fun i j args T v ha hc => ⟨ha, v, hc⟩,
    hs.commits.frame rfl rfl hs.commits.request fun i T v hc => ⟨v, hc⟩⟩,
    fun hr => ⟨i, hcand, hgrant hr⟩⟩

theorem tally (h : Sound g c) {i j : Fin n} {T v : Int} {r : RequestVoteReply}
    (hl : c.loop i = .counting T v) (hv : c.vote i j = .answered r) :
    Sound g ((c.setVote i j (.counted r)).setLoop i
      (.counting T (v + (if r.voteGranted then 1 else 0)))) := by
  refine ⟨h.votes.tally hl hv, h.logs.frame rfl h.logs.request ?_,
    h.commits.frame rfl rfl h.commits.request fun _ _ _ hc => Votes.counting_of_tally hl hc⟩
  intro k m args T' v' ha hc
  rw [Cluster.setLoop_vote, Cluster.setVote_apply] at ha
  split at ha
  · simp at ha
  · exact ⟨ha, Votes.counting_of_tally hl hc⟩

theorem closeTally (h : Sound g c) {i j : Fin n} {T v : Int} {r : RequestVoteReply}
    (hl : c.loop i = .counting T v) (hv : c.vote i j = .answered r) :
    Sound g ((c.setVote i j (.counted r)).setLoop i .top) := by
  have := (h.tally hl hv).setLoop (i := i) (l := .top) (by simp) fun _ => Or.inl rfl
  simpa [Cluster.setLoop] using this

/-- Up to three nodes, a candidate that has the votes it needs has those of the whole cluster, and
no other node leads its term. -/
theorem unanimous (hn : n ≤ 3) (h : Sound g c) {i j : Fin n} {T v : Int} {r : RequestVoteReply}
    (hl : c.loop i = .counting T v) (hv : c.vote i j = .answered r)
    (hneed : (c.node i).votesNeeded ≤ v + (if r.voteGranted then 1 else 0)) :
    (∀ k, g.voted k T i) ∧ g.owner T = none := by
  have hall : n ≤ v + (if r.voteGranted then 1 else 0) := by
    refine le_trans ?_ hneed
    rw [Node.votesNeeded, h.votes.peers i]
    omega
  exact (h.votes.tally hl hv).unanimous (Cluster.setLoop_same _ _ _) hall

/-- A candidate with the votes of the whole cluster becomes the leader of its term. -/
theorem win (hn : n ≤ 3) (h : Sound g c) {i j : Fin n} {T v : Int} {r : RequestVoteReply}
    (hl : c.loop i = .counting T v) (hv : c.vote i j = .answered r)
    (hneed : (c.node i).votesNeeded ≤ v + (if r.voteGranted then 1 else 0))
    (hstate : (c.node i).state = .candidate) (hterm : (c.node i).currentTerm = T) :
    ∃ g', g ≤ g' ∧ Sound g' (((c.setNode i (c.node i).becomeLeaderLocked).setVote i j
      (.counted r)).setLoop i .top) := by
  obtain ⟨hvoted, hnone⟩ := h.unanimous hn hl hv hneed
  have hpos := h.logs.voted_pos i T i (hvoted i)
  have hnil : g.leaderLog T = [] := by
    by_contra hne
    rcases h.logs.owned T hne with h0 | ho
    · omega
    · exact ho hnone
  have hnot : ∀ k, (c.node k).state = .leader → (c.node k).currentTerm ≠ T := by
    intro k hk heq
    have := h.votes.leader k hk
    rw [heq, hnone] at this
    simp at this
  have hs := h.closeTally hl hv
  have hs' : Sound (g.elect i T (c.node i).log) ((c.setVote i j (.counted r)).setLoop i .top) := by
    have hc := h.commits.elect h.logs hl hstate hvoted hnil
    refine ⟨hs.votes.elect (i := i) (by simp) hvoted hnone, hs.logs.elect hterm hnil hpos hnot,
      hc.frame rfl rfl hc.request fun k T' v' hk => ⟨v', ?_⟩⟩
    by_cases hki : k = i
    · subst hki
      simp at hk
    · simpa [hki] using hk
  have hown : (g.elect i T (c.node i).log).owner T = some i := by simp [Ghost.elect]
  refine ⟨g.elect i T (c.node i).log, Ghost.le_elect hnone hnil, ?_⟩
  change Sound _ (((c.setVote i j (.counted r)).setLoop i .top).setNode i
    (c.node i).becomeLeaderLocked)
  refine ⟨hs'.votes.setNode ?_ ?_ le_rfl ?_ ?_ ?_, hs'.logs.setNode ?_ ?_ ?_,
    hs'.commits.setNode ?_ rfl ?_ ?_ ?_⟩
  · exact h.votes.id i
  · exact h.votes.peers i
  · simp
  · intro _ ho
    rw [show ((c.node i).becomeLeaderLocked).currentTerm = T from hterm, hown] at ho
    simp at ho
  · intro _
    rw [show ((c.node i).becomeLeaderLocked).currentTerm = T from hterm]
    exact ⟨hown, by simp⟩
  · exact hs'.logs.log i
  · intro _
    rw [show ((c.node i).becomeLeaderLocked).currentTerm = T from hterm]
    simp [Ghost.elect, Node.becomeLeaderLocked]
  · simp
  · exact hs'.commits.commit i
  · exact hs'.commits.applied i
  · exact fun hp => hp
  · simp

theorem submit (h : Sound g c) {i : Fin n} {cmd : Command} {nd : Node} {index term : Int}
    (hs : (c.node i).submit cmd = some (nd, index, term)) :
    ∃ g', g ≤ g' ∧ Sound g' (c.setNode i nd) := by
  obtain ⟨hlead, -, -, rfl⟩ := Node.submit_cases hs
  have hL := h.logs.leader i hlead
  have hne : g.leaderLog (c.node i).currentTerm ≠ [] := by
    rw [hL]
    exact (h.logs.log i).ne_nil
  have hci := h.commits.commit i
  refine ⟨_, g.le_extend (c.node i).currentTerm
    ⟨(c.node i).currentTerm, (c.node i).log.length, cmd⟩, ?_, ?_, ?_⟩
  · have hv : Votes (g.extend (c.node i).currentTerm
        ⟨(c.node i).currentTerm, (c.node i).log.length, cmd⟩) c := { h.votes with }
    refine hv.setNode (hv.id i) (hv.peers i) le_rfl ?_ ?_ ?_
    · exact hv.counting_term i
    · exact fun hself ho => hv.own i _ hself rfl ho
    · exact fun _ => ⟨hv.leader i hlead, hv.leader_loop i hlead⟩
  · exact h.logs.extend h.votes hlead rfl rfl rfl rfl rfl hlead
  · refine (h.commits.extend h.logs hne).setNode ?_ rfl (h.commits.applied i) ?_ ?_
    · refine ⟨?_, ?_⟩
      · rw [List.length_append]
        exact Nat.lt_add_right _ hci.1
      · rw [List.take_append_of_le_length hci.1]
        exact hci.2
    · exact fun hp => hp.trans (List.prefix_append _ _)
    · exact fun _ _ _ hst => hst

theorem replicate (h : Sound g c) {i j : Fin n} {args : AppendEntriesArgs}
    (ha : (c.node i).replicateArgs j = some args) : Sound g (c.setAppend i j (.sent args)) := by
  obtain ⟨hlead, k, hk, rfl⟩ := Node.replicateArgs_cases ha
  have hL := h.logs.leader i hlead
  obtain ⟨hci, hp⟩ := h.commits.commit i
  refine ⟨h.votes.appends rfl rfl rfl rfl ?_, h.logs.frame rfl ?_ ?_, h.commits.frame rfl rfl ?_ ?_⟩
  · intro m args' hreq
    rcases Cluster.appendRequest_setAppend hreq with hold | ⟨-, hs⟩
    · exact h.votes.append_owner m args' hold
    · simp only [AppendCall.sent.injEq] at hs
      rw [← hs, h.votes.leader i hlead]
      simp
  · intro m args' hreq
    rcases Cluster.appendRequest_setAppend hreq with hold | ⟨-, hs⟩
    · exact h.logs.request m args' hold
    · simp only [AppendCall.sent.injEq] at hs
      subst hs
      refine ⟨k, rfl, ⟨by simpa [hL] using hk, ?_⟩, ?_⟩
      · simp only [hL]
      · simp only [hL, List.prefix_refl]
  · exact fun _ _ _ T v hs hc => ⟨hs, v, hc⟩
  · intro m args' hreq
    rcases Cluster.appendRequest_setAppend hreq with hold | ⟨-, hs⟩
    · exact h.commits.request m args' hold
    · simp only [AppendCall.sent.injEq] at hs
      subst hs
      refine ⟨?_, ?_⟩
      · simp only [List.length_drop]
        omega
      · simpa [hL] using hp
  · exact fun _ T v hc => ⟨v, hc⟩

/-- An accepted request keeps what the node has committed. -/
theorem keeps_commit (h : Sound g c) {j : Fin n} {args : AppendEntriesArgs} {log : List LogEntry}
    (hreq : c.AppendRequest j args) (hle : (c.node j).currentTerm ≤ args.term)
    (hkeep : ∀ p, p <+: (c.node j).log → p <+: g.leaderLog args.term → p <+: log) :
    g.committed <+: g.leaderLog args.term ∧
      (c.node j).log.take ((c.node j).commitIndex + 1) <+: log := by
  obtain ⟨k, -, ⟨hk, -⟩, -⟩ := h.logs.request j args hreq
  have hL : g.committed <+: g.leaderLog args.term :=
    h.commits.later _ ((h.commits.lastTerm_le h.votes h.logs j).trans hle)
      (List.ne_nil_of_length_pos (by omega))
  exact ⟨hL, hkeep _ (List.take_prefix _ _) ((h.commits.commit j).2.trans hL)⟩

/-- Where an accepted request leaves the commit index: no lower, within what is committed, and if it
has moved, within the reach of the request, where the log is that of the request's term. -/
theorem accepted (h : Sound g c) {j : Fin n} {args : AppendEntriesArgs} {log : List LogEntry}
    (hreq : c.AppendRequest j args) (hle : (c.node j).currentTerm ≤ args.term)
    (hloop : Node.appendLoop (c.node j).log (args.prevLogIndex + 1) args.entries = some log)
    (hprev : 0 ≤ args.prevLogIndex → args.prevLogIndex < (c.node j).log.length ∧
      (logAt (c.node j).log args.prevLogIndex).map LogEntry.term = some args.prevLogTerm)
    {ci : Nat} (hci : ci = (c.node j).commitTo log args.leaderCommit) :
    ci < log.length ∧ log.take (ci + 1) <+: g.committed ∧ (c.node j).commitIndex ≤ ci ∧
      ((c.node j).commitIndex < ci → ci ≤ args.prevLogIndex + args.entries.length ∧
        log.take (ci + 1) = (g.leaderLog args.term).take (ci + 1)) := by
  obtain ⟨⟨k, hk, hlen, hpiece⟩, hkeep, -⟩ := h.logs.accept hreq hle hloop hprev
  obtain ⟨-, hold⟩ := h.keeps_commit hreq hle hkeep
  obtain ⟨hlt, hp⟩ := h.commits.commit j
  obtain ⟨hlc, hpc⟩ := h.commits.request j args hreq
  have hfit := hpiece.length_le
  rw [List.length_take] at hfit
  have holdlen := hold.length_le
  rw [List.length_take] at holdlen
  unfold Node.commitTo at hci
  split at hci
  · next hgt =>
    have hmin : ci = args.leaderCommit.toNat := by omega
    have htake : log.take (ci + 1) = (g.leaderLog args.term).take (ci + 1) := by
      rw [take_prefix_eq hpiece (by rw [List.length_take]; omega), List.take_take,
        min_eq_left (by omega)]
    refine ⟨by omega, ?_, by omega, fun _ => ⟨by omega, htake⟩⟩
    rw [htake, hmin]
    exact hpc
  · subst hci
    refine ⟨by omega, ?_, le_rfl, fun hmoved => absurd hmoved (lt_irrefl _)⟩
    rw [take_prefix_eq hold (by rw [List.length_take]; omega), List.take_take, min_self]
    exact hp

/-- An append request is handled: the node follows the leader of its term, and an accepted piece of
that leader's log changes nothing that is committed. -/
theorem handleAppend (h : Sound g c) {j : Fin n} {args : AppendEntriesArgs} {nd : Node}
    {reply : AppendEntriesReply} (hreq : c.AppendRequest j args)
    (hh : (c.node j).handleAppendEntries args = some (nd, reply)) :
    Sound g (c.setNode j nd) := by
  have hown := h.votes.append_owner j args hreq
  rcases Node.handleAppendEntries_cases hh with ⟨-, rfl, -⟩ | ⟨hle, ⟨rfl, -⟩ | hacc⟩
  · rw [Cluster.setNode_self]
    exact h
  · refine h.becomeFollower fun _ => ?_
    rw [Node.becomeFollowerLocked_of_le hle]
    exact hown
  · obtain ⟨log, hloop, rfl, -, hprev⟩ := hacc
    obtain ⟨-, hkeep, hwf⟩ := h.logs.accept hreq hle hloop hprev
    have hterm : ((c.node j).follow args).currentTerm = args.term :=
      Node.becomeFollowerLocked_of_le hle
    obtain ⟨hL, -⟩ := h.keeps_commit hreq hle hkeep
    obtain ⟨hlt, hcommit, hup, -⟩ := h.accepted hreq hle hloop hprev rfl
    refine ⟨h.votes.setNode (h.votes.id j) (h.votes.peers j) (hterm ▸ hle) ?_ ?_ ?_,
      h.logs.setNode ?_ ?_ ?_,
      h.commits.setNode ⟨hlt, hcommit⟩ rfl ((h.commits.applied j).trans hup)
        (fun hpj => hkeep _ hpj hL) ?_⟩
    · simp [Node.follow, Node.becomeFollowerLocked]
    · exact fun _ ho => absurd (hterm ▸ ho) hown
    · simp [Node.follow, Node.becomeFollowerLocked]
    · exact hterm ▸ hwf
    · simp [Node.follow, Node.becomeFollowerLocked]
    · simp [Node.follow, Node.becomeFollowerLocked]
    · simp [Node.follow, Node.becomeFollowerLocked]

/-- The leader moves its commit index to an entry of its own term. -/
theorem advance (h : Sound g c) {i : Fin n} {N : Nat} (hlead : (c.node i).state = .leader)
    (hlt : (c.node i).commitIndex < N)
    (hN : (c.node i).log[N]?.map LogEntry.term = some (c.node i).currentTerm) :
    ∃ g', g ≤ g' ∧ Sound g' (c.setNode i { c.node i with commitIndex := N }) := by
  have hlen : N < (c.node i).log.length := by
    obtain ⟨e, he, -⟩ := Option.map_eq_some_iff.mp hN
    exact (List.getElem?_eq_some_iff.mp he).1
  have hcase : ∃ g', g ≤ g' ∧ Sound g' c ∧ (c.node i).log.take (N + 1) <+: g'.committed := by
    have hC := h.commits.leader h.votes h.logs hlead
    rcases Nat.le_total (N + 1) g.committed.length with hle | hle
    · refine ⟨g, le_refl g, h, prefix_of_length_le (List.take_prefix _ _) hC ?_⟩
      rw [List.length_take]
      omega
    · have hp : g.committed <+: (c.node i).log.take (N + 1) := prefix_take hC hle
      exact ⟨_, Ghost.le_commit hp, ⟨{ h.votes with }, { h.logs with },
        h.commits.advance h.votes h.logs hlead hN hp⟩, List.prefix_refl _⟩
  obtain ⟨g', hg, hs, hp⟩ := hcase
  refine ⟨g', hg, hs.votes.setNode (hs.votes.id i) (hs.votes.peers i) le_rfl ?_ ?_ ?_,
    hs.logs.setNode (hs.logs.log i) (hs.logs.leader i) fun _ _ _ hst => ⟨hst, rfl⟩,
    hs.commits.setNode ⟨hlen, hp⟩ rfl ?_ (fun hp => hp) fun _ _ _ hst => hst⟩
  · exact hs.votes.counting_term i
  · exact fun hv ho => hs.votes.own i _ hv rfl ho
  · exact fun _ => ⟨hs.votes.leader i hlead, hs.votes.leader_loop i hlead⟩
  · exact (hs.commits.applied i).trans hlt.le

/-- A reply reaches the replication worker. -/
theorem handleReply (h : Sound g c) (i : Fin n) (peer : Int) (args : AppendEntriesArgs)
    (reply : AppendEntriesReply) :
    ∃ g', g ≤ g' ∧ Sound g' (c.setNode i ((c.node i).replicateReply peer args reply).1) := by
  have hsame : ∀ next mtch, Sound g (c.setNode i
      { c.node i with nextIndex := next, matchIndex := mtch }) := by
    intro next mtch
    refine h.quiet rfl rfl rfl rfl rfl le_rfl (fun hst => ⟨hst, rfl⟩) ?_ ?_
    · exact fun hst _ _ _ => ⟨hst, rfl⟩
    · exact fun hv ho => h.votes.own i _ hv rfl ho
  rcases (c.node i).replicateReply_cases peer args reply with
    ⟨hlt, he⟩ | he | ⟨hlead, -, ⟨-, -, he⟩ | ⟨-, -, he⟩⟩
  · rw [he]
    exact ⟨g, le_refl g, h.becomeFollower_of_lt hlt⟩
  · rw [he, Cluster.setNode_self]
    exact ⟨g, le_refl g, h⟩
  · rw [he]
    have hm := hsame (Function.update (c.node i).nextIndex peer
      (args.prevLogIndex + args.entries.length + 1)) (Function.update (c.node i).matchIndex peer
      (args.prevLogIndex + args.entries.length))
    rcases Node.tryAdvanceCommitIndexLocked_cases ((c.node i).matchPeer peer
      (args.prevLogIndex + args.entries.length)) with ha | ⟨N, hlt, hN, -, ha⟩
    · rw [ha]
      exact ⟨g, le_refl g, hm⟩
    · rw [ha]
      obtain ⟨g', hg, hs⟩ := hm.advance (i := i) (N := N) (by simpa using hlead)
        (by simpa [Node.matchPeer] using hlt) (by simpa [Node.matchPeer] using hN)
      exact ⟨g', hg, by simpa [Cluster.setNode, Node.matchPeer] using hs⟩
  · rw [he]
    exact ⟨g, le_refl g, hsame _ _⟩

theorem apply (h : Sound g c) {i : Fin n} {nd : Node} {msg : ApplyMsg}
    (ha : (c.node i).applyNext = some (nd, msg)) :
    Sound g { c.setNode i nd with
      emitted := Function.update c.emitted i (c.emitted i ++ [msg]) } := by
  have hcommits := h.commits.apply ha
  obtain ⟨-, rfl, -⟩ := Node.applyNext_cases ha
  have hv : Votes g (c.setNode i
      { c.node i with lastApplied := (c.node i).lastApplied + 1 }) := by
    refine h.votes.setNode (h.votes.id i) (h.votes.peers i) le_rfl ?_ ?_ ?_
    · exact h.votes.counting_term i
    · exact fun hv ho => h.votes.own i _ hv rfl ho
    · exact fun hst => ⟨h.votes.leader i hst, h.votes.leader_loop i hst⟩
  have hl : Logs g (c.setNode i
      { c.node i with lastApplied := (c.node i).lastApplied + 1 }) :=
    h.logs.setNode (h.logs.log i) (h.logs.leader i) fun _ _ _ hst => ⟨hst, rfl⟩
  exact ⟨hv.appends rfl rfl rfl rfl hv.append_owner,
    hl.frame rfl hl.request fun _ _ _ T v hs hc => ⟨hs, v, hc⟩, hcommits⟩

/-- Every step keeps the invariant, for a history that only grows. -/
theorem move (hn : n ≤ 3) {a : Action n} (h : Sound g c) (hm : Cluster.Step c a c') :
    ∃ g', g ≤ g' ∧ Sound g' c' := by
  cases hm with
  | leaderStays => exact ⟨g, le_refl g, h⟩
  | readState =>
    exact ⟨g, le_refl g, h.setLoop (Cluster.loopOf_ne _) fun hs => by simp [hs, Cluster.loopOf]⟩
  | wakeFollower | abandonElection | leaderReturns =>
    exact ⟨g, le_refl g, h.setLoop (by simp) fun _ => Or.inl rfl⟩
  | @electionTimeout i =>
    have hs := h.setLoop (i := i) (l := .top) (by simp) fun _ => Or.inl rfl
    refine ⟨g, le_refl g, ?_⟩
    change Sound g ((c.setLoop i .top).setNode i (c.node i).electionTimeout)
    refine hs.quiet rfl rfl rfl rfl rfl le_rfl ?_ ?_ ?_
    · simp [Node.electionTimeout]
    · simp
    · exact fun hv ho => h.votes.own i _ hv rfl ho
  | startElection hl hs => exact ⟨_, g.le_vote _ _ _, h.stand hl hs⟩
  | @stepDown i j T v r hl hv ht =>
    have hs := h.closeTally hl hv
    refine ⟨g, le_refl g, hs.becomeFollower (p := i) (l := -1) fun hvoted => ?_⟩
    have hle := h.votes.counting_last i T v hl _ hvoted
    have := ((c.node i).becomeFollowerLocked_term r.term).2.1
    change ((c.node i).becomeFollowerLocked r.term).currentTerm ≤ T at hle
    omega
  | win hl hv hneed hstate hterm => exact h.win hn hl hv hneed hstate hterm
  | tally hl hv => exact ⟨g, le_refl g, h.tally hl hv⟩
  | deliverVote hv hh =>
    obtain ⟨g', hg, hs, -⟩ := h.deliverVote hv hh
    exact ⟨g', hg, hs⟩
  | deliverLateVote hv hh =>
    obtain ⟨g', hg, hs, -⟩ := h.deliverLateVote hv hh
    exact ⟨g', hg, hs⟩
  | submit hs => exact h.submit hs
  | replicate _ ha => exact ⟨g, le_refl g, h.replicate ha⟩
  | @deliverAppend i j args nd reply ha hh =>
    exact ⟨g, le_refl g, (h.handleAppend (Or.inl ⟨i, ha⟩) hh).endAppend (by simp)⟩
  | deliverLateAppend ha hh =>
    refine ⟨g, le_refl g, (h.handleAppend (Or.inr (List.mem_of_getElem? ha)) hh).appends
      rfl rfl rfl rfl rfl fun k args hk => ?_⟩
    exact hk.imp_right List.mem_of_mem_eraseIdx
  | @finishAppend i j args reply ha =>
    obtain ⟨g', hg, hs⟩ := h.handleReply i j args reply
    exact ⟨g', hg, hs.endAppend (by simp)⟩
  | @loseRequest i j args ha =>
    refine ⟨g, le_refl g, h.appends rfl rfl rfl rfl rfl fun k args' hk => ?_⟩
    rcases hk with ⟨m, hm⟩ | hm
    · rcases Cluster.appendRequest_setAppend (Or.inl ⟨m, hm⟩) with hold | ⟨-, hs⟩
      · exact hold
      · simp at hs
    · rcases List.mem_append.mp hm with hold | hnew
      · exact Or.inr hold
      · simp only [List.mem_singleton, Prod.mk.injEq] at hnew
        exact Or.inl ⟨i, by rw [hnew.1, hnew.2]; exact ha⟩
  | loseReply => exact ⟨g, le_refl g, h.endAppend (by simp)⟩
  | apply ha => exact ⟨g, le_refl g, h.apply ha⟩

theorem step (hn : n ≤ 3) (h : Sound g c) {a : Action n} (hstep : c.step a = some c') :
    ∃ g', g ≤ g' ∧ Sound g' c' :=
  h.move hn (.of_step hstep)

theorem of_reachable (hn : n ≤ 3) (x : Fin n) (h : (cluster n).Reachable c) :
    ∃ g, Sound g c := by
  refine h.ghost (fun s hi => ?_) fun _ _ _ _ hs hstep => hs.step hn hstep
  obtain ⟨peers, hp, rfl⟩ := hi
  exact ⟨Ghost.start x, start peers hp x⟩

theorem of_leads (hn : n ≤ 3) (h : Sound g c) (hl : (cluster n).Leads c c') :
    ∃ g', g ≤ g' ∧ Sound g' c' :=
  hl.ghost (fun _ _ _ _ hs hstep => hs.step hn hstep) h

/-- A node has emitted one message for each entry that it has applied. -/
theorem length_emitted (h : Sound g c) (i : Fin n) :
    (c.emitted i).length = (c.node i).lastApplied := by
  have happ := h.commits.applied i
  have hlen := h.commits.length_le i
  rw [h.commits.emitted i, List.length_map, List.length_tail, List.length_take]
  omega

theorem emitted_lt_committed (h : Sound g c) (i : Fin n) :
    (c.emitted i).length < g.committed.length := by
  have happ := h.commits.applied i
  have hlen := h.commits.length_le i
  rw [h.length_emitted i]
  omega

/-- The message that a node emits at position `k` is made of the committed entry at `k + 1`. -/
theorem emitted_getElem (h : Sound g c) (i : Fin n) {k : Nat} (hk : k < (c.emitted i).length) :
    ∃ hc : k + 1 < g.committed.length, (c.emitted i)[k] = g.committed[k + 1].toMsg := by
  have he := h.commits.emitted i
  have hlen := h.emitted_lt_committed i
  refine ⟨by omega, ?_⟩
  simp only [he, List.getElem_map, List.getElem_tail, List.getElem_take]

end Sound

/-- State machine safety: what any two nodes have sent to their apply channels is comparable by
prefix, and the messages of a node are numbered from 1 without gaps. -/
theorem emitted_comparable {c : Cluster 3} (h : (cluster 3).Reachable c) :
    (∀ i j, c.emitted i <+: c.emitted j ∨ c.emitted j <+: c.emitted i) ∧
      ∀ i k (hk : k < (c.emitted i).length), (c.emitted i)[k].index = k + 1 := by
  obtain ⟨g, hs⟩ := Sound.of_reachable le_rfl 0 h
  refine ⟨?_, ?_⟩
  · intro i j
    rw [hs.commits.emitted i, hs.commits.emitted j]
    have hmono : ∀ a b : Nat, a ≤ b →
        ((g.committed.take (a + 1)).tail.map LogEntry.toMsg) <+:
          ((g.committed.take (b + 1)).tail.map LogEntry.toMsg) := by
      intro a b hab
      obtain ⟨e, rest, hC⟩ := List.exists_cons_of_ne_nil hs.commits.ne_nil
      rw [hC]
      exact (List.take_prefix_take_left hab).map LogEntry.toMsg
    rcases Nat.le_total (c.node i).lastApplied (c.node j).lastApplied with hle | hle
    · exact Or.inl (hmono _ _ hle)
    · exact Or.inr (hmono _ _ hle)
  · intro i k hk
    obtain ⟨hlen, he⟩ := hs.emitted_getElem i hk
    rw [he]
    exact (hs.commits.wellFormed hs.logs).index (k + 1) hlen

/-- Node 0 is elected by all, a command is replicated to node 1, committed, and applied by both. -/
def oneCommand : List (Action 3) :=
  [.readState 0, .electionTimeout 0, .readState 0, .startElection 0, .deliverVote 0 1,
    .deliverVote 0 2, .countVote 0 1, .countVote 0 2,
    .submit 0 { type := .put, key := [107], value := [118] },
    .replicate 0 1, .deliverAppend 0 1, .finishAppend 0 1, .apply 0,
    .replicate 0 1, .deliverAppend 0 1, .apply 1]

theorem emitted_comparable_oneCommand :
    ∃ c, (cluster 3).exec (Cluster.start ["a", "b", "c"]) oneCommand = some c ∧
      (c.emitted 0).length = 1 ∧ (c.emitted 1).length = 1 ∧
      (c.emitted 0 <+: c.emitted 1 ∨ c.emitted 1 <+: c.emitted 0) := by
  have hrun : ((cluster 3).exec (Cluster.start ["a", "b", "c"]) oneCommand).map
      (fun c => ((c.emitted 0).length, (c.emitted 1).length)) = some (1, 1) := by decide +kernel
  obtain ⟨c, hc, hlen⟩ := Option.map_eq_some_iff.mp hrun
  rw [Prod.mk.injEq] at hlen
  exact ⟨c, hc, hlen.1, hlen.2,
    (emitted_comparable ⟨_, _, ⟨["a", "b", "c"], rfl, rfl⟩, hc⟩).1 0 1⟩

/-- Leader completeness: an entry that a leader of term `T` holds at or below its commit index is in
the log of every leader of a later term, whichever of the two states of the run comes first. -/
theorem leader_complete {c c' : Cluster 3} (h : (cluster 3).Reachable c)
    (h' : (cluster 3).Reachable c') (hrun : (cluster 3).Leads c c' ∨ (cluster 3).Leads c' c)
    {a b : Fin 3} (_ha : (c.node a).state = .leader) (hb : (c'.node b).state = .leader)
    (hterm : (c.node a).currentTerm < (c'.node b).currentTerm) {i : Nat} {e : LogEntry}
    (hi : i ≤ (c.node a).commitIndex) (he : (c.node a).log[i]? = some e) :
    (c'.node b).log[i]? = some e := by
  rcases hrun with hl | hl
  · obtain ⟨g, hs⟩ := Sound.of_reachable le_rfl 0 h
    obtain ⟨g', hg, hs'⟩ := hs.of_leads le_rfl hl
    obtain ⟨hlen, rfl⟩ := List.getElem?_eq_some_iff.mp he
    have hp : (c.node a).log.take ((c.node a).commitIndex + 1) <+: (c'.node b).log :=
      ((hs.commits.commit a).2.trans hg.2.2.2).trans (hs'.commits.leader hs'.votes hs'.logs hb)
    have hi' : i < ((c.node a).log.take ((c.node a).commitIndex + 1)).length := by
      rw [List.length_take]
      omega
    rw [List.getElem?_eq_getElem (lt_of_lt_of_le hi' hp.length_le), getElem_prefix_eq hp hi',
      List.getElem_take]
  · obtain ⟨g', hs'⟩ := Sound.of_reachable le_rfl 0 h'
    obtain ⟨g, hg, hs⟩ := hs'.of_leads le_rfl hl
    have howner := hg.2.1 _ _ (hs'.votes.leader b hb)
    have hle := hs.votes.voted_le a _ b (hs.votes.owner_voted _ b howner a)
    omega

/-- After `oneCommand`, node 1 is elected in term 2. -/
def secondElection : List (Action 3) :=
  [.readState 1, .electionTimeout 1, .readState 1, .startElection 1, .deliverVote 1 0,
    .deliverVote 1 2, .countVote 1 0, .countVote 1 2]

theorem leader_complete_secondElection :
    ∃ c c', (cluster 3).exec (Cluster.start ["a", "b", "c"]) oneCommand = some c ∧
      (cluster 3).exec c secondElection = some c' ∧ (c.node 0).commitIndex = 1 ∧
      (c'.node 1).log[1]? = some ⟨1, 1, ⟨.put, [107], [118]⟩⟩ := by
  have hrun : (((cluster 3).exec (Cluster.start ["a", "b", "c"]) oneCommand).bind fun c =>
      ((cluster 3).exec c secondElection).map fun c' =>
        decide ((c.node 0).state = .leader ∧ (c'.node 1).state = .leader ∧
          (c.node 0).currentTerm < (c'.node 1).currentTerm ∧ (c.node 0).commitIndex = 1 ∧
          (c.node 0).log[1]? = some ⟨1, 1, ⟨.put, [107], [118]⟩⟩)) = some true := by
    decide +kernel
  simp only [Option.bind_eq_some_iff, Option.map_eq_some_iff, decide_eq_true_eq] at hrun
  obtain ⟨c, hc, c', hc', ha, hb, hterm, hci, he⟩ := hrun
  have hreach : (cluster 3).Reachable c := ⟨_, _, ⟨["a", "b", "c"], rfl, rfl⟩, hc⟩
  exact ⟨c, c', hc, hc', hci,
    leader_complete hreach (hreach.leads ⟨_, hc'⟩) (Or.inl ⟨_, hc'⟩) ha hb hterm hci.ge he⟩

/-- Log matching, with what every single log satisfies. -/
theorem log_matching {c : Cluster 3} (h : (cluster 3).Reachable c) :
    (∀ i, (c.node i).log[0]? = some sentinel) ∧
      (∀ i k (hk : k < (c.node i).log.length), (c.node i).log[k].index = k) ∧
      (∀ i, (c.node i).log.Pairwise fun a b => a.term ≤ b.term) ∧
      (∀ i, ∀ e ∈ (c.node i).log, e.term ≤ (c.node i).currentTerm) ∧
      ∀ i j k (hi : k < (c.node i).log.length) (hj : k < (c.node j).log.length),
        (c.node i).log[k].term = (c.node j).log[k].term →
          ∀ m ≤ k, (c.node i).log[m]? = (c.node j).log[m]? := by
  obtain ⟨g, hs⟩ := Sound.of_reachable le_rfl 0 h
  have hwf := hs.logs.log
  refine ⟨?_, fun i => (hwf i).index, fun i => (hwf i).sorted, fun i => (hwf i).term_le, ?_⟩
  · intro i
    rw [← List.head?_eq_getElem?]
    exact (hwf i).head
  · intro i j k hi hj ht m hm
    have hagree := (hwf i).traced.agree (hwf j).traced hi hj ht
    have hget := congrArg (fun l : List LogEntry => l[m]?) hagree
    simpa [List.getElem?_take, show m < k + 1 by omega] using hget

theorem log_matching_secondElection :
    ∃ c, (cluster 3).exec (Cluster.start ["a", "b", "c"]) (oneCommand ++ secondElection) = some c ∧
      (c.node 0).log.length = 2 ∧ (c.node 1).log.length = 2 ∧
      ∀ m ≤ 1, (c.node 0).log[m]? = (c.node 1).log[m]? := by
  have hrun : ((cluster 3).exec (Cluster.start ["a", "b", "c"])
      (oneCommand ++ secondElection)).map (fun c => decide ((c.node 0).log.length = 2 ∧
        (c.node 1).log.length = 2 ∧
        (c.node 0).log[1]?.map LogEntry.term = (c.node 1).log[1]?.map LogEntry.term)) =
      some true := by
    decide +kernel
  simp only [Option.map_eq_some_iff, decide_eq_true_eq] at hrun
  obtain ⟨c, hc, h₀, h₁, ht⟩ := hrun
  refine ⟨c, hc, h₀, h₁, ?_⟩
  refine (log_matching ⟨_, _, ⟨["a", "b", "c"], rfl, rfl⟩, hc⟩).2.2.2.2 0 1 1 (by omega)
    (by omega) ?_
  simpa [List.getElem?_eq_getElem, h₀, h₁] using ht

end KvRaft.Raft
