import KvRaft.Raft.Cluster

/-! What the `AppendEntries` of one leader do to a follower whose log matches the leader's: an
accepted request leaves a log that begins with the leader's up to the last entry of the request,
whatever came before it, and the worker that backs up by one entry after each refusal ends with the
two logs in agreement. -/

namespace KvRaft.Raft

open Lineage

variable {nd nd' : Node} {args : AppendEntriesArgs} {T : Int} {L : List LogEntry} {p q k : Nat}

namespace Node

/-- The node once it has accepted a request that leaves it with `log`. -/
def accept (nd : Node) (args : AppendEntriesArgs) (log : List LogEntry) (commitIndex : Nat) :
    Node :=
  { nd.follow args with log := log, commitIndex := commitIndex }

section Handle

variable (hterm : nd.currentTerm ≤ args.term) (hprev : args.prevLogIndex = p)

include hterm hprev

/-- A request of no older term is refused where the terms differ. -/
theorem handleAppendEntries_refuses
    (hat : nd.log[p]?.map LogEntry.term ≠ some args.prevLogTerm) :
    nd.handleAppendEntries args =
      some (nd.follow args, { term := nd.currentTerm, success := false }) := by
  have hlog : logAt nd.log args.prevLogIndex = nd.log[p]? := by simp [logAt, hprev]
  rw [handleAppendEntries_current hterm, if_pos ⟨by omega, Or.inr (by rwa [hlog])⟩]

/-- Where they are the same its entries are spliced into the log. -/
theorem handleAppendEntries_accepts
    (hat : nd.log[p]?.map LogEntry.term = some args.prevLogTerm) :
    nd.handleAppendEntries args =
      some (nd.accept args (splice LogEntry.term nd.log (p + 1) args.entries)
          (nd.commitTo (splice LogEntry.term nd.log (p + 1) args.entries) args.leaderCommit),
        { term := nd.currentTerm, success := true }) := by
  have hlog : logAt nd.log args.prevLogIndex = nd.log[p]? := by simp [logAt, hprev]
  have hin : ¬ args.prevLogIndex ≥ nd.log.length := by
    intro h
    rw [List.getElem?_eq_none (by omega)] at hat
    cases hat
  rw [handleAppendEntries_current hterm, if_neg (by simp [hin, hlog, hat]), hprev,
    show (p : Int) + 1 = ((p + 1 : Nat) : Int) by omega, appendLoop_eq]
  rfl

end Handle

theorem tryAdvanceCommitIndexLocked_same (nd : Node) :
    nd.tryAdvanceCommitIndexLocked.log = nd.log ∧
      nd.tryAdvanceCommitIndexLocked.nextIndex = nd.nextIndex ∧
      nd.tryAdvanceCommitIndexLocked.matchIndex = nd.matchIndex := by
  rcases nd.tryAdvanceCommitIndexLocked_cases with h | ⟨N, -, -, -, h⟩
  · rw [h]
    exact ⟨rfl, rfl, rfl⟩
  · rw [h]
    exact ⟨rfl, rfl, rfl⟩

/-- A successful reply raises what the leader knows of the follower, or tells nothing new. -/
theorem replicateReply_accepted (peerIdx : Int) (args : AppendEntriesArgs)
    (reply : AppendEntriesReply) (hlead : nd.state = .leader) (hreply : reply.term ≤ nd.currentTerm)
    (hterm : nd.currentTerm = args.term) (hs : reply.success = true) :
    ∃ nd', nd.replicateReply peerIdx args reply =
        (nd', decide (nd'.nextIndex peerIdx < nd'.log.length)) ∧
      (nd.matchIndex peerIdx < args.prevLogIndex + args.entries.length ∧
          nd' = (nd.matchPeer peerIdx
            (args.prevLogIndex + args.entries.length)).tryAdvanceCommitIndexLocked ∨
        args.prevLogIndex + args.entries.length ≤ nd.matchIndex peerIdx ∧ nd' = nd) := by
  rw [replicateReply, if_neg (by omega), if_neg (by simp [hlead, hterm]), if_pos hs]
  dsimp only
  split
  · next h => exact ⟨_, rfl, Or.inl ⟨h, rfl⟩⟩
  · next h => exact ⟨_, rfl, Or.inr ⟨Int.not_lt.mp h, rfl⟩⟩

end Node

/-- The log of a follower that accepts the entries of `L` after position `p`, up to `q`. -/
theorem splice_piece {F : List LogEntry} (hm : Matching LogEntry.term F L) (hpq : p ≤ q)
    (hq : q < L.length) (hat : F[p]?.map LogEntry.term = L[p]?.map LogEntry.term) :
    L.take (q + 1) <+: F ∧
        splice LogEntry.term F (p + 1) ((L.take (q + 1)).drop (p + 1)) = F ∨
      ¬ L.take (q + 1) <+: F ∧
        splice LogEntry.term F (p + 1) ((L.take (q + 1)).drop (p + 1)) = L.take (q + 1) := by
  have hpL : p < L.length := by omega
  have hpF : p < F.length := by
    by_contra hge
    simp [List.getElem?_eq_none (Nat.not_lt.mp hge), List.getElem?_eq_getElem hpL] at hat
  have hagree : F.take (p + 1) = L.take (p + 1) := by
    refine hm p hpF hpL ?_
    simpa [List.getElem?_eq_getElem hpF, List.getElem?_eq_getElem hpL] using hat
  have hentries : (L.take (q + 1)).drop (p + 1) <+: L.drop (p + 1) :=
    (List.take_prefix (q + 1) L).drop (p + 1)
  have hend : p + 1 + ((L.take (q + 1)).drop (p + 1)).length = q + 1 := by
    rw [List.length_drop, List.length_take]
    omega
  have := hm.splice_cases hpF hagree hentries
  rwa [hend] at this

/-! ### Requests in any order -/

/-- A request of term `T` with the entries of the leader's log after `p` and up to `q`. -/
structure Batch (T : Int) (L : List LogEntry) (p q : Nat) (args : AppendEntriesArgs) : Prop where
  term : args.term = T
  order : p ≤ q
  last : q < L.length
  prevLogIndex : args.prevLogIndex = p
  prevLogTerm : L[p]?.map LogEntry.term = some args.prevLogTerm
  entries : args.entries = (L.take (q + 1)).drop (p + 1)
  leaderCommit : args.leaderCommit ≤ q

namespace Batch

theorem refused (hb : Batch T L p q args) (hterm : nd.currentTerm ≤ T)
    (hat : nd.log[p]?.map LogEntry.term ≠ L[p]?.map LogEntry.term) :
    nd.handleAppendEntries args =
      some (nd.follow args, { term := nd.currentTerm, success := false }) :=
  Node.handleAppendEntries_refuses (hb.term ▸ hterm) hb.prevLogIndex (hb.prevLogTerm ▸ hat)

/-- The commit index reaches that of the request, which the log now covers. -/
theorem accepted (hb : Batch T L p q args) (hterm : nd.currentTerm ≤ T)
    (hm : Matching LogEntry.term nd.log L)
    (hat : nd.log[p]?.map LogEntry.term = L[p]?.map LogEntry.term) :
    ∃ log, (L.take (q + 1) <+: nd.log ∧ log = nd.log ∨
        ¬ L.take (q + 1) <+: nd.log ∧ log = L.take (q + 1)) ∧
      nd.handleAppendEntries args =
        some (nd.accept args log (max nd.commitIndex args.leaderCommit.toNat),
          { term := nd.currentTerm, success := true }) := by
  refine ⟨splice LogEntry.term nd.log (p + 1) args.entries, ?_, ?_⟩
  · rw [hb.entries]
    exact splice_piece hm hb.order hb.last hat
  · have hlen : q + 1 ≤ (splice LogEntry.term nd.log (p + 1) args.entries).length := by
      have hL : (L.take (q + 1)).length = q + 1 := by
        have := hb.last
        rw [List.length_take]
        omega
      rw [hb.entries]
      rcases splice_piece hm hb.order hb.last hat with ⟨hin, hs⟩ | ⟨-, hs⟩
      · rw [hs, ← hL]
        exact hin.length_le
      · rw [hs, hL]
    have hcommit : nd.commitTo (splice LogEntry.term nd.log (p + 1) args.entries)
        args.leaderCommit = max nd.commitIndex args.leaderCommit.toNat := by
      have := hb.leaderCommit
      unfold Node.commitTo
      split <;> omega
    rw [Node.handleAppendEntries_accepts (hb.term ▸ hterm) hb.prevLogIndex
      (hb.prevLogTerm ▸ hat), hcommit]

/-- What one request does to a follower, and what it does when it arrives again. -/
theorem handle (hb : Batch T L p q args) (hterm : nd.currentTerm ≤ T)
    (hm : Matching LogEntry.term nd.log L) :
    ∃ nd' reply, nd.handleAppendEntries args = some (nd', reply) ∧
      nd'.currentTerm = T ∧ Matching LogEntry.term nd'.log L ∧
      commonLength nd.log L ≤ commonLength nd'.log L ∧
      (reply.success = true → q < commonLength nd'.log L) ∧
      nd.commitIndex ≤ nd'.commitIndex ∧
      ∃ nd'' reply', nd'.handleAppendEntries args = some (nd'', reply') ∧
        nd''.log = nd'.log ∧ nd''.commitIndex = nd'.commitIndex ∧
        nd''.currentTerm = nd'.currentTerm := by
  have hfollow : ∀ nd : Node, nd.currentTerm ≤ T → (nd.follow args).currentTerm = T := by
    intro nd hle
    rw [← hb.term] at hle ⊢
    exact Node.becomeFollowerLocked_of_le hle
  by_cases hat : nd.log[p]?.map LogEntry.term = L[p]?.map LogEntry.term
  · obtain ⟨log, hlog, heq⟩ := hb.accepted hterm hm hat
    have hL : (L.take (q + 1)).length = q + 1 := by
      have := hb.last
      rw [List.length_take]
      omega
    have hin : L.take (q + 1) <+: log := by
      rcases hlog with ⟨hin, rfl⟩ | ⟨-, rfl⟩
      · exact hin
      · exact List.prefix_rfl
    have hm' : Matching LogEntry.term log L := by
      rcases hlog with ⟨-, rfl⟩ | ⟨-, rfl⟩
      · exact hm
      · exact .of_extends (List.take_prefix _ _)
    have hkeep : ∀ x, x <+: nd.log → x <+: L → x <+: log := by
      intro x hx hxL
      rcases hlog with ⟨-, rfl⟩ | ⟨hnot, rfl⟩
      · exact hx
      · refine prefix_take hxL (Nat.not_lt.mp fun hlt => hnot ?_)
        have := prefix_of_length_le (List.take_prefix (q + 1) L) hxL (by omega)
        exact this.trans hx
    have hat' : log[p]?.map LogEntry.term = L[p]?.map LogEntry.term := by
      have hpq := hb.order
      have hlen := hin.length_le
      have hget := getElem_prefix_eq hin (k := p) (by omega) (by omega)
      rw [List.getElem?_eq_getElem (by omega), hget, List.getElem_take,
        List.getElem?_eq_getElem (by have := hb.last; omega)]
    -- the follower now holds the whole piece, so that a second copy changes nothing
    have hterm' : (nd.accept args log (max nd.commitIndex
        args.leaderCommit.toNat)).currentTerm ≤ T := (hfollow nd hterm).le
    obtain ⟨log', hlog', heq'⟩ := hb.accepted hterm' hm' hat'
    obtain rfl : log' = log := by
      rcases hlog' with ⟨-, h⟩ | ⟨hnot, -⟩
      · exact h
      · exact absurd hin hnot
    refine ⟨_, _, heq, hfollow nd hterm, hm', commonLength_mono hkeep, fun _ => ?_, ?_, _, _,
      heq', rfl, ?_, ?_⟩
    · have hlen := hin.length_le
      rw [hL] at hlen
      refine (le_commonLength hlen hb.last).mpr ?_
      rw [take_prefix_eq hin hL.ge, List.take_take, Nat.min_self]
    · exact le_max_left _ _
    · change max (max _ _) _ = max _ _
      rw [max_assoc, max_self]
    · exact (hfollow _ (hfollow nd hterm).le).trans (hfollow nd hterm).symm
  · have heq := hb.refused hterm hat
    have heq' := hb.refused (hfollow nd hterm).le hat
    refine ⟨_, _, heq, hfollow nd hterm, hm, Nat.le_refl _, fun h => (by cases h), Nat.le_refl _,
      _, _, heq', rfl, rfl, ?_⟩
    exact (hfollow _ (hfollow nd hterm).le).trans (hfollow nd hterm).symm

end Batch

/-- A node that handles one request after the other. -/
def followerNode : Machine Node AppendEntriesArgs where
  initial _ := True
  step nd args := (nd.handleAppendEntries args).map Prod.fst

/-- A run of requests of one leader keeps what the next one relies on. -/
theorem followerNode_run (hterm : nd.currentTerm ≤ T) (hm : Matching LogEntry.term nd.log L)
    {msgs : List AppendEntriesArgs} (hmsgs : ∀ args ∈ msgs, ∃ p q, Batch T L p q args) :
    ∃ nd₁, followerNode.exec nd msgs = some nd₁ ∧ nd₁.currentTerm ≤ T ∧
      Matching LogEntry.term nd₁.log L := by
  induction msgs generalizing nd with
  | nil => exact ⟨nd, rfl, hterm, hm⟩
  | cons args rest ih =>
    obtain ⟨p, q, hb⟩ := hmsgs args List.mem_cons_self
    obtain ⟨nd', reply, heq, hterm', hm', -⟩ := hb.handle hterm hm
    obtain ⟨nd₁, hrun, h₁⟩ := ih hterm'.le hm' fun a ha => hmsgs a (List.mem_cons_of_mem args ha)
    refine ⟨nd₁, Machine.exec_cons_eq_some.mpr ⟨nd', ?_, hrun⟩, h₁⟩
    simp [followerNode, heq]

/-- After any requests of one leader, in any order and with any repetitions, a further one is
handled without a panic; the log shares no less with the leader's than before, all up to the last
entry of a request that is accepted, the commit index does not fall, and the same request handled
again changes nothing. -/
theorem redelivered (hterm : nd.currentTerm ≤ T) (hm : Matching LogEntry.term nd.log L)
    {msgs : List AppendEntriesArgs} (hmsgs : ∀ args ∈ msgs, ∃ p q, Batch T L p q args) :
    ∃ nd₁, followerNode.exec nd msgs = some nd₁ ∧ ∀ p q args, Batch T L p q args →
      ∃ nd₂ reply, nd₁.handleAppendEntries args = some (nd₂, reply) ∧
        commonLength nd₁.log L ≤ commonLength nd₂.log L ∧
        (reply.success = true → q < commonLength nd₂.log L) ∧
        nd₁.commitIndex ≤ nd₂.commitIndex ∧
        ∃ nd₃ reply', nd₂.handleAppendEntries args = some (nd₃, reply') ∧
          nd₃.log = nd₂.log ∧ nd₃.commitIndex = nd₂.commitIndex ∧
          nd₃.currentTerm = nd₂.currentTerm := by
  obtain ⟨nd₁, hrun, hterm₁, hm₁⟩ := followerNode_run hterm hm hmsgs
  refine ⟨nd₁, hrun, fun p q args hb => ?_⟩
  obtain ⟨nd₂, reply, heq, -, -, hrest⟩ := hb.handle hterm₁ hm₁
  exact ⟨nd₂, reply, heq, hrest⟩

/-- A leader's log, and a follower with an entry of an older term in the place of its third. -/
def leaderLog : List LogEntry :=
  [sentinel, ⟨1, 1, { type := .readBarrier }⟩, ⟨2, 2, { type := .readBarrier }⟩,
    ⟨2, 3, { type := .readBarrier }⟩]

def divergedNode : Node :=
  { newNode 1 ["a", "b"] with
    currentTerm := 1
    log := [sentinel, ⟨1, 1, { type := .readBarrier }⟩, ⟨1, 2, { type := .readBarrier }⟩] }

theorem divergedNode_matching : Matching LogEntry.term divergedNode.log leaderLog := by
  intro k hx hy ht
  rcases k with _ | _ | _ | k
  · rfl
  · rfl
  · cases ht
  · exact absurd hx (by simp [divergedNode])

/-- The whole log first, then a copy of an older, shorter request. -/
def longThenShort : List AppendEntriesArgs :=
  [{ term := 2, leaderId := 0, prevLogIndex := 1, prevLogTerm := 1, entries := leaderLog.drop 2,
     leaderCommit := 2 },
   { term := 2, leaderId := 0, prevLogIndex := 0, prevLogTerm := 0,
     entries := [⟨1, 1, { type := .readBarrier }⟩], leaderCommit := 1 }]

theorem redelivered_longThenShort : ∃ nd₁, followerNode.exec divergedNode longThenShort = some nd₁ ∧
    ∀ p q args, Batch 2 leaderLog p q args →
      ∃ nd₂ reply, nd₁.handleAppendEntries args = some (nd₂, reply) ∧
        commonLength nd₁.log leaderLog ≤ commonLength nd₂.log leaderLog ∧
        (reply.success = true → q < commonLength nd₂.log leaderLog) ∧
        nd₁.commitIndex ≤ nd₂.commitIndex ∧
        ∃ nd₃ reply', nd₂.handleAppendEntries args = some (nd₃, reply') ∧
          nd₃.log = nd₂.log ∧ nd₃.commitIndex = nd₂.commitIndex ∧
          nd₃.currentTerm = nd₂.currentTerm := by
  refine redelivered (by decide) divergedNode_matching ?_
  intro args hargs
  simp only [longThenShort, List.mem_cons, List.not_mem_nil, or_false] at hargs
  rcases hargs with rfl | rfl
  · exact ⟨1, 3, rfl, by decide, by decide, rfl, rfl, rfl, by decide⟩
  · exact ⟨0, 1, rfl, by decide, by decide, rfl, rfl, rfl, by decide⟩

/-! ### The worker of one follower -/

/-- A call of `replicateToFollower` that the follower answers at once: both nodes, and whether the
worker calls again. -/
def replicateToFollower (leader follower : Node) (peerIdx : Int) : Option (Node × Node × Bool) :=
  match leader.replicateArgs peerIdx with
  | none => some (leader, follower, false)
  | some args => do
    let (follower, reply) ← follower.handleAppendEntries args
    let (leader, again) := leader.replicateReply peerIdx args reply
    return (leader, follower, again)

/-- The inner loop of `replicationWorker`, for at most `calls` calls: no value means that the last
of them asks for another. -/
def replicationWorker (peerIdx : Int) : Nat → Node → Node → Option (Node × Node)
  | 0, _, _ => none
  | calls + 1, leader, follower => do
    let (leader, follower, again) ← replicateToFollower leader follower peerIdx
    if again then replicationWorker peerIdx calls leader follower else return (leader, follower)

variable {leader follower : Node} {peerIdx : Int}

/-- The request that a leader sends after position `k` of its log. -/
def Node.requestAfter (nd : Node) (k : Nat) : AppendEntriesArgs :=
  { term := nd.currentTerm, leaderId := nd.id, prevLogIndex := k
    prevLogTerm := (nd.log[k]?.map LogEntry.term).getD 0, entries := nd.log.drop (k + 1)
    leaderCommit := nd.commitIndex }

/-- The leader after a refusal. -/
def Node.backUp (nd : Node) (peerIdx : Int) (k : Nat) : Node :=
  { nd with nextIndex := Function.update nd.nextIndex peerIdx k }

theorem replicateArgs_at (hlead : leader.state = .leader)
    (hnext : leader.nextIndex peerIdx = k + 1) (hk : k < leader.log.length) :
    leader.replicateArgs peerIdx = some (leader.requestAfter k) := by
  have hat : logAt leader.log k = some leader.log[k] := by
    simp [logAt, List.getElem?_eq_getElem hk]
  have hrange : ¬ ((k : Int) < 0 ∨ (k : Int) ≥ leader.log.length) := by omega
  simp only [Node.replicateArgs, Node.requestAfter, hlead, hnext, ne_eq, not_true_eq_false,
    if_false, Int.add_sub_cancel, hrange, hat, Option.bind_eq_bind, Option.bind_some,
    Option.pure_def, Option.some.injEq, List.getElem?_eq_getElem hk, Option.map_some,
    Option.getD_some]
  congr 1
  split
  · rw [show ((k : Int) + 1).toNat = k + 1 by omega]
  · rw [List.drop_of_length_le (by omega)]

section Call

variable (hlead : leader.state = .leader) (hterm : follower.currentTerm ≤ leader.currentTerm)

include hlead hterm

/-- A refusal moves the leader one entry down and changes nothing else of it. -/
theorem replicateToFollower_refused (hnext : leader.nextIndex peerIdx = k + 1) (hpos : 0 < k)
    (hk : k < leader.log.length)
    (hat : follower.log[k]?.map LogEntry.term ≠ leader.log[k]?.map LogEntry.term) :
    ∃ nd, replicateToFollower leader follower peerIdx =
        some (leader.backUp peerIdx k, nd, true) ∧
      nd.log = follower.log ∧ nd.currentTerm ≤ leader.currentTerm := by
  have hhandle : follower.handleAppendEntries (leader.requestAfter k) = _ :=
    Node.handleAppendEntries_refuses hterm rfl
      (by simpa [Node.requestAfter, List.getElem?_eq_getElem hk] using hat)
  refine ⟨follower.follow (leader.requestAfter k), ?_, rfl,
    (Node.becomeFollowerLocked_of_le hterm).le⟩
  simp only [replicateToFollower, replicateArgs_at hlead hnext hk, hhandle, Option.bind_eq_bind,
    Option.bind_some]
  rw [Node.replicateReply, if_neg (by simpa using hterm),
    if_neg (by simp [hlead, Node.requestAfter]), if_neg (by simp), if_pos (by omega), hnext,
    Int.add_sub_cancel]
  rfl

/-- An accepted request ends the calls: the leader knows the follower to hold its whole log. -/
theorem replicateToFollower_accepted (hnext : leader.nextIndex peerIdx = k + 1)
    (hmatch : leader.matchIndex peerIdx = 0) (hk : k < leader.log.length)
    (hat : follower.log[k]?.map LogEntry.term = leader.log[k]?.map LogEntry.term) :
    ∃ nd nd', replicateToFollower leader follower peerIdx = some (nd, nd', false) ∧
      nd.log = leader.log ∧ nd.matchIndex peerIdx = leader.log.length - 1 ∧
      nd.nextIndex peerIdx = leader.log.length ∧
      nd'.log = splice LogEntry.term follower.log (k + 1) (leader.log.drop (k + 1)) := by
  have hhandle : follower.handleAppendEntries (leader.requestAfter k) = _ :=
    Node.handleAppendEntries_accepts hterm rfl
      (by simpa [Node.requestAfter, List.getElem?_eq_getElem hk] using hat)
  have hlog : (follower.accept (leader.requestAfter k) (splice LogEntry.term follower.log (k + 1)
      (leader.requestAfter k).entries) (follower.commitTo (splice LogEntry.term follower.log (k + 1)
      (leader.requestAfter k).entries) (leader.requestAfter k).leaderCommit)).log =
        splice LogEntry.term follower.log (k + 1) (leader.log.drop (k + 1)) := rfl
  have hmatched : (leader.requestAfter k).prevLogIndex +
      (leader.requestAfter k).entries.length = leader.log.length - 1 := by
    simp only [Node.requestAfter, List.length_drop]
    omega
  obtain ⟨nd, heq, hnd⟩ := Node.replicateReply_accepted peerIdx (leader.requestAfter k)
    ⟨follower.currentTerm, true⟩ hlead hterm rfl rfl
  have hview : nd.log = leader.log ∧ nd.matchIndex peerIdx = leader.log.length - 1 ∧
      nd.nextIndex peerIdx = leader.log.length := by
    rw [hmatched, hmatch] at hnd
    rcases hnd with ⟨-, rfl⟩ | ⟨hle, rfl⟩
    · obtain ⟨hlog, hni, hmi⟩ := Node.tryAdvanceCommitIndexLocked_same
        (leader.matchPeer peerIdx (leader.log.length - 1))
      rw [hlog, hni, hmi]
      simp [Node.matchPeer]
    · exact ⟨rfl, by omega, by omega⟩
  refine ⟨nd, _, ?_, hview.1, hview.2.1, hview.2.2, hlog⟩
  simp only [replicateToFollower, replicateArgs_at hlead hnext hk, hhandle, Option.bind_eq_bind,
    Option.bind_some, heq, Option.pure_def, hview.1, hview.2.2, lt_irrefl, decide_false]

/-- What the worker has brought about when it stops. -/
structure Repaired (leader follower : Node) (peerIdx : Int) (leader' follower' : Node) : Prop where
  leaderLog : leader'.log = leader.log
  matchIndex : leader'.matchIndex peerIdx = leader.log.length - 1
  nextIndex : leader'.nextIndex peerIdx = leader.log.length
  kept : leader.log <+: follower.log → follower'.log = follower.log
  copied : ¬ leader.log <+: follower.log → follower'.log = leader.log

theorem replicationWorker_accepted (calls : Nat)
    (hm : Matching LogEntry.term follower.log leader.log)
    (hnext : leader.nextIndex peerIdx = k + 1) (hmatch : leader.matchIndex peerIdx = 0)
    (hk : k < leader.log.length)
    (hat : follower.log[k]?.map LogEntry.term = leader.log[k]?.map LogEntry.term) :
    ∃ leader' follower', replicationWorker peerIdx (calls + 1) leader follower =
        some (leader', follower') ∧ Repaired leader follower peerIdx leader' follower' := by
  obtain ⟨nd, nd', heq, hlog, hmi, hni, hlog'⟩ :=
    replicateToFollower_accepted hlead hterm hnext hmatch hk hat
  have hwhole : leader.log.take (leader.log.length - 1 + 1) = leader.log :=
    List.take_of_length_le (by omega)
  have hpiece := splice_piece hm (show k ≤ leader.log.length - 1 by omega) (by omega) hat
  rw [hwhole, ← hlog'] at hpiece
  refine ⟨nd, nd', ?_, hlog, hmi, hni, fun hin => ?_, fun hnot => ?_⟩
  · rw [replicationWorker, heq]
    rfl
  · rcases hpiece with ⟨-, h⟩ | ⟨hnot, -⟩
    · exact h
    · exact absurd hin hnot
  · rcases hpiece with ⟨hin, -⟩ | ⟨-, h⟩
    · exact absurd hin hnot
    · exact h

end Call

/-- From any `nextIndex` inside the leader's log the worker stops after at most that many calls. The
leader's log is unchanged, it knows the follower to hold all of it, and the follower's log is the
one it had, if it begins with the leader's, and else the leader's. -/
theorem replicationWorker_repairs (hlead : leader.state = .leader)
    (hterm : follower.currentTerm ≤ leader.currentTerm)
    (hsentinel : leader.log.head? = some sentinel) (hsentinel' : follower.log.head? = some sentinel)
    (hm : Matching LogEntry.term follower.log leader.log)
    (hmatch : leader.matchIndex peerIdx = 0) (hfirst : 1 ≤ leader.nextIndex peerIdx)
    (hlast : leader.nextIndex peerIdx ≤ leader.log.length) :
    ∃ leader' follower',
      replicationWorker peerIdx (leader.nextIndex peerIdx).toNat leader follower =
        some (leader', follower') ∧ Repaired leader follower peerIdx leader' follower' := by
  obtain ⟨k, hk'⟩ : ∃ k : Nat, leader.nextIndex peerIdx = k + 1 :=
    ⟨(leader.nextIndex peerIdx - 1).toNat, by omega⟩
  rw [hk', show ((k : Int) + 1).toNat = k + 1 by omega]
  induction k generalizing leader follower with
  | zero =>
    have hat : follower.log[0]?.map LogEntry.term = leader.log[0]?.map LogEntry.term := by
      rw [← List.head?_eq_getElem?, ← List.head?_eq_getElem?, hsentinel, hsentinel']
    exact replicationWorker_accepted hlead hterm _ hm hk' hmatch (by omega) hat
  | succ k ih =>
    by_cases hat : follower.log[k + 1]?.map LogEntry.term = leader.log[k + 1]?.map LogEntry.term
    · exact replicationWorker_accepted hlead hterm _ hm hk' hmatch (by omega) hat
    · obtain ⟨nd, heq, hlog, hterm'⟩ :=
        replicateToFollower_refused hlead hterm hk' (Nat.succ_pos k) (by omega) hat
      have hnext : (leader.backUp peerIdx (k + 1)).nextIndex peerIdx = k + 1 := by
        change Function.update leader.nextIndex peerIdx ((k + 1 : Nat) : Int) peerIdx = k + 1
        rw [Function.update_self]
        rfl
      have hinside : (leader.backUp peerIdx (k + 1)).nextIndex peerIdx ≤ leader.log.length := by
        rw [hnext]
        omega
      have hlead' : (leader.backUp peerIdx (k + 1)).state = .leader := hlead
      obtain ⟨leader', follower', hrun, hdone⟩ := ih hlead' hterm' hsentinel (hlog ▸ hsentinel')
        (hlog ▸ hm) hmatch (by omega) hinside hnext
      refine ⟨leader', follower', ?_, hdone.leaderLog, hdone.matchIndex, hdone.nextIndex, ?_, ?_⟩
      · rw [replicationWorker, heq]
        exact hrun
      · rw [← hlog]
        exact hdone.kept
      · rw [← hlog]
        exact hdone.copied

/-- A leader that has just been elected, with a follower whose last entry it has to overwrite. -/
def electedNode : Node :=
  { newNode 0 ["a", "b"] with
    currentTerm := 2, state := .leader, log := leaderLog, nextIndex := fun _ => 4 }

theorem replicationWorker_repairs_diverged :
    ∃ leader' follower', replicationWorker 1 4 electedNode divergedNode =
        some (leader', follower') ∧ Repaired electedNode divergedNode 1 leader' follower' := by
  have hlead : electedNode.state = .leader := rfl
  have hterm : divergedNode.currentTerm ≤ electedNode.currentTerm := by decide
  have hmatch : electedNode.matchIndex 1 = 0 := rfl
  exact replicationWorker_repairs hlead hterm rfl rfl divergedNode_matching hmatch (by decide)
    (by decide)

end KvRaft.Raft
