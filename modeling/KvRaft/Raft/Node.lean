import KvRaft.Lib.Lineage
import KvRaft.Raft.Rpc

/-! The functions of `raft/node.go`, each from one acquisition of the node's lock to its release.
The channels that only wake a waiting goroutine or reset a timer hold no data and are left out: the
cluster may run any goroutine at any time. -/

namespace KvRaft.Raft

/-- `Node` without its channels and timers. `commitIndex` and `lastApplied` start at 0 and never
fall. A missing key of the maps reads as 0, as in Go. -/
structure Node where
  id : Int
  peers : List String
  leaderID : Int
  currentTerm : Int
  votedFor : Int
  log : List LogEntry
  commitIndex : Nat
  lastApplied : Nat
  state : NodeState
  nextIndex : Int → Int
  matchIndex : Int → Int

/-- The dummy entry at position 0. -/
def sentinel : LogEntry := { term := 0, index := 0, command := { type := .other "" } }

/-- `log[i]`; no value stands for the panic of an index out of range. -/
def logAt (log : List LogEntry) (i : Int) : Option LogEntry :=
  if 0 ≤ i then log[i.toNat]? else none

def newNode (id : Int) (peers : List String) : Node where
  id := id
  peers := peers
  leaderID := -1
  currentTerm := 0
  votedFor := -1
  log := [sentinel]
  commitIndex := 0
  lastApplied := 0
  state := .follower
  nextIndex := fun _ => 0
  matchIndex := fun _ => 0

namespace Node

def becomeLeaderLocked (n : Node) : Node :=
  let lastLogIndex : Int := n.log.length - 1
  { n with
    state := .leader
    leaderID := n.id
    nextIndex := fun i => if 0 ≤ i ∧ i < n.peers.length then lastLogIndex + 1 else 0
    matchIndex := Function.update (fun _ => 0) n.id lastLogIndex }

/-- Raises the term only, but always clears the vote. -/
def becomeFollowerLocked (n : Node) (term : Int) : Node :=
  { n with
    currentTerm := if term > n.currentTerm then term else n.currentTerm
    votedFor := -1
    state := .follower
    leaderID := -1 }

/-- The election timer's case of `runFollower`. -/
def electionTimeout (n : Node) : Node := { n with state := .candidate }

/-- `runCandidate` up to the release of the lock: a new term, the vote for itself, and the request
that goes to every peer. The state is not set here. -/
def startElection (n : Node) : Option (Node × RequestVoteArgs) := do
  let n := { n with currentTerm := n.currentTerm + 1, votedFor := n.id, leaderID := -1 }
  let lastLogIndex : Int := n.log.length - 1
  let last ← logAt n.log lastLogIndex
  return (n, { term := n.currentTerm, candidateId := n.id, lastLogIndex := lastLogIndex,
               lastLogTerm := last.term })

def votesNeeded (n : Node) : Int := (n.peers.length + 1) / 2 + 1

/-- One reply in the loop of `runCandidate`, for the candidacy of term `term` with `votes` counted
so far. No count in the result means that `runCandidate` returns. -/
def countVote (n : Node) (term votes : Int) (r : RequestVoteReply) : Node × Option Int :=
  if r.term > term then (n.becomeFollowerLocked r.term, none)
  else
    let votes := if r.voteGranted then votes + 1 else votes
    if votes ≥ n.votesNeeded ∧ n.state = .candidate ∧ n.currentTerm = term then
      (n.becomeLeaderLocked, none)
    else (n, some votes)

/-- `replicateToFollower` up to the call: the request, if there is one to send. -/
def replicateArgs (n : Node) (peerIdx : Int) : Option AppendEntriesArgs := do
  if n.state ≠ .leader then none
  let nextIdx := n.nextIndex peerIdx
  let prevLogIndex := nextIdx - 1
  if prevLogIndex < 0 ∨ prevLogIndex ≥ n.log.length then none
  let prev ← logAt n.log prevLogIndex
  return { term := n.currentTerm
           leaderId := n.id
           prevLogIndex := prevLogIndex
           prevLogTerm := prev.term
           entries := if nextIdx < n.log.length then n.log.drop nextIdx.toNat else []
           leaderCommit := n.commitIndex }

/-- The leader and the peers whose `matchIndex` is at least `N`. -/
def replicationCount (n : Node) (N : Int) : Nat :=
  1 + ((List.range n.peers.length).filter fun (i : Nat) =>
    (i : Int) ≠ n.id ∧ n.matchIndex i ≥ N).length

/-- The loop of `tryAdvanceCommitIndexLocked` from `N` down. -/
def advanceFrom (n : Node) : Nat → Node
  | 0 => n
  | N + 1 =>
    if N + 1 > n.commitIndex then
      if n.log[N + 1]?.map LogEntry.term ≠ some n.currentTerm then n.advanceFrom N
      else if n.replicationCount (N + 1) > n.peers.length / 2 then { n with commitIndex := N + 1 }
      else n.advanceFrom N
    else n

def tryAdvanceCommitIndexLocked (n : Node) : Node := n.advanceFrom (n.log.length - 1)

/-- `replicateToFollower` from the reply on, with the request of the call: the node, and whether the
worker calls again at once. -/
def replicateReply (n : Node) (peerIdx : Int) (args : AppendEntriesArgs)
    (reply : AppendEntriesReply) : Node × Bool :=
  if reply.term > n.currentTerm then (n.becomeFollowerLocked reply.term, false)
  else if n.state ≠ .leader ∨ n.currentTerm ≠ args.term then (n, false)
  else if reply.success then
    let matched := args.prevLogIndex + args.entries.length
    let n :=
      if matched > n.matchIndex peerIdx then
        { n with
          matchIndex := Function.update n.matchIndex peerIdx matched
          nextIndex := Function.update n.nextIndex peerIdx (matched + 1) }
        |>.tryAdvanceCommitIndexLocked
      else n
    (n, n.nextIndex peerIdx < n.log.length)
  else if n.nextIndex peerIdx > 1 then
    ({ n with nextIndex := Function.update n.nextIndex peerIdx (n.nextIndex peerIdx - 1) }, true)
  else (n, false)

/-- One entry taken by the loop of `applyCommittedEntries`. -/
def applyNext (n : Node) : Option (Node × ApplyMsg) := do
  if ¬ n.lastApplied < n.commitIndex then none
  let n := { n with lastApplied := n.lastApplied + 1 }
  let entry ← n.log[n.lastApplied]?
  return (n, entry.toMsg)

def handleRequestVote (n : Node) (args : RequestVoteArgs) : Option (Node × RequestVoteReply) :=
  let reply : RequestVoteReply := { term := n.currentTerm, voteGranted := false }
  if n.currentTerm > args.term then some (n, reply)
  else do
    let n := if args.term > n.currentTerm then n.becomeFollowerLocked args.term else n
    let lastLogIndex : Int := n.log.length - 1
    let last ← logAt n.log lastLogIndex
    let logOk := args.lastLogTerm > last.term ∨
      args.lastLogTerm = last.term ∧ args.lastLogIndex ≥ lastLogIndex
    if (n.votedFor = -1 ∨ n.votedFor = args.candidateId) ∧ logOk then
      return ({ n with votedFor := args.candidateId }, { reply with voteGranted := true })
    else return (n, reply)

/-- The loop of `HandleAppendEntries` over the entries, the next of which belongs at `idx`. -/
def appendLoop (log : List LogEntry) (idx : Int) : List LogEntry → Option (List LogEntry)
  | [] => some log
  | entry :: rest =>
    if idx < log.length then do
      let existing ← logAt log idx
      if existing.term ≠ entry.term then appendLoop (log.take idx.toNat ++ [entry]) (idx + 1) rest
      else appendLoop log (idx + 1) rest
    else appendLoop (log ++ [entry]) (idx + 1) rest

def handleAppendEntries (n : Node) (args : AppendEntriesArgs) :
    Option (Node × AppendEntriesReply) :=
  let reply : AppendEntriesReply := { term := n.currentTerm, success := false }
  if n.currentTerm > args.term then some (n, reply)
  else
    let n :=
      if args.term ≥ n.currentTerm then
        { n.becomeFollowerLocked args.term with leaderID := args.leaderId }
      else n
    -- a negative PrevLogIndex skips the consistency check
    if 0 ≤ args.prevLogIndex ∧ (args.prevLogIndex ≥ n.log.length ∨
        (logAt n.log args.prevLogIndex).map LogEntry.term ≠ some args.prevLogTerm) then
      some (n, reply)
    else do
      let log ← appendLoop n.log (args.prevLogIndex + 1) args.entries
      let n := { n with log := log }
      let n :=
        if args.leaderCommit > n.commitIndex then
          { n with commitIndex := (min args.leaderCommit (n.log.length - 1)).toNat }
        else n
      return (n, { reply with success := true })

/-- `Submit`: the node with the new entry, and the entry's index and term; nothing on a node that is
not the leader. -/
def submit (n : Node) (cmd : Command) : Option (Node × Int × Int) :=
  if n.state ≠ .leader then none
  else
    let index : Int := n.log.length
    let entry : LogEntry := { term := n.currentTerm, index := index, command := cmd }
    some ({ n with log := n.log ++ [entry], matchIndex := Function.update n.matchIndex n.id index },
      index, n.currentTerm)

/-! What each function can do. -/

open Lineage

variable {n nd : Node}

theorem logAt_last {log : List LogEntry} {last : LogEntry}
    (h : logAt log (log.length - 1) = some last) :
    log ≠ [] ∧ last.term = lastTerm LogEntry.term log := by
  have hne : log ≠ [] := by
    rintro rfl
    simp [logAt] at h
  refine ⟨hne, ?_⟩
  have hpos : 0 < log.length := List.length_pos_iff.mpr hne
  rw [logAt, if_pos (by omega), show ((log.length : Int) - 1).toNat = log.length - 1 by omega,
    ← List.getLast?_eq_getElem?] at h
  simp [lastTerm, h]

theorem becomeFollowerLocked_term (n : Node) (term : Int) :
    n.currentTerm ≤ (n.becomeFollowerLocked term).currentTerm ∧
      term ≤ (n.becomeFollowerLocked term).currentTerm ∧
      ((n.becomeFollowerLocked term).currentTerm = n.currentTerm ∨
        (n.becomeFollowerLocked term).currentTerm = term) := by
  simp only [becomeFollowerLocked]
  split <;> omega

theorem becomeFollowerLocked_of_le {term : Int} (h : n.currentTerm ≤ term) :
    (n.becomeFollowerLocked term).currentTerm = term := by
  simp only [becomeFollowerLocked]
  split <;> omega

theorem becomeLeaderLocked_matchIndex {i : Int} (h : i ≠ nd.id) :
    nd.becomeLeaderLocked.matchIndex i = 0 := by
  simp [becomeLeaderLocked, h]

theorem startElection_cases {args : RequestVoteArgs} (h : n.startElection = some (nd, args)) :
    n.log ≠ [] ∧
    nd = { n with currentTerm := n.currentTerm + 1, votedFor := n.id, leaderID := -1 } ∧
    args = { term := n.currentTerm + 1, candidateId := n.id, lastLogIndex := n.log.length - 1,
             lastLogTerm := lastTerm LogEntry.term n.log } := by
  simp only [startElection, Option.pure_def, Option.bind_eq_bind, Option.bind_eq_some_iff,
    Option.some.injEq, Prod.mk.injEq] at h
  obtain ⟨last, hlast, rfl, rfl⟩ := h
  obtain ⟨hne, hterm⟩ := logAt_last hlast
  exact ⟨hne, rfl, by rw [hterm]⟩

/-- One counted reply: the candidate steps down, becomes the leader, or goes on counting. -/
theorem countVote_cases (n : Node) (term votes : Int) (r : RequestVoteReply) :
    (term < r.term ∧ n.countVote term votes r = (n.becomeFollowerLocked r.term, none)) ∨
    (r.term ≤ term ∧ n.votesNeeded ≤ votes + (if r.voteGranted then 1 else 0) ∧
      n.state = .candidate ∧ n.currentTerm = term ∧
      n.countVote term votes r = (n.becomeLeaderLocked, none)) ∨
    n.countVote term votes r = (n, some (votes + (if r.voteGranted then 1 else 0))) := by
  have hv : (if r.voteGranted = true then votes + 1 else votes) =
      votes + (if r.voteGranted then 1 else 0) := by split <;> simp
  simp only [countVote, hv]
  generalize votes + (if r.voteGranted then 1 else 0) = w
  split
  · next h => exact Or.inl ⟨h, rfl⟩
  · next h =>
    split
    · next hc => exact Or.inr (Or.inl ⟨by omega, hc.1, hc.2.1, hc.2.2, rfl⟩)
    · exact Or.inr (Or.inr rfl)

/-- A candidacy goes on only while its votes are too few, or the node is out of it. -/
theorem countVote_next {term votes w : Int} {r : RequestVoteReply}
    (h : (nd.countVote term votes r).2 = some w) :
    (nd.countVote term votes r).1 = nd ∧ w = votes + (if r.voteGranted then 1 else 0) ∧
      (nd.state = .candidate → nd.currentTerm = term → w < nd.votesNeeded) := by
  have hv : (if r.voteGranted = true then votes + 1 else votes) =
      votes + (if r.voteGranted then 1 else 0) := by split <;> simp
  simp only [countVote, hv] at h ⊢
  generalize votes + (if r.voteGranted = true then 1 else 0) = u at h ⊢
  split at h
  · simp at h
  · next hterm =>
    split at h
    · simp at h
    · next hgo =>
      obtain rfl : u = w := Option.some.inj h
      rw [if_neg hterm, if_neg hgo]
      exact ⟨rfl, rfl, fun hst ht => not_le.mp fun hge => hgo ⟨hge, hst, ht⟩⟩

/-- The node once it has seen the term of a vote request. -/
def observe (n : Node) (term : Int) : Node :=
  if term > n.currentTerm then n.becomeFollowerLocked term else n

/-- `args` describes a log at least as up to date as `log`. -/
def UpToDate (args : RequestVoteArgs) (log : List LogEntry) : Prop :=
  lastTerm LogEntry.term log < args.lastLogTerm ∨
    args.lastLogTerm = lastTerm LogEntry.term log ∧ (log.length : Int) - 1 ≤ args.lastLogIndex

theorem observe_log (n : Node) (term : Int) : (n.observe term).log = n.log := by
  unfold observe
  split <;> rfl

theorem handleRequestVote_cases {args : RequestVoteArgs} {reply : RequestVoteReply}
    (h : n.handleRequestVote args = some (nd, reply)) :
    (nd = n ∧ reply.voteGranted = false) ∨
    n.currentTerm ≤ args.term ∧ (nd = n.observe args.term ∧ reply.voteGranted = false ∨
      nd = { n.observe args.term with votedFor := args.candidateId } ∧
        reply.voteGranted = true ∧
        ((n.observe args.term).votedFor = -1 ∨
          (n.observe args.term).votedFor = args.candidateId) ∧
        n.log ≠ [] ∧ UpToDate args n.log) := by
  simp only [handleRequestVote] at h
  split at h
  · simp only [Option.some.injEq, Prod.mk.injEq] at h
    obtain ⟨rfl, rfl⟩ := h
    exact Or.inl ⟨rfl, rfl⟩
  · next hstale =>
    refine Or.inr ⟨by omega, ?_⟩
    rw [show (if args.term > n.currentTerm then n.becomeFollowerLocked args.term else n) =
      n.observe args.term from rfl] at h
    simp only [Option.bind_eq_bind, Option.bind_eq_some_iff] at h
    obtain ⟨last, hlast, hrest⟩ := h
    rw [observe_log] at hlast
    obtain ⟨hne, hterm⟩ := logAt_last hlast
    split at hrest
    · next hgrant =>
      simp only [Option.pure_def, Option.some.injEq, Prod.mk.injEq] at hrest
      obtain ⟨rfl, rfl⟩ := hrest
      refine Or.inr ⟨rfl, rfl, hgrant.1, hne, ?_⟩
      rw [observe_log, hterm] at hgrant
      exact hgrant.2
    · simp only [Option.pure_def, Option.some.injEq, Prod.mk.injEq] at hrest
      obtain ⟨rfl, rfl⟩ := hrest
      exact Or.inl ⟨rfl, rfl⟩

/-- From a position inside the log or at its end, the loop over the entries is the splice. -/
theorem appendLoop_eq (log : List LogEntry) (k : Nat) (entries : List LogEntry) :
    appendLoop log k entries = some (splice LogEntry.term log k entries) := by
  induction entries generalizing log k with
  | nil => rfl
  | cons e rest ih =>
    have hnext : (k : Int) + 1 = ((k + 1 : Nat) : Int) := by omega
    unfold appendLoop splice
    rw [hnext]
    by_cases h : k < log.length
    · have hat : logAt log k = some log[k] := by
        simp [logAt, List.getElem?_eq_getElem h]
      rw [if_pos (by omega), dif_pos h, hat, Option.bind_eq_bind, Option.bind_some,
        Int.toNat_natCast]
      split
      · exact ih _ _
      · exact ih _ _
    · rw [if_neg (by omega), dif_neg h]
      exact ih _ _

/-- The commit index after an accepted request. -/
def commitTo (n : Node) (log : List LogEntry) (leaderCommit : Int) : Nat :=
  if leaderCommit > n.commitIndex then (min leaderCommit (log.length - 1)).toNat
  else n.commitIndex

/-- The node that `HandleAppendEntries` makes of `n` before it looks at the log. -/
def follow (n : Node) (args : AppendEntriesArgs) : Node :=
  { n.becomeFollowerLocked args.term with leaderID := args.leaderId }

theorem handleAppendEntries_stale {args : AppendEntriesArgs} (h : args.term < n.currentTerm) :
    n.handleAppendEntries args = some (n, { term := n.currentTerm, success := false }) := by
  rw [handleAppendEntries, if_pos h]

/-- What a request of no older term does. -/
theorem handleAppendEntries_current {args : AppendEntriesArgs} (h : n.currentTerm ≤ args.term) :
    n.handleAppendEntries args =
      if 0 ≤ args.prevLogIndex ∧ (args.prevLogIndex ≥ n.log.length ∨
          (logAt n.log args.prevLogIndex).map LogEntry.term ≠ some args.prevLogTerm) then
        some (n.follow args, { term := n.currentTerm, success := false })
      else (appendLoop n.log (args.prevLogIndex + 1) args.entries).map fun log =>
        ({ n.follow args with log := log, commitIndex := n.commitTo log args.leaderCommit },
          { term := n.currentTerm, success := true }) := by
  unfold handleAppendEntries
  rw [if_neg (by omega), if_pos (show args.term ≥ n.currentTerm from h)]
  change (if 0 ≤ args.prevLogIndex ∧ (args.prevLogIndex ≥ n.log.length ∨
    (logAt n.log args.prevLogIndex).map LogEntry.term ≠ some args.prevLogTerm) then _ else _) = _
  congr 1
  change (appendLoop n.log _ _).bind _ = _
  rw [Option.map_eq_bind]
  congr 1
  funext log
  simp only [commitTo, Option.pure_def, Function.comp_apply, Option.some.injEq, Prod.mk.injEq,
    and_true]
  split
  · next hc => rw [if_pos (show args.leaderCommit > n.commitIndex from hc)]; rfl
  · next hc => rw [if_neg (show ¬ args.leaderCommit > n.commitIndex from hc)]; rfl

/-- The reply carries the term that the node had. -/
theorem handleAppendEntries_term {args : AppendEntriesArgs} {nd : Node} {reply : AppendEntriesReply}
    (h : n.handleAppendEntries args = some (nd, reply)) : reply.term = n.currentTerm := by
  by_cases hstale : args.term < n.currentTerm
  · rw [handleAppendEntries_stale hstale] at h
    rw [← (Prod.mk.inj (Option.some.inj h)).2]
  · rw [handleAppendEntries_current (not_lt.mp hstale)] at h
    split at h
    · rw [← (Prod.mk.inj (Option.some.inj h)).2]
    · obtain ⟨_, -, heq⟩ := Option.map_eq_some_iff.mp h
      rw [← (Prod.mk.inj heq).2]

theorem handleAppendEntries_cases {args : AppendEntriesArgs} {reply : AppendEntriesReply}
    (h : n.handleAppendEntries args = some (nd, reply)) :
    (args.term < n.currentTerm ∧ nd = n ∧ reply.success = false) ∨
    n.currentTerm ≤ args.term ∧ (nd = n.follow args ∧ reply.success = false ∨
      ∃ log, appendLoop n.log (args.prevLogIndex + 1) args.entries = some log ∧
        nd = { n.follow args with
          log := log, commitIndex := n.commitTo log args.leaderCommit } ∧
        reply.success = true ∧
        (0 ≤ args.prevLogIndex → args.prevLogIndex < n.log.length ∧
          (logAt n.log args.prevLogIndex).map LogEntry.term = some args.prevLogTerm)) := by
  by_cases hstale : args.term < n.currentTerm
  · rw [handleAppendEntries_stale hstale] at h
    obtain ⟨rfl, rfl⟩ := Prod.mk.inj (Option.some.inj h)
    exact Or.inl ⟨hstale, rfl, rfl⟩
  · have hterm : n.currentTerm ≤ args.term := not_lt.mp hstale
    refine Or.inr ⟨hterm, ?_⟩
    rw [handleAppendEntries_current hterm] at h
    split at h
    · obtain ⟨rfl, rfl⟩ := Prod.mk.inj (Option.some.inj h)
      exact Or.inl ⟨rfl, rfl⟩
    · next hprev =>
      obtain ⟨log, hlog, heq⟩ := Option.map_eq_some_iff.mp h
      obtain ⟨rfl, rfl⟩ := Prod.mk.inj heq
      refine Or.inr ⟨log, hlog, rfl, rfl, fun hnonneg => ?_⟩
      simp only [not_and, not_or] at hprev
      have := hprev hnonneg
      exact ⟨not_le.mp this.1, not_not.mp this.2⟩

theorem replicateArgs_cases {peerIdx : Int} {args : AppendEntriesArgs}
    (h : n.replicateArgs peerIdx = some args) :
    n.state = .leader ∧ ∃ k : Nat, ∃ hk : k < n.log.length,
      args = { term := n.currentTerm, leaderId := n.id, prevLogIndex := k,
               prevLogTerm := n.log[k].term, entries := n.log.drop (k + 1),
               leaderCommit := n.commitIndex } := by
  simp only [replicateArgs, Option.bind_eq_bind, Option.pure_def] at h
  split at h
  · simp at h
  · next hlead =>
    split at h
    · simp at h
    · next hrange =>
      simp only [Option.bind_eq_some_iff, Option.some.injEq] at h
      obtain ⟨prev, hprev, rfl⟩ := h
      simp only [not_or, not_lt, not_le] at hrange
      obtain ⟨k, hk⟩ := Int.eq_ofNat_of_zero_le hrange.1
      have hkl : k < n.log.length := by omega
      have hprevk : prev = n.log[k] := by
        rw [hk] at hprev
        simpa [logAt, List.getElem?_eq_getElem hkl] using hprev.symm
      refine ⟨not_not.mp hlead, k, hkl, ?_⟩
      rw [hprevk, hk, show n.nextIndex peerIdx = ((k + 1 : Nat) : Int) by omega]
      congr 1
      split
      · rfl
      · next hend => rw [List.drop_of_length_le (by omega)]

/-- Advancing the commit index changes nothing else, and only moves it up to an entry of the
leader's own term that more than half of the cluster holds. -/
theorem advanceFrom_cases (n : Node) (N : Nat) :
    n.advanceFrom N = n ∨ ∃ N', n.commitIndex < N' ∧ N' ≤ N ∧
      n.log[N']?.map LogEntry.term = some n.currentTerm ∧
      n.replicationCount N' > n.peers.length / 2 ∧
      n.advanceFrom N = { n with commitIndex := N' } := by
  induction N with
  | zero => exact Or.inl rfl
  | succ N ih =>
    have hlift : n.advanceFrom N = n ∨ ∃ N', n.commitIndex < N' ∧ N' ≤ N + 1 ∧
        n.log[N']?.map LogEntry.term = some n.currentTerm ∧
        n.replicationCount N' > n.peers.length / 2 ∧
        n.advanceFrom N = { n with commitIndex := N' } := by
      rcases ih with h | ⟨N', h₁, h₂, h₃⟩
      · exact Or.inl h
      · exact Or.inr ⟨N', h₁, by omega, h₃⟩
    unfold advanceFrom
    split
    · next hlt =>
      split
      · exact hlift
      · next hterm =>
        split
        · next hcount =>
          exact Or.inr ⟨N + 1, hlt, le_refl _, not_not.mp hterm, hcount, rfl⟩
        · exact hlift
    · exact Or.inl rfl

theorem tryAdvanceCommitIndexLocked_cases (n : Node) :
    n.tryAdvanceCommitIndexLocked = n ∨ ∃ N, n.commitIndex < N ∧
      n.log[N]?.map LogEntry.term = some n.currentTerm ∧
      n.replicationCount N > n.peers.length / 2 ∧
      n.tryAdvanceCommitIndexLocked = { n with commitIndex := N } := by
  rcases n.advanceFrom_cases (n.log.length - 1) with h | ⟨N, h₁, _, h₂, h₃, h₄⟩
  · exact Or.inl h
  · exact Or.inr ⟨N, h₁, h₂, h₃, h₄⟩

/-- The leader's view of `peerIdx` after a successful reply that raises its match index. -/
def matchPeer (n : Node) (peerIdx matched : Int) : Node :=
  { n with
    matchIndex := Function.update n.matchIndex peerIdx matched
    nextIndex := Function.update n.nextIndex peerIdx (matched + 1) }

theorem replicateReply_cases (n : Node) (peerIdx : Int) (args : AppendEntriesArgs)
    (reply : AppendEntriesReply) :
    (n.currentTerm < reply.term ∧
      (n.replicateReply peerIdx args reply).1 = n.becomeFollowerLocked reply.term) ∨
    (n.replicateReply peerIdx args reply).1 = n ∨
    n.state = .leader ∧ n.currentTerm = args.term ∧
      (reply.success = true ∧ n.matchIndex peerIdx < args.prevLogIndex + args.entries.length ∧
        (n.replicateReply peerIdx args reply).1 =
          (n.matchPeer peerIdx
            (args.prevLogIndex + args.entries.length)).tryAdvanceCommitIndexLocked ∨
      reply.success = false ∧ 1 < n.nextIndex peerIdx ∧
        (n.replicateReply peerIdx args reply).1 =
          { n with nextIndex :=
            Function.update n.nextIndex peerIdx (n.nextIndex peerIdx - 1) }) := by
  simp only [replicateReply]
  split
  · next h => exact Or.inl ⟨h, rfl⟩
  · split
    · exact Or.inr (Or.inl rfl)
    · next hlead =>
      simp only [not_or, not_not] at hlead
      split
      · next hs =>
        split
        · next hm => exact Or.inr (Or.inr ⟨hlead.1, hlead.2, Or.inl ⟨hs, hm, rfl⟩⟩)
        · exact Or.inr (Or.inl rfl)
      · next hs =>
        split
        · next hm =>
          exact Or.inr (Or.inr ⟨hlead.1, hlead.2, Or.inr ⟨Bool.eq_false_iff.mpr hs, hm, rfl⟩⟩)
        · exact Or.inr (Or.inl rfl)

theorem applyNext_cases {msg : ApplyMsg} (h : n.applyNext = some (nd, msg)) :
    n.lastApplied < n.commitIndex ∧ nd = { n with lastApplied := n.lastApplied + 1 } ∧
      ∃ hl : n.lastApplied + 1 < n.log.length, msg = n.log[n.lastApplied + 1].toMsg := by
  simp only [applyNext, Option.bind_eq_bind, Option.pure_def] at h
  split at h
  · simp at h
  · next hlt =>
    simp only [Option.bind_eq_some_iff, Option.some.injEq, Prod.mk.injEq] at h
    obtain ⟨entry, hentry, rfl, rfl⟩ := h
    obtain ⟨hl, rfl⟩ := List.getElem?_eq_some_iff.mp hentry
    exact ⟨not_not.mp hlt, rfl, hl, rfl⟩

theorem submit_cases {cmd : Command} {index term : Int}
    (h : n.submit cmd = some (nd, index, term)) :
    n.state = .leader ∧ index = n.log.length ∧ term = n.currentTerm ∧
      nd = { n with
        log := n.log ++ [{ term := n.currentTerm, index := n.log.length, command := cmd }]
        matchIndex := Function.update n.matchIndex n.id n.log.length } := by
  simp only [submit] at h
  split at h
  · simp at h
  · next hlead =>
    simp only [Option.some.injEq, Prod.mk.injEq] at h
    obtain ⟨rfl, rfl, rfl⟩ := h
    exact ⟨not_not.mp hlead, rfl, rfl, rfl⟩

end Node

end KvRaft.Raft
