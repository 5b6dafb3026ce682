import KvRaft.Lib.Machine
import KvRaft.Raft.Node
import Mathlib.Data.Fintype.Card

/-! A cluster of `n` nodes that share one peer list, none of which restarts. Every node has the
goroutine of `run`, the replication worker of each peer, the callers of `RequestVote` and the loop
of `applyCommittedEntries`, and any of them may take the next step. A call's request reaches the
handler of its target at most once, possibly after the caller gave up, and its reply returns at most
once to that call. -/

namespace KvRaft.Raft

/-- The nodes of a cluster of three are written as numerals. Under a name of its own the instance
stands in the definitions that do so as a constant, and not as a proof of each. -/
instance neZeroThree : NeZero 3 := inferInstance

/-- Where the goroutine of `run` stands. -/
inductive Loop
  /-- at the top of the loop, before it reads the state -/
  | top
  /-- in the `select` of `runFollower` -/
  | follower
  /-- in `runCandidate`, before it takes the lock -/
  | candidate
  /-- in the reply loop of `runCandidate`, with `votes` counted in the candidacy of `term` -/
  | counting (term votes : Int)
  /-- in the ticker loop of `runLeader` -/
  | leader
deriving DecidableEq

/-- The `RequestVote` call to one peer in a node's last candidacy. -/
inductive VoteCall
  | idle
  /-- the request has not reached the handler -/
  | sent (args : RequestVoteArgs)
  /-- the reply is on its way or in the candidacy's channel -/
  | answered (reply : RequestVoteReply)
  /-- `runCandidate` has read the reply -/
  | counted (reply : RequestVoteReply)
deriving DecidableEq

/-- The `AppendEntries` call of one replication worker. -/
inductive AppendCall
  | idle
  | sent (args : AppendEntriesArgs)
  | answered (args : AppendEntriesArgs) (reply : AppendEntriesReply)
deriving DecidableEq

/-- The nodes, what their goroutines are doing, the requests whose caller has given up, and the
messages that each node has sent to its apply channel. -/
structure Cluster (n : Nat) where
  node : Fin n → Node
  loop : Fin n → Loop
  vote : Fin n → Fin n → VoteCall
  append : Fin n → Fin n → AppendCall
  lateVotes : List (Fin n × RequestVoteArgs)
  lateAppends : List (Fin n × AppendEntriesArgs)
  emitted : Fin n → List ApplyMsg

/-- One step of one goroutine, or the arrival of one request. -/
inductive Action (n : Nat)
  /-- `run` reads the state and enters the matching function -/
  | readState (i : Fin n)
  /-- a heartbeat or a granted vote wakes `runFollower` -/
  | wakeFollower (i : Fin n)
  | electionTimeout (i : Fin n)
  | startElection (i : Fin n)
  /-- `runCandidate` reads the reply of `j` -/
  | countVote (i j : Fin n)
  /-- the election timer ends `runCandidate` -/
  | abandonElection (i : Fin n)
  /-- the ticker of `runLeader` -/
  | leaderTick (i : Fin n)
  | deliverVote (i j : Fin n)
  | deliverLateVote (k : Nat)
  | submit (i : Fin n) (cmd : Command)
  /-- the worker of `i` for `j` starts a call -/
  | replicate (i j : Fin n)
  | deliverAppend (i j : Fin n)
  | deliverLateAppend (k : Nat)
  /-- the reply of `j` returns to the worker of `i` -/
  | finishAppend (i j : Fin n)
  /-- the call of the worker of `i` for `j` fails or times out -/
  | abandonAppend (i j : Fin n)
  | apply (i : Fin n)
deriving DecidableEq

namespace Cluster

variable {n : Nat}

def start (peers : List String) : Cluster n where
  node i := newNode i peers
  loop _ := .top
  vote _ _ := .idle
  append _ _ := .idle
  lateVotes := []
  lateAppends := []
  emitted _ := []

def setNode (c : Cluster n) (i : Fin n) (nd : Node) : Cluster n :=
  { c with node := Function.update c.node i nd }

def setLoop (c : Cluster n) (i : Fin n) (l : Loop) : Cluster n :=
  { c with loop := Function.update c.loop i l }

def setVote (c : Cluster n) (i j : Fin n) (v : VoteCall) : Cluster n :=
  { c with vote := Function.update c.vote i (Function.update (c.vote i) j v) }

def setAppend (c : Cluster n) (i j : Fin n) (a : AppendCall) : Cluster n :=
  { c with append := Function.update c.append i (Function.update (c.append i) j a) }

section Updates

variable (c : Cluster n) (i j : Fin n) (nd : Node) (l : Loop) (v : VoteCall) (a : AppendCall)

@[simp] theorem setNode_same : (c.setNode i nd).node i = nd := by simp [setNode]

@[simp] theorem setNode_ne {k : Fin n} (h : k ≠ i) : (c.setNode i nd).node k = c.node k := by
  simp [setNode, h]

@[simp] theorem setNode_loop : (c.setNode i nd).loop = c.loop := rfl
@[simp] theorem setNode_vote : (c.setNode i nd).vote = c.vote := rfl
@[simp] theorem setNode_append : (c.setNode i nd).append = c.append := rfl
@[simp] theorem setNode_lateVotes : (c.setNode i nd).lateVotes = c.lateVotes := rfl
@[simp] theorem setNode_lateAppends : (c.setNode i nd).lateAppends = c.lateAppends := rfl
@[simp] theorem setNode_emitted : (c.setNode i nd).emitted = c.emitted := rfl

@[simp] theorem setLoop_same : (c.setLoop i l).loop i = l := by simp [setLoop]

@[simp] theorem setLoop_ne {k : Fin n} (h : k ≠ i) : (c.setLoop i l).loop k = c.loop k := by
  simp [setLoop, h]

@[simp] theorem setLoop_node : (c.setLoop i l).node = c.node := rfl
@[simp] theorem setLoop_vote : (c.setLoop i l).vote = c.vote := rfl
@[simp] theorem setLoop_append : (c.setLoop i l).append = c.append := rfl
@[simp] theorem setLoop_lateVotes : (c.setLoop i l).lateVotes = c.lateVotes := rfl
@[simp] theorem setLoop_lateAppends : (c.setLoop i l).lateAppends = c.lateAppends := rfl
@[simp] theorem setLoop_emitted : (c.setLoop i l).emitted = c.emitted := rfl

@[simp] theorem setVote_same : (c.setVote i j v).vote i j = v := by simp [setVote]

theorem setVote_apply (k m : Fin n) :
    (c.setVote i j v).vote k m = if k = i ∧ m = j then v else c.vote k m := by
  by_cases hk : k = i
  · subst hk
    by_cases hm : m = j <;> simp [setVote, hm]
  · simp [setVote, hk]

@[simp] theorem setVote_node : (c.setVote i j v).node = c.node := rfl
@[simp] theorem setVote_loop : (c.setVote i j v).loop = c.loop := rfl
@[simp] theorem setVote_append : (c.setVote i j v).append = c.append := rfl
@[simp] theorem setVote_lateVotes : (c.setVote i j v).lateVotes = c.lateVotes := rfl
@[simp] theorem setVote_lateAppends : (c.setVote i j v).lateAppends = c.lateAppends := rfl
@[simp] theorem setVote_emitted : (c.setVote i j v).emitted = c.emitted := rfl

theorem setAppend_apply (k m : Fin n) :
    (c.setAppend i j a).append k m = if k = i ∧ m = j then a else c.append k m := by
  by_cases hk : k = i
  · subst hk
    by_cases hm : m = j <;> simp [setAppend, hm]
  · simp [setAppend, hk]

@[simp] theorem setAppend_node : (c.setAppend i j a).node = c.node := rfl
@[simp] theorem setAppend_loop : (c.setAppend i j a).loop = c.loop := rfl
@[simp] theorem setAppend_vote : (c.setAppend i j a).vote = c.vote := rfl
@[simp] theorem setAppend_lateVotes : (c.setAppend i j a).lateVotes = c.lateVotes := rfl
@[simp] theorem setAppend_lateAppends : (c.setAppend i j a).lateAppends = c.lateAppends := rfl
@[simp] theorem setAppend_emitted : (c.setAppend i j a).emitted = c.emitted := rfl

end Updates

/-- The requests of `i`'s last candidacy that have not arrived. -/
def unsentVotes (c : Cluster n) (i : Fin n) : List (Fin n × RequestVoteArgs) :=
  (List.finRange n).filterMap fun j =>
    match c.vote i j with
    | .sent args => some (j, args)
    | _ => none

/-- The calls that a new candidacy makes, one to each other node. -/
def newVotes (i : Fin n) (args : RequestVoteArgs) (j : Fin n) : VoteCall :=
  if j = i then .idle else .sent args

def loopOf : NodeState → Loop
  | .follower => .follower
  | .candidate => .candidate
  | .leader => .leader

def step (c : Cluster n) : Action n → Option (Cluster n)
  | .readState i =>
    if c.loop i = .top then some (c.setLoop i (loopOf (c.node i).state)) else none
  | .wakeFollower i => if c.loop i = .follower then some (c.setLoop i .top) else none
  | .electionTimeout i =>
    if c.loop i = .follower then
      some ((c.setNode i (c.node i).electionTimeout).setLoop i .top)
    else none
  | .startElection i =>
    if c.loop i = .candidate then do
      let (nd, args) ← (c.node i).startElection
      return { (c.setNode i nd).setLoop i (.counting args.term 1) with
        vote := Function.update c.vote i (newVotes i args)
        lateVotes := c.lateVotes ++ c.unsentVotes i }
    else none
  | .countVote i j =>
    match c.loop i, c.vote i j with
    | .counting term votes, .answered r =>
      let (nd, next) := (c.node i).countVote term votes r
      some (((c.setNode i nd).setVote i j (.counted r)).setLoop i
        (match next with
        | some votes => .counting term votes
        | none => .top))
    | _, _ => none
  | .abandonElection i =>
    match c.loop i with
    | .counting _ _ => some (c.setLoop i .top)
    | _ => none
  | .leaderTick i =>
    if c.loop i = .leader then
      some (if (c.node i).state = .leader then c else c.setLoop i .top)
    else none
  | .deliverVote i j =>
    match c.vote i j with
    | .sent args => do
      let (nd, reply) ← (c.node j).handleRequestVote args
      return (c.setNode j nd).setVote i j (.answered reply)
    | _ => none
  | .deliverLateVote k => do
    let (j, args) ← c.lateVotes[k]?
    let (nd, _) ← (c.node j).handleRequestVote args
    return { c.setNode j nd with lateVotes := c.lateVotes.eraseIdx k }
  | .submit i cmd => do
    let (nd, _, _) ← (c.node i).submit cmd
    return c.setNode i nd
  | .replicate i j =>
    if i ≠ j ∧ c.append i j = .idle then do
      let args ← (c.node i).replicateArgs j
      return c.setAppend i j (.sent args)
    else none
  | .deliverAppend i j =>
    match c.append i j with
    | .sent args => do
      let (nd, reply) ← (c.node j).handleAppendEntries args
      return (c.setNode j nd).setAppend i j (.answered args reply)
    | _ => none
  | .deliverLateAppend k => do
    let (j, args) ← c.lateAppends[k]?
    let (nd, _) ← (c.node j).handleAppendEntries args
    return { c.setNode j nd with lateAppends := c.lateAppends.eraseIdx k }
  | .finishAppend i j =>
    match c.append i j with
    | .answered args reply =>
      some ((c.setNode i ((c.node i).replicateReply j args reply).1).setAppend i j .idle)
    | _ => none
  | .abandonAppend i j =>
    match c.append i j with
    | .sent args =>
      some { c.setAppend i j .idle with lateAppends := c.lateAppends ++ [(j, args)] }
    | .answered _ _ => some (c.setAppend i j .idle)
    | .idle => none
  | .apply i => do
    let (nd, msg) ← (c.node i).applyNext
    return { c.setNode i nd with emitted := Function.update c.emitted i (c.emitted i ++ [msg]) }

/-- The append request that an action delivers. -/
def delivered (c : Cluster n) : Action n → Option AppendEntriesArgs
  | .deliverAppend i j =>
    match c.append i j with
    | .sent args => some args
    | _ => none
  | .deliverLateAppend k => c.lateAppends[k]?.map Prod.snd
  | _ => none

/-- What each action can do, with the reason it could. A counted vote is one of three, a leader's
tick and an abandoned call one of two. -/
inductive Step (c : Cluster n) : Action n → Cluster n → Prop
  | readState {i : Fin n} (hl : c.loop i = .top) :
      Step c (.readState i) (c.setLoop i (loopOf (c.node i).state))
  | wakeFollower {i : Fin n} (hl : c.loop i = .follower) :
      Step c (.wakeFollower i) (c.setLoop i .top)
  | electionTimeout {i : Fin n} (hl : c.loop i = .follower) :
      Step c (.electionTimeout i) ((c.setNode i (c.node i).electionTimeout).setLoop i .top)
  | startElection {i : Fin n} {nd : Node} {args : RequestVoteArgs} (hl : c.loop i = .candidate)
      (hs : (c.node i).startElection = some (nd, args)) :
      Step c (.startElection i) { (c.setNode i nd).setLoop i (.counting args.term 1) with
        vote := Function.update c.vote i (newVotes i args)
        lateVotes := c.lateVotes ++ c.unsentVotes i }
  | stepDown {i j : Fin n} {T v : Int} {r : RequestVoteReply} (hl : c.loop i = .counting T v)
      (hv : c.vote i j = .answered r) (ht : T < r.term) :
      Step c (.countVote i j) (((c.setNode i ((c.node i).becomeFollowerLocked r.term)).setVote i j
        (.counted r)).setLoop i .top)
  | win {i j : Fin n} {T v : Int} {r : RequestVoteReply} (hl : c.loop i = .counting T v)
      (hv : c.vote i j = .answered r)
      (hneed : (c.node i).votesNeeded ≤ v + (if r.voteGranted then 1 else 0))
      (hstate : (c.node i).state = .candidate) (hterm : (c.node i).currentTerm = T) :
      Step c (.countVote i j) (((c.setNode i (c.node i).becomeLeaderLocked).setVote i j
        (.counted r)).setLoop i .top)
  | tally {i j : Fin n} {T v : Int} {r : RequestVoteReply} (hl : c.loop i = .counting T v)
      (hv : c.vote i j = .answered r)
      (hgo : (c.node i).state = .candidate → (c.node i).currentTerm = T →
        v + (if r.voteGranted then 1 else 0) < (c.node i).votesNeeded) :
      Step c (.countVote i j) ((c.setVote i j (.counted r)).setLoop i
        (.counting T (v + (if r.voteGranted then 1 else 0))))
  | abandonElection {i : Fin n} {T v : Int} (hl : c.loop i = .counting T v) :
      Step c (.abandonElection i) (c.setLoop i .top)
  | leaderStays {i : Fin n} : Step c (.leaderTick i) c
  | leaderReturns {i : Fin n} : Step c (.leaderTick i) (c.setLoop i .top)
  | deliverVote {i j : Fin n} {args : RequestVoteArgs} {nd : Node} {reply : RequestVoteReply}
      (hv : c.vote i j = .sent args)
      (hh : (c.node j).handleRequestVote args = some (nd, reply)) :
      Step c (.deliverVote i j) ((c.setNode j nd).setVote i j (.answered reply))
  | deliverLateVote {k : Nat} {j : Fin n} {args : RequestVoteArgs} {nd : Node}
      {reply : RequestVoteReply} (hv : c.lateVotes[k]? = some (j, args))
      (hh : (c.node j).handleRequestVote args = some (nd, reply)) :
      Step c (.deliverLateVote k) { c.setNode j nd with lateVotes := c.lateVotes.eraseIdx k }
  | submit {i : Fin n} {cmd : Command} {nd : Node} {index term : Int}
      (hs : (c.node i).submit cmd = some (nd, index, term)) :
      Step c (.submit i cmd) (c.setNode i nd)
  | replicate {i j : Fin n} {args : AppendEntriesArgs} (hij : i ≠ j)
      (ha : (c.node i).replicateArgs j = some args) :
      Step c (.replicate i j) (c.setAppend i j (.sent args))
  | deliverAppend {i j : Fin n} {args : AppendEntriesArgs} {nd : Node}
      {reply : AppendEntriesReply} (ha : c.append i j = .sent args)
      (hh : (c.node j).handleAppendEntries args = some (nd, reply)) :
      Step c (.deliverAppend i j) ((c.setNode j nd).setAppend i j (.answered args reply))
  | deliverLateAppend {k : Nat} {j : Fin n} {args : AppendEntriesArgs} {nd : Node}
      {reply : AppendEntriesReply} (ha : c.lateAppends[k]? = some (j, args))
      (hh : (c.node j).handleAppendEntries args = some (nd, reply)) :
      Step c (.deliverLateAppend k) { c.setNode j nd with lateAppends := c.lateAppends.eraseIdx k }
  | finishAppend {i j : Fin n} {args : AppendEntriesArgs} {reply : AppendEntriesReply}
      (ha : c.append i j = .answered args reply) :
      Step c (.finishAppend i j)
        ((c.setNode i ((c.node i).replicateReply j args reply).1).setAppend i j .idle)
  | loseRequest {i j : Fin n} {args : AppendEntriesArgs} (ha : c.append i j = .sent args) :
      Step c (.abandonAppend i j)
        { c.setAppend i j .idle with lateAppends := c.lateAppends ++ [(j, args)] }
  | loseReply {i j : Fin n} : Step c (.abandonAppend i j) (c.setAppend i j .idle)
  | apply {i : Fin n} {nd : Node} {msg : ApplyMsg} (ha : (c.node i).applyNext = some (nd, msg)) :
      Step c (.apply i) { c.setNode i nd with
        emitted := Function.update c.emitted i (c.emitted i ++ [msg]) }

theorem setNode_self (c : Cluster n) (i : Fin n) : c.setNode i (c.node i) = c := by
  simp [setNode]

theorem loopOf_ne (st : NodeState) (T v : Int) : loopOf st ≠ .counting T v := by
  cases st <;> simp [loopOf]

theorem Step.of_step {c c' : Cluster n} {a : Action n} (h : c.step a = some c') : Step c a c' := by
  cases a with
  | countVote i j =>
    simp only [step] at h
    split at h
    · next T v r hl hv =>
      simp only [Option.some.injEq] at h
      subst h
      rcases (c.node i).countVote_cases T v r with ⟨ht, he⟩ | ⟨_, hneed, hstate, hterm, he⟩ | he
      · rw [he]
        exact .stepDown hl hv ht
      · rw [he]
        exact .win hl hv hneed hstate hterm
      · have hgo := (Node.countVote_next (congrArg Prod.snd he)).2.2
        rw [he, setNode_self]
        exact .tally hl hv hgo
    · simp at h
  | readState i =>
    simp only [step, Option.ite_none_right_eq_some, Option.some.injEq] at h
    obtain ⟨hl, rfl⟩ := h
    exact .readState hl
  | wakeFollower i =>
    simp only [step, Option.ite_none_right_eq_some, Option.some.injEq] at h
    obtain ⟨hl, rfl⟩ := h
    exact .wakeFollower hl
  | electionTimeout i =>
    simp only [step, Option.ite_none_right_eq_some, Option.some.injEq] at h
    obtain ⟨hl, rfl⟩ := h
    exact .electionTimeout hl
  | startElection i =>
    simp only [step, Option.ite_none_right_eq_some, Option.bind_eq_bind, Option.pure_def,
      Option.bind_eq_some_iff, Option.some.injEq] at h
    obtain ⟨hl, ⟨nd, args⟩, hs, rfl⟩ := h
    exact .startElection hl hs
  | abandonElection i =>
    simp only [step] at h
    split at h
    · next hl =>
      simp only [Option.some.injEq] at h
      subst h
      exact .abandonElection hl
    · simp at h
  | leaderTick i =>
    simp only [step, Option.ite_none_right_eq_some, Option.some.injEq] at h
    obtain ⟨-, rfl⟩ := h
    split
    · exact .leaderStays
    · exact .leaderReturns
  | deliverVote i j =>
    simp only [step] at h
    split at h
    · next args hv =>
      simp only [Option.bind_eq_bind, Option.pure_def, Option.bind_eq_some_iff,
        Option.some.injEq] at h
      obtain ⟨⟨nd, reply⟩, hh, rfl⟩ := h
      exact .deliverVote hv hh
    · simp at h
  | deliverLateVote k =>
    simp only [step, Option.bind_eq_bind, Option.pure_def, Option.bind_eq_some_iff,
      Option.some.injEq] at h
    obtain ⟨⟨j, args⟩, hv, ⟨nd, reply⟩, hh, rfl⟩ := h
    exact .deliverLateVote hv hh
  | submit i cmd =>
    simp only [step, Option.bind_eq_bind, Option.pure_def, Option.bind_eq_some_iff,
      Option.some.injEq] at h
    obtain ⟨⟨nd, index, term⟩, hs, rfl⟩ := h
    exact .submit hs
  | replicate i j =>
    simp only [step, Option.ite_none_right_eq_some, Option.bind_eq_bind, Option.pure_def,
      Option.bind_eq_some_iff, Option.some.injEq] at h
    obtain ⟨⟨hij, -⟩, args, ha, rfl⟩ := h
    exact .replicate hij ha
  | deliverAppend i j =>
    simp only [step] at h
    split at h
    · next args ha =>
      simp only [Option.bind_eq_bind, Option.pure_def, Option.bind_eq_some_iff,
        Option.some.injEq] at h
      obtain ⟨⟨nd, reply⟩, hh, rfl⟩ := h
      exact .deliverAppend ha hh
    · simp at h
  | deliverLateAppend k =>
    simp only [step, Option.bind_eq_bind, Option.pure_def, Option.bind_eq_some_iff,
      Option.some.injEq] at h
    obtain ⟨⟨j, args⟩, ha, ⟨nd, reply⟩, hh, rfl⟩ := h
    exact .deliverLateAppend ha hh
  | finishAppend i j =>
    simp only [step] at h
    split at h
    · next args reply ha =>
      simp only [Option.some.injEq] at h
      subst h
      exact .finishAppend ha
    · simp at h
  | abandonAppend i j =>
    simp only [step] at h
    split at h
    · next args ha =>
      simp only [Option.some.injEq] at h
      subst h
      exact .loseRequest ha
    · simp only [Option.some.injEq] at h
      subst h
      exact .loseReply
    · simp at h
  | apply i =>
    simp only [step, Option.bind_eq_bind, Option.pure_def, Option.bind_eq_some_iff,
      Option.some.injEq] at h
    obtain ⟨⟨nd, msg⟩, ha, rfl⟩ := h
    exact .apply ha

/-- What a node has emitted stays. -/
theorem Step.emitted {c c' : Cluster n} {a : Action n} (h : Step c a c') (i : Fin n) :
    c.emitted i <+: c'.emitted i := by
  cases h with
  | @apply j nd msg ha =>
    by_cases hi : i = j
    · subst hi
      simp
    · simp [hi]
  | _ => exact List.prefix_rfl

end Cluster

/-- The runs of a cluster of `n` nodes with one peer list of `n` addresses. -/
def cluster (n : Nat) : Machine (Cluster n) (Action n) where
  initial c := ∃ peers : List String, peers.length = n ∧ c = Cluster.start peers
  step := Cluster.step

end KvRaft.Raft
