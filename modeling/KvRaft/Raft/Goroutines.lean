import KvRaft.Raft.CommitRule

/-! The goroutines of the nodes and the channels that wake them. `NewNode` starts one goroutine for
`run`, one for `applyCommittedEntries` and one `replicationWorker` for each peer; the commit index,
submitted commands, heartbeats and granted votes reach them through channels whose sends are dropped
when the channel is full. A node takes the steps of the cluster only where one of its goroutines has
got to them. -/

namespace KvRaft.Raft

/-- Where a call of `signalAllReplications` stands. -/
inductive Signal (n : Nat)
  /-- before it reads the state -/
  | check
  /-- with the workers that it has still to signal -/
  | send (peers : List (Fin n))
deriving DecidableEq

/-- Where the goroutine of `run` stands, next to its place in the cluster's `Loop`. -/
inductive MainLoop (n : Nat)
  /-- before the check of `shutdownCh` -/
  | top
  /-- past the check, before it reads the state -/
  | read
  /-- in `runFollower`, `runCandidate` or `runLeader` -/
  | inside
  /-- `runFollower` has the value of the timer and not yet the lock -/
  | timedOut
  /-- in `signalAllReplications`, called by `runLeader` or by `runCandidate` on its return -/
  | signal (s : Signal n) (byLeader : Bool)
  | stopped
deriving DecidableEq

/-- Where the goroutine of `applyCommittedEntries` stands. -/
inductive Applier
  /-- before the check of `shutdownCh` -/
  | top
  /-- past the check, before it takes the lock -/
  | take
  /-- about to send to `applyCh` -/
  | send (msg : ApplyMsg)
  /-- in the `select` on `commitNotifyCh` -/
  | wait
  | stopped
deriving DecidableEq

/-- Where a `replicationWorker` stands. -/
inductive Worker
  /-- in the `select` on its trigger; `lost` records that its last call failed or timed out -/
  | wait (lost : Bool)
  /-- about to call `replicateToFollower` -/
  | call
  /-- in the call -/
  | calling
  | stopped
deriving DecidableEq

/-- `electionTimer`: a timer that has fired holds its value until it is taken, stopped or reset. -/
inductive Timer
  | stopped
  | running
  | fired
deriving DecidableEq

/-- The goroutines and the channels of one node. A channel of capacity 1 that carries no data is a
flag, the two of capacity 100 are counters, and `received` lists what has left `applyCh`. -/
structure Routines (n : Nat) where
  main : MainLoop n
  applier : Applier
  worker : Fin n → Worker
  /-- the `Submit` calls that have released the lock and are in `signalAllReplications` -/
  submits : List (Signal n)
  electionTimer : Timer
  commitNotifyCh : Bool
  heartbeatCh : Nat
  voteCh : Nat
  replicationTrigger : Fin n → Bool
  shutdownCh : Bool
  applyCh : List ApplyMsg
  received : List ApplyMsg

variable {n : Nat}

/-- A send to `heartbeatCh` or `voteCh`, dropped at the capacity. -/
def offer (queued : Nat) : Nat := if queued < 100 then queued + 1 else queued

/-- The peers that `signalAllReplications` of node `i` collects. -/
def otherPeers (i : Fin n) : List (Fin n) := (List.finRange n).filter (· ≠ i)

namespace Routines

/-- `run` has armed the timer, and no worker runs for the node itself. -/
def start (i : Fin n) : Routines n where
  main := .top
  applier := .top
  worker j := if j = i then .stopped else .wait false
  submits := []
  electionTimer := .running
  commitNotifyCh := false
  heartbeatCh := 0
  voteCh := 0
  replicationTrigger _ := false
  shutdownCh := false
  applyCh := []
  received := []

def setWorker (r : Routines n) (j : Fin n) (x : Worker) : Routines n :=
  { r with worker := Function.update r.worker j x }

def setTrigger (r : Routines n) (j : Fin n) (x : Bool) : Routines n :=
  { r with replicationTrigger := Function.update r.replicationTrigger j x }

/-- The function that `run` enters: `runFollower` resets the timer, `runLeader` signals the
workers. -/
def enter (r : Routines n) : Loop → Routines n
  | .follower => { r with main := .inside, electionTimer := .running }
  | .leader => { r with main := .signal .check true }
  | _ => { r with main := .inside }

/-- `runFollower` returns after a heartbeat or a granted vote. -/
def wake (r : Routines n) : Routines n := { r with main := .top, electionTimer := .running }

/-- The calls of `signalAllReplications` of a node: that of `run`, or one of those of `Submit`. -/
def signalAt (r : Routines n) : Option Nat → Option (Signal n)
  | none =>
    match r.main with
    | .signal s _ => some s
    | _ => none
  | some k => r.submits[k]?

/-- The call goes on with the workers that are left, or returns. -/
def continueSignal (r : Routines n) (src : Option Nat) (peers : List (Fin n)) : Routines n :=
  match src with
  | none =>
    match r.main with
    | .signal _ byLeader =>
      { r with main :=
          if peers ≠ [] then .signal (.send peers) byLeader
          else if byLeader then .inside else .top }
    | _ => r
  | some k =>
    { r with submits :=
        if peers ≠ [] then r.submits.set k (.send peers) else r.submits.eraseIdx k }

/-- What `HandleRequestVote` sends. -/
def voted (r : Routines n) (reply : RequestVoteReply) : Routines n :=
  { r with voteCh := if reply.voteGranted then offer r.voteCh else r.voteCh }

/-- What `HandleAppendEntries` of `nd` sends: a heartbeat unless the request is stale, and a commit
notification if the request is accepted and its commit index is past the node's. -/
def heard (r : Routines n) (nd : Node) (args : AppendEntriesArgs) (reply : AppendEntriesReply) :
    Routines n :=
  { r with
    heartbeatCh := if args.term < nd.currentTerm then r.heartbeatCh else offer r.heartbeatCh
    commitNotifyCh :=
      r.commitNotifyCh || (reply.success && decide (args.leaderCommit > nd.commitIndex)) }

/-- The worker for `j` returns from a call: it calls again or waits, and the commit rule has sent a
notification if it has moved the commit index. -/
def replied (r : Routines n) (j : Fin n) (nd nd' : Node) (again : Bool) : Routines n :=
  { r.setWorker j (if again then .call else .wait false) with
    commitNotifyCh := r.commitNotifyCh || decide (nd.commitIndex ≠ nd'.commitIndex) }

end Routines

/-- A cluster with the goroutines of its nodes. -/
structure Wired (n : Nat) where
  cluster : Cluster n
  routines : Fin n → Routines n

/-- One step of one goroutine up to the next point where it can wait or be overtaken, the arrival of
one request, the end of a timer, or a client's or the server's use of a node. -/
inductive Turn (n : Nat)
  /-- `run` checks `shutdownCh` -/
  | checkShutdown (i : Fin n)
  | readState (i : Fin n)
  | takeHeartbeat (i : Fin n)
  | takeVote (i : Fin n)
  /-- the election timer ends -/
  | timerFires (i : Fin n)
  /-- `runFollower` or `runCandidate` takes its value -/
  | takeTimer (i : Fin n)
  | electionTimeout (i : Fin n)
  | startElection (i : Fin n)
  | countVote (i j : Fin n)
  | leaderTick (i : Fin n)
  /-- the `select` that `run` is in takes the end of `shutdownCh` -/
  | stopMain (i : Fin n)
  /-- `signalAllReplications` of `run`, or of the `Submit` call with a number, reads the state -/
  | signalCheck (i : Fin n) (src : Option Nat)
  | signalSend (i : Fin n) (src : Option Nat) (j : Fin n)
  /-- the applier checks `shutdownCh` -/
  | applierCheck (i : Fin n)
  | applierTake (i : Fin n)
  | applierSend (i : Fin n)
  | applierWake (i : Fin n)
  | applierStop (i : Fin n)
  /-- the server receives from `applyCh` -/
  | receive (i : Fin n)
  | takeTrigger (i j : Fin n)
  | callFollower (i j : Fin n)
  | finishAppend (i j : Fin n)
  | abandonAppend (i j : Fin n)
  | stopWorker (i j : Fin n)
  | deliverVote (i j : Fin n)
  | deliverLateVote (k : Nat)
  | deliverAppend (i j : Fin n)
  | deliverLateAppend (k : Nat)
  | submit (i : Fin n) (cmd : Command)
  | shutdown (i : Fin n)
deriving DecidableEq

namespace Wired

def start (peers : List String) : Wired n where
  cluster := Cluster.start peers
  routines := Routines.start

def set (w : Wired n) (i : Fin n) (r : Routines n) : Wired n :=
  { w with routines := Function.update w.routines i r }

/-- The cluster takes a step, which leaves node `i` with the goroutines `r`. -/
def move (w : Wired n) (a : Action n) (i : Fin n) (r : Cluster n → Routines n) :
    Option (Wired n) := do
  let c ← w.cluster.step a
  return { cluster := c, routines := Function.update w.routines i (r c) }

/-- `capacity` is that of `applyCh`. -/
def step (capacity : Nat) (w : Wired n) : Turn n → Option (Wired n)
  -- run
  | .checkShutdown i =>
    let r := w.routines i
    if r.main = .top then
      some (w.set i { r with main := if r.shutdownCh then .stopped else .read })
    else none
  | .readState i =>
    let r := w.routines i
    if r.main = .read then w.move (.readState i) i fun c => r.enter (c.loop i) else none
  | .takeHeartbeat i =>
    let r := w.routines i
    if r.main = .inside ∧ 0 < r.heartbeatCh then
      w.move (.wakeFollower i) i fun _ => { r.wake with heartbeatCh := r.heartbeatCh - 1 }
    else none
  | .takeVote i =>
    let r := w.routines i
    if r.main = .inside ∧ 0 < r.voteCh then
      w.move (.wakeFollower i) i fun _ => { r.wake with voteCh := r.voteCh - 1 }
    else none
  | .timerFires i =>
    let r := w.routines i
    if r.electionTimer = .running then some (w.set i { r with electionTimer := .fired }) else none
  | .takeTimer i =>
    let r := w.routines i
    if r.main = .inside ∧ r.electionTimer = .fired then
      match w.cluster.loop i with
      | .follower => some (w.set i { r with main := .timedOut, electionTimer := .stopped })
      | .counting _ _ => w.move (.abandonElection i) i fun _ =>
          { r with main := .top, electionTimer := .stopped }
      | _ => none
    else none
  | .electionTimeout i =>
    let r := w.routines i
    if r.main = .timedOut then
      w.move (.electionTimeout i) i fun _ => { r with main := .top }
    else none
  | .startElection i =>
    let r := w.routines i
    if r.main = .inside then
      w.move (.startElection i) i fun _ => { r with electionTimer := .running }
    else none
  | .countVote i j =>
    let r := w.routines i
    if r.main = .inside then
      w.move (.countVote i j) i fun c =>
        { r with main :=
            if c.loop i ≠ .top then .inside
            else if (c.node i).state = .leader then .signal .check false else .top }
    else none
  | .leaderTick i =>
    let r := w.routines i
    if r.main = .inside then
      w.move (.leaderTick i) i fun c =>
        { r with main := if c.loop i = .leader then .signal .check true else .top }
    else none
  | .stopMain i =>
    let r := w.routines i
    if r.main = .inside ∧ r.shutdownCh ∧ w.cluster.loop i ≠ .candidate then
      some (w.set i { r with main := .stopped })
    else none
  -- signalAllReplications
  | .signalCheck i src =>
    let r := w.routines i
    if r.signalAt src = some .check then
      some (w.set i (r.continueSignal src
        (if (w.cluster.node i).state = .leader then otherPeers i else [])))
    else none
  | .signalSend i src j =>
    let r := w.routines i
    match r.signalAt src with
    | some (.send peers) =>
      if j ∈ peers then some (w.set i ((r.continueSignal src (peers.erase j)).setTrigger j true))
      else none
    | _ => none
  -- applyCommittedEntries
  | .applierCheck i =>
    let r := w.routines i
    if r.applier = .top then
      some (w.set i { r with applier := if r.shutdownCh then .stopped else .take })
    else none
  | .applierTake i =>
    let r := w.routines i
    if r.applier = .take then
      if (w.cluster.node i).lastApplied < (w.cluster.node i).commitIndex then do
        let (_, msg) ← (w.cluster.node i).applyNext
        w.move (.apply i) i fun _ => { r with applier := .send msg }
      else some (w.set i { r with applier := .wait })
    else none
  | .applierSend i =>
    let r := w.routines i
    match r.applier with
    | .send msg =>
      if r.applyCh.length < capacity then
        some (w.set i { r with applier := .top, applyCh := r.applyCh ++ [msg] })
      else none
    | _ => none
  | .applierWake i =>
    let r := w.routines i
    if r.applier = .wait ∧ r.commitNotifyCh then
      some (w.set i { r with applier := .top, commitNotifyCh := false })
    else none
  | .applierStop i =>
    let r := w.routines i
    if r.applier = .wait ∧ r.shutdownCh then some (w.set i { r with applier := .stopped }) else none
  | .receive i =>
    let r := w.routines i
    match r.applyCh with
    | msg :: rest => some (w.set i { r with applyCh := rest, received := r.received ++ [msg] })
    | [] => none
  -- replicationWorker
  | .takeTrigger i j =>
    let r := w.routines i
    match r.worker j with
    | .wait _ =>
      if r.replicationTrigger j then some (w.set i ((r.setWorker j .call).setTrigger j false))
      else none
    | _ => none
  | .callFollower i j =>
    let r := w.routines i
    if r.worker j = .call then
      match (w.cluster.node i).replicateArgs j with
      | none => some (w.set i (r.setWorker j (.wait false)))
      | some _ => w.move (.replicate i j) i fun _ => r.setWorker j .calling
    else none
  | .finishAppend i j =>
    let r := w.routines i
    if r.worker j = .calling then
      match w.cluster.append i j with
      | .answered args reply => w.move (.finishAppend i j) i fun c =>
          r.replied j (w.cluster.node i) (c.node i)
            ((w.cluster.node i).replicateReply j args reply).2
      | _ => none
    else none
  | .abandonAppend i j =>
    let r := w.routines i
    if r.worker j = .calling then
      w.move (.abandonAppend i j) i fun _ => r.setWorker j (.wait true)
    else none
  | .stopWorker i j =>
    let r := w.routines i
    match r.worker j with
    | .wait _ => if r.shutdownCh then some (w.set i (r.setWorker j .stopped)) else none
    | _ => none
  -- the handlers
  | .deliverVote i j =>
    match w.cluster.vote i j with
    | .sent args => do
      let (_, reply) ← (w.cluster.node j).handleRequestVote args
      w.move (.deliverVote i j) j fun _ => (w.routines j).voted reply
    | _ => none
  | .deliverLateVote k => do
    let (j, args) ← w.cluster.lateVotes[k]?
    let (_, reply) ← (w.cluster.node j).handleRequestVote args
    w.move (.deliverLateVote k) j fun _ => (w.routines j).voted reply
  | .deliverAppend i j =>
    match w.cluster.append i j with
    | .sent args => do
      let (_, reply) ← (w.cluster.node j).handleAppendEntries args
      w.move (.deliverAppend i j) j fun _ =>
        (w.routines j).heard (w.cluster.node j) args reply
    | _ => none
  | .deliverLateAppend k => do
    let (j, args) ← w.cluster.lateAppends[k]?
    let (_, reply) ← (w.cluster.node j).handleAppendEntries args
    w.move (.deliverLateAppend k) j fun _ => (w.routines j).heard (w.cluster.node j) args reply
  -- Submit and Shutdown
  | .submit i cmd =>
    let r := w.routines i
    w.move (.submit i cmd) i fun _ => { r with submits := r.submits ++ [.check] }
  | .shutdown i =>
    let r := w.routines i
    if r.shutdownCh then some w
    else some (w.set i { r with shutdownCh := true, electionTimer := .stopped })

end Wired

/-- The runs of `n` nodes whose apply channels have the given capacity. -/
def wired (n capacity : Nat) : Machine (Wired n) (Turn n) where
  initial w := ∃ peers : List String, peers.length = n ∧ w = Wired.start peers
  step := Wired.step capacity

/-! ### What a turn can do to a node -/

/-- What a node, its goroutines and their calls have of the state. -/
structure Local (n : Nat) where
  node : Node
  loop : Loop
  calls : Fin n → Option AppendEntriesArgs
  emitted : List ApplyMsg
  routines : Routines n

/-- Everything that a turn can do to node `i`, with the reason it could. A reply that ends a call of
a worker meets `guard`. -/
inductive Local.Step (guard : Local n → Fin n → AppendEntriesArgs → AppendEntriesReply → Prop)
    (capacity : Nat) (i : Fin n) (x : Local n) : Local n → Prop
  | idle : Local.Step guard capacity i x x
  | checkShutdown (h : x.routines.main = .top) : Local.Step guard capacity i x
      { x with routines.main := if x.routines.shutdownCh then .stopped else .read }
  | readState (h : x.routines.main = .read) (hl : x.loop = .top) : Local.Step guard capacity i x
      { x with
        loop := Cluster.loopOf x.node.state
        routines := x.routines.enter (Cluster.loopOf x.node.state) }
  | woken (h : x.routines.main = .inside) (hl : x.loop = .follower) (hearts votes : Nat) :
      Local.Step guard capacity i x
        { x with
          loop := .top
          routines := { x.routines.wake with heartbeatCh := hearts, voteCh := votes } }
  | timerFires (h : x.routines.electionTimer = .running) : Local.Step guard capacity i x
      { x with routines.electionTimer := .fired }
  | takeTimer (h : x.routines.main = .inside) (hl : x.loop = .follower) :
      Local.Step guard capacity i x
        { x with routines.main := .timedOut, routines.electionTimer := .stopped }
  | abandonElection {T v : Int} (h : x.routines.main = .inside) (hl : x.loop = .counting T v) :
      Local.Step guard capacity i x
        { x with loop := .top, routines.main := .top, routines.electionTimer := .stopped }
  | electionTimeout (h : x.routines.main = .timedOut) (hl : x.loop = .follower) :
      Local.Step guard capacity i x
        { x with node := x.node.electionTimeout, loop := .top, routines.main := .top }
  | startElection {nd : Node} {args : RequestVoteArgs} (h : x.routines.main = .inside)
      (hl : x.loop = .candidate) (hs : x.node.startElection = some (nd, args)) :
      Local.Step guard capacity i x
        { x with node := nd, loop := .counting args.term 1, routines.electionTimer := .running }
  | stepDown {T v t : Int} (h : x.routines.main = .inside) (hl : x.loop = .counting T v) :
      Local.Step guard capacity i x
        { x with node := x.node.becomeFollowerLocked t, loop := .top, routines.main := .top }
  | win {T v : Int} (h : x.routines.main = .inside) (hl : x.loop = .counting T v)
      (hstate : x.node.state = .candidate) (hterm : x.node.currentTerm = T) :
      Local.Step guard capacity i x
        { x with
          node := x.node.becomeLeaderLocked
          loop := .top
          routines.main := .signal .check false }
  | tally {T v v' : Int} (h : x.routines.main = .inside) (hl : x.loop = .counting T v) :
      Local.Step guard capacity i x { x with loop := .counting T v' }
  | leaderTick (h : x.routines.main = .inside) (hl : x.loop = .leader)
      (hs : x.node.state = .leader) : Local.Step guard capacity i x
        { x with routines.main := .signal .check true }
  | leaderReturns (h : x.routines.main = .inside) (hl : x.loop = .leader)
      (hs : x.node.state ≠ .leader) : Local.Step guard capacity i x
        { x with loop := .top, routines.main := .top }
  | stopMain (h : x.routines.main = .inside) (hs : x.routines.shutdownCh = true) :
      Local.Step guard capacity i x { x with routines.main := .stopped }
  | signalCheck {src : Option Nat} (h : x.routines.signalAt src = some .check) :
      Local.Step guard capacity i x
        { x with
          routines := x.routines.continueSignal src
            (if x.node.state = .leader then otherPeers i else []) }
  | signalSend {src : Option Nat} {peers : List (Fin n)} {j : Fin n}
      (h : x.routines.signalAt src = some (.send peers)) (hj : j ∈ peers) :
      Local.Step guard capacity i x
        { x with routines := (x.routines.continueSignal src (peers.erase j)).setTrigger j true }
  | applierCheck (h : x.routines.applier = .top) : Local.Step guard capacity i x
      { x with routines.applier := if x.routines.shutdownCh then .stopped else .take }
  | apply {nd : Node} {msg : ApplyMsg} (h : x.routines.applier = .take)
      (ha : x.node.applyNext = some (nd, msg)) : Local.Step guard capacity i x
        { x with node := nd, emitted := x.emitted ++ [msg], routines.applier := .send msg }
  | applierWait (h : x.routines.applier = .take)
      (ha : ¬ x.node.lastApplied < x.node.commitIndex) : Local.Step guard capacity i x
        { x with routines.applier := .wait }
  | applierSend {msg : ApplyMsg} (h : x.routines.applier = .send msg)
      (hroom : x.routines.applyCh.length < capacity) : Local.Step guard capacity i x
        { x with routines.applier := .top, routines.applyCh := x.routines.applyCh ++ [msg] }
  | applierWake (h : x.routines.applier = .wait) (hn : x.routines.commitNotifyCh = true) :
      Local.Step guard capacity i x
        { x with routines.applier := .top, routines.commitNotifyCh := false }
  | applierStop (h : x.routines.applier = .wait) (hs : x.routines.shutdownCh = true) :
      Local.Step guard capacity i x { x with routines.applier := .stopped }
  | receive {msg : ApplyMsg} {rest : List ApplyMsg} (h : x.routines.applyCh = msg :: rest) :
      Local.Step guard capacity i x
        { x with
          routines.applyCh := rest
          routines.received := x.routines.received ++ [msg] }
  | takeTrigger {j : Fin n} {lost : Bool} (h : x.routines.worker j = .wait lost)
      (ht : x.routines.replicationTrigger j = true) : Local.Step guard capacity i x
        { x with routines := (x.routines.setWorker j .call).setTrigger j false }
  | callNobody {j : Fin n} (h : x.routines.worker j = .call)
      (ha : x.node.replicateArgs j = none) : Local.Step guard capacity i x
        { x with routines := x.routines.setWorker j (.wait false) }
  | callFollower {j : Fin n} {args : AppendEntriesArgs} (h : x.routines.worker j = .call)
      (ha : x.node.replicateArgs j = some args) : Local.Step guard capacity i x
        { x with
          calls := Function.update x.calls j (some args)
          routines := x.routines.setWorker j .calling }
  | finishAppend {j : Fin n} {args : AppendEntriesArgs} {reply : AppendEntriesReply}
      (h : x.routines.worker j = .calling) (hc : x.calls j = some args)
      (hg : guard x j args reply) : Local.Step guard capacity i x
        { x with
          node := (x.node.replicateReply j args reply).1
          calls := Function.update x.calls j none
          routines := x.routines.replied j x.node (x.node.replicateReply j args reply).1
            (x.node.replicateReply j args reply).2 }
  | abandonAppend {j : Fin n} (h : x.routines.worker j = .calling) : Local.Step guard capacity i x
      { x with
        calls := Function.update x.calls j none
        routines := x.routines.setWorker j (.wait true) }
  | stopWorker {j : Fin n} {lost : Bool} (h : x.routines.worker j = .wait lost)
      (hs : x.routines.shutdownCh = true) : Local.Step guard capacity i x
        { x with routines := x.routines.setWorker j .stopped }
  | vote {nd : Node} {args : RequestVoteArgs} {reply : RequestVoteReply}
      (hh : x.node.handleRequestVote args = some (nd, reply)) : Local.Step guard capacity i x
        { x with node := nd, routines := x.routines.voted reply }
  | append {nd : Node} {args : AppendEntriesArgs} {reply : AppendEntriesReply}
      (hh : x.node.handleAppendEntries args = some (nd, reply)) : Local.Step guard capacity i x
        { x with node := nd, routines := x.routines.heard x.node args reply }
  | submit {nd : Node} {cmd : Command} {index term : Int}
      (hs : x.node.submit cmd = some (nd, index, term)) : Local.Step guard capacity i x
        { x with node := nd, routines.submits := x.routines.submits ++ [.check] }
  | shutdown : Local.Step guard capacity i x
      { x with routines.shutdownCh := true, routines.electionTimer := .stopped }

namespace Wired

variable {capacity : Nat} {w w' : Wired n} {t : Turn n}
  {guard : Local n → Fin n → AppendEntriesArgs → AppendEntriesReply → Prop}

def nodeAt (w : Wired n) (i : Fin n) : Local n where
  node := w.cluster.node i
  loop := w.cluster.loop i
  calls := w.cluster.calls i
  emitted := w.cluster.emitted i
  routines := w.routines i

theorem nodeAt_set_same (w : Wired n) (i : Fin n) (r : Routines n) :
    (w.set i r).nodeAt i = { w.nodeAt i with routines := r } := by
  simp [nodeAt, set]

theorem nodeAt_set_ne (w : Wired n) {i k : Fin n} (r : Routines n) (h : k ≠ i) :
    (w.set i r).nodeAt k = w.nodeAt k := by
  simp [nodeAt, set, h]

theorem move_eq_some {a : Action n} {i : Fin n} {r : Cluster n → Routines n}
    (h : w.move a i r = some w') : ∃ c, w.cluster.step a = some c ∧
      w' = { cluster := c, routines := Function.update w.routines i (r c) } := by
  simp only [move, Option.bind_eq_bind, Option.pure_def, Option.bind_eq_some_iff,
    Option.some.injEq] at h
  obtain ⟨c, hc, rfl⟩ := h
  exact ⟨c, hc, rfl⟩

/-- A turn changes one node, as `Local.Step` says, and leaves the others; the cluster takes a step
or stays as it is. -/
structure Turns (guard : Local n → Fin n → AppendEntriesArgs → AppendEntriesReply → Prop)
    (capacity : Nat) (w w' : Wired n) : Prop where
  node : ∃ p, Local.Step guard capacity p (w.nodeAt p) (w'.nodeAt p) ∧
    ∀ k, k ≠ p → w'.nodeAt k = w.nodeAt k
  cluster : w'.cluster = w.cluster ∨ ∃ a, w.cluster.step a = some w'.cluster

/-- Only the goroutines of `i` move. -/
theorem turns_set {i : Fin n} {r : Routines n}
    (h : Local.Step guard capacity i (w.nodeAt i) { w.nodeAt i with routines := r }) :
    Turns guard capacity w (w.set i r) where
  node := ⟨i, by rw [nodeAt_set_same]; exact h, fun k hk => nodeAt_set_ne w r hk⟩
  cluster := Or.inl rfl

/-- The cluster takes a step that changes node `i`, its place in `run`, its calls and what it has
emitted, and nothing of this of the other nodes. -/
theorem turns_move {a : Action n} {i : Fin n} {r : Routines n} {c : Cluster n}
    (hc : w.cluster.step a = some c)
    (h : Local.Step guard capacity i (w.nodeAt i)
      ⟨c.node i, c.loop i, c.calls i, c.emitted i, r⟩)
    (hnode : ∀ k, k ≠ i → c.node k = w.cluster.node k)
    (hloop : ∀ k, k ≠ i → c.loop k = w.cluster.loop k)
    (hcalls : ∀ k, k ≠ i → c.calls k = w.cluster.calls k)
    (hemitted : ∀ k, k ≠ i → c.emitted k = w.cluster.emitted k) :
    Turns guard capacity w { cluster := c, routines := Function.update w.routines i r } where
  node := by
    refine ⟨i, by simpa [nodeAt] using h, fun k hk => ?_⟩
    simp [nodeAt, hnode k hk, hloop k hk, hcalls k hk, hemitted k hk, hk]
  cluster := Or.inr ⟨a, hc⟩

theorem calls_setAppend_same (c : Cluster n) (i j : Fin n) (a : AppendCall) :
    (c.setAppend i j a).calls i = Function.update (c.calls i) j a.request := by
  funext k
  by_cases hk : k = j <;> simp [Cluster.calls, Cluster.setAppend_apply, hk]

theorem calls_setAppend_ne (c : Cluster n) {i k : Fin n} (j : Fin n) (a : AppendCall)
    (h : k ≠ i) : (c.setAppend i j a).calls k = c.calls k := by
  funext m
  simp [Cluster.calls, Cluster.setAppend_apply, h]

theorem turns_woken {i : Fin n} {r : Routines n} {c : Cluster n} (hearts votes : Nat)
    (hr : r = { (w.routines i).wake with heartbeatCh := hearts, voteCh := votes })
    (hm : (w.routines i).main = .inside) (hc : w.cluster.step (.wakeFollower i) = some c) :
    Turns guard capacity w { cluster := c, routines := Function.update w.routines i r } := by
  subst hr
  cases Cluster.Step.of_step hc with
  | wakeFollower hl =>
    refine turns_move hc ?_ (fun _ _ => rfl) (fun k hk => by simp [hk]) (fun _ _ => rfl)
      fun _ _ => rfl
    rw [Cluster.setLoop_same]
    exact .woken hm hl hearts votes

theorem turns_of_step (h : w.step capacity t = some w')
    (hguard : ∀ i j args reply, w.cluster.append i j = .answered args reply →
      guard (w.nodeAt i) j args reply) : Turns guard capacity w w' := by
  cases t with
  | checkShutdown i =>
    simp only [step, Option.ite_none_right_eq_some, Option.some.injEq] at h
    obtain ⟨hm, rfl⟩ := h
    exact turns_set (.checkShutdown hm)
  | readState i =>
    simp only [step, Option.ite_none_right_eq_some] at h
    obtain ⟨hm, hmove⟩ := h
    obtain ⟨c, hc, rfl⟩ := move_eq_some hmove
    cases Cluster.Step.of_step hc with
    | readState hl =>
      refine turns_move hc ?_ (fun _ _ => rfl) (fun k hk => by simp [hk]) (fun _ _ => rfl)
        fun _ _ => rfl
      rw [Cluster.setLoop_same]
      exact .readState hm hl
  | takeHeartbeat i =>
    simp only [step, Option.ite_none_right_eq_some] at h
    obtain ⟨⟨hm, -⟩, hmove⟩ := h
    obtain ⟨c, hc, rfl⟩ := move_eq_some hmove
    exact turns_woken _ _ rfl hm hc
  | takeVote i =>
    simp only [step, Option.ite_none_right_eq_some] at h
    obtain ⟨⟨hm, -⟩, hmove⟩ := h
    obtain ⟨c, hc, rfl⟩ := move_eq_some hmove
    exact turns_woken _ _ rfl hm hc
  | timerFires i =>
    simp only [step, Option.ite_none_right_eq_some, Option.some.injEq] at h
    obtain ⟨ht, rfl⟩ := h
    exact turns_set (.timerFires ht)
  | takeTimer i =>
    simp only [step, Option.ite_none_right_eq_some] at h
    obtain ⟨⟨hm, -⟩, h⟩ := h
    split at h
    · next hl =>
      cases h
      exact turns_set (.takeTimer hm hl)
    · obtain ⟨c, hc, rfl⟩ := move_eq_some h
      cases Cluster.Step.of_step hc with
      | abandonElection hl =>
        refine turns_move hc ?_ (fun _ _ => rfl) (fun k hk => by simp [hk]) (fun _ _ => rfl)
          fun _ _ => rfl
        rw [Cluster.setLoop_same]
        exact .abandonElection hm hl
    · cases h
  | electionTimeout i =>
    simp only [step, Option.ite_none_right_eq_some] at h
    obtain ⟨hm, hmove⟩ := h
    obtain ⟨c, hc, rfl⟩ := move_eq_some hmove
    cases Cluster.Step.of_step hc with
    | electionTimeout hl =>
      refine turns_move hc ?_ (fun k hk => by simp [hk]) (fun k hk => by simp [hk]) (fun _ _ => rfl)
        fun _ _ => rfl
      rw [Cluster.setLoop_same, Cluster.setLoop_node, Cluster.setNode_same]
      exact .electionTimeout hm hl
  | startElection i =>
    simp only [step, Option.ite_none_right_eq_some] at h
    obtain ⟨hm, hmove⟩ := h
    obtain ⟨c, hc, rfl⟩ := move_eq_some hmove
    cases Cluster.Step.of_step hc with
    | startElection hl hs =>
      refine turns_move hc ?_ (fun k hk => by simp [hk]) (fun k hk => by simp [hk]) (fun _ _ => rfl)
        fun _ _ => rfl
      simp only [Cluster.setLoop_same, Cluster.setLoop_node, Cluster.setNode_same]
      exact .startElection hm hl hs
  | countVote i j =>
    simp only [step, Option.ite_none_right_eq_some] at h
    obtain ⟨hm, hmove⟩ := h
    obtain ⟨c, hc, rfl⟩ := move_eq_some hmove
    cases Cluster.Step.of_step hc with
    | stepDown hl =>
      refine turns_move hc ?_ (fun k hk => by simp [hk]) (fun k hk => by simp [hk]) (fun _ _ => rfl)
        fun _ _ => rfl
      simp only [Cluster.setLoop_same, Cluster.setLoop_node, Cluster.setVote_node,
        Cluster.setNode_same, ne_eq, not_true_eq_false, if_false,
        show ∀ (nd : Node) (t : Int), (nd.becomeFollowerLocked t).state = .follower from
          fun _ _ => rfl, reduceCtorEq]
      exact .stepDown hm hl
    | win hl _ _ hstate hterm =>
      refine turns_move hc ?_ (fun k hk => by simp [hk]) (fun k hk => by simp [hk]) (fun _ _ => rfl)
        fun _ _ => rfl
      simp only [Cluster.setLoop_same, Cluster.setLoop_node, Cluster.setVote_node,
        Cluster.setNode_same, ne_eq, not_true_eq_false, if_false,
        show ∀ nd : Node, nd.becomeLeaderLocked.state = .leader from fun _ => rfl, if_true]
      exact .win hm hl hstate hterm
    | tally hl =>
      refine turns_move hc ?_ (fun _ _ => rfl) (fun k hk => by simp [hk]) (fun _ _ => rfl)
        fun _ _ => rfl
      simp only [Cluster.setLoop_same, ne_eq, reduceCtorEq, not_false_eq_true, if_true, ← hm]
      exact .tally hm hl
  | leaderTick i =>
    simp only [step, Option.ite_none_right_eq_some] at h
    obtain ⟨hm, hmove⟩ := h
    obtain ⟨c, hc, rfl⟩ := move_eq_some hmove
    have heq := hc
    simp only [Cluster.step, Option.ite_none_right_eq_some, Option.some.injEq] at heq
    obtain ⟨hl, heq⟩ := heq
    by_cases hs : (w.cluster.node i).state = .leader
    · rw [if_pos hs] at heq
      subst heq
      refine turns_move hc ?_ (fun _ _ => rfl) (fun _ _ => rfl) (fun _ _ => rfl) fun _ _ => rfl
      rw [if_pos hl]
      exact .leaderTick hm hl hs
    · rw [if_neg hs] at heq
      subst heq
      refine turns_move hc ?_ (fun _ _ => rfl) (fun k hk => by simp [hk]) (fun _ _ => rfl)
        fun _ _ => rfl
      rw [Cluster.setLoop_same, if_neg (by simp)]
      exact .leaderReturns hm hl hs
  | stopMain i =>
    simp only [step, Option.ite_none_right_eq_some, Option.some.injEq] at h
    obtain ⟨⟨hm, hs, -⟩, rfl⟩ := h
    exact turns_set (.stopMain hm hs)
  | signalCheck i src =>
    simp only [step, Option.ite_none_right_eq_some, Option.some.injEq] at h
    obtain ⟨hs, rfl⟩ := h
    exact turns_set (.signalCheck hs)
  | signalSend i src j =>
    simp only [step] at h
    split at h
    · next peers hs =>
      simp only [Option.ite_none_right_eq_some, Option.some.injEq] at h
      obtain ⟨hj, rfl⟩ := h
      exact turns_set (.signalSend hs hj)
    · cases h
  | applierCheck i =>
    simp only [step, Option.ite_none_right_eq_some, Option.some.injEq] at h
    obtain ⟨ha, rfl⟩ := h
    exact turns_set (.applierCheck ha)
  | applierTake i =>
    simp only [step, Option.ite_none_right_eq_some] at h
    obtain ⟨ha, h⟩ := h
    split at h
    · simp only [Option.bind_eq_bind, Option.bind_eq_some_iff] at h
      obtain ⟨⟨nd, msg⟩, hnext, hmove⟩ := h
      obtain ⟨c, hc, rfl⟩ := move_eq_some hmove
      have heq := hc
      simp only [Cluster.step, hnext, Option.bind_eq_bind, Option.bind_some, Option.pure_def,
        Option.some.injEq] at heq
      subst heq
      refine turns_move hc ?_ (fun k hk => by simp [hk]) (fun _ _ => rfl) (fun _ _ => rfl)
        fun k hk => by simp [hk]
      simp only [Cluster.setNode_same, Function.update_self]
      exact .apply ha hnext
    · next hno =>
      cases h
      exact turns_set (.applierWait ha hno)
  | applierSend i =>
    simp only [step] at h
    split at h
    · next msg ha =>
      simp only [Option.ite_none_right_eq_some, Option.some.injEq] at h
      obtain ⟨hroom, rfl⟩ := h
      exact turns_set (.applierSend ha hroom)
    · cases h
  | applierWake i =>
    simp only [step, Option.ite_none_right_eq_some, Option.some.injEq] at h
    obtain ⟨⟨ha, hn⟩, rfl⟩ := h
    exact turns_set (.applierWake ha hn)
  | applierStop i =>
    simp only [step, Option.ite_none_right_eq_some, Option.some.injEq] at h
    obtain ⟨⟨ha, hs⟩, rfl⟩ := h
    exact turns_set (.applierStop ha hs)
  | receive i =>
    simp only [step] at h
    split at h
    · next msg rest hch =>
      cases h
      exact turns_set (.receive hch)
    · cases h
  | takeTrigger i j =>
    simp only [step] at h
    split at h
    · next lost hw =>
      simp only [Option.ite_none_right_eq_some, Option.some.injEq] at h
      obtain ⟨ht, rfl⟩ := h
      exact turns_set (.takeTrigger hw ht)
    · cases h
  | callFollower i j =>
    simp only [step, Option.ite_none_right_eq_some] at h
    obtain ⟨hw, h⟩ := h
    split at h
    · next ha =>
      cases h
      exact turns_set (.callNobody hw ha)
    · next args ha =>
      obtain ⟨c, hc, rfl⟩ := move_eq_some h
      cases Cluster.Step.of_step hc with
      | replicate hij ha' =>
        refine turns_move hc ?_ (fun _ _ => rfl) (fun _ _ => rfl)
          (fun k hk => calls_setAppend_ne _ _ _ hk) fun _ _ => rfl
        rw [calls_setAppend_same]
        exact .callFollower hw ha'
  | finishAppend i j =>
    simp only [step, Option.ite_none_right_eq_some] at h
    obtain ⟨hw, h⟩ := h
    split at h
    · next args reply ha =>
      obtain ⟨c, hc, rfl⟩ := move_eq_some h
      have heq := hc
      simp only [Cluster.step, ha, Option.some.injEq] at heq
      subst heq
      refine turns_move hc ?_ (fun k hk => by simp [hk]) (fun _ _ => rfl)
        (fun k hk => calls_setAppend_ne _ _ _ hk) fun _ _ => rfl
      rw [calls_setAppend_same, Cluster.setAppend_node, Cluster.setNode_same]
      exact .finishAppend hw (by simp [nodeAt, Cluster.calls, ha, AppendCall.request])
        (hguard i j args reply ha)
    · cases h
  | abandonAppend i j =>
    simp only [step, Option.ite_none_right_eq_some] at h
    obtain ⟨hw, hmove⟩ := h
    obtain ⟨c, hc, rfl⟩ := move_eq_some hmove
    cases Cluster.Step.of_step hc with
    | loseRequest =>
      refine turns_move hc ?_ (fun _ _ => rfl) (fun _ _ => rfl)
        (fun k hk => calls_setAppend_ne w.cluster j .idle hk) fun _ _ => rfl
      have hcalls := calls_setAppend_same w.cluster i j .idle
      exact hcalls ▸ Local.Step.abandonAppend hw
    | loseReply =>
      refine turns_move hc ?_ (fun _ _ => rfl) (fun _ _ => rfl)
        (fun k hk => calls_setAppend_ne _ _ _ hk) fun _ _ => rfl
      rw [calls_setAppend_same]
      exact .abandonAppend hw
  | stopWorker i j =>
    simp only [step] at h
    split at h
    · next lost hw =>
      simp only [Option.ite_none_right_eq_some, Option.some.injEq] at h
      obtain ⟨hs, rfl⟩ := h
      exact turns_set (.stopWorker hw hs)
    · cases h
  | deliverVote i j =>
    simp only [step] at h
    split at h
    · next args hv =>
      simp only [Option.bind_eq_bind, Option.bind_eq_some_iff] at h
      obtain ⟨⟨nd, reply⟩, hh, hmove⟩ := h
      obtain ⟨c, hc, rfl⟩ := move_eq_some hmove
      have heq := hc
      simp only [Cluster.step, hv, hh, Option.bind_eq_bind, Option.bind_some, Option.pure_def,
        Option.some.injEq] at heq
      subst heq
      refine turns_move hc ?_ (fun k hk => by simp [hk]) (fun _ _ => rfl) (fun _ _ => rfl)
        fun _ _ => rfl
      rw [Cluster.setVote_node, Cluster.setNode_same]
      exact .vote hh
    · cases h
  | deliverLateVote k =>
    simp only [step, Option.bind_eq_bind, Option.bind_eq_some_iff] at h
    obtain ⟨⟨j, args⟩, hv, ⟨nd, reply⟩, hh, hmove⟩ := h
    obtain ⟨c, hc, rfl⟩ := move_eq_some hmove
    have heq := hc
    simp only [Cluster.step, hv, hh, Option.bind_eq_bind, Option.bind_some, Option.pure_def,
      Option.some.injEq] at heq
    subst heq
    refine turns_move hc ?_ (fun k hk => by simp [hk]) (fun _ _ => rfl) (fun _ _ => rfl)
      fun _ _ => rfl
    simp only [Cluster.setNode_same]
    exact .vote hh
  | deliverAppend i j =>
    simp only [step] at h
    split at h
    · next args ha =>
      simp only [Option.bind_eq_bind, Option.bind_eq_some_iff] at h
      obtain ⟨⟨nd, reply⟩, hh, hmove⟩ := h
      obtain ⟨c, hc, rfl⟩ := move_eq_some hmove
      have heq := hc
      simp only [Cluster.step, ha, hh, Option.bind_eq_bind, Option.bind_some, Option.pure_def,
        Option.some.injEq] at heq
      subst heq
      -- the call of `i` keeps its request
      have hcalls : ∀ k, ((w.cluster.setNode j nd).setAppend i j (.answered args reply)).calls k =
          w.cluster.calls k := by
        intro k
        funext m
        simp only [Cluster.calls, Cluster.setAppend_apply, Cluster.setNode_append]
        split
        · next hkm => rw [hkm.1, hkm.2, ha]; rfl
        · rfl
      refine turns_move hc ?_ (fun k hk => by simp [hk]) (fun _ _ => rfl) (fun k _ => hcalls k)
        fun _ _ => rfl
      rw [hcalls, Cluster.setAppend_node, Cluster.setNode_same]
      exact .append hh
    · cases h
  | deliverLateAppend k =>
    simp only [step, Option.bind_eq_bind, Option.bind_eq_some_iff] at h
    obtain ⟨⟨j, args⟩, ha, ⟨nd, reply⟩, hh, hmove⟩ := h
    obtain ⟨c, hc, rfl⟩ := move_eq_some hmove
    have heq := hc
    simp only [Cluster.step, ha, hh, Option.bind_eq_bind, Option.bind_some, Option.pure_def,
      Option.some.injEq] at heq
    subst heq
    refine turns_move hc ?_ (fun k hk => by simp [hk]) (fun _ _ => rfl) (fun _ _ => rfl)
      fun _ _ => rfl
    simp only [Cluster.setNode_same]
    exact .append hh
  | submit i cmd =>
    simp only [step] at h
    obtain ⟨c, hc, rfl⟩ := move_eq_some h
    cases Cluster.Step.of_step hc with
    | submit hs =>
      refine turns_move hc ?_ (fun k hk => by simp [hk]) (fun _ _ => rfl) (fun _ _ => rfl)
        fun _ _ => rfl
      rw [Cluster.setNode_same]
      exact .submit hs
  | shutdown i =>
    simp only [step] at h
    split at h
    · cases h
      exact ⟨⟨i, .idle, fun _ _ => rfl⟩, Or.inl rfl⟩
    · cases h
      exact turns_set .shutdown

end Wired

end KvRaft.Raft
