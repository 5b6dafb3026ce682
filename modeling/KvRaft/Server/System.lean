import KvRaft.Lib.Recent
import KvRaft.Raft.Cluster
import KvRaft.Store.History

/-! `server/server.go` over a cluster of raft nodes: the calls of clients, the loop that applies
committed entries to the store of each server, and the tables through which the loop tells a call
that its entry has been applied. Servers neither restart nor close, and a run ends where the file
system would fail a call. -/

namespace KvRaft.Server

open Raft Store

structure PendingKey where
  index : Int
  term : Int
deriving DecidableEq

inductive Error
  | notLeader
  | commitTimeout
  /-- the error of the caller's context -/
  | canceled
  | serverClosed
  | store (err : Err)
deriving DecidableEq

/-- A call of a client. -/
inductive Request
  | get (key : Bytes)
  | put (key value : Bytes)
  | delete (key : Bytes)
deriving DecidableEq

/-- The command that the call submits. -/
def Request.command : Request → Command
  | .get _ => { type := .readBarrier }
  | .put key value => { type := .put, key := key, value := value }
  | .delete key => { type := .delete, key := key }

/-- What a call returns: `nil` is that of `Put` and `Delete`. -/
inductive Result
  | nil
  | value (bytes : Bytes)
  | failed (err : Error)
deriving DecidableEq

/-- Where a call stands. -/
inductive Progress
  | invoked
  /-- `Submit` has returned, and the call has not looked for a result yet -/
  | submitted
  /-- in the `select` of `submitAndWait`, with an empty channel -/
  | waiting
  /-- in the `select`, with a result in the channel -/
  | notified (err : Option Err)
  /-- a `Get` whose barrier has been applied -/
  | applied
  /-- a `Get` that has found the entry of its key -/
  | found (entry : KeyDirEntry)
  | returned (result : Result)

/-- A call on a node, with the key under which it waits. -/
structure ClientCall (n : Nat) where
  node : Fin n
  request : Request
  waitKey : Option PendingKey := none
  progress : Progress := .invoked

namespace ClientCall

variable {n : Nat}

/-- `submitAndWait` returns the result of the entry; a `Get` then goes on to the store. -/
def finish (call : ClientCall n) (err : Option Err) : ClientCall n :=
  { call with progress :=
      match err, call.request with
      | some err, _ => .returned (.failed (.store err))
      | none, .get _ => .applied
      | none, _ => .returned .nil }

/-- The channel of a waiting call takes the result. -/
def receive (call : ClientCall n) (err : Option Err) : ClientCall n :=
  { call with progress :=
      match call.progress with
      | .waiting => .notified err
      | progress => progress }

theorem finish_invoked (call : ClientCall n) (err : Option Err) :
    (call.finish err).progress ≠ .invoked := by
  simp only [finish]
  split <;> simp

theorem receive_invoked (call : ClientCall n) {err : Option Err}
    (h : (call.receive err).progress = .invoked) : call.receive err = call := by
  obtain ⟨node, request, waitKey, progress⟩ := call
  cases progress with
  | waiting => cases h
  | _ => rfl

def giveUp (call : ClientCall n) (canceled : Bool) : ClientCall n :=
  { call with progress := .returned (.failed (if canceled then .canceled else .commitTimeout)) }

end ClientCall

def maxCompletedNotifications : Nat := 1024

/-- `RaftKVServer` without its listeners and addresses. The channel from the raft node holds what
the node has emitted after the first `taken` messages; `applied` is the message between the store
and the tables. A call is named by the number under which the system knows it. -/
structure RaftKVServer where
  store : World
  taken : Nat := 0
  applied : Option (PendingKey × Option Err) := none
  pending : PendingKey → Option Nat := fun _ => none
  completed : PendingKey → Option (Option Err) := fun _ => none
  completionQ : List PendingKey := []

/-- What `applyCommittedEntries` does to the store. -/
def applyCommand (ts : Int64) (cmd : Command) : Op Unit :=
  match cmd.type with
  | .put => put ts cmd.key cmd.value
  | .delete => delete ts cmd.key
  | .readBarrier | .other _ => pure ()

namespace RaftKVServer

/-- A message from the channel is applied. -/
def applyMsg (srv : RaftKVServer) (ts : Int64) (msg : ApplyMsg) : Option RaftKVServer :=
  let key : PendingKey := ⟨msg.index, msg.term⟩
  match applyCommand ts msg.command srv.store with
  | .ok _ w => some { srv with store := w, taken := srv.taken + 1, applied := some (key, none) }
  | .error .fault _ => none
  | .error err w =>
    some { srv with store := w, taken := srv.taken + 1, applied := some (key, some err) }

/-- The result of an entry that no call waits for is kept, and the oldest of too many is dropped. -/
def complete (srv : RaftKVServer) (key : PendingKey) (err : Option Err) : RaftKVServer :=
  let srv :=
    if srv.completionQ.length ≥ maxCompletedNotifications then
      match srv.completionQ with
      | evict :: rest =>
        { srv with completed := Function.update srv.completed evict none, completionQ := rest }
      | [] => srv
    else srv
  { srv with completed := Function.update srv.completed key (some err)
             completionQ := srv.completionQ ++ [key] }

theorem applyMsg_cases {srv srv' : RaftKVServer} {ts : Int64} {msg : ApplyMsg}
    (h : srv.applyMsg ts msg = some srv') :
    ∃ w err, srv.store.after (applyCommand ts msg.command) = some w ∧
      (msg.command.type = .readBarrier → err = none) ∧
      srv' = { srv with
        store := w, taken := srv.taken + 1, applied := some (⟨msg.index, msg.term⟩, err) } := by
  simp only [applyMsg] at h
  split at h
  · next w hok =>
    exact ⟨w, none, World.after_ok hok, fun _ => rfl, (Option.some.inj h).symm⟩
  · cases h
  · next err w hne herr =>
    refine ⟨w, some err, World.after_error herr hne, fun hbarrier => ?_, (Option.some.inj h).symm⟩
    rw [applyCommand, hbarrier] at herr
    cases herr

/-- A result joins the table, and leaves the rest of the server alone. -/
theorem complete_same (srv : RaftKVServer) (key : PendingKey) (err : Option Err) :
    (srv.complete key err).store = srv.store ∧ (srv.complete key err).taken = srv.taken ∧
      (srv.complete key err).applied = srv.applied ∧
      (srv.complete key err).pending = srv.pending := by
  unfold complete
  split
  · split <;> exact ⟨rfl, rfl, rfl, rfl⟩
  · exact ⟨rfl, rfl, rfl, rfl⟩

theorem complete_completed {srv : RaftKVServer} {key k : PendingKey} {err e : Option Err}
    (h : (srv.complete key err).completed k = some e) :
    k = key ∧ e = err ∨ srv.completed k = some e := by
  by_cases hk : k = key
  · subst hk
    simp only [complete, Function.update_self, Option.some.injEq] at h
    exact Or.inl ⟨rfl, h.symm⟩
  · simp only [complete, Function.update_of_ne hk] at h
    refine Or.inr ?_
    split at h
    · split at h
      · exact (Recent.of_update_none h).2
      · exact h
    · exact h

end RaftKVServer

/-- The raft nodes, their servers, and the calls that clients have made. -/
structure System (n : Nat) where
  cluster : Cluster n
  server : Fin n → RaftKVServer
  calls : Nat → Option (ClientCall n) := fun _ => none

inductive Event (n : Nat)
  /-- a step of the raft nodes that is not a `Submit` -/
  | raft (a : Action n)
  | invoke (id : Nat) (i : Fin n) (request : Request)
  | submit (id : Nat)
  /-- under `pendingLock`, the call takes a kept result or starts to wait -/
  | register (id : Nat)
  /-- the call receives the result -/
  | wake (id : Nat)
  /-- the call's context ends -/
  | giveUp (id : Nat) (canceled : Bool)
  /-- `store.Get` finds the entry of the key -/
  | find (id : Nat)
  /-- `store.Get` reads the record of the entry -/
  | read (id : Nat)
  /-- the applier of a server takes a message and applies it, when its clock reads `ts` -/
  | apply (i : Fin n) (ts : Int64)
  /-- under `pendingLock`, the applier passes the result on -/
  | notify (i : Fin n)

/-- `Submit` is a step of the call that makes it. -/
def submits {n : Nat} : Action n → Bool
  | .submit _ _ => true
  | _ => false

namespace System

variable {n : Nat}

def setServer (s : System n) (i : Fin n) (srv : RaftKVServer) : System n :=
  { s with server := Function.update s.server i srv }

def setCall (s : System n) (id : Nat) (call : ClientCall n) : System n :=
  { s with calls := Function.update s.calls id (some call) }

def submit (s : System n) (id : Nat) (call : ClientCall n) : System n :=
  match (s.cluster.node call.node).submit call.request.command with
  | none => s.setCall id { call with progress := .returned (.failed .notLeader) }
  | some (nd, index, term) =>
    { s with cluster := s.cluster.setNode call.node nd }.setCall id
      { call with waitKey := some ⟨index, term⟩, progress := .submitted }

def register (s : System n) (id : Nat) (call : ClientCall n) (key : PendingKey) : System n :=
  let srv := s.server call.node
  match srv.completed key with
  | some err =>
    (s.setServer call.node { srv with completed := Function.update srv.completed key none }).setCall
      id (call.finish err)
  | none =>
    (s.setServer call.node
      { srv with pending := Function.update srv.pending key (some id) }).setCall
      id { call with progress := .waiting }

def giveUp (s : System n) (id : Nat) (call : ClientCall n) (key : PendingKey) (canceled : Bool) :
    System n :=
  let srv := s.server call.node
  (s.setServer call.node { srv with pending := Function.update srv.pending key none }).setCall
    id (call.giveUp canceled)

/-- A part of `store.Get`: the call goes on with what it returns, or returns its error. -/
def reading {α : Type} (s : System n) (id : Nat) (call : ClientCall n) (op : Op α)
    (next : α → Progress) : Option (System n) :=
  let srv := s.server call.node
  match op srv.store with
  | .ok a w => some ((s.setServer call.node { srv with store := w }).setCall id
      { call with progress := next a })
  | .error .fault _ => none
  | .error err w => some ((s.setServer call.node { srv with store := w }).setCall id
      { call with progress := .returned (.failed (.store err)) })

def notify (s : System n) (i : Fin n) (key : PendingKey) (err : Option Err) : System n :=
  let srv := { s.server i with applied := none }
  match srv.pending key with
  | some id =>
    let s := s.setServer i { srv with pending := Function.update srv.pending key none }
    match s.calls id with
    | some call => s.setCall id (call.receive err)
    | none => s
  | none => s.setServer i (srv.complete key err)

/-- One step, where the RPC layer delivers only the append requests that it can carry. -/
def step (carries : AppendEntriesArgs → Prop) [DecidablePred carries] (s : System n) :
    Event n → Option (System n)
  | .raft a =>
    if submits a = false ∧ ∀ args ∈ s.cluster.delivered a, carries args then
      (s.cluster.step a).map ({ s with cluster := · })
    else none
  | .invoke id i request =>
    match s.calls id with
    | none => some (s.setCall id { node := i, request := request })
    | some _ => none
  | .submit id => do
    let call ← s.calls id
    match call.progress with
    | .invoked => some (s.submit id call)
    | _ => none
  | .register id => do
    let call ← s.calls id
    match call.progress, call.waitKey with
    | .submitted, some key => some (s.register id call key)
    | _, _ => none
  | .wake id => do
    let call ← s.calls id
    match call.progress with
    | .notified err => some (s.setCall id (call.finish err))
    | _ => none
  | .giveUp id canceled => do
    let call ← s.calls id
    match call.progress, call.waitKey with
    | .waiting, some key | .notified _, some key => some (s.giveUp id call key canceled)
    | _, _ => none
  | .find id => do
    let call ← s.calls id
    match call.progress, call.request with
    | .applied, .get key => s.reading id call (findEntry key) .found
    | _, _ => none
  | .read id => do
    let call ← s.calls id
    match call.progress, call.request with
    | .found entry, .get key =>
      s.reading id call (readValue key entry) fun bytes => .returned (.value bytes)
    | _, _ => none
  | .apply i ts =>
    match (s.server i).applied with
    | none => do
      let msg ← (s.cluster.emitted i)[(s.server i).taken]?
      let srv ← (s.server i).applyMsg ts msg
      return s.setServer i srv
    | some _ => none
  | .notify i => do
    let (key, err) ← (s.server i).applied
    return s.notify i key err

theorem reading_cases {α : Type} {s s' : System n} {id : Nat} {call : ClientCall n} {op : Op α}
    {next : α → Progress} (h : s.reading id call op next = some s') :
    ∃ w progress, ((∃ a, progress = next a) ∨ ∃ err, progress = .returned (.failed (.store err))) ∧
      s' = (s.setServer call.node { s.server call.node with store := w }).setCall id
        { call with progress := progress } := by
  simp only [reading] at h
  split at h
  · exact ⟨_, _, Or.inl ⟨_, rfl⟩, (Option.some.inj h).symm⟩
  · cases h
  · exact ⟨_, _, Or.inr ⟨_, rfl⟩, (Option.some.inj h).symm⟩

/-- What each step can do, with the reason it could. -/
inductive Step (carries : AppendEntriesArgs → Prop) (s : System n) : System n → Prop
  | raft {a : Action n} {c : Cluster n} (hstep : s.cluster.step a = some c)
      (hp : ∀ args, s.cluster.delivered a = some args → carries args) :
      Step carries s { s with cluster := c }
  | invoke {id : Nat} {i : Fin n} {request : Request} (hnew : s.calls id = none) :
      Step carries s (s.setCall id { node := i, request := request })
  | refused {id : Nat} {call : ClientCall n} (hc : s.calls id = some call)
      (hp : call.progress = .invoked) :
      Step carries s (s.setCall id { call with progress := .returned (.failed .notLeader) })
  | submit {id : Nat} {call : ClientCall n} {nd : Node} {index term : Int}
      (hc : s.calls id = some call) (hp : call.progress = .invoked)
      (hs : (s.cluster.node call.node).submit call.request.command = some (nd, index, term)) :
      Step carries s ({ s with cluster := s.cluster.setNode call.node nd }.setCall id
        { call with waitKey := some ⟨index, term⟩, progress := .submitted })
  | take {id : Nat} {call : ClientCall n} {key : PendingKey} {err : Option Err}
      (hc : s.calls id = some call) (hp : call.progress = .submitted) (hk : call.waitKey = some key)
      (hd : (s.server call.node).completed key = some err) :
      Step carries s ((s.setServer call.node { s.server call.node with
        completed := Function.update (s.server call.node).completed key none }).setCall id
          (call.finish err))
  | wait {id : Nat} {call : ClientCall n} {key : PendingKey} (hc : s.calls id = some call)
      (hp : call.progress = .submitted) (hk : call.waitKey = some key)
      (hd : (s.server call.node).completed key = none) :
      Step carries s ((s.setServer call.node { s.server call.node with
        pending := Function.update (s.server call.node).pending key (some id) }).setCall id
          { call with progress := .waiting })
  | wake {id : Nat} {call : ClientCall n} {err : Option Err} (hc : s.calls id = some call)
      (hp : call.progress = .notified err) : Step carries s (s.setCall id (call.finish err))
  | giveUp {id : Nat} {call : ClientCall n} {key : PendingKey} {canceled : Bool}
      (hc : s.calls id = some call) (hk : call.waitKey = some key)
      (hp : call.progress = .waiting ∨ ∃ err, call.progress = .notified err) :
      Step carries s ((s.setServer call.node { s.server call.node with
        pending := Function.update (s.server call.node).pending key none }).setCall id
          (call.giveUp canceled))
  | find {id : Nat} {call : ClientCall n} {key : Bytes} {s' : System n}
      (hc : s.calls id = some call) (hp : call.progress = .applied) (hr : call.request = .get key)
      (hs : s.reading id call (findEntry key) .found = some s') : Step carries s s'
  | read {id : Nat} {call : ClientCall n} {key : Bytes} {entry : KeyDirEntry} {s' : System n}
      (hc : s.calls id = some call) (hp : call.progress = .found entry)
      (hr : call.request = .get key)
      (hs : s.reading id call (readValue key entry) (fun bytes => .returned (.value bytes)) =
        some s') : Step carries s s'
  | apply {i : Fin n} {ts : Int64} {msg : ApplyMsg} {srv : RaftKVServer}
      (hmsg : (s.cluster.emitted i)[(s.server i).taken]? = some msg)
      (hs : (s.server i).applyMsg ts msg = some srv) (hnone : (s.server i).applied = none) :
      Step carries s (s.setServer i srv)
  | told {i : Fin n} {key : PendingKey} {err : Option Err} {id : Nat} {call : ClientCall n}
      (ha : (s.server i).applied = some (key, err)) (hw : (s.server i).pending key = some id)
      (hc : s.calls id = some call) :
      Step carries s ((s.setServer i { s.server i with
        applied := none, pending := Function.update (s.server i).pending key none }).setCall id
          (call.receive err))
  | lost {i : Fin n} {key : PendingKey} {id : Nat} (hw : (s.server i).pending key = some id)
      (hc : s.calls id = none) :
      Step carries s (s.setServer i { s.server i with
        applied := none, pending := Function.update (s.server i).pending key none })
  | keep {i : Fin n} {key : PendingKey} {err : Option Err}
      (ha : (s.server i).applied = some (key, err)) (hw : (s.server i).pending key = none) :
      Step carries s (s.setServer i
        (RaftKVServer.complete { s.server i with applied := none } key err))

theorem Step.of_step {carries : AppendEntriesArgs → Prop} [DecidablePred carries] {s s' : System n}
    {e : Event n} (h : s.step carries e = some s') : Step carries s s' := by
  cases e with
  | raft a =>
    simp only [step, Option.ite_none_right_eq_some, Option.map_eq_some_iff] at h
    obtain ⟨⟨-, hp⟩, c, hstep, rfl⟩ := h
    exact .raft hstep fun args ha => hp args (by simpa using ha)
  | invoke id i request =>
    simp only [step] at h
    split at h
    · next hnew =>
      obtain rfl := Option.some.inj h
      exact .invoke hnew
    · cases h
  | submit id =>
    simp only [step, Option.bind_eq_bind, Option.bind_eq_some_iff] at h
    obtain ⟨call, hc, h⟩ := h
    split at h
    · next hp =>
      obtain rfl := Option.some.inj h
      rw [System.submit]
      cases hs : (s.cluster.node call.node).submit call.request.command with
      | none => exact .refused hc hp
      | some r => exact .submit hc hp hs
    · cases h
  | register id =>
    simp only [step, Option.bind_eq_bind, Option.bind_eq_some_iff] at h
    obtain ⟨call, hc, h⟩ := h
    split at h
    · next key hp hk =>
      obtain rfl := Option.some.inj h
      simp only [System.register]
      cases hd : (s.server call.node).completed key with
      | none => exact .wait hc hp hk hd
      | some err => exact .take hc hp hk hd
    · cases h
  | wake id =>
    simp only [step, Option.bind_eq_bind, Option.bind_eq_some_iff] at h
    obtain ⟨call, hc, h⟩ := h
    split at h
    · next hp =>
      obtain rfl := Option.some.inj h
      exact .wake hc hp
    · cases h
  | giveUp id canceled =>
    simp only [step, Option.bind_eq_bind, Option.bind_eq_some_iff] at h
    obtain ⟨call, hc, h⟩ := h
    split at h
    · next hp hk =>
      obtain rfl := Option.some.inj h
      exact .giveUp hc hk (Or.inl hp)
    · next hp hk =>
      obtain rfl := Option.some.inj h
      exact .giveUp hc hk (Or.inr ⟨_, hp⟩)
    · cases h
  | find id =>
    simp only [step, Option.bind_eq_bind, Option.bind_eq_some_iff] at h
    obtain ⟨call, hc, h⟩ := h
    split at h
    · next hp hr => exact .find hc hp hr h
    · cases h
  | read id =>
    simp only [step, Option.bind_eq_bind, Option.bind_eq_some_iff] at h
    obtain ⟨call, hc, h⟩ := h
    split at h
    · next hp hr => exact .read hc hp hr h
    · cases h
  | apply i ts =>
    simp only [step] at h
    split at h
    · next hnone =>
      simp only [Option.bind_eq_bind, Option.pure_def, Option.bind_eq_some_iff,
        Option.some.injEq] at h
      obtain ⟨msg, hmsg, srv, hs, rfl⟩ := h
      exact .apply hmsg hs hnone
    · cases h
  | notify i =>
    simp only [step, Option.bind_eq_bind, Option.pure_def, Option.bind_eq_some_iff,
      Option.some.injEq] at h
    obtain ⟨⟨key, err⟩, ha, rfl⟩ := h
    simp only [System.notify]
    cases hw : (s.server i).pending key with
    | none => exact .keep ha hw
    | some id =>
      simp only [setServer]
      cases hc : s.calls id with
      | none => exact .lost hw hc
      | some call => exact .told ha hw hc

end System

/-- The runs of `n` servers with initially empty stores. -/
def system (n : Nat) (carries : AppendEntriesArgs → Prop) [DecidablePred carries] :
    Machine (System n) (Event n) where
  initial s := (cluster n).initial s.cluster ∧ s.calls = (fun _ => none) ∧
    ∀ i, ∃ w, (∃ opts : OpenOptions, World.empty.openDB { opts with readWrite := true } = some w) ∧
      s.server i = { store := w }
  step := System.step carries

end KvRaft.Server
