import KvRaft.Lib.Effects
import KvRaft.Server.System

/-! The calls of `submitAndWait` of one server, its applier and its `Close`, in any order. The raft
backend is outside: what `Submit` answers and which messages the apply channel delivers are given by
the run. A wait channel takes any number of values here; that it is sent at most one, so that no
sender waits for room in the channel of capacity 1 while it holds `pendingLock`, is a result. -/

namespace KvRaft.Server

open Raft Store Effects

/-- What a wait channel carries and what a call returns. `origin` is no part of the program: it says
of a result which of the messages that the applier has processed it is the result of. -/
structure Notice where
  err : Option Error
  origin : Option Nat

/-- The result of the message number `n`. -/
def Notice.result (n : Nat) (err : Option Err) : Notice := ⟨err.map .store, some n⟩

def Notice.error (err : Error) : Notice := ⟨some err, none⟩

/-- Where a call of `submitAndWait` stands. -/
inductive Stage
  /-- `Submit` has returned, and the call has not taken `pendingLock` yet -/
  | submitted
  /-- in the `select` -/
  | waiting
  /-- the `select` has chosen the end of the context or of the server -/
  | leaving (err : Error)
  | returned (notice : Notice)

/-- A call, the key that `Submit` gave it, and all that was ever sent to its channel. -/
structure Waiter where
  waitKey : Option PendingKey
  stage : Stage
  sent : List Notice := []

namespace Waiter

def send (c : Waiter) (x : Notice) : Waiter := { c with sent := c.sent ++ [x] }

def finish (c : Waiter) (x : Notice) : Waiter := { c with stage := .returned x }

end Waiter

/-- The server, the calls by their numbers, and how far `Close` has come. The last two fields are no
part of the program: the messages that the applier has processed, with their results, and which of
them the results in `completed` belong to. -/
structure Waiters where
  server : RaftKVServer
  calls : Nat → Option Waiter := fun _ => none
  closed : Bool := false
  drained : Bool := false
  log : List (PendingKey × Option Err) := []
  origin : PendingKey → Nat := fun _ => 0

inductive WaitEvent
  /-- a call begins, and `Submit` answers with a key unless the node is no leader -/
  | submit (id : Nat) (answer : Option PendingKey)
  /-- under `pendingLock`: the call finds the server closed, takes a kept result or waits -/
  | register (id : Nat)
  /-- the call receives from its channel -/
  | receive (id : Nat)
  /-- the `select` sees the end of the context -/
  | expire (id : Nat) (canceled : Bool)
  /-- the `select` sees `closedCh` -/
  | seeClosed (id : Nat)
  /-- under `pendingLock`: the call takes its channel out of `pending` and returns -/
  | leave (id : Nat)
  /-- the applier takes a message and applies it to the store, when its clock reads `ts` -/
  | apply (msg : ApplyMsg) (ts : Int64) (outcomes : List Outcome)
  /-- under `pendingLock`: the applier passes the result on -/
  | notify
  /-- `Close` closes `closedCh` -/
  | close
  /-- under `pendingLock`: `Close` answers every call in `pending` -/
  | drain
  /-- the store is used by others -/
  | use (store : World)

/-- The error of a call, if it returns one. -/
def failure {α : Type} (w : World) (op : Op α) : Option Err :=
  match op w with
  | .ok _ _ => none
  | .error err _ => some err

namespace Waiters

def setCall (s : Waiters) (id : Nat) (c : Waiter) : Waiters :=
  { s with calls := Function.update s.calls id (some c) }

def submit (s : Waiters) (id : Nat) : Option PendingKey → Waiters
  | none => s.setCall id { waitKey := none, stage := .returned (.error .notLeader) }
  | some key => s.setCall id { waitKey := some key, stage := .submitted }

def register (s : Waiters) (id : Nat) (c : Waiter) (key : PendingKey) : Waiters :=
  if s.closed then s.setCall id (c.finish (.error .serverClosed))
  else
    let srv := s.server
    match srv.completed key with
    | some err =>
      { s with server := { srv with completed := Function.update srv.completed key none } }.setCall
        id (c.finish (.result (s.origin key) err))
    | none =>
      { s with server := { srv with pending := Function.update srv.pending key (some id) } }.setCall
        id { c with stage := .waiting }

def leave (s : Waiters) (id : Nat) (c : Waiter) (key : PendingKey) (err : Error) : Waiters :=
  let srv := s.server
  { s with server := { srv with pending := Function.update srv.pending key none } }.setCall
    id (c.finish (.error err))

/-- A message from the channel is applied, however the calls of the file system end. -/
def apply (s : Waiters) (msg : ApplyMsg) (ts : Int64) (outcomes : List Outcome) : Waiters :=
  let w : World := { s.server.store with outcomes := outcomes }
  let applied : PendingKey × Option Err :=
    (⟨msg.index, msg.term⟩, failure w (applyCommand ts msg.command))
  { s with
    server := { s.server with
      store := { left (applyCommand ts msg.command) w with outcomes := [] }
      taken := s.server.taken + 1
      applied := some applied }
    log := s.log ++ [applied] }

def notify (s : Waiters) (key : PendingKey) (err : Option Err) : Waiters :=
  let srv := { s.server with applied := none }
  let n := s.log.length - 1
  match srv.pending key with
  | some id =>
    { s with
      server := { srv with pending := Function.update srv.pending key none }
      calls := Function.update s.calls id ((s.calls id).map (·.send (.result n err))) }
  | none =>
    { s with server := srv.complete key err, origin := Function.update s.origin key n }

/-- The channels in `pending` are those that calls have put there under their keys. -/
def drain (s : Waiters) : Waiters :=
  { s with
    drained := true
    server := { s.server with pending := fun _ => none }
    calls := fun id => (s.calls id).map fun c =>
      if c.waitKey.bind s.server.pending = some id then c.send (.error .serverClosed) else c }

def step (s : Waiters) : WaitEvent → Option Waiters
  | .submit id answer =>
    match s.calls id with
    | none => some (s.submit id answer)
    | some _ => none
  | .register id => do
    let c ← s.calls id
    match c.stage, c.waitKey with
    | .submitted, some key => some (s.register id c key)
    | _, _ => none
  | .receive id => do
    let c ← s.calls id
    match c.stage, c.sent with
    | .waiting, x :: _ => some (s.setCall id (c.finish x))
    | _, _ => none
  | .expire id canceled => do
    let c ← s.calls id
    match c.stage with
    | .waiting =>
      some (s.setCall id
        { c with stage := .leaving (if canceled then .canceled else .commitTimeout) })
    | _ => none
  | .seeClosed id => do
    let c ← s.calls id
    match c.stage, s.closed with
    | .waiting, true => some (s.setCall id { c with stage := .leaving .serverClosed })
    | _, _ => none
  | .leave id => do
    let c ← s.calls id
    match c.stage, c.waitKey with
    | .leaving err, some key => some (s.leave id c key err)
    | _, _ => none
  | .apply msg ts outcomes =>
    match s.server.applied with
    | none => some (s.apply msg ts outcomes)
    | some _ => none
  | .notify => do
    let (key, err) ← s.server.applied
    return s.notify key err
  | .close => if s.closed then none else some { s with closed := true }
  | .drain => if s.closed && !s.drained then some s.drain else none
  | .use w => some { s with server := { s.server with store := w } }

/-- What each step can do, with the reason it could. -/
inductive Step (s : Waiters) : WaitEvent → Waiters → Prop
  | submit {id : Nat} (answer : Option PendingKey) (hnew : s.calls id = none) :
      Step s (.submit id answer) (s.submit id answer)
  | register {id : Nat} {c : Waiter} {key : PendingKey} (hc : s.calls id = some c)
      (hstage : c.stage = .submitted) (hk : c.waitKey = some key) :
      Step s (.register id) (s.register id c key)
  | receive {id : Nat} {c : Waiter} {x : Notice} (hc : s.calls id = some c) (hx : x ∈ c.sent) :
      Step s (.receive id) (s.setCall id (c.finish x))
  | expire {id : Nat} {c : Waiter} {canceled : Bool} (err : Error)
      (hc : s.calls id = some c) :
      Step s (.expire id canceled) (s.setCall id { c with stage := .leaving err })
  | seeClosed {id : Nat} {c : Waiter} (hc : s.calls id = some c) :
      Step s (.seeClosed id) (s.setCall id { c with stage := .leaving .serverClosed })
  | leave {id : Nat} {c : Waiter} (key : PendingKey) (err : Error) (hc : s.calls id = some c) :
      Step s (.leave id) (s.leave id c key err)
  | apply (msg : ApplyMsg) (ts : Int64) (outcomes : List Outcome) :
      Step s (.apply msg ts outcomes) (s.apply msg ts outcomes)
  | notify {key : PendingKey} {err : Option Err} (ha : s.server.applied = some (key, err)) :
      Step s .notify (s.notify key err)
  | close : Step s .close { s with closed := true }
  | drain : Step s .drain s.drain
  | use (w : World) : Step s (.use w) { s with server := { s.server with store := w } }

theorem Step.of_step {s s' : Waiters} {e : WaitEvent} (h : s.step e = some s') : Step s e s' := by
  cases e with
  | submit id answer =>
    simp only [step] at h
    split at h
    · next hnew =>
      obtain rfl := Option.some.inj h
      exact .submit answer hnew
    · cases h
  | register id =>
    simp only [step, Option.bind_eq_bind, Option.bind_eq_some_iff] at h
    obtain ⟨c, hc, h⟩ := h
    split at h
    · next hstage hk =>
      obtain rfl := Option.some.inj h
      exact .register hc hstage hk
    · cases h
  | receive id =>
    simp only [step, Option.bind_eq_bind, Option.bind_eq_some_iff] at h
    obtain ⟨c, hc, h⟩ := h
    split at h
    · next x rest hstage hsent =>
      obtain rfl := Option.some.inj h
      exact .receive hc (hsent ▸ List.mem_cons_self)
    · cases h
  | expire id canceled =>
    simp only [step, Option.bind_eq_bind, Option.bind_eq_some_iff] at h
    obtain ⟨c, hc, h⟩ := h
    split at h
    · obtain rfl := Option.some.inj h
      exact .expire _ hc
    · cases h
  | seeClosed id =>
    simp only [step, Option.bind_eq_bind, Option.bind_eq_some_iff] at h
    obtain ⟨c, hc, h⟩ := h
    split at h
    · obtain rfl := Option.some.inj h
      exact .seeClosed hc
    · cases h
  | leave id =>
    simp only [step, Option.bind_eq_bind, Option.bind_eq_some_iff] at h
    obtain ⟨c, hc, h⟩ := h
    split at h
    · obtain rfl := Option.some.inj h
      exact .leave _ _ hc
    · cases h
  | apply msg ts outcomes =>
    simp only [step] at h
    split at h
    · obtain rfl := Option.some.inj h
      exact .apply msg ts outcomes
    · cases h
  | notify =>
    simp only [step, Option.bind_eq_bind, Option.bind_eq_some_iff, Option.pure_def,
      Option.some.injEq] at h
    obtain ⟨⟨key, err⟩, ha, rfl⟩ := h
    exact .notify ha
  | close =>
    simp only [step] at h
    split at h
    · cases h
    · obtain rfl := Option.some.inj h
      exact .close
  | drain =>
    simp only [step] at h
    split at h
    · obtain rfl := Option.some.inj h
      exact .drain
    · cases h
  | use w =>
    obtain rfl := Option.some.inj h
    exact .use w

end Waiters

/-- The runs of a server that has just been started over any store. -/
def waiters : Machine Waiters WaitEvent where
  initial s := ∃ w, s = { server := { store := w } }
  step := Waiters.step

/-- The key that `Submit` answers with in the step. -/
def WaitEvent.answer : WaitEvent → Option PendingKey
  | .submit _ answer => answer
  | _ => none

/-- An error that is no result, or the result of a message with the key. -/
def Notice.For (x : Notice) (waitKey : Option PendingKey) (log : List (PendingKey × Option Err)) :
    Prop :=
  (∃ err, x = .error err) ∨
    ∃ n key err, x = .result n err ∧ waitKey = some key ∧ log[n]? = some (key, err)

theorem Waiters.setCall_self {s : Waiters} {id : Nat} {c : Waiter} :
    (s.setCall id c).calls id = some c :=
  Function.update_self ..

theorem Waiters.setCall_other {s : Waiters} {id i : Nat} {c : Waiter} (h : i ≠ id) :
    (s.setCall id c).calls i = s.calls i :=
  Function.update_of_ne h ..

theorem RaftKVServer.complete_self (srv : RaftKVServer) (key : PendingKey) (err : Option Err) :
    (srv.complete key err).completed key = some err := by
  simp [complete]

theorem Notice.For.append {x : Notice} {waitKey : Option PendingKey}
    {log : List (PendingKey × Option Err)} (h : x.For waitKey log)
    (more : List (PendingKey × Option Err)) : x.For waitKey (log ++ more) := by
  rcases h with herr | ⟨n, key, err, hx, hk, hn⟩
  · exact Or.inl herr
  · refine Or.inr ⟨n, key, err, hx, hk, ?_⟩
    obtain ⟨hlt, -⟩ := List.getElem?_eq_some_iff.mp hn
    rw [List.getElem?_append_left hlt, hn]

/-- What holds of a call. -/
structure Waiter.Sound (c : Waiter) (log : List (PendingKey × Option Err)) : Prop where
  fresh : c.stage = .submitted → c.sent = []
  once : c.sent.length ≤ 1
  sent : ∀ x ∈ c.sent, x.For c.waitKey log
  returned : ∀ x, c.stage = .returned x → x.For c.waitKey log

namespace Waiter.Sound

variable {c : Waiter} {log : List (PendingKey × Option Err)}

theorem append (h : c.Sound log) (more : List (PendingKey × Option Err)) :
    c.Sound (log ++ more) :=
  ⟨h.fresh, h.once, fun x hx => (h.sent x hx).append more,
    fun x hx => (h.returned x hx).append more⟩

theorem moved {stage : Stage} (h : c.Sound log) (hnew : stage ≠ .submitted)
    (hret : ∀ x, stage = .returned x → x.For c.waitKey log) :
    Waiter.Sound { c with stage := stage } log :=
  ⟨fun heq => absurd heq hnew, h.once, h.sent, hret⟩

theorem finish (h : c.Sound log) {x : Notice} (hx : x.For c.waitKey log) :
    (c.finish x).Sound log := by
  refine h.moved (by simp) fun y hy => ?_
  obtain rfl := Stage.returned.inj hy
  exact hx

theorem send (h : c.Sound log) (hnone : c.sent = []) (hstage : c.stage ≠ .submitted) {x : Notice}
    (hx : x.For c.waitKey log) : (c.send x).Sound log := by
  have hsent : (c.send x).sent = [x] := by
    rw [Waiter.send, hnone]
    rfl
  refine ⟨fun heq => absurd heq hstage, by rw [hsent]; simp, fun y hy => ?_, h.returned⟩
  rw [hsent] at hy
  obtain rfl := List.mem_singleton.mp hy
  exact hx

end Waiter.Sound

/-- The channels in `pending` are those of calls that wait under the key and have been sent nothing,
and the results in the tables belong to processed messages with their keys. -/
structure Waiters.Sound (s : Waiters) : Prop where
  calls : ∀ id c, s.calls id = some c → c.Sound s.log
  pending : ∀ key id, s.server.pending key = some id → ∃ c, s.calls id = some c ∧
    c.waitKey = some key ∧ c.stage ≠ .submitted ∧ c.sent = []
  applied : ∀ key err, s.server.applied = some (key, err) →
    s.log[s.log.length - 1]? = some (key, err)
  completed : ∀ key err, s.server.completed key = some err → s.log[s.origin key]? = some (key, err)

namespace Waiters.Sound

variable {s s' : Waiters} {id : Nat} {c c' : Waiter} {key : PendingKey}

/-- Tables that have lost something. -/
theorem server (h : s.Sound) {srv : RaftKVServer}
    (hpending : ∀ key id, srv.pending key = some id → s.server.pending key = some id)
    (happlied : ∀ r, srv.applied = some r → s.server.applied = some r)
    (hcompleted : ∀ key err, srv.completed key = some err → s.server.completed key = some err) :
    Sound { s with server := srv } :=
  ⟨h.calls, fun key id hp => h.pending key id (hpending key id hp),
    fun key err ha => h.applied key err (happlied _ ha),
    fun key err hc => h.completed key err (hcompleted key err hc)⟩

/-- A call that begins, or moves on with nothing sent to its channel. -/
theorem setCall (h : s.Sound) (hsound : c'.Sound s.log)
    (hold : ∀ c, s.calls id = some c →
      c'.waitKey = c.waitKey ∧ c'.sent = c.sent ∧ c'.stage ≠ .submitted) :
    (s.setCall id c').Sound := by
  refine ⟨fun i d hd => ?_, fun k i hp => ?_, h.applied, h.completed⟩
  · rcases Recent.of_update hd with ⟨-, heq⟩ | ⟨-, hd⟩
    · obtain rfl := Option.some.inj heq
      exact hsound
    · exact h.calls i d hd
  · obtain ⟨d, hd, hk, hstage, hnone⟩ := h.pending k i hp
    by_cases hi : i = id
    · subst hi
      obtain ⟨hkey, hsent, hnew⟩ := hold d hd
      exact ⟨c', setCall_self, hkey.trans hk, hnew, hsent.trans hnone⟩
    · exact ⟨d, (setCall_other hi).trans hd, hk, hstage, hnone⟩

theorem moves (h : s.Sound) (hc : s.calls id = some c) {stage : Stage}
    (hsound : Waiter.Sound { c with stage := stage } s.log) (hnew : stage ≠ .submitted) :
    (s.setCall id { c with stage := stage }).Sound := by
  refine h.setCall hsound fun d hd => ?_
  obtain rfl := Option.some.inj (hc.symm.trans hd)
  exact ⟨rfl, rfl, hnew⟩

theorem returns (h : s.Sound) (hc : s.calls id = some c) {x : Notice}
    (hx : x.For c.waitKey s.log) : (s.setCall id (c.finish x)).Sound :=
  h.moves hc ((h.calls id c hc).finish hx) (by simp)

theorem submit (h : s.Sound) (hnew : s.calls id = none) (answer : Option PendingKey) :
    (s.submit id answer).Sound := by
  have hold : ∀ {P : Waiter → Prop} c, s.calls id = some c → P c := fun c hc => by
    rw [hnew] at hc
    cases hc
  cases answer with
  | none =>
    refine h.setCall ⟨fun _ => rfl, by simp, by simp, fun x hx => ?_⟩ hold
    obtain rfl := Stage.returned.inj hx
    exact Or.inl ⟨_, rfl⟩
  | some key => exact h.setCall ⟨fun _ => rfl, by simp, by simp, fun x hx => by cases hx⟩ hold

theorem register (h : s.Sound) (hc : s.calls id = some c) (hstage : c.stage = .submitted)
    (hk : c.waitKey = some key) : (s.register id c key).Sound := by
  have hsound := h.calls id c hc
  unfold Waiters.register
  split
  · exact h.returns hc (Or.inl ⟨_, rfl⟩)
  simp only
  split
  · next err hcompleted =>
    have hless : Waiters.Sound { s with server := { s.server with
        completed := Function.update s.server.completed key none } } :=
      h.server (fun _ _ hp => hp) (fun _ ha => ha) fun _ _ hd => (Recent.of_update_none hd).2
    exact hless.returns hc (Or.inr ⟨_, key, err, rfl, hk, h.completed key err hcompleted⟩)
  · have hwaits : Waiter.Sound { c with stage := .waiting } s.log :=
      hsound.moved (by simp) fun x hx => by cases hx
    have hmoved := h.moves hc hwaits (by simp)
    refine ⟨hmoved.calls, fun k i hp => ?_, h.applied, h.completed⟩
    rcases Recent.of_update hp with ⟨rfl, heq⟩ | ⟨-, hp⟩
    · obtain rfl := Option.some.inj heq
      exact ⟨_, setCall_self, hk, by simp, hsound.fresh hstage⟩
    · exact hmoved.pending k i hp

theorem leave (h : s.Sound) (hc : s.calls id = some c) (err : Error) :
    (s.leave id c key err).Sound := by
  have hless : Waiters.Sound { s with server := { s.server with
      pending := Function.update s.server.pending key none } } :=
    h.server (fun _ _ hp => (Recent.of_update_none hp).2) (fun _ ha => ha) fun _ _ hd => hd
  exact hless.returns hc (Or.inl ⟨_, rfl⟩)

theorem apply (h : s.Sound) (msg : ApplyMsg) (ts : Int64) (outcomes : List Outcome) :
    (s.apply msg ts outcomes).Sound := by
  refine ⟨fun i d hd => (h.calls i d hd).append _, h.pending, fun k e ha => ?_, fun k e hd => ?_⟩
  · change some _ = some (k, e) at ha
    rw [← ha]
    simp [Waiters.apply]
  · have hn := h.completed k e hd
    obtain ⟨hlt, -⟩ := List.getElem?_eq_some_iff.mp hn
    exact (List.getElem?_append_left hlt).trans hn

theorem notify {err : Option Err} (h : s.Sound) (ha : s.server.applied = some (key, err)) :
    (s.notify key err).Sound := by
  have hlast := h.applied key err ha
  unfold Waiters.notify
  simp only
  split
  · next id hp =>
    obtain ⟨c, hc, hk, hstage, hnone⟩ := h.pending key id hp
    rw [hc]
    refine ⟨fun i d hd => ?_, fun k i hpk => ?_, fun k e ha => (by cases ha), h.completed⟩
    · rcases Recent.of_update hd with ⟨-, heq⟩ | ⟨-, hd⟩
      · obtain rfl := Option.some.inj heq
        exact (h.calls id c hc).send hnone hstage (Or.inr ⟨_, key, err, rfl, hk, hlast⟩)
      · exact h.calls i d hd
    · rcases Recent.of_update hpk with ⟨-, heq⟩ | ⟨hne, hpk⟩
      · cases heq
      obtain ⟨d, hd, hkd, hrest⟩ := h.pending k i hpk
      have hi : i ≠ id := by
        rintro rfl
        obtain rfl := Option.some.inj (hc.symm.trans hd)
        exact hne (Option.some.inj (hkd.symm.trans hk))
      exact ⟨d, (Function.update_of_ne hi ..).trans hd, hkd, hrest⟩
  · obtain ⟨-, -, happlied, hpending⟩ :=
      RaftKVServer.complete_same { s.server with applied := none } key err
    refine ⟨h.calls, fun k i hp => h.pending k i (hpending ▸ hp), fun k e ha => ?_,
      fun k e hd => ?_⟩
    · cases happlied.symm.trans ha
    · by_cases hk : k = key
      · subst hk
        obtain rfl := Option.some.inj ((RaftKVServer.complete_self ..).symm.trans hd)
        exact (congrArg (s.log[·]?) (Function.update_self ..)).trans hlast
      · rcases RaftKVServer.complete_completed hd with ⟨heq, -⟩ | hd
        · exact absurd heq hk
        · exact (congrArg (s.log[·]?) (Function.update_of_ne hk ..)).trans (h.completed k e hd)

theorem drain (h : s.Sound) : s.drain.Sound := by
  refine ⟨fun i d hd => ?_, fun k i hp => (by cases hp), h.applied, h.completed⟩
  obtain ⟨c, hc, rfl⟩ := Option.map_eq_some_iff.mp hd
  split
  · next hin =>
    obtain ⟨key, hk, hp⟩ := Option.bind_eq_some_iff.mp hin
    obtain ⟨c', hc', -, hstage, hnone⟩ := h.pending key i hp
    obtain rfl := Option.some.inj (hc.symm.trans hc')
    exact (h.calls i c hc).send hnone hstage (Or.inl ⟨_, rfl⟩)
  · exact h.calls i c hc

/-- What one step keeps. -/
theorem step {e : WaitEvent} (h : s.Sound) (hstep : Step s e s') : s'.Sound := by
  have hleaving : ∀ {id c err}, s.calls id = some c →
      (s.setCall id { c with stage := .leaving err }).Sound := by
    intro id c err hc
    exact h.moves hc ((h.calls id c hc).moved (by simp) fun x hx => by cases hx) (by simp)
  cases hstep with
  | submit answer hnew => exact h.submit hnew answer
  | register hc hstage hk => exact h.register hc hstage hk
  | receive hc hx => exact h.returns hc ((h.calls _ _ hc).sent _ hx)
  | expire err hc => exact hleaving hc
  | seeClosed hc => exact hleaving hc
  | leave key err hc => exact h.leave hc err
  | apply msg ts outcomes => exact h.apply msg ts outcomes
  | notify ha => exact h.notify ha
  | close => exact ⟨h.calls, h.pending, h.applied, h.completed⟩
  | drain => exact h.drain
  | use w => exact h.server (fun _ _ hp => hp) (fun _ ha => ha) fun _ _ hd => hd

theorem initial (h : waiters.initial s) : s.Sound := by
  obtain ⟨w, rfl⟩ := h
  exact ⟨by simp, by simp, by simp, by simp⟩

theorem of_run {es : List WaitEvent} (h₀ : waiters.initial s) (hrun : waiters.exec s es = some s') :
    s'.Sound :=
  Machine.Leads.invariant (P := Waiters.Sound) (fun _ _ _ h hstep => h.step (.of_step hstep))
    ⟨es, hrun⟩ (.initial h₀)

end Waiters.Sound

/-! ### Keys -/

/-- The key of a call, if `Submit` gave it one. -/
def Waiters.keyOf (s : Waiters) (id : Nat) : Option PendingKey := (s.calls id).bind Waiter.waitKey

namespace Waiters

variable {s s' : Waiters} {id : Nat} {c c' : Waiter} {e : WaitEvent}

theorem keyOf_setCall : (s.setCall id c).keyOf = Function.update s.keyOf id c.waitKey := by
  funext i
  by_cases hi : i = id
  · subst hi
    rw [keyOf, setCall_self, Function.update_self]
    rfl
  · rw [keyOf, setCall_other hi, Function.update_of_ne hi]
    rfl

theorem keyOf_same (hc : s.calls id = some c) (hk : c'.waitKey = c.waitKey) :
    (s.setCall id c').keyOf = s.keyOf := by
  rw [keyOf_setCall, hk, Function.update_eq_self_iff, keyOf, hc]
  rfl

theorem keyOf_register {key : PendingKey} (hc : s.calls id = some c) :
    (s.register id c key).keyOf = s.keyOf := by
  unfold register
  split
  · exact keyOf_same hc rfl
  · simp only
    split
    · exact keyOf_same hc rfl
    · exact keyOf_same hc rfl

theorem keyOf_notify {key : PendingKey} {err : Option Err} :
    (s.notify key err).keyOf = s.keyOf := by
  unfold notify
  simp only
  split
  · funext i
    next id _ =>
    by_cases hi : i = id
    · subst hi
      simp only [keyOf, Function.update_self, Option.bind_map]
      rfl
    · simp only [keyOf, Function.update_of_ne hi]
  · rfl

theorem keyOf_drain : s.drain.keyOf = s.keyOf := by
  funext i
  simp only [keyOf, drain, Option.bind_map]
  congr 1
  funext c
  simp only [Function.comp_apply]
  split
  · rfl
  · rfl

/-- Only `Submit` gives keys to calls. -/
theorem keyOf_step (h : Step s e s') : s'.keyOf = s.keyOf ∨
    ∃ id, s.keyOf id = none ∧ s'.keyOf = Function.update s.keyOf id e.answer := by
  cases h with
  | submit answer hnew =>
    next id =>
    refine Or.inr ⟨id, by rw [keyOf, hnew]; rfl, ?_⟩
    cases answer with
    | none => exact keyOf_setCall
    | some key => exact keyOf_setCall
  | register hc hstage hk => exact Or.inl (keyOf_register hc)
  | receive hc hx => exact Or.inl (keyOf_same hc rfl)
  | expire err hc => exact Or.inl (keyOf_same hc rfl)
  | seeClosed hc => exact Or.inl (keyOf_same hc rfl)
  | leave key err hc => exact Or.inl (keyOf_same hc rfl)
  | apply msg ts outcomes => exact Or.inl rfl
  | notify ha => exact Or.inl keyOf_notify
  | close => exact Or.inl rfl
  | drain => exact Or.inl keyOf_drain
  | use w => exact Or.inl rfl

/-- The keys of the calls are among `seen`, each at one call only. -/
structure Keyed (seen : List PendingKey) (s : Waiters) : Prop where
  among : ∀ id key, s.keyOf id = some key → key ∈ seen
  one : ∀ id id' key, s.keyOf id = some key → s.keyOf id' = some key → id = id'

theorem Keyed.step {seen : List PendingKey} (h : Keyed seen s) (hstep : Step s e s')
    (hfresh : ∀ key ∈ e.answer, key ∉ seen) : Keyed (seen ++ e.answer.toList) s' := by
  rcases keyOf_step hstep with hsame | ⟨new, -, hnew⟩
  · refine ⟨fun id key hk => ?_, fun id id' key hk hk' => ?_⟩
    · exact List.mem_append_left _ (h.among id key (hsame ▸ hk))
    · exact h.one id id' key (hsame ▸ hk) (hsame ▸ hk')
  · refine ⟨fun id key hk => ?_, fun id id' key hk hk' => ?_⟩
    · rw [hnew] at hk
      rcases Recent.of_update hk with ⟨-, hans⟩ | ⟨-, hk⟩
      · exact List.mem_append_right _ (Option.mem_toList.mpr hans)
      · exact List.mem_append_left _ (h.among id key hk)
    · rw [hnew] at hk hk'
      rcases Recent.of_update hk with ⟨hid, hans⟩ | ⟨-, hold⟩
      · rcases Recent.of_update hk' with ⟨hid', -⟩ | ⟨-, hold'⟩
        · exact hid.trans hid'.symm
        · exact absurd (h.among id' key hold') (hfresh key hans)
      · rcases Recent.of_update hk' with ⟨-, hans⟩ | ⟨-, hold'⟩
        · exact absurd (h.among id key hold) (hfresh key hans)
        · exact h.one id id' key hold hold'

end Waiters

/-- The keys that `Submit` answers with in a run. -/
def submitted (es : List WaitEvent) : List PendingKey := es.filterMap WaitEvent.answer

theorem submitted_cons (e : WaitEvent) (es : List WaitEvent) :
    submitted (e :: es) = e.answer.toList ++ submitted es := by
  rw [submitted, List.filterMap_cons]
  cases e.answer with
  | none => rfl
  | some key => rfl

theorem Waiters.Keyed.exec {seen : List PendingKey} {s s' : Waiters} {es : List WaitEvent}
    (h : Keyed seen s) (hrun : waiters.exec s es = some s')
    (hdistinct : (seen ++ submitted es).Nodup) : Keyed (seen ++ submitted es) s' := by
  induction es generalizing s seen with
  | nil =>
    obtain rfl := Option.some.inj hrun
    rw [submitted, List.filterMap_nil, List.append_nil]
    exact h
  | cons e es ih =>
    obtain ⟨s₁, h₁, hrest⟩ := Machine.exec_cons_eq_some.mp hrun
    rw [submitted_cons, ← List.append_assoc] at hdistinct ⊢
    refine ih (h.step (.of_step h₁) fun key hans hseen => ?_) hrest hdistinct
    have hfirst := (List.nodup_append.mp (List.nodup_append.mp hdistinct).1).2.2
    exact hfirst key hseen key (Option.mem_toList.mpr hans) rfl

theorem Waiters.Keyed.of_run {s₀ s : Waiters} {es : List WaitEvent} (h₀ : waiters.initial s₀)
    (hrun : waiters.exec s₀ es = some s) (hdistinct : (submitted es).Nodup) :
    s.Keyed (submitted es) := by
  obtain ⟨w, rfl⟩ := h₀
  have hnone : Waiters.Keyed [] { server := { store := w } } :=
    ⟨fun id key hk => (by cases hk), fun id id' key hk => (by cases hk)⟩
  exact hnone.exec hrun hdistinct

/-- What the call has returned, if it has. -/
def Waiter.result (c : Waiter) : Option Notice :=
  match c.stage with
  | .returned x => some x
  | _ => none

def Waiters.resultOf (s : Waiters) (id : Nat) : Option Notice := (s.calls id).bind Waiter.result

theorem Waiters.Sound.resultOf {s : Waiters} {id : Nat} {x : Notice} (h : s.Sound)
    (hx : s.resultOf id = some x) : x.For (s.keyOf id) s.log := by
  obtain ⟨c, hc, hret⟩ := Option.bind_eq_some_iff.mp hx
  rw [Waiters.keyOf, hc]
  refine (h.calls id c hc).returned x ?_
  rw [Waiter.result] at hret
  split at hret
  · next hstage =>
    rw [hstage, Option.some.inj hret]
  · cases hret

/-- For every order of the steps of calls, the applier, contexts and `Close`, and any backend whose
`Submit` answers with distinct keys: a call that returns `nil` or an error of the store returns the
result of a processed message with its own key, no two calls return the result of one message, and
a channel is sent at most one value, so that it is empty whenever the applier or `Close` sends to
it. -/
theorem results_reach_callers {s₀ s : Waiters} {es : List WaitEvent} (h₀ : waiters.initial s₀)
    (hrun : waiters.exec s₀ es = some s) (hdistinct : (submitted es).Nodup) :
    (∀ id x, s.resultOf id = some x → x.err = none →
      ∃ key, s.keyOf id = some key ∧ (key, none) ∈ s.log) ∧
    (∀ id x n, s.resultOf id = some x → x.origin = some n →
      ∃ key err, s.keyOf id = some key ∧ s.log[n]? = some (key, err) ∧ x.err = err.map .store) ∧
    (∀ id id' x x' n, s.resultOf id = some x → s.resultOf id' = some x' → x.origin = some n →
      x'.origin = some n → id = id') ∧
    (∀ id c, s.calls id = some c → c.sent.length ≤ 1) ∧
    ∀ key id c, s.server.pending key = some id → s.calls id = some c → c.sent = [] := by
  have hsound := Waiters.Sound.of_run h₀ hrun
  have hkeyed := Waiters.Keyed.of_run h₀ hrun hdistinct
  have hresult : ∀ id x n, s.resultOf id = some x → x.origin = some n →
      ∃ key err, s.keyOf id = some key ∧ s.log[n]? = some (key, err) ∧ x.err = err.map .store := by
    intro id x n hx hn
    rcases hsound.resultOf hx with ⟨err, rfl⟩ | ⟨m, key, err, rfl, hk, hm⟩
    · cases hn
    · obtain rfl := Option.some.inj hn
      exact ⟨key, err, hk, hm, rfl⟩
  refine ⟨fun id x hx hnil => ?_, hresult, fun id id' x x' n hx hx' hn hn' => ?_,
    fun id c hc => (hsound.calls id c hc).once, fun key id c hp hc => ?_⟩
  · rcases hsound.resultOf hx with ⟨err, rfl⟩ | ⟨n, key, err, rfl, hk, hn⟩
    · cases hnil
    · obtain rfl := Option.map_eq_none_iff.mp hnil
      exact ⟨key, hk, List.mem_of_getElem? hn⟩
  · obtain ⟨key, err, hk, hlog, -⟩ := hresult id x n hx hn
    obtain ⟨key', err', hk', hlog', -⟩ := hresult id' x' n hx' hn'
    obtain ⟨rfl, -⟩ := Prod.mk.inj (Option.some.inj (hlog.symm.trans hlog'))
    exact hkeyed.one id id' key hk hk'
  · obtain ⟨c', hc', -, -, hnone⟩ := hsound.pending key id hp
    obtain rfl := Option.some.inj (hc.symm.trans hc')
    exact hnone

/-- The barrier of call 0 is applied before it registers, the put of call 1 after; the server is
closed in between. -/
def twoCalls : List WaitEvent :=
  [.submit 0 (some ⟨1, 1⟩), .submit 1 (some ⟨2, 1⟩), .apply ⟨1, 1, { type := .readBarrier }⟩ 5 [],
    .notify, .register 1, .register 0,
    .apply ⟨2, 1, { type := .put, key := [1], value := [7] }⟩ 6 [], .close, .notify, .receive 1,
    .drain]

theorem results_reach_callers_twoCalls :
    ∃ s, waiters.exec { server := { store := World.empty } } twoCalls = some s ∧
      (submitted twoCalls).Nodup ∧ (s.resultOf 0).map Notice.err = some none ∧
      ∃ key, s.keyOf 0 = some key ∧ (key, none) ∈ s.log := by
  have hrun : ((waiters.exec { server := { store := World.empty } } twoCalls).bind
      (·.resultOf 0)).map Notice.err = some none := by decide +kernel
  have hdistinct : (submitted twoCalls).Nodup := by decide
  obtain ⟨x, hx, hnil⟩ := Option.map_eq_some_iff.mp hrun
  obtain ⟨s, hs, hx⟩ := Option.bind_eq_some_iff.mp hx
  exact ⟨s, hs, hdistinct, by rw [hx, Option.map_some, hnil],
    (results_reach_callers ⟨World.empty, rfl⟩ hs hdistinct).1 0 x hx hnil⟩

end KvRaft.Server
