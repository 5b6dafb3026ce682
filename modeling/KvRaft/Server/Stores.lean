import KvRaft.Lib.Overwrite
import KvRaft.Server.Linear
import KvRaft.Store.Durable

/-! The stores of the servers as copies of the log. In a run without restarts two stores differ by
the commands between them. A server that is stopped and started again has lost its place in the
log, because its raft node keeps nothing on disk, but not its store: each new process applies the
log from its first entry to a store that is already ahead. -/

namespace KvRaft.Server

open Raft Store Overwrite

/-! ### The commands of a log -/

/-- The commands of the entries above `a` up to `b`. -/
def commands (log : List LogEntry) (a b : Nat) : List Command :=
  ((log.take (b + 1)).drop (a + 1)).map LogEntry.command

/-- The keys whose values a command sets. -/
def touches (cmd : Command) (key : Bytes) : Prop :=
  cmd.key = key ∧ (cmd.type = .put ∧ cmd.value ≠ tombstoneValue ∨ cmd.type = .delete)

theorem overwrites_effect : Overwrites effect touches where
  same m cmd key hnot := by
    unfold effect
    cases hty : cmd.type with
    | put =>
      simp only
      split
      · rfl
      · next hv => exact Function.update_of_ne (fun hk => hnot ⟨hk.symm, Or.inl ⟨hty, hv⟩⟩) _ _
    | delete => exact Function.update_of_ne (fun hk => hnot ⟨hk.symm, Or.inr hty⟩) _ _
    | readBarrier | other => rfl
  fresh m m' cmd key htouch := by
    obtain ⟨rfl, ⟨hput, hv⟩ | hdelete⟩ := htouch
    · simp [effect, hput, hv]
    · simp [effect, hdelete]

section Commands

variable {log : List LogEntry} {a b : Nat} {e : LogEntry}

theorem commands_self (log : List LogEntry) (a : Nat) : commands log a a = [] := by
  rw [commands, List.drop_eq_nil_of_le (List.length_take_le _ _), List.map_nil]

theorem commands_succ (hab : a ≤ b) (h : log[b + 1]? = some e) :
    commands log a (b + 1) = commands log a b ++ [e.command] := by
  obtain ⟨hlt, -⟩ := List.getElem?_eq_some_iff.mp h
  have hlen : a + 1 ≤ (log.take (b + 1)).length := by
    rw [List.length_take]
    omega
  rw [commands, commands, List.take_add_one, h, Option.toList_some,
    List.drop_append_of_le_length hlen, List.map_append]
  rfl

/-- The state of a log from the state at an earlier entry. -/
theorem stateAt_eq_foldl (log : List LogEntry) (hab : a ≤ b) :
    stateAt log b = (commands log a b).foldl effect (stateAt log a) := by
  induction b, hab using Nat.le_induction with
  | base => rw [commands_self, List.foldl_nil]
  | succ b hab ih =>
    cases h : log[b + 1]? with
    | none =>
      have hsame : log.take (b + 1 + 1) = log.take (b + 1) := by
        rw [List.take_add_one, h, Option.toList_none, List.append_nil]
      rw [stateAt, commands, hsame, ← commands, ← stateAt, ih]
    | some e => rw [stateAt_succ h, commands_succ hab h, List.foldl_append, ← ih]; rfl

theorem stateAt_zero (log : List LogEntry) : stateAt log 0 = fun _ => none := by
  cases log <;> rfl

end Commands

/-! ### Two stores of one run -/

/-- The store of `b` is that of `a` after the commands that `b` has applied and `a` has not. -/
def RaftKVServer.Follows (log : List LogEntry) (a b : RaftKVServer) : Prop :=
  ∃ map, (∀ key, a.store.lookup key = answer (map key)) ∧
    ∀ key, b.store.lookup key = answer ((commands log a.taken b.taken).foldl effect map key)

section Run

variable {n : Nat} {g : Ghost n} {segs : Fin n → Nat → Option Segment} {s s' : System n}
  {carries : AppendEntriesArgs → Prop}

theorem Consistent.lookup (h : Consistent g segs s) (i : Fin n) (key : Bytes) :
    (s.server i).store.lookup key = answer (stateAt g.committed (s.server i).taken key) := by
  obtain ⟨hsession, hopen, -⟩ := h.replica i
  exact lookup_eq hsession.calm hsession.holds hopen hsession.serves key

/-- A server that has applied no more than another, in a run whose committed log is known. -/
theorem Consistent.follows {log : List LogEntry} {srv : RaftKVServer} (h : Consistent g segs s)
    (j : Fin n) (hmap : ∀ key, srv.store.lookup key = answer (stateAt log srv.taken key))
    (hlog : stateAt g.committed srv.taken = stateAt log srv.taken)
    (hle : srv.taken ≤ (s.server j).taken) :
    srv.Follows (s.cluster.node j).log (s.server j) := by
  refine ⟨stateAt log srv.taken, hmap, fun key => ?_⟩
  rw [h.lookup j key, ← (h.agree j (h.taken_le j)).2, stateAt_eq_foldl _ hle,
    (h.agree j (hle.trans (h.taken_le j))).2, hlog]

end Run

/-- Any two stores of a run on three nodes, each at a moment of its own, are at states of one log:
the one whose server has applied more is the other after the commands in between, which stand in
the log of its own node. -/
theorem stores_agree {carries : AppendEntriesArgs → Prop} [DecidablePred carries]
    (hcarries : ∀ args, carries args → ∀ e ∈ args.entries, Sized e) {s s' : System 3}
    (h : (system 3 carries).Reachable s) (hl : (system 3 carries).Leads s s') (i j : Fin 3) :
    ((s.server i).taken ≤ (s'.server j).taken →
      (s.server i).Follows (s'.cluster.node j).log (s'.server j)) ∧
    ((s'.server j).taken ≤ (s.server i).taken →
      (s'.server j).Follows (s.cluster.node i).log (s.server i)) := by
  obtain ⟨g, segs, hs⟩ := Consistent.of_reachable le_rfl (by omega) 0 hcarries h
  have hstep : ∀ (g : Ghost 3) s e s', (∃ segs, Consistent g segs s) →
      (system 3 carries).step s e = some s' → ∃ g', g ≤ g' ∧ ∃ segs, Consistent g' segs s' := by
    rintro g s e s' ⟨_, hc⟩ hs
    exact hc.step le_rfl (by omega) hcarries (System.Step.of_step hs)
  obtain ⟨g', hle, segs', hs'⟩ := hl.ghost hstep ⟨segs, hs⟩
  -- the committed log only grows, and what the servers have applied lies in its older part
  have hgrows : ∀ m ≤ (s.server i).taken, stateAt g'.committed m = stateAt g.committed m :=
    fun m hm => stateAt_extend hle.2.2.2 (hm.trans_lt (hs.taken_lt i))
  refine ⟨fun hij => hs'.follows j (hs.lookup i) (hgrows _ le_rfl) hij, fun hji => ?_⟩
  exact hs.follows i (hs'.lookup j) (hgrows _ hji).symm hji

/-- A `Get` on the leader, and a follower that learns from its barrier that the `Put` before it is
committed. -/
def followerApplies : List (Event 3) := thenGet ++ [.raft (.apply 1), .apply 1 3]

theorem stores_agree_followerApplies : ∃ s s', (system 3 carriesSized).Reachable s ∧
    (system 3 carriesSized).exec s followerApplies = some s' ∧ (s.server 0).taken = 1 ∧
    (s'.server 1).taken = 1 ∧ (s'.server 0).taken = 2 ∧
    (∀ key, (s'.server 1).store.lookup key = (s.server 0).store.lookup key) ∧
    (s'.server 1).Follows (s'.cluster.node 0).log (s'.server 0) := by
  have hrun : ((World.empty.openDB ⟨true, false, 1000⟩).bind fun w =>
      ((system 3 carriesSized).exec
        { cluster := Cluster.start ["a", "b", "c"], server := fun _ => { store := w } }
        firstPut).bind fun s =>
      ((system 3 carriesSized).exec s followerApplies).map fun s' =>
        ((s.server 0).taken, (s'.server 1).taken, (s'.server 0).taken)) = some (1, 1, 2) := by
    decide +kernel
  obtain ⟨w, hw, hrun⟩ := Option.bind_eq_some_iff.mp hrun
  obtain ⟨s, hs, hrun⟩ := Option.bind_eq_some_iff.mp hrun
  obtain ⟨s', hs', htaken⟩ := Option.map_eq_some_iff.mp hrun
  simp only [Prod.mk.injEq] at htaken
  obtain ⟨h0, h1, h0'⟩ := htaken
  have hreach : (system 3 carriesSized).Reachable s :=
    ⟨_, firstPut, ⟨⟨_, rfl, rfl⟩, rfl, fun _ => ⟨w, ⟨⟨true, false, 1000⟩, hw⟩, rfl⟩⟩, hs⟩
  have hlead : (system 3 carriesSized).Leads s s' := ⟨followerApplies, hs'⟩
  obtain ⟨map, hmap, hmap'⟩ :=
    (stores_agree (fun _ hc => hc) hreach hlead 0 1).1 (by rw [h0, h1])
  rw [h0, h1, commands_self] at hmap'
  have hnow := stores_agree (fun _ hc => hc) (hreach.leads hlead) (.refl s') 1 0
  exact ⟨s, s', hreach, hs', h0, h1, h0', fun key => (hmap' key).trans (hmap key).symm,
    hnow.1 (by rw [h1, h0']; decide)⟩

/-! ### A server and its restarts -/

inductive LifeEvent
  /-- `NewRaftKVServer`, when the entries that the raft node will hand out are those of `log` -/
  | start (opts : OpenOptions) (log : List LogEntry)
  /-- the next entry reaches `applyCommittedEntries` -/
  | apply (ts : Int64)
  /-- `Close` -/
  | stop

namespace LifeEvent

def stamp : LifeEvent → Option Int64
  | .apply ts => some ts
  | .start _ _ | .stop => none

def Sized : LifeEvent → Prop
  | .start _ log => ∀ e ∈ log, Server.Sized e
  | .apply _ | .stop => True

instance : DecidablePred Sized
  | .start _ log => inferInstanceAs (Decidable (∀ e ∈ log, Server.Sized e))
  | .apply _ | .stop => inferInstanceAs (Decidable True)

end LifeEvent

/-- A process: its server, and the log behind the channel. -/
structure Process where
  srv : RaftKVServer
  log : List LogEntry := []

namespace Process

/-- A new process has a new raft node, which counts from the first entry. A `Close` leaves the
goroutine that applies running, on a closed store. -/
def step (p : Process) : LifeEvent → Option Process
  | .start opts log =>
    if p.srv.store.db.closed then
      (p.srv.store.openDB { opts with readWrite := true }).map fun w => ⟨{ store := w }, log⟩
    else none
  | .apply ts =>
    (p.log[p.srv.taken + 1]?).bind fun e =>
      (p.srv.applyMsg ts ⟨e.index, e.term, e.command⟩).map ({ p with srv := · })
  | .stop =>
    if p.srv.store.db.closed then none
    else (p.srv.store.after close).map fun w => { p with srv := { p.srv with store := w } }

/-- The commands that have reached the store of a process that is stopped. -/
def stopped (p : Process) : LifeEvent → Option (List Command)
  | .stop => some (commands p.log 0 p.srv.taken)
  | .start _ _ | .apply _ => none

/-- No process yet, and an empty directory. -/
def unborn : Process where
  srv := { store := World.empty }

end Process

def life : Machine Process LifeEvent where
  initial p := p = .unborn
  step := Process.step

/-! ### The store of a process -/

variable {ts : Int64} {cmd : Command} {e : LogEntry} {s : Served} {p p' : Process} {a : LifeEvent}
  {es : List LifeEvent} {done : List Store.Event} {ended : List (List Command)}

/-- The call of the store for a command. -/
def storeEvent (ts : Int64) (cmd : Command) : Option Store.Event :=
  match cmd.type with
  | .put => some (.put ts cmd.key cmd.value)
  | .delete => some (.delete ts cmd.key)
  | .readBarrier | .other _ => none

theorem exec_storeEvent (ts : Int64) (cmd : Command) (w : World) :
    store.exec w (storeEvent ts cmd).toList = w.after (applyCommand ts cmd) := by
  unfold storeEvent applyCommand
  cases cmd.type with
  | put | delete => exact Machine.exec_singleton
  | readBarrier | other => rfl

theorem stamps_storeEvent (ts : Int64) (cmd : Command) :
    ((storeEvent ts cmd).toList.filterMap Store.Event.stamp).Sublist [ts] := by
  unfold storeEvent
  cases cmd.type with
  | put | delete => exact List.Sublist.refl _
  | readBarrier | other => exact List.nil_sublist _

theorem simple_storeEvent : ∀ e ∈ storeEvent ts cmd, e.Simple := by
  unfold storeEvent
  cases cmd.type <;> simp [Store.Event.Simple, Store.Event.isMerge, Store.Event.isCrash]

theorem sized_storeEvent (h : 20 + cmd.key.length + cmd.value.length < 2 ^ 32) :
    ∀ e ∈ storeEvent ts cmd, e.Sized := by
  unfold storeEvent
  cases cmd.type with
  | put => simpa [Store.Event.Sized] using h
  | delete =>
    simp only [Option.mem_def, Option.some.injEq, forall_eq', Store.Event.Sized]
    omega
  | readBarrier | other => simp

/-- What a command does to what the store serves. -/
theorem served_storeEvent (ts : Int64) (cmd : Command) (s : Served) :
    (storeEvent ts cmd).toList.foldl Served.step s =
      if s.opened then { s with map := effect s.map cmd } else s := by
  obtain ⟨opened, map⟩ := s
  unfold storeEvent effect
  cases cmd.type with
  | put => by_cases hv : cmd.value = tombstoneValue <;> cases opened <;> simp [Served.step, hv]
  | delete => cases opened <;> rfl
  | readBarrier | other => cases opened <;> rfl

namespace Process

/-- The calls of the store in a step. -/
def calls (p : Process) : LifeEvent → List Store.Event
  | .start opts _ => [.open opts]
  | .apply ts => (p.log[p.srv.taken + 1]?).toList.flatMap fun e =>
      (storeEvent ts e.command).toList
  | .stop => [.close]

/-- The commands that this process has brought to its open store. -/
def current (p : Process) : List Command :=
  if p.srv.store.db.closed then [] else commands p.log 0 p.srv.taken

theorem calls_apply (he : p.log[p.srv.taken + 1]? = some e) :
    p.calls (.apply ts) = (storeEvent ts e.command).toList := by
  simp [calls, he]

theorem step_apply (h : p.step (.apply ts) = some p') :
    ∃ e w, p.log[p.srv.taken + 1]? = some e ∧
      p.calls (.apply ts) = (storeEvent ts e.command).toList ∧
      p.srv.store.after (applyCommand ts e.command) = some w ∧
      p'.srv.store = w ∧ p'.srv.taken = p.srv.taken + 1 ∧ p'.log = p.log := by
  simp only [step, Option.bind_eq_some_iff, Option.map_eq_some_iff] at h
  obtain ⟨e, he, srv, hmsg, rfl⟩ := h
  obtain ⟨w, err, hw, -, rfl⟩ := RaftKVServer.applyMsg_cases hmsg
  exact ⟨e, w, he, calls_apply he, hw, rfl, rfl, rfl⟩

theorem calls_exec (h : p.step a = some p') :
    store.exec p.srv.store (p.calls a) = some p'.srv.store := by
  cases a with
  | start opts log =>
    simp only [step] at h
    split at h
    · next hclosed =>
      obtain ⟨w, hw, rfl⟩ := Option.map_eq_some_iff.mp h
      exact Machine.exec_singleton.trans ((if_pos hclosed).trans hw)
    · cases h
  | apply ts =>
    obtain ⟨e, w, -, hcalls, hw, rfl, -⟩ := step_apply h
    rw [hcalls, exec_storeEvent, hw]
  | stop =>
    simp only [step] at h
    split at h
    · cases h
    · obtain ⟨w, hw, rfl⟩ := Option.map_eq_some_iff.mp h
      exact Machine.exec_singleton.trans hw

theorem stamps_calls (p : Process) (a : LifeEvent) :
    ((p.calls a).filterMap Store.Event.stamp).Sublist a.stamp.toList := by
  cases a with
  | start | stop => exact List.Sublist.refl _
  | apply ts =>
    cases he : p.log[p.srv.taken + 1]? with
    | none => simp [calls, he]
    | some e =>
      rw [calls_apply he]
      exact stamps_storeEvent ts e.command

theorem simple_calls (p : Process) (a : LifeEvent) : ∀ e ∈ p.calls a, e.Simple := by
  cases a with
  | start | stop => simp [calls, Store.Event.Simple, Store.Event.isMerge, Store.Event.isCrash]
  | apply ts =>
    cases he : p.log[p.srv.taken + 1]? with
    | none => simp [calls, he]
    | some e => simpa [calls, he] using simple_storeEvent

theorem sized_calls (hlog : ∀ e ∈ p.log, Server.Sized e) (a : LifeEvent) :
    ∀ e ∈ p.calls a, e.Sized := by
  cases a with
  | start | stop => simp [calls, Store.Event.Sized]
  | apply ts =>
    cases he : p.log[p.srv.taken + 1]? with
    | none => simp [calls, he]
    | some e =>
      simpa [calls, he] using sized_storeEvent (hlog e (List.mem_of_getElem? he))

/-- What a step does to what the store serves, and to the commands it comes from. -/
theorem step_served (hclosed : p.srv.store.db.closed = !s.opened) (h : p.step a = some p')
    (hclosed' : p'.srv.store.db.closed = !((p.calls a).foldl Served.step s).opened)
    (hmap : s.map = (ended.flatten ++ p.current).foldl effect fun _ => none) :
    ((p.calls a).foldl Served.step s).map =
      ((ended ++ (p.stopped a).toList).flatten ++ p'.current).foldl effect fun _ => none := by
  cases a with
  | start opts log =>
    simp only [step] at h
    split at h
    · next hc =>
      obtain ⟨w, -, rfl⟩ := Option.map_eq_some_iff.mp h
      simpa [calls, Served.step, stopped, current, hc, commands_self] using hmap
    · cases h
  | apply ts =>
    obtain ⟨e, w, he, hcalls, -, rfl, htaken, hlog⟩ := step_apply h
    rw [hcalls, served_storeEvent] at hclosed' ⊢
    cases hs : s.opened with
    | false =>
      simp only [hs, Bool.not_false, Bool.false_eq_true, if_false] at hclosed hclosed' ⊢
      simpa [stopped, current, hclosed, hclosed'] using hmap
    | true =>
      simp only [hs, Bool.not_true, if_true] at hclosed hclosed' ⊢
      simp only [current, hclosed, hclosed', Bool.false_eq_true, if_false] at hmap ⊢
      rw [hmap, htaken, hlog, commands_succ (Nat.zero_le _) he]
      simp [stopped]
  | stop =>
    simp only [step] at h
    split at h
    · cases h
    · next hc =>
      obtain ⟨w, -, rfl⟩ := Option.map_eq_some_iff.mp h
      simp only [calls, List.foldl_cons, List.foldl_nil, Served.step, Bool.not_false] at hclosed'
      simpa [calls, Served.step, stopped, current, hc, hclosed'] using hmap

end Process

/-- What holds of a process and of the calls its store has had since the directory was empty. -/
structure Lived (done : List Store.Event) (ended : List (List Command)) (p : Process) : Prop where
  ran : store.exec World.empty done = some p.srv.store
  sized : ∀ e ∈ done, e.Sized
  simple : ∀ e ∈ done, e.Simple
  log : ∀ e ∈ p.log, Server.Sized e
  map : (Served.after done).map = (ended.flatten ++ p.current).foldl effect fun _ => none

namespace Lived

theorem unborn : Lived [] [] .unborn := ⟨rfl, by simp, by simp, by simp [Process.unborn], rfl⟩

theorem tracks (h : Lived done ended p)
    (hclock : (done.filterMap Store.Event.stamp).Pairwise (· ≤ ·)) :
    ∃ now segs, Tracks (Served.after done) p.srv.store now segs :=
  tracks_of_orderly (along_of_simple h.sized h.simple) hclock h.ran

theorem step (h : Lived done ended p) (hsized : a.Sized)
    (hclock : ((done ++ p.calls a).filterMap Store.Event.stamp).Pairwise (· ≤ ·))
    (hstep : p.step a = some p') :
    Lived (done ++ p.calls a) (ended ++ (p.stopped a).toList) p' := by
  have hran : store.exec World.empty (done ++ p.calls a) = some p'.srv.store :=
    Machine.exec_append_eq_some.mpr ⟨_, h.ran, Process.calls_exec hstep⟩
  have hall : ∀ e ∈ done ++ p.calls a, e.Sized := fun e he =>
    (List.mem_append.mp he).elim (h.sized e) (Process.sized_calls h.log a e)
  have hsimple : ∀ e ∈ done ++ p.calls a, e.Simple := fun e he =>
    (List.mem_append.mp he).elim (h.simple e) (p.simple_calls a e)
  refine ⟨hran, hall, hsimple, ?_, ?_⟩
  · cases a with
    | start opts log =>
      simp only [Process.step] at hstep
      split at hstep
      · obtain ⟨w, -, rfl⟩ := Option.map_eq_some_iff.mp hstep
        exact hsized
      · cases hstep
    | apply ts =>
      obtain ⟨e, w, -, -, -, -, -, hlog⟩ := Process.step_apply hstep
      exact hlog ▸ h.log
    | stop =>
      simp only [Process.step] at hstep
      split at hstep
      · cases hstep
      · obtain ⟨w, -, rfl⟩ := Option.map_eq_some_iff.mp hstep
        exact h.log
  · have hbefore : (done.filterMap Store.Event.stamp).Pairwise (· ≤ ·) := by
      rw [List.filterMap_append] at hclock
      exact (List.pairwise_append.mp hclock).1
    obtain ⟨_, _, ht⟩ := h.tracks hbefore
    obtain ⟨_, _, ht'⟩ := tracks_of_orderly (along_of_simple hall hsimple) hclock hran
    have hafter : Served.after (done ++ p.calls a) =
        (p.calls a).foldl Served.step (Served.after done) := List.foldl_append
    rw [hafter] at ht' ⊢
    exact Process.step_served ht.closed hstep ht'.closed h.map

/-- By induction on the events: the clock of the rest goes on from the calls that are done. -/
theorem run (h : Lived done ended p) (hsized : ∀ a ∈ es, a.Sized)
    (hclock : (done.filterMap Store.Event.stamp ++ es.filterMap LifeEvent.stamp).Pairwise (· ≤ ·))
    (hrun : life.exec p es = some p') :
    ∃ done', (done'.filterMap Store.Event.stamp).Pairwise (· ≤ ·) ∧
      Lived done' (ended ++ life.reads Process.stopped p es) p' := by
  induction es generalizing done ended p with
  | nil =>
    cases hrun
    simp only [List.filterMap_nil, List.append_nil] at hclock
    exact ⟨done, hclock, by simpa [Machine.reads] using h⟩
  | cons a es ih =>
    obtain ⟨p₁, hstep, hrest⟩ := Machine.exec_cons_eq_some.mp hrun
    obtain ⟨ha, hes⟩ := List.forall_mem_cons.mp hsized
    have hsub : ((done ++ p.calls a).filterMap Store.Event.stamp ++
        es.filterMap LifeEvent.stamp).Sublist
        (done.filterMap Store.Event.stamp ++ (a :: es).filterMap LifeEvent.stamp) := by
      have hcons : (a :: es).filterMap LifeEvent.stamp =
          a.stamp.toList ++ es.filterMap LifeEvent.stamp := by
        cases hst : a.stamp <;> simp [hst]
      rw [List.filterMap_append, List.append_assoc, hcons]
      exact ((p.stamps_calls a).append_right _).append_left _
    have hgoes := hclock.sublist hsub
    have h₁ := h.step ha (List.pairwise_append.mp hgoes).1 hstep
    obtain ⟨done', hclock', h'⟩ := ih h₁ hes hgoes hrest
    refine ⟨done', hclock', ?_⟩
    have hstep' : life.step p a = some p₁ := hstep
    rw [Machine.reads, hstep', ← List.append_assoc]
    exact h'

end Lived

/-- The store serves the commands of all processes one after another, so it goes back in the log
when a new process begins to apply it. Once the process has applied every command that was applied
before it, nothing is left of the others: the store is at the state of the log again. -/
theorem restart_catches_up (hsized : ∀ a ∈ es, a.Sized)
    (hclock : (es.filterMap LifeEvent.stamp).Pairwise (· ≤ ·))
    (hrun : life.exec .unborn es = some p) (hopen : p.srv.store.db.closed = false)
    (key : Bytes) :
    p.srv.store.lookup key = answer (((life.reads Process.stopped .unborn es).flatten ++
      commands p.log 0 p.srv.taken).foldl effect (fun _ => none) key) ∧
    ((∀ cmds ∈ life.reads Process.stopped .unborn es, cmds ⊆ commands p.log 0 p.srv.taken) →
      p.srv.store.lookup key = answer (stateAt p.log p.srv.taken key)) := by
  obtain ⟨done, hdone, h⟩ := Lived.unborn.run hsized hclock hrun
  obtain ⟨now, segs, ht⟩ := h.tracks hdone
  have hcurrent : p.current = commands p.log 0 p.srv.taken := by simp [Process.current, hopen]
  have hlook : ∀ key, p.srv.store.lookup key = answer ((Served.after done).map key) :=
    lookup_eq ht.session.calm ht.session.holds hopen ht.session.serves
  rw [hlook key, h.map, hcurrent, List.nil_append]
  refine ⟨rfl, fun hall => ?_⟩
  have hsub : (life.reads Process.stopped .unborn es).flatten ⊆ commands p.log 0 p.srv.taken := by
    intro cmd hcmd
    obtain ⟨cmds, hmem, hin⟩ := List.mem_flatten.mp hcmd
    exact hall cmds hmem hin
  rw [overwrites_effect.foldl_replay hsub, stateAt_eq_foldl _ (Nat.zero_le _), stateAt_zero]

/-- Two values of a key, and a barrier. -/
def rewritten : List LogEntry :=
  [sentinel, ⟨1, 1, ⟨.put, [1], [7]⟩⟩, ⟨1, 2, ⟨.put, [1], [8]⟩⟩, ⟨2, 3, ⟨.readBarrier, [], []⟩⟩]

/-- A process that applies two entries and a third one too late, and a process that has come to the
first of them again. -/
def restarted : List LifeEvent :=
  [.start ⟨true, false, 25⟩ rewritten, .apply 1, .apply 2, .stop, .apply 3,
    .start ⟨true, false, 25⟩ rewritten, .apply 3]

theorem restart_catches_up_twice : ∃ p p', life.exec .unborn restarted = some p ∧
    p.srv.store.lookup [1] = .ok [7] ∧
    life.exec .unborn (restarted ++ [.apply 4, .apply 5]) = some p' ∧
    p'.srv.store.lookup [1] = answer (stateAt rewritten 3 [1]) ∧
    stateAt rewritten 3 [1] = some [8] := by
  have hback : (life.exec .unborn restarted).map (fun p => p.srv.store.lookup [1]) =
      some (.ok [7]) := by
    decide +kernel
  obtain ⟨p, hp, hlook⟩ := Option.map_eq_some_iff.mp hback
  have hends : (life.exec .unborn (restarted ++ [.apply 4, .apply 5])).map
      (fun p => (p.srv.store.db.closed, p.log, p.srv.taken)) = some (false, rewritten, 3) := by
    decide +kernel
  obtain ⟨p', hp', hend⟩ := Option.map_eq_some_iff.mp hends
  obtain ⟨hopen, hlog, htaken⟩ : p'.srv.store.db.closed = false ∧ p'.log = rewritten ∧
      p'.srv.taken = 3 := by simpa using hend
  have hcaught := (restart_catches_up (by decide +kernel) (by decide +kernel) hp' hopen [1]).2
  rw [hlog, htaken] at hcaught
  exact ⟨p, p', hp, hlook, hp', hcaught (by decide +kernel), by decide +kernel⟩

end KvRaft.Server
