import KvRaft.Raft.Broadcast
import KvRaft.Raft.Progress
import KvRaft.Server.Linear
import KvRaft.Store.Capacity

/-! The service can always answer. From every state of every run in which the clients' commands
would all fit one message of the RPC layer, the servers come by steps of their own to a leader that
answers a new call as the map of its log does. -/

namespace KvRaft.Server

open Raft Store Effects

variable {n : Nat} {carries : AppendEntriesArgs → Prop} [DecidablePred carries]
  {s s' : System n} {g : Ghost n} {segs : Fin n → Nat → Option Segment}
  {cmds cmds' : List Command}

/-! ### What a message can hold -/

/-- The default limit of grpc-go on a message that a server receives, in bytes. -/
def maxMessageSize : Nat := 4 * 1024 * 1024

/-- The bytes that an entry with this command takes in a message, at most: a term and an index of
eleven bytes each, six more for each of the two messages and the three strings, and twelve for the
longest name that the server submits. -/
def wireSize (cmd : Command) : Nat :=
  64 + (match cmd.type with
    | .other name => name.utf8ByteSize
    | _ => 0) + cmd.key.length + cmd.value.length

/-- A protobuf string is the UTF-8 of a text. -/
def IsText (bs : Bytes) : Prop := ∃ t : List Char, t.flatMap String.utf8EncodeChar = bs

/-- One append request can hold the commands, besides its own five numbers. A leader sends a
follower all that the follower lacks, so this is asked of all commands of a run together. -/
structure Fit (cmds : List Command) : Prop where
  text : ∀ cmd ∈ cmds, IsText cmd.key ∧ IsText cmd.value
  size : 55 + (cmds.map wireSize).sum ≤ maxMessageSize

/-- The command that a client asks for. -/
def Event.asks : Event n → Option Command
  | .invoke _ _ request => some request.command
  | _ => none

namespace Fit

theorem subperm (h : Fit cmds) (hsub : cmds'.Subperm cmds) : Fit cmds' := by
  refine ⟨fun cmd hcmd => h.text cmd (hsub.subset hcmd), le_trans ?_ h.size⟩
  obtain ⟨mid, hperm, hsub⟩ := hsub
  rw [(hperm.map wireSize).sum_eq.symm]
  exact Nat.add_le_add_left ((hsub.map wireSize).sum_le_sum fun _ _ => Nat.zero_le _) _

/-- A message has room for few commands. -/
theorem length_lt (h : Fit cmds) : cmds.length < 2 ^ 63 := by
  have hlen : cmds.length * 1 ≤ (cmds.map wireSize).sum := by
    rw [← List.length_map wireSize]
    refine List.card_nsmul_le_sum _ 1 fun k hk => ?_
    obtain ⟨cmd, -, rfl⟩ := List.mem_map.mp hk
    simp only [wireSize]
    omega
  have := h.size
  rw [maxMessageSize] at this
  omega

end Fit

/-! ### What keeps a system able to go on -/

/-- The commands that Raft has accepted, and those of calls that have not yet come to `Submit`, are
among those that clients have asked for, and no store is short of room. -/
structure Fed (cmds : List Command) (s : System n) : Prop where
  reachable : (cluster n).Reachable s.cluster
  asked : ∃ (entries : List LogEntry) (unsent : List (Nat × Request)),
    Submitted entries s.cluster ∧
    (∀ id call, s.calls id = some call → call.progress = .invoked → (id, call.request) ∈ unsent) ∧
    (entries.map LogEntry.command ++ unsent.map fun p => p.2.command).Subperm cmds
  roomy : ∀ i, (s.server i).store.Roomy (s.server i).taken

/-- What the store answers to a command. -/
def refusal (cmd : Command) : Option Err :=
  if cmd.type = .put ∧ cmd.value = tombstoneValue then some .reservedValue else none

/-- The store of a server takes every command. -/
theorem Replica.applyMsg_ok {log : List LogEntry} {segs : Nat → Option Segment}
    {srv : RaftKVServer} {msg : ApplyMsg} (h : Replica log segs srv)
    (hroomy : srv.store.Roomy srv.taken) (hfew : srv.taken < 2 ^ 63)
    (hsized : 20 + msg.command.key.length + msg.command.value.length < 2 ^ 32) (ts : Int64) :
    ∃ w, w.Roomy (srv.taken + 1) ∧ srv.applyMsg ts msg = some { srv with
      store := w
      taken := srv.taken + 1
      applied := some (⟨msg.index, msg.term⟩, refusal msg.command) } := by
  obtain ⟨-, rs, ha⟩ := h.session.opened h.opened
  obtain ⟨index, term, ⟨type, key, value⟩⟩ := msg
  cases type with
  | put =>
    by_cases hv : value = tombstoneValue
    · subst hv
      exact ⟨srv.store, hroomy.more, by
        simp [RaftKVServer.applyMsg, applyCommand, put_reserved h.opened ha.readWrite, refusal]⟩
    · obtain ⟨w, hput, hw⟩ := h.session.put_accepted h.opened hroomy hfew ts hsized hv
      exact ⟨w, hw, by simp [RaftKVServer.applyMsg, applyCommand, hput, refusal, hv]⟩
  | delete =>
    have hkey : key.length < 2 ^ 32 := by
      simp only at hsized
      omega
    obtain ⟨w, hdelete, hw⟩ := h.session.delete_accepted h.opened hroomy hfew ts hkey
    exact ⟨w, hw, by simp [RaftKVServer.applyMsg, applyCommand, hdelete, refusal]⟩
  | readBarrier | other =>
    exact ⟨srv.store, hroomy.more, by simp [RaftKVServer.applyMsg, applyCommand, refusal]⟩

theorem Consistent.sized (h : Consistent g segs s) {i : Fin n} {k : Nat} {msg : ApplyMsg}
    (hmsg : (s.cluster.emitted i)[k]? = some msg) :
    20 + msg.command.key.length + msg.command.value.length < 2 ^ 32 := by
  obtain ⟨e, he, rfl⟩ := h.carried.emitted h.sound i (List.mem_of_getElem? hmsg)
  exact he

namespace Fed

/-- A call goes on: it has asked before, or has passed `Submit`. -/
theorem setCall (h : Fed cmds s) {id : Nat} {call : ClientCall n}
    (hp : call.progress = .invoked → s.calls id = some call) : Fed cmds (s.setCall id call) := by
  obtain ⟨entries, unsent, hsub, hcalls, hle⟩ := h.asked
  refine { h with asked := ⟨entries, unsent, hsub, fun k c hc hinvoked => ?_, hle⟩ }
  by_cases hk : k = id
  · subst hk
    obtain rfl : call = c := by simpa [System.setCall] using hc
    exact hcalls k call (hp hinvoked) hinvoked
  · exact hcalls k c (by simpa [System.setCall, hk] using hc) hinvoked

theorem setServer (h : Fed cmds s) {i : Fin n} {srv : RaftKVServer}
    (hr : srv.store.Roomy srv.taken) : Fed cmds (s.setServer i srv) := by
  refine { h with roomy := fun j => ?_ }
  by_cases hj : j = i
  · simpa [System.setServer, hj] using hr
  · simpa [System.setServer, hj] using h.roomy j

/-- A server and a call go on, and the store stays. -/
theorem tables (h : Fed cmds s) {i : Fin n} {srv : RaftKVServer} {id : Nat} {call : ClientCall n}
    (hstore : srv.store = (s.server i).store) (htaken : srv.taken = (s.server i).taken)
    (hp : call.progress ≠ .invoked) : Fed cmds ((s.setServer i srv).setCall id call) :=
  (h.setServer (hstore ▸ htaken ▸ h.roomy i)).setCall fun hinvoked => absurd hinvoked hp

theorem raft (h : Fed cmds s) {a : Action n} {c : Cluster n} (ha : submits a = false)
    (hstep : s.cluster.step a = some c) : Fed cmds { s with cluster := c } := by
  obtain ⟨entries, unsent, hsub, hcalls, hle⟩ := h.asked
  have hno : s.cluster.accepted a = none := by
    cases a with
    | submit => cases ha
    | _ => rfl
  exact { h with reachable := h.reachable.leads (.of_step hstep)
                 asked := ⟨entries, unsent, hsub.keeps (Cluster.Step.of_step hstep) hno, hcalls,
                   hle⟩ }

theorem invoke (h : Fed cmds s) {id : Nat} (hid : s.calls id = none) (i : Fin n)
    (request : Request) :
    Fed (cmds ++ [request.command]) (s.setCall id { node := i, request := request }) := by
  obtain ⟨entries, unsent, hsub, hcalls, hle⟩ := h.asked
  refine { h with asked := ⟨entries, unsent ++ [(id, request)], hsub, fun k c hc hp => ?_, ?_⟩ }
  · by_cases hk : k = id
    · subst hk
      obtain rfl : _ = c := by simpa [System.setCall] using hc
      simp
    · exact List.mem_append_left _ (hcalls k c (by simpa [System.setCall, hk] using hc) hp)
  · rw [List.map_append, ← List.append_assoc]
    exact (List.subperm_append_right _).mpr hle

/-- The command of a call goes to Raft. -/
theorem submit (h : Fed cmds s) {id : Nat} {call : ClientCall n} (hcall : s.calls id = some call)
    (hinvoked : call.progress = .invoked) : Fed cmds (s.submit id call) := by
  simp only [System.submit]
  split
  · exact h.setCall fun hp => by cases hp
  · next nd index term hs =>
    obtain ⟨entries, unsent, hsub, hcalls, hle⟩ := h.asked
    have hstep : s.cluster.step (.submit call.node call.request.command) =
        some (s.cluster.setNode call.node nd) := by
      simp [Cluster.step, hs]
    have hmem := hcalls id call hcall hinvoked
    refine ⟨h.reachable.leads (.of_step (a := .submit call.node call.request.command) hstep),
      ⟨_, unsent.erase (id, call.request), hsub.submit hs, fun k c hc hp => ?_, ?_⟩, h.roomy⟩
    · by_cases hk : k = id
      · subst hk
        obtain rfl : _ = c := by simpa [System.setCall] using hc
        cases hp
      · refine (List.mem_erase_of_ne ?_).mpr
          (hcalls k c (by simpa [System.setCall, hk] using hc) hp)
        simp [hk]
    · -- it was among those of the calls, and is now among the entries
      refine List.Perm.subperm ?_ |>.trans hle
      rw [List.map_append, List.append_assoc]
      refine List.Perm.append_left _ ?_
      exact ((List.perm_cons_erase hmem).map fun p => p.2.command).symm

/-- A part of `store.Get`. -/
theorem reading {α : Type} {id : Nat} {call : ClientCall n} {op : Op α} {next : α → Progress}
    (h : Fed cmds s) (hop : Within KeepsRoom op) (hnext : ∀ a, next a ≠ .invoked)
    (hs : s.reading id call op next = some s') : Fed cmds s' := by
  simp only [System.reading] at hs
  split at hs
  · next a w hok =>
    obtain rfl := Option.some.inj hs
    exact (h.setServer (hop.ok hok _ (h.roomy _))).setCall fun hp => absurd hp (hnext a)
  · cases hs
  · next err w _ herr =>
    obtain rfl := Option.some.inj hs
    exact (h.setServer (hop.error herr _ (h.roomy _))).setCall fun hp => by cases hp

theorem notify (h : Fed cmds s) (i : Fin n) (key : PendingKey) (err : Option Err) :
    Fed cmds (s.notify i key err) := by
  simp only [System.notify]
  split
  · next id _ =>
    have h' : Fed cmds (s.setServer i { s.server i with
        applied := none, pending := Function.update (s.server i).pending key none }) :=
      h.setServer (h.roomy i)
    split
    · next call hc =>
      refine h'.setCall fun hp => ?_
      rw [hc, call.receive_invoked hp]
    · exact h'
  · refine h.setServer ?_
    obtain ⟨hstore, htaken, -⟩ :=
      RaftKVServer.complete_same { s.server i with applied := none } key err
    rw [hstore, htaken]
    exact h.roomy i

/-- A server has taken no more messages than there are commands. -/
theorem taken_le (h : Fed cmds s) (hc : Consistent g segs s) (i : Fin n) :
    (s.server i).taken ≤ cmds.length := by
  obtain ⟨entries, unsent, hsub, -, hle⟩ := h.asked
  have hnodup : (s.cluster.node i).log.tail.Nodup := (hc.sound.logs.log i).nodup.tail
  calc (s.server i).taken ≤ (s.cluster.emitted i).length := hc.taken i
    _ ≤ (s.cluster.node i).log.tail.length := by
      have happlied := hc.sound.commits.applied i
      have hcommit := (hc.sound.commits.commit i).1
      rw [hc.sound.length_emitted i, List.length_tail]
      omega
    _ ≤ entries.length := (hnodup.subperm (hsub.log i)).length_le
    _ ≤ cmds.length := by
      have := hle.length_le
      rw [List.length_append, List.length_map] at this
      omega

/-- A request in flight holds commands that clients have asked for. -/
theorem request_subperm (h : Fed cmds s) (hc : Consistent g segs s) {j : Fin n}
    {args : AppendEntriesArgs} (hreq : s.cluster.AppendRequest j args) :
    (args.entries.map LogEntry.command).Subperm cmds := by
  obtain ⟨entries, unsent, hsub, -, hle⟩ := h.asked
  obtain ⟨mid, hperm, hmid⟩ :=
    (hc.sound.logs.request_nodup hreq).subperm (hsub.request j args hreq).2
  have hcommands : (args.entries.map LogEntry.command).Subperm (entries.map LogEntry.command) :=
    ⟨mid.map LogEntry.command, hperm.map _, hmid.map _⟩
  exact (hcommands.trans (List.sublist_append_left _ _).subperm).trans hle

/-- A step in which no client asks for anything. -/
theorem own (h : Fed cmds s) (hc : Consistent g segs s) (hfew : cmds.length < 2 ^ 63)
    {e : Event n} (he : e.asks = none) (hstep : s.step carries e = some s') : Fed cmds s' := by
  cases e with
  | invoke id i request => cases he
  | raft a =>
    simp only [System.step, Option.ite_none_right_eq_some, Option.map_eq_some_iff] at hstep
    obtain ⟨⟨ha, -⟩, c, hs, rfl⟩ := hstep
    exact h.raft ha hs
  | submit id =>
    simp only [System.step, Option.bind_eq_bind, Option.bind_eq_some_iff] at hstep
    obtain ⟨call, hcall, hstep⟩ := hstep
    split at hstep
    · next hinvoked =>
      obtain rfl := Option.some.inj hstep
      exact h.submit hcall hinvoked
    · cases hstep
  | register id =>
    simp only [System.step, Option.bind_eq_bind, Option.bind_eq_some_iff] at hstep
    obtain ⟨call, hcall, hstep⟩ := hstep
    split at hstep
    · obtain rfl := Option.some.inj hstep
      simp only [System.register]
      split
      · exact h.tables rfl rfl (call.finish_invoked _)
      · exact h.tables rfl rfl (by simp)
    · cases hstep
  | wake id =>
    simp only [System.step, Option.bind_eq_bind, Option.bind_eq_some_iff] at hstep
    obtain ⟨call, hcall, hstep⟩ := hstep
    split at hstep
    · obtain rfl := Option.some.inj hstep
      exact h.setCall fun hp => absurd hp (call.finish_invoked _)
    · cases hstep
  | giveUp id canceled =>
    simp only [System.step, Option.bind_eq_bind, Option.bind_eq_some_iff] at hstep
    obtain ⟨call, hcall, hstep⟩ := hstep
    split at hstep
    · obtain rfl := Option.some.inj hstep
      exact h.tables rfl rfl (by simp [ClientCall.giveUp])
    · obtain rfl := Option.some.inj hstep
      exact h.tables rfl rfl (by simp [ClientCall.giveUp])
    · cases hstep
  | find id =>
    simp only [System.step, Option.bind_eq_bind, Option.bind_eq_some_iff] at hstep
    obtain ⟨call, hcall, hstep⟩ := hstep
    split at hstep
    · exact h.reading (within_findEntry _) (by simp) hstep
    · cases hstep
  | read id =>
    simp only [System.step, Option.bind_eq_bind, Option.bind_eq_some_iff] at hstep
    obtain ⟨call, hcall, hstep⟩ := hstep
    split at hstep
    · exact h.reading (keepsRoom_readValue _ _) (by simp) hstep
    · cases hstep
  | apply i ts =>
    simp only [System.step] at hstep
    split at hstep
    · simp only [Option.bind_eq_bind, Option.pure_def, Option.bind_eq_some_iff,
        Option.some.injEq] at hstep
      obtain ⟨msg, hmsg, srv, hs, rfl⟩ := hstep
      obtain ⟨w, hw, hok⟩ := (hc.replica i).applyMsg_ok (h.roomy i)
        ((h.taken_le hc i).trans_lt hfew) (hc.sized hmsg) ts
      obtain rfl := Option.some.inj (hs.symm.trans hok)
      exact h.setServer hw
    · cases hstep
  | notify i =>
    simp only [System.step, Option.bind_eq_bind, Option.pure_def, Option.bind_eq_some_iff,
      Option.some.injEq] at hstep
    obtain ⟨⟨key, err⟩, -, rfl⟩ := hstep
    exact h.notify i key err

theorem step (h : Fed cmds s) (hc : Consistent g segs s) (hfew : cmds.length < 2 ^ 63)
    {e : Event n} (hstep : s.step carries e = some s') : Fed (cmds ++ e.asks.toList) s' := by
  cases he : e.asks with
  | none => simpa using h.own hc hfew he hstep
  | some cmd =>
    cases e with
    | invoke id i request =>
      simp only [System.step] at hstep
      split at hstep
      · next hid =>
        obtain rfl := Option.some.inj hstep
        obtain rfl := Option.some.inj he
        exact h.invoke hid i request
      · cases hstep
    | _ => cases he

end Fed

/-! ### The steps of one call -/

/-- A state of a run in which clients have asked for `cmds`, and not for too much. -/
structure Healthy (cmds : List Command) (s : System n) : Prop where
  fit : Fit cmds
  fed : Fed cmds s
  consistent : ∃ g segs, Consistent g segs s

/-- A step of the servers themselves, or of the call `id` as long as its context lasts. -/
def Event.Of (id : Nat) : Event n → Prop
  | .raft _ | .apply _ _ | .notify _ => True
  | .invoke k _ _ | .submit k | .register k | .wake k | .find k | .read k => k = id
  | .giveUp _ _ => False

/-- What a call returns when the map before its entry is `m`. -/
def Request.answer (m : Bytes → Option Bytes) : Request → Result
  | .get key => .lookup (m key)
  | .put _ value => if value = tombstoneValue then .failed (.store .reservedValue) else .nil
  | .delete _ => .nil

theorem leadsBy_event {id : Nat} {e : Event n} (he : e.Of id)
    (hstep : s.step carries e = some s') : (system n carries).LeadsBy (Event.Of id) s s' :=
  .of_step hstep he

/-- An entry that a server has applied stands at its index. -/
theorem Reported.index_le {c : Cluster n} (h : Sound g c) {taken : Nat} {key : PendingKey}
    {err : Option Err} (hr : Reported g.committed taken key err) : key.index ≤ taken := by
  obtain ⟨k, e, hk, he, hindex, -⟩ := hr
  obtain ⟨hlt, rfl⟩ := List.getElem?_eq_some_iff.mp he
  have hpos := (h.commits.wellFormed h.logs).index k hlt
  omega

variable (carries) in
theorem System.step_find {id : Nat} {call : ClientCall n} {key : Bytes}
    (hc : s.calls id = some call) (hp : call.progress = .applied) (hr : call.request = .get key) :
    s.step carries (.find id) = s.reading id call (findEntry key) .found := by
  simp [System.step, hc, hp, hr]

variable (carries) in
theorem System.step_read {id : Nat} {call : ClientCall n} {key : Bytes} {entry : KeyDirEntry}
    (hc : s.calls id = some call) (hp : call.progress = .found entry)
    (hr : call.request = .get key) :
    s.step carries (.read id) =
      s.reading id call (readValue key entry) fun bytes => .returned (.value bytes) := by
  simp [System.step, hc, hp, hr]

variable (carries) in
/-- A `Get` whose barrier has been applied returns what the map of its server has. -/
theorem Consistent.leads_got (h : Consistent g segs s) {id : Nat} {call : ClientCall n}
    {key : Bytes} (hc : s.calls id = some call) (hp : call.progress = .applied)
    (hr : call.request = .get key) :
    ∃ s', (system n carries).LeadsBy (Event.Of id) s s' ∧ s'.cluster = s.cluster ∧
      s'.calls id = some { call with
        progress := .returned (.lookup (stateAt g.committed (s.server call.node).taken key)) } := by
  obtain ⟨hsession, hopen, -, -, -⟩ := h.replica call.node
  have hcalm := h.calm call.node
  cases he : (s.server call.node).store.db.keydir[key]? with
  | none =>
    have hfind : s.reading id call (findEntry key) .found = some ((s.setServer call.node
        { s.server call.node with store := (s.server call.node).store }).setCall id
          { call with progress := .returned (.failed (.store .keyNotFound)) }) := by
      rw [System.reading, hcalm, findEntry_dead hopen he]
    rw [← System.step_find carries hc hp hr] at hfind
    refine ⟨_, leadsBy_event (e := .find id) rfl hfind, rfl, ?_⟩
    rw [hsession.serves.dead key he]
    simp [System.setCall, Result.lookup]
  | some entry =>
    obtain ⟨r, hat, rfl, hlive, hv⟩ := hsession.serves.live key entry he
    have hfind : s.reading id call (findEntry r.key) .found = some ((s.setServer call.node
        { s.server call.node with store := (s.server call.node).store }).setCall id
          { call with progress := .found entry }) := by
      rw [System.reading, hcalm, findEntry_live hopen he]
    generalize hs₁ : (s.setServer call.node { s.server call.node with
      store := (s.server call.node).store }).setCall id { call with progress := .found entry } = s₁
      at hfind
    have hc₁ : s₁.calls id = some { call with progress := .found entry } := by
      simp [← hs₁, System.setCall]
    have hstore : (s₁.server call.node).store = (s.server call.node).store := by
      simp [← hs₁, System.setCall, System.setServer]
    have hvalue := readValue_run hsession.holds hopen hat hlive
    rw [← hcalm, ← hstore] at hvalue
    have hread := System.step_read carries hc₁ rfl hr
    simp only [System.reading, hvalue] at hread
    rw [← System.step_find carries hc hp hr] at hfind
    refine ⟨_, (leadsBy_event (e := .find id) rfl hfind).trans
      (leadsBy_event (e := .read id) rfl hread), ?_, ?_⟩
    · simp [← hs₁, System.setCall, System.setServer]
    · rw [hv]
      simp [System.setCall, Result.lookup]

/-! ### A call that waits -/

/-- A result that is not that of the call leaves the call and its channel in place. -/
theorem notify_other {x : Fin n} {id : Nat} {key key' : PendingKey} (err : Option Err)
    (hkey : key' ≠ key) (hid : (s.server x).pending key' ≠ some id) :
    (s.notify x key' err).cluster = s.cluster ∧ (s.notify x key' err).calls id = s.calls id ∧
      ((s.notify x key' err).server x).pending key = (s.server x).pending key ∧
      ((s.notify x key' err).server x).taken = (s.server x).taken ∧
      ((s.notify x key' err).server x).applied = none := by
  simp only [System.notify]
  split
  · next k hk =>
    have hne : id ≠ k := by
      rintro rfl
      exact hid hk
    split <;> simp [System.setServer, System.setCall, hne, hkey.symm]
  · obtain ⟨-, htaken, happlied, hpending⟩ :=
      RaftKVServer.complete_same { s.server x with applied := none } key' err
    simp [System.setServer, htaken, happlied, hpending]

/-- The call `id` on server `x` waits for the last entry of the log, which the server has not taken
yet or has just applied. -/
structure Awaiting (cmds : List Command) (x : Fin n) (id : Nat) (L : List LogEntry) (T : Int)
    (request : Request) (s : System n) : Prop where
  healthy : Healthy cmds s
  emitted : s.cluster.emitted x =
    (L ++ [(⟨T, L.length, request.command⟩ : LogEntry)]).tail.map LogEntry.toMsg
  call : s.calls id = some ⟨x, request, some ⟨L.length, T⟩, .waiting⟩
  pending : (s.server x).pending ⟨L.length, T⟩ = some id
  ahead : (s.server x).taken < L.length ∨ (s.server x).taken = L.length ∧
    (s.server x).applied = some (⟨L.length, T⟩, refusal request.command)

/-- The channel of the call holds the result of its entry. -/
structure Told (cmds : List Command) (x : Fin n) (id : Nat) (L : List LogEntry) (T : Int)
    (request : Request) (s : System n) : Prop where
  healthy : Healthy cmds s
  taken : (s.server x).taken = L.length
  call : s.calls id = some ⟨x, request, some ⟨L.length, T⟩, .notified (refusal request.command)⟩

/-- What the applier of the server has still to do. -/
def RaftKVServer.backlog (srv : RaftKVServer) (k : Nat) : Nat :=
  2 * (k - srv.taken) + if srv.applied.isSome then 1 else 0

section Serving

variable (hn : 2 ≤ n) (hn' : n ≤ 3)
  (hsized : ∀ args, carries args → ∀ e ∈ args.entries, Server.Sized e)

include hn hn' hsized

theorem Healthy.step (h : Healthy cmds s) {e : Event n} (hfit : Fit (cmds ++ e.asks.toList))
    (hstep : s.step carries e = some s') : Healthy (cmds ++ e.asks.toList) s' := by
  obtain ⟨hfit₀, hfed, g, segs, hc⟩ := h
  obtain ⟨g', -, hc'⟩ := hc.step hn' hn hsized (.of_step hstep)
  exact ⟨hfit, hfed.step hc hfit₀.length_lt hstep, g', hc'⟩

theorem Healthy.own (h : Healthy cmds s) {e : Event n} (he : e.asks = none)
    (hstep : s.step carries e = some s') : Healthy cmds s' := by
  have hsame : cmds ++ e.asks.toList = cmds := by simp [he]
  exact hsame ▸ h.step hn hn' hsized (hsame.symm ▸ h.fit) hstep

theorem Healthy.of_run {s₀ : System n} (h₀ : (system n carries).initial s₀)
    (hlimit : ∀ i, (s₀.server i).store.db.opts.maxDataFileSizeBytes.toInt ≤ 2 ^ 61)
    {events : List (Event n)} (hrun : (system n carries).exec s₀ events = some s)
    (hfit : Fit (events.filterMap Event.asks)) : Healthy (events.filterMap Event.asks) s := by
  have hstart : Healthy [] s₀ := by
    refine ⟨⟨by simp, by decide⟩, ?_, Consistent.initial ⟨0, by omega⟩ h₀⟩
    obtain ⟨⟨peers, hp, hcluster⟩, hcalls, hserver⟩ := h₀
    refine ⟨⟨_, [], ⟨peers, hp, hcluster⟩, rfl⟩, ⟨[], [], ?_, by simp [hcalls], by simp⟩,
      fun i => ?_⟩
    · rw [hcluster]
      exact .start peers
    · obtain ⟨w, ⟨opts, hopen⟩, hsrv⟩ := hserver i
      have hle := hlimit i
      rw [hsrv] at hle ⊢
      exact World.openDB_roomy hopen hle
  -- the commands of the first steps of the run are some of those of the whole run
  have hinv := Machine.reads_invariant (f := fun _ e => Event.asks e)
    (I := fun cmds t => Fit cmds → Healthy cmds t)
    (fun cmds t e t' ht hstep hfit => (ht (hfit.subperm
      (List.sublist_append_left _ _).subperm)).step hn hn' hsized hfit hstep)
    hrun fun _ => hstart
  rw [List.nil_append, Machine.reads_eq_filterMap hrun] at hinv
  exact hinv hfit

section Delivered

variable (hcarries : ∀ args, Fit (args.entries.map LogEntry.command) → carries args)

include hcarries

/-- The raft nodes take a run of their own, whose requests are all carried. -/
theorem Healthy.follow (h : Healthy cmds s) {c : Cluster n} (id : Nat)
    (hlead : (cluster n).LeadsBy Action.Internal s.cluster c) :
    (system n carries).LeadsBy (Event.Of id) s { s with cluster := c } ∧
      Healthy cmds { s with cluster := c } := by
  have hsim : ∀ d a d' t, t = { s with cluster := d } ∧ Healthy cmds t → Action.Internal a →
      (cluster n).step d a = some d' → ∃ t', (system n carries).LeadsBy (Event.Of id) t t' ∧
        t' = { s with cluster := d' } ∧ Healthy cmds t' := by
    rintro d a d' t ⟨rfl, ht⟩ ha hstep
    have hno : submits a = false := by
      cases a with
      | submit => exact ha.elim
      | _ => rfl
    have hcarry : ∀ args ∈ d.delivered a, carries args := by
      intro args hargs
      obtain ⟨j, -, -, hreq, -⟩ := Cluster.step_delivered hargs hstep
      obtain ⟨g, segs, hc⟩ := ht.consistent
      exact hcarries args (ht.fit.subperm (ht.fed.request_subperm hc hreq))
    have hstep' : System.step carries { s with cluster := d } (.raft a) =
        some { s with cluster := d' } := by
      have hs : d.step a = some d' := hstep
      simp only [System.step, hno, hs, Option.map_some]
      exact if_pos ⟨trivial, hcarry⟩
    exact ⟨_, leadsBy_event (e := .raft a) trivial hstep', rfl,
      ht.own hn hn' hsized (e := .raft a) rfl hstep'⟩
  obtain ⟨t, hrun, rfl, ht⟩ := hlead.follow hsim ⟨rfl, h⟩
  exact ⟨hrun, ht⟩

end Delivered

variable {x : Fin n} {id : Nat} {L : List LogEntry} {T : Int} {request : Request}

/-- The applier passes a result on. -/
theorem Awaiting.notify (h : Awaiting cmds x id L T request s) {key : PendingKey} {err : Option Err}
    (ha : (s.server x).applied = some (key, err)) :
    ∃ s', (system n carries).LeadsBy (Event.Of id) s s' ∧ s'.cluster = s.cluster ∧
      (Told cmds x id L T request s' ∨ Awaiting cmds x id L T request s' ∧
        (s'.server x).backlog L.length < (s.server x).backlog L.length) := by
  have hstep : s.step carries (.notify x) = some (s.notify x key err) := by
    simp [System.step, ha]
  have hlead : (system n carries).LeadsBy (Event.Of id) s (s.notify x key err) :=
    leadsBy_event (e := .notify x) trivial hstep
  have hhealthy := h.healthy.own hn hn' hsized (e := .notify x) rfl hstep
  obtain ⟨-, -, g, segs, hc⟩ := h.healthy
  have hle := ((hc.replica x).applied key err ha).index_le hc.sound
  by_cases hkey : key = ⟨L.length, T⟩
  · subst hkey
    rcases h.ahead with hlt | ⟨htaken, happ⟩
    · simp only at hle
      omega
    · obtain rfl : err = refusal request.command := by
        rw [ha] at happ
        simpa using happ
      have heq : s.notify x ⟨L.length, T⟩ (refusal request.command) =
          (s.setServer x { s.server x with
            applied := none
            pending := Function.update (s.server x).pending ⟨L.length, T⟩ none }).setCall id
              ⟨x, request, some ⟨L.length, T⟩, .notified (refusal request.command)⟩ := by
        simp [System.notify, h.pending, System.setServer, h.call, ClientCall.receive]
      rw [heq] at hlead hhealthy
      refine ⟨_, hlead, rfl, Or.inl ⟨hhealthy, ?_, ?_⟩⟩
      · simpa [System.setCall, System.setServer] using htaken
      · simp [System.setCall]
  · have hid : (s.server x).pending key ≠ some id := by
      intro hp
      obtain ⟨call, hcall, -, hwait⟩ := hc.pending x key id hp
      obtain rfl := Option.some.inj (h.call.symm.trans hcall)
      exact hkey (Option.some.inj hwait).symm
    obtain ⟨hcluster, hcalls, hpending, htaken, happlied⟩ := notify_other err hkey hid
    have hlt : (s.server x).taken < L.length := by
      refine h.ahead.resolve_right fun hr => hkey ?_
      rw [ha] at hr
      exact (Prod.mk.inj (Option.some.inj hr.2)).1
    refine ⟨_, hlead, hcluster, Or.inr ⟨⟨hhealthy, ?_, ?_, ?_, ?_⟩, ?_⟩⟩
    · rw [hcluster, h.emitted]
    · rw [hcalls, h.call]
    · rw [hpending, h.pending]
    · exact Or.inl (by rw [htaken]; exact hlt)
    · simp [RaftKVServer.backlog, htaken, happlied, ha]

/-- The applier takes the next message. -/
theorem Awaiting.apply (h : Awaiting cmds x id L T request s) (hL : L ≠ [])
    (ha : (s.server x).applied = none) :
    ∃ s', (system n carries).LeadsBy (Event.Of id) s s' ∧ s'.cluster = s.cluster ∧
      Awaiting cmds x id L T request s' ∧
        (s'.server x).backlog L.length < (s.server x).backlog L.length := by
  have hlt : (s.server x).taken < L.length := by
    refine h.ahead.resolve_right fun hr => ?_
    rw [ha] at hr
    cases hr.2
  have hmsgs : s.cluster.emitted x =
      L.tail.map LogEntry.toMsg ++ [⟨L.length, T, request.command⟩] := by
    rw [h.emitted, List.tail_append_of_ne_nil hL, List.map_append]
    rfl
  have hlen : (s.cluster.emitted x).length = L.length := by
    have := List.length_pos_iff.mpr hL
    rw [hmsgs]
    simp
    omega
  obtain ⟨msg, hmsg⟩ : ∃ msg, (s.cluster.emitted x)[(s.server x).taken]? = some msg :=
    ⟨_, List.getElem?_eq_getElem (hlen ▸ hlt)⟩
  obtain ⟨hfit, hfed, g, segs, hc⟩ := h.healthy
  obtain ⟨w, -, hok⟩ := (hc.replica x).applyMsg_ok (hfed.roomy x)
    ((hfed.taken_le hc x).trans_lt hfit.length_lt) (hc.sized hmsg) 0
  have hstep : s.step carries (.apply x 0) = some (s.setServer x { s.server x with
      store := w
      taken := (s.server x).taken + 1
      applied := some (⟨msg.index, msg.term⟩, refusal msg.command) }) := by
    simp [System.step, ha, hmsg, hok]
  refine ⟨_, leadsBy_event (e := .apply x 0) trivial hstep, rfl,
    ⟨h.healthy.own hn hn' hsized (e := .apply x 0) rfl hstep, h.emitted, h.call, ?_, ?_⟩, ?_⟩
  · simpa [System.setServer] using h.pending
  · simp only [System.setServer, Function.update_self]
    by_cases hlast : (s.server x).taken + 1 < L.length
    · exact Or.inl hlast
    · -- the last message is that of the call
      have hend : (s.server x).taken = (L.tail.map LogEntry.toMsg).length := by
        simp
        omega
      rw [hmsgs, hend, List.getElem?_concat_length] at hmsg
      obtain rfl := Option.some.inj hmsg
      exact Or.inr ⟨by omega, rfl⟩
  · simp [RaftKVServer.backlog, System.setServer, ha]
    omega

/-- The applier goes on until the call has its result. -/
theorem Awaiting.leads_told (h : Awaiting cmds x id L T request s) (hL : L ≠ []) :
    ∃ s', (system n carries).LeadsBy (Event.Of id) s s' ∧ s'.cluster = s.cluster ∧
      Told cmds x id L T request s' := by
  obtain ⟨s', hlead, ⟨hcluster, -⟩, htold⟩ :=
    Machine.LeadsBy.iterate (m := system n carries) (P := Event.Of id) (s := s)
      (I := fun t => t.cluster = s.cluster ∧
        (Told cmds x id L T request t ∨ Awaiting cmds x id L T request t))
      (G := Told cmds x id L T request) (fun t => (t.server x).backlog L.length)
      (fun t ht hnot => by
        obtain ⟨hcluster, ht⟩ := ht
        have hwait := ht.resolve_left hnot
        cases ha : (t.server x).applied with
        | none =>
          obtain ⟨t', hlead, hsame, hwait', hless⟩ := hwait.apply hn hn' hsized hL ha
          exact ⟨t', hlead, ⟨hsame.trans hcluster, Or.inr hwait'⟩, Or.inr hless⟩
        | some result =>
          obtain ⟨t', hlead, hsame, hnext⟩ := hwait.notify hn hn' hsized ha
          exact ⟨t', hlead, ⟨hsame.trans hcluster, hnext.imp_right And.left⟩,
            hnext.imp_right And.right⟩)
      ⟨rfl, Or.inr h⟩
  exact ⟨s', hlead, hcluster, htold⟩

/-- The call takes its result; a `Get` then reads the store. -/
theorem Told.leads_returned (h : Told cmds x id L T request s) (hL : L ≠ [])
    (hlead : Cluster.Leading x T (L ++ [⟨T, L.length, request.command⟩]) s.cluster)
    (hemitted : (s.cluster.emitted x).length = L.length) :
    ∃ s', (system n carries).LeadsBy (Event.Of id) s s' ∧ s'.cluster = s.cluster ∧
      s'.calls id = some ⟨x, request, some ⟨L.length, T⟩,
        .returned (request.answer (stateAt L (L.length - 1)))⟩ := by
  have hstep : s.step carries (.wake id) = some (s.setCall id (ClientCall.finish
      ⟨x, request, some ⟨L.length, T⟩, .notified (refusal request.command)⟩
      (refusal request.command))) := by
    simp [System.step, h.call]
  have hwake := leadsBy_event (e := .wake id) rfl hstep
  cases request with
  | put key value =>
    refine ⟨_, hwake, rfl, ?_⟩
    by_cases hv : value = tombstoneValue <;>
      simp [System.setCall, ClientCall.finish, refusal, Request.command, Request.answer, hv]
  | delete key =>
    refine ⟨_, hwake, rfl, ?_⟩
    simp [System.setCall, ClientCall.finish, refusal, Request.command, Request.answer]
  | get key =>
    obtain ⟨-, -, g, segs, hc⟩ := h.healthy.own hn hn' hsized (e := .wake id) rfl hstep
    have happlied : (s.setCall id (ClientCall.finish
        ⟨x, .get key, some ⟨L.length, T⟩, .notified (refusal (Request.get key).command)⟩
        (refusal (Request.get key).command))).calls id =
          some ⟨x, .get key, some ⟨L.length, T⟩, .applied⟩ := by
      simp [System.setCall, ClientCall.finish, refusal, Request.command]
    obtain ⟨s', hread, hcluster, hcall⟩ := hc.leads_got carries happlied rfl rfl
    refine ⟨s', hwake.trans hread, hcluster, ?_⟩
    -- the server has emitted the whole log of the leader, so all of it is committed
    have hcommitted : g.committed = L ++ [⟨T, L.length, (Request.get key).command⟩] := by
      have hwithin : g.committed <+: (s.cluster.node x).log :=
        hc.sound.commits.leader hc.sound.votes hc.sound.logs hlead.state
      rw [hlead.log] at hwithin
      refine hwithin.eq_of_length_le ?_
      have hlt : (s.cluster.emitted x).length < g.committed.length :=
        hc.sound.emitted_lt_committed x
      rw [List.length_append, List.length_singleton]
      omega
    have hpos := List.length_pos_iff.mpr hL
    have hstate : stateAt g.committed L.length = stateAt L (L.length - 1) := by
      have hat : g.committed[L.length - 1 + 1]? =
          some ⟨T, L.length, (Request.get key).command⟩ := by
        rw [hcommitted, Nat.sub_add_cancel hpos, List.getElem?_concat_length]
      have hsucc := stateAt_succ hat
      rw [Nat.sub_add_cancel hpos] at hsucc
      rw [hsucc, hcommitted, stateAt_extend (List.prefix_append ..) (by omega)]
      rfl
    rw [hcall, show ((s.setCall id _).server x).taken = L.length from h.taken, hstate]
    rfl

/-- A call that a leader accepts comes to wait for its entry: no result of it can be kept yet. -/
theorem Healthy.leads_waiting (h : Healthy cmds s) (hlead : Cluster.Leading x T L s.cluster)
    (hL : L ≠ []) (hid : s.calls id = none) (hr : Fit (cmds ++ [request.command])) :
    ∃ s', (system n carries).LeadsBy (Event.Of id) s s' ∧ Healthy (cmds ++ [request.command]) s' ∧
      Cluster.Leading x T (L ++ [⟨T, L.length, request.command⟩]) s'.cluster ∧
      s'.calls id = some ⟨x, request, some ⟨L.length, T⟩, .waiting⟩ ∧
      (s'.server x).pending ⟨L.length, T⟩ = some id ∧ (s'.server x).taken < L.length := by
  have hinvoke : s.step carries (.invoke id x request) =
      some (s.setCall id { node := x, request := request }) := by
    simp [System.step, hid]
  have h₁ := h.step hn hn' hsized (e := .invoke id x request) hr hinvoke
  obtain ⟨nd, hs, hlead₂⟩ := hlead.submit request.command
  generalize hs₁ : s.setCall id { node := x, request := request } = s₁ at hinvoke h₁
  have hc₁ : s₁.calls id = some { node := x, request := request } := by
    simp [← hs₁, System.setCall]
  have hcluster₁ : s₁.cluster = s.cluster := by
    rw [← hs₁]
    rfl
  have hsubmit : s₁.step carries (.submit id) = some ({ s₁ with
      cluster := s.cluster.setNode x nd }.setCall id
        ⟨x, request, some ⟨L.length, T⟩, .submitted⟩) := by
    simp [System.step, hc₁, System.submit, hcluster₁, hs]
  have h₂ := h₁.own hn hn' hsized (e := .submit id) rfl hsubmit
  generalize hs₂ : { s₁ with cluster := s.cluster.setNode x nd }.setCall id
    ⟨x, request, some ⟨L.length, T⟩, .submitted⟩ = s₂ at hsubmit h₂
  have hc₂ : s₂.calls id = some ⟨x, request, some ⟨L.length, T⟩, .submitted⟩ := by
    simp [← hs₂, System.setCall]
  have hcluster₂ : s₂.cluster = s.cluster.setNode x nd := by
    rw [← hs₂]
    rfl
  have htaken : (s₂.server x).taken < L.length := by
    obtain ⟨-, -, g, segs, hc⟩ := h₂
    have hle := (hc.taken x).trans_eq (congrArg List.length (congrFun (congrArg _ hcluster₂) x))
    have hwithin := (hlead.emitted_within hn' x).length_le
    have hpos := List.length_pos_iff.mpr hL
    rw [List.length_map, List.length_tail] at hwithin
    change _ ≤ (s.cluster.emitted x).length at hle
    omega
  have hnone : (s₂.server x).completed ⟨L.length, T⟩ = none := by
    obtain ⟨-, -, g, segs, hc⟩ := h₂
    refine Option.eq_none_iff_forall_ne_some.mpr fun err herr => ?_
    have hle := ((hc.replica x).completed _ err herr).index_le hc.sound
    simp only at hle
    omega
  have hregister : s₂.step carries (.register id) = some ((s₂.setServer x { s₂.server x with
      pending := Function.update (s₂.server x).pending ⟨L.length, T⟩ (some id) }).setCall id
        ⟨x, request, some ⟨L.length, T⟩, .waiting⟩) := by
    simp [System.step, hc₂, System.register, hnone]
  refine ⟨_, (leadsBy_event (e := .invoke id x request) rfl hinvoke).trans <|
    (leadsBy_event (e := .submit id) rfl hsubmit).trans <|
    leadsBy_event (e := .register id) rfl hregister,
    h₂.own hn hn' hsized (e := .register id) rfl hregister, ?_, ?_, ?_, ?_⟩
  · rw [← hcluster₂] at hlead₂
    exact hlead₂
  · simp [System.setCall]
  · simp [System.setCall, System.setServer]
  · simpa [System.setCall, System.setServer] using htaken

/-- A leader whose term no node has passed answers a call. -/
theorem Healthy.serve
    (hcarries : ∀ args, Fit (args.entries.map LogEntry.command) → carries args)
    (h : Healthy cmds s) (hlead : Cluster.Leading x T L s.cluster) (hL : L ≠ [])
    (hid : s.calls id = none) (hr : Fit (cmds ++ [request.command])) :
    ∃ s', (system n carries).LeadsBy (Event.Of id) s s' ∧
      (∀ i, s'.cluster.emitted i =
        (L ++ [(⟨T, L.length, request.command⟩ : LogEntry)]).tail.map LogEntry.toMsg) ∧
      s'.calls id = some ⟨x, request, some ⟨L.length, T⟩,
        .returned (request.answer (stateAt L (L.length - 1)))⟩ := by
  obtain ⟨s₁, hwaits, h₁, hlead₁, hcall₁, hpending, htaken⟩ :=
    h.leads_waiting hn hn' hsized hlead hL hid hr
  obtain ⟨c, hraft, hlead₂, hemitted⟩ := hlead₁.leads_emitted hn hn' (by simp)
  obtain ⟨hfollow, h₂⟩ := h₁.follow hn hn' hsized hcarries id hraft
  have hwait : Awaiting _ x id L T request { s₁ with cluster := c } :=
    ⟨h₂, hemitted x, hcall₁, hpending, Or.inl htaken⟩
  obtain ⟨s₃, happly, hcluster₃, htold⟩ := hwait.leads_told hn hn' hsized hL
  have hlength : (c.emitted x).length = L.length := by
    rw [hemitted x, List.length_map, List.length_tail, List.length_append]
    rfl
  obtain ⟨s', hreturn, hcluster', hcall⟩ := htold.leads_returned hn hn' hsized hL
    (by rw [hcluster₃]; exact hlead₂) (by rw [hcluster₃]; exact hlength)
  refine ⟨s', hwaits.trans (hfollow.trans (happly.trans hreturn)), fun i => ?_, hcall⟩
  rw [hcluster', hcluster₃]
  exact hemitted i

end Serving

/-- The service of two or three servers can always answer, if the RPC layer carries the requests
that its receive limit admits and the commands that clients ask for, the new one with them, would
fit one request. From every state of every such run, with whatever requests lost and calls left
waiting, steps of the servers bring about a leader whose log holds all that any node has emitted;
and a new call on it, by its own steps and those of the servers, returns what the map of that log
answers, with its command emitted by every node. -/
theorem always_answers (hn : 2 ≤ n) (hn' : n ≤ 3)
    (hsized : ∀ args, carries args → ∀ e ∈ args.entries, Server.Sized e)
    (hcarries : ∀ args, Fit (args.entries.map LogEntry.command) → carries args) {s₀ : System n}
    (h₀ : (system n carries).initial s₀)
    (hlimit : ∀ i, (s₀.server i).store.db.opts.maxDataFileSizeBytes.toInt ≤ 2 ^ 61)
    {events : List (Event n)} (hrun : (system n carries).exec s₀ events = some s) {id : Nat}
    (hid : s.calls id = none) {request : Request}
    (hfit : Fit (events.filterMap Event.asks ++ [request.command])) :
    ∃ (x : Fin n) (L : List LogEntry) (s₁ s' : System n) (call : ClientCall n) (msg : ApplyMsg),
      (system n carries).LeadsBy (Event.Of id) s s₁ ∧ (s₁.cluster.node x).state = .leader ∧
      (s₁.cluster.node x).log = L ∧ s₁.calls id = none ∧
      (∀ i, s.cluster.emitted i <+: L.tail.map LogEntry.toMsg) ∧
      (system n carries).LeadsBy (Event.Of id) s₁ s' ∧
      (∀ i, s'.cluster.emitted i = L.tail.map LogEntry.toMsg ++ [msg]) ∧
      msg.command = request.command ∧ s'.calls id = some call ∧ call.node = x ∧
      call.request = request ∧
      call.progress = .returned (request.answer (stateAt L (L.length - 1))) := by
  have h := Healthy.of_run hn hn' hsized h₀ hlimit hrun
    (hfit.subperm (List.sublist_append_left _ _).subperm)
  obtain ⟨c, x, hraft, hstate, hle⟩ := Cluster.leads_leader hn hn' h.fed.reachable
  have hreach := h.fed.reachable.leads hraft.leads
  have hlead : Cluster.Leading x (c.node x).currentTerm (c.node x).log c :=
    ⟨hreach, hstate, rfl, rfl, hle⟩
  have hL := Cluster.log_ne_nil hn' hreach x
  obtain ⟨hfollow, h₁⟩ := h.follow hn hn' hsized hcarries id hraft
  obtain ⟨s', hserve, hemitted, hcall⟩ := h₁.serve hn hn' hsized hcarries hlead hL hid hfit
  refine ⟨x, (c.node x).log, _, s', _, ⟨(c.node x).log.length, (c.node x).currentTerm,
    request.command⟩, hfollow, hstate, rfl, hid, fun i => ?_, hserve, fun i => ?_, rfl, hcall, rfl,
    rfl, rfl⟩
  · exact (Cluster.emitted_prefix hraft.leads i).trans (hlead.emitted_within hn' i)
  · rw [hemitted i, List.tail_append_of_ne_nil hL, List.map_append]
    rfl

/-- The requests that the receive limit admits. -/
def carriesSmall (args : AppendEntriesArgs) : Prop :=
  55 + ((args.entries.map LogEntry.command).map wireSize).sum ≤ maxMessageSize

instance : DecidablePred carriesSmall := fun _ => inferInstanceAs (Decidable (_ ≤ _))

theorem sized_of_carriesSmall {args : AppendEntriesArgs} (h : carriesSmall args) {e : LogEntry}
    (he : e ∈ args.entries) : Server.Sized e := by
  have hle : wireSize e.command ≤ ((args.entries.map LogEntry.command).map wireSize).sum :=
    List.le_sum_of_mem (List.mem_map_of_mem (List.mem_map_of_mem he))
  rw [carriesSmall, maxMessageSize] at h
  rw [wireSize] at hle
  rw [Server.Sized]
  omega

/-- After the first `Put` a `Get` can be answered. -/
theorem always_answers_firstPut : ∃ w s, World.empty.openDB ⟨true, false, 1000⟩ = some w ∧
    (system 3 carriesSmall).exec
      { cluster := Cluster.start ["a", "b", "c"], server := fun _ => { store := w } }
      firstPut = some s ∧
    ∃ (x : Fin 3) (L : List LogEntry) (s₁ s' : System 3) (call : ClientCall 3) (msg : ApplyMsg),
      (system 3 carriesSmall).LeadsBy (Event.Of 1) s s₁ ∧ (s₁.cluster.node x).state = .leader ∧
      (s₁.cluster.node x).log = L ∧ s₁.calls 1 = none ∧
      (∀ i, s.cluster.emitted i <+: L.tail.map LogEntry.toMsg) ∧
      (system 3 carriesSmall).LeadsBy (Event.Of 1) s₁ s' ∧
      (∀ i, s'.cluster.emitted i = L.tail.map LogEntry.toMsg ++ [msg]) ∧
      msg.command = (Request.get [107]).command ∧ s'.calls 1 = some call ∧ call.node = x ∧
      call.request = .get [107] ∧
      call.progress = .returned ((Request.get [107]).answer (stateAt L (L.length - 1))) := by
  have hrun : ((World.empty.openDB ⟨true, false, 1000⟩).bind fun w =>
      ((system 3 carriesSmall).exec
        { cluster := Cluster.start ["a", "b", "c"], server := fun _ => { store := w } }
        firstPut).map fun s => decide ((s.calls 1).isNone ∧
          w.db.opts.maxDataFileSizeBytes = 1000)) = some true := by decide +kernel
  obtain ⟨w, hw, hrun⟩ := Option.bind_eq_some_iff.mp hrun
  obtain ⟨s, hs, hstate⟩ := Option.map_eq_some_iff.mp hrun
  simp only [decide_eq_true_eq, Option.isNone_iff_eq_none] at hstate
  refine ⟨w, s, hw, hs, always_answers (n := 3) (by decide) (by decide)
    (fun _ h _ he => sized_of_carriesSmall h he) (fun _ hfit => hfit.size)
    ⟨⟨_, rfl, rfl⟩, rfl, fun _ => ⟨w, ⟨⟨true, false, 1000⟩, hw⟩, rfl⟩⟩ (fun _ => ?_)
    hs hstate.1 ⟨?_, by decide⟩⟩
  · simp only [hstate.2]
    decide
  · have hempty : IsText [] := ⟨[], rfl⟩
    have hk : IsText [107] := ⟨['k'], by decide⟩
    have hv : IsText [118] := ⟨['v'], by decide⟩
    intro cmd hcmd
    rcases List.mem_pair.mp hcmd with rfl | rfl
    · exact ⟨hk, hv⟩
    · exact ⟨hempty, hempty⟩

end KvRaft.Server
