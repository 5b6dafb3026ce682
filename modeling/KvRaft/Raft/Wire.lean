import Mathlib.Data.Int.ModEq
import KvRaft.Raft.Replication

/-! The requests and replies on the wire: the conversions of `raft/rpc.go`, which narrow every
number to 32 bits, and the handlers of `server/server.go` that stand between them and the node. A
nil dereference or an index out of range, which ends the process, has no result. -/

namespace KvRaft.Raft

/-! The messages of `raft.proto`. A field that holds a message may be absent. -/

namespace Pb

structure Command where
  type : CommandType
  key : Bytes
  value : Bytes
deriving DecidableEq

structure LogEntry where
  term : Int32
  index : Int32
  command : Option Command
deriving DecidableEq

structure RequestVoteRequest where
  term : Int32
  candidateId : Int32
  lastLogIndex : Int32
  lastLogTerm : Int32
deriving DecidableEq

structure RequestVoteResponse where
  term : Int32
  voteGranted : Bool
deriving DecidableEq

structure AppendEntriesRequest where
  term : Int32
  leaderId : Int32
  prevLogIndex : Int32
  prevLogTerm : Int32
  entries : List LogEntry
  leaderCommit : Int32
deriving DecidableEq

structure AppendEntriesResponse where
  term : Int32
  success : Bool
deriving DecidableEq

end Pb

def requestVoteArgsToProto (args : RequestVoteArgs) : Pb.RequestVoteRequest where
  term := Int32.ofInt args.term
  candidateId := Int32.ofInt args.candidateId
  lastLogIndex := Int32.ofInt args.lastLogIndex
  lastLogTerm := Int32.ofInt args.lastLogTerm

def requestVoteReplyFromProto (reply : Pb.RequestVoteResponse) : RequestVoteReply where
  term := reply.term.toInt
  voteGranted := reply.voteGranted

def requestVoteArgsFromProto (req : Pb.RequestVoteRequest) : RequestVoteArgs where
  term := req.term.toInt
  candidateId := req.candidateId.toInt
  lastLogIndex := req.lastLogIndex.toInt
  lastLogTerm := req.lastLogTerm.toInt

def requestVoteReplyToProto (reply : RequestVoteReply) : Pb.RequestVoteResponse where
  term := Int32.ofInt reply.term
  voteGranted := reply.voteGranted

def logEntryToProto (entry : LogEntry) : Pb.LogEntry where
  term := Int32.ofInt entry.term
  index := Int32.ofInt entry.index
  command := some { type := entry.command.type, key := entry.command.key
                    value := entry.command.value }

/-- Reads the fields of the command without a look whether it is there. -/
def logEntryFromProto (entry : Pb.LogEntry) : Option LogEntry := do
  let command ← entry.command
  return { term := entry.term.toInt, index := entry.index.toInt
           command := { type := command.type, key := command.key, value := command.value } }

def appendEntriesArgsToProto (args : AppendEntriesArgs) : Pb.AppendEntriesRequest where
  term := Int32.ofInt args.term
  leaderId := Int32.ofInt args.leaderId
  prevLogIndex := Int32.ofInt args.prevLogIndex
  prevLogTerm := Int32.ofInt args.prevLogTerm
  entries := args.entries.map logEntryToProto
  leaderCommit := Int32.ofInt args.leaderCommit

def appendEntriesReplyFromProto (reply : Pb.AppendEntriesResponse) : AppendEntriesReply where
  term := reply.term.toInt
  success := reply.success

def appendEntriesArgsFromProto (req : Pb.AppendEntriesRequest) : Option AppendEntriesArgs := do
  let entries ← req.entries.mapM logEntryFromProto
  return { term := req.term.toInt, leaderId := req.leaderId.toInt
           prevLogIndex := req.prevLogIndex.toInt, prevLogTerm := req.prevLogTerm.toInt
           entries := entries, leaderCommit := req.leaderCommit.toInt }

def appendEntriesReplyToProto (reply : AppendEntriesReply) : Pb.AppendEntriesResponse where
  term := Int32.ofInt reply.term
  success := reply.success

namespace Node

/-- `GRPCRaftService.RequestVote` -/
def serveRequestVote (n : Node) (req : Pb.RequestVoteRequest) :
    Option (Node × Pb.RequestVoteResponse) := do
  let (n, reply) ← n.handleRequestVote (requestVoteArgsFromProto req)
  return (n, requestVoteReplyToProto reply)

/-- `GRPCRaftService.AppendEntries` -/
def serveAppendEntries (n : Node) (req : Pb.AppendEntriesRequest) :
    Option (Node × Pb.AppendEntriesResponse) := do
  let args ← appendEntriesArgsFromProto req
  let (n, reply) ← n.handleAppendEntries args
  return (n, appendEntriesReplyToProto reply)

/-- `GRPCClient.RequestVote` on a connection to the node. -/
def callRequestVote (n : Node) (args : RequestVoteArgs) : Option (Node × RequestVoteReply) := do
  let (n, resp) ← n.serveRequestVote (requestVoteArgsToProto args)
  return (n, requestVoteReplyFromProto resp)

/-- `GRPCClient.AppendEntries` on a connection to the node. -/
def callAppendEntries (n : Node) (args : AppendEntriesArgs) :
    Option (Node × AppendEntriesReply) := do
  let (n, resp) ← n.serveAppendEntries (appendEntriesArgsToProto args)
  return (n, appendEntriesReplyFromProto resp)

end Node

/-! ### Requests of any sender -/

/-- The log has an entry in its first place, with term and index 0. -/
def StartsWithSentinel (log : List LogEntry) : Prop :=
  ∃ e ∈ log.head?, e.term = 0 ∧ e.index = 0

instance (log : List LogEntry) : Decidable (StartsWithSentinel log) :=
  inferInstanceAs (Decidable (∃ e ∈ log.head?, _))

/-- The requests that a node of term `term` survives: every entry has its command, and unless the
request is stale or has no entries, its entries go behind the sentinel, or the first of them stands
for the sentinel. -/
def Pb.AppendEntriesRequest.Harmless (req : Pb.AppendEntriesRequest) (term : Int) : Prop :=
  (∀ e ∈ req.entries, e.command.isSome) ∧
    (req.term.toInt < term ∨ 0 ≤ req.prevLogIndex.toInt ∨ req.entries = [] ∨
      req.prevLogIndex.toInt = -1 ∧ ∀ e ∈ req.entries.head?, e.term = 0)

open Lineage

variable {n nd : Node} {args : AppendEntriesArgs} {reply : AppendEntriesReply}
  {log entries : List LogEntry}

/-- What `AppendEntriesArgsFromProto` makes of the entries, if each has its command. -/
theorem mapM_logEntryFromProto {es : List Pb.LogEntry}
    (h : es.mapM logEntryFromProto = some entries) :
    (∀ e ∈ es, e.command.isSome) ∧
      entries.map LogEntry.term = es.map fun e => e.term.toInt := by
  induction es generalizing entries with
  | nil =>
    obtain rfl : [] = entries := by simpa using h
    simp
  | cons e es ih =>
    simp only [List.mapM_cons, Option.bind_eq_bind, Option.bind_eq_some_iff, Option.pure_def,
      Option.some.injEq] at h
    obtain ⟨entry, hentry, rest, hrest, rfl⟩ := h
    simp only [logEntryFromProto, Option.bind_eq_bind, Option.bind_eq_some_iff, Option.pure_def,
      Option.some.injEq] at hentry
    obtain ⟨command, hcommand, rfl⟩ := hentry
    obtain ⟨hall, hterms⟩ := ih hrest
    exact ⟨List.forall_mem_cons.mpr ⟨by simp [hcommand], hall⟩, by simp [hterms]⟩

theorem isSome_mapM_logEntryFromProto {es : List Pb.LogEntry}
    (h : ∀ e ∈ es, e.command.isSome) : (es.mapM logEntryFromProto).isSome := by
  induction es with
  | nil => simp
  | cons e es ih =>
    obtain ⟨he, hes⟩ := List.forall_mem_cons.mp h
    obtain ⟨command, hcommand⟩ := Option.isSome_iff_exists.mp he
    obtain ⟨rest, hrest⟩ := Option.isSome_iff_exists.mp (ih hes)
    simp [List.mapM_cons, logEntryFromProto, hcommand, hrest]

namespace Node

/-- A negative position skips the check. -/
theorem handleAppendEntries_negative (hterm : n.currentTerm ≤ args.term)
    (hneg : args.prevLogIndex < 0) : n.handleAppendEntries args =
      (appendLoop n.log (args.prevLogIndex + 1) args.entries).map fun log =>
        (n.accept args log (n.commitTo log args.leaderCommit),
          { term := n.currentTerm, success := true }) := by
  rw [handleAppendEntries_current hterm, if_neg (by omega)]
  rfl

/-- In the place of the sentinel an entry of another term cuts it off, and further below there is no
entry to compare with. -/
theorem appendLoop_negative {idx : Int} {e : LogEntry} {rest log' : List LogEntry}
    (hlog : StartsWithSentinel log) (hidx : idx ≤ 0)
    (h : appendLoop log idx (e :: rest) = some log') :
    idx = 0 ∧ (StartsWithSentinel log' → e.term = 0) := by
  obtain ⟨first, hfirst, hzero, -⟩ := hlog
  obtain ⟨tail, rfl⟩ : ∃ tail, log = first :: tail := by
    cases log with
    | nil => cases hfirst
    | cons a tail =>
      obtain rfl := Option.some.inj hfirst
      exact ⟨tail, rfl⟩
  rw [appendLoop, if_pos (by rw [List.length_cons]; omega)] at h
  obtain ⟨existing, hat, h⟩ := Option.bind_eq_some_iff.mp h
  have hnonneg : 0 ≤ idx := by
    by_contra hneg
    rw [logAt, if_neg hneg] at hat
    cases hat
  obtain rfl : idx = 0 := by omega
  obtain rfl : first = existing := by simpa [logAt] using hat
  refine ⟨rfl, fun hs => ?_⟩
  split at h
  · next hne =>
    have hsplice := appendLoop_eq ([e]) 1 rest
    have heq : some log' = some (splice LogEntry.term [e] 1 rest) := h.symm.trans hsplice
    obtain rfl := Option.some.inj heq
    obtain ⟨e', he', hterm, -⟩ := hs
    rw [head?_splice (by omega) (by simp)] at he'
    obtain rfl := Option.some.inj he'
    exact hterm
  · next heq =>
    rw [← not_not.mp heq, hzero]

theorem appendLoop_sentinel {e : LogEntry} (rest : List LogEntry) (hlog : StartsWithSentinel log)
    (he : e.term = 0) : ∃ log', appendLoop log 0 (e :: rest) = some log' ∧
      log'.head? = log.head? := by
  obtain ⟨first, hfirst, hzero, -⟩ := hlog
  have hat : logAt log 0 = some first := by
    have : log[0]? = some first := List.head?_eq_getElem? ▸ hfirst
    simpa [logAt] using this
  have hpos : (0 : Int) < log.length := by
    cases log with
    | nil => cases hfirst
    | cons => rw [List.length_cons]; omega
  have hne : log ≠ [] := by
    rintro rfl
    cases hfirst
  refine ⟨splice LogEntry.term log 1 rest, ?_, head?_splice (by omega) hne⟩
  · rw [appendLoop, if_pos hpos, hat]
    change (if first.term ≠ e.term then _ else _) = _
    rw [if_neg (by rw [hzero, he]; simp)]
    exact appendLoop_eq log 1 rest

/-- An accepted request changes nothing but the log at or before the sentinel. -/
theorem handleAppendEntries_head (hprev : 0 ≤ args.prevLogIndex) (hne : n.log ≠ []) :
    ∃ nd reply, n.handleAppendEntries args = some (nd, reply) ∧ nd.log.head? = n.log.head? := by
  obtain ⟨p, hp⟩ := Int.eq_ofNat_of_zero_le hprev
  by_cases hterm : n.currentTerm ≤ args.term
  · by_cases hat : n.log[p]?.map LogEntry.term = some args.prevLogTerm
    · exact ⟨_, _, handleAppendEntries_accepts hterm hp hat, head?_splice (by omega) hne⟩
    · exact ⟨_, _, handleAppendEntries_refuses hterm hp hat, rfl⟩
  · exact ⟨n, _, handleAppendEntries_stale (by omega), rfl⟩

end Node

theorem StartsWithSentinel.congr {log' : List LogEntry} (h : StartsWithSentinel log)
    (hhead : log'.head? = log.head?) : StartsWithSentinel log' := by
  rwa [StartsWithSentinel, hhead]

theorem StartsWithSentinel.ne_nil (h : StartsWithSentinel log) : log ≠ [] := by
  rintro rfl
  obtain ⟨e, he, -⟩ := h
  cases he

/-- The arguments that a request is read as once its entries are. -/
def Pb.AppendEntriesRequest.asArgs (req : Pb.AppendEntriesRequest)
    (entries : List Raft.LogEntry) : AppendEntriesArgs where
  term := req.term.toInt
  leaderId := req.leaderId.toInt
  prevLogIndex := req.prevLogIndex.toInt
  prevLogTerm := req.prevLogTerm.toInt
  entries := entries
  leaderCommit := req.leaderCommit.toInt

/-- What is left of a request whose entries have their commands. -/
theorem serveAppendEntries_eq_some {req : Pb.AppendEntriesRequest}
    {resp : Pb.AppendEntriesResponse} : n.serveAppendEntries req = some (nd, resp) ↔
      ∃ entries reply, req.entries.mapM logEntryFromProto = some entries ∧
        n.handleAppendEntries (req.asArgs entries) = some (nd, reply) ∧
        resp = appendEntriesReplyToProto reply := by
  simp only [Node.serveAppendEntries, appendEntriesArgsFromProto, Option.bind_eq_bind,
    Option.bind_eq_some_iff, Option.pure_def, Option.some.injEq, Prod.mk.injEq]
  constructor
  · rintro ⟨_, ⟨entries, hentries, rfl⟩, ⟨nd, reply⟩, hhandle, rfl, rfl⟩
    exact ⟨entries, reply, hentries, hhandle, rfl⟩
  · rintro ⟨entries, reply, hentries, hhandle, rfl⟩
    exact ⟨_, ⟨entries, hentries, rfl⟩, (nd, reply), hhandle, rfl, rfl⟩

theorem harmless_of_survives {req : Pb.AppendEntriesRequest} {resp : Pb.AppendEntriesResponse}
    (hlog : StartsWithSentinel n.log) (hserve : n.serveAppendEntries req = some (nd, resp))
    (hs : StartsWithSentinel nd.log) : req.Harmless n.currentTerm := by
  obtain ⟨entries, reply, hentries, hhandle, -⟩ := serveAppendEntries_eq_some.mp hserve
  obtain ⟨hall, hterms⟩ := mapM_logEntryFromProto hentries
  refine ⟨hall, ?_⟩
  by_contra hnot
  simp only [not_or, not_lt, not_le] at hnot
  obtain ⟨hterm, hneg, hne, hfirst⟩ := hnot
  have hcurrent : n.currentTerm ≤ (req.asArgs entries).term := hterm
  have hbelow : (req.asArgs entries).prevLogIndex < 0 := hneg
  rw [Node.handleAppendEntries_negative hcurrent hbelow] at hhandle
  obtain ⟨log, hloop, heq⟩ := Option.map_eq_some_iff.mp hhandle
  obtain ⟨rfl, -⟩ := Prod.mk.inj heq
  cases hes : req.entries with
  | nil => exact hne hes
  | cons e es =>
    cases entries with
    | nil => simp [hes] at hterms
    | cons entry rest =>
      rw [hes, List.map_cons, List.map_cons, List.cons.injEq] at hterms
      have hloop : Node.appendLoop n.log (req.prevLogIndex.toInt + 1) (entry :: rest) =
        some log := hloop
      obtain ⟨hidx, hzero⟩ := Node.appendLoop_negative hlog (by omega) hloop
      refine hfirst ⟨by omega, fun e' he' => ?_⟩
      rw [hes] at he'
      obtain rfl := Option.some.inj he'
      exact Int32.toInt_inj.mp (hterms.1.symm.trans (hzero hs))

theorem handled_of_harmless {req : Pb.AppendEntriesRequest} (h : req.Harmless n.currentTerm)
    (hlog : StartsWithSentinel n.log)
    (hterms : entries.map LogEntry.term = req.entries.map fun e => e.term.toInt) :
    ∃ nd reply, n.handleAppendEntries (req.asArgs entries) = some (nd, reply) ∧
      nd.log.head? = n.log.head? := by
  by_cases hprev : 0 ≤ (req.asArgs entries).prevLogIndex
  · exact Node.handleAppendEntries_head hprev hlog.ne_nil
  by_cases hterm : (req.asArgs entries).term < n.currentTerm
  · exact ⟨n, _, Node.handleAppendEntries_stale hterm, rfl⟩
  rw [Node.handleAppendEntries_negative (not_lt.mp hterm) (not_le.mp hprev)]
  rcases h.2 with hstale | hnonneg | hnil | ⟨hminus, hfirst⟩
  · exact absurd hstale hterm
  · exact absurd hnonneg hprev
  · rw [hnil, List.map_nil, List.map_eq_nil_iff] at hterms
    subst hterms
    exact ⟨_, _, rfl, rfl⟩
  · cases entries with
    | nil => exact ⟨_, _, rfl, rfl⟩
    | cons entry rest =>
      have hzero : entry.term = 0 := by
        cases hes : req.entries with
        | nil => simp [hes] at hterms
        | cons e es =>
          rw [hes, List.map_cons, List.map_cons, List.cons.injEq] at hterms
          rw [hterms.1, hfirst e (by simp [hes])]
          rfl
      obtain ⟨log, hloop, hhead⟩ := Node.appendLoop_sentinel rest hlog hzero
      have hloop : Node.appendLoop n.log ((req.asArgs (entry :: rest)).prevLogIndex + 1)
          (entry :: rest) = some log := by
        change Node.appendLoop n.log (req.prevLogIndex.toInt + 1) _ = _
        rw [hminus]
        exact hloop
      change ∃ nd reply, (Node.appendLoop n.log _ (entry :: rest)).map _ = some (nd, reply) ∧ _
      rw [hloop]
      exact ⟨_, _, rfl, hhead⟩

/-- A node whose log starts with the sentinel answers a request and keeps the sentinel exactly if
the request is harmless. -/
theorem serveAppendEntries_survives (n : Node) (req : Pb.AppendEntriesRequest)
    (hlog : StartsWithSentinel n.log) :
    (∃ nd resp, n.serveAppendEntries req = some (nd, resp) ∧ StartsWithSentinel nd.log) ↔
      req.Harmless n.currentTerm := by
  constructor
  · rintro ⟨nd, resp, hserve, hs⟩
    exact harmless_of_survives hlog hserve hs
  · intro h
    obtain ⟨entries, hentries⟩ := Option.isSome_iff_exists.mp (isSome_mapM_logEntryFromProto h.1)
    have hterms := (mapM_logEntryFromProto hentries).2
    obtain ⟨nd, reply, hhandle, hhead⟩ := handled_of_harmless h hlog hterms
    exact ⟨nd, _, serveAppendEntries_eq_some.mpr ⟨entries, reply, hentries, hhandle, rfl⟩,
      hlog.congr hhead⟩

/-- The first put of another leader. -/
def firstPut : Pb.AppendEntriesRequest :=
  { term := 1, leaderId := 2, prevLogIndex := 0, prevLogTerm := 0, leaderCommit := 1
    entries := [{ term := 1, index := 1, command := some ⟨.put, [1], [7]⟩ }] }

theorem serveAppendEntries_survives_firstPut :
    StartsWithSentinel (newNode 0 []).log ∧ firstPut.Harmless (newNode 0 []).currentTerm ∧
      ∃ nd resp, (newNode 0 []).serveAppendEntries firstPut = some (nd, resp) ∧
        StartsWithSentinel nd.log := by
  have hlog : StartsWithSentinel (newNode 0 []).log := by decide
  have hreq : firstPut.Harmless (newNode 0 []).currentTerm := ⟨by decide, by decide⟩
  exact ⟨hlog, hreq, (serveAppendEntries_survives _ _ hlog).mpr hreq⟩

/-- The same without the command, in the place of the sentinel, and below it. -/
def noCommand : Pb.AppendEntriesRequest :=
  { firstPut with entries := [{ term := 1, index := 1, command := none }] }

def atSentinel : Pb.AppendEntriesRequest := { firstPut with prevLogIndex := -1 }

def belowSentinel : Pb.AppendEntriesRequest := { firstPut with prevLogIndex := -2 }

/-- A new node does not survive the first and the third, and the second leaves it with a log that
has the put in its first place. -/
theorem not_serveAppendEntries_survives :
    (StartsWithSentinel (newNode 0 []).log ∧
      (newNode 0 []).lastApplied ≤ (newNode 0 []).commitIndex ∧
      (newNode 0 []).commitIndex ≤ (newNode 0 []).log.length - 1) ∧
    (newNode 0 []).serveAppendEntries noCommand = none ∧
    (newNode 0 []).serveAppendEntries belowSentinel = none ∧
    ∃ nd resp, (newNode 0 []).serveAppendEntries atSentinel = some (nd, resp) ∧
      nd.log = [{ term := 1, index := 1, command := { type := .put, key := [1], value := [7] } }] ∧
      ¬ StartsWithSentinel nd.log := by
  refine ⟨by decide, rfl, rfl, _, _, rfl, rfl, ?_⟩
  decide

/-! ### The wire between two nodes -/

/-- What a number becomes on the wire. -/
def narrow (x : Int) : Int := (Int32.ofInt x).toInt

/-- The wire carries the number. -/
def FitsInt32 (x : Int) : Prop := -2 ^ 31 ≤ x ∧ x < 2 ^ 31

instance (x : Int) : Decidable (FitsInt32 x) := inferInstanceAs (Decidable (_ ∧ _))

theorem narrow_fits (x : Int) : FitsInt32 (narrow x) := ⟨Int32.le_toInt _, Int32.toInt_lt _⟩

theorem narrow_eq_iff {x : Int} : narrow x = x ↔ FitsInt32 x :=
  ⟨fun h => h ▸ narrow_fits x, fun h => Int32.toInt_ofInt_of_le h.1 h.2⟩

/-- Only multiples of `2 ^ 32` are lost. -/
theorem narrow_eq (x : Int) : ∃ q, narrow x = x + 2 ^ 32 * q := by
  refine ⟨-x.bdiv (2 ^ 32), ?_⟩
  have := Int.bdiv_add_bmod x (2 ^ 32)
  rw [narrow, Int32.toInt_ofInt]
  change x.bmod (2 ^ 32) = _
  omega

def LogEntry.narrow (e : LogEntry) : LogEntry :=
  { e with term := Raft.narrow e.term, index := Raft.narrow e.index }

def AppendEntriesArgs.narrow (args : AppendEntriesArgs) : AppendEntriesArgs where
  term := Raft.narrow args.term
  leaderId := Raft.narrow args.leaderId
  prevLogIndex := Raft.narrow args.prevLogIndex
  prevLogTerm := Raft.narrow args.prevLogTerm
  entries := args.entries.map LogEntry.narrow
  leaderCommit := Raft.narrow args.leaderCommit

/-- The wire carries all numbers of the request. -/
def AppendEntriesArgs.Fits (args : AppendEntriesArgs) : Prop :=
  FitsInt32 args.term ∧ FitsInt32 args.leaderId ∧ FitsInt32 args.prevLogIndex ∧
    FitsInt32 args.prevLogTerm ∧ FitsInt32 args.leaderCommit ∧
    ∀ e ∈ args.entries, FitsInt32 e.term ∧ FitsInt32 e.index

def RequestVoteArgs.narrow (args : RequestVoteArgs) : RequestVoteArgs where
  term := Raft.narrow args.term
  candidateId := Raft.narrow args.candidateId
  lastLogIndex := Raft.narrow args.lastLogIndex
  lastLogTerm := Raft.narrow args.lastLogTerm

def RequestVoteArgs.Fits (args : RequestVoteArgs) : Prop :=
  FitsInt32 args.term ∧ FitsInt32 args.candidateId ∧ FitsInt32 args.lastLogIndex ∧
    FitsInt32 args.lastLogTerm

theorem LogEntry.narrow_eq_iff {e : LogEntry} :
    e.narrow = e ↔ FitsInt32 e.term ∧ FitsInt32 e.index := by
  obtain ⟨term, index, command⟩ := e
  simp only [LogEntry.narrow, LogEntry.mk.injEq, Raft.narrow_eq_iff, and_true]

theorem AppendEntriesArgs.narrow_eq_iff : args.narrow = args ↔ args.Fits := by
  obtain ⟨term, leaderId, prevLogIndex, prevLogTerm, entries, leaderCommit⟩ := args
  have hentries : entries.map LogEntry.narrow = entries ↔
      ∀ e ∈ entries, FitsInt32 e.term ∧ FitsInt32 e.index := by
    have hmap := List.map_inj_left (l := entries) (f := LogEntry.narrow) (g := id)
    rw [List.map_id] at hmap
    simp only [hmap, id_eq, LogEntry.narrow_eq_iff]
  simp only [AppendEntriesArgs.narrow, AppendEntriesArgs.mk.injEq, Raft.narrow_eq_iff,
    AppendEntriesArgs.Fits, hentries]
  tauto

theorem RequestVoteArgs.narrow_eq_iff {args : RequestVoteArgs} :
    args.narrow = args ↔ args.Fits := by
  obtain ⟨term, candidateId, lastLogIndex, lastLogTerm⟩ := args
  simp only [RequestVoteArgs.narrow, RequestVoteArgs.mk.injEq, Raft.narrow_eq_iff,
    RequestVoteArgs.Fits]

theorem logEntryFromProto_toProto (e : LogEntry) :
    logEntryFromProto (logEntryToProto e) = some e.narrow := rfl

/-- The request arrives narrowed. -/
theorem appendEntriesArgsFromProto_toProto (args : AppendEntriesArgs) :
    appendEntriesArgsFromProto (appendEntriesArgsToProto args) = some args.narrow := by
  have hentries : (args.entries.map logEntryToProto).mapM logEntryFromProto =
      some (args.entries.map LogEntry.narrow) := by
    induction args.entries with
    | nil => rfl
    | cons e es ih => simp [List.mapM_cons, ih, logEntryFromProto_toProto]
  simp only [appendEntriesArgsFromProto, appendEntriesArgsToProto, hentries, Option.bind_eq_bind,
    Option.bind_some]
  rfl

namespace Node

theorem callAppendEntries_eq (n : Node) (args : AppendEntriesArgs) : n.callAppendEntries args =
    (n.handleAppendEntries args.narrow).map fun p =>
      (p.1, { p.2 with term := narrow p.2.term }) := by
  rw [callAppendEntries, serveAppendEntries, appendEntriesArgsFromProto_toProto]
  simp only [Option.bind_eq_bind, Option.bind_some]
  cases n.handleAppendEntries args.narrow with
  | none => rfl
  | some p => rfl

theorem callRequestVote_eq (n : Node) (args : RequestVoteArgs) : n.callRequestVote args =
    (n.handleRequestVote args.narrow).map fun p =>
      (p.1, { p.2 with term := narrow p.2.term }) := by
  change ((n.handleRequestVote args.narrow).bind _).bind _ = _
  cases n.handleRequestVote args.narrow with
  | none => rfl
  | some p => rfl

/-- A request of no older term is granted if no other has the vote and its log is up to date. -/
theorem handleRequestVote_run {args : RequestVoteArgs} (hterm : n.currentTerm ≤ args.term)
    (hne : n.log ≠ []) : ∃ granted : Bool, n.handleRequestVote args =
        some ({ n.observe args.term with
                votedFor := if granted then args.candidateId else (n.observe args.term).votedFor },
          { term := n.currentTerm, voteGranted := granted }) ∧
      (granted = true ↔ ((n.observe args.term).votedFor = -1 ∨
        (n.observe args.term).votedFor = args.candidateId) ∧ UpToDate args n.log) := by
  obtain ⟨last, hlast⟩ : ∃ last, logAt n.log (n.log.length - 1) = some last := by
    have hpos := List.length_pos_iff.mpr hne
    refine ⟨n.log[n.log.length - 1], ?_⟩
    rw [logAt, if_pos (by omega), show ((n.log.length : Int) - 1).toNat = n.log.length - 1 by omega,
      List.getElem?_eq_getElem]
  obtain ⟨-, hlastTerm⟩ := logAt_last hlast
  have hcheck : (args.lastLogTerm > last.term ∨ args.lastLogTerm = last.term ∧
        args.lastLogIndex ≥ ((n.observe args.term).log.length : Int) - 1)
      ↔ UpToDate args n.log := by
    rw [observe_log, hlastTerm]
    rfl
  rw [handleRequestVote, if_neg (by omega)]
  change ∃ granted : Bool, (logAt (n.observe args.term).log
    ((n.observe args.term).log.length - 1)).bind _ = _ ∧ _
  rw [observe_log, hlast]
  change ∃ granted : Bool, (if ((n.observe args.term).votedFor = -1 ∨
    (n.observe args.term).votedFor = args.candidateId) ∧ (args.lastLogTerm > last.term ∨
      args.lastLogTerm = last.term ∧
        args.lastLogIndex ≥ ((n.observe args.term).log.length : Int) - 1)
    then _ else _) = _ ∧ _
  by_cases hgrant : ((n.observe args.term).votedFor = -1 ∨
      (n.observe args.term).votedFor = args.candidateId) ∧ (args.lastLogTerm > last.term ∨
        args.lastLogTerm = last.term ∧
          args.lastLogIndex ≥ ((n.observe args.term).log.length : Int) - 1)
  · rw [if_pos hgrant]
    exact ⟨true, rfl, iff_of_true rfl ⟨hgrant.1, hcheck.mp hgrant.2⟩⟩
  · rw [if_neg hgrant]
    exact ⟨false, rfl, iff_of_false (by simp) fun hup => hgrant ⟨hup.1, hcheck.mpr hup.2⟩⟩

theorem handleRequestVote_reply {args : RequestVoteArgs} {reply : RequestVoteReply}
    (h : n.handleRequestVote args = some (nd, reply)) : reply.term = n.currentTerm := by
  by_cases hterm : n.currentTerm ≤ args.term
  · have hne : n.log ≠ [] := by
      intro hnil
      rw [handleRequestVote, if_neg (by omega)] at h
      change (logAt (n.observe args.term).log ((n.observe args.term).log.length - 1)).bind _ =
        some (nd, reply) at h
      rw [observe_log, hnil] at h
      cases h
    obtain ⟨granted, hrun, -⟩ := handleRequestVote_run hterm hne
    rw [hrun] at h
    rw [← (Prod.mk.inj (Option.some.inj h)).2]
  · rw [handleRequestVote, if_pos (by omega)] at h
    rw [← (Prod.mk.inj (Option.some.inj h)).2]

/-- A request of no older term makes a follower of its leader. -/
theorem handleAppendEntries_follows (hterm : n.currentTerm ≤ args.term)
    (h : n.handleAppendEntries args = some (nd, reply)) :
    nd.currentTerm = args.term ∧ nd.leaderID = args.leaderId ∧ nd.state = .follower := by
  have hfollow : (n.follow args).currentTerm = args.term := becomeFollowerLocked_of_le hterm
  rcases handleAppendEntries_cases h with ⟨hstale, -⟩ | ⟨-, ⟨rfl, -⟩ | ⟨log, -, rfl, -⟩⟩
  · omega
  · exact ⟨hfollow, rfl, rfl⟩
  · exact ⟨hfollow, rfl, rfl⟩

/-- A request that fits arrives as it is. -/
theorem callAppendEntries_of_fits (hargs : args.Fits) (hterm : FitsInt32 n.currentTerm) :
    n.callAppendEntries args = n.handleAppendEntries args := by
  rw [callAppendEntries_eq, AppendEntriesArgs.narrow_eq_iff.mpr hargs]
  cases h : n.handleAppendEntries args with
  | none => rfl
  | some p =>
    obtain ⟨nd, reply⟩ := p
    have hreply := handleAppendEntries_term h
    rw [Option.map_some, hreply, narrow_eq_iff.mpr hterm, ← hreply]

theorem callRequestVote_of_fits {args : RequestVoteArgs} (hargs : args.Fits)
    (hterm : FitsInt32 n.currentTerm) : n.callRequestVote args = n.handleRequestVote args := by
  rw [callRequestVote_eq, RequestVoteArgs.narrow_eq_iff.mpr hargs]
  cases h : n.handleRequestVote args with
  | none => rfl
  | some p =>
    obtain ⟨nd, reply⟩ := p
    have hreply := handleRequestVote_reply h
    rw [Option.map_some, hreply, narrow_eq_iff.mpr hterm, ← hreply]

/-- A reply of a term that does not fit does not arrive. -/
theorem fits_of_callAppendEntries (hprev : 0 ≤ args.prevLogIndex) (hne : n.log ≠ [])
    (h : n.callAppendEntries args = n.handleAppendEntries args) : FitsInt32 n.currentTerm := by
  obtain ⟨nd, reply, hhandle, -⟩ := handleAppendEntries_head hprev hne
  rw [hhandle, callAppendEntries_eq] at h
  obtain ⟨⟨nd', reply'⟩, -, heq⟩ := Option.map_eq_some_iff.mp h
  have hreply : { reply' with term := narrow reply'.term } = reply := (Prod.mk.inj heq).2
  rw [← handleAppendEntries_term hhandle, ← hreply]
  exact narrow_fits _

end Node

/-- A node that has seen no request yet, and takes any term that the wire carries for a newer
one. -/
def probe (log : List LogEntry) : Node :=
  { newNode 0 [] with currentTerm := -2 ^ 31, state := .leader, log := log }

theorem probe_fits (log : List LogEntry) : FitsInt32 (probe log).currentTerm :=
  ⟨le_refl _, by change (-2 ^ 31 : Int) < 2 ^ 31; decide⟩

section Separate

variable {k : Nat} {L : List LogEntry}

/-- What a request that reaches every node unchanged does to the node `f`. -/
theorem handle_of_call {f : Node} (h : f.callAppendEntries args = f.handleAppendEntries args)
    (hd : f.handleAppendEntries args = some (nd, reply)) :
    ∃ reply', f.handleAppendEntries args.narrow = some (nd, reply') ∧
      reply'.success = reply.success := by
  rw [hd, Node.callAppendEntries_eq] at h
  obtain ⟨⟨nd', reply'⟩, hhandle, heq⟩ := Option.map_eq_some_iff.mp h
  obtain ⟨rfl, rfl⟩ := Prod.mk.inj heq
  exact ⟨reply', hhandle, rfl⟩

variable (h : ∀ f : Node, FitsInt32 f.currentTerm →
  f.callAppendEntries args = f.handleAppendEntries args)

include h

theorem fits_term_of_call (hprev : 0 ≤ args.prevLogIndex) :
    FitsInt32 args.term ∧ FitsInt32 args.leaderId := by
  obtain ⟨nd, reply, hd, -⟩ :=
    Node.handleAppendEntries_head (n := probe [sentinel]) hprev (by simp [probe])
  obtain ⟨reply', hw, -⟩ := handle_of_call (h _ (probe_fits [sentinel])) hd
  have hlow : (probe [sentinel]).currentTerm ≤ args.narrow.term := (narrow_fits args.term).1
  obtain ⟨hterm', hleader', hstate'⟩ := Node.handleAppendEntries_follows hlow hw
  have hle : (probe [sentinel]).currentTerm ≤ args.term := by
    by_contra hstale
    rw [Node.handleAppendEntries_stale (by omega)] at hd
    obtain ⟨rfl, -⟩ := Prod.mk.inj (Option.some.inj hd)
    cases hstate'
  obtain ⟨hterm, hleader, -⟩ := Node.handleAppendEntries_follows hle hd
  exact ⟨narrow_eq_iff.mp (hterm'.symm.trans hterm), narrow_eq_iff.mp (hleader'.symm.trans hleader)⟩

/-- A position that does not fit becomes one inside a shorter log, or a negative one. -/
theorem fits_prevLogIndex_of_call (hterm : FitsInt32 args.term) (hprev : args.prevLogIndex = k) :
    FitsInt32 args.prevLogIndex := by
  by_contra hnot
  have hfits := narrow_fits args.prevLogIndex
  rw [FitsInt32] at hnot hfits
  let log := List.replicate ((narrow args.prevLogIndex).toNat + 1)
    { sentinel with term := narrow args.prevLogTerm }
  have hlen : log.length ≤ k := by
    rw [List.length_replicate]
    omega
  have hle : (probe log).currentTerm ≤ args.term := hterm.1
  have hle' : (probe log).currentTerm ≤ args.narrow.term := (narrow_fits args.term).1
  have hrefused := Node.handleAppendEntries_refuses hle hprev (by
    change log[k]?.map LogEntry.term ≠ _
    rw [List.getElem?_eq_none hlen]
    simp)
  obtain ⟨reply', hw, hsuccess⟩ := handle_of_call (h _ (probe_fits log)) hrefused
  by_cases hneg : args.narrow.prevLogIndex < 0
  · rw [Node.handleAppendEntries_negative hle' hneg] at hw
    obtain ⟨_, -, heq⟩ := Option.map_eq_some_iff.mp hw
    rw [← (Prod.mk.inj heq).2] at hsuccess
    cases hsuccess
  · have hpos : args.narrow.prevLogIndex = ((narrow args.prevLogIndex).toNat : Int) :=
      (Int.toNat_of_nonneg (not_lt.mp hneg)).symm
    rw [Node.handleAppendEntries_accepts hle' hpos (by
      change log[_]?.map LogEntry.term = _
      rw [List.getElem?_replicate_of_lt (by omega)]
      rfl)] at hw
    rw [← (Prod.mk.inj (Option.some.inj hw)).2] at hsuccess
    cases hsuccess

/-- A probe that has the position accepts the request alike before and after the wire. -/
theorem accept_of_call (hterm : FitsInt32 args.term) (hindex : FitsInt32 args.prevLogIndex)
    (hprevTermFits : FitsInt32 args.prevLogTerm) (hprev : args.prevLogIndex = k)
    {log : List LogEntry} (hat : log[k]?.map LogEntry.term = some args.prevLogTerm) :
    (probe log).accept args.narrow (splice LogEntry.term log (k + 1) args.narrow.entries)
        ((probe log).commitTo (splice LogEntry.term log (k + 1) args.narrow.entries)
          (narrow args.leaderCommit)) =
      (probe log).accept args (splice LogEntry.term log (k + 1) args.entries)
        ((probe log).commitTo (splice LogEntry.term log (k + 1) args.entries)
          args.leaderCommit) := by
  have hat : (probe log).log[k]?.map LogEntry.term = some args.prevLogTerm := hat
  have haccepted := Node.handleAppendEntries_accepts hterm.1 hprev hat
  obtain ⟨reply', hw, -⟩ := handle_of_call (h _ (probe_fits _)) haccepted
  have hprev' : args.narrow.prevLogIndex = k := (narrow_eq_iff.mpr hindex).trans hprev
  rw [Node.handleAppendEntries_accepts (narrow_fits args.term).1 hprev'
    (hat.trans (congrArg some (narrow_eq_iff.mpr hprevTermFits).symm))] at hw
  exact (Prod.mk.inj (Option.some.inj hw)).1

variable (hk : k < L.length) (hprev : args.prevLogIndex = k)
  (hprevTerm : args.prevLogTerm = L[k].term) (hentries : args.entries = L.drop (k + 1))

include hk hprev hprevTerm

/-- A term that does not fit differs from the one in the log. -/
theorem fits_prevLogTerm_of_call (hterm : FitsInt32 args.term)
    (hindex : FitsInt32 args.prevLogIndex) : FitsInt32 args.prevLogTerm := by
  have hat : (probe L).log[k]?.map LogEntry.term = some args.prevLogTerm := by
    change L[k]?.map _ = _
    rw [List.getElem?_eq_getElem hk, hprevTerm]
    rfl
  have hle : (probe L).currentTerm ≤ args.term := hterm.1
  have haccepted := Node.handleAppendEntries_accepts hle hprev hat
  obtain ⟨reply', hw, hsuccess⟩ := handle_of_call (h _ (probe_fits L)) haccepted
  have hprev' : args.narrow.prevLogIndex = k := (narrow_eq_iff.mpr hindex).trans hprev
  by_contra hnot
  rw [Node.handleAppendEntries_refuses (narrow_fits args.term).1 hprev' (by
    rw [hat]
    exact fun heq => hnot (narrow_eq_iff.mp (Option.some.inj heq).symm))] at hw
  rw [← (Prod.mk.inj (Option.some.inj hw)).2] at hsuccess
  cases hsuccess

/-- A node that has the log up to the position ends with the leader's entries. -/
theorem fits_entries_of_call (hterm : FitsInt32 args.term) (hindex : FitsInt32 args.prevLogIndex)
    (hprevTermFits : FitsInt32 args.prevLogTerm) : args.narrow.entries = args.entries := by
  have hlen : (L.take (k + 1)).length = k + 1 := by
    rw [List.length_take]
    omega
  have hat : (L.take (k + 1))[k]?.map LogEntry.term = some args.prevLogTerm := by
    rw [List.getElem?_take_of_lt (by omega), List.getElem?_eq_getElem hk, hprevTerm]
    rfl
  have hlogs : splice LogEntry.term (L.take (k + 1)) (k + 1) args.narrow.entries =
      splice LogEntry.term (L.take (k + 1)) (k + 1) args.entries :=
    congrArg Node.log (accept_of_call h hterm hindex hprevTermFits hprev hat)
  have happend : ∀ entries, splice LogEntry.term (L.take (k + 1)) (L.take (k + 1)).length entries =
      L.take (k + 1) ++ entries := splice_length _
  rw [hlen] at happend
  rw [happend, happend] at hlogs
  exact List.append_cancel_left hlogs

include hentries

/-- A node that has the whole log, and enough after it, takes over the commit index. -/
theorem fits_leaderCommit_of_call (hterm : FitsInt32 args.term)
    (hindex : FitsInt32 args.prevLogIndex) (hprevTermFits : FitsInt32 args.prevLogTerm)
    (hentriesFit : args.narrow.entries = args.entries) {commit : Nat}
    (hcommit : args.leaderCommit = commit) : FitsInt32 args.leaderCommit := by
  let log := L ++ List.replicate (commit + 1) sentinel
  have hat : log[k]?.map LogEntry.term = some args.prevLogTerm := by
    rw [List.getElem?_append_left hk, List.getElem?_eq_getElem hk, hprevTerm]
    rfl
  have hnode := accept_of_call h hterm hindex hprevTermFits hprev hat
  rw [hentriesFit] at hnode
  have hsplice : splice LogEntry.term log (k + 1) args.entries = log := by
    have hmatch : Matching LogEntry.term log L := fun i hlog hL heq =>
      (Matching.of_extends (List.prefix_append _ _) i hL hlog heq.symm).symm
    have hprefix : args.entries <+: L.drop (k + 1) := hentries ▸ List.prefix_rfl
    rcases hmatch.splice_cases (by simp only [log, List.length_append]; omega)
      (List.take_append_of_le_length hk) hprefix with ⟨-, hs⟩ | ⟨hnot, -⟩
    · exact hs
    · exact absurd ((List.take_prefix _ _).trans (List.prefix_append _ _)) hnot
  have hmoved : (probe log).commitTo (splice LogEntry.term log (k + 1) args.entries)
        (narrow args.leaderCommit) =
      (probe log).commitTo (splice LogEntry.term log (k + 1) args.entries) args.leaderCommit :=
    congrArg Node.commitIndex hnode
  have hlen : log.length = L.length + (commit + 1) := by simp [log]
  have hzero : (probe log).commitIndex = 0 := rfl
  have hfits := narrow_fits args.leaderCommit
  rw [hsplice] at hmoved
  simp only [Node.commitTo, hzero] at hmoved
  rw [FitsInt32] at hfits ⊢
  split at hmoved <;> split at hmoved <;> omega

end Separate

/-- For a leader's request the two ways agree at every node only if its numbers fit. -/
theorem fits_of_call {n : Node} {peerIdx : Int} (hargs : n.replicateArgs peerIdx = some args)
    (h : ∀ f : Node, FitsInt32 f.currentTerm →
      f.callAppendEntries args = f.handleAppendEntries args) : args.Fits := by
  obtain ⟨-, k, hk, rfl⟩ := Node.replicateArgs_cases hargs
  obtain ⟨hterm, hleader⟩ := fits_term_of_call h (Int.natCast_nonneg k)
  have hindex := fits_prevLogIndex_of_call h hterm rfl
  have hprevTerm := fits_prevLogTerm_of_call h hk rfl rfl hterm hindex
  have hentries := fits_entries_of_call h hk rfl rfl hterm hindex hprevTerm
  have hcommit := fits_leaderCommit_of_call h hk rfl rfl rfl hterm hindex hprevTerm hentries rfl
  rw [← AppendEntriesArgs.narrow_eq_iff]
  simp only [AppendEntriesArgs.narrow, AppendEntriesArgs.mk.injEq, narrow_eq_iff]
  exact ⟨hterm, hleader, hindex, hprevTerm, hentries, hcommit⟩

/-! ### Requests for votes -/

namespace Node

theorem observe_of_le {term : Int} (h : n.currentTerm ≤ term) :
    (n.observe term).currentTerm = term := by
  unfold observe
  split
  · exact becomeFollowerLocked_of_le h
  · omega

/-- A node without a vote has none in a newer term. -/
theorem observe_votedFor {term : Int} (h : n.votedFor = -1) : (n.observe term).votedFor = -1 := by
  unfold observe becomeFollowerLocked
  split
  · rfl
  · exact h

end Node

section SeparateVotes

variable {args : RequestVoteArgs} {log : List LogEntry}

/-- A node without a vote gives it to a candidate of no older term whose log is up to date. -/
theorem probe_handleRequestVote (args : RequestVoteArgs) (log : List LogEntry)
    (hterm : -2 ^ 31 ≤ args.term) (hne : log ≠ []) :
    ∃ nd reply, (probe log).handleRequestVote args = some (nd, reply) ∧
      nd.currentTerm = args.term ∧ (reply.voteGranted = true ↔ Node.UpToDate args log) ∧
      (reply.voteGranted = true → nd.votedFor = args.candidateId) := by
  have hle : (probe log).currentTerm ≤ args.term := hterm
  have hvote : ((probe log).observe args.term).votedFor = -1 := Node.observe_votedFor rfl
  obtain ⟨granted, hrun, hiff⟩ := Node.handleRequestVote_run hle hne
  refine ⟨_, _, hrun, Node.observe_of_le hle, ?_, ?_⟩
  · rw [hiff, hvote]
    exact and_iff_right (Or.inl rfl)
  · rintro (rfl : granted = true)
    rfl

/-- A log of `last + 1` entries of the term `term`. -/
theorem upToDate_replicate_iff {term : Int} {last : Nat} :
    Node.UpToDate args (List.replicate (last + 1) { sentinel with term := term }) ↔
      term < args.lastLogTerm ∨ args.lastLogTerm = term ∧ (last : Int) ≤ args.lastLogIndex := by
  rw [Node.UpToDate, List.replicate_succ', lastTerm_append, List.length_append,
    List.length_replicate]
  simp

variable (h : ∀ f : Node, FitsInt32 f.currentTerm →
  f.callRequestVote args = f.handleRequestVote args)

include h

/-- What the narrowed request does to a probe is what the request does to it. -/
theorem handle_of_callVote {nd : Node} {reply : RequestVoteReply}
    (hw : (probe log).handleRequestVote args.narrow = some (nd, reply)) :
    ∃ reply', (probe log).handleRequestVote args = some (nd, reply') ∧
      reply'.voteGranted = reply.voteGranted := by
  rw [← h _ (probe_fits log), Node.callRequestVote_eq, hw]
  exact ⟨_, rfl, rfl⟩

theorem fits_term_of_callVote : FitsInt32 args.term ∧ FitsInt32 args.candidateId := by
  let log := [{ sentinel with term := -2 ^ 31 - 1 }]
  obtain ⟨nd, reply, hw, hcurrent, hgrant, hvoted⟩ :=
    probe_handleRequestVote args.narrow log (narrow_fits args.term).1 (by simp)
  have hup : Node.UpToDate args.narrow log := by
    have := (narrow_fits args.lastLogTerm).1
    exact Or.inl (by change (-2 ^ 31 - 1 : Int) < narrow args.lastLogTerm; omega)
  obtain ⟨reply', hd, hreply⟩ := handle_of_callVote h hw
  rw [hgrant.mpr hup] at hreply
  have hterm : -2 ^ 31 ≤ args.term := by
    by_contra hstale
    have hlt : args.term < (probe log).currentTerm := not_le.mp hstale
    rw [Node.handleRequestVote, if_pos hlt] at hd
    rw [← (Prod.mk.inj (Option.some.inj hd)).2] at hreply
    cases hreply
  obtain ⟨nd', reply'', hd', hcurrent', -, hvoted'⟩ :=
    probe_handleRequestVote args log hterm (by simp)
  rw [hd] at hd'
  obtain ⟨rfl, rfl⟩ := Prod.mk.inj (Option.some.inj hd')
  exact ⟨narrow_eq_iff.mp (hcurrent.symm.trans hcurrent'),
    narrow_eq_iff.mp ((hvoted (hgrant.mpr hup)).symm.trans (hvoted' hreply))⟩

/-- The narrowed request is up to date with the logs that the request is up to date with. -/
theorem upToDate_of_callVote (hterm : FitsInt32 args.term) (log : List LogEntry) (hne : log ≠ []) :
    Node.UpToDate args.narrow log ↔ Node.UpToDate args log := by
  obtain ⟨nd, reply, hw, -, hgrant, -⟩ :=
    probe_handleRequestVote args.narrow log (narrow_fits args.term).1 hne
  obtain ⟨nd', reply', hd, -, hgrant', -⟩ := probe_handleRequestVote args log hterm.1 hne
  obtain ⟨reply'', hd', hreply⟩ := handle_of_callVote h hw
  rw [hd] at hd'
  rw [← hgrant, ← hgrant', (Prod.mk.inj (Option.some.inj hd')).2, hreply]

theorem fits_last_of_callVote (hterm : FitsInt32 args.term) {last : Nat}
    (hlast : args.lastLogIndex = last) :
    FitsInt32 args.lastLogIndex ∧ FitsInt32 args.lastLogTerm := by
  have hiff := fun (term : Int) (last : Nat) => upToDate_of_callVote h hterm
    (List.replicate (last + 1) { sentinel with term := term }) (by simp)
  simp only [upToDate_replicate_iff] at hiff
  change ∀ term (last : Nat), (term < narrow args.lastLogTerm ∨ narrow args.lastLogTerm = term ∧
    (last : Int) ≤ narrow args.lastLogIndex) ↔ _ at hiff
  -- The last term is compared with itself and its successor, which no multiple of 2 ^ 32 separates.
  have hself := (hiff args.lastLogTerm 0).mpr (Or.inr ⟨rfl, by omega⟩)
  have hsucc := mt (hiff (args.lastLogTerm + 1) 0).mp (by omega)
  obtain ⟨q, hq⟩ := narrow_eq args.lastLogTerm
  have hlastTerm : narrow args.lastLogTerm = args.lastLogTerm := by omega
  have hlow := (hiff args.lastLogTerm last).mpr (Or.inr ⟨rfl, by omega⟩)
  have hhigh := mt (hiff args.lastLogTerm (last + 1)).mp (by omega)
  have hlastIndex : narrow args.lastLogIndex = args.lastLogIndex := by omega
  exact ⟨narrow_eq_iff.mp hlastIndex, narrow_eq_iff.mp hlastTerm⟩

end SeparateVotes

theorem fits_of_callVote {args : RequestVoteArgs} (hargs : n.startElection = some (nd, args))
    (h : ∀ f : Node, FitsInt32 f.currentTerm →
      f.callRequestVote args = f.handleRequestVote args) : args.Fits := by
  obtain ⟨hne, -, rfl⟩ := Node.startElection_cases hargs
  have hpos := List.length_pos_iff.mpr hne
  obtain ⟨hterm, hcandidate⟩ := fits_term_of_callVote h
  have hlast : (n.log.length : Int) - 1 = (n.log.length - 1 : Nat) := by omega
  obtain ⟨hindex, hlastTerm⟩ := fits_last_of_callVote h hterm hlast
  exact ⟨hterm, hcandidate, hindex, hlastTerm⟩

/-- A reply of a term that does not fit does not arrive. -/
theorem fits_of_callRequestVote {args : RequestVoteArgs} (hne : n.log ≠ [])
    (h : n.callRequestVote args = n.handleRequestVote args) : FitsInt32 n.currentTerm := by
  obtain ⟨nd, reply, hhandle⟩ : ∃ nd reply, n.handleRequestVote args = some (nd, reply) := by
    by_cases hterm : n.currentTerm ≤ args.term
    · obtain ⟨granted, hrun, -⟩ := Node.handleRequestVote_run hterm hne
      exact ⟨_, _, hrun⟩
    · exact ⟨n, _, by rw [Node.handleRequestVote, if_pos (by omega)]⟩
  rw [hhandle, Node.callRequestVote_eq] at h
  obtain ⟨⟨nd', reply'⟩, -, heq⟩ := Option.map_eq_some_iff.mp h
  have hreply : { reply' with term := narrow reply'.term } = reply := (Prod.mk.inj heq).2
  rw [← Node.handleRequestVote_reply hhandle, ← hreply]
  exact narrow_fits _

/-- The wire leaves what a request does as it is at every node that its numbers and the node's term
fit, and at no other. -/
theorem calls_agree_iff_fits (n : Node) :
    (∀ peerIdx args, n.replicateArgs peerIdx = some args →
      (∀ f : Node, f.log ≠ [] → f.callAppendEntries args = f.handleAppendEntries args →
        FitsInt32 f.currentTerm) ∧
      ((∀ f : Node, FitsInt32 f.currentTerm →
        f.callAppendEntries args = f.handleAppendEntries args) ↔ args.Fits)) ∧
    ∀ nd args, n.startElection = some (nd, args) →
      (∀ f : Node, f.log ≠ [] → f.callRequestVote args = f.handleRequestVote args →
        FitsInt32 f.currentTerm) ∧
      ((∀ f : Node, FitsInt32 f.currentTerm →
        f.callRequestVote args = f.handleRequestVote args) ↔ args.Fits) := by
  refine ⟨fun peerIdx args hargs => ⟨fun f hne hcall => ?_, fun h => fits_of_call hargs h,
    fun hfits f hterm => Node.callAppendEntries_of_fits hfits hterm⟩, fun nd args hargs =>
    ⟨fun f hne hcall => fits_of_callRequestVote hne hcall, fun h => fits_of_callVote hargs h,
      fun hfits f hterm => Node.callRequestVote_of_fits hfits hterm⟩⟩
  have hprev : 0 ≤ args.prevLogIndex := by
    obtain ⟨-, k, -, rfl⟩ := Node.replicateArgs_cases hargs
    exact Int.natCast_nonneg k
  exact Node.fits_of_callAppendEntries hprev hne hcall

/-- A leader after `count` calls of `Submit`. -/
def Node.submitted (n : Node) (cmd : Command) : Nat → Node
  | 0 => n
  | count + 1 => ((n.submitted cmd count).submit cmd).elim (n.submitted cmd count) Prod.fst

theorem Node.submitted_spec (cmd : Command) (hlead : n.state = .leader) (count : Nat) :
    (n.submitted cmd count).state = .leader ∧ (n.submitted cmd count).peers = n.peers ∧
      (n.submitted cmd count).log.length = n.log.length + count := by
  induction count with
  | zero => exact ⟨hlead, rfl, rfl⟩
  | succ count ih =>
    obtain ⟨hstate, hpeers, hlen⟩ := ih
    rw [Node.submitted, Node.submit, if_neg (not_not.mpr hstate)]
    refine ⟨hstate, hpeers, ?_⟩
    change ((n.submitted cmd count).log ++ [_]).length = _
    rw [List.length_append, hlen]
    rfl

/-- A node that took `last` commands as the leader of one term and is elected for the next one,
`term`. -/
def leaderOf (term : Int) (last : Nat) : Node :=
  { ({ newNode 0 ["a", "b"] with currentTerm := term - 1 } : Node).becomeLeaderLocked.submitted
      { type := .put, key := [1] } last with currentTerm := term }.becomeLeaderLocked

/-- Its first heartbeat is for the end of its log. -/
theorem replicateArgs_leaderOf (term : Int) (last : Nat) : ∃ args,
    (leaderOf term last).replicateArgs 1 = some args ∧ args.term = term ∧
      args.prevLogIndex = last ∧ args.entries = [] := by
  let first : Node := ({ newNode 0 ["a", "b"] with currentTerm := term - 1 } : Node)
  obtain ⟨-, hpeers, hlen⟩ := Node.submitted_spec (n := first.becomeLeaderLocked)
    { type := .put, key := [1] } rfl last
  have hlog : (leaderOf term last).log.length = last + 1 := hlen.trans (Nat.add_comm _ _)
  have hnext : (leaderOf term last).nextIndex 1 = last + 1 := by
    change (if _ ∧ (1 : Int) < ((Node.submitted _ _ last).peers.length : Int) then
      ((leaderOf term last).log.length : Int) - 1 + 1 else 0) = _
    rw [hpeers, hlog, show first.becomeLeaderLocked.peers = ["a", "b"] from rfl,
      if_pos ⟨by decide, by decide⟩]
    omega
  exact ⟨_, replicateArgs_at rfl hnext (by omega), rfl, rfl, List.drop_of_length_le hlog.le⟩

theorem calls_agree_iff_fits_first :
    (∃ args, (leaderOf 2 0).replicateArgs 1 = some args ∧ args.Fits ∧
      ∀ f : Node, FitsInt32 f.currentTerm →
        f.callAppendEntries args = f.handleAppendEntries args) ∧
    ∃ nd args, (leaderOf 2 0).startElection = some (nd, args) ∧ args.Fits ∧
      ∀ f : Node, FitsInt32 f.currentTerm →
        f.callRequestVote args = f.handleRequestVote args := by
  have hargs : ((leaderOf 2 0).requestAfter 0).Fits := ⟨by decide, by decide⟩
  have hvote : RequestVoteArgs.Fits ⟨3, 0, 0, 0⟩ := ⟨by decide, by decide⟩
  exact ⟨⟨_, rfl, hargs, ((calls_agree_iff_fits (leaderOf 2 0)).1 1 _ rfl).2.mpr hargs⟩,
    ⟨_, _, rfl, hvote, ((calls_agree_iff_fits (leaderOf 2 0)).2 _ _ rfl).2.mpr hvote⟩⟩

/-- A leader of term `2 ^ 31` is refused over the wire, and as a candidate before it as well. The
heartbeat of one whose log ends at `2 ^ 31` is accepted by a node that has nothing of that log. -/
theorem not_calls_agree :
    (∃ args nd nd' reply reply', (leaderOf (2 ^ 31) 0).replicateArgs 1 = some args ∧
      (newNode 1 []).handleAppendEntries args = some (nd, reply) ∧
      (newNode 1 []).callAppendEntries args = some (nd', reply') ∧
      reply.success = true ∧ reply'.success = false ∧
      nd.currentTerm = 2 ^ 31 ∧ nd'.currentTerm = 0) ∧
    (∃ args nd nd' reply reply' c, (leaderOf (2 ^ 31 - 1) 0).startElection = some (c, args) ∧
      (newNode 1 []).handleRequestVote args = some (nd, reply) ∧
      (newNode 1 []).callRequestVote args = some (nd', reply') ∧
      reply.voteGranted = true ∧ reply'.voteGranted = false) ∧
    ∃ args nd nd' reply reply', (leaderOf 2 (2 ^ 31)).replicateArgs 1 = some args ∧
      (newNode 1 []).handleAppendEntries args = some (nd, reply) ∧
      (newNode 1 []).callAppendEntries args = some (nd', reply') ∧
      reply.success = false ∧ reply'.success = true ∧ nd'.log = [sentinel] := by
  refine ⟨⟨_, _, _, _, _, rfl, rfl, rfl, rfl, rfl, rfl, rfl⟩,
    ⟨_, _, _, _, _, _, rfl, rfl, rfl, rfl, rfl⟩, ?_⟩
  obtain ⟨args, hargs, hterm, hprev, hentries⟩ := replicateArgs_leaderOf 2 (2 ^ 31)
  have hle : (newNode 1 []).currentTerm ≤ args.term := by
    rw [hterm]
    decide
  have hdirect := Node.handleAppendEntries_refuses hle hprev (by
      rw [List.getElem?_eq_none (by change 1 ≤ 2 ^ 31; decide)]
      simp)
  have hneg : args.narrow.prevLogIndex < 0 := by
    change narrow args.prevLogIndex < 0
    rw [hprev]
    decide
  have hle' : (newNode 1 []).currentTerm ≤ args.narrow.term := by
    change 0 ≤ narrow args.term
    rw [hterm]
    decide
  have hwire := Node.handleAppendEntries_negative hle' hneg
  have hnil : args.narrow.entries = [] := by
    change args.entries.map _ = []
    rw [hentries]
    rfl
  rw [hnil] at hwire
  have hcall := (Node.callAppendEntries_eq (newNode 1 []) args).trans (congrArg _ hwire)
  exact ⟨args, _, _, _, _, hargs, hdirect, hcall, rfl, rfl, rfl⟩

end KvRaft.Raft
