import KvRaft.Raft.Carried
import KvRaft.Server.System
import KvRaft.Store.Sessions

/-! What holds in every run of the servers: each store serves the map of the log prefix that its
server has applied, every result in a server's tables is that of an applied entry, and every call
stands where the entry it submitted allows. -/

namespace KvRaft.Server

open Raft Store

section Meaning

/-- What a command does to the map from keys to values. The store refuses a put of the reserved
value. -/
def effect (m : Bytes → Option Bytes) (cmd : Command) : Bytes → Option Bytes :=
  match cmd.type with
  | .put => if cmd.value = tombstoneValue then m else Function.update m cmd.key (some cmd.value)
  | .delete => Function.update m cmd.key none
  | .readBarrier | .other _ => m

/-- The map after the commands of the entries 1 to `m` of a log. -/
def stateAt (log : List LogEntry) (m : Nat) : Bytes → Option Bytes :=
  (log.take (m + 1)).tail.foldl (fun state e => effect state e.command) fun _ => none

/-- What a `Get` returns for a key that the map has or lacks. -/
def Result.lookup : Option Bytes → Result
  | some bytes => .value bytes
  | none => .failed (.store .keyNotFound)

variable {log log' : List LogEntry} {m : Nat}

theorem stateAt_succ {e : LogEntry} (h : log[m + 1]? = some e) :
    stateAt log (m + 1) = effect (stateAt log m) e.command := by
  have hne : log.take (m + 1) ≠ [] := by
    rw [Ne, List.take_eq_nil_iff]
    rintro (hm | rfl)
    · cases hm
    · cases h
  rw [stateAt, List.take_add_one, h, Option.toList_some, List.tail_append_of_ne_nil hne,
    List.foldl_append]
  rfl

theorem stateAt_extend (h : log <+: log') (hm : m < log.length) :
    stateAt log' m = stateAt log m := by
  rw [stateAt, stateAt, Lineage.take_prefix_eq h hm]

end Meaning

section Store

variable {segs : Nat → Option Segment} {m : Bytes → Option Bytes} {w w' : World}

/-- The sizes that the record formats can hold. -/
def Sized (e : LogEntry) : Prop := 20 + e.command.key.length + e.command.value.length < 2 ^ 32

instance : DecidablePred Sized := fun _ => inferInstanceAs (Decidable (_ < _))

/-- The record of a call has the effect of the command. -/
theorem effect_put {ts : Int64} {key value : Bytes} {r : Record}
    (he : (Store.Event.put ts key value).writes = some r) :
    effect m { type := .put, key := key, value := value } = r.effect m := by
  simp only [Event.writes] at he
  split at he
  · cases he
  · next hv =>
    obtain rfl := Option.some.inj he
    simp [effect, hv, Record.effect, Record.tombstone]

/-- The store applies a command. -/
theorem session_applyCommand (h : Session segs m w) (hopen : w.db.closed = false)
    (hlive : w.db.activeFile ≠ .closed) {ts : Int64} {cmd : Command}
    (hsized : 20 + cmd.key.length + cmd.value.length < 2 ^ 32)
    (hw : w.after (applyCommand ts cmd) = some w') :
    ∃ segs', Grows segs segs' ∧ Session segs' (effect m cmd) w' ∧ w'.db.closed = false ∧
      w'.db.activeFile ≠ .closed := by
  obtain ⟨type, key, value⟩ := cmd
  have hnot : w.db.closed ≠ true := by simp [hopen]
  cases type with
  | put =>
    obtain ⟨segs', m', heff, hs⟩ := h.step (e := .put ts key value) hsized nofun hw
    have hlive' := heff.live hlive
    cases heff with
    | refused hr =>
      rcases hr with ⟨hclosed, -⟩ | ⟨_, _, he⟩ | hdead
      · exact absurd hclosed hnot
      · injection he with _ _ hv
        refine ⟨segs, Grows.refl segs, ?_, hopen, hlive⟩
        simpa only [effect, hv, if_true] using hs
      · exact absurd hdead hlive
    | wrote he ha happ =>
      exact ⟨segs', happ.grows ha, effect_put he ▸ hs, happ.opened ha, hlive'⟩
  | delete =>
    have hkey : key.length < 2 ^ 32 := by
      simp only at hsized
      omega
    obtain ⟨segs', m', heff, hs⟩ := h.step (e := .delete ts key) hkey nofun hw
    have hlive' := heff.live hlive
    cases heff with
    | refused hr =>
      rcases hr with ⟨hclosed, -⟩ | ⟨_, _, he⟩ | hdead
      · exact absurd hclosed hnot
      · cases he
      · exact absurd hdead hlive
    | wrote he ha happ =>
      obtain rfl := Option.some.inj he
      refine ⟨segs', happ.grows ha, ?_, happ.opened ha, hlive'⟩
      simpa only [effect, Record.effect, Record.tombstone, decide_true, if_true] using hs
  | readBarrier | other =>
    obtain rfl : w = w' := Option.some.inj hw
    exact ⟨segs, Grows.refl segs, h, hopen, hlive⟩

end Store

/-- The log has the key's entry among its first `taken` entries after the sentinel, and `err` is a
result that its command can have. -/
def Reported (log : List LogEntry) (taken : Nat) (key : PendingKey) (err : Option Err) : Prop :=
  ∃ k e, k ≤ taken ∧ log[k]? = some e ∧ e.index = key.index ∧ e.term = key.term ∧
    (e.command.type = .readBarrier → err = none)

/-- The leader of the key's term has the command at the key's index. -/
def Tracked {n : Nat} (g : Ghost n) (key : PendingKey) (cmd : Command) : Prop :=
  (g.leaderLog key.term)[key.index.toNat]? = some ⟨key.term, key.index, cmd⟩

/-- The log has the command as the entry of the key, among its first `taken` entries. -/
def Placed (log : List LogEntry) (taken : Nat) (key : PendingKey) (cmd : Command) : Prop :=
  ∃ k : Nat, k ≤ taken ∧ key.index = k ∧ log[k]? = some ⟨key.term, k, cmd⟩

/-- Where a call can stand when its server has applied `taken` entries. -/
inductive Stands {n : Nat} (g : Ghost n) (taken : Nat) (segs : Nat → Option Segment) :
    Request → Option PendingKey → Progress → Prop
  | invoked {request : Request} : Stands g taken segs request none .invoked
  | submitted {request : Request} {key : PendingKey} (ht : Tracked g key request.command) :
      Stands g taken segs request (some key) .submitted
  | waiting {request : Request} {key : PendingKey} (ht : Tracked g key request.command) :
      Stands g taken segs request (some key) .waiting
  | notified {request : Request} {key : PendingKey} {err : Option Err}
      (ht : Tracked g key request.command) (hr : Reported g.committed taken key err) :
      Stands g taken segs request (some key) (.notified err)
  | applied {k : Bytes} {key : PendingKey}
      (hp : Placed g.committed taken key (Request.get k).command) :
      Stands g taken segs (.get k) (some key) .applied
  | found {r : Record} {key : PendingKey} {entry : KeyDirEntry} {m : Nat}
      (hp : Placed g.committed m key (Request.get r.key).command) (hm : m ≤ taken)
      (hat : At segs entry r) (hlive : r.tombstone = false)
      (hv : stateAt g.committed m r.key = some r.value) :
      Stands g taken segs (.get r.key) (some key) (.found entry)
  | got {k : Bytes} {key : PendingKey} {m : Nat}
      (hp : Placed g.committed m key (Request.get k).command) (hm : m ≤ taken) :
      Stands g taken segs (.get k) (some key)
        (.returned (Result.lookup (stateAt g.committed m k)))
  | written {request : Request} {key : PendingKey}
      (hp : Placed g.committed taken key request.command) :
      Stands g taken segs request (some key) (.returned .nil)
  | failed {request : Request} {key : Option PendingKey} {err : Error}
      (hget : ∀ k, request = .get k → err ≠ .store .keyNotFound) :
      Stands g taken segs request key (.returned (.failed err))

/-- What ties a server to the committed log. -/
structure Replica (log : List LogEntry) (segs : Nat → Option Segment) (srv : RaftKVServer) :
    Prop where
  session : Session segs (stateAt log srv.taken) srv.store
  opened : srv.store.db.closed = false
  live : srv.store.db.activeFile ≠ .closed
  applied : ∀ key err, srv.applied = some (key, err) → Reported log srv.taken key err
  completed : ∀ key err, srv.completed key = some err → Reported log srv.taken key err

section Grow

variable {n : Nat} {g g' : Ghost n} {log log' : List LogEntry} {taken taken' : Nat}
  {segs segs' : Nat → Option Segment} {key : PendingKey} {err : Option Err} {cmd : Command}

theorem getElem?_extend (h : log <+: log') {k : Nat} {e : LogEntry} (he : log[k]? = some e) :
    log'[k]? = some e := by
  obtain ⟨rest, rfl⟩ := h
  rw [List.getElem?_append_left (List.getElem?_eq_some_iff.mp he).1, he]

theorem Reported.mono (h : Reported log taken key err) (hlog : log <+: log')
    (htaken : taken ≤ taken') : Reported log' taken' key err := by
  obtain ⟨k, e, hk, he, hrest⟩ := h
  exact ⟨k, e, hk.trans htaken, getElem?_extend hlog he, hrest⟩

theorem Placed.mono (h : Placed log taken key cmd) (hlog : log <+: log')
    (htaken : taken ≤ taken') : Placed log' taken' key cmd := by
  obtain ⟨k, hk, hi, he⟩ := h
  exact ⟨k, hk.trans htaken, hi, getElem?_extend hlog he⟩

theorem Tracked.mono (h : Tracked g key cmd) (hg : g ≤ g') : Tracked g' key cmd :=
  getElem?_extend (hg.2.2.1 key.term) h

/-- What a call stands on stays. -/
theorem Stands.mono {request : Request} {waitKey : Option PendingKey} {progress : Progress}
    (h : Stands g taken segs request waitKey progress) (hg : g ≤ g')
    (hlen : taken < g.committed.length) (htaken : taken ≤ taken') (hsegs : Grows segs segs') :
    Stands g' taken' segs' request waitKey progress := by
  have hlog := hg.2.2.2
  cases h with
  | invoked => exact .invoked
  | submitted ht => exact .submitted (ht.mono hg)
  | waiting ht => exact .waiting (ht.mono hg)
  | notified ht hr => exact .notified (ht.mono hg) (hr.mono hlog htaken)
  | applied hp => exact .applied (hp.mono hlog htaken)
  | found hp hm hat hlive hv =>
    refine .found (hp.mono hlog le_rfl) (hm.trans htaken) (hat.grow hsegs) hlive ?_
    rw [stateAt_extend hlog (hm.trans_lt hlen), hv]
  | got hp hm =>
    rw [← stateAt_extend hlog (hm.trans_lt hlen)]
    exact .got (hp.mono hlog le_rfl) (hm.trans htaken)
  | written hp => exact .written (hp.mono hlog htaken)
  | failed hget => exact .failed hget

theorem Replica.mono {srv : RaftKVServer} (h : Replica log segs srv) (hlog : log <+: log')
    (hlen : srv.taken < log.length) : Replica log' segs srv where
  session := by
    rw [stateAt_extend hlog hlen]
    exact h.session
  opened := h.opened
  live := h.live
  applied key err ha := (h.applied key err ha).mono hlog le_rfl
  completed key err hc := (h.completed key err hc).mono hlog le_rfl

end Grow

variable {n : Nat} {g g' : Ghost n} {c c' : Cluster n}

/-- An entry that has been applied under the key of a call is the one that the call submitted. -/
theorem Reported.placed (h : Sound g c) {taken : Nat} {key : PendingKey} {err : Option Err}
    {cmd : Command} (hr : Reported g.committed taken key err) (ht : Tracked g key cmd) :
    Placed g.committed taken key cmd ∧ (cmd.type = .readBarrier → err = none) := by
  obtain ⟨k, e, hk, he, hindex, hterm, hbarrier⟩ := hr
  obtain ⟨hlt, rfl⟩ := List.getElem?_eq_some_iff.mp he
  have hwf := h.commits.wellFormed h.logs
  have hpos : key.index = k := hindex.symm.trans (hwf.index k hlt)
  -- the committed entry stands in the log of the leader of its term, where the call put its own
  have hlead : (g.leaderLog key.term)[k]? = some g.committed[k] := by
    have htraced := hwf.traced k hlt
    rw [hterm] at htraced
    refine getElem?_extend htraced ?_
    rw [List.getElem?_take_of_lt (Nat.lt_succ_self k), he]
  have hentry : g.committed[k] = ⟨key.term, k, cmd⟩ := by
    rw [Tracked, hpos, Int.toNat_natCast, hlead] at ht
    exact Option.some.inj ht
  rw [hentry] at he hbarrier
  exact ⟨⟨k, hk, hpos, he⟩, hbarrier⟩

theorem Stands.finish (h : Sound g c) {taken : Nat} {segs : Nat → Option Segment}
    {call : ClientCall n} {key : PendingKey} {err : Option Err}
    (hr : Reported g.committed taken key err) (ht : Tracked g key call.request.command) :
    Stands g taken segs call.request (some key) (call.finish err).progress := by
  obtain ⟨hp, hbarrier⟩ := hr.placed h ht
  obtain ⟨node, request, waitKey, progress⟩ := call
  cases err with
  | none =>
    cases request with
    | get k => exact .applied hp
    | put | delete => exact .written hp
  | some err =>
    refine .failed fun k hk => ?_
    change request = .get k at hk
    subst hk
    cases hbarrier rfl

section Inversion

variable {taken : Nat} {segs : Nat → Option Segment} {request : Request}
  {waitKey : Option PendingKey}

theorem Stands.of_invoked (h : Stands g taken segs request waitKey .invoked) : waitKey = none := by
  cases h
  rfl

theorem Stands.of_submitted {key : PendingKey}
    (h : Stands g taken segs request (some key) .submitted) : Tracked g key request.command := by
  cases h with
  | submitted ht => exact ht

theorem Stands.of_notified {err : Option Err}
    (h : Stands g taken segs request waitKey (.notified err)) :
    ∃ key, waitKey = some key ∧ Tracked g key request.command ∧
      Reported g.committed taken key err := by
  cases h with
  | notified ht hr => exact ⟨_, rfl, ht, hr⟩

theorem Stands.of_applied (h : Stands g taken segs request waitKey .applied) :
    ∃ key, waitKey = some key ∧ Placed g.committed taken key request.command := by
  cases h with
  | applied hp => exact ⟨_, rfl, hp⟩

theorem Stands.of_found {entry : KeyDirEntry}
    (h : Stands g taken segs request waitKey (.found entry)) :
    ∃ r key m, request = .get r.key ∧ waitKey = some key ∧
      Placed g.committed m key request.command ∧ m ≤ taken ∧ At segs entry r ∧
      r.tombstone = false ∧ stateAt g.committed m r.key = some r.value := by
  cases h with
  | found hp hm hat hlive hv => exact ⟨_, _, _, rfl, rfl, hp, hm, hat, hlive, hv⟩

/-- The channel of the call takes the result of its entry. -/
theorem Stands.receive {call : ClientCall n} {key : PendingKey} {err : Option Err}
    (h : Stands g taken segs call.request (some key) call.progress)
    (hr : Reported g.committed taken key err) :
    Stands g taken segs call.request (some key) (call.receive err).progress := by
  obtain ⟨node, request, waitKey, progress⟩ := call
  cases progress with
  | waiting =>
    cases h with
    | waiting ht => exact .notified ht hr
  | _ => exact h

end Inversion

/-- A command that a leader accepts is tracked by the leader's own log. -/
theorem Tracked.of_submit {i : Fin n} {cmd : Command} {nd : Node} {index term : Int}
    (h : Sound g (c.setNode i nd)) (hs : (c.node i).submit cmd = some (nd, index, term)) :
    Tracked g ⟨index, term⟩ cmd := by
  obtain ⟨hlead, rfl, rfl, rfl⟩ := Node.submit_cases hs
  have hlog := h.logs.leader i (by rw [Cluster.setNode_same]; exact hlead)
  rw [Cluster.setNode_same] at hlog
  rw [Tracked, hlog]
  simp

/-- What holds of the cluster, of every server and of every call. -/
structure Consistent (g : Ghost n) (segs : Fin n → Nat → Option Segment) (s : System n) :
    Prop where
  sound : Sound g s.cluster
  carried : Carried Sized g s.cluster
  replica : ∀ i, Replica g.committed (segs i) (s.server i)
  taken : ∀ i, (s.server i).taken ≤ (s.cluster.emitted i).length
  pending : ∀ i key id, (s.server i).pending key = some id →
    ∃ call, s.calls id = some call ∧ call.node = i ∧ call.waitKey = some key
  stands : ∀ id call, s.calls id = some call →
    Stands g (s.server call.node).taken (segs call.node) call.request call.waitKey call.progress

namespace Consistent

variable {segs : Fin n → Nat → Option Segment} {s s' : System n}

theorem taken_lt (h : Consistent g segs s) (i : Fin n) :
    (s.server i).taken < g.committed.length :=
  (h.taken i).trans_lt (h.sound.emitted_lt_committed i)

/-- A step of the raft nodes. -/
theorem move (hn : n ≤ 3) (hn' : 2 ≤ n) (h : Consistent g segs s) {a : Action n} {c : Cluster n}
    (hm : Cluster.Step s.cluster a c)
    (hp : ∀ args, s.cluster.delivered a = some args → ∀ e ∈ args.entries, Sized e) :
    ∃ g', g ≤ g' ∧ Consistent g' segs { s with cluster := c } := by
  obtain ⟨g', hle, hs⟩ := h.sound.move hn hm
  have hcarried := (h.carried.move (by simp [Sized, sentinel]) hn' h.sound hm hp).mono hle
  refine ⟨g', hle, hs, hcarried, fun i => ?_, fun i => ?_, h.pending, fun id call hc => ?_⟩
  · exact (h.replica i).mono hle.2.2.2 (h.taken_lt i)
  · exact (h.taken i).trans (hm.emitted i).length_le
  · exact (h.stands id call hc).mono hle (h.taken_lt _) le_rfl (Grows.refl _)

theorem setServer (h : Consistent g segs s) {i : Fin n} {srv : RaftKVServer}
    {segs' : Nat → Option Segment} (hreplica : Replica g.committed segs' srv)
    (htaken : srv.taken ≤ (s.cluster.emitted i).length) (hle : (s.server i).taken ≤ srv.taken)
    (hsegs : Grows (segs i) segs') (hpending : ∀ key id, srv.pending key = some id →
      ∃ call, s.calls id = some call ∧ call.node = i ∧ call.waitKey = some key) :
    Consistent g (Function.update segs i segs') (s.setServer i srv) := by
  refine ⟨h.sound, h.carried, fun j => ?_, fun j => ?_, fun j => ?_, fun id call hc => ?_⟩
  · by_cases hj : j = i
    · subst hj
      simpa [System.setServer] using hreplica
    · simpa [System.setServer, hj] using h.replica j
  · by_cases hj : j = i
    · subst hj
      simpa [System.setServer] using htaken
    · simpa [System.setServer, hj] using h.taken j
  · by_cases hj : j = i
    · subst hj
      simpa [System.setServer] using hpending
    · simpa [System.setServer, hj] using h.pending j
  · have hstands := h.stands id call hc
    by_cases hj : call.node = i
    · rw [hj] at hstands
      simp only [System.setServer, hj, Function.update_self]
      exact hstands.mono le_rfl (h.taken_lt i) hle hsegs
    · simpa [System.setServer, hj] using hstands

/-- A step of a server that leaves its store alone. -/
theorem setTables (h : Consistent g segs s) {i : Fin n} {srv : RaftKVServer}
    (hstore : srv.store = (s.server i).store) (htaken : srv.taken = (s.server i).taken)
    (happlied : srv.applied = (s.server i).applied ∨ srv.applied = none)
    (hcompleted : ∀ key err, srv.completed key = some err →
      Reported g.committed (s.server i).taken key err)
    (hpending : ∀ key id, srv.pending key = some id →
      ∃ call, s.calls id = some call ∧ call.node = i ∧ call.waitKey = some key) :
    Consistent g segs (s.setServer i srv) := by
  have hr := h.replica i
  have hreplica : Replica g.committed (segs i) srv := by
    refine ⟨?_, ?_, ?_, fun key err ha => ?_, ?_⟩
    · rw [hstore, htaken]
      exact hr.session
    · rw [hstore]
      exact hr.opened
    · rw [hstore]
      exact hr.live
    · rw [htaken]
      rcases happlied with hsame | hnone
      · exact hr.applied key err (hsame ▸ ha)
      · rw [hnone] at ha
        cases ha
    · rw [htaken]
      exact hcompleted
  have := h.setServer hreplica (htaken ▸ h.taken i) htaken.ge (Grows.refl _) hpending
  rwa [Function.update_eq_self] at this

theorem setCall (h : Consistent g segs s) {id : Nat} {call : ClientCall n}
    (hkept : ∀ old key, s.calls id = some old → old.waitKey = some key →
      call.node = old.node ∧ call.waitKey = some key)
    (hstands : Stands g (s.server call.node).taken (segs call.node) call.request call.waitKey
      call.progress) : Consistent g segs (s.setCall id call) := by
  refine ⟨h.sound, h.carried, h.replica, h.taken, fun i key id' hp => ?_, fun id' call' hc => ?_⟩
  · obtain ⟨old, hold, hnode, hkey⟩ := h.pending i key id' hp
    by_cases hid : id' = id
    · subst hid
      obtain ⟨hsame, hkey'⟩ := hkept old key hold hkey
      exact ⟨call, by simp [System.setCall], hsame.trans hnode, hkey'⟩
    · exact ⟨old, by simpa [System.setCall, hid] using hold, hnode, hkey⟩
  · by_cases hid : id' = id
    · subst hid
      simp only [System.setCall, Function.update_self, Option.some.injEq] at hc
      subst hc
      exact hstands
    · exact h.stands id' call' (by simpa [System.setCall, hid] using hc)

/-- A call goes on, under the key that it has. -/
theorem setProgress (h : Consistent g segs s) {id : Nat} {call : ClientCall n}
    (hc : s.calls id = some call) {progress : Progress}
    (hstands : Stands g (s.server call.node).taken (segs call.node) call.request call.waitKey
      progress) : Consistent g segs (s.setCall id { call with progress := progress }) := by
  refine h.setCall (fun old key hold hkey => ?_) hstands
  rw [hc, Option.some.injEq] at hold
  subst hold
  exact ⟨rfl, hkey⟩

theorem submit (hn : n ≤ 3) (hn' : 2 ≤ n) (h : Consistent g segs s) {id : Nat}
    {call : ClientCall n} {nd : Node} {index term : Int} (hc : s.calls id = some call)
    (hp : call.progress = .invoked)
    (hs : (s.cluster.node call.node).submit call.request.command = some (nd, index, term)) :
    ∃ g', g ≤ g' ∧ Consistent g' segs ({ s with cluster := s.cluster.setNode call.node nd }.setCall
      id { call with waitKey := some ⟨index, term⟩, progress := .submitted }) := by
  have hnone := (hp ▸ h.stands id call hc).of_invoked
  obtain ⟨g', hle, h'⟩ := h.move hn hn' (.submit hs) nofun
  refine ⟨g', hle, h'.setCall (fun old key hold hkey => ?_) (.submitted (.of_submit h'.sound hs))⟩
  obtain rfl : call = old := Option.some.inj (hc.symm.trans hold)
  rw [hnone] at hkey
  cases hkey

theorem calm (h : Consistent g segs s) (i : Fin n) :
    (s.server i).store = ⟨(s.server i).store.disk, (s.server i).store.db, []⟩ := by
  rw [← (h.replica i).session.calm]

/-- A call reads from the store of its server. -/
theorem reading (h : Consistent g segs s) {id : Nat} {call : ClientCall n}
    (hc : s.calls id = some call) {w : World} (hopen : w.db.closed = false)
    (hlive : w.db.activeFile ≠ .closed)
    (hw : Session (segs call.node) (stateAt g.committed (s.server call.node).taken) w)
    {progress : Progress} (hstands : Stands g (s.server call.node).taken (segs call.node)
      call.request call.waitKey progress) :
    Consistent g segs ((s.setServer call.node { s.server call.node with store := w }).setCall id
      { call with progress := progress }) := by
  have h' := h.setProgress hc hstands
  have hrep := h.replica call.node
  have hreplica : Replica g.committed (segs call.node) { s.server call.node with store := w } :=
    ⟨hw, hopen, hlive, hrep.applied, hrep.completed⟩
  have := h'.setServer hreplica (h.taken _) le_rfl (Grows.refl _) (h'.pending _)
  rwa [Function.update_eq_self] at this

theorem find (h : Consistent g segs s) {id : Nat} {call : ClientCall n} {key : Bytes}
    (hc : s.calls id = some call) (hp : call.progress = .applied) (hr : call.request = .get key)
    (hs : s.reading id call (findEntry key) .found = some s') : Consistent g segs s' := by
  obtain ⟨hsession, hopen, hhandle, -, -⟩ := h.replica call.node
  obtain ⟨waitKey, hkey, hplaced⟩ := (hp ▸ h.stands id call hc).of_applied
  rw [hr] at hplaced
  cases he : (s.server call.node).store.db.keydir[key]? with
  | none =>
    rw [System.reading, h.calm call.node, findEntry_dead hopen he, Option.some.injEq,
      ← h.calm call.node] at hs
    subst hs
    refine h.reading hc hopen hhandle hsession ?_
    have hnone := hsession.serves.dead key he
    rw [hr, hkey, show Result.failed (.store .keyNotFound) = Result.lookup none from rfl, ← hnone]
    exact .got hplaced le_rfl
  | some e =>
    rw [System.reading, h.calm call.node, findEntry_live hopen he, Option.some.injEq,
      ← h.calm call.node] at hs
    subst hs
    refine h.reading hc hopen hhandle hsession ?_
    obtain ⟨r, hat, rfl, hlive, hv⟩ := hsession.serves.live key e he
    rw [hr, hkey]
    exact .found hplaced le_rfl hat hlive hv

theorem read (h : Consistent g segs s) {id : Nat} {call : ClientCall n} {key : Bytes}
    {entry : KeyDirEntry} (hc : s.calls id = some call) (hp : call.progress = .found entry)
    (hr : call.request = .get key)
    (hs : s.reading id call (readValue key entry) (fun bytes => .returned (.value bytes)) =
      some s') : Consistent g segs s' := by
  obtain ⟨hsession, hopen, hhandle, -, -⟩ := h.replica call.node
  obtain ⟨r, waitKey, m, hreq, hkey, hplaced, hm, hat, hlive, hv⟩ :=
    (hp ▸ h.stands id call hc).of_found
  obtain rfl : r.key = key := Request.get.inj (hreq.symm.trans hr)
  rw [System.reading, h.calm call.node, readValue_run hsession.holds hopen hat hlive,
    Option.some.injEq] at hs
  subst hs
  have hcalm := h.calm call.node
  rw [hcalm] at hsession
  refine h.reading hc ?_ ?_ (hsession.reading entry.fileID) ?_
  · rw [DB.reading_eq]
    exact hopen
  · rw [DB.reading_eq]
    exact hhandle
  · rw [hreq] at hplaced
    rw [hreq, hkey, show Result.value r.value = Result.lookup (some r.value) from rfl, ← hv]
    exact .got hplaced hm

/-- A server applies the next message. -/
theorem apply (h : Consistent g segs s) {i : Fin n} {ts : Int64} {msg : ApplyMsg}
    {srv : RaftKVServer} (hmsg : (s.cluster.emitted i)[(s.server i).taken]? = some msg)
    (hs : (s.server i).applyMsg ts msg = some srv) :
    ∃ segs', Consistent g segs' (s.setServer i srv) := by
  obtain ⟨w, err, hw, hbarrier, rfl⟩ := RaftKVServer.applyMsg_cases hs
  obtain ⟨hlt, hget⟩ := List.getElem?_eq_some_iff.mp hmsg
  obtain ⟨hlen, hentry⟩ := h.sound.emitted_getElem i hlt
  obtain rfl : msg = g.committed[(s.server i).taken + 1].toMsg := hget.symm.trans hentry
  have hsized : Sized g.committed[(s.server i).taken + 1] := by
    obtain ⟨e, he, hmsg⟩ := h.carried.emitted h.sound i (List.mem_of_getElem? hmsg)
    injection hmsg with _ _ hcmd
    rwa [Sized, hcmd]
  have hrep := h.replica i
  obtain ⟨segs', hgrows, hsession, hopen, hlive⟩ :=
    session_applyCommand hrep.session hrep.opened hrep.live hsized hw
  have hat := List.getElem?_eq_getElem hlen
  have hlog : g.committed <+: g.committed := List.prefix_rfl
  refine ⟨_, h.setServer ⟨?_, hopen, hlive, ?_, ?_⟩ hlt (Nat.le_succ _) hgrows (h.pending i)⟩
  · rw [stateAt_succ hat]
    exact hsession
  · intro key err' ha
    simp only [Option.some.injEq, Prod.mk.injEq] at ha
    obtain ⟨rfl, rfl⟩ := ha
    exact ⟨_, _, le_rfl, hat, rfl, rfl, hbarrier⟩
  · exact fun key err hc => (hrep.completed key err hc).mono hlog (Nat.le_succ _)

/-- Every step keeps what holds. -/
theorem step (hn : n ≤ 3) (hn' : 2 ≤ n) {carries : AppendEntriesArgs → Prop}
    (hcarries : ∀ args, carries args → ∀ e ∈ args.entries, Sized e) (h : Consistent g segs s)
    (hs : System.Step carries s s') : ∃ g', g ≤ g' ∧ ∃ segs', Consistent g' segs' s' := by
  cases hs with
  | raft hstep hp =>
    obtain ⟨g', hle, h'⟩ :=
      h.move hn hn' (.of_step hstep) fun args ha => hcarries args (hp args ha)
    exact ⟨g', hle, segs, h'⟩
  | invoke hnew => exact ⟨g, le_rfl, segs, h.setCall (by simp [hnew]) .invoked⟩
  | refused hc => exact ⟨g, le_rfl, segs, h.setProgress hc (.failed fun _ _ => nofun)⟩
  | submit hc hp hs =>
    obtain ⟨g', hle, h'⟩ := h.submit hn hn' hc hp hs
    exact ⟨g', hle, segs, h'⟩
  | @take id call key err hc hp hk hd =>
    have hrep := h.replica call.node
    have hst := h.stands id call hc
    rw [hk, hp] at hst
    have h' := h.setProgress hc
      (hk ▸ Stands.finish h.sound (hrep.completed key err hd) hst.of_submitted)
    exact ⟨g, le_rfl, segs, h'.setTables rfl rfl (Or.inl rfl)
      (fun k e he => hrep.completed k e (Recent.of_update_none he).2) (h'.pending _)⟩
  | @wait id call key hc hp hk =>
    have hst := h.stands id call hc
    rw [hk, hp] at hst
    have hwait : Stands g (s.server call.node).taken (segs call.node) call.request call.waitKey
        .waiting := hk ▸ .waiting hst.of_submitted
    have h' := h.setProgress hc hwait
    refine ⟨g, le_rfl, segs, h'.setTables rfl rfl (Or.inl rfl) (h.replica _).completed ?_⟩
    intro k id' hpend
    by_cases hkey : k = key
    · subst hkey
      simp only [Function.update_self, Option.some.injEq] at hpend
      subst hpend
      exact ⟨_, Function.update_self .., rfl, hk⟩
    · simp only [Function.update_of_ne hkey] at hpend
      exact h'.pending _ k id' hpend
  | @wake id call err hc hp =>
    obtain ⟨key, hk, ht, hr⟩ := (hp ▸ h.stands id call hc).of_notified
    exact ⟨g, le_rfl, segs, h.setProgress hc (hk ▸ Stands.finish h.sound hr ht)⟩
  | @giveUp id call key canceled hc hk =>
    have hfailed : Stands g (s.server call.node).taken (segs call.node) call.request call.waitKey
        (call.giveUp canceled).progress := .failed fun _ _ => by cases canceled <;> exact nofun
    have h' := h.setProgress hc hfailed
    exact ⟨g, le_rfl, segs, h'.setTables rfl rfl (Or.inl rfl) (h.replica _).completed
      fun k id' hpend => h'.pending _ k id' (Recent.of_update_none hpend).2⟩
  | find hc hp hr hs => exact ⟨g, le_rfl, segs, h.find hc hp hr hs⟩
  | read hc hp hr hs => exact ⟨g, le_rfl, segs, h.read hc hp hr hs⟩
  | apply hmsg hs => exact ⟨g, le_rfl, h.apply hmsg hs⟩
  | @told i key err id call ha hw hc =>
    obtain ⟨call', hc', rfl, hk⟩ := h.pending i key id hw
    obtain rfl : call = call' := Option.some.inj (hc.symm.trans hc')
    have hrep := h.replica call.node
    have hst := (hk ▸ h.stands id call hc).receive (hrep.applied key err ha)
    have h' := h.setProgress hc (hk ▸ hst)
    exact ⟨g, le_rfl, segs, h'.setTables rfl rfl (Or.inr rfl) hrep.completed
      fun k id' hpend => h'.pending _ k id' (Recent.of_update_none hpend).2⟩
  | @lost i key =>
    exact ⟨g, le_rfl, segs, h.setTables rfl rfl (Or.inr rfl) (h.replica i).completed
      fun k id' hpend => h.pending i k id' (Recent.of_update_none hpend).2⟩
  | @keep i key err ha =>
    have hrep := h.replica i
    obtain ⟨hstore, htaken, happlied, hpending⟩ :=
      RaftKVServer.complete_same { s.server i with applied := none } key err
    refine ⟨g, le_rfl, segs, h.setTables hstore htaken (Or.inr happlied) (fun k e he => ?_) ?_⟩
    · rcases RaftKVServer.complete_completed he with ⟨rfl, rfl⟩ | hold
      · exact hrep.applied k e ha
      · exact hrep.completed k e hold
    · rw [hpending]
      exact h.pending i

end Consistent

/-- The servers before any step. -/
theorem Consistent.initial {carries : AppendEntriesArgs → Prop} [DecidablePred carries] (x : Fin n)
    {s : System n} (h : (system n carries).initial s) :
    ∃ g segs, Consistent g segs s := by
  obtain ⟨⟨peers, hp, hcluster⟩, hcalls, hserver⟩ := h
  choose w hw hsrv using hserver
  choose opts hopen using hw
  choose segs hsession hclosed hlive using fun i => World.openDB_empty (hopen i)
  refine ⟨Ghost.start x, segs, ?_, ?_, fun i => ?_, fun i => ?_, fun i => ?_, ?_⟩
  · rw [hcluster]
    exact Sound.start peers hp x
  · rw [hcluster]
    exact Carried.start (by simp [Sized, sentinel]) peers x
  · rw [hsrv i]
    exact ⟨hsession i, hclosed i, hlive i, by simp, by simp⟩
  · rw [hsrv i]
    exact Nat.zero_le _
  · rw [hsrv i]
    simp
  · rw [hcalls]
    simp

end KvRaft.Server
