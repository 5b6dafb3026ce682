import KvRaft.Raft.Safety

/-! The cluster as a broadcast. Every message that a node emits is the entry of a `Submit` call of
the run, no two calls get the same index and term, and no node emits an entry twice: this is what
the server relies on when it hands the result of a message to the call that waits for its key. -/

namespace KvRaft.Raft

open Lineage

variable {n : Nat}

/-- The entry that a `Submit` call appends. -/
def Cluster.accepted (c : Cluster n) : Action n → Option LogEntry
  | .submit i cmd => ((c.node i).submit cmd).map fun out =>
      { term := out.2.2, index := out.2.1, command := cmd }
  | _ => none

/-- What the server looks a waiting call up by. -/
def LogEntry.key (e : LogEntry) : Int × Int := (e.index, e.term)

def ApplyMsg.key (msg : ApplyMsg) : Int × Int := (msg.index, msg.term)

theorem Node.replicateReply_log (nd : Node) (peerIdx : Int) (args : AppendEntriesArgs)
    (reply : AppendEntriesReply) : (nd.replicateReply peerIdx args reply).1.log = nd.log := by
  rcases nd.replicateReply_cases peerIdx args reply with
    ⟨-, h⟩ | h | ⟨-, -, ⟨-, -, h⟩ | ⟨-, -, h⟩⟩
  · rw [h]
    rfl
  · rw [h]
  · rw [h]
    rcases (nd.matchPeer peerIdx (args.prevLogIndex +
      args.entries.length)).tryAdvanceCommitIndexLocked_cases with h' | ⟨N, -, -, -, h'⟩
    · rw [h']
      rfl
    · rw [h']
      rfl
  · rw [h]

theorem Node.handleRequestVote_log {nd nd' : Node} {args : RequestVoteArgs}
    {reply : RequestVoteReply} (h : nd.handleRequestVote args = some (nd', reply)) :
    nd'.log = nd.log := by
  rcases Node.handleRequestVote_cases h with ⟨rfl, -⟩ | ⟨-, ⟨rfl, -⟩ | ⟨rfl, -⟩⟩
  · rfl
  · exact Node.observe_log nd args.term
  · exact Node.observe_log nd args.term

theorem WellFormed.nodup {L : Int → List LogEntry} {T : Int} {log : List LogEntry}
    (h : WellFormed L T log) : log.Nodup := by
  refine List.nodup_iff_injective_getElem.mpr fun a b hab => Fin.ext ?_
  have hindex := congrArg LogEntry.index hab
  simp only [h.index] at hindex
  exact Int.ofNat_inj.mp hindex

/-- No request carries an entry twice. -/
theorem Logs.request_nodup {g : Ghost n} {c : Cluster n} (h : Logs g c) {j : Fin n}
    {args : AppendEntriesArgs} (hreq : c.AppendRequest j args) : args.entries.Nodup := by
  obtain ⟨k, -, ⟨hk, -⟩, hpre⟩ := h.request j args hreq
  have hlog : g.leaderLog args.term ≠ [] := List.ne_nil_of_length_pos (Nat.zero_lt_of_lt hk)
  exact (h.lineage _ hlog).nodup.sublist (hpre.sublist.trans (List.drop_sublist _ _))

/-- Everything in the cluster but the dummy entries is one of `entries`. -/
structure Submitted (entries : List LogEntry) (c : Cluster n) : Prop where
  log : ∀ i, ∀ e ∈ (c.node i).log.tail, e ∈ entries
  request : ∀ j args, c.AppendRequest j args →
    0 ≤ args.prevLogIndex ∧ ∀ e ∈ args.entries, e ∈ entries
  emitted : ∀ i, ∀ msg ∈ c.emitted i, ∃ e ∈ entries, e.toMsg = msg

namespace Submitted

variable {entries entries' : List LogEntry} {c c' : Cluster n}

theorem start (peers : List String) : Submitted [] (Cluster.start (n := n) peers) where
  log _ e he := by simp [Cluster.start, newNode] at he
  request _ _ h := by simp [Cluster.AppendRequest, Cluster.start] at h
  emitted _ msg h := by simp [Cluster.start] at h

theorem mono (h : Submitted entries c) (hsub : entries ⊆ entries') : Submitted entries' c where
  log i e he := hsub (h.log i e he)
  request j args hreq := ⟨(h.request j args hreq).1, fun e he =>
    hsub ((h.request j args hreq).2 e he)⟩
  emitted i msg hmsg := by
    obtain ⟨e, he, heq⟩ := h.emitted i msg hmsg
    exact ⟨e, hsub he, heq⟩

theorem frame (h : Submitted entries c) (hnode : c'.node = c.node)
    (hreq : ∀ j args, c'.AppendRequest j args → c.AppendRequest j args)
    (hemit : c'.emitted = c.emitted) : Submitted entries c' where
  log := by rw [hnode]; exact h.log
  request j args hr := h.request j args (hreq j args hr)
  emitted := by rw [hemit]; exact h.emitted

theorem setNode (h : Submitted entries c) {i : Fin n} {nd : Node}
    (hnd : ∀ e ∈ nd.log.tail, e ∈ entries) : Submitted entries (c.setNode i nd) where
  log k := by
    by_cases hk : k = i
    · rw [hk, Cluster.setNode_same]
      exact hnd
    · rw [Cluster.setNode_ne _ _ _ hk]
      exact h.log k
  request := h.request
  emitted := h.emitted

theorem setNode_log (h : Submitted entries c) {i : Fin n} {nd : Node}
    (hlog : nd.log = (c.node i).log) : Submitted entries (c.setNode i nd) :=
  h.setNode (hlog ▸ h.log i)

/-- A call that carries no request, or that of a call before it. -/
theorem setAppend (h : Submitted entries c) {i j : Fin n} {a : AppendCall}
    (ha : ∀ args, a = .sent args → 0 ≤ args.prevLogIndex ∧ ∀ e ∈ args.entries, e ∈ entries) :
    Submitted entries (c.setAppend i j a) where
  log := h.log
  request k args hreq := by
    rcases hreq with ⟨m, hm⟩ | hlate
    · rw [Cluster.setAppend_apply] at hm
      split at hm
      · exact ha args hm
      · exact h.request k args (Or.inl ⟨m, hm⟩)
    · exact h.request k args (Or.inr hlate)
  emitted := h.emitted

/-- A node takes over the entries of a request. -/
theorem handleAppend (h : Submitted entries c) {j : Fin n} {args : AppendEntriesArgs} {nd : Node}
    {reply : AppendEntriesReply} (hreq : c.AppendRequest j args)
    (hh : (c.node j).handleAppendEntries args = some (nd, reply)) :
    Submitted entries (c.setNode j nd) := by
  rcases Node.handleAppendEntries_cases hh with ⟨-, rfl, -⟩ | ⟨-, ⟨rfl, -⟩ | ⟨log, hlog, rfl, -⟩⟩
  · exact h.setNode_log rfl
  · exact h.setNode_log rfl
  · obtain ⟨hpos, hentries⟩ := h.request j args hreq
    obtain ⟨k, hk⟩ := Int.eq_ofNat_of_zero_le hpos
    rw [hk, show (k : Int) + 1 = ((k + 1 : Nat) : Int) by omega, Node.appendLoop_eq] at hlog
    refine h.setNode fun e he => ?_
    obtain rfl := Option.some.inj hlog
    rw [← List.drop_one] at he
    refine (mem_drop_splice he).elim (fun hold => ?_) (hentries e)
    rw [List.drop_one] at hold
    exact h.log j e hold

/-- A step other than a `Submit` brings in no entry. -/
theorem keeps {a : Action n} (h : Submitted entries c) (hstep : Cluster.Step c a c')
    (hno : c.accepted a = none) : Submitted entries c' := by
  cases hstep with
  | submit hs => simp [Cluster.accepted, hs] at hno
  | readState | wakeFollower | abandonElection | leaderReturns | tally =>
    exact h.frame rfl (fun _ _ hr => hr) rfl
  | leaderStays => exact h
  | @electionTimeout i =>
    have hset : Submitted entries (c.setNode i (c.node i).electionTimeout) := h.setNode_log rfl
    exact hset.frame rfl (fun _ _ hr => hr) rfl
  | @startElection i nd args _ hs =>
    obtain ⟨-, hnd, -⟩ := Node.startElection_cases hs
    have hset : Submitted entries (c.setNode i nd) := h.setNode_log (by rw [hnd])
    exact hset.frame rfl (fun _ _ hr => hr) rfl
  | @stepDown i j T v r =>
    have hset : Submitted entries (c.setNode i ((c.node i).becomeFollowerLocked r.term)) :=
      h.setNode_log rfl
    exact hset.frame rfl (fun _ _ hr => hr) rfl
  | @win i =>
    have hset : Submitted entries (c.setNode i (c.node i).becomeLeaderLocked) := h.setNode_log rfl
    exact hset.frame rfl (fun _ _ hr => hr) rfl
  | deliverVote _ hh | deliverLateVote _ hh =>
    exact (h.setNode_log (Node.handleRequestVote_log hh)).frame rfl (fun _ _ hr => hr) rfl
  | @replicate i j args _ ha =>
    obtain ⟨-, k, hk, hargs⟩ := Node.replicateArgs_cases ha
    refine h.setAppend fun args' heq => ?_
    obtain rfl := AppendCall.sent.inj heq
    rw [hargs]
    refine ⟨Int.natCast_nonneg k, fun e he => h.log i e ?_⟩
    rw [← List.drop_one]
    exact List.mem_of_mem_drop (i := k) (by rwa [List.drop_drop, Nat.add_comm])
  | @deliverAppend i _ _ _ _ ha hh =>
    exact (h.handleAppend (Or.inl ⟨i, ha⟩) hh).setAppend fun _ heq => by cases heq
  | deliverLateAppend ha hh =>
    exact (h.handleAppend (Or.inr (List.mem_of_getElem? ha)) hh).frame rfl
      (fun _ _ hr => hr.imp_right List.mem_of_mem_eraseIdx) rfl
  | @finishAppend i j args reply ha =>
    exact (h.setNode_log ((c.node i).replicateReply_log j args reply)).setAppend
      fun _ heq => by cases heq
  | @loseRequest i j args ha =>
    have hset : Submitted entries (c.setAppend i j .idle) := h.setAppend fun _ heq => by cases heq
    refine ⟨hset.log, fun k args' hr => ?_, hset.emitted⟩
    rcases hr with hr | hr
    · exact hset.request k args' (Or.inl hr)
    · rcases List.mem_append.mp hr with hr | hr
      · exact h.request k args' (Or.inr hr)
      · obtain ⟨rfl, rfl⟩ := Prod.mk.inj (List.mem_singleton.mp hr)
        exact h.request k args' (Or.inl ⟨i, ha⟩)
  | loseReply => exact h.setAppend fun _ heq => by cases heq
  | @apply i nd msg ha =>
    obtain ⟨-, hnd, hl, rfl⟩ := Node.applyNext_cases ha
    have hset : Submitted entries (c.setNode i nd) := h.setNode_log (by rw [hnd])
    refine ⟨hset.log, hset.request, fun k msg' hmsg => ?_⟩
    by_cases hk : k = i
    · subst hk
      simp only [Function.update_self, List.mem_append, List.mem_singleton] at hmsg
      rcases hmsg with hmsg | rfl
      · exact h.emitted k msg' hmsg
      · refine ⟨_, h.log k _ ?_, rfl⟩
        rw [← List.getElem_tail (by rw [List.length_tail]; omega)]
        exact List.getElem_mem _
    · simp only [Function.update_of_ne hk] at hmsg
      exact h.emitted k msg' hmsg

theorem submit {i : Fin n} {cmd : Command} {nd : Node} {index term : Int}
    (h : Submitted entries c) (hs : (c.node i).submit cmd = some (nd, index, term)) :
    Submitted (entries ++ [{ term := term, index := index, command := cmd }])
      (c.setNode i nd) := by
  obtain ⟨-, rfl, rfl, rfl⟩ := Node.submit_cases hs
  refine (h.mono (List.subset_append_left _ _)).setNode fun e he => ?_
  cases hl : (c.node i).log with
  | nil => simp [hl] at he
  | cons x rest =>
    simp only [hl, List.cons_append, List.tail_cons, List.mem_append, List.mem_singleton] at he
    rcases he with he | rfl
    · exact List.mem_append_left _ (h.log i e (by rw [hl]; exact he))
    · simp

end Submitted

/-- The entries of the `Submit` calls so far: each is in the log of the leader that made it, at its
index, and so no two have the same key. -/
structure Recorded (entries : List LogEntry) (g : Ghost n) : Prop where
  tracked : ∀ e ∈ entries, 0 ≤ e.index ∧ (g.leaderLog e.term)[e.index.toNat]? = some e
  nodup : (entries.map LogEntry.key).Nodup

theorem Recorded.mono {entries : List LogEntry} {g g' : Ghost n} (h : Recorded entries g)
    (hg : g ≤ g') : Recorded entries g' where
  tracked e he := by
    obtain ⟨hpos, hat⟩ := h.tracked e he
    obtain ⟨t, ht⟩ := hg.2.2.1 e.term
    obtain ⟨hlt, -⟩ := List.getElem?_eq_some_iff.mp hat
    exact ⟨hpos, by rw [← ht, List.getElem?_append_left hlt]; exact hat⟩
  nodup := h.nodup

/-- The leader's log holds everything submitted in its term so far, and the new entry behind it. -/
theorem Recorded.submit {entries : List LogEntry} {g g' : Ghost n} {c : Cluster n}
    (h : Recorded entries g) (hs : Sound g c) (hg : g ≤ g') {i : Fin n} {cmd : Command} {nd : Node}
    {index term : Int} (hs' : Sound g' (c.setNode i nd))
    (hsub : (c.node i).submit cmd = some (nd, index, term)) :
    Recorded (entries ++ [{ term := term, index := index, command := cmd }]) g' := by
  obtain ⟨hlead, rfl, rfl, rfl⟩ := Node.submit_cases hsub
  have hlog := hs.logs.leader i hlead
  have hlog' := hs'.logs.leader i (by rw [Cluster.setNode_same]; exact hlead)
  rw [Cluster.setNode_same] at hlog'
  refine ⟨fun e he => ?_, ?_⟩
  · rcases List.mem_append.mp he with he | he
    · exact (h.mono hg).tracked e he
    · rw [List.mem_singleton.mp he]
      refine ⟨Int.natCast_nonneg _, ?_⟩
      rw [hlog']
      simp
  · rw [List.map_append, List.nodup_append]
    refine ⟨h.nodup, List.nodup_singleton _, fun a ha b hb hab => ?_⟩
    obtain ⟨e, he, rfl⟩ := List.mem_map.mp ha
    rw [List.map_singleton, List.mem_singleton] at hb
    rw [hb] at hab
    obtain ⟨hidx, hterm⟩ := Prod.mk.inj hab
    obtain ⟨-, hat⟩ := h.tracked e he
    rw [hterm, hidx, hlog, Int.toNat_natCast, List.getElem?_eq_none le_rfl] at hat
    cases hat

/-- No node emits two messages with one index. -/
theorem Sound.nodup_emitted {g : Ghost n} {c : Cluster n} (h : Sound g c) (i : Fin n) :
    ((c.emitted i).map ApplyMsg.key).Nodup := by
  have hidx : (c.emitted i).map ApplyMsg.index =
      (List.range (c.emitted i).length).map fun k : Nat => (k : Int) + 1 := by
    refine List.ext_getElem (by simp) fun k hk _ => ?_
    rw [List.length_map] at hk
    obtain ⟨hlen, he⟩ := h.emitted_getElem i hk
    rw [List.getElem_map, he, List.getElem_map, List.getElem_range]
    exact (h.commits.wellFormed h.logs).index (k + 1) hlen
  refine List.Nodup.of_map Prod.fst ?_
  rw [List.map_map, show Prod.fst ∘ ApplyMsg.key = ApplyMsg.index from rfl, hidx]
  refine List.nodup_range.map fun a b hab => ?_
  simpa using hab

/-- What a cluster broadcasts. In every run of up to three nodes, no two `Submit` calls, on whatever
nodes, are given the same index and term, every message that a node has emitted is the entry of one
of these calls, and no node has emitted an entry twice. -/
theorem broadcast_integrity (hpos : 0 < n) (hn : n ≤ 3) {peers : List String}
    (hp : peers.length = n) {as : List (Action n)} {c : Cluster n}
    (hrun : (cluster n).exec (Cluster.start peers) as = some c) :
    (((cluster n).reads Cluster.accepted (Cluster.start peers) as).map LogEntry.key).Nodup ∧
      ∀ i, (∀ msg ∈ c.emitted i, ∃ e ∈ (cluster n).reads Cluster.accepted (Cluster.start peers) as,
        e.toMsg = msg) ∧ ((c.emitted i).map ApplyMsg.key).Nodup := by
  have hinv : Submitted ([] ++ (cluster n).reads Cluster.accepted (Cluster.start peers) as) c ∧
      ∃ g, Sound g c ∧
        Recorded ([] ++ (cluster n).reads Cluster.accepted (Cluster.start peers) as) g := by
    refine Machine.reads_invariant (m := cluster n)
      (I := fun entries c => Submitted entries c ∧ ∃ g, Sound g c ∧ Recorded entries g)
      (fun entries d a d' hd hstep => ?_) hrun
      ⟨.start peers, Ghost.start ⟨0, hpos⟩, Sound.start peers hp _, by simp, by simp⟩
    obtain ⟨hsub, g, hs, hrec⟩ := hd
    obtain ⟨g', hg, hs'⟩ := hs.step hn hstep
    have hof := Cluster.Step.of_step hstep
    cases hacc : d.accepted a with
    | none =>
      rw [Option.toList_none, List.append_nil]
      exact ⟨hsub.keeps hof hacc, g', hs', hrec.mono hg⟩
    | some e =>
      cases hof with
      | submit hsubmit =>
        have he : e = _ := (Option.some.inj (by simpa [Cluster.accepted, hsubmit] using hacc)).symm
        rw [Option.toList_some, he]
        exact ⟨hsub.submit hsubmit, g', hs', hrec.submit hs hg hs' hsubmit⟩
      | _ => cases hacc
  obtain ⟨hsub, g, hs, hrec⟩ := hinv
  exact ⟨hrec.nodup, fun i => ⟨hsub.emitted i, hs.nodup_emitted i⟩⟩

/-- Two leaders give out a key each, and two nodes have emitted the first entry. -/
theorem broadcast_integrity_secondElection :
    ∃ c, (cluster 3).exec (Cluster.start ["a", "b", "c"])
        (oneCommand ++ secondElection ++ [.submit 1 { type := .readBarrier }]) = some c ∧
      (((cluster 3).reads Cluster.accepted (Cluster.start ["a", "b", "c"])
        (oneCommand ++ secondElection ++ [.submit 1 { type := .readBarrier }])).map
          LogEntry.key).Nodup ∧
      ∀ i, (∀ msg ∈ c.emitted i, ∃ e ∈ (cluster 3).reads Cluster.accepted
          (Cluster.start ["a", "b", "c"])
          (oneCommand ++ secondElection ++ [.submit 1 { type := .readBarrier }]),
        e.toMsg = msg) ∧ ((c.emitted i).map ApplyMsg.key).Nodup := by
  have hrun : ((cluster 3).exec (Cluster.start ["a", "b", "c"])
      (oneCommand ++ secondElection ++ [.submit 1 { type := .readBarrier }])).isSome := by
    decide +kernel
  obtain ⟨c, hc⟩ := Option.isSome_iff_exists.mp hrun
  exact ⟨c, hc, broadcast_integrity (n := 3) (by decide) (by decide) rfl hc⟩

end KvRaft.Raft
