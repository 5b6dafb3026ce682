import KvRaft.Raft.CommitRule

/-! Who a node takes for the leader. `leaderID` is set by a node's own election and by the requests
of others, and cleared when the node turns away; it always names a node that has been elected in the
node's present term, and no term elects twice. -/

namespace KvRaft.Raft

open Lineage

variable {n : Nat}

/-- The node that an action makes leader, with its term. -/
def Cluster.elected (c : Cluster n) : Action n → Option (Fin n × Int)
  | .countVote i j =>
    match c.step (.countVote i j) with
    | some c' =>
      if (c.node i).state = .candidate ∧ (c'.node i).state = .leader then
        some (i, (c'.node i).currentTerm)
      else none
    | none => none
  | _ => none

/-- `nd` names no leader, or one that has been elected in its term; a leader names itself. -/
structure Node.Names (elections : List (Fin n × Int)) (nd : Node) : Prop where
  other : nd.leaderID = -1 ∨ ∃ j : Fin n, nd.leaderID = j ∧ (j, nd.currentTerm) ∈ elections
  own : nd.state = .leader → nd.leaderID = nd.id ∧ ∃ j : Fin n, nd.id = j ∧
    (j, nd.currentTerm) ∈ elections

namespace Node.Names

variable {elections elections' : List (Fin n × Int)} {nd nd' : Node}

theorem mono (h : nd.Names elections) (hsub : elections ⊆ elections') : nd.Names elections' where
  other := h.other.imp_right fun hex => hex.imp fun _ hj => ⟨hj.1, hsub hj.2⟩
  own hs := by
    obtain ⟨hid, j, hj, hmem⟩ := h.own hs
    exact ⟨hid, j, hj, hsub hmem⟩

/-- Nothing that matters changes, but for the state of a node that does not lead afterwards. -/
theorem congr (h : nd.Names elections) (hleader : nd'.leaderID = nd.leaderID)
    (hterm : nd'.currentTerm = nd.currentTerm) (hid : nd'.id = nd.id)
    (hstate : nd'.state = .leader → nd.state = .leader) : nd'.Names elections where
  other := by rw [hleader, hterm]; exact h.other
  own hs := by rw [hleader, hterm, hid]; exact h.own (hstate hs)

/-- A node that gives up what it knew. -/
theorem forget (hleader : nd.leaderID = -1) (hstate : nd.state ≠ .leader) : nd.Names elections where
  other := Or.inl hleader
  own hs := absurd hs hstate

end Node.Names

/-- What the nodes and the requests on their way say about leaders. -/
structure Announced (elections : List (Fin n × Int)) (c : Cluster n) : Prop where
  ids : ∀ i, (c.node i).id = i
  node : ∀ i, (c.node i).Names elections
  request : ∀ k args, c.AppendRequest k args →
    ∃ j : Fin n, args.leaderId = j ∧ (j, args.term) ∈ elections

namespace Announced

variable {elections elections' : List (Fin n × Int)} {c c' : Cluster n}

theorem start (peers : List String) : Announced [] (Cluster.start (n := n) peers) where
  ids _ := rfl
  node _ := .forget rfl (by simp [Cluster.start, newNode])
  request _ _ h := by simp [Cluster.AppendRequest, Cluster.start] at h

theorem mono (h : Announced elections c) (hsub : elections ⊆ elections') :
    Announced elections' c where
  ids := h.ids
  node i := (h.node i).mono hsub
  request k args hreq := by
    obtain ⟨j, hj, hmem⟩ := h.request k args hreq
    exact ⟨j, hj, hsub hmem⟩

theorem frame (h : Announced elections c) (hnode : c'.node = c.node)
    (hreq : ∀ j args, c'.AppendRequest j args → c.AppendRequest j args) :
    Announced elections c' where
  ids := by rw [hnode]; exact h.ids
  node := by rw [hnode]; exact h.node
  request k args hr := h.request k args (hreq k args hr)

theorem setNode (h : Announced elections c) {i : Fin n} {nd : Node}
    (hid : nd.id = (c.node i).id) (hnd : nd.Names elections) :
    Announced elections (c.setNode i nd) where
  ids k := by
    by_cases hk : k = i
    · rw [hk, Cluster.setNode_same, hid, h.ids]
    · rw [Cluster.setNode_ne _ _ _ hk, h.ids]
  node k := by
    by_cases hk : k = i
    · rw [hk, Cluster.setNode_same]
      exact hnd
    · rw [Cluster.setNode_ne _ _ _ hk]
      exact h.node k
  request := h.request

theorem setAppend (h : Announced elections c) {i j : Fin n} {a : AppendCall}
    (ha : ∀ args, a = .sent args →
      ∃ j : Fin n, args.leaderId = j ∧ (j, args.term) ∈ elections) :
    Announced elections (c.setAppend i j a) where
  ids := h.ids
  node := h.node
  request k args hreq := by
    rcases hreq with ⟨m, hm⟩ | hlate
    · rw [Cluster.setAppend_apply] at hm
      split at hm
      · exact ha args hm
      · exact h.request k args (Or.inl ⟨m, hm⟩)
    · exact h.request k args (Or.inr hlate)

/-- A vote request leaves the leader that a node names, or takes the node to a later term. -/
theorem handleVote (h : Announced elections c) {j : Fin n} {args : RequestVoteArgs} {nd : Node}
    {reply : RequestVoteReply} (hh : (c.node j).handleRequestVote args = some (nd, reply)) :
    Announced elections (c.setNode j nd) := by
  have hobs : ((c.node j).observe args.term).id = (c.node j).id ∧
      ((c.node j).observe args.term).Names elections := by
    unfold Node.observe
    split
    · exact ⟨rfl, .forget rfl (by simp [Node.becomeFollowerLocked])⟩
    · exact ⟨rfl, h.node j⟩
  rcases Node.handleRequestVote_cases hh with ⟨rfl, -⟩ | ⟨-, ⟨rfl, -⟩ | ⟨rfl, -⟩⟩
  · exact h.setNode rfl (h.node j)
  · exact h.setNode hobs.1 hobs.2
  · exact h.setNode hobs.1 (hobs.2.congr rfl rfl rfl id)

/-- A request that is not stale names the leader of its term. -/
theorem handleAppend (h : Announced elections c) {j : Fin n} {args : AppendEntriesArgs} {nd : Node}
    {reply : AppendEntriesReply} (hreq : c.AppendRequest j args)
    (hh : (c.node j).handleAppendEntries args = some (nd, reply)) :
    Announced elections (c.setNode j nd) := by
  have hfollow : (c.node j).currentTerm ≤ args.term →
      ((c.node j).follow args).Names elections := by
    intro hle
    obtain ⟨k, hk, hmem⟩ := h.request j args hreq
    refine ⟨Or.inr ⟨k, hk, ?_⟩, fun hs => by cases hs⟩
    rw [show ((c.node j).follow args).currentTerm = args.term from
      Node.becomeFollowerLocked_of_le hle]
    exact hmem
  rcases Node.handleAppendEntries_cases hh with
    ⟨-, rfl, -⟩ | ⟨hle, ⟨rfl, -⟩ | ⟨log, -, rfl, -⟩⟩
  · exact h.setNode rfl (h.node j)
  · exact h.setNode rfl (hfollow hle)
  · exact h.setNode rfl ((hfollow hle).congr rfl rfl rfl id)

/-- The reply to a call leaves a leader in its place, or makes a follower of it. -/
theorem handleReply (h : Announced elections c) (i : Fin n) (peerIdx : Int)
    (args : AppendEntriesArgs) (reply : AppendEntriesReply) :
    Announced elections (c.setNode i ((c.node i).replicateReply peerIdx args reply).1) := by
  rcases (c.node i).replicateReply_cases peerIdx args reply with
    ⟨-, heq⟩ | heq | ⟨-, -, ⟨-, -, heq⟩ | ⟨-, -, heq⟩⟩
  · rw [heq]
    exact h.setNode rfl (.forget rfl (by simp [Node.becomeFollowerLocked]))
  · rw [heq]
    exact h.setNode rfl (h.node i)
  · rw [heq]
    rcases ((c.node i).matchPeer peerIdx (args.prevLogIndex +
      args.entries.length)).tryAdvanceCommitIndexLocked_cases with heq' | ⟨N, -, -, -, heq'⟩
    · rw [heq']
      exact h.setNode rfl ((h.node i).congr rfl rfl rfl id)
    · rw [heq']
      exact h.setNode rfl ((h.node i).congr rfl rfl rfl id)
  · rw [heq]
    exact h.setNode rfl ((h.node i).congr rfl rfl rfl id)

/-- A step whose election, if it is one, has been recorded. -/
theorem step {a : Action n} (h : Announced elections c) (hrule : Cluster.Ruling c)
    (hstep : c.step a = some c') (hwin : ∀ e, c.elected a = some e → e ∈ elections) :
    Announced elections c' := by
  cases Cluster.Step.of_step hstep with
  | readState | wakeFollower | abandonElection | leaderReturns | tally =>
    exact h.frame rfl fun _ _ hr => hr
  | leaderStays => exact h
  | @electionTimeout i =>
    have hset : Announced elections (c.setNode i (c.node i).electionTimeout) :=
      h.setNode rfl ((h.node i).congr rfl rfl rfl fun hs => by cases hs)
    exact hset.frame rfl fun _ _ hr => hr
  | @startElection i nd args hl hs =>
    obtain ⟨-, hnd, -⟩ := Node.startElection_cases hs
    have hset : Announced elections (c.setNode i nd) := by
      rw [hnd]
      refine h.setNode rfl (.forget rfl fun hlead => ?_)
      rcases (hrule.node i).loop hlead with hl' | hl' <;> rw [hl] at hl' <;> cases hl'
    exact hset.frame rfl fun _ _ hr => hr
  | @stepDown i j T v r =>
    have hset : Announced elections (c.setNode i ((c.node i).becomeFollowerLocked r.term)) :=
      h.setNode rfl (.forget rfl (by simp [Node.becomeFollowerLocked]))
    exact hset.frame rfl fun _ _ hr => hr
  | @win i j T v r hl hv hneed hstate hterm =>
    have hmem := hwin (i, T) (by
      simp [Cluster.elected, hstep, hstate, Node.becomeLeaderLocked, hterm])
    have hset : Announced elections (c.setNode i (c.node i).becomeLeaderLocked) := by
      have hin : (i, (c.node i).becomeLeaderLocked.currentTerm) ∈ elections := hterm ▸ hmem
      exact h.setNode rfl ⟨Or.inr ⟨i, h.ids i, hin⟩, fun _ => ⟨rfl, i, h.ids i, hin⟩⟩
    exact hset.frame rfl fun _ _ hr => hr
  | deliverVote _ hh | deliverLateVote _ hh => exact (h.handleVote hh).frame rfl fun _ _ hr => hr
  | submit hs =>
    obtain ⟨-, -, -, rfl⟩ := Node.submit_cases hs
    exact h.setNode rfl ((h.node _).congr rfl rfl rfl id)
  | @replicate i j args _ ha =>
    obtain ⟨hlead, k, hk, rfl⟩ := Node.replicateArgs_cases ha
    obtain ⟨-, m, hm, hmem⟩ := (h.node i).own hlead
    refine h.setAppend fun args' heq => ?_
    obtain rfl := AppendCall.sent.inj heq
    exact ⟨m, hm, hmem⟩
  | @deliverAppend i _ _ _ _ ha hh =>
    exact (h.handleAppend (Or.inl ⟨i, ha⟩) hh).setAppend fun _ heq => by cases heq
  | deliverLateAppend ha hh =>
    exact (h.handleAppend (Or.inr (List.mem_of_getElem? ha)) hh).frame rfl
      fun _ _ hr => hr.imp_right List.mem_of_mem_eraseIdx
  | @finishAppend i j args reply ha =>
    exact (h.handleReply i j args reply).setAppend fun _ heq => by cases heq
  | @loseRequest i j args ha =>
    have hset : Announced elections (c.setAppend i j .idle) :=
      h.setAppend fun _ heq => by cases heq
    refine ⟨hset.ids, hset.node, fun k args' hr => ?_⟩
    rcases hr with hr | hr
    · exact hset.request k args' (Or.inl hr)
    · rcases List.mem_append.mp hr with hr | hr
      · exact h.request k args' (Or.inr hr)
      · obtain ⟨rfl, rfl⟩ := Prod.mk.inj (List.mem_singleton.mp hr)
        exact h.request k args' (Or.inl ⟨i, ha⟩)
  | loseReply => exact h.setAppend fun _ heq => by cases heq
  | @apply i nd msg ha =>
    obtain ⟨-, hnd, -⟩ := Node.applyNext_cases ha
    have hset : Announced elections (c.setNode i nd) := by
      rw [hnd]
      exact h.setNode rfl ((h.node i).congr rfl rfl rfl id)
    exact hset.frame rfl fun _ _ hr => hr

end Announced

/-- The elections of a run so far, against the owners of the terms. -/
structure Elected (elections : List (Fin n × Int)) (g : Ghost n) : Prop where
  owner : ∀ j T, (j, T) ∈ elections → g.owner T = some j
  nodup : (elections.map Prod.snd).Nodup

theorem Elected.mono {elections : List (Fin n × Int)} {g g' : Ghost n} (h : Elected elections g)
    (hg : g ≤ g') : Elected elections g' where
  owner j T hmem := hg.2.1 T j (h.owner j T hmem)
  nodup := h.nodup

/-- A term that a node is just elected in has not had a leader. -/
theorem Elected.elect {elections : List (Fin n × Int)} {g g' : Ghost n} {c c' : Cluster n}
    (h : Elected elections g) (hs : Sound g c) (hs' : Sound g' c') (hg : g ≤ g') {i : Fin n}
    {T v : Int} (hl : c.loop i = .counting T v) (hlead : (c'.node i).state = .leader)
    (hterm : (c'.node i).currentTerm = T) : Elected (elections ++ [(i, T)]) g' := by
  have hown : g'.owner T = some i := hterm ▸ hs'.votes.leader i hlead
  refine ⟨fun j T' hmem => ?_, ?_⟩
  · rcases List.mem_append.mp hmem with hmem | hmem
    · exact (h.mono hg).owner j T' hmem
    · obtain ⟨rfl, rfl⟩ := Prod.mk.inj (List.mem_singleton.mp hmem)
      exact hown
  · rw [List.map_append, List.nodup_append]
    refine ⟨h.nodup, List.nodup_singleton _, fun a ha b hb hab => ?_⟩
    rw [List.map_singleton, List.mem_singleton] at hb
    obtain ⟨⟨j, T'⟩, hmem, rfl⟩ := List.mem_map.mp ha
    obtain rfl : T' = T := hab.trans hb
    have howner := h.owner j T' hmem
    have heq : j = i := Option.some.inj ((hg.2.1 T' j howner).symm.trans hown)
    exact hs.votes.counting_owner i T' v hl (heq ▸ howner)

/-- A node that a step elects was counting the votes of the term. -/
theorem Cluster.elected_counting {c c' : Cluster n} {a : Action n} {i : Fin n} {T : Int}
    (hstep : c.step a = some c') (hel : c.elected a = some (i, T)) :
    ∃ v, c.loop i = .counting T v ∧ (c'.node i).state = .leader ∧
      (c'.node i).currentTerm = T := by
  cases Step.of_step hstep with
  | stepDown hl hv ht => simp [elected, hstep, Node.becomeFollowerLocked] at hel
  | tally hl hv hgo =>
    simp only [elected, hstep, setLoop_node, setVote_node] at hel
    obtain ⟨hcand, hlead⟩ := (Option.ite_none_right_eq_some.mp hel).1
    rw [hcand] at hlead
    cases hlead
  | @win k j T' v r hl hv hneed hstate hterm =>
    have heq : (k, T') = (i, T) := by
      simpa [elected, hstep, hstate, Node.becomeLeaderLocked, hterm] using hel
    obtain ⟨rfl, rfl⟩ := Prod.mk.inj heq
    exact ⟨v, hl, by simp [Node.becomeLeaderLocked], by simp [Node.becomeLeaderLocked, hterm]⟩
  | _ => cases hel

/-- The leaders that the nodes name, in every run. -/
theorem Announced.of_run {peers : List String} (hp : peers.length = n) {as : List (Action n)}
    {c : Cluster n} (hrun : (cluster n).exec (Cluster.start peers) as = some c) :
    Announced ((cluster n).reads Cluster.elected (Cluster.start peers) as) c := by
  have hinv := Machine.reads_invariant (m := cluster n) (f := Cluster.elected)
    (I := fun elections c => Announced elections c ∧ Counted c ∧ Cluster.Ruling c)
    (fun elections d a d' hd hstep => ?_) hrun ⟨.start peers, .start peers hp, .start peers⟩
  · rw [List.nil_append] at hinv
    exact hinv.1
  · obtain ⟨hann, hcount, hrule⟩ := hd
    refine ⟨(hann.mono (List.subset_append_left _ _)).step hrule hstep fun e he => ?_,
      hcount.step hstep, hrule.step hcount hstep⟩
    simp [he]

/-- The elections of every run against the ghost state. -/
theorem Elected.of_run {peers : List String} (hp : peers.length = n) (hn : n ≤ 3) (x : Fin n)
    {as : List (Action n)} {c : Cluster n}
    (hrun : (cluster n).exec (Cluster.start peers) as = some c) :
    ∃ g, Elected ((cluster n).reads Cluster.elected (Cluster.start peers) as) g := by
  have hstart : ∃ g, Sound g (Cluster.start peers) ∧ Elected ([] : List (Fin n × Int)) g :=
    ⟨Ghost.start x, Sound.start peers hp x, by simp, by simp⟩
  have hinv := Machine.reads_invariant (m := cluster n) (f := Cluster.elected)
    (I := fun elections c => ∃ g, Sound g c ∧ Elected elections g)
    (fun elections d a d' hd hstep => ?_) hrun hstart
  · rw [List.nil_append] at hinv
    obtain ⟨g, -, hel⟩ := hinv
    exact ⟨g, hel⟩
  · obtain ⟨g, hs, hel⟩ := hd
    obtain ⟨g', hg, hs'⟩ := hs.step hn hstep
    cases hacc : d.elected a with
    | none =>
      rw [Option.toList_none, List.append_nil]
      exact ⟨g', hs', hel.mono hg⟩
    | some e =>
      obtain ⟨i, T⟩ := e
      obtain ⟨v, hl, hlead, hterm⟩ := Cluster.elected_counting hstep hacc
      exact ⟨g', hs', hel.elect hs hs' hg hl hlead hterm⟩

/-- Whom a node takes for the leader. In every run, `leaderID` is -1 or names a node that has been
elected in the node's present term, and a leader names itself; and in a cluster of up to three nodes
no term has elected a leader twice. -/
theorem leaderID_sound {peers : List String} (hp : peers.length = n) {as : List (Action n)}
    {c : Cluster n} (hrun : (cluster n).exec (Cluster.start peers) as = some c) :
    (∀ i, ((c.node i).leaderID = -1 ∨ ∃ j : Fin n, (c.node i).leaderID = j ∧
        (j, (c.node i).currentTerm) ∈
          (cluster n).reads Cluster.elected (Cluster.start peers) as) ∧
      ((c.node i).state = .leader → (c.node i).leaderID = i)) ∧
    (n ≤ 3 →
      (((cluster n).reads Cluster.elected (Cluster.start peers) as).map Prod.snd).Nodup) := by
  have hann := Announced.of_run hp hrun
  refine ⟨fun i => ⟨(hann.node i).other, fun hlead => ?_⟩, fun hn => ?_⟩
  · rw [((hann.node i).own hlead).1, hann.ids i]
  · cases hE : (cluster n).reads Cluster.elected (Cluster.start peers) as with
    | nil => exact List.nodup_nil
    | cons e rest =>
      obtain ⟨g, hel⟩ := Elected.of_run hp hn e.1 hrun
      rw [← hE]
      exact hel.nodup

/-- After the second election, node 2 has granted its vote and not heard of the winner; the one that
has lost names nobody, and the winner itself. -/
theorem leaderID_sound_secondElection :
    ∃ c, (cluster 3).exec (Cluster.start ["a", "b", "c"]) (oneCommand ++ secondElection) = some c ∧
      (c.node 1).leaderID = 1 ∧ (c.node 0).leaderID = -1 ∧
      (∀ i, ((c.node i).leaderID = -1 ∨ ∃ j : Fin 3, (c.node i).leaderID = j ∧
        (j, (c.node i).currentTerm) ∈ (cluster 3).reads Cluster.elected
          (Cluster.start ["a", "b", "c"]) (oneCommand ++ secondElection)) ∧
        ((c.node i).state = .leader → (c.node i).leaderID = i)) ∧
      (((cluster 3).reads Cluster.elected (Cluster.start ["a", "b", "c"])
        (oneCommand ++ secondElection)).map Prod.snd).Nodup := by
  have hrun : ((cluster 3).exec (Cluster.start ["a", "b", "c"])
      (oneCommand ++ secondElection)).map
      (fun c => ((c.node 1).leaderID, (c.node 0).leaderID)) = some (1, -1) := by decide +kernel
  obtain ⟨c, hc, heq⟩ := Option.map_eq_some_iff.mp hrun
  rw [Prod.mk.injEq] at heq
  have hsound := leaderID_sound (n := 3) rfl hc
  exact ⟨c, hc, heq.1, heq.2, hsound.1, hsound.2 (by decide)⟩

end KvRaft.Raft
