import KvRaft.Raft.Election

/-! The commit rule. `tryAdvanceCommitIndexLocked` runs only when a reply raises a match index, and
still no leader is ever behind what the rule allows, at any size of the cluster: an entry that a
leader appends is past every match index it knows, and a new leader knows none. -/

namespace KvRaft.Raft

variable {n : Nat} {nd nd' : Node}

namespace Node

/-- The rule lets the commit index move to `N`. -/
def Committable (nd : Node) (N : Nat) : Prop :=
  nd.commitIndex < N ∧ nd.log[N]?.map LogEntry.term = some nd.currentTerm ∧
    nd.replicationCount N > nd.peers.length / 2

theorem advanceFrom_greatest {M N : Nat} (h : nd.Committable M) (hle : M ≤ N) :
    M ≤ (nd.advanceFrom N).commitIndex := by
  obtain ⟨hlt, hterm, hcount⟩ := h
  induction N with
  | zero => omega
  | succ N ih =>
    unfold advanceFrom
    split
    · -- the two skipped cases cannot be the one of `M`
      split
      · next hother =>
        have hne : M ≠ N + 1 := by
          rintro rfl
          exact hother hterm
        exact ih (by omega)
      · split
        · exact hle
        · next hfew =>
          have hne : M ≠ N + 1 := by
            rintro rfl
            exact hfew hcount
          exact ih (by omega)
    · omega

/-- The commit index moves to the greatest position that the rule allows, if there is one. -/
theorem tryAdvanceCommitIndexLocked_greatest (nd : Node) :
    (∃ N, nd.Committable N ∧ (∀ M, nd.Committable M → M ≤ N) ∧
      nd.tryAdvanceCommitIndexLocked = { nd with commitIndex := N }) ∨
    (∀ M, ¬ nd.Committable M) ∧ nd.tryAdvanceCommitIndexLocked = nd := by
  have hmax : ∀ M, nd.Committable M → M ≤ nd.tryAdvanceCommitIndexLocked.commitIndex := by
    intro M hM
    obtain ⟨entry, hentry, -⟩ := Option.map_eq_some_iff.mp hM.2.1
    obtain ⟨hlen, -⟩ := List.getElem?_eq_some_iff.mp hentry
    exact advanceFrom_greatest hM (by omega)
  rcases nd.tryAdvanceCommitIndexLocked_cases with hsame | ⟨N, hlt, hterm, hcount, hset⟩
  · refine Or.inr ⟨fun M hM => ?_, hsame⟩
    have hle := hmax M hM
    rw [hsame] at hle
    exact absurd hM.1 (not_lt.mpr hle)
  · refine Or.inl ⟨N, ⟨hlt, hterm, hcount⟩, fun M hM => ?_, hset⟩
    have hle := hmax M hM
    rwa [hset] at hle

theorem not_committable_tryAdvanceCommitIndexLocked (nd : Node) (M : Nat) :
    ¬ nd.tryAdvanceCommitIndexLocked.Committable M := by
  rcases nd.tryAdvanceCommitIndexLocked_greatest with ⟨N, hN, hmax, hset⟩ | ⟨hnone, hsame⟩
  · rw [hset]
    rintro ⟨hlt, hterm, hcount⟩
    have hlt' : N < M := hlt
    have hle := hmax M ⟨hN.1.trans hlt', hterm, hcount⟩
    omega
  · rw [hsame]
    exact hnone M

/-- Only the leader itself holds a position past every match index. -/
theorem replicationCount_of_lt {N : Int} (h : ∀ p, p ≠ nd.id → nd.matchIndex p < N) :
    nd.replicationCount N = 1 := by
  have hnone : (List.range nd.peers.length).filter (fun (p : Nat) =>
      (p : Int) ≠ nd.id ∧ nd.matchIndex p ≥ N) = [] := by
    refine List.filter_eq_nil_iff.mpr fun p _ => ?_
    simp only [ge_iff_le, decide_eq_true_eq, not_and, not_le]
    exact fun hp => h p hp
  rw [replicationCount, hnone]
  rfl

theorem replicationCount_congr {N : Int} (hpeers : nd'.peers = nd.peers) (hid : nd'.id = nd.id)
    (hmatch : ∀ p, p ≠ nd.id → nd'.matchIndex p = nd.matchIndex p) :
    nd'.replicationCount N = nd.replicationCount N := by
  rw [replicationCount, replicationCount, hpeers, hid]
  congr 2
  refine List.filter_congr fun p _ => ?_
  by_cases hp : (p : Int) = nd.id
  · simp [hp]
  · rw [hmatch p hp]

theorem not_committable_of_lt {N : Nat} (hpeers : 2 ≤ nd.peers.length)
    (h : ∀ p, p ≠ nd.id → nd.matchIndex p < N) : ¬ nd.Committable N := by
  rintro ⟨-, -, hcount⟩
  rw [replicationCount_of_lt h] at hcount
  omega

end Node

/-- The request of a worker's call that has not come to its end. -/
def AppendCall.request : AppendCall → Option AppendEntriesArgs
  | .idle => none
  | .sent args => some args
  | .answered args _ => some args

/-- What a node, its goroutine and the calls of its workers keep for the commit rule. -/
structure Ruled (nd : Node) (l : Loop) (calls : Fin n → Option AppendEntriesArgs) : Prop where
  loop : nd.state = .leader → l = .top ∨ l = .leader
  term : ∀ j args, calls j = some args → args.term ≤ nd.currentTerm
  stood : ∀ T v, l = .counting T v → ∀ j args, calls j = some args → args.term < T
  sent : nd.state = .leader → ∀ j args, calls j = some args → args.term = nd.currentTerm →
    args.prevLogIndex + args.entries.length < nd.log.length
  matched : nd.state = .leader → ∀ p, p ≠ nd.id → ∀ N : Nat, 0 < N → nd.log.length ≤ N →
    nd.matchIndex p < N
  size : nd.state = .leader → 2 ≤ nd.peers.length
  rule : nd.state = .leader → ∀ N, ¬ nd.Committable N

namespace Ruled

variable {l l' : Loop} {calls calls' : Fin n → Option AppendEntriesArgs}

theorem setLoop (h : Ruled nd l calls) (hl : ∀ T v, l' ≠ .counting T v)
    (hlead : nd.state = .leader → l' = .top ∨ l' = .leader) : Ruled nd l' calls :=
  { h with loop := hlead, stood := fun T v hc => absurd hc (hl T v) }

theorem recount {T v : Int} (h : Ruled nd (.counting T v) calls) (w : Int) :
    Ruled nd (.counting T w) calls :=
  { h with
    loop := fun hlead => (by rcases h.loop hlead with hl | hl <;> cases hl)
    stood := fun T' _ hl => h.stood T' v (by rw [(Loop.counting.inj hl).1]) }

/-- A node that is not the leader afterwards. -/
theorem retire (h : Ruled nd l calls) (hstate : nd'.state ≠ .leader)
    (hterm : nd.currentTerm ≤ nd'.currentTerm) : Ruled nd' l calls where
  loop hlead := absurd hlead hstate
  term j args hc := (h.term j args hc).trans hterm
  stood := h.stood
  sent hlead := absurd hlead hstate
  matched hlead := absurd hlead hstate
  size hlead := absurd hlead hstate
  rule hlead := absurd hlead hstate

/-- Calls end. -/
theorem restrict (h : Ruled nd l calls)
    (hc : ∀ j args, calls' j = some args → calls j = some args) : Ruled nd l calls' :=
  { h with
    term := fun j args ha => h.term j args (hc j args ha)
    stood := fun T v hl j args ha => h.stood T v hl j args (hc j args ha)
    sent := fun hlead j args ha => h.sent hlead j args (hc j args ha) }

/-- The request of a new call ends with the last entry of the log. -/
theorem call (h : Ruled nd l calls) {peerIdx : Int} {args : AppendEntriesArgs}
    (ha : nd.replicateArgs peerIdx = some args) (j : Fin n) :
    Ruled nd l (Function.update calls j (some args)) := by
  obtain ⟨hlead, k, hk, rfl⟩ := Node.replicateArgs_cases ha
  refine { h with term := fun i args hc => ?_, stood := fun T v hl => ?_,
                  sent := fun _ i args hc heq => ?_ }
  · by_cases hi : i = j
    · rw [hi, Function.update_self] at hc
      obtain rfl := Option.some.inj hc
      exact le_rfl
    · rw [Function.update_of_ne hi] at hc
      exact h.term i args hc
  · rcases h.loop hlead with htop | htop
    · rw [htop] at hl
      cases hl
    · rw [htop] at hl
      cases hl
  · by_cases hi : i = j
    · rw [hi, Function.update_self] at hc
      obtain rfl := Option.some.inj hc
      simp only [List.length_drop]
      omega
    · rw [Function.update_of_ne hi] at hc
      exact h.sent hlead i args hc heq

/-- The node raises its term and starts to count. -/
theorem stand (h : Ruled nd l calls) {args : RequestVoteArgs} (hl : l = .candidate)
    (hs : nd.startElection = some (nd', args)) : Ruled nd' (.counting args.term 1) calls := by
  obtain ⟨-, rfl, rfl⟩ := Node.startElection_cases hs
  have hstate : nd.state ≠ .leader := by
    intro hlead
    rcases h.loop hlead with htop | htop
    · rw [hl] at htop
      cases htop
    · rw [hl] at htop
      cases htop
  have hlt : ∀ j args, calls j = some args → args.term < nd.currentTerm + 1 :=
    fun j args hc => Int.lt_add_one_of_le (h.term j args hc)
  exact
    { loop := fun hlead => absurd hlead hstate
      term := fun j args hc => (hlt j args hc).le
      stood := fun T v hc => (Loop.counting.inj hc).1 ▸ hlt
      sent := fun hlead => absurd hlead hstate
      matched := fun hlead => absurd hlead hstate
      size := fun hlead => absurd hlead hstate
      rule := fun hlead => absurd hlead hstate }

/-- A new leader has no call of its term, and knows of no entry that another node holds. -/
theorem win (h : Ruled nd l calls) {T v : Int} (hl : l = .counting T v)
    (hterm : nd.currentTerm = T) (hpeers : 2 ≤ nd.peers.length) :
    Ruled nd.becomeLeaderLocked .top calls := by
  have hmatch : ∀ p, p ≠ nd.id → ∀ N : Nat, 0 < N → nd.becomeLeaderLocked.matchIndex p < N := by
    intro p hp N hN
    rw [Node.becomeLeaderLocked_matchIndex hp]
    exact_mod_cast hN
  refine { loop := fun _ => Or.inl rfl, term := h.term, stood := fun _ _ hc => (by cases hc),
           sent := fun _ j args hc heq => ?_, matched := fun _ p hp N hN _ => hmatch p hp N hN,
           size := fun _ => hpeers, rule := fun _ N hN => ?_ }
  · have hlt : args.term < nd.currentTerm := hterm ▸ h.stood T v hl j args hc
    exact absurd heq hlt.ne
  · have htwo : 2 ≤ nd.becomeLeaderLocked.peers.length := hpeers
    exact Node.not_committable_of_lt htwo (fun p hp => hmatch p hp N (Nat.zero_lt_of_lt hN.1)) hN

/-- The entry of a submitted command is past every match index. -/
theorem submit (h : Ruled nd l calls) {cmd : Command} {index term : Int}
    (hs : nd.submit cmd = some (nd', index, term)) : Ruled nd' l calls := by
  obtain ⟨hlead, -, -, hnd⟩ := Node.submit_cases hs
  have hlog : nd'.log = nd.log ++ [⟨nd.currentTerm, nd.log.length, cmd⟩] := by rw [hnd]
  have hlen : nd'.log.length = nd.log.length + 1 := by rw [hlog, List.length_append]; rfl
  have hmatch : ∀ p, p ≠ nd.id → nd'.matchIndex p = nd.matchIndex p := by
    rw [hnd]
    exact fun p hp => Function.update_of_ne hp _ _
  have hkept : nd'.state = nd.state ∧ nd'.currentTerm = nd.currentTerm ∧ nd'.peers = nd.peers ∧
      nd'.id = nd.id ∧ nd'.commitIndex = nd.commitIndex := by
    rw [hnd]
    exact ⟨rfl, rfl, rfl, rfl, rfl⟩
  obtain ⟨hstate, hterm, hsame, hid, hcommit⟩ := hkept
  refine ⟨hstate ▸ h.loop, hterm ▸ h.term, h.stood, fun _ j args hc heq => ?_,
    fun _ p hp N hN hle => ?_, fun _ => hsame ▸ h.size hlead, fun _ N hN => ?_⟩
  · have hlt := h.sent hlead j args hc (heq.trans hterm)
    omega
  · rw [hmatch p (hid ▸ hp)]
    exact h.matched hlead p (hid ▸ hp) N hN (by omega)
  · by_cases hold : N < nd.log.length
    · -- nothing has changed at a position of the old log
      obtain ⟨hlt, hat, hcount⟩ := hN
      rw [hlog, List.getElem?_append_left hold, hterm] at hat
      rw [Node.replicationCount_congr hsame hid hmatch, hsame] at hcount
      exact h.rule hlead N ⟨hcommit ▸ hlt, hat, hcount⟩
    · refine Node.not_committable_of_lt (hsame ▸ h.size hlead) (fun p hp => ?_) hN
      rw [hmatch p (hid ▸ hp)]
      exact h.matched hlead p (hid ▸ hp) N (Nat.zero_lt_of_lt hN.1) (by omega)

/-- A reply of the node's own term raises a match index no further than the log, and then the rule
is run. -/
theorem reply (h : Ruled nd l calls) {j : Fin n} {args : AppendEntriesArgs}
    (hc : calls j = some args) (peerIdx : Int) (reply : AppendEntriesReply) :
    Ruled (nd.replicateReply peerIdx args reply).1 l calls := by
  rcases nd.replicateReply_cases peerIdx args reply with
    ⟨-, he⟩ | he | ⟨hlead, hterm, ⟨-, -, he⟩ | ⟨-, -, he⟩⟩
  · rw [he]
    exact h.retire (by simp [Node.becomeFollowerLocked]) (nd.becomeFollowerLocked_term _).1
  · rw [he]
    exact h
  · rw [he]
    have hsent := h.sent hlead j args hc hterm.symm
    have hmatched : ∀ p, p ≠ nd.id → ∀ N : Nat, 0 < N → nd.log.length ≤ N →
        (nd.matchPeer peerIdx (args.prevLogIndex + args.entries.length)).matchIndex p < N := by
      intro p hp N hN hle
      change Function.update nd.matchIndex peerIdx _ p < N
      by_cases hpeer : p = peerIdx
      · rw [hpeer, Function.update_self]
        omega
      · rw [Function.update_of_ne hpeer]
        exact h.matched hlead p hp N hN hle
    have hrule := Node.not_committable_tryAdvanceCommitIndexLocked
      (nd.matchPeer peerIdx (args.prevLogIndex + args.entries.length))
    rcases (nd.matchPeer peerIdx
      (args.prevLogIndex + args.entries.length)).tryAdvanceCommitIndexLocked_cases with
      ha | ⟨N, -, -, -, ha⟩
    · rw [ha] at hrule ⊢
      exact { h with matched := fun _ => hmatched, rule := fun _ => hrule }
    · rw [ha] at hrule ⊢
      exact { h with matched := fun _ => hmatched, rule := fun _ => hrule }
  · rw [he]
    exact { h with }

end Ruled

namespace Cluster

variable {c c' : Cluster n}

/-- The calls of the workers of `i`. -/
def calls (c : Cluster n) (i j : Fin n) : Option AppendEntriesArgs := (c.append i j).request

/-- Every node keeps the rule, and no node asks itself for its vote. -/
structure Ruling (c : Cluster n) : Prop where
  self : ∀ i, c.vote i i = .idle
  node : ∀ i, Ruled (c.node i) (c.loop i) (c.calls i)

namespace Ruling

theorem start (peers : List String) : Ruling (Cluster.start (n := n) peers) where
  self _ := rfl
  node _ :=
    { loop := fun h => (by cases h), term := fun _ _ h => (by cases h)
      stood := fun _ _ h => (by cases h), sent := fun h => (by cases h)
      matched := fun h => (by cases h), size := fun h => (by cases h)
      rule := fun h => (by cases h) }

/-- A step that only the node `i` and its goroutines take. -/
theorem change (h : Ruling c) {i : Fin n} (hself : ∀ k, c'.vote k k = .idle)
    (hnode : ∀ k, k ≠ i → c'.node k = c.node k) (hloop : ∀ k, k ≠ i → c'.loop k = c.loop k)
    (hcalls : ∀ k, k ≠ i → c'.calls k = c.calls k)
    (hi : Ruled (c'.node i) (c'.loop i) (c'.calls i)) : Ruling c' := by
  refine ⟨hself, fun k => ?_⟩
  by_cases hk : k = i
  · rw [hk]
    exact hi
  · rw [hnode k hk, hloop k hk, hcalls k hk]
    exact h.node k

theorem setLoop (h : Ruling c) {i : Fin n} {l : Loop} (hl : ∀ T v, l ≠ .counting T v)
    (hlead : (c.node i).state = .leader → l = .top ∨ l = .leader) : Ruling (c.setLoop i l) := by
  refine h.change (i := i) h.self (fun _ _ => rfl) (fun k hk => by simp [hk]) (fun _ _ => rfl) ?_
  rw [setLoop_same]
  exact (h.node i).setLoop hl hlead

theorem setNode (h : Ruling c) {i : Fin n} {nd : Node}
    (hi : Ruled nd (c.loop i) (c.calls i)) : Ruling (c.setNode i nd) := by
  refine h.change (i := i) h.self (fun k hk => by simp [hk]) (fun _ _ => rfl) (fun _ _ => rfl) ?_
  rw [setNode_same]
  exact hi

/-- What becomes of a call does not matter, except that a new one is one of its caller's. -/
theorem setAppend (h : Ruling c) {i j : Fin n} {a : AppendCall}
    (hi : Ruled (c.node i) (c.loop i) (Function.update (c.calls i) j a.request)) :
    Ruling (c.setAppend i j a) := by
  refine h.change (i := i) h.self (fun _ _ => rfl) (fun _ _ => rfl) (fun k hk => ?_) ?_
  · funext m
    rw [calls, setAppend_apply, if_neg (by simp [hk])]
    rfl
  · have hcalls : (c.setAppend i j a).calls i = Function.update (c.calls i) j a.request := by
      funext m
      rw [calls, setAppend_apply]
      by_cases hm : m = j
      · rw [if_pos ⟨rfl, hm⟩, hm, Function.update_self]
      · rw [if_neg (by simp [hm]), Function.update_of_ne hm]
        rfl
    rw [hcalls]
    exact hi

theorem answer (h : Ruling c) {i j : Fin n} {a : AppendCall} (ha : c.calls i j = a.request) :
    Ruling (c.setAppend i j a) := by
  refine h.setAppend ?_
  rw [← ha, Function.update_eq_self]
  exact h.node i

theorem endAppend (h : Ruling c) (i j : Fin n) : Ruling (c.setAppend i j .idle) := by
  refine h.setAppend ((h.node i).restrict fun k args hk => ?_)
  by_cases hkj : k = j
  · rw [hkj, Function.update_self] at hk
    cases hk
  · rwa [Function.update_of_ne hkj] at hk

theorem setVote (h : Ruling c) {i j : Fin n} {v : VoteCall} (hv : c.vote i j ≠ .idle) :
    Ruling (c.setVote i j v) := by
  refine ⟨fun k => ?_, h.node⟩
  rw [setVote_apply]
  split
  · next hk =>
    obtain ⟨rfl, rfl⟩ := hk
    exact absurd (h.self k) hv
  · exact h.self k

/-- A node that leaves the leader's state, or was not in it. -/
theorem retire (h : Ruling c) {i : Fin n} {nd : Node} (hstate : nd.state ≠ .leader)
    (hterm : (c.node i).currentTerm ≤ nd.currentTerm) : Ruling (c.setNode i nd) :=
  h.setNode ((h.node i).retire hstate hterm)

theorem stand (h : Ruling c) {i : Fin n} {nd : Node} {args : RequestVoteArgs}
    (hl : c.loop i = .candidate) (hs : (c.node i).startElection = some (nd, args)) :
    Ruling { (c.setNode i nd).setLoop i (.counting args.term 1) with
      vote := Function.update c.vote i (newVotes i args)
      lateVotes := c.lateVotes ++ c.unsentVotes i } := by
  refine h.change (i := i) (fun k => ?_) (fun k hk => by simp [hk]) (fun k hk => by simp [hk])
    (fun _ _ => rfl) ?_
  · change Function.update c.vote i (newVotes i args) k k = .idle
    by_cases hk : k = i
    · rw [hk, Function.update_self, newVotes, if_pos rfl]
    · rw [Function.update_of_ne hk]
      exact h.self k
  · simp only [setLoop_node, setNode_same, setLoop_same]
    exact (h.node i).stand hl hs

theorem handleVote (h : Ruling c) {j : Fin n} {args : RequestVoteArgs} {nd : Node}
    {reply : RequestVoteReply} (hh : (c.node j).handleRequestVote args = some (nd, reply)) :
    Ruling (c.setNode j nd) := by
  have hobs : ∀ x, Ruled { (c.node j).observe args.term with votedFor := x } (c.loop j)
      (c.calls j) := by
    intro x
    unfold Node.observe
    split
    · exact (h.node j).retire (by simp [Node.becomeFollowerLocked])
        ((c.node j).becomeFollowerLocked_term _).1
    · exact { h.node j with }
  rcases Node.handleRequestVote_cases hh with ⟨rfl, -⟩ | ⟨-, ⟨rfl, -⟩ | ⟨rfl, -⟩⟩
  · rw [setNode_self]
    exact h
  · exact h.setNode (hobs _)
  · exact h.setNode (hobs _)

theorem handleAppend (h : Ruling c) {j : Fin n} {args : AppendEntriesArgs} {nd : Node}
    {reply : AppendEntriesReply} (hh : (c.node j).handleAppendEntries args = some (nd, reply)) :
    Ruling (c.setNode j nd) := by
  have hterm := ((c.node j).becomeFollowerLocked_term args.term).1
  rcases Node.handleAppendEntries_cases hh with ⟨-, rfl, -⟩ | ⟨-, ⟨rfl, -⟩ | ⟨log, -, rfl, -⟩⟩
  · rw [setNode_self]
    exact h
  · exact h.retire (by simp [Node.follow, Node.becomeFollowerLocked]) hterm
  · exact h.retire (by simp [Node.follow, Node.becomeFollowerLocked]) hterm

/-- A candidate wins with the reply of another node, so there are at least two. -/
theorem win (h : Ruling c) (hcount : Counted c) {i j : Fin n} {T v : Int} {r : RequestVoteReply}
    (hl : c.loop i = .counting T v) (hv : c.vote i j = .answered r)
    (hterm : (c.node i).currentTerm = T) :
    Ruling (((c.setNode i (c.node i).becomeLeaderLocked).setVote i j (.counted r)).setLoop i
      .top) := by
  have hij : i ≠ j := by
    rintro rfl
    rw [h.self i] at hv
    cases hv
  have hpeers : 2 ≤ (c.node i).peers.length := by
    rw [hcount.peers i]
    have hne : (i : Nat) ≠ j := fun heq => hij (Fin.ext heq)
    omega
  have hvoted : Ruling (c.setVote i j (.counted r)) := h.setVote (by simp [hv])
  refine hvoted.change (i := i) hvoted.self (fun k hk => by simp [hk]) (fun k hk => by simp [hk])
    (fun _ _ => rfl) ?_
  simp only [setLoop_node, setVote_node, setNode_same, setLoop_same]
  exact (h.node i).win hl hterm hpeers

theorem step (h : Ruling c) (hcount : Counted c) {a : Action n} (hstep : c.step a = some c') :
    Ruling c' := by
  cases Step.of_step hstep with
  | readState => exact h.setLoop (loopOf_ne _) fun hs => by simp [hs, loopOf]
  | wakeFollower => exact h.setLoop (by simp) fun _ => Or.inl rfl
  | @electionTimeout i =>
    have hretired : Ruling (c.setNode i (c.node i).electionTimeout) :=
      h.retire (by simp [Node.electionTimeout]) le_rfl
    exact hretired.setLoop (by simp) fun _ => Or.inl rfl
  | startElection hl hs => exact h.stand hl hs
  | @stepDown i j T v r _ hv =>
    have hretired : Ruling (c.setNode i ((c.node i).becomeFollowerLocked r.term)) :=
      h.retire (by simp [Node.becomeFollowerLocked]) ((c.node i).becomeFollowerLocked_term _).1
    have hvoted := hretired.setVote (v := .counted r) (show c.vote i j ≠ .idle by simp [hv])
    exact hvoted.setLoop (by simp) fun _ => Or.inl rfl
  | win hl hv _ _ hterm => exact h.win hcount hl hv hterm
  | @tally i j T v r hl hv =>
    have hvoted := h.setVote (v := .counted r) (show c.vote i j ≠ .idle by simp [hv])
    refine hvoted.change (i := i) hvoted.self (fun _ _ => rfl) (fun k hk => by simp [hk])
      (fun _ _ => rfl) ?_
    rw [setLoop_same]
    have hi := h.node i
    rw [hl] at hi
    exact hi.recount _
  | abandonElection => exact h.setLoop (by simp) fun _ => Or.inl rfl
  | leaderStays => exact h
  | leaderReturns => exact h.setLoop (by simp) fun _ => Or.inl rfl
  | deliverVote hv hh => exact (h.handleVote hh).setVote (by simp [hv])
  | deliverLateVote _ hh => exact { h.handleVote hh with }
  | submit hs => exact h.setNode ((h.node _).submit hs)
  | replicate _ ha => exact h.setAppend ((h.node _).call ha _)
  | @deliverAppend i j args nd reply ha hh =>
    refine (h.handleAppend hh).answer ?_
    rw [calls, setNode_append, ha]
    rfl
  | deliverLateAppend _ hh => exact { h.handleAppend hh with }
  | @finishAppend i j args reply ha =>
    have hcall : c.calls i j = some args := by
      rw [calls, ha]
      rfl
    exact (h.setNode ((h.node i).reply hcall j reply)).endAppend i j
  | loseRequest => exact { h.endAppend _ _ with }
  | loseReply => exact h.endAppend _ _
  | @apply i _ _ ha =>
    obtain ⟨-, rfl, -⟩ := Node.applyNext_cases ha
    have hset : Ruling (c.setNode i { c.node i with lastApplied := (c.node i).lastApplied + 1 }) :=
      h.setNode { h.node i with }
    exact { hset with }

theorem of_reachable (h : (cluster n).Reachable c) : Counted c ∧ Ruling c := by
  refine h.invariant (P := fun c => Counted c ∧ Ruling c) (fun s hi => ?_) fun s a s' hs hstep =>
    ⟨hs.1.step hstep, hs.2.step hs.1 hstep⟩
  obtain ⟨peers, hp, rfl⟩ := hi
  exact ⟨Counted.start peers hp, start peers⟩

end Ruling

end Cluster

/-- The commit rule is exact: a run of it moves the commit index to the greatest position that an
entry of the current term holds and that more than half of the nodes have, counting the leader
itself, and leaves it if there is none; so at no moment of a run is there such a position past the
commit index of a leader. -/
theorem commit_rule :
    (∀ nd : Node,
      (∃ N, nd.Committable N ∧ (∀ M, nd.Committable M → M ≤ N) ∧
        nd.tryAdvanceCommitIndexLocked = { nd with commitIndex := N }) ∨
      (∀ M, ¬ nd.Committable M) ∧ nd.tryAdvanceCommitIndexLocked = nd) ∧
    ∀ (n : Nat) (c : Cluster n), (cluster n).Reachable c → ∀ i, (c.node i).state = .leader →
      ∀ N, (c.node i).commitIndex < N →
        (c.node i).log[N]?.map LogEntry.term = some (c.node i).currentTerm →
        (c.node i).replicationCount N ≤ n / 2 := by
  refine ⟨Node.tryAdvanceCommitIndexLocked_greatest, fun n c hc i hlead N hlt hterm => ?_⟩
  obtain ⟨hcount, hrule⟩ := Cluster.Ruling.of_reachable hc
  refine not_lt.mp fun hmany => (hrule.node i).rule hlead N ⟨hlt, hterm, ?_⟩
  rwa [hcount.peers i]

/-- The leader of `oneCommand` has submitted, and no reply has arrived. -/
theorem commit_rule_submitted :
    ∃ c, (cluster 3).exec (Cluster.start ["a", "b", "c"]) (oneCommand.take 9) = some c ∧
      (c.node 0).state = .leader ∧ (c.node 0).commitIndex < 1 ∧
      (c.node 0).log[1]?.map LogEntry.term = some (c.node 0).currentTerm ∧
      (c.node 0).replicationCount 1 ≤ 3 / 2 := by
  have hrun : ((cluster 3).exec (Cluster.start ["a", "b", "c"]) (oneCommand.take 9)).map
      (fun c => ((c.node 0).state, (c.node 0).commitIndex, (c.node 0).currentTerm,
        (c.node 0).log[1]?.map LogEntry.term)) = some (.leader, 0, 1, some 1) := by decide +kernel
  obtain ⟨c, hc, hnode⟩ := Option.map_eq_some_iff.mp hrun
  simp only [Prod.mk.injEq] at hnode
  obtain ⟨hlead, hcommit, hterm, hlog⟩ := hnode
  have hlt : (c.node 0).commitIndex < 1 := by rw [hcommit]; exact Nat.one_pos
  have hat : (c.node 0).log[1]?.map LogEntry.term = some (c.node 0).currentTerm := by
    rw [hlog, hterm]
  exact ⟨c, hc, hlead, hlt, hat,
    commit_rule.2 3 c ⟨_, _, ⟨["a", "b", "c"], rfl, rfl⟩, hc⟩ 0 hlead 1 hlt hat⟩

end KvRaft.Raft
