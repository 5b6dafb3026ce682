import KvRaft.Raft.Safety

/-! One vote per term. `becomeFollowerLocked` clears the vote also when it does not raise the term:
on a heartbeat of the node's own term, and on a vote reply whose term is above that of the candidacy
but not above the node's. A node then votes a second time in the term if another candidate can still
ask it. -/

namespace KvRaft.Raft

variable {n : Nat}

namespace Cluster

/-- The requests for the vote of `p` that may still arrive. -/
def requests (c : Cluster n) (p : Fin n) : List RequestVoteArgs :=
  ((List.finRange n).filterMap fun i =>
    match c.vote i p with
    | .sent args => some args
    | _ => none) ++
  c.lateVotes.filterMap fun (j, args) => if j = p then some args else none

/-- The voter, the term and the candidate of a granted request. -/
def grant (j : Fin n) (args : RequestVoteArgs) :
    Option (Node × RequestVoteReply) → Option (Fin n × Int × Int)
  | some (_, reply) =>
    if reply.voteGranted then some (j, args.term, args.candidateId) else none
  | none => none

/-- The vote that a step gives: a granted request, or the candidate's vote for itself. -/
def ballot (c : Cluster n) : Action n → Option (Fin n × Int × Int)
  | .startElection i =>
    if c.loop i = .candidate then
      (c.node i).startElection.map fun (nd, args) => (i, args.term, nd.votedFor)
    else none
  | .deliverVote i j =>
    match c.vote i j with
    | .sent args => grant j args ((c.node j).handleRequestVote args)
    | _ => none
  | .deliverLateVote k => do
    let (j, args) ← c.lateVotes[k]?
    grant j args ((c.node j).handleRequestVote args)
  | _ => none

/-- The node that clears its vote in a step without raising its term. -/
def forgets (c : Cluster n) : Action n → Option (Fin n)
  | .countVote i j =>
    match c.loop i, c.vote i j with
    | .counting term _, .answered r =>
      if r.term > term ∧ r.term ≤ (c.node i).currentTerm then some i else none
    | _, _ => none
  | .deliverAppend i j =>
    match c.append i j with
    | .sent args => if args.term = (c.node j).currentTerm then some j else none
    | _ => none
  | .deliverLateAppend k => do
    let (j, args) ← c.lateAppends[k]?
    if args.term = (c.node j).currentTerm then some j else none
  | _ => none

/-- No candidate but `x` can still ask `p` for its vote in the term of `p`: every request on its way
is one of `x`, and no node is in an earlier term, from which it could stand for this one. -/
def Unopposed (c : Cluster n) (p : Fin n) (x : Int) : Prop :=
  (∀ args ∈ c.requests p, args.term = (c.node p).currentTerm → args.candidateId = x) ∧
    ∀ q, (c.node p).currentTerm ≤ (c.node q).currentTerm

instance (c : Cluster n) (p : Fin n) (x : Int) : Decidable (c.Unopposed p x) :=
  inferInstanceAs (Decidable (_ ∧ _))

/-- A vote is cleared within its term only when nobody else can ask for it any more. -/
def Harmless (c : Cluster n) (a : Action n) : Prop :=
  ∀ p, c.forgets a = some p → (c.node p).votedFor ≠ -1 → c.Unopposed p (c.node p).votedFor

instance (c : Cluster n) (a : Action n) : Decidable (c.Harmless a) :=
  inferInstanceAs (Decidable (∀ _, _))

theorem mem_requests {c : Cluster n} {p : Fin n} {args : RequestVoteArgs} :
    args ∈ c.requests p ↔ (∃ i, c.vote i p = .sent args) ∨ (p, args) ∈ c.lateVotes := by
  rw [requests, List.mem_append]
  refine or_congr ⟨fun h => ?_, fun ⟨i, hi⟩ => ?_⟩ ⟨fun h => ?_, fun h => ?_⟩
  · obtain ⟨i, -, hi⟩ := List.mem_filterMap.mp h
    split at hi
    · next args' hs => exact ⟨i, hs.trans (congrArg _ (Option.some.inj hi))⟩
    · cases hi
  · exact List.mem_filterMap.mpr ⟨i, List.mem_finRange i, by rw [hi]⟩
  · obtain ⟨⟨j, args'⟩, hmem, hj⟩ := List.mem_filterMap.mp h
    simp only [Option.ite_none_right_eq_some, Option.some.injEq] at hj
    rw [← hj.1, ← hj.2]
    exact hmem
  · exact List.mem_filterMap.mpr ⟨(p, args), h, if_pos rfl⟩

/-- A call that is answered or counted is no longer on its way. -/
theorem mem_requests_setVote {c c' : Cluster n} {i j p : Fin n} {v : VoteCall}
    {args : RequestVoteArgs} (hvote : c'.vote = (c.setVote i j v).vote)
    (hlate : c'.lateVotes = c.lateVotes) (hv : ∀ args, v ≠ .sent args)
    (h : args ∈ c'.requests p) : args ∈ c.requests p := by
  rcases mem_requests.mp h with ⟨k, hk⟩ | hl
  · rw [hvote, setVote_apply] at hk
    split at hk
    · exact absurd hk (hv args)
    · exact mem_requests.mpr (Or.inl ⟨k, hk⟩)
  · exact mem_requests.mpr (Or.inr (hlate ▸ hl))

theorem mem_requests_eraseIdx {c : Cluster n} {k : Nat} {p : Fin n} {args : RequestVoteArgs}
    (h : args ∈ Cluster.requests { c with lateVotes := c.lateVotes.eraseIdx k } p) :
    args ∈ c.requests p :=
  mem_requests.mpr ((mem_requests.mp h).imp_right List.mem_of_mem_eraseIdx)

theorem Unopposed.mono {c c' : Cluster n} {p : Fin n} {x : Int} (h : c.Unopposed p x)
    (hp : (c'.node p).currentTerm = (c.node p).currentTerm)
    (hterm : ∀ q, (c.node q).currentTerm ≤ (c'.node q).currentTerm)
    (hreq : ∀ args ∈ c'.requests p,
      args ∈ c.requests p ∨ ∃ i, (c.node i).currentTerm < args.term) : c'.Unopposed p x := by
  refine ⟨fun args ha ht => ?_, fun q => hp ▸ (h.2 q).trans (hterm q)⟩
  rw [hp] at ht
  rcases hreq args ha with hold | ⟨i, hi⟩
  · exact h.1 args hold ht
  · have := h.2 i
    omega

end Cluster

/-- No node has voted for two candidates of one term. -/
def SingleVotes (cast : List (Fin n × Int × Int)) : Prop :=
  ∀ p T x y, (p, T, x) ∈ cast → (p, T, y) ∈ cast → x = y

/-- The votes cast so far: a vote of the node's own term is the one it remembers, or it is forgotten
and nobody else can ask for it. -/
structure Ballots (cast : List (Fin n × Int × Int)) (c : Cluster n) : Prop where
  id : ∀ i, (c.node i).id = i
  candidate : ∀ p T x, (p, T, x) ∈ cast → 0 ≤ x
  request : ∀ p, ∀ args ∈ c.requests p, 0 ≤ args.candidateId
  term_le : ∀ p T x, (p, T, x) ∈ cast → T ≤ (c.node p).currentTerm
  single : SingleVotes cast
  current : ∀ p x, (p, (c.node p).currentTerm, x) ∈ cast →
    (c.node p).votedFor = x ∨ (c.node p).votedFor = -1 ∧ c.Unopposed p x

namespace Ballots

variable {cast : List (Fin n × Int × Int)} {c c' : Cluster n}

theorem start (peers : List String) : Ballots [] (Cluster.start (n := n) peers) where
  id _ := rfl
  candidate _ _ _ h := by simp at h
  request p args h := by
    rcases Cluster.mem_requests.mp h with ⟨i, hi⟩ | hlate
    · simp [Cluster.start] at hi
    · simp [Cluster.start] at hlate
  term_le _ _ _ h := by simp at h
  single _ _ _ _ h := by simp at h
  current _ _ h := by simp at h

/-- No vote is given: terms only grow, new requests are for new terms, and a vote of an unchanged
term is kept or safely forgotten. -/
theorem change (h : Ballots cast c) (hid : ∀ p, (c'.node p).id = (c.node p).id)
    (hterm : ∀ p, (c.node p).currentTerm ≤ (c'.node p).currentTerm)
    (hreq : ∀ p, ∀ args ∈ c'.requests p, args ∈ c.requests p ∨
      0 ≤ args.candidateId ∧ ∃ i, (c.node i).currentTerm < args.term)
    (hvote : ∀ p x, (c'.node p).currentTerm = (c.node p).currentTerm →
      (p, (c.node p).currentTerm, x) ∈ cast →
      (c'.node p).votedFor = x ∨ (c'.node p).votedFor = -1 ∧ c.Unopposed p x) :
    Ballots cast c' where
  id i := (hid i).trans (h.id i)
  candidate := h.candidate
  request p args ha := (hreq p args ha).elim (h.request p args) And.left
  term_le p T x hx := (h.term_le p T x hx).trans (hterm p)
  single := h.single
  current p x hx := by
    have hp : (c'.node p).currentTerm = (c.node p).currentTerm :=
      le_antisymm (h.term_le p _ x hx) (hterm p)
    rw [hp] at hx
    refine (hvote p x hp hx).imp_right fun ⟨hv, ho⟩ => ⟨hv, ho.mono hp hterm fun args ha => ?_⟩
    exact (hreq p args ha).imp_right And.right

/-- Only goroutines change, and requests arrive or are lost. -/
theorem frame (h : Ballots cast c) (hnode : c'.node = c.node)
    (hreq : ∀ p, ∀ args ∈ c'.requests p, args ∈ c.requests p) : Ballots cast c' := by
  refine h.change (fun p => by rw [hnode]) (fun p => by rw [hnode])
    (fun p args ha => Or.inl (hreq p args ha)) fun p x _ hx => ?_
  rw [hnode]
  exact h.current p x hx

theorem setNode (h : Ballots cast c) {p : Fin n} {nd : Node} (hid : nd.id = (c.node p).id)
    (hterm : (c.node p).currentTerm ≤ nd.currentTerm)
    (hvote : nd.currentTerm = (c.node p).currentTerm → ∀ x,
      (p, (c.node p).currentTerm, x) ∈ cast →
      nd.votedFor = x ∨ nd.votedFor = -1 ∧ c.Unopposed p x) : Ballots cast (c.setNode p nd) := by
  refine h.change (fun q => ?_) (fun q => ?_) (fun q args ha => Or.inl ha) fun q x hq hx => ?_
  · by_cases hqp : q = p
    · rw [hqp, Cluster.setNode_same, hid]
    · rw [Cluster.setNode_ne _ _ _ hqp]
  · by_cases hqp : q = p
    · rw [hqp, Cluster.setNode_same]
      exact hterm
    · rw [Cluster.setNode_ne _ _ _ hqp]
  · by_cases hqp : q = p
    · subst hqp
      rw [Cluster.setNode_same] at hq ⊢
      exact hvote hq x hx
    · rw [Cluster.setNode_ne _ _ _ hqp]
      exact h.current q x hx

/-- The node keeps its term and its vote. -/
theorem keep (h : Ballots cast c) {p : Fin n} {nd : Node} (hid : nd.id = (c.node p).id)
    (hterm : nd.currentTerm = (c.node p).currentTerm)
    (hvote : nd.votedFor = (c.node p).votedFor) : Ballots cast (c.setNode p nd) := by
  refine h.setNode hid hterm.ge fun _ x hx => ?_
  rw [hvote]
  exact h.current p x hx

theorem becomeFollower (h : Ballots cast c) {p : Fin n} (term : Int) {nd : Node}
    (hguard : term ≤ (c.node p).currentTerm → (c.node p).votedFor ≠ -1 →
      c.Unopposed p (c.node p).votedFor)
    (hid : nd.id = (c.node p).id) (hfor : nd.votedFor = -1)
    (hterm : nd.currentTerm = ((c.node p).becomeFollowerLocked term).currentTerm) :
    Ballots cast (c.setNode p nd) := by
  obtain ⟨hle, hle', -⟩ := (c.node p).becomeFollowerLocked_term term
  refine h.setNode hid (hterm ▸ hle) fun hsame x hx => Or.inr ⟨hfor, ?_⟩
  rcases h.current p x hx with hv | ⟨-, ho⟩
  · have hpos := h.candidate p _ x hx
    rw [← hv]
    exact hguard (by omega) (by omega)
  · exact ho

/-- A vote is given: it is the one the node remembers, and the only one of the term. -/
theorem vote (h : Ballots cast c) {p : Fin n} {T x : Int} (hx : 0 ≤ x)
    (hterm : (c.node p).currentTerm = T) (hfor : (c.node p).votedFor = x)
    (honly : ∀ y, (p, T, y) ∈ cast → y = x) : Ballots (cast ++ [(p, T, x)]) c where
  id := h.id
  request := h.request
  candidate q T' y hy := by
    rcases List.mem_append.mp hy with hy | hy
    · exact h.candidate q T' y hy
    · simp only [List.mem_singleton, Prod.mk.injEq] at hy
      rwa [hy.2.2]
  term_le q T' y hy := by
    rcases List.mem_append.mp hy with hy | hy
    · exact h.term_le q T' y hy
    · simp only [List.mem_singleton, Prod.mk.injEq] at hy
      rw [hy.1, hy.2.1, hterm]
  single q T' y z hy hz := by
    simp only [List.mem_append, List.mem_singleton, Prod.mk.injEq] at hy hz
    rcases hy with hy | ⟨rfl, rfl, rfl⟩
    · rcases hz with hz | ⟨rfl, rfl, rfl⟩
      · exact h.single q T' y z hy hz
      · exact honly y hy
    · rcases hz with hz | ⟨-, -, rfl⟩
      · exact (honly z hz).symm
      · rfl
  current q y hy := by
    simp only [List.mem_append, List.mem_singleton, Prod.mk.injEq] at hy
    rcases hy with hy | ⟨rfl, -, rfl⟩
    · exact h.current q y hy
    · exact Or.inl hfor

theorem handleVote (h : Ballots cast c) {j : Fin n} {args : RequestVoteArgs} {nd : Node}
    {reply : RequestVoteReply} (hreq : args ∈ c.requests j)
    (hh : (c.node j).handleRequestVote args = some (nd, reply)) :
    Ballots (cast ++ (Cluster.grant j args (some (nd, reply))).toList) (c.setNode j nd) := by
  have hobs : Ballots cast (c.setNode j ((c.node j).observe args.term)) := by
    unfold Node.observe
    split
    · exact h.becomeFollower args.term (fun hle => by omega) rfl rfl rfl
    · rw [Cluster.setNode_self]
      exact h
  rcases Node.handleRequestVote_cases hh with ⟨rfl, hr⟩ | ⟨hle, ⟨rfl, hr⟩ | ⟨rfl, hr, hfor, -⟩⟩
  · simpa [Cluster.grant, hr, Cluster.setNode_self] using h
  · simpa [Cluster.grant, hr] using hobs
  · have honly : ∀ y, (j, args.term, y) ∈ cast → y = args.candidateId := by
      intro y hy
      have hT : (c.node j).currentTerm = args.term := le_antisymm hle (h.term_le j _ y hy)
      rw [Node.observe, if_neg (by omega)] at hfor
      rw [← hT] at hy
      have hpos := h.candidate j _ y hy
      rcases h.current j y hy with hv | ⟨-, ho⟩
      · rw [hv] at hfor
        omega
      · exact (ho.1 args hreq hT.symm).symm
    have hterm : ((c.node j).observe args.term).currentTerm = args.term := by
      unfold Node.observe
      split
      · exact Node.becomeFollowerLocked_of_le hle
      · omega
    have hset : Ballots cast (c.setNode j
        { (c.node j).observe args.term with votedFor := args.candidateId }) := by
      refine h.setNode ?_ (hle.trans hterm.ge) fun hsame x hx => Or.inl ?_
      · unfold Node.observe
        split <;> rfl
      · refine (honly x ?_).symm
        rwa [← hterm, hsame]
    have hgrant : Cluster.grant j args (some ({ (c.node j).observe args.term with
        votedFor := args.candidateId }, reply)) = some (j, args.term, args.candidateId) := by
      simp [Cluster.grant, hr]
    rw [hgrant]
    exact hset.vote (h.request j args hreq) (by simpa using hterm) (by simp) honly

theorem handleAppend (h : Ballots cast c) {j : Fin n} {args : AppendEntriesArgs} {nd : Node}
    {reply : AppendEntriesReply} (hguard : args.term = (c.node j).currentTerm →
      (c.node j).votedFor ≠ -1 → c.Unopposed j (c.node j).votedFor)
    (hh : (c.node j).handleAppendEntries args = some (nd, reply)) :
    Ballots cast (c.setNode j nd) := by
  rcases Node.handleAppendEntries_cases hh with ⟨-, rfl, -⟩ | ⟨hle, ⟨rfl, -⟩ | ⟨log, -, rfl, -⟩⟩
  · rw [Cluster.setNode_self]
    exact h
  · exact h.becomeFollower args.term (fun hge => hguard (by omega)) rfl rfl rfl
  · exact h.becomeFollower args.term (fun hge => hguard (by omega)) rfl rfl rfl

theorem handleReply (h : Ballots cast c) (i : Fin n) (peer : Int) (args : AppendEntriesArgs)
    (reply : AppendEntriesReply) :
    Ballots cast (c.setNode i ((c.node i).replicateReply peer args reply).1) := by
  rcases (c.node i).replicateReply_cases peer args reply with
    ⟨hlt, he⟩ | he | ⟨hlead, -, ⟨-, -, he⟩ | ⟨-, -, he⟩⟩
  · rw [he]
    exact h.becomeFollower reply.term (fun hle => by omega) rfl rfl rfl
  · rw [he, Cluster.setNode_self]
    exact h
  · rw [he]
    rcases Node.tryAdvanceCommitIndexLocked_cases ((c.node i).matchPeer peer
      (args.prevLogIndex + args.entries.length)) with ha | ⟨N, -, -, -, ha⟩
    · rw [ha]
      exact h.keep rfl rfl rfl
    · rw [ha]
      exact h.keep rfl rfl rfl
  · rw [he]
    exact h.keep rfl rfl rfl

theorem stand (h : Ballots cast c) {i : Fin n} {nd : Node} {args : RequestVoteArgs}
    (hs : (c.node i).startElection = some (nd, args)) :
    Ballots (cast ++ [(i, args.term, nd.votedFor)])
      { (c.setNode i nd).setLoop i (.counting args.term 1) with
        vote := Function.update c.vote i (Cluster.newVotes i args)
        lateVotes := c.lateVotes ++ c.unsentVotes i } := by
  obtain ⟨-, rfl, rfl⟩ := Node.startElection_cases hs
  have hpos : 0 ≤ (c.node i).id := by
    rw [h.id i]
    omega
  refine vote (h.change (fun p => ?_) (fun p => ?_) (fun p args ha => ?_) fun p x hp hx => ?_) hpos
    (by simp) (by simp) fun y hy => ?_
  · by_cases hp : p = i
    · subst hp
      simp
    · simp [hp]
  · by_cases hp : p = i
    · subst hp
      simp
    · simp [hp]
  · rcases Cluster.mem_requests.mp ha with ⟨k, hk⟩ | hlate
    · by_cases hki : k = i
      · subst hki
        simp only [Function.update_self, Cluster.newVotes] at hk
        split at hk
        · cases hk
        · obtain rfl := VoteCall.sent.inj hk
          exact Or.inr ⟨hpos, k, Int.lt_succ _⟩
      · refine Or.inl (Cluster.mem_requests.mpr (Or.inl ⟨k, ?_⟩))
        simpa [hki] using hk
    · refine Or.inl (Cluster.mem_requests.mpr ?_)
      rcases List.mem_append.mp hlate with hold | hnew
      · exact Or.inr hold
      · exact Or.inl ⟨i, Votes.mem_unsentVotes hnew⟩
  · by_cases hpi : p = i
    · subst hpi
      simp at hp
    · simpa [hpi] using h.current p x hx
  · exact absurd (h.term_le i _ y hy) (not_le.mpr (Int.lt_succ _))

theorem silent {b : Option (Fin n × Int × Int)} (hb : b = none) (h : Ballots cast c) :
    Ballots (cast ++ b.toList) c := by
  rw [hb]
  simpa using h

theorem step (h : Ballots cast c) {a : Action n} (hguard : c.Harmless a)
    (hstep : c.step a = some c') : Ballots (cast ++ (c.ballot a).toList) c' := by
  have hreq : ∀ p, ∀ args ∈ c.requests p, args ∈ c.requests p := fun _ _ ha => ha
  cases Cluster.Step.of_step hstep with
  | readState => exact silent rfl (h.frame rfl hreq)
  | wakeFollower => exact silent rfl (h.frame rfl hreq)
  | @electionTimeout i =>
    have hk : Ballots cast (c.setNode i (c.node i).electionTimeout) := h.keep rfl rfl rfl
    exact silent rfl (hk.frame rfl hreq)
  | @startElection i nd args hl hs =>
    have hb : c.ballot (.startElection i) = some (i, args.term, nd.votedFor) := by
      simp [Cluster.ballot, hl, hs]
    rw [hb]
    exact h.stand hs
  | @stepDown i j T v r hl hv ht =>
    have hk : Ballots cast (c.setNode i ((c.node i).becomeFollowerLocked r.term)) :=
      h.becomeFollower r.term (fun hle => hguard i (by simp [Cluster.forgets, hl, hv, ht, hle]))
        rfl rfl rfl
    exact silent rfl (hk.frame rfl fun _ _ => Cluster.mem_requests_setVote rfl rfl (by simp))
  | @win i =>
    have hk : Ballots cast (c.setNode i (c.node i).becomeLeaderLocked) := h.keep rfl rfl rfl
    exact silent rfl (hk.frame rfl fun _ _ => Cluster.mem_requests_setVote rfl rfl (by simp))
  | tally =>
    exact silent rfl (h.frame rfl fun _ _ => Cluster.mem_requests_setVote rfl rfl (by simp))
  | abandonElection => exact silent rfl (h.frame rfl hreq)
  | leaderStays => exact silent rfl h
  | leaderReturns => exact silent rfl (h.frame rfl hreq)
  | @deliverVote i j args nd reply hv hh =>
    have hb : c.ballot (.deliverVote i j) = Cluster.grant j args (some (nd, reply)) := by
      simp only [Cluster.ballot, hv, hh]
    rw [hb]
    exact (h.handleVote (Cluster.mem_requests.mpr (Or.inl ⟨i, hv⟩)) hh).frame rfl
      fun _ _ => Cluster.mem_requests_setVote rfl rfl (by simp)
  | @deliverLateVote k j args nd reply hv hh =>
    have hb : c.ballot (.deliverLateVote k) = Cluster.grant j args (some (nd, reply)) := by
      simp [Cluster.ballot, hv, hh]
    rw [hb]
    exact (h.handleVote (Cluster.mem_requests.mpr (Or.inr (List.mem_of_getElem? hv))) hh).frame rfl
      fun _ _ => Cluster.mem_requests_eraseIdx (c := c.setNode j nd)
  | submit hs =>
    obtain ⟨-, -, -, rfl⟩ := Node.submit_cases hs
    exact silent rfl (h.keep rfl rfl rfl)
  | replicate => exact silent rfl (h.frame rfl hreq)
  | @deliverAppend i j args nd reply ha hh =>
    have hk := h.handleAppend (fun ht => hguard j (by simp [Cluster.forgets, ha, ht])) hh
    exact silent rfl (hk.frame rfl hreq)
  | @deliverLateAppend k j args nd reply ha hh =>
    have hk := h.handleAppend (fun ht => hguard j (by simp [Cluster.forgets, ha, ht])) hh
    exact silent rfl (hk.frame rfl hreq)
  | @finishAppend i j args reply =>
    exact silent rfl ((h.handleReply i j args reply).frame rfl hreq)
  | loseRequest => exact silent rfl (h.frame rfl hreq)
  | loseReply => exact silent rfl (h.frame rfl hreq)
  | @apply i _ _ ha =>
    obtain ⟨-, rfl, -⟩ := Node.applyNext_cases ha
    have hk : Ballots cast (c.setNode i
        { c.node i with lastApplied := (c.node i).lastApplied + 1 }) := h.keep rfl rfl rfl
    exact silent rfl (hk.frame rfl hreq)

end Ballots

namespace Sound

variable {g : Ghost n} {c c' : Cluster n}

/-- Up to three nodes, the history has every vote that is given. -/
theorem step_ballot (hn : n ≤ 3) (h : Sound g c) {a : Action n} (hstep : c.step a = some c') :
    ∃ g', g ≤ g' ∧ Sound g' c' ∧ ∀ p T x, c.ballot a = some (p, T, x) →
      ∃ q : Fin n, x = q ∧ g'.voted p T q := by
  have hquiet : c.ballot a = none → ∃ g', g ≤ g' ∧ Sound g' c' ∧
      ∀ p T x, c.ballot a = some (p, T, x) → ∃ q : Fin n, x = q ∧ g'.voted p T q := by
    intro hb
    obtain ⟨g', hg, hs⟩ := h.step hn hstep
    exact ⟨g', hg, hs, fun p T x hx => nomatch hb.symm.trans hx⟩
  have hgrant : ∀ {g' : Ghost n} {j : Fin n} {args : RequestVoteArgs} {nd : Node}
      {reply : RequestVoteReply}, (reply.voteGranted = true →
        ∃ q : Fin n, args.candidateId = q ∧ g'.voted j args.term q) →
      ∀ p T x, Cluster.grant j args (some (nd, reply)) = some (p, T, x) →
        ∃ q : Fin n, x = q ∧ g'.voted p T q := by
    intro g' j args nd reply hvoted p T x hx
    simp only [Cluster.grant, Option.ite_none_right_eq_some, Option.some.injEq,
      Prod.mk.injEq] at hx
    obtain ⟨hr, rfl, rfl, rfl⟩ := hx
    exact hvoted hr
  cases Cluster.Step.of_step hstep with
  | @startElection i nd args hl hs =>
    refine ⟨_, g.le_vote _ _ _, h.stand hl hs, fun p T x hx => ?_⟩
    simp only [Cluster.ballot, hl, hs, if_true, Option.map_some, Option.some.injEq,
      Prod.mk.injEq] at hx
    obtain ⟨rfl, rfl, rfl⟩ := hx
    obtain ⟨-, rfl, -⟩ := Node.startElection_cases hs
    exact ⟨i, h.votes.id i, Or.inr ⟨rfl, rfl, rfl⟩⟩
  | deliverVote hv hh =>
    obtain ⟨g', hg, hs, hvoted⟩ := h.deliverVote hv hh
    refine ⟨g', hg, hs, ?_⟩
    simp only [Cluster.ballot, hv, hh]
    exact hgrant hvoted
  | deliverLateVote hv hh =>
    obtain ⟨g', hg, hs, hvoted⟩ := h.deliverLateVote hv hh
    refine ⟨g', hg, hs, ?_⟩
    simp only [Cluster.ballot, hv, hh, Option.bind_eq_bind, Option.bind_some]
    exact hgrant hvoted
  | _ => exact hquiet rfl

/-- Of two nodes, one that has stood in a term votes for nobody else in it. -/
theorem voted_unique (hn : n ≤ 2) (h : Sound g c) {p x y : Fin n} {T : Int}
    (hx : g.voted p T x) (hy : g.voted p T y) : x = y := by
  have hself : ∀ z, g.voted p T p → g.voted p T z → z = p := by
    intro z hp hz
    cases ho : g.owner T with
    | none => exact h.votes.solo p T hp ho z hz
    | some o =>
      rw [h.votes.owner_solo T o ho z (h.votes.voted_self p T z hz),
        h.votes.owner_solo T o ho p hp]
  by_contra hne
  rcases (show p = x ∨ p = y by omega) with rfl | rfl
  · exact hne (hself y hx hy).symm
  · exact hne (hself x hy hx)

end Sound

/-- The history has all votes that a run of at most three nodes gives. -/
theorem Sound.of_reads (hn : n ≤ 3) {s c : Cluster n} {as : List (Action n)} {g : Ghost n}
    (hs : Sound g s) (hrun : (cluster n).exec s as = some c) :
    ∃ g', Sound g' c ∧ ∀ p T x, (p, T, x) ∈ (cluster n).reads Cluster.ballot s as →
      ∃ q : Fin n, x = q ∧ g'.voted p T q := by
  have hstep : ∀ (t : List (Fin n × Int × Int)) s a s',
      (∃ g, Sound g s ∧ ∀ p T x, (p, T, x) ∈ t → ∃ q : Fin n, x = q ∧ g.voted p T q) → True →
      (cluster n).step s a = some s' →
      ∃ g, Sound g s' ∧ ∀ p T x, (p, T, x) ∈ t ++ (s.ballot a).toList →
        ∃ q : Fin n, x = q ∧ g.voted p T q := by
    rintro t s a s' ⟨g, hs, hvoted⟩ - hstep
    obtain ⟨g', hg, hs', hnew⟩ := hs.step_ballot hn hstep
    refine ⟨g', hs', fun p T x hx => ?_⟩
    rcases List.mem_append.mp hx with hx | hx
    · obtain ⟨q, hq, hv⟩ := hvoted p T x hx
      exact ⟨q, hq, hg.1 _ _ _ hv⟩
    · exact hnew p T x (Option.mem_toList.mp hx)
  have hall : (cluster n).Along (fun _ _ => True) s as :=
    Machine.Along.of_invariant (I := fun _ => True) (Q := fun _ => True)
      (fun _ _ _ _ => trivial) (fun _ _ _ _ _ _ => trivial) trivial fun _ _ => trivial
  exact hall.reads (t := []) hstep hrun ⟨g, hs, by simp⟩

/-- One vote per term: in a run where a vote is cleared within its term only when nobody else can
ask for it any more, and in every run of at most two nodes, all votes that a node gives in a term
name the same candidate. -/
theorem one_vote_per_term {s c : Cluster n} {as : List (Action n)} (hs : (cluster n).initial s)
    (hrun : (cluster n).exec s as = some c)
    (hguard : n ≤ 2 ∨ (cluster n).Along Cluster.Harmless s as) :
    SingleVotes ((cluster n).reads Cluster.ballot s as) := by
  obtain ⟨peers, hp, rfl⟩ := hs
  rcases hguard with hn | hguard
  · intro p T x y hx hy
    obtain ⟨g, hsound, hvoted⟩ := (Sound.start peers hp p).of_reads (by omega) hrun
    obtain ⟨q, rfl, hq⟩ := hvoted p T x hx
    obtain ⟨q', rfl, hq'⟩ := hvoted p T y hy
    rw [hsound.voted_unique hn hq hq']
  · have hstep : ∀ t s a s', Ballots t s → s.Harmless a → (cluster n).step s a = some s' →
        Ballots (t ++ (s.ballot a).toList) s' := fun _ _ _ _ h hP hstep => h.step hP hstep
    exact (hguard.reads hstep hrun (Ballots.start peers)).single

/-- The heartbeat of `oneCommand` clears the vote of node 1 when all nodes are in term 1 and no
request is on its way. -/
theorem one_vote_per_term_oneCommand :
    (cluster 3).Along Cluster.Harmless (Cluster.start ["a", "b", "c"]) oneCommand ∧
      (1, 1, 0) ∈ (cluster 3).reads Cluster.ballot (Cluster.start ["a", "b", "c"]) oneCommand ∧
      SingleVotes ((cluster 3).reads Cluster.ballot (Cluster.start ["a", "b", "c"])
        oneCommand) := by
  have halong : (cluster 3).Along Cluster.Harmless (Cluster.start ["a", "b", "c"]) oneCommand := by
    decide +kernel
  have hsome : ((cluster 3).exec (Cluster.start ["a", "b", "c"]) oneCommand).isSome = true := by
    decide +kernel
  obtain ⟨c, hc⟩ := Option.isSome_iff_exists.mp hsome
  exact ⟨halong, by decide +kernel,
    one_vote_per_term ⟨["a", "b", "c"], rfl, rfl⟩ hc (Or.inr halong)⟩

/-- Nodes 1 and 2 stand twice and reach term 2, node 0 stands in term 1 and then votes for node 1 in
term 2. The refusal of node 2, which has term 2, ends the candidacy of node 0 and clears its vote of
term 2, and the request of node 2 is granted. -/
def voteAfterRefusal : List (Action 3) :=
  [.readState 1, .electionTimeout 1, .readState 1, .startElection 1, .abandonElection 1,
    .readState 1, .startElection 1,
    .readState 2, .electionTimeout 2, .readState 2, .startElection 2, .abandonElection 2,
    .readState 2, .startElection 2,
    .readState 0, .electionTimeout 0, .readState 0, .startElection 0,
    .deliverVote 1 0, .deliverVote 0 2, .countVote 0 2, .deliverVote 2 0]

theorem not_singleVotes_voteAfterRefusal :
    ((cluster 3).exec (Cluster.start ["a", "b", "c"]) voteAfterRefusal).isSome ∧
      ¬ SingleVotes ((cluster 3).reads Cluster.ballot (Cluster.start ["a", "b", "c"])
        voteAfterRefusal) := by
  have hreads : (cluster 3).reads Cluster.ballot (Cluster.start ["a", "b", "c"]) voteAfterRefusal =
      [(1, 1, 1), (1, 2, 1), (2, 1, 2), (2, 2, 2), (0, 1, 0), (0, 2, 1), (0, 2, 2)] := by
    decide +kernel
  refine ⟨by decide +kernel, fun h => ?_⟩
  rw [hreads] at h
  exact absurd (h 0 2 1 2 (by decide) (by decide)) (by decide)

end KvRaft.Raft
