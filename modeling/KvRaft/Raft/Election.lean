import KvRaft.Raft.Safety

/-! Election safety depends on the size of the cluster. Up to three nodes `votesNeeded` is the whole
cluster and a term has one leader. From four nodes on a majority is enough, and a heartbeat of the
elected leader clears the votes that made it one, so that the requests of a second candidate of the
same term, arriving late, are granted by the same nodes. -/

namespace KvRaft.Raft

variable {n : Nat}

/-- At no two moments of a run are two different nodes leaders of the same term. -/
def ElectionSafe (n : Nat) : Prop :=
  ∀ c c' : Cluster n, (cluster n).Reachable c → (cluster n).Leads c c' → ∀ i j : Fin n,
    (c.node i).state = .leader → (c'.node j).state = .leader →
    (c.node i).currentTerm = (c'.node j).currentTerm → i = j

theorem electionSafe_of_le (hn : n ≤ 3) : ElectionSafe n := by
  intro c c' h hl i j hi hj ht
  obtain ⟨g, hs⟩ := Sound.of_reachable hn i h
  obtain ⟨g', hg, hs'⟩ := hs.of_leads hn hl
  have hown := hg.2.1 _ _ (hs.votes.leader i hi)
  rw [ht, hs'.votes.leader j hj] at hown
  exact (Option.some.inj hown).symm

/-- The request of a candidacy of term 1 with an empty log. -/
def firstRequest (x : Fin n) : RequestVoteArgs :=
  { term := 1, candidateId := x, lastLogIndex := 0, lastLogTerm := 0 }

/-- A node that grants the request of any candidate of term 1: it has an empty log and no vote in
that term. -/
structure Willing (nd : Node) : Prop where
  log : nd.log = [sentinel]
  vote : nd.currentTerm < 1 ∨ nd.currentTerm = 1 ∧ nd.votedFor = -1

theorem Willing.grant {nd : Node} (h : Willing nd) (x : Fin n) :
    ∃ nd', nd.handleRequestVote (firstRequest x) =
        some (nd', { term := nd.currentTerm, voteGranted := true }) ∧
      nd'.log = [sentinel] ∧ nd'.currentTerm = 1 := by
  obtain ⟨hlog, hvote⟩ := h
  rcases hvote with hlt | ⟨heq, hfor⟩
  · refine ⟨{ nd.becomeFollowerLocked 1 with votedFor := x }, ?_, hlog, ?_⟩
    · simp [Node.handleRequestVote, firstRequest, Node.becomeFollowerLocked, hlog, logAt, hlt,
        not_lt.mpr hlt.le, sentinel]
    · exact Node.becomeFollowerLocked_of_le hlt.le
  · refine ⟨{ nd with votedFor := x }, ?_, hlog, heq⟩
    simp [Node.handleRequestVote, firstRequest, heq, hlog, hfor, logAt, sentinel]

/-- A heartbeat of a leader of term 1 with an empty log. -/
def firstHeartbeat (leaderId leaderCommit : Int) : AppendEntriesArgs :=
  { term := 1, leaderId := leaderId, prevLogIndex := 0, prevLogTerm := 0, entries := [],
    leaderCommit := leaderCommit }

/-- The heartbeat clears the vote of its own term. -/
theorem Willing.of_heartbeat {nd : Node} (hlog : nd.log = [sentinel]) (ht : nd.currentTerm = 1)
    (leaderId leaderCommit : Int) : ∃ nd' reply,
      nd.handleAppendEntries (firstHeartbeat leaderId leaderCommit) = some (nd', reply) ∧
        Willing nd' := by
  cases hh : nd.handleAppendEntries (firstHeartbeat leaderId leaderCommit) with
  | none =>
    have hterm : nd.currentTerm ≤ (firstHeartbeat leaderId leaderCommit).term := ht.le
    rw [Node.handleAppendEntries_current hterm] at hh
    split at hh
    · cases hh
    · simp [firstHeartbeat, Node.appendLoop] at hh
  | some out =>
    obtain ⟨nd', reply⟩ := out
    have hvote : (nd.follow (firstHeartbeat leaderId leaderCommit)).currentTerm = 1 :=
      Node.becomeFollowerLocked_of_le ht.le
    refine ⟨nd', reply, rfl, ?_⟩
    rcases Node.handleAppendEntries_cases hh with ⟨hlt, -⟩ | ⟨-, ⟨rfl, -⟩ | ⟨log, hloop, rfl, -⟩⟩
    · simp [firstHeartbeat, ht] at hlt
    · exact ⟨hlog, Or.inr ⟨hvote, rfl⟩⟩
    · refine ⟨?_, Or.inr ⟨hvote, rfl⟩⟩
      simpa [firstHeartbeat, Node.appendLoop, hlog] using hloop.symm

namespace Cluster

/-- From `c` to `c'` the goroutine and the votes of `x` have moved, the nodes of `S`, and nothing
else. -/
structure MovedBy (x : Fin n) (S : Fin n → Prop) (c c' : Cluster n) : Prop where
  node : ∀ k, ¬ S k → c'.node k = c.node k
  loop : ∀ k, k ≠ x → c'.loop k = c.loop k
  vote : ∀ k, k ≠ x → c'.vote k = c.vote k
  append : c'.append = c.append

theorem MovedBy.trans {x : Fin n} {S : Fin n → Prop} {c c' c'' : Cluster n}
    (h : MovedBy x S c c') (h' : MovedBy x S c' c'') : MovedBy x S c c'' where
  node k hk := (h'.node k hk).trans (h.node k hk)
  loop k hk := (h'.loop k hk).trans (h.loop k hk)
  vote k hk := (h'.vote k hk).trans (h.vote k hk)
  append := h'.append.trans h.append

/-- A fresh node times out and asks everyone for its vote in term 1. -/
theorem leads_candidacy (peers : List String) {c : Cluster n} {x : Fin n}
    (hl : c.loop x = .top) (hx : c.node x = newNode x peers) :
    ∃ c', (cluster n).Leads c c' ∧ c'.loop x = .counting 1 1 ∧
      c'.vote x = newVotes x (firstRequest x) ∧
      c'.node x = { newNode x peers with
        currentTerm := 1, votedFor := x, state := .candidate } ∧
      MovedBy x (· = x) c c' := by
  let waiting := (c.setNode x (newNode x peers).electionTimeout).setLoop x .top
  let standing := { (c.setNode x { newNode x peers with
      currentTerm := 1, votedFor := x, state := .candidate }).setLoop x (.counting 1 1) with
    vote := Function.update c.vote x (newVotes x (firstRequest x))
    lateVotes := c.lateVotes ++ c.unsentVotes x }
  have h₁ : c.step (.readState x) = some (c.setLoop x .follower) := by
    simp [step, hl, hx, newNode, loopOf]
  have h₂ : (c.setLoop x .follower).step (.electionTimeout x) = some waiting := by
    simp [step, hx, waiting, setLoop, setNode]
  have h₃ : waiting.step (.readState x) = some (waiting.setLoop x .candidate) := by
    simp [step, waiting, Node.electionTimeout, loopOf]
  have h₄ : (waiting.setLoop x .candidate).step (.startElection x) = some standing := by
    simp [step, waiting, standing, Node.electionTimeout, Node.startElection, newNode, logAt,
      sentinel, firstRequest, setLoop, setNode, unsentVotes]
  refine ⟨standing, ⟨[.readState x, .electionTimeout x, .readState x, .startElection x], ?_⟩,
    ?_, ?_, ?_, ?_, ?_, ?_, rfl⟩
  · simp only [Machine.exec_cons_eq_some, Machine.exec_nil]
    exact ⟨_, h₁, _, h₂, _, h₃, _, h₄, rfl⟩
  · simp [standing]
  · simp [standing]
  · simp [standing]
  · intro k hk
    simp [standing, hk]
  · intro k hk
    simp [standing, hk]
  · intro k hk
    simp [standing, hk]

/-- A willing node grants the vote of term 1 to `x`, and `x` counts it. -/
theorem leads_vote {c : Cluster n} {x j : Fin n} {v : Int} (hxj : j ≠ x)
    (hl : c.loop x = .counting 1 v) (hstate : (c.node x).state = .candidate)
    (hterm : (c.node x).currentTerm = 1) (hw : Willing (c.node j))
    (hs : c.vote x j = .sent (firstRequest x)) :
    ∃ c', (cluster n).Leads c c' ∧ MovedBy x (fun k => k = x ∨ k = j) c c' ∧
      (c'.node j).log = [sentinel] ∧ (c'.node j).currentTerm = 1 ∧
      (∀ k, k ≠ j → c'.vote x k = c.vote x k) ∧
      (v + 1 < (c.node x).votesNeeded → c'.loop x = .counting 1 (v + 1) ∧
        c'.node x = c.node x) ∧
      ((c.node x).votesNeeded ≤ v + 1 → c'.node x = (c.node x).becomeLeaderLocked) := by
  obtain ⟨nd, hg, hlog, ht⟩ := hw.grant x
  have hle : (c.node j).currentTerm ≤ 1 := by
    rcases hw.vote with h | ⟨h, -⟩ <;> omega
  let r : RequestVoteReply := { term := (c.node j).currentTerm, voteGranted := true }
  let asked := (c.setNode j nd).setVote x j (.answered r)
  have h₁ : c.step (.deliverVote x j) = some asked := by
    simp [step, hs, hg, asked, r]
  have hx : asked.node x = c.node x := by simp [asked, hxj.symm]
  let heard := (asked.setNode x ((c.node x).countVote 1 v r).1).setVote x j (.counted r)
  obtain ⟨l, hcount, hgo⟩ : ∃ l, asked.step (.countVote x j) = some (heard.setLoop x l) ∧
      ∀ votes, ((c.node x).countVote 1 v r).2 = some votes → l = .counting 1 votes := by
    simp only [step, heard, asked, setVote_loop, setNode_loop, hl, setVote_same]
    rewrite [show ((c.setNode j nd).setVote x j (.answered r)).node x = c.node x from hx]
    refine ⟨_, rfl, fun votes hv => ?_⟩
    rw [hv]
  let after := heard.setLoop x l
  refine ⟨after, ⟨[.deliverVote x j, .countVote x j], ?_⟩, ⟨?_, ?_, ?_, rfl⟩, ?_, ?_, ?_, ?_, ?_⟩
  · simp only [Machine.exec_cons_eq_some, Machine.exec_nil]
    exact ⟨_, h₁, _, hcount, rfl⟩
  · intro k hk
    simp only [not_or] at hk
    simp [after, heard, asked, hk.1, hk.2]
  · intro k hk
    simp [after, heard, asked, hk]
  · intro k hk
    funext m
    simp [after, heard, asked, hk, setVote_apply]
  · simp [after, heard, asked, hxj, hlog]
  · simp [after, heard, asked, hxj, ht]
  · intro k hk
    simp [after, heard, asked, hk, setVote_apply]
  · intro hlt
    refine ⟨?_, by simp [after, heard, Node.countVote, r, not_lt.mpr hle, not_le.mpr hlt]⟩
    rw [setLoop_same]
    exact hgo _ (by simp [Node.countVote, r, not_lt.mpr hle, not_le.mpr hlt])
  · intro hneed
    simp [after, heard, Node.countVote, r, not_lt.mpr hle, hneed, hstate, hterm]

/-- With as many willing nodes as it still needs, the candidate becomes the leader of term 1. -/
theorem leads_campaign (x : Fin n) (js : List (Fin n)) : ∀ {c : Cluster n} {v : Int},
    js ≠ [] → js.Nodup → x ∉ js → c.loop x = .counting 1 v →
    (c.node x).state = .candidate → (c.node x).currentTerm = 1 →
    v + js.length = (c.node x).votesNeeded →
    (∀ j ∈ js, Willing (c.node j) ∧ c.vote x j = .sent (firstRequest x)) →
    ∃ c', (cluster n).Leads c c' ∧ MovedBy x (fun k => k = x ∨ k ∈ js) c c' ∧
      c'.node x = (c.node x).becomeLeaderLocked ∧
      ∀ j ∈ js, (c'.node j).log = [sentinel] ∧ (c'.node j).currentTerm = 1 := by
  induction js with
  | nil => intro c v h; exact absurd rfl h
  | cons j rest ih =>
    intro c v _ hnd hx hl hstate hterm hneed hw
    simp only [List.nodup_cons] at hnd
    simp only [List.mem_cons, not_or] at hx
    simp only [List.length_cons, Nat.cast_add, Nat.cast_one] at hneed
    obtain ⟨hwj, hsj⟩ := hw j List.mem_cons_self
    obtain ⟨c₁, hlead₁, hmove, hlog, hterm₁, hvote, hgo, hwin⟩ :=
      leads_vote (Ne.symm hx.1) hl hstate hterm hwj hsj
    have hmove' : MovedBy x (fun k => k = x ∨ k ∈ j :: rest) c c₁ :=
      { hmove with node := fun k hk => hmove.node k fun h => hk (by
          rcases h with h | h
          · exact Or.inl h
          · exact Or.inr (h ▸ List.mem_cons_self)) }
    by_cases hrest : rest = []
    · subst hrest
      refine ⟨c₁, hlead₁, hmove', hwin (by simp at hneed; omega), ?_⟩
      intro k hk
      rw [List.mem_singleton.mp hk]
      exact ⟨hlog, hterm₁⟩
    · have hlen := List.length_pos_iff.mpr hrest
      obtain ⟨hl₁, hx₁⟩ := hgo (by omega)
      have hkeep : ∀ k ∈ rest, c₁.node k = c.node k ∧ c₁.vote x k = c.vote x k := by
        intro k hk
        have hkj : k ≠ j := fun h => hnd.1 (h ▸ hk)
        have hkx : k ≠ x := fun h => hx.2 (h ▸ hk)
        exact ⟨hmove.node k fun h => h.elim hkx hkj, hvote k hkj⟩
      obtain ⟨c₂, hlead₂, hmove₂, hx₂, hdone⟩ := ih hrest hnd.2 hx.2 hl₁ (hx₁ ▸ hstate)
        (hx₁ ▸ hterm) (by rw [hx₁]; omega) fun k hk => by
          rw [(hkeep k hk).1, (hkeep k hk).2]
          exact hw k (List.mem_cons_of_mem j hk)
      have hmove₂' : MovedBy x (fun k => k = x ∨ k ∈ j :: rest) c₁ c₂ :=
        { hmove₂ with node := fun k hk =>
            hmove₂.node k fun h => hk (h.imp_right (List.mem_cons_of_mem j)) }
      refine ⟨c₂, hlead₁.trans hlead₂, hmove'.trans hmove₂', ?_, ?_⟩
      · rw [hx₂, hx₁]
      · intro k hk
        rcases List.mem_cons.mp hk with rfl | hk
        · rw [hmove₂.node k fun h => h.elim (Ne.symm hx.1) hnd.1]
          exact ⟨hlog, hterm₁⟩
        · exact hdone k hk

/-- The heartbeats of the leader of term 1 leave every follower without a vote. -/
theorem leads_heartbeats (x : Fin n) (js : List (Fin n)) : ∀ {c : Cluster n},
    js.Nodup → x ∉ js → (c.node x).state = .leader → (c.node x).currentTerm = 1 →
    (c.node x).log = [sentinel] → (∀ j ∈ js, (c.node x).nextIndex j = 1) →
    (∀ j ∈ js, (c.node j).log = [sentinel] ∧ (c.node j).currentTerm = 1 ∧
      c.append x j = .idle) →
    ∃ c', (cluster n).Leads c c' ∧ (∀ k, k ∉ js → c'.node k = c.node k) ∧
      c'.loop = c.loop ∧ c'.vote = c.vote ∧ ∀ j ∈ js, Willing (c'.node j) := by
  induction js with
  | nil => exact fun _ _ _ _ _ _ _ => ⟨_, Machine.Leads.refl _, fun _ _ => rfl, rfl, rfl, by simp⟩
  | cons j rest ih =>
    intro c hnd hx hstate hterm hlog hnext hfollow
    simp only [List.nodup_cons] at hnd
    simp only [List.mem_cons, not_or] at hx
    obtain ⟨hlogj, htermj, hidle⟩ := hfollow j List.mem_cons_self
    have hargs : (c.node x).replicateArgs j =
        some (firstHeartbeat (c.node x).id (c.node x).commitIndex) := by
      simp [Node.replicateArgs, hstate, hterm, hlog, hnext j List.mem_cons_self, logAt, sentinel,
        firstHeartbeat]
    obtain ⟨nd, reply, hh, hw⟩ := Willing.of_heartbeat hlogj htermj (c.node x).id
      (c.node x).commitIndex
    generalize firstHeartbeat (c.node x).id (c.node x).commitIndex = args at hargs hh
    let after := ((c.setAppend x j (.sent args)).setNode j nd).setAppend x j (.answered args reply)
    have h₁ : c.step (.replicate x j) = some (c.setAppend x j (.sent args)) := by
      simp [step, hx.1, hidle, hargs]
    have h₂ : (c.setAppend x j (.sent args)).step (.deliverAppend x j) = some after := by
      simp [step, setAppend_apply, hh, after]
    have hkeep : ∀ k, k ≠ j → after.node k = c.node k := by
      intro k hk
      simp [after, hk]
    have hlead : (cluster n).Leads c after := by
      refine ⟨[.replicate x j, .deliverAppend x j], ?_⟩
      simp only [Machine.exec_cons_eq_some, Machine.exec_nil]
      exact ⟨_, h₁, _, h₂, rfl⟩
    obtain ⟨c', hlead', hnode, hloop, hvote, hwill⟩ := ih (c := after) hnd.2 hx.2
      (by rw [hkeep x hx.1]; exact hstate) (by rw [hkeep x hx.1]; exact hterm)
      (by rw [hkeep x hx.1]; exact hlog)
      (by rw [hkeep x hx.1]; exact fun k hk => hnext k (List.mem_cons_of_mem j hk))
      (by
        intro k hk
        have hkj : k ≠ j := fun h => hnd.1 (h ▸ hk)
        rw [hkeep k hkj]
        simpa [after, setAppend_apply, hkj] using hfollow k (List.mem_cons_of_mem j hk))
    refine ⟨c', hlead.trans hlead', ?_, hloop, hvote, ?_⟩
    · intro k hk
      simp only [List.mem_cons, not_or] at hk
      rw [hnode k hk.2, hkeep k hk.1]
    · intro k hk
      rcases List.mem_cons.mp hk with rfl | hk
      · rw [hnode k hnd.1]
        simpa [after] using hw
      · exact hwill k hk

/-- From four nodes on, two nodes become leaders of term 1. -/
theorem two_leaders (hn : 4 ≤ n) : ∃ (c : Cluster n) (i j : Fin n), (cluster n).Reachable c ∧
    i ≠ j ∧ (c.node i).state = .leader ∧ (c.node j).state = .leader ∧
    (c.node i).currentTerm = 1 ∧ (c.node j).currentTerm = 1 := by
  let peers := List.replicate n ""
  have hpeers : peers.length = n := List.length_replicate
  let x : Fin n := ⟨0, by omega⟩
  let y : Fin n := ⟨1, by omega⟩
  have hxy : x ≠ y := by simp [x, y]
  let js := ((List.finRange n).drop 2).take ((n + 1) / 2)
  have hlen : js.length = (n + 1) / 2 := by
    simp only [js, List.length_take, List.length_drop, List.length_finRange]
    omega
  have hnd : js.Nodup := ((List.nodup_finRange n).sublist (List.drop_sublist 2 _)).sublist
    (List.take_sublist _ _)
  have hbig : ∀ j ∈ js, j ≠ x ∧ j ≠ y := by
    intro j hj
    obtain ⟨k, hk, rfl⟩ := List.mem_iff_getElem.mp (List.mem_of_mem_take hj)
    simp [x, y, Fin.ext_iff]
    omega
  have hxjs : x ∉ js := fun h => (hbig x h).1 rfl
  have hyjs : y ∉ js := fun h => (hbig y h).2 rfl
  have hne : js ≠ [] := List.ne_nil_of_length_pos (by omega)
  -- both stand in term 1 before any vote is given
  obtain ⟨c₁, hlead₁, hl₁, hv₁, hx₁, hmove₁⟩ :=
    leads_candidacy peers (c := start peers) (x := x) rfl rfl
  obtain ⟨c₂, hlead₂, hl₂, hv₂, hy₂, hmove₂⟩ :=
    leads_candidacy peers (c := c₁) (x := y) (by rw [hmove₁.loop y hxy.symm]; rfl)
      (by rw [hmove₁.node y hxy.symm]; rfl)
  have hx₂ : c₂.node x = c₁.node x := hmove₂.node x hxy
  have hfresh : ∀ j ∈ js, Willing (c₂.node j) := by
    intro j hj
    rw [hmove₂.node j (hbig j hj).2, hmove₁.node j (hbig j hj).1]
    exact ⟨rfl, Or.inl (by simp [start, newNode])⟩
  -- the voters elect `x`, whose heartbeats then clear their votes
  obtain ⟨c₃, hlead₃, hmove₃, hx₃, hdone₃⟩ := leads_campaign x js (c := c₂) (v := 1) hne hnd hxjs
    (by rw [hmove₂.loop x hxy]; exact hl₁) (by rw [hx₂, hx₁]) (by rw [hx₂, hx₁])
    (by rw [hx₂, hx₁]; simp [Node.votesNeeded, newNode, hpeers, hlen]; omega)
    (fun j hj => ⟨hfresh j hj, by
      rw [hmove₂.vote x hxy, hv₁]
      simp [newVotes, (hbig j hj).1]⟩)
  have hidle : ∀ i j, c₃.append i j = .idle := by
    rw [hmove₃.append, hmove₂.append, hmove₁.append]
    exact fun _ _ => rfl
  rw [hx₂, hx₁] at hx₃
  obtain ⟨c₄, hlead₄, hnode₄, hloop₄, hvote₄, hwill₄⟩ := leads_heartbeats x js (c := c₃) hnd hxjs
    (by rw [hx₃]; rfl) (by rw [hx₃]; rfl) (by rw [hx₃]; rfl)
    (by
      rw [hx₃]
      intro j _
      simp [Node.becomeLeaderLocked, newNode, hpeers])
    (fun j hj => ⟨(hdone₃ j hj).1, (hdone₃ j hj).2, hidle x j⟩)
  -- the late requests of `y` are granted by the same voters
  have hy₄ : c₄.node y = c₂.node y := by
    rw [hnode₄ y hyjs, hmove₃.node y fun h => h.elim hxy.symm hyjs]
  obtain ⟨c₅, hlead₅, hmove₅, hy₅, -⟩ := leads_campaign y js (c := c₄) (v := 1) hne hnd hyjs
    (by rw [hloop₄, hmove₃.loop y hxy.symm]; exact hl₂) (by rw [hy₄, hy₂]) (by rw [hy₄, hy₂])
    (by rw [hy₄, hy₂]; simp [Node.votesNeeded, newNode, hpeers, hlen]; omega)
    (fun j hj => ⟨hwill₄ j hj, by
      rw [hvote₄, hmove₃.vote y hxy.symm, hv₂]
      simp [newVotes, (hbig j hj).2]⟩)
  have hx₅ : c₅.node x = c₃.node x := by
    rw [hmove₅.node x fun h => h.elim hxy hxjs, hnode₄ x hxjs]
  have hreach : (cluster n).Reachable (start peers) := .of_initial ⟨peers, hpeers, rfl⟩
  refine ⟨c₅, x, y, hreach.leads ((((hlead₁.trans hlead₂).trans hlead₃).trans hlead₄).trans hlead₅),
    hxy, ?_, ?_, ?_, ?_⟩
  · rw [hx₅, hx₃]; rfl
  · rw [hy₅]; rfl
  · rw [hx₅, hx₃]; rfl
  · rw [hy₅, hy₄, hy₂]; rfl

end Cluster

/-- Election safety holds for exactly the clusters of at most three nodes. -/
theorem electionSafe_iff : ElectionSafe n ↔ n ≤ 3 := by
  refine ⟨fun h => ?_, electionSafe_of_le⟩
  by_contra hn
  obtain ⟨c, i, j, hc, hij, hi, hj, hti, htj⟩ := Cluster.two_leaders (n := n) (by omega)
  exact hij (h c c hc (.refl c) i j hi hj (hti.trans htj.symm))

/-- Five nodes: 0 and 1 stand in term 1, the votes of 2, 3 and 4 make 0 the leader, its heartbeats
clear them, and the requests of 1 that arrive afterwards are granted by the same three nodes. -/
def voteAfterHeartbeat : List (Action 5) :=
  [.readState 0, .electionTimeout 0, .readState 0, .startElection 0,
    .readState 1, .electionTimeout 1, .readState 1, .startElection 1,
    .deliverVote 0 2, .deliverVote 0 3, .deliverVote 0 4,
    .countVote 0 2, .countVote 0 3, .countVote 0 4,
    .replicate 0 2, .deliverAppend 0 2, .replicate 0 3, .deliverAppend 0 3,
    .replicate 0 4, .deliverAppend 0 4,
    .deliverVote 1 2, .deliverVote 1 3, .deliverVote 1 4,
    .countVote 1 2, .countVote 1 3, .countVote 1 4]

theorem not_electionSafe_five : ¬ ElectionSafe 5 := by
  intro h
  have hrun : ((cluster 5).exec (Cluster.start ["a", "b", "c", "d", "e"]) voteAfterHeartbeat).map
      (fun c => ((c.node 0).state, (c.node 0).currentTerm, (c.node 1).state,
        (c.node 1).currentTerm)) = some (.leader, 1, .leader, 1) := by
    decide +kernel
  obtain ⟨c, hc, hlead⟩ := Option.map_eq_some_iff.mp hrun
  simp only [Prod.mk.injEq] at hlead
  obtain ⟨h₀, ht₀, h₁, ht₁⟩ := hlead
  have hreach : (cluster 5).Reachable c := ⟨_, _, ⟨["a", "b", "c", "d", "e"], rfl, rfl⟩, hc⟩
  exact absurd (h c c hreach (.refl c) 0 1 h₀ h₁ (ht₀.trans ht₁.symm)) (by decide)

/-! A majority is enough only when the number of nodes is even: `votesNeeded` counts the node itself
once more than the peer list does, and it is tested only when a reply arrives. -/

/-- A candidate whose votes are a majority has become the leader: no node counts the replies of the
term it stands in with a majority of the votes, and the reply that completes a majority makes it the
leader. -/
def MajorityElects (n : Nat) : Prop :=
  ∀ c : Cluster n, (cluster n).Reachable c → ∀ i T v, c.loop i = .counting T v →
    (c.node i).state = .candidate → (c.node i).currentTerm = T →
    1 + (c.tallied i).card < n / 2 + 1 ∧
      ∀ j r c', c.vote i j = .answered r → r.term ≤ T →
        n / 2 + 1 ≤ 1 + (c.tallied i).card + (if r.voteGranted then 1 else 0) →
        c.step (.countVote i j) = some c' → (c'.node i).state = .leader

/-- The count of a candidacy, at any size of the cluster. -/
structure Counted (c : Cluster n) : Prop where
  peers : ∀ i, (c.node i).peers.length = n
  votes : ∀ i T v, c.loop i = .counting T v → v = 1 + (c.tallied i).card
  short : ∀ i T v, c.loop i = .counting T v → (c.node i).state = .candidate →
    (c.node i).currentTerm = T → v < (c.node i).votesNeeded

namespace Counted

variable {c c' : Cluster n}

theorem start (peers : List String) (hp : peers.length = n) :
    Counted (Cluster.start (n := n) peers) where
  peers _ := hp
  votes _ _ _ h := by simp [Cluster.start] at h
  short _ _ _ h := by simp [Cluster.start] at h

/-- The votes that are counted stay the same, and no goroutine starts to count. -/
theorem frame (h : Counted c) (hnode : c'.node = c.node)
    (hloop : ∀ i T v, c'.loop i = .counting T v → c.loop i = .counting T v)
    (hvote : ∀ i j, (c'.vote i j).inTally = (c.vote i j).inTally) : Counted c' := by
  refine ⟨hnode ▸ h.peers, fun i T v hl => ?_, fun i T v hl => ?_⟩
  · rw [h.votes i T v (hloop i T v hl), Cluster.tallied, Cluster.tallied]
    simp only [hvote]
  · rw [hnode]
    exact h.short i T v (hloop i T v hl)

theorem setLoop (h : Counted c) {i : Fin n} {l : Loop} (hl : ∀ T v, l ≠ .counting T v) :
    Counted (c.setLoop i l) := by
  refine h.frame rfl (fun k T v hk => ?_) fun _ _ => rfl
  by_cases hki : k = i
  · subst hki
    rw [Cluster.setLoop_same] at hk
    exact absurd hk (hl T v)
  · rwa [Cluster.setLoop_ne _ _ _ hki] at hk

/-- A node that becomes no candidate, and stays in its term if it is one. -/
theorem setNode (h : Counted c) {p : Fin n} {nd : Node} (hpeers : nd.peers = (c.node p).peers)
    (hcand : nd.state = .candidate →
      (c.node p).state = .candidate ∧ nd.currentTerm = (c.node p).currentTerm) :
    Counted (c.setNode p nd) := by
  have hneed : nd.votesNeeded = (c.node p).votesNeeded := by
    rw [Node.votesNeeded, Node.votesNeeded, hpeers]
  refine ⟨fun i => ?_, h.votes, fun i T v hl => ?_⟩
  · by_cases hi : i = p
    · subst hi
      rw [Cluster.setNode_same, hpeers]
      exact h.peers i
    · rw [Cluster.setNode_ne _ _ _ hi]
      exact h.peers i
  · by_cases hi : i = p
    · subst hi
      rw [Cluster.setNode_same, hneed]
      intro hst ht
      obtain ⟨hst', ht'⟩ := hcand hst
      exact h.short i T v hl hst' (ht' ▸ ht)
    · rw [Cluster.setNode_ne _ _ _ hi]
      exact h.short i T v hl

theorem handleVote (h : Counted c) {j : Fin n} {args : RequestVoteArgs} {nd : Node}
    {reply : RequestVoteReply} (hh : (c.node j).handleRequestVote args = some (nd, reply)) :
    Counted (c.setNode j nd) := by
  have hobs : ∀ x, Counted (c.setNode j { (c.node j).observe args.term with votedFor := x }) := by
    intro x
    unfold Node.observe
    split
    · exact h.setNode rfl nofun
    · exact h.setNode rfl fun hst => ⟨hst, rfl⟩
  rcases Node.handleRequestVote_cases hh with ⟨rfl, -⟩ | ⟨-, ⟨rfl, -⟩ | ⟨rfl, -⟩⟩
  · rw [Cluster.setNode_self]
    exact h
  · exact hobs _
  · exact hobs _

theorem handleAppend (h : Counted c) {j : Fin n} {args : AppendEntriesArgs} {nd : Node}
    {reply : AppendEntriesReply} (hh : (c.node j).handleAppendEntries args = some (nd, reply)) :
    Counted (c.setNode j nd) := by
  rcases Node.handleAppendEntries_cases hh with ⟨-, rfl, -⟩ | ⟨-, ⟨rfl, -⟩ | ⟨log, -, rfl, -⟩⟩
  · rw [Cluster.setNode_self]
    exact h
  · exact h.setNode rfl nofun
  · exact h.setNode rfl nofun

theorem handleReply (h : Counted c) (i : Fin n) (peer : Int) (args : AppendEntriesArgs)
    (reply : AppendEntriesReply) :
    Counted (c.setNode i ((c.node i).replicateReply peer args reply).1) := by
  rcases (c.node i).replicateReply_cases peer args reply with
    ⟨-, he⟩ | he | ⟨hlead, -, ⟨-, -, he⟩ | ⟨-, -, he⟩⟩
  · rw [he]
    exact h.setNode rfl nofun
  · rw [he, Cluster.setNode_self]
    exact h
  · rw [he]
    rcases Node.tryAdvanceCommitIndexLocked_cases ((c.node i).matchPeer peer
      (args.prevLogIndex + args.entries.length)) with ha | ⟨N, -, -, -, ha⟩
    · rw [ha]
      exact h.setNode rfl fun hst => ⟨hst, rfl⟩
    · rw [ha]
      exact h.setNode rfl fun hst => ⟨hst, rfl⟩
  · rw [he]
    exact h.setNode rfl fun hst => ⟨hst, rfl⟩

/-- Only the goroutine of `i` takes a step. -/
theorem change (h : Counted c) {i : Fin n} (hnode : ∀ k, k ≠ i → c'.node k = c.node k)
    (hloop : ∀ k, k ≠ i → c'.loop k = c.loop k) (hvote : ∀ k, k ≠ i → c'.vote k = c.vote k)
    (hpeers : (c'.node i).peers = (c.node i).peers)
    (hi : ∀ T v, c'.loop i = .counting T v → v = 1 + (c'.tallied i).card ∧
      ((c'.node i).state = .candidate → (c'.node i).currentTerm = T →
        v < (c'.node i).votesNeeded)) : Counted c' := by
  refine ⟨fun k => ?_, fun k T v hl => ?_, fun k T v hl => ?_⟩
  · by_cases hk : k = i
    · rw [hk, hpeers]
      exact h.peers i
    · rw [hnode k hk]
      exact h.peers k
  · by_cases hk : k = i
    · subst hk
      exact (hi T v hl).1
    · rw [h.votes k T v (hloop k hk ▸ hl), Cluster.tallied, Cluster.tallied, hvote k hk]
  · by_cases hk : k = i
    · subst hk
      exact (hi T v hl).2
    · rw [hnode k hk]
      exact h.short k T v (hloop k hk ▸ hl)

theorem stand (h : Counted c) {i : Fin n} {nd : Node} {args : RequestVoteArgs}
    (hs : (c.node i).startElection = some (nd, args)) :
    Counted { (c.setNode i nd).setLoop i (.counting args.term 1) with
      vote := Function.update c.vote i (Cluster.newVotes i args)
      lateVotes := c.lateVotes ++ c.unsentVotes i } := by
  obtain ⟨-, rfl, -⟩ := Node.startElection_cases hs
  refine h.change (i := i) (fun k hk => by simp [hk]) (fun k hk => by simp [hk])
    (fun k hk => by simp [hk]) (by simp) fun T v hl => ?_
  simp only [Cluster.setLoop_same, Loop.counting.injEq] at hl
  refine ⟨?_, fun _ _ => ?_⟩
  · rw [← hl.2, Finset.card_eq_zero.mpr]
    · rfl
    · refine Finset.eq_empty_of_forall_notMem fun j hj => ?_
      rw [Cluster.mem_tallied] at hj
      simp only [Function.update_self, Cluster.newVotes] at hj
      split at hj <;> simp [VoteCall.inTally] at hj
  · simp only [Cluster.setLoop_node, Cluster.setNode_same, Node.votesNeeded, h.peers i]
    have := i.isLt
    omega

/-- A reply is read and the candidacy is over. -/
theorem closeTally (h : Counted c) {i j : Fin n} {r : RequestVoteReply} {nd : Node}
    (hpeers : nd.peers = (c.node i).peers) :
    Counted (((c.setNode i nd).setVote i j (.counted r)).setLoop i .top) := by
  refine h.change (i := i) (fun k hk => by simp [hk]) (fun k hk => by simp [hk])
    (fun k hk => funext fun m => ?_) (by simpa using hpeers) (by simp)
  simp [Cluster.setVote_apply, hk]

/-- A reply is read, and the votes are too few or the node is out of the candidacy. -/
theorem tally (h : Counted c) {i j : Fin n} {T v : Int} {r : RequestVoteReply}
    (hl : c.loop i = .counting T v) (hv : c.vote i j = .answered r)
    (hgo : (c.node i).state = .candidate → (c.node i).currentTerm = T →
      v + (if r.voteGranted then 1 else 0) < (c.node i).votesNeeded) :
    Counted ((c.setVote i j (.counted r)).setLoop i
      (.counting T (v + (if r.voteGranted then 1 else 0)))) := by
  refine h.change (i := i) (fun _ _ => rfl) (fun k hk => by simp [hk])
    (fun k hk => funext fun m => ?_) rfl fun T' v' hl' => ?_
  · simp [Cluster.setVote_apply, hk]
  · simp only [Cluster.setLoop_same, Loop.counting.injEq] at hl'
    rw [← hl'.1, ← hl'.2]
    refine ⟨?_, hgo⟩
    change _ = 1 + (((c.setVote i j (.counted r)).tallied i).card : Int)
    rw [Votes.tallied_counted hv, h.votes i T v hl]
    split <;> push_cast <;> omega

theorem step (h : Counted c) {a : Action n} (hstep : c.step a = some c') : Counted c' := by
  have hloop : ∀ i T v, c.loop i = .counting T v → c.loop i = .counting T v := fun _ _ _ hl => hl
  cases Cluster.Step.of_step hstep with
  | readState => exact h.setLoop (Cluster.loopOf_ne _)
  | wakeFollower => exact h.setLoop (by simp)
  | @electionTimeout i =>
    exact h.change (i := i) (fun k hk => by simp [hk]) (fun k hk => by simp [hk])
      (fun _ _ => rfl) (by simp [Node.electionTimeout]) (by simp)
  | startElection _ hs => exact h.stand hs
  | stepDown => exact h.closeTally rfl
  | win => exact h.closeTally rfl
  | tally hl hv hgo => exact h.tally hl hv hgo
  | abandonElection => exact h.setLoop (by simp)
  | leaderStays => exact h
  | leaderReturns => exact h.setLoop (by simp)
  | @deliverVote i j args nd reply hv hh =>
    refine (h.handleVote hh).frame rfl hloop fun k m => ?_
    rw [Cluster.setVote_apply]
    split
    · next hkm =>
      rw [hkm.1, hkm.2, Cluster.setNode_vote, hv]
      rfl
    · rfl
  | deliverLateVote _ hh => exact (h.handleVote hh).frame rfl hloop fun _ _ => rfl
  | submit hs =>
    obtain ⟨-, -, -, rfl⟩ := Node.submit_cases hs
    exact h.setNode rfl fun hst => ⟨hst, rfl⟩
  | replicate => exact h.frame rfl hloop fun _ _ => rfl
  | deliverAppend _ hh => exact (h.handleAppend hh).frame rfl hloop fun _ _ => rfl
  | deliverLateAppend _ hh => exact (h.handleAppend hh).frame rfl hloop fun _ _ => rfl
  | @finishAppend i j args reply =>
    exact (h.handleReply i j args reply).frame rfl hloop fun _ _ => rfl
  | loseRequest => exact h.frame rfl hloop fun _ _ => rfl
  | loseReply => exact h.frame rfl hloop fun _ _ => rfl
  | @apply i _ _ ha =>
    obtain ⟨-, rfl, -⟩ := Node.applyNext_cases ha
    have hset : Counted (c.setNode i { c.node i with lastApplied := (c.node i).lastApplied + 1 }) :=
      h.setNode rfl fun hst => ⟨hst, rfl⟩
    exact hset.frame rfl hloop fun _ _ => rfl

theorem of_reachable (h : (cluster n).Reachable c) : Counted c := by
  refine h.invariant (fun s hi => ?_) fun _ _ _ hs hstep => hs.step hstep
  obtain ⟨peers, hp, rfl⟩ := hi
  exact start peers hp

end Counted

/-- With an even number of nodes `votesNeeded` is a majority. -/
theorem majorityElects_of_even (hn : n % 2 = 0) : MajorityElects n := by
  intro c hc i T v hl hst ht
  have hcount := Counted.of_reachable hc
  have hv := hcount.votes i T v hl
  have hneed : (c.node i).votesNeeded = n / 2 + 1 := by
    rw [Node.votesNeeded, hcount.peers i]
    omega
  refine ⟨?_, fun j r c' hr hrt hmaj hstep => ?_⟩
  · have := hcount.short i T v hl hst ht
    omega
  · simp only [Cluster.step, hl, hr, Option.some.injEq] at hstep
    subst hstep
    have hwin : (c.node i).countVote T v r = ((c.node i).becomeLeaderLocked, none) := by
      rw [Node.countVote, if_neg (by omega)]
      refine if_pos ⟨?_, hst, ht⟩
      rw [hneed]
      split
      · next hg =>
        rw [if_pos hg] at hmaj
        omega
      · next hg =>
        rw [if_neg hg] at hmaj
        omega
    simp [hwin, Node.becomeLeaderLocked]

namespace Cluster

/-- The votes of willing nodes that are fewer than the candidate needs are all counted, and it goes
on counting. -/
theorem leads_canvass (x : Fin n) (js : List (Fin n)) : ∀ {c : Cluster n} {v : Int},
    js.Nodup → x ∉ js → c.loop x = .counting 1 v →
    (c.node x).state = .candidate → (c.node x).currentTerm = 1 →
    v + js.length < (c.node x).votesNeeded →
    (∀ j ∈ js, Willing (c.node j) ∧ c.vote x j = .sent (firstRequest x)) →
    ∃ c', (cluster n).Leads c c' ∧ c'.loop x = .counting 1 (v + js.length) ∧
      c'.node x = c.node x := by
  induction js with
  | nil =>
    intro c v _ _ hl _ _ _ _
    exact ⟨c, .refl c, by simpa using hl, rfl⟩
  | cons j rest ih =>
    intro c v hnd hx hl hstate hterm hneed hw
    simp only [List.nodup_cons] at hnd
    simp only [List.mem_cons, not_or] at hx
    simp only [List.length_cons, Nat.cast_add, Nat.cast_one] at hneed ⊢
    obtain ⟨hwj, hsj⟩ := hw j List.mem_cons_self
    obtain ⟨c₁, hlead₁, hmove, -, -, hvote, hgo, -⟩ :=
      leads_vote (Ne.symm hx.1) hl hstate hterm hwj hsj
    obtain ⟨hl₁, hx₁⟩ := hgo (by omega)
    have hrest : ∀ k ∈ rest, Willing (c₁.node k) ∧ c₁.vote x k = .sent (firstRequest x) := by
      intro k hk
      have hkj : k ≠ j := fun h => hnd.1 (h ▸ hk)
      have hkx : k ≠ x := fun h => hx.2 (h ▸ hk)
      rw [hmove.node k fun h => h.elim hkx hkj, hvote k hkj]
      exact hw k (List.mem_cons_of_mem j hk)
    obtain ⟨c₂, hlead₂, hl₂, hx₂⟩ := ih hnd.2 hx.2 hl₁ (hx₁ ▸ hstate) (hx₁ ▸ hterm)
      (by rw [hx₁]; omega) hrest
    refine ⟨c₂, hlead₁.trans hlead₂, ?_, hx₂.trans hx₁⟩
    rw [hl₂]
    congr 1
    omega

/-- With an odd number of nodes a candidate counts the votes of a majority and goes on counting. -/
theorem majority_counting (hn : n % 2 = 1) : ∃ (c : Cluster n) (x : Fin n),
    (cluster n).Reachable c ∧ c.loop x = .counting 1 (n / 2 + 1) ∧
    (c.node x).state = .candidate ∧ (c.node x).currentTerm = 1 := by
  let peers := List.replicate n ""
  have hpeers : peers.length = n := List.length_replicate
  let x : Fin n := ⟨0, by omega⟩
  let js := ((List.finRange n).drop 1).take (n / 2)
  have hlen : js.length = n / 2 := by
    simp only [js, List.length_take, List.length_drop, List.length_finRange]
    omega
  have hnd : js.Nodup := ((List.nodup_finRange n).sublist (List.drop_sublist 1 _)).sublist
    (List.take_sublist _ _)
  have hbig : ∀ j ∈ js, j ≠ x := by
    intro j hj
    obtain ⟨k, hk, rfl⟩ := List.mem_iff_getElem.mp (List.mem_of_mem_take hj)
    simp [x, Fin.ext_iff]
  obtain ⟨c₁, hlead₁, hl₁, hv₁, hx₁, hmove₁⟩ :=
    leads_candidacy peers (c := start peers) (x := x) rfl rfl
  obtain ⟨c₂, hlead₂, hl₂, hx₂⟩ := leads_canvass x js (c := c₁) (v := 1) hnd
    (fun h => hbig x h rfl) hl₁ (by rw [hx₁]) (by rw [hx₁])
    (by rw [hx₁, hlen]; simp [Node.votesNeeded, newNode, hpeers]; omega)
    (fun j hj => by
      rw [hmove₁.node j (hbig j hj), hv₁]
      exact ⟨⟨rfl, Or.inl (by simp [start, newNode])⟩, by simp [newVotes, hbig j hj]⟩)
  have hreach : (cluster n).Reachable (start peers) := .of_initial ⟨peers, hpeers, rfl⟩
  refine ⟨c₂, x, hreach.leads (hlead₁.trans hlead₂), ?_, by rw [hx₂, hx₁], by rw [hx₂, hx₁]⟩
  rw [hl₂, hlen]
  congr 1
  omega

end Cluster

/-- A majority of the votes elects for exactly the clusters of an even number of nodes. -/
theorem majorityElects_iff : MajorityElects n ↔ n % 2 = 0 := by
  refine ⟨fun h => ?_, majorityElects_of_even⟩
  by_contra hn
  obtain ⟨c, x, hc, hl, hst, ht⟩ := Cluster.majority_counting (n := n) (by omega)
  have hv := (Counted.of_reachable hc).votes x _ _ hl
  have hshort := (h c hc x _ _ hl hst ht).1
  omega

/-- Three nodes: 0 stands in term 1 and counts the vote of 1. -/
def twoOfThree : List (Action 3) :=
  [.readState 0, .electionTimeout 0, .readState 0, .startElection 0, .deliverVote 0 1,
    .countVote 0 1]

theorem not_majorityElects_three : ¬ MajorityElects 3 := by
  intro h
  have hrun : ((cluster 3).exec (Cluster.start ["a", "b", "c"]) twoOfThree).map
      (fun c => (c.loop 0, (c.node 0).state, (c.node 0).currentTerm, (c.tallied 0).card)) =
        some (.counting 1 2, .candidate, 1, 1) := by
    decide +kernel
  obtain ⟨c, hc, hcand⟩ := Option.map_eq_some_iff.mp hrun
  simp only [Prod.mk.injEq] at hcand
  obtain ⟨hl, hst, ht, hcard⟩ := hcand
  have hshort := (h c ⟨_, _, ⟨["a", "b", "c"], rfl, rfl⟩, hc⟩ 0 1 2 hl hst ht).1
  rw [hcard] at hshort
  exact absurd hshort (by decide)

end KvRaft.Raft
