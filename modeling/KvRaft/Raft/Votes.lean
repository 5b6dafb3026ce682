import KvRaft.Raft.Cluster

/-! Vote bookkeeping. `becomeFollowerLocked` clears the vote of a node without raising its term, so
a node may vote twice in a term; what survives is that a candidate votes for nobody else before its
term has a leader. The history of a run is kept in a ghost: every vote given, the owner and the log
of every term that had a leader, and the committed log. -/

namespace KvRaft.Raft

open Lineage

variable {n : Nat}

/-- What a run has done so far. -/
structure Ghost (n : Nat) where
  /-- `voted j T i`: node `j` gave a vote to `i` in term `T`, its own included -/
  voted : Fin n → Int → Fin n → Prop
  /-- the node that became leader in a term -/
  owner : Int → Option (Fin n)
  /-- the log of a term's leader, empty for a term without one; term 0 has the sentinel's log -/
  leaderLog : Int → List LogEntry
  /-- the longest prefix that a leader has committed -/
  committed : List LogEntry
  /-- the leader that committed it -/
  committer : Fin n

namespace Ghost

instance : Preorder (Ghost n) where
  le g g' := (∀ j T i, g.voted j T i → g'.voted j T i) ∧
    (∀ T o, g.owner T = some o → g'.owner T = some o) ∧
    (∀ T, g.leaderLog T <+: g'.leaderLog T) ∧ g.committed <+: g'.committed
  le_refl g := ⟨fun _ _ _ h => h, fun _ _ h => h, fun _ => List.prefix_refl _, List.prefix_refl _⟩
  le_trans _ _ _ h₁ h₂ :=
    ⟨fun j T i h => h₂.1 j T i (h₁.1 j T i h), fun T o h => h₂.2.1 T o (h₁.2.1 T o h),
      fun T => (h₁.2.2.1 T).trans (h₂.2.2.1 T), h₁.2.2.2.trans h₂.2.2.2⟩

/-- Before any step. -/
def start (committer : Fin n) : Ghost n where
  voted _ _ _ := False
  owner _ := none
  leaderLog T := if T = 0 then [sentinel] else []
  committed := [sentinel]
  committer := committer

/-- `p` votes for `i` in term `T`. -/
def vote (g : Ghost n) (p : Fin n) (T : Int) (i : Fin n) : Ghost n :=
  { g with voted := fun j T' i' => g.voted j T' i' ∨ j = p ∧ T' = T ∧ i' = i }

/-- `i` becomes the leader of term `T` with the log `log`. -/
def elect (g : Ghost n) (i : Fin n) (T : Int) (log : List LogEntry) : Ghost n :=
  { g with
    owner := Function.update g.owner T (some i)
    leaderLog := Function.update g.leaderLog T log }

/-- The leader of term `T` appends an entry. -/
def extend (g : Ghost n) (T : Int) (entry : LogEntry) : Ghost n :=
  { g with leaderLog := Function.update g.leaderLog T (g.leaderLog T ++ [entry]) }

/-- Node `i` commits the prefix `log`. -/
def commit (g : Ghost n) (i : Fin n) (log : List LogEntry) : Ghost n :=
  { g with committed := log, committer := i }

theorem le_vote (g : Ghost n) (p : Fin n) (T : Int) (i : Fin n) : g ≤ g.vote p T i :=
  ⟨fun _ _ _ h => Or.inl h, fun _ _ h => h, fun _ => List.prefix_refl _, List.prefix_refl _⟩

theorem le_elect {g : Ghost n} {i : Fin n} {T : Int} {log : List LogEntry}
    (ho : g.owner T = none) (hl : g.leaderLog T = []) : g ≤ g.elect i T log := by
  refine ⟨fun _ _ _ h => h, ?_, ?_, List.prefix_refl _⟩
  · intro T' o h
    have hne : T' ≠ T := by rintro rfl; simp [ho] at h
    simpa [elect, hne] using h
  · intro T'
    by_cases hT : T' = T
    · subst hT; simp [hl]
    · simp [elect, hT]

theorem le_extend (g : Ghost n) (T : Int) (entry : LogEntry) : g ≤ g.extend T entry := by
  refine ⟨fun _ _ _ h => h, fun _ _ h => h, ?_, List.prefix_refl _⟩
  intro T'
  by_cases hT : T' = T
  · subst hT; simp [extend]
  · simp [extend, hT]

theorem le_commit {g : Ghost n} {i : Fin n} {log : List LogEntry} (h : g.committed <+: log) :
    g ≤ g.commit i log :=
  ⟨fun _ _ _ h => h, fun _ _ h => h, fun _ => List.prefix_refl _, h⟩

end Ghost

/-- The call's reply granted the vote. -/
def VoteCall.granted : VoteCall → Bool
  | .answered r => r.voteGranted
  | .counted r => r.voteGranted
  | _ => false

/-- The vote of this call has been counted. -/
def VoteCall.inTally : VoteCall → Bool
  | .counted r => r.voteGranted
  | _ => false

/-- The nodes whose votes `i` has counted in its last candidacy. -/
def Cluster.tallied (c : Cluster n) (i : Fin n) : Finset (Fin n) :=
  Finset.univ.filter fun j => (c.vote i j).inTally = true

theorem Cluster.mem_tallied {c : Cluster n} {i j : Fin n} :
    j ∈ c.tallied i ↔ (c.vote i j).inTally = true := by
  rw [Cluster.tallied, Finset.mem_filter]
  exact and_iff_right (Finset.mem_univ j)

/-- A request to `j` that may still arrive. -/
def Cluster.AppendRequest (c : Cluster n) (j : Fin n) (args : AppendEntriesArgs) : Prop :=
  (∃ i, c.append i j = .sent args) ∨ (j, args) ∈ c.lateAppends

/-- The vote bookkeeping of a cluster whose elections need every vote. -/
structure Votes (g : Ghost n) (c : Cluster n) : Prop where
  id : ∀ i, (c.node i).id = i
  peers : ∀ i, (c.node i).peers.length = n
  voted_le : ∀ j T i, g.voted j T i → T ≤ (c.node j).currentTerm
  voted_self : ∀ j T i, g.voted j T i → g.voted i T i
  counting_self : ∀ i T v, c.loop i = .counting T v → g.voted i T i
  counting_last : ∀ i T v, c.loop i = .counting T v → ∀ T', g.voted i T' i → T' ≤ T
  counting_owner : ∀ i T v, c.loop i = .counting T v → g.owner T ≠ some i
  counting_term : ∀ i T v, c.loop i = .counting T v → (c.node i).state = .candidate →
    (c.node i).currentTerm = T
  counting_votes : ∀ i T v, c.loop i = .counting T v → v = 1 + (c.tallied i).card
  granted : ∀ i T v, c.loop i = .counting T v → ∀ j, (c.vote i j).granted = true → g.voted j T i
  self_call : ∀ i, c.vote i i = .idle
  request : ∀ i j args, c.vote i j = .sent args → args.candidateId = i ∧ g.voted i args.term i
  request_term : ∀ i j args, c.vote i j = .sent args → ∀ T v, c.loop i = .counting T v →
    args.term = T
  late : ∀ j args, (j, args) ∈ c.lateVotes → ∃ i, i ≠ j ∧ args.candidateId = i ∧
    g.voted i args.term i ∧ ∀ T v, c.loop i = .counting T v → args.term < T
  own : ∀ j T, g.voted j T j → (c.node j).currentTerm = T → g.owner T = none →
    (c.node j).votedFor = j
  solo : ∀ j T, g.voted j T j → g.owner T = none → ∀ i, g.voted j T i → i = j
  owner_voted : ∀ T o, g.owner T = some o → ∀ j, g.voted j T o
  owner_solo : ∀ T o, g.owner T = some o → ∀ j, g.voted j T j → j = o
  leader : ∀ i, (c.node i).state = .leader → g.owner (c.node i).currentTerm = some i
  leader_loop : ∀ i, (c.node i).state = .leader → c.loop i = .top ∨ c.loop i = .leader
  append_owner : ∀ j args, c.AppendRequest j args → g.owner args.term ≠ none

namespace Votes

variable {g : Ghost n} {c c' : Cluster n}

theorem start (peers : List String) (hp : peers.length = n) (x : Fin n) :
    Votes (Ghost.start x) (Cluster.start peers) where
  id _ := rfl
  peers _ := hp
  voted_le _ _ _ h := h.elim
  voted_self _ _ _ h := h.elim
  counting_self _ _ _ h := by simp [Cluster.start] at h
  counting_last _ _ _ h := by simp [Cluster.start] at h
  counting_owner _ _ _ h := by simp [Cluster.start] at h
  counting_term _ _ _ h := by simp [Cluster.start] at h
  counting_votes _ _ _ h := by simp [Cluster.start] at h
  granted _ _ _ h := by simp [Cluster.start] at h
  self_call _ := rfl
  request _ _ _ h := by simp [Cluster.start] at h
  request_term _ _ _ h := by simp [Cluster.start] at h
  late _ _ h := by simp [Cluster.start] at h
  own _ _ h := h.elim
  solo _ _ h := h.elim
  owner_voted _ _ h := by simp [Ghost.start] at h
  owner_solo _ _ h := by simp [Ghost.start] at h
  leader _ h := by simp [Cluster.start, newNode] at h
  leader_loop _ h := by simp [Cluster.start, newNode] at h
  append_owner _ _ h := by simp [Cluster.AppendRequest, Cluster.start] at h

/-- A change of nothing but the append calls and the emitted messages. -/
theorem appends (h : Votes g c) (hnode : c'.node = c.node) (hloop : c'.loop = c.loop)
    (hvote : c'.vote = c.vote) (hlate : c'.lateVotes = c.lateVotes)
    (happ : ∀ j args, c'.AppendRequest j args → g.owner args.term ≠ none) : Votes g c' := by
  obtain ⟨node, loop, vote, append, lateVotes, lateAppends, emitted⟩ := c'
  simp only at hnode hloop hvote hlate
  subst hnode hloop hvote hlate
  exact { h with append_owner := happ }

/-- One node changes: its term does not fall, and what the bookkeeping says of its vote and of its
leadership holds of the new state. -/
theorem setNode (h : Votes g c) {p : Fin n} {nd : Node} (hid : nd.id = p)
    (hpeers : nd.peers.length = n) (hterm : (c.node p).currentTerm ≤ nd.currentTerm)
    (hcount : ∀ T v, c.loop p = .counting T v → nd.state = .candidate → nd.currentTerm = T)
    (hown : g.voted p nd.currentTerm p → g.owner nd.currentTerm = none → nd.votedFor = p)
    (hlead : nd.state = .leader → g.owner nd.currentTerm = some p ∧
      (c.loop p = .top ∨ c.loop p = .leader)) :
    Votes g (c.setNode p nd) := by
  refine { h with id := ?_, peers := ?_, voted_le := ?_, counting_term := ?_, own := ?_,
                  leader := ?_, leader_loop := ?_ }
  · intro i
    by_cases hi : i = p
    · subst hi; simpa using hid
    · simpa [hi] using h.id i
  · intro i
    by_cases hi : i = p
    · subst hi; simpa using hpeers
    · simpa [hi] using h.peers i
  · intro j T i hv
    have hle := h.voted_le j T i hv
    by_cases hj : j = p
    · subst hj; rw [Cluster.setNode_same]; omega
    · simpa [hj] using hle
  · intro i T v hl
    by_cases hi : i = p
    · subst hi; simpa using hcount T v hl
    · simpa [hi] using h.counting_term i T v hl
  · intro j T hv
    by_cases hj : j = p
    · subst hj
      rw [Cluster.setNode_same]
      rintro rfl
      exact hown hv
    · simpa [hj] using h.own j T hv
  · intro i
    by_cases hi : i = p
    · subst hi; simpa using fun hs => (hlead hs).1
    · simpa [hi] using h.leader i
  · intro i
    by_cases hi : i = p
    · subst hi; simpa using fun hs => (hlead hs).2
    · simpa [hi] using h.leader_loop i

theorem counting_of_setLoop {p i : Fin n} {l : Loop} {T v : Int} (hl : ∀ T v, l ≠ .counting T v)
    (hc : (c.setLoop p l).loop i = .counting T v) : c.loop i = .counting T v := by
  by_cases hi : i = p
  · subst hi
    exact absurd (by simpa using hc) (hl T v)
  · simpa [hi] using hc

/-- The goroutine of `run` moves, but not into a candidacy. -/
theorem setLoop (h : Votes g c) {p : Fin n} {l : Loop} (hl : ∀ T v, l ≠ .counting T v)
    (hlead : (c.node p).state = .leader → l = .top ∨ l = .leader) :
    Votes g (c.setLoop p l) := by
  have hback : ∀ i T v, (c.setLoop p l).loop i = .counting T v → c.loop i = .counting T v :=
    fun _ _ _ hc => counting_of_setLoop hl hc
  refine { h with
    counting_self := fun i T v hc => h.counting_self i T v (hback i T v hc)
    counting_last := fun i T v hc => h.counting_last i T v (hback i T v hc)
    counting_owner := fun i T v hc => h.counting_owner i T v (hback i T v hc)
    counting_term := fun i T v hc => h.counting_term i T v (hback i T v hc)
    counting_votes := fun i T v hc => h.counting_votes i T v (hback i T v hc)
    granted := fun i T v hc => h.granted i T v (hback i T v hc)
    request_term := fun i j args ha T v hc => h.request_term i j args ha T v (hback i T v hc)
    late := ?_
    leader_loop := ?_ }
  · intro j args ha
    obtain ⟨i, hij, hcand, hv, hlt⟩ := h.late j args ha
    exact ⟨i, hij, hcand, hv, fun T v hc => hlt T v (hback i T v hc)⟩
  · intro i
    by_cases hi : i = p
    · subst hi; simpa using hlead
    · simpa [hi] using h.leader_loop i

/-- A node grants its vote of its current term to another node, a candidate of that term. -/
theorem vote (h : Votes g c) {p i : Fin n} {T : Int} (hne : i ≠ p)
    (hT : T ≤ (c.node p).currentTerm) (hi : g.voted i T i)
    (hsolo : g.voted p T p → g.owner T ≠ none) : Votes (g.vote p T i) c := by
  have hself : ∀ j T', (g.vote p T i).voted j T' j → g.voted j T' j := by
    rintro j T' (hv | ⟨rfl, rfl, rfl⟩)
    · exact hv
    · exact absurd rfl hne
  refine { h with voted_le := ?_, voted_self := ?_, counting_self := ?_, counting_last := ?_,
                  granted := ?_, request := ?_, late := ?_, own := ?_, solo := ?_,
                  owner_voted := ?_, owner_solo := ?_ }
  · rintro j T' i' (hv | ⟨rfl, rfl, rfl⟩)
    · exact h.voted_le j T' i' hv
    · exact hT
  · rintro j T' i' (hv | ⟨rfl, rfl, rfl⟩)
    · exact Or.inl (h.voted_self j T' i' hv)
    · exact Or.inl hi
  · exact fun j T' v hl => Or.inl (h.counting_self j T' v hl)
  · exact fun j T' v hl T'' hv => h.counting_last j T' v hl T'' (hself j T'' hv)
  · exact fun j T' v hl k hk => Or.inl (h.granted j T' v hl k hk)
  · exact fun j k args ha => ⟨(h.request j k args ha).1, Or.inl (h.request j k args ha).2⟩
  · intro j args ha
    obtain ⟨k, hkj, hcand, hv, hlt⟩ := h.late j args ha
    exact ⟨k, hkj, hcand, Or.inl hv, hlt⟩
  · exact fun j T' hv => h.own j T' (hself j T' hv)
  · rintro j T' hv ho i' (hv' | ⟨rfl, rfl, rfl⟩)
    · exact h.solo j T' (hself j T' hv) ho i' hv'
    · exact absurd ho (hsolo (hself j T' hv))
  · exact fun T' o ho j => Or.inl (h.owner_voted T' o ho j)
  · exact fun T' o ho j hv => h.owner_solo T' o ho j (hself j T' hv)

/-- A request is answered; a granted vote is on record. -/
theorem answer (h : Votes g c) {i j : Fin n} {args : RequestVoteArgs} {r : RequestVoteReply}
    (hs : c.vote i j = .sent args)
    (hr : r.voteGranted = true → ∀ T v, c.loop i = .counting T v → g.voted j T i) :
    Votes g (c.setVote i j (.answered r)) := by
  have hij : i ≠ j := by
    rintro rfl
    simp [h.self_call i] at hs
  refine { h with counting_votes := ?_, granted := ?_, self_call := ?_, request := ?_,
                  request_term := ?_ }
  · intro k T v hl
    rw [h.counting_votes k T v hl]
    congr 3
    ext m
    rw [Cluster.mem_tallied, Cluster.mem_tallied, Cluster.setVote_apply]
    split
    · next hk => rw [hk.1, hk.2, hs]; rfl
    · rfl
  · intro k T v hl m hm
    simp only [Cluster.setVote_apply] at hm
    split at hm
    · next hk =>
      obtain ⟨rfl, rfl⟩ := hk
      exact hr hm T v hl
    · exact h.granted k T v hl m hm
  · intro k
    rw [Cluster.setVote_apply, if_neg (fun hk => hij (hk.1.symm.trans hk.2))]
    exact h.self_call k
  · intro k m args' ha
    rw [Cluster.setVote_apply] at ha
    split at ha
    · simp at ha
    · exact h.request k m args' ha
  · intro k m args' ha
    rw [Cluster.setVote_apply] at ha
    split at ha
    · simp at ha
    · exact h.request_term k m args' ha

theorem eraseLate (h : Votes g c) (k : Nat) :
    Votes g { c with lateVotes := c.lateVotes.eraseIdx k } :=
  { h with late := fun j args ha => h.late j args (List.mem_of_mem_eraseIdx ha) }

theorem tallied_counted {i j : Fin n} {r : RequestVoteReply} (hv : c.vote i j = .answered r) :
    ((c.setVote i j (.counted r)).tallied i).card =
      (c.tallied i).card + (if r.voteGranted then 1 else 0) := by
  have hnot : j ∉ c.tallied i := by
    rw [Cluster.mem_tallied, hv]
    simp [VoteCall.inTally]
  by_cases hg : r.voteGranted = true
  · rw [if_pos hg, ← Finset.card_insert_of_notMem hnot]
    congr 1
    ext m
    rw [Finset.mem_insert, Cluster.mem_tallied, Cluster.mem_tallied, Cluster.setVote_apply]
    by_cases hm : m = j
    · simpa [hm, VoteCall.inTally] using hg
    · simp [hm]
  · rw [if_neg hg, Nat.add_zero]
    congr 1
    ext m
    rw [Cluster.mem_tallied, Cluster.mem_tallied, Cluster.setVote_apply]
    by_cases hm : m = j
    · simpa [hm, VoteCall.inTally, hv] using hg
    · simp [hm]

/-- Counting a vote leaves every candidate the term it counts for. -/
theorem counting_of_tally {i j k : Fin n} {T T' u v v' : Int} {x : VoteCall}
    (hl : c.loop i = .counting T v)
    (hc : ((c.setVote i j x).setLoop i (.counting T u)).loop k = .counting T' v') :
    ∃ w, c.loop k = .counting T' w := by
  by_cases hk : k = i
  · subst hk
    simp only [Cluster.setLoop_same, Loop.counting.injEq] at hc
    exact ⟨v, by rw [hl, hc.1]⟩
  · exact ⟨v', by simpa [hk] using hc⟩

/-- A reply is read from the channel and the candidacy goes on. -/
theorem tally (h : Votes g c) {i j : Fin n} {T v : Int} {r : RequestVoteReply}
    (hl : c.loop i = .counting T v) (hv : c.vote i j = .answered r) :
    Votes g ((c.setVote i j (.counted r)).setLoop i
      (.counting T (v + (if r.voteGranted then 1 else 0)))) := by
  have hij : i ≠ j := by
    rintro rfl
    simp [h.self_call i] at hv
  refine { h with counting_self := ?_, counting_last := ?_, counting_owner := ?_,
                  counting_term := ?_, counting_votes := ?_, granted := ?_, self_call := ?_,
                  request := ?_, request_term := ?_, late := ?_, leader_loop := ?_ }
  · intro k T' v' hc
    obtain ⟨w, hw⟩ := counting_of_tally hl hc
    exact h.counting_self k T' w hw
  · intro k T' v' hc
    obtain ⟨w, hw⟩ := counting_of_tally hl hc
    exact h.counting_last k T' w hw
  · intro k T' v' hc
    obtain ⟨w, hw⟩ := counting_of_tally hl hc
    exact h.counting_owner k T' w hw
  · intro k T' v' hc
    obtain ⟨w, hw⟩ := counting_of_tally hl hc
    exact h.counting_term k T' w hw
  · intro k T' v' hc
    by_cases hk : k = i
    · subst hk
      simp only [Cluster.setLoop_same, Loop.counting.injEq] at hc
      have hcard := tallied_counted (r := r) hv
      change v' = 1 + (((c.setVote k j (.counted r)).tallied k).card : Int)
      rw [← hc.2, hcard, h.counting_votes k T v hl]
      split <;> push_cast <;> omega
    · have hc' : c.loop k = .counting T' v' := by simpa [hk] using hc
      rw [h.counting_votes k T' v' hc']
      congr 3
      ext m
      rw [Cluster.mem_tallied, Cluster.mem_tallied, Cluster.setLoop_vote, Cluster.setVote_apply,
        if_neg (fun hkm => hk hkm.1)]
  · intro k T' v' hc m hm
    obtain ⟨w, hw⟩ := counting_of_tally hl hc
    refine h.granted k T' w hw m ?_
    simp only [Cluster.setLoop_vote, Cluster.setVote_apply] at hm
    split at hm
    · next hkm => rw [hkm.1, hkm.2, hv]; exact hm
    · exact hm
  · intro k
    rw [Cluster.setLoop_vote, Cluster.setVote_apply,
      if_neg (fun hk => hij (hk.1.symm.trans hk.2))]
    exact h.self_call k
  · intro k m args ha
    rw [Cluster.setLoop_vote, Cluster.setVote_apply] at ha
    split at ha
    · simp at ha
    · exact h.request k m args ha
  · intro k m args ha T' v' hc
    obtain ⟨w, hw⟩ := counting_of_tally hl hc
    rw [Cluster.setLoop_vote, Cluster.setVote_apply] at ha
    split at ha
    · simp at ha
    · exact h.request_term k m args ha T' w hw
  · intro m args ha
    obtain ⟨k, hkm, hcand, hvk, hlt⟩ := h.late m args ha
    refine ⟨k, hkm, hcand, hvk, fun T' v' hc => ?_⟩
    obtain ⟨w, hw⟩ := counting_of_tally hl hc
    exact hlt T' w hw
  · intro k hk
    have hold := h.leader_loop k hk
    by_cases hki : k = i
    · subst hki; simp [hl] at hold
    · simpa [hki] using hold

theorem mem_unsentVotes {i j : Fin n} {args : RequestVoteArgs}
    (h : (j, args) ∈ c.unsentVotes i) : c.vote i j = .sent args := by
  simp only [Cluster.unsentVotes, List.mem_filterMap, List.mem_finRange, true_and] at h
  obtain ⟨k, hk⟩ := h
  split at hk
  · next args' hs =>
    simp only [Option.some.injEq, Prod.mk.injEq] at hk
    rw [← hk.1, hs, hk.2]
  · simp at hk

/-- A node without a candidacy gives up on the calls of its last one; the requests that are still
under way may arrive. -/
theorem retire (h : Votes g c) {i : Fin n} (hl : ∀ T v, c.loop i ≠ .counting T v) :
    Votes g { c with
      vote := Function.update c.vote i fun _ => .idle
      lateVotes := c.lateVotes ++ c.unsentVotes i } := by
  have hne : ∀ k T v, c.loop k = .counting T v → k ≠ i := by
    rintro k T v hc rfl
    exact hl T v hc
  refine { h with counting_votes := ?_, granted := ?_, self_call := ?_, request := ?_,
                  request_term := ?_, late := ?_ }
  · intro k T v hc
    rw [h.counting_votes k T v hc]
    congr 3
    ext m
    rw [Cluster.mem_tallied, Cluster.mem_tallied]
    simp [hne k T v hc]
  · intro k T v hc m hm
    exact h.granted k T v hc m (by simpa [hne k T v hc] using hm)
  · intro k
    by_cases hk : k = i
    · subst hk; simp
    · simpa [hk] using h.self_call k
  · intro k m args ha
    by_cases hk : k = i
    · subst hk; simp at ha
    · exact h.request k m args (by simpa [hk] using ha)
  · intro k m args ha T v hc
    exact h.request_term k m args (by simpa [hne k T v hc] using ha) T v hc
  · intro j args ha
    rcases List.mem_append.mp ha with ha | ha
    · exact h.late j args ha
    · have hsent := mem_unsentVotes ha
      obtain ⟨hc, hv⟩ := h.request i j args hsent
      refine ⟨i, ?_, hc, hv, fun T v hc => absurd hc (hl T v)⟩
      rintro rfl
      simp [h.self_call i] at hsent

/-- A node without a candidacy gives its vote of its current term, the first one, to itself. -/
theorem voteSelf (h : Votes g c) {i : Fin n} {T : Int} (hl : ∀ T v, c.loop i ≠ .counting T v)
    (hT : (c.node i).currentTerm = T) (hfor : (c.node i).votedFor = i)
    (hfresh : ∀ k, ¬ g.voted i T k) (howner : g.owner T = none) : Votes (g.vote i T i) c := by
  have hself : ∀ j T', (g.vote i T i).voted j T' j → g.voted j T' j ∨ j = i ∧ T' = T := by
    rintro j T' (hv | ⟨rfl, rfl, -⟩)
    · exact Or.inl hv
    · exact Or.inr ⟨rfl, rfl⟩
  refine { h with voted_le := ?_, voted_self := ?_, counting_self := ?_, counting_last := ?_,
                  granted := ?_, request := ?_, late := ?_, own := ?_, solo := ?_,
                  owner_voted := ?_, owner_solo := ?_ }
  · rintro j T' i' (hv | ⟨rfl, rfl, rfl⟩)
    · exact h.voted_le j T' i' hv
    · exact hT.ge
  · rintro j T' i' (hv | ⟨rfl, rfl, rfl⟩)
    · exact Or.inl (h.voted_self j T' i' hv)
    · exact Or.inr ⟨rfl, rfl, rfl⟩
  · exact fun j T' v hc => Or.inl (h.counting_self j T' v hc)
  · intro j T' v hc T'' hv
    rcases hself j T'' hv with hv | ⟨rfl, -⟩
    · exact h.counting_last j T' v hc T'' hv
    · exact absurd hc (hl T' v)
  · exact fun j T' v hc k hk => Or.inl (h.granted j T' v hc k hk)
  · exact fun j k args ha => ⟨(h.request j k args ha).1, Or.inl (h.request j k args ha).2⟩
  · intro j args ha
    obtain ⟨k, hkj, hcand, hv, hlt⟩ := h.late j args ha
    exact ⟨k, hkj, hcand, Or.inl hv, hlt⟩
  · intro j T' hv
    rcases hself j T' hv with hv | ⟨rfl, -⟩
    · exact h.own j T' hv
    · exact fun _ _ => hfor
  · rintro j T' hv ho i' (hv' | ⟨rfl, rfl, rfl⟩)
    · rcases hself j T' hv with hv | ⟨rfl, rfl⟩
      · exact h.solo j T' hv ho i' hv'
      · exact absurd hv' (hfresh i')
    · rfl
  · exact fun T' o ho j => Or.inl (h.owner_voted T' o ho j)
  · intro T' o ho j hv
    rcases hself j T' hv with hv | ⟨rfl, rfl⟩
    · exact h.owner_solo T' o ho j hv
    · change g.owner T' = some o at ho
      simp [howner] at ho

/-- A candidate that has voted for itself asks the other nodes; its own vote is the first one of the
count. -/
theorem campaign (h : Votes g c) {i : Fin n} {args : RequestVoteArgs}
    (hcand : args.candidateId = i) (hvoted : g.voted i args.term i)
    (hlast : ∀ T, g.voted i T i → T ≤ args.term) (howner : g.owner args.term = none)
    (hterm : (c.node i).currentTerm = args.term) (hlead : (c.node i).state ≠ .leader)
    (hlate : ∀ j r, (j, r) ∈ c.lateVotes → r.candidateId = i → r.term < args.term) :
    Votes g { c.setLoop i (.counting args.term 1) with
      vote := Function.update c.vote i (Cluster.newVotes i args) } := by
  have hloop : ∀ k T v, (c.setLoop i (.counting args.term 1)).loop k = .counting T v →
      k = i ∧ T = args.term ∧ v = 1 ∨ k ≠ i ∧ c.loop k = .counting T v := by
    intro k T v hc
    by_cases hk : k = i
    · subst hk
      simp only [Cluster.setLoop_same, Loop.counting.injEq] at hc
      exact Or.inl ⟨rfl, hc.1.symm, hc.2.symm⟩
    · exact Or.inr ⟨hk, by simpa [hk] using hc⟩
  have hsent : ∀ m r, Cluster.newVotes i args m = .sent r → r = args := by
    intro m r hr
    rw [Cluster.newVotes] at hr
    split at hr
    · cases hr
    · exact (VoteCall.sent.inj hr).symm
  refine { h with counting_self := ?_, counting_last := ?_, counting_owner := ?_,
                  counting_term := ?_, counting_votes := ?_, granted := ?_, self_call := ?_,
                  request := ?_, request_term := ?_, late := ?_, leader_loop := ?_ }
  · intro k T v hc
    rcases hloop k T v hc with ⟨rfl, rfl, -⟩ | ⟨-, hc⟩
    · exact hvoted
    · exact h.counting_self k T v hc
  · intro k T v hc
    rcases hloop k T v hc with ⟨rfl, rfl, -⟩ | ⟨-, hc⟩
    · exact hlast
    · exact h.counting_last k T v hc
  · intro k T v hc
    rcases hloop k T v hc with ⟨rfl, rfl, -⟩ | ⟨-, hc⟩
    · simp [howner]
    · exact h.counting_owner k T v hc
  · intro k T v hc
    rcases hloop k T v hc with ⟨rfl, rfl, -⟩ | ⟨-, hc⟩
    · exact fun _ => hterm
    · exact h.counting_term k T v hc
  · intro k T v hc
    rcases hloop k T v hc with ⟨rfl, rfl, rfl⟩ | ⟨hk, hc⟩
    · rw [Finset.card_eq_zero.mpr ?_]
      · rfl
      · ext m
        rw [Cluster.mem_tallied]
        simp only [Function.update_self, Cluster.newVotes]
        split <;> simp [VoteCall.inTally]
    · rw [h.counting_votes k T v hc]
      congr 3
      ext m
      rw [Cluster.mem_tallied, Cluster.mem_tallied]
      simp [hk]
  · intro k T v hc m hm
    rcases hloop k T v hc with ⟨rfl, rfl, -⟩ | ⟨hk, hc⟩
    · simp only [Function.update_self, Cluster.newVotes] at hm
      split at hm <;> simp [VoteCall.granted] at hm
    · exact h.granted k T v hc m (by simpa [hk] using hm)
  · intro k
    by_cases hk : k = i
    · subst hk; simp [Cluster.newVotes]
    · simpa [hk] using h.self_call k
  · intro k m r hr
    by_cases hk : k = i
    · subst hk
      rw [hsent m r (by simpa using hr)]
      exact ⟨hcand, hvoted⟩
    · exact h.request k m r (by simpa [hk] using hr)
  · intro k m r hr T v hc
    rcases hloop k T v hc with ⟨rfl, rfl, -⟩ | ⟨hk, hc⟩
    · rw [hsent m r (by simpa using hr)]
    · exact h.request_term k m r (by simpa [hk] using hr) T v hc
  · intro j r hr
    obtain ⟨k, hkj, hc, hv, hlt⟩ := h.late j r hr
    refine ⟨k, hkj, hc, hv, fun T v hcount => ?_⟩
    rcases hloop k T v hcount with ⟨rfl, rfl, -⟩ | ⟨-, hcount⟩
    · exact hlate j r hr hc
    · exact hlt T v hcount
  · intro k
    by_cases hk : k = i
    · subst hk; exact fun hst => absurd hst hlead
    · simpa [hk] using h.leader_loop k

/-- A node stands for election: it enters a term in which it has given no vote and that has no
owner, and votes for itself. -/
theorem stand (h : Votes g c) {i : Fin n} {nd : Node} {args : RequestVoteArgs}
    (hl : c.loop i = .candidate) (hs : (c.node i).startElection = some (nd, args)) :
    Votes (g.vote i args.term i) { (c.setNode i nd).setLoop i (.counting args.term 1) with
      vote := Function.update c.vote i (Cluster.newVotes i args)
      lateVotes := c.lateVotes ++ c.unsentVotes i } := by
  obtain ⟨-, hnd, hargs⟩ := Node.startElection_cases hs
  have hT : args.term = (c.node i).currentTerm + 1 := by rw [hargs]
  have hterm : nd.currentTerm = args.term := by rw [hnd, hargs]
  have hcount : ∀ T v, c.loop i ≠ .counting T v := by simp [hl]
  have hfresh : ∀ k, ¬ g.voted i args.term k := by
    intro k hv
    have := h.voted_le i _ k hv
    omega
  have howner : g.owner args.term = none := by
    cases ho : g.owner args.term with
    | none => rfl
    | some o => exact absurd (h.owner_voted _ o ho i) (hfresh o)
  have hlead : nd.state ≠ .leader := by
    intro hst
    rw [hnd] at hst
    have := h.leader_loop i hst
    simp [hl] at this
  have hid : nd.id = i := by rw [hnd]; exact h.id i
  have hretired := h.retire hcount
  have hentered := hretired.setNode (p := i) hid (by rw [hnd]; exact h.peers i)
    (by rw [hterm, hT]; exact Int.le_add_one le_rfl) (fun T v hc => absurd hc (hcount T v))
    (fun hv => absurd (hterm ▸ hv) (hfresh i)) fun hst => absurd hst hlead
  have hvoted := hentered.voteSelf (i := i) (T := args.term) hcount (by simpa using hterm)
    (by simpa [hnd] using h.id i) hfresh howner
  have hlast : ∀ T, (g.vote i args.term i).voted i T i → T ≤ args.term := by
    rintro T (hv | ⟨-, rfl, -⟩)
    · have := h.voted_le i T i hv
      omega
    · exact le_rfl
  -- the node has asked for every vote that is still under way before this term
  have hlate : ∀ j r, (j, r) ∈ c.lateVotes ++ c.unsentVotes i → r.candidateId = i →
      r.term < args.term := by
    intro j r hr hc
    obtain ⟨k, -, hk, hv, -⟩ := hretired.late j r hr
    obtain rfl : k = i := Fin.ext (by exact_mod_cast hk.symm.trans hc)
    have := h.voted_le k r.term k hv
    omega
  have := hvoted.campaign (by rw [hargs]; exact h.id i) (Or.inr ⟨rfl, rfl, rfl⟩) hlast howner
    (by simpa using hterm) (by simpa using hlead) hlate
  simpa [Cluster.setNode, Cluster.setLoop] using this

/-- A count that reaches the number of nodes holds the vote of every node, so the term has no owner
yet. -/
theorem unanimous (h : Votes g c) {i : Fin n} {T v : Int} (hl : c.loop i = .counting T v)
    (hv : n ≤ v) : (∀ j, g.voted j T i) ∧ g.owner T = none := by
  have hi : i ∉ c.tallied i := by
    rw [Cluster.mem_tallied, h.self_call i]
    simp [VoteCall.inTally]
  have hcard := h.counting_votes i T v hl
  have hall : insert i (c.tallied i) = Finset.univ := by
    apply Finset.eq_univ_of_card
    rw [Finset.card_insert_of_notMem hi, Fintype.card_fin]
    have hle := Finset.card_le_univ (insert i (c.tallied i))
    rw [Finset.card_insert_of_notMem hi, Fintype.card_fin] at hle
    omega
  have hvoted : ∀ j, g.voted j T i := by
    intro j
    have hj : j ∈ insert i (c.tallied i) := by rw [hall]; exact Finset.mem_univ j
    rcases Finset.mem_insert.mp hj with rfl | hj
    · exact h.counting_self j T v hl
    · refine h.granted i T v hl j ?_
      rw [Cluster.mem_tallied] at hj
      cases hc : c.vote i j <;> simp [hc, VoteCall.inTally, VoteCall.granted] at hj ⊢
      exact hj
  refine ⟨hvoted, ?_⟩
  cases ho : g.owner T with
  | none => rfl
  | some o =>
    have := h.owner_solo T o ho i (hvoted i)
    exact absurd (this ▸ ho) (h.counting_owner i T v hl)

/-- A term that every node has voted in for `i` becomes `i`'s. -/
theorem elect (h : Votes g c) {i : Fin n} {T : Int} {log : List LogEntry}
    (hl : ∀ T v, c.loop i ≠ .counting T v) (hv : ∀ j, g.voted j T i) (ho : g.owner T = none) :
    Votes (g.elect i T log) c := by
  have hback : ∀ T', (g.elect i T log).owner T' = none → g.owner T' = none := by
    intro T' h'
    by_cases hT : T' = T
    · subst hT; exact ho
    · simpa [Ghost.elect, hT] using h'
  refine { h with counting_owner := ?_, own := ?_, solo := ?_, owner_voted := ?_,
                  owner_solo := ?_, leader := ?_, append_owner := ?_ }
  · intro k T' v hc
    by_cases hT : T' = T
    · subst hT
      simp only [Ghost.elect, Function.update_self, ne_eq, Option.some.injEq]
      rintro rfl
      exact hl T' v hc
    · simpa [Ghost.elect, hT] using h.counting_owner k T' v hc
  · exact fun j T' hj ht hown => h.own j T' hj ht (hback T' hown)
  · exact fun j T' hj hown => h.solo j T' hj (hback T' hown)
  · intro T' o hown j
    by_cases hT : T' = T
    · subst hT
      simp only [Ghost.elect, Function.update_self, Option.some.injEq] at hown
      subst hown
      exact hv j
    · exact h.owner_voted T' o (by simpa [Ghost.elect, hT] using hown) j
  · intro T' o hown j hj
    by_cases hT : T' = T
    · subst hT
      simp only [Ghost.elect, Function.update_self, Option.some.injEq] at hown
      subst hown
      exact (h.solo j T' hj ho i (hv j)).symm
    · exact h.owner_solo T' o (by simpa [Ghost.elect, hT] using hown) j hj
  · intro k hk
    have hold := h.leader k hk
    have hT : (c.node k).currentTerm ≠ T := by
      rintro rfl
      simp [ho] at hold
    simpa [Ghost.elect, hT] using hold
  · intro j args ha hnone
    exact h.append_owner j args ha (hback _ hnone)

end Votes

end KvRaft.Raft
