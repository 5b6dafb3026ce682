import KvRaft.Raft.Logs

/-! What leaders have committed. The committed log only grows, every later leader has it, and what
the nodes apply is its beginning. With elections that need every vote, the log of the node that
committed last is among the logs that a candidate must match. -/

namespace KvRaft.Raft

open Lineage

variable {n : Nat}

/-- The committed log against the logs, the requests and the applied entries of the cluster. -/
structure Commits (g : Ghost n) (c : Cluster n) : Prop where
  ne_nil : g.committed ≠ []
  later : ∀ T, lastTerm LogEntry.term g.committed ≤ T → g.leaderLog T ≠ [] →
    g.committed <+: g.leaderLog T
  committer : g.committed <+: (c.node g.committer).log
  candidate : ∀ i T v, c.loop i = .counting T v → (c.node i).state = .candidate →
    g.voted g.committer T i → lastTerm LogEntry.term g.committed < T →
    g.committed <+: (c.node i).log
  commit : ∀ i, (c.node i).commitIndex < (c.node i).log.length ∧
    (c.node i).log.take ((c.node i).commitIndex + 1) <+: g.committed
  applied : ∀ i, (c.node i).lastApplied ≤ (c.node i).commitIndex
  emitted : ∀ i, c.emitted i =
    (g.committed.take ((c.node i).lastApplied + 1)).tail.map LogEntry.toMsg
  request : ∀ j args, c.AppendRequest j args →
    args.leaderCommit ≤ args.prevLogIndex + args.entries.length ∧
      (g.leaderLog args.term).take (args.leaderCommit.toNat + 1) <+: g.committed

namespace Commits

variable {g : Ghost n} {c c' : Cluster n}

theorem start (peers : List String) (x : Fin n) :
    Commits (Ghost.start x) (Cluster.start peers) where
  ne_nil := by simp [Ghost.start]
  later T _ h := by
    by_cases hT : T = 0
    · simp [Ghost.start, hT]
    · simp [Ghost.start, hT] at h
  committer := List.prefix_refl _
  candidate _ _ _ h := by simp [Cluster.start] at h
  commit _ := ⟨by simp [Cluster.start, newNode], by simp [Cluster.start, newNode, Ghost.start]⟩
  applied _ := le_rfl
  emitted _ := by simp [Cluster.start, newNode, Ghost.start]
  request _ _ h := by simp [Cluster.AppendRequest, Cluster.start] at h

theorem wellFormed (hl : Logs g c) (h : Commits g c) :
    WellFormed g.leaderLog (c.node g.committer).currentTerm g.committed :=
  (hl.log g.committer).restrict h.committer h.ne_nil

/-- Every node has reached the term of the last committed entry. -/
theorem lastTerm_le (hv : Votes g c) (hl : Logs g c) (h : Commits g c) (i : Fin n) :
    lastTerm LogEntry.term g.committed ≤ (c.node i).currentTerm := by
  refine hl.owner_le hv (fun hnil => h.ne_nil ?_) i
  have := (h.wellFormed hl).traced.prefix_lastTerm h.ne_nil
  simpa [hnil] using this

theorem leader (hv : Votes g c) (hl : Logs g c) (h : Commits g c) {i : Fin n}
    (hi : (c.node i).state = .leader) : g.committed <+: (c.node i).log := by
  rw [← hl.leader i hi]
  refine h.later _ (h.lastTerm_le hv hl i) ?_
  rw [hl.leader i hi]
  exact (hl.log i).ne_nil

theorem length_le (h : Commits g c) (i : Fin n) :
    (c.node i).commitIndex < g.committed.length := by
  obtain ⟨hlt, hp⟩ := h.commit i
  have := hp.length_le
  rw [List.length_take] at this
  omega

/-- A change of calls and goroutines only. -/
theorem frame (h : Commits g c) (hnode : c'.node = c.node) (hemit : c'.emitted = c.emitted)
    (hreq : ∀ j args, c'.AppendRequest j args →
      args.leaderCommit ≤ args.prevLogIndex + args.entries.length ∧
        (g.leaderLog args.term).take (args.leaderCommit.toNat + 1) <+: g.committed)
    (hcand : ∀ i T v, c'.loop i = .counting T v → ∃ v', c.loop i = .counting T v') :
    Commits g c' := by
  obtain ⟨node, loop, vote, append, lateVotes, lateAppends, emitted⟩ := c'
  simp only at hnode hemit
  subst hnode hemit
  refine { h with request := hreq, candidate := ?_ }
  intro i T v hc
  obtain ⟨v', hc'⟩ := hcand i T v hc
  exact h.candidate i T v' hc'

/-- One node changes and keeps what it has committed. -/
theorem setNode (h : Commits g c) {p : Fin n} {nd : Node}
    (hcommit : nd.commitIndex < nd.log.length ∧
      nd.log.take (nd.commitIndex + 1) <+: g.committed)
    (happ : nd.lastApplied = (c.node p).lastApplied) (hle : nd.lastApplied ≤ nd.commitIndex)
    (hkeep : g.committed <+: (c.node p).log → g.committed <+: nd.log)
    (hcand : ∀ T v, c.loop p = .counting T v → nd.state = .candidate →
      (c.node p).state = .candidate) : Commits g (c.setNode p nd) := by
  refine { h with committer := ?_, candidate := ?_, commit := ?_, applied := ?_, emitted := ?_ }
  · by_cases hp : g.committer = p
    · rw [hp, Cluster.setNode_same]
      exact hkeep (hp ▸ h.committer)
    · simpa [hp] using h.committer
  · intro i T v hc
    by_cases hi : i = p
    · subst hi
      intro hst hv hlt
      simp only [Cluster.setNode_same] at hst ⊢
      exact hkeep (h.candidate i T v hc (hcand T v hc hst) hv hlt)
    · simpa [hi] using h.candidate i T v hc
  · intro i
    by_cases hi : i = p
    · subst hi; simpa using hcommit
    · simpa [hi] using h.commit i
  · intro i
    by_cases hi : i = p
    · subst hi; simpa using hle
    · simpa [hi] using h.applied i
  · intro i
    by_cases hi : i = p
    · subst hi; simpa [happ] using h.emitted i
    · simpa [hi] using h.emitted i

/-- A vote of the node that committed last goes to a candidate whose log holds the committed one. -/
theorem vote (h : Commits g c) {p i : Fin n} {T : Int}
    (hvote : ∀ v, c.loop i = .counting T v → (c.node i).state = .candidate →
      lastTerm LogEntry.term g.committed < T → g.committed <+: (c.node p).log →
      g.committed <+: (c.node i).log) : Commits (g.vote p T i) c := by
  refine { h with candidate := ?_ }
  rintro k T' v hc hst (hv | ⟨hp, rfl, rfl⟩) hlt
  · exact h.candidate k T' v hc hst hv hlt
  · exact hvote v hc hst hlt (hp ▸ h.committer)

/-- The up-to-date check of a granted vote. -/
theorem upToDate (hl : Logs g c) (h : Commits g c) {i j : Fin n} {args : RequestVoteArgs}
    (hup : Node.UpToDate args (c.node j).log)
    (hidx : args.lastLogIndex = ((c.node i).log.length : Int) - 1)
    (hterm : args.lastLogTerm = lastTerm LogEntry.term (c.node i).log)
    (hj : g.committed <+: (c.node j).log) : g.committed <+: (c.node i).log := by
  refine prefix_of_upToDate (hl.log i).traced (hl.log j).sorted h.ne_nil (h.wellFormed hl).sorted
    hj (hl.log i).ne_nil h.later ?_
  rw [Node.UpToDate, hidx, hterm] at hup
  rcases hup with hlt | ⟨heq, hlen⟩
  · exact Or.inl hlt
  · exact Or.inr ⟨heq.symm, by omega⟩

/-- A new leader that every node has voted for has the committed log. -/
theorem elect (hl : Logs g c) (h : Commits g c) {i : Fin n} {T v : Int}
    (hc : c.loop i = .counting T v) (hst : (c.node i).state = .candidate)
    (hvoted : ∀ j, g.voted j T i) (hnil : g.leaderLog T = []) :
    Commits (g.elect i T (c.node i).log) c := by
  have hsame : ∀ T', T' ≠ T → (g.elect i T (c.node i).log).leaderLog T' = g.leaderLog T' := by
    intro T' hne
    simp [Ghost.elect, hne]
  refine { h with later := ?_, request := ?_ }
  · intro T' hle hne
    by_cases hT : T' = T
    · subst hT
      have hlt : lastTerm LogEntry.term g.committed < T' := by
        refine lt_of_le_of_ne hle fun heq => ?_
        have := (h.wellFormed hl).traced.prefix_lastTerm h.ne_nil
        rw [heq, hnil] at this
        exact h.ne_nil (List.prefix_nil.mp this)
      simpa [Ghost.elect] using h.candidate i T' v hc hst (hvoted _) hlt
    · rw [hsame T' hT] at hne ⊢
      exact h.later T' hle hne
  · intro j args ha
    have hT : args.term ≠ T := by
      rintro rfl
      obtain ⟨k, -, ⟨hk, -⟩, -⟩ := hl.request j args ha
      rw [hnil] at hk
      simp at hk
    rw [hsame _ hT]
    exact h.request j args ha

/-- A leader's new entry changes nothing that is committed. -/
theorem extend (hl : Logs g c) (h : Commits g c) {T : Int} {e : LogEntry}
    (hne : g.leaderLog T ≠ []) : Commits (g.extend T e) c := by
  have hle := (Ghost.le_extend g T e).2.2.1
  refine { h with later := ?_, request := ?_ }
  · intro T' hT hne'
    by_cases hT' : T' = T
    · subst hT'
      exact (h.later T' hT hne).trans (hle T')
    · simp only [Ghost.extend, ne_eq, hT', not_false_eq_true, Function.update_of_ne] at hne' ⊢
      exact h.later T' hT hne'
  · intro j args ha
    obtain ⟨hlc, hp⟩ := h.request j args ha
    obtain ⟨k, hk, ⟨hkl, -⟩, hentries⟩ := hl.request j args ha
    have hlen := hentries.length_le
    rw [List.length_drop] at hlen
    refine ⟨hlc, ?_⟩
    rw [take_prefix_eq (hle args.term) (by omega)]
    exact hp

/-- A leader commits up to an entry of its own term: no later term has a leader yet. -/
theorem advance (hv : Votes g c) (hl : Logs g c) (h : Commits g c) {i : Fin n} {N : Nat}
    (hlead : (c.node i).state = .leader)
    (hN : (c.node i).log[N]?.map LogEntry.term = some (c.node i).currentTerm)
    (hp : g.committed <+: (c.node i).log.take (N + 1)) :
    Commits (g.commit i ((c.node i).log.take (N + 1))) c := by
  obtain ⟨e, he, ht⟩ := Option.map_eq_some_iff.mp hN
  obtain ⟨hlen, rfl⟩ := List.getElem?_eq_some_iff.mp he
  have hlast : lastTerm LogEntry.term ((c.node i).log.take (N + 1)) = (c.node i).currentTerm := by
    rw [← ht, List.take_succ_eq_append_getElem hlen, lastTerm_append]
  constructor
  · refine List.ne_nil_of_length_pos ?_
    change 0 < ((c.node i).log.take (N + 1)).length
    rw [List.length_take]
    omega
  · intro T hle hne
    have hT : T = (c.node i).currentTerm := by
      refine le_antisymm (hl.owner_le hv hne i) ?_
      rw [← hlast]
      exact hle
    subst hT
    change (c.node i).log.take (N + 1) <+: g.leaderLog _
    rw [hl.leader i hlead]
    exact List.take_prefix _ _
  · exact List.take_prefix _ _
  · intro k T v _ _ hvoted hlt
    have hle := hv.voted_le i T k hvoted
    have : (c.node i).currentTerm < T := hlast ▸ hlt
    omega
  · exact fun k => ⟨(h.commit k).1, (h.commit k).2.trans hp⟩
  · exact h.applied
  · intro k
    change c.emitted k =
      (((c.node i).log.take (N + 1)).take ((c.node k).lastApplied + 1)).tail.map LogEntry.toMsg
    have hle := h.length_le k
    have happ := h.applied k
    rw [take_prefix_eq hp (by omega)]
    exact h.emitted k
  · exact fun j args ha => ⟨(h.request j args ha).1, (h.request j args ha).2.trans hp⟩

/-- A node applies its next committed entry. -/
theorem apply (h : Commits g c) {i : Fin n} {nd : Node} {msg : ApplyMsg}
    (ha : (c.node i).applyNext = some (nd, msg)) :
    Commits g { c.setNode i nd with
      emitted := Function.update c.emitted i (c.emitted i ++ [msg]) } := by
  obtain ⟨hlt, rfl, hlen, rfl⟩ := Node.applyNext_cases ha
  have hle := h.length_le i
  obtain ⟨hci, hp⟩ := h.commit i
  have hget : g.committed[(c.node i).lastApplied + 1] =
      (c.node i).log[(c.node i).lastApplied + 1] := by
    rw [getElem_prefix_eq hp (by rw [List.length_take]; omega), List.getElem_take]
  refine { h with committer := ?_, candidate := ?_, commit := ?_, applied := ?_, emitted := ?_ }
  · by_cases hi : g.committer = i
    · rw [hi]
      simpa [← hi] using h.committer
    · simpa [hi] using h.committer
  · intro k T v hc
    by_cases hk : k = i
    · subst hk; simpa using h.candidate k T v hc
    · simpa [hk] using h.candidate k T v hc
  · intro k
    by_cases hk : k = i
    · subst hk; simpa using h.commit k
    · simpa [hk] using h.commit k
  · intro k
    by_cases hk : k = i
    · subst hk; simpa using Nat.succ_le_of_lt hlt
    · simpa [hk] using h.applied k
  · intro k
    by_cases hk : k = i
    · subst hk
      simp only [Function.update_self, Cluster.setNode_same]
      rw [h.emitted k, List.take_succ_eq_append_getElem
        (by omega : (c.node k).lastApplied + 1 < g.committed.length),
        List.tail_append_of_ne_nil, List.map_append, hget]
      · rfl
      · exact List.ne_nil_of_length_pos (by rw [List.length_take]; omega)
    · simpa [hk] using h.emitted k

end Commits

end KvRaft.Raft
