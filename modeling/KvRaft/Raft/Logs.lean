import KvRaft.Raft.Votes

/-! Where entries come from. Every log of the cluster, and every piece of a log that a request
carries, is accounted for by the logs of the leaders of its entries' terms. -/

namespace KvRaft.Raft

open Lineage

variable {n : Nat}

/-- A log of a node in term `T`: it begins with the sentinel, its entries are numbered by position,
and the lineage accounts for all of them. -/
structure WellFormed (L : Int → List LogEntry) (T : Int) (log : List LogEntry) : Prop where
  traced : Traced LogEntry.term L log
  head : log.head? = some sentinel
  index : ∀ k (h : k < log.length), log[k].index = k
  sorted : Sorted LogEntry.term log
  term_le : ∀ e ∈ log, e.term ≤ T

/-- The request carries a piece of `l`, with the position and the term of the entry below it. -/
def Piece (l : List LogEntry) (args : AppendEntriesArgs) : Prop :=
  ∃ k : Nat, args.prevLogIndex = k ∧ (∃ hk : k < l.length, args.prevLogTerm = l[k].term) ∧
    args.entries <+: l.drop (k + 1)

namespace WellFormed

variable {L L' : Int → List LogEntry} {T T' : Int} {log l : List LogEntry}

theorem ne_nil (h : WellFormed L T log) : log ≠ [] := by
  rintro rfl
  have := h.head
  simp at this

theorem nonneg (h : WellFormed L T log) : 0 ≤ T :=
  h.term_le sentinel (List.mem_of_mem_head? h.head)

theorem mono (h : WellFormed L T log) (hL : ∀ t, L t <+: L' t) (hT : T ≤ T') :
    WellFormed L' T' log :=
  { h with traced := h.traced.mono hL, term_le := fun e he => (h.term_le e he).trans hT }

theorem restrict (h : WellFormed L T log) (hl : l <+: log) (hne : l ≠ []) : WellFormed L T l where
  traced := h.traced.restrict hl
  head := by
    obtain ⟨rest, rfl⟩ := hl
    simpa [List.head?_append_of_ne_nil l hne] using h.head
  index k hk := by
    rw [hl.getElem hk]
    exact h.index k (lt_of_lt_of_le hk hl.length_le)
  sorted := h.sorted.restrict hl
  term_le e he := h.term_le e (hl.subset he)

/-- An entry of the log's own term at the log's end. -/
theorem append (h : WellFormed L T log) {e : LogEntry} (ht : e.term = T)
    (hi : e.index = log.length) (hL : log ++ [e] <+: L T) : WellFormed L T (log ++ [e]) where
  traced := h.traced.append (ht ▸ hL)
  head := by rw [List.head?_append_of_ne_nil _ h.ne_nil]; exact h.head
  index k hk := by
    by_cases hlt : k < log.length
    · rw [List.getElem_append_left hlt]
      exact h.index k hlt
    · have hk' : k = log.length := by simp at hk; omega
      subst hk'
      simpa using hi
  sorted := h.sorted.append fun a ha => ht ▸ h.term_le a ha
  term_le a ha := by
    rcases List.mem_append.mp ha with ha | ha
    · exact h.term_le a ha
    · rw [List.mem_singleton.mp ha, ht]

end WellFormed

theorem Piece.mono {l l' : List LogEntry} {args : AppendEntriesArgs} (h : Piece l args)
    (hl : l <+: l') : Piece l' args := by
  obtain ⟨k, hprev, ⟨hk, hterm⟩, hentries⟩ := h
  have hk' := lt_of_lt_of_le hk hl.length_le
  refine ⟨k, hprev, ⟨hk', ?_⟩, ?_⟩
  · rw [hterm, getElem_prefix_eq hl hk hk']
  · obtain ⟨t, rfl⟩ := hl
    rw [List.drop_append_of_le_length (by omega)]
    exact hentries.trans (List.prefix_append _ _)

/-- Every log in the cluster descends from the logs of the leaders. -/
structure Logs (g : Ghost n) (c : Cluster n) : Prop where
  voted_pos : ∀ j T i, g.voted j T i → 0 < T
  origin : g.leaderLog 0 = [sentinel]
  owned : ∀ T, g.leaderLog T ≠ [] → T = 0 ∨ g.owner T ≠ none
  lineage : ∀ T, g.leaderLog T ≠ [] → WellFormed g.leaderLog T (g.leaderLog T)
  log : ∀ i, WellFormed g.leaderLog (c.node i).currentTerm (c.node i).log
  leader : ∀ i, (c.node i).state = .leader → g.leaderLog (c.node i).currentTerm = (c.node i).log
  request : ∀ j args, c.AppendRequest j args → Piece (g.leaderLog args.term) args
  candidacy : ∀ i j args, c.vote i j = .sent args → ∀ T v, c.loop i = .counting T v →
    (c.node i).state = .candidate → args.lastLogIndex = ((c.node i).log.length : Int) - 1 ∧
      args.lastLogTerm = lastTerm LogEntry.term (c.node i).log

namespace Logs

variable {g : Ghost n} {c c' : Cluster n}

theorem wellFormed_start : WellFormed (fun T => if T = 0 then [sentinel] else []) 0 [sentinel] where
  traced k hk := by
    have hk0 : k = 0 := by simpa using hk
    subst hk0
    simp [sentinel]
  head := rfl
  index k hk := by
    have hk0 : k = 0 := by simpa using hk
    subst hk0
    rfl
  sorted := List.pairwise_singleton _ _
  term_le e he := by rw [List.mem_singleton.mp he]; rfl

theorem start (peers : List String) (x : Fin n) :
    Logs (Ghost.start x) (Cluster.start peers) where
  voted_pos _ _ _ h := h.elim
  origin := rfl
  owned T h := by
    by_cases hT : T = 0
    · exact Or.inl hT
    · simp [Ghost.start, hT] at h
  lineage T h := by
    by_cases hT : T = 0
    · subst hT
      exact wellFormed_start
    · simp [Ghost.start, hT] at h
  log _ := wellFormed_start
  leader _ h := by simp [Cluster.start, newNode] at h
  request _ _ h := by simp [Cluster.AppendRequest, Cluster.start] at h
  candidacy _ _ _ h := by simp [Cluster.start] at h

/-- The log of a term that had a leader goes into every later term's bookkeeping unchanged. -/
theorem owner_le (hv : Votes g c) (h : Logs g c) {T : Int} (hT : g.leaderLog T ≠ [])
    (i : Fin n) : T ≤ (c.node i).currentTerm := by
  rcases h.owned T hT with rfl | ho
  · exact (h.log i).nonneg
  · obtain ⟨o, ho⟩ := Option.ne_none_iff_exists'.mp ho
    exact hv.voted_le i T o (hv.owner_voted T o ho i)

/-- A change of calls and goroutines only. -/
theorem frame (h : Logs g c) (hnode : c'.node = c.node)
    (hreq : ∀ j args, c'.AppendRequest j args → Piece (g.leaderLog args.term) args)
    (hcand : ∀ i j args T v, c'.vote i j = .sent args → c'.loop i = .counting T v →
      c.vote i j = .sent args ∧ ∃ v', c.loop i = .counting T v') : Logs g c' := by
  obtain ⟨node, loop, vote, append, lateVotes, lateAppends, emitted⟩ := c'
  simp only at hnode
  subst hnode
  refine { h with request := hreq, candidacy := ?_ }
  intro i j args hs T v hc hst
  obtain ⟨hs', v', hc'⟩ := hcand i j args T v hs hc
  exact h.candidacy i j args hs' T v' hc' hst

/-- One node changes, and its new log is accounted for. -/
theorem setNode (h : Logs g c) {p : Fin n} {nd : Node}
    (hlog : WellFormed g.leaderLog nd.currentTerm nd.log)
    (hlead : nd.state = .leader → g.leaderLog nd.currentTerm = nd.log)
    (hcand : ∀ T v, c.loop p = .counting T v → nd.state = .candidate →
      (c.node p).state = .candidate ∧ nd.log = (c.node p).log) : Logs g (c.setNode p nd) := by
  refine { h with log := ?_, leader := ?_, candidacy := ?_ }
  · intro i
    by_cases hi : i = p
    · subst hi; simpa using hlog
    · simpa [hi] using h.log i
  · intro i
    by_cases hi : i = p
    · subst hi; simpa using hlead
    · simpa [hi] using h.leader i
  · intro i j args hs T v hc
    by_cases hi : i = p
    · subst hi
      intro hst
      simp only [Cluster.setNode_same] at hst ⊢
      obtain ⟨hst', hl⟩ := hcand T v hc hst
      rw [hl]
      exact h.candidacy i j args hs T v hc hst'
    · simpa [hi] using h.candidacy i j args hs T v hc

theorem vote (h : Logs g c) {p i : Fin n} {T : Int} (hT : 0 < T) : Logs (g.vote p T i) c := by
  refine { h with voted_pos := ?_ }
  rintro j T' i' (hv | ⟨-, rfl, -⟩)
  · exact h.voted_pos j T' i' hv
  · exact hT

/-- A leader's log joins the lineage under a term that had none. -/
theorem elect (h : Logs g c) {i : Fin n} {T : Int} (hT : (c.node i).currentTerm = T)
    (hnil : g.leaderLog T = []) (hpos : 0 < T)
    (hnone : ∀ k, (c.node k).state = .leader → (c.node k).currentTerm ≠ T) :
    Logs (g.elect i T (c.node i).log) c := by
  have hsame : ∀ T', T' ≠ T → (g.elect i T (c.node i).log).leaderLog T' = g.leaderLog T' := by
    intro T' hne
    simp [Ghost.elect, hne]
  have hself : (g.elect i T (c.node i).log).leaderLog T = (c.node i).log := by simp [Ghost.elect]
  have hle : ∀ T', g.leaderLog T' <+: (g.elect i T (c.node i).log).leaderLog T' := by
    intro T'
    by_cases hne : T' = T
    · subst hne; rw [hnil]; exact List.nil_prefix
    · rw [hsame T' hne]
  constructor
  · exact h.voted_pos
  · rw [hsame 0 (by omega)]
    exact h.origin
  · intro T' hne
    by_cases hT' : T' = T
    · subst hT'
      exact Or.inr (by simp [Ghost.elect])
    · rw [hsame T' hT'] at hne
      rcases h.owned T' hne with h0 | ho
      · exact Or.inl h0
      · exact Or.inr (by simpa [Ghost.elect, hT'] using ho)
  · intro T' hne
    by_cases hT' : T' = T
    · subst hT'
      rw [hself]
      exact (h.log i).mono hle hT.le
    · rw [hsame T' hT'] at hne ⊢
      exact (h.lineage T' hne).mono hle le_rfl
  · exact fun k => (h.log k).mono hle le_rfl
  · intro k hk
    rw [hsame _ (hnone k hk)]
    exact h.leader k hk
  · exact fun j args ha => (h.request j args ha).mono (hle args.term)
  · exact h.candidacy

/-- The leader of a term appends an entry to its log and to the term's. -/
theorem extend (hv : Votes g c) (h : Logs g c) {i : Fin n} {nd : Node} {e : LogEntry} {T : Int}
    (hlead : (c.node i).state = .leader) (hT : (c.node i).currentTerm = T) (het : e.term = T)
    (hei : e.index = (c.node i).log.length) (hterm : nd.currentTerm = T)
    (hnd : nd.log = (c.node i).log ++ [e]) (hstate : nd.state = .leader) :
    Logs (g.extend T e) (c.setNode i nd) := by
  have hL := h.leader i hlead
  have hown := hv.leader i hlead
  rw [hT] at hL hown
  have hsame : ∀ T', T' ≠ T → (g.extend T e).leaderLog T' = g.leaderLog T' := by
    intro T' hne
    simp [Ghost.extend, hne]
  have hself : (g.extend T e).leaderLog T = (c.node i).log ++ [e] := by simp [Ghost.extend, hL]
  have hle := (Ghost.le_extend g T e).2.2.1
  have hlog : WellFormed (g.extend T e).leaderLog T ((c.node i).log ++ [e]) := by
    refine ((h.log i).mono hle hT.le).append het hei ?_
    rw [hself]
  have hpos : 0 < T := h.voted_pos i T i (hv.owner_voted T i hown i)
  constructor
  · exact h.voted_pos
  · rw [hsame 0 (by omega)]
    exact h.origin
  · intro T' hne
    by_cases hT' : T' = T
    · subst hT'
      exact Or.inr (by simp [Ghost.extend, hown])
    · rw [hsame T' hT'] at hne
      exact h.owned T' hne
  · intro T' hne
    by_cases hT' : T' = T
    · subst hT'
      rw [hself]
      exact hlog
    · rw [hsame T' hT'] at hne ⊢
      exact (h.lineage T' hne).mono hle le_rfl
  · intro k
    by_cases hk : k = i
    · subst hk
      simpa [hterm, hnd] using hlog
    · simpa [hk] using (h.log k).mono hle le_rfl
  · intro k
    by_cases hk : k = i
    · subst hk
      intro _
      simpa [hterm, hnd] using hself
    · intro hst
      simp only [Cluster.setNode_ne _ _ _ hk] at hst ⊢
      rw [hsame]
      · exact h.leader k hst
      · intro heq
        have := hv.leader k hst
        rw [heq, hown] at this
        exact hk (Option.some.inj this).symm
  · exact fun j args ha => (h.request j args ha).mono (hle args.term)
  · intro k j args hsent T' v hc
    by_cases hk : k = i
    · subst hk
      intro hst
      simp [hstate] at hst
    · simpa [hk] using h.candidacy k j args hsent T' v hc

/-- An accepted request splices a piece of the lineage into a log that agrees below it. -/
theorem accept (h : Logs g c) {j : Fin n} {args : AppendEntriesArgs} {log : List LogEntry}
    (hreq : c.AppendRequest j args) (hterm : (c.node j).currentTerm ≤ args.term)
    (hloop : Node.appendLoop (c.node j).log (args.prevLogIndex + 1) args.entries = some log)
    (hprev : 0 ≤ args.prevLogIndex → args.prevLogIndex < (c.node j).log.length ∧
      (logAt (c.node j).log args.prevLogIndex).map LogEntry.term = some args.prevLogTerm) :
    (∃ k : Nat, args.prevLogIndex = k ∧ k + 1 + args.entries.length ≤
        (g.leaderLog args.term).length ∧
      (g.leaderLog args.term).take (k + 1 + args.entries.length) <+: log) ∧
      (∀ p, p <+: (c.node j).log → p <+: g.leaderLog args.term → p <+: log) ∧
      WellFormed g.leaderLog args.term log := by
  obtain ⟨k, hk, ⟨hkl, hkterm⟩, hentries⟩ := h.request j args hreq
  have hold := (h.log j).mono (fun t => List.prefix_refl (g.leaderLog t)) hterm
  have hlead := h.lineage args.term (List.ne_nil_of_length_pos (by omega))
  generalize g.leaderLog args.term = l at *
  rw [hk] at hloop hprev
  obtain ⟨hlen, hat⟩ := hprev (by omega)
  have hlen' : k < (c.node j).log.length := by omega
  have hm := hold.traced.matching hlead.traced
  have hagree : (c.node j).log.take (k + 1) = l.take (k + 1) := by
    refine hm k hlen' hkl ?_
    simp only [logAt, Int.natCast_nonneg, if_true, Int.toNat_natCast,
      List.getElem?_eq_getElem hlen', Option.map_some, Option.some.injEq] at hat
    rw [hat, hkterm]
  rw [show (k : Int) + 1 = ((k + 1 : Nat) : Int) by omega, Node.appendLoop_eq,
    Option.some.injEq] at hloop
  subst hloop
  have hpiece := hentries.length_le
  rw [List.length_drop] at hpiece
  refine ⟨⟨k, hk, by omega, hm.take_prefix_splice (by omega) hagree hentries⟩, ?_, ?_⟩
  · exact fun p hp hpl => hm.prefix_splice (by omega) hagree hentries hp hpl
  · rcases hm.splice_cases (by omega) hagree hentries with ⟨-, hs⟩ | ⟨-, hs⟩
    · rw [hs]
      exact hold
    · rw [hs]
      refine hlead.restrict (List.take_prefix _ _) (List.ne_nil_of_length_pos ?_)
      rw [List.length_take]
      omega

end Logs

end KvRaft.Raft
