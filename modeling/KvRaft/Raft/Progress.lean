import KvRaft.Lib.Progress
import KvRaft.Raft.CommitRule
import KvRaft.Raft.Committed
import KvRaft.Raft.Followers
import KvRaft.Raft.Replication
import Mathlib.Data.Fintype.Lattice
import Mathlib.Data.Prod.Lex

/-! A cluster of two or three nodes can always go on. Whatever has been lost, delayed or abandoned,
and wherever the goroutines stand, a run without further losses elects a leader, and a command that
is submitted to it is committed and emitted by every node. An election needs every vote there, so it
is won by a node whose log is up to date for all the others. -/

namespace KvRaft.Raft

open Lineage

variable {n : Nat}

/-- Not a client's action. -/
def Action.Internal : Action n → Prop
  | .submit _ _ => False
  | _ => True

namespace Node

/-- A vote request of a later term makes a follower of its target, which grants the vote to a log
that is up to date for its own. -/
theorem handleRequestVote_later {nd : Node} {args : RequestVoteArgs}
    (hterm : nd.currentTerm < args.term) (hne : nd.log ≠ []) :
    ∃ nd' reply, nd.handleRequestVote args = some (nd', reply) ∧ nd'.currentTerm = args.term ∧
      nd'.state = .follower ∧ nd'.log = nd.log ∧ reply.term = nd.currentTerm ∧
      (UpToDate args nd.log → reply.voteGranted = true) := by
  have hat : logAt nd.log (nd.log.length - 1) = some (nd.log.getLast hne) := by
    have hpos := List.length_pos_iff.mpr hne
    rw [logAt, if_pos (by omega), show ((nd.log.length : Int) - 1).toNat = nd.log.length - 1
      by omega, ← List.getLast?_eq_getElem?, List.getLast?_eq_some_getLast hne]
  have hlast : (nd.log.getLast hne).term = lastTerm LogEntry.term nd.log := (logAt_last hat).2
  have hfollow : (nd.becomeFollowerLocked args.term).currentTerm = args.term :=
    becomeFollowerLocked_of_le hterm.le
  simp only [handleRequestVote, if_neg (not_lt.mpr hterm.le), if_pos hterm]
  rw [show (nd.becomeFollowerLocked args.term).log = nd.log from rfl, hat]
  simp only [Option.bind_eq_bind, Option.bind_some, hlast]
  split
  · exact ⟨_, _, rfl, hfollow, rfl, rfl, rfl, fun _ => rfl⟩
  · next hno => exact ⟨_, _, rfl, hfollow, rfl, rfl, rfl, fun hup => absurd ⟨Or.inl rfl, hup⟩ hno⟩

/-- A commit index inside the log is reached. -/
theorem le_commitTo (nd : Node) {log : List LogEntry} {k : Nat} (hk : k < log.length) :
    k ≤ nd.commitTo log k := by
  unfold commitTo
  split <;> omega

/-- Running the commit rule leaves a leader of the same term, log and indices for the others. -/
theorem tryAdvanceCommitIndexLocked_leads (nd : Node) :
    nd.tryAdvanceCommitIndexLocked.state = nd.state ∧
      nd.tryAdvanceCommitIndexLocked.currentTerm = nd.currentTerm ∧
      nd.commitIndex ≤ nd.tryAdvanceCommitIndexLocked.commitIndex := by
  rcases nd.tryAdvanceCommitIndexLocked_cases with h | ⟨N, hlt, -, -, h⟩
  · rw [h]
    exact ⟨rfl, rfl, le_rfl⟩
  · rw [h]
    exact ⟨rfl, rfl, hlt.le⟩

end Node

/-- What an accepted request brings about: the leader knows the follower to hold its whole log, and
the follower takes over its commit index. -/
theorem replicateToFollower_serves {leader follower : Node} {peerIdx : Int} {k : Nat}
    (hlead : leader.state = .leader) (hterm : follower.currentTerm ≤ leader.currentTerm)
    (hnext : leader.nextIndex peerIdx = k + 1) (hk : k < leader.log.length)
    (hmatch : leader.matchIndex peerIdx < leader.log.length)
    (hat : follower.log[k]?.map LogEntry.term = leader.log[k]?.map LogEntry.term) :
    ∃ leader' follower' again,
      replicateToFollower leader follower peerIdx = some (leader', follower', again) ∧
      leader'.state = .leader ∧ leader'.currentTerm = leader.currentTerm ∧
      leader'.log = leader.log ∧ leader'.matchIndex peerIdx = leader.log.length - 1 ∧
      (∀ q, q ≠ peerIdx → leader'.matchIndex q = leader.matchIndex q) ∧
      leader.commitIndex ≤ leader'.commitIndex ∧
      follower'.currentTerm = leader.currentTerm ∧
      follower'.commitIndex = follower.commitTo follower'.log leader.commitIndex := by
  have hhandle : follower.handleAppendEntries (leader.requestAfter k) = _ :=
    Node.handleAppendEntries_accepts hterm rfl
      (by simpa [Node.requestAfter, List.getElem?_eq_getElem hk] using hat)
  have hmatched : (leader.requestAfter k).prevLogIndex +
      (leader.requestAfter k).entries.length = leader.log.length - 1 := by
    simp only [Node.requestAfter, List.length_drop]
    omega
  obtain ⟨nd, heq, hnd⟩ := Node.replicateReply_accepted peerIdx (leader.requestAfter k)
    ⟨follower.currentTerm, true⟩ hlead hterm rfl rfl
  refine ⟨nd, _, _, by
    simp only [replicateToFollower, replicateArgs_at hlead hnext hk, hhandle, Option.bind_eq_bind,
      Option.bind_some, heq, Option.pure_def]
    rfl, ?_⟩
  have hfollower : (follower.accept (leader.requestAfter k)
      (splice LogEntry.term follower.log (k + 1) (leader.requestAfter k).entries)
      (follower.commitTo (splice LogEntry.term follower.log (k + 1)
        (leader.requestAfter k).entries) (leader.requestAfter k).leaderCommit)).currentTerm =
        leader.currentTerm := Node.becomeFollowerLocked_of_le hterm
  rw [hmatched] at hnd
  rcases hnd with ⟨-, rfl⟩ | ⟨hle, rfl⟩
  · obtain ⟨hlog, -, hmi⟩ :=
      (leader.matchPeer peerIdx (leader.log.length - 1)).tryAdvanceCommitIndexLocked_same
    obtain ⟨hst, htm, hci⟩ :=
      (leader.matchPeer peerIdx (leader.log.length - 1)).tryAdvanceCommitIndexLocked_leads
    refine ⟨hst.trans hlead, htm, hlog, ?_, fun q hq => ?_, hci, hfollower, rfl⟩
    · rw [hmi]
      simp [Node.matchPeer]
    · rw [hmi]
      simp [Node.matchPeer, hq]
  · exact ⟨hlead, rfl, rfl, by omega, fun _ _ => rfl, le_rfl, hfollower, rfl⟩

namespace Cluster

variable {c c' : Cluster n} {x j : Fin n} {T : Int} {L : List LogEntry}

theorem leadsBy_of_step {a : Action n} (h : c.step a = some c') (hi : a.Internal) :
    (cluster n).LeadsBy Action.Internal c c' :=
  .of_step (a := a) h hi

/-! ### Standing for election -/

/-- Only `x` has moved, and it has kept its log and not gone back in term. -/
structure Campaigns (x : Fin n) (c c' : Cluster n) : Prop where
  leads : (cluster n).LeadsBy Action.Internal c c'
  others : ∀ k, k ≠ x → c'.node k = c.node k
  log : (c'.node x).log = (c.node x).log
  term : (c.node x).currentTerm ≤ (c'.node x).currentTerm

namespace Campaigns

theorem refl (x : Fin n) (c : Cluster n) : Campaigns x c c :=
  ⟨.refl c, fun _ _ => rfl, rfl, le_rfl⟩

theorem trans {c'' : Cluster n} (h : Campaigns x c c') (h' : Campaigns x c' c'') :
    Campaigns x c c'' where
  leads := h.leads.trans h'.leads
  others k hk := (h'.others k hk).trans (h.others k hk)
  log := h'.log.trans h.log
  term := h.term.trans h'.term

theorem setLoop {a : Action n} (l : Loop) (hi : a.Internal)
    (h : c.step a = some (c.setLoop x l)) : Campaigns x c (c.setLoop x l) :=
  ⟨leadsBy_of_step h hi, fun _ _ => rfl, rfl, le_rfl⟩

end Campaigns

/-- The request of the candidacy that `nd` is in. -/
def candidacy (nd : Node) : RequestVoteArgs :=
  { term := nd.currentTerm, candidateId := nd.id, lastLogIndex := nd.log.length - 1
    lastLogTerm := lastTerm LogEntry.term nd.log }

/-- `x` has just asked every other node for its vote in term `T`. -/
structure Asking (x : Fin n) (T : Int) (c : Cluster n) : Prop where
  loop : c.loop x = .counting T 1
  term : (c.node x).currentTerm = T
  vote : c.vote x = newVotes x (candidacy (c.node x))

/-- `runCandidate` takes the lock. -/
theorem startElection_asking (hl : c.loop x = .candidate) (hne : (c.node x).log ≠ []) :
    ∃ c', c.step (.startElection x) = some c' ∧ (∀ k, k ≠ x → c'.node k = c.node k) ∧
      (c'.node x).log = (c.node x).log ∧ (c'.node x).state = (c.node x).state ∧
      Asking x ((c.node x).currentTerm + 1) c' := by
  have hat : ∃ last, logAt (c.node x).log ((c.node x).log.length - 1) = some last := by
    have hpos := List.length_pos_iff.mpr hne
    rw [logAt, if_pos (by omega)]
    exact ⟨_, List.getElem?_eq_getElem (by omega)⟩
  obtain ⟨last, hat⟩ := hat
  cases hs : (c.node x).startElection with
  | none => simp [Node.startElection, hat] at hs
  | some out =>
    obtain ⟨nd, args⟩ := out
    let standing := { (c.setNode x nd).setLoop x (.counting args.term 1) with
      vote := Function.update c.vote x (newVotes x args)
      lateVotes := c.lateVotes ++ c.unsentVotes x }
    have hstep : c.step (.startElection x) = some standing := by simp [step, hl, hs, standing]
    obtain ⟨-, rfl, rfl⟩ := Node.startElection_cases hs
    refine ⟨standing, hstep, fun k hk => ?_, ?_, ?_, ⟨?_, ?_, ?_⟩⟩ <;>
      simp_all [standing, candidacy]

theorem campaigns_startElection (hl : c.loop x = .candidate) (hne : (c.node x).log ≠ []) :
    ∃ c', Campaigns x c c' ∧ Asking x ((c.node x).currentTerm + 1) c' ∧
      (c'.node x).state = (c.node x).state := by
  obtain ⟨c', hstep, hothers, hlog, hst, hask⟩ := startElection_asking hl hne
  refine ⟨c', ⟨leadsBy_of_step hstep trivial, hothers, hlog, ?_⟩, hask, hst⟩
  rw [hask.term]
  omega

/-- Wherever the goroutine of `run` stands, it gets back to the top of its loop. -/
theorem campaigns_top (hstate : (c.node x).state ≠ .leader) (hne : (c.node x).log ≠ []) :
    ∃ c', Campaigns x c c' ∧ c'.loop x = .top ∧ (c'.node x).state = (c.node x).state := by
  cases hl : c.loop x with
  | top => exact ⟨c, .refl x c, hl, rfl⟩
  | follower =>
    exact ⟨_, .setLoop (a := .wakeFollower x) .top trivial (by simp [step, hl]), by simp, rfl⟩
  | candidate =>
    obtain ⟨c₁, h₁, hask, hst⟩ := campaigns_startElection hl hne
    exact ⟨_, h₁.trans
      (.setLoop (a := .abandonElection x) .top trivial (by simp [step, hask.loop])), by simp, hst⟩
  | counting T v =>
    exact ⟨_, .setLoop (a := .abandonElection x) .top trivial (by simp [step, hl]), by simp, rfl⟩
  | leader =>
    exact ⟨_, .setLoop (a := .leaderTick x) .top trivial (by simp [step, hl, hstate]), by simp, rfl⟩

/-- At the top of the loop, a node that does not lead becomes a candidate. -/
theorem campaigns_candidate (hl : c.loop x = .top) (hstate : (c.node x).state ≠ .leader) :
    ∃ c', Campaigns x c c' ∧ c'.loop x = .candidate ∧ (c'.node x).state = .candidate := by
  have hread : ∀ d : Cluster n, d.loop x = .top → (d.node x).state = .candidate →
      ∃ d', Campaigns x d d' ∧ d'.loop x = .candidate ∧ (d'.node x).state = .candidate := by
    intro d hd hcand
    exact ⟨d.setLoop x .candidate, .setLoop (a := .readState x) _ trivial
      (by simp [step, hd, hcand, loopOf]), by simp, hcand⟩
  cases hst : (c.node x).state with
  | leader => exact absurd hst hstate
  | candidate => exact hread c hl hst
  | follower =>
    have hfollow : Campaigns x c (c.setLoop x .follower) :=
      .setLoop (a := .readState x) _ trivial (by simp [step, hl, hst, loopOf])
    let late := ((c.setLoop x .follower).setNode x (c.node x).electionTimeout).setLoop x .top
    have htimeout : Campaigns x (c.setLoop x .follower) late := by
      refine ⟨leadsBy_of_step (a := .electionTimeout x) (by simp [step, late]) trivial,
        fun k hk => by simp [late, hk], ?_, ?_⟩ <;> simp [late, Node.electionTimeout]
    obtain ⟨c', h', hloop, hcand⟩ := hread late (by simp [late])
      (by simp [late, Node.electionTimeout])
    exact ⟨c', (hfollow.trans htimeout).trans h', hloop, hcand⟩

/-- A node that does not lead stands for election. -/
theorem campaigns_stand (hstate : (c.node x).state ≠ .leader) (hne : (c.node x).log ≠ []) :
    ∃ c', Campaigns x c c' ∧ Asking x (c'.node x).currentTerm c' ∧
      (c'.node x).state = .candidate ∧ (c.node x).currentTerm < (c'.node x).currentTerm := by
  obtain ⟨c₁, h₁, hl₁, hs₁⟩ := campaigns_top hstate hne
  obtain ⟨c₂, h₂, hl₂, hs₂⟩ := campaigns_candidate hl₁ (by rw [hs₁]; exact hstate)
  obtain ⟨c₃, h₃, hask, hs₃⟩ := campaigns_startElection hl₂ (by rw [h₂.log, h₁.log]; exact hne)
  have hup := h₁.term.trans h₂.term
  refine ⟨c₃, (h₁.trans h₂).trans h₃, ?_, by rw [hs₃, hs₂], by rw [hask.term]; omega⟩
  rw [hask.term]
  exact hask

/-- It does so again until its term is past any given one. -/
theorem campaigns_above (M : Int) (hstate : (c.node x).state ≠ .leader)
    (hne : (c.node x).log ≠ []) :
    ∃ c' T, Campaigns x c c' ∧ Asking x T c' ∧ (c'.node x).state = .candidate ∧ M < T := by
  obtain ⟨c₁, h₁, hask₁, hs₁, -⟩ := campaigns_stand hstate hne
  obtain ⟨c₂, -, ⟨h₂, hask₂, hs₂⟩, hgoal⟩ :=
    Machine.LeadsBy.iterate (m := cluster n) (P := Action.Internal) (s := c₁)
      (I := fun d => Campaigns x c d ∧ Asking x (d.node x).currentTerm d ∧
        (d.node x).state = .candidate)
      (G := fun d => M < (d.node x).currentTerm)
      (fun d => (M + 1 - (d.node x).currentTerm).toNat)
      (fun d hd hnot => by
        obtain ⟨hd, -, hcand⟩ := hd
        obtain ⟨d', h', hask', hs', hlt⟩ := campaigns_stand (c := d) (x := x)
          (by rw [hcand]; simp) (by rw [hd.log]; exact hne)
        exact ⟨d', h'.leads, ⟨hd.trans h', hask', hs'⟩, Or.inr (by omega)⟩)
      ⟨h₁, hask₁, hs₁⟩
  exact ⟨c₂, _, h₂, hask₂, hs₂, hgoal⟩

/-! ### The votes -/

/-- `j` has followed `x` into term `T` and answered its request. -/
structure Answers (x j : Fin n) (T : Int) (c : Cluster n) : Prop where
  term : (c.node j).currentTerm = T
  state : (c.node j).state = .follower
  reply : ∃ r, c.vote x j = .answered r ∧ r.term ≤ T ∧
    (Node.UpToDate (candidacy (c.node x)) (c.node j).log → r.voteGranted = true)

theorem Answers.frame {k : Fin n} (h : Answers x k T c) (hk : c'.node k = c.node k)
    (hx : c'.node x = c.node x) (hv : c'.vote x k = c.vote x k) : Answers x k T c' := by
  obtain ⟨hterm, hstate, hreply⟩ := h
  exact ⟨by rw [hk]; exact hterm, by rw [hk]; exact hstate, by rw [hk, hx, hv]; exact hreply⟩

/-- The request of a candidacy of a later term reaches one node. -/
theorem deliverVote_later (hjx : j ≠ x) (hsent : c.vote x j = .sent (candidacy (c.node x)))
    (hT : (c.node x).currentTerm = T) (hterm : (c.node j).currentTerm < T)
    (hne : (c.node j).log ≠ []) :
    ∃ c', c.step (.deliverVote x j) = some c' ∧ Answers x j T c' ∧
      (c'.node j).log = (c.node j).log ∧ c'.loop = c.loop ∧
      ∀ k, k ≠ j → c'.node k = c.node k ∧ c'.vote x k = c.vote x k := by
  obtain ⟨nd, r, hh, hndterm, hndstate, hndlog, hrterm, hgrant⟩ :=
    Node.handleRequestVote_later (show (c.node j).currentTerm < (candidacy (c.node x)).term by
      rw [candidacy, hT]; exact hterm) hne
  let c' := (c.setNode j nd).setVote x j (.answered r)
  have hnode : ∀ k, k ≠ j → c'.node k = c.node k := fun k hk => by simp [c', hk]
  refine ⟨c', by simp [step, hsent, hh, c'], ⟨?_, ?_, r, ?_, ?_, fun hup => hgrant ?_⟩, ?_, rfl,
    fun k hk => ⟨hnode k hk, ?_⟩⟩
  · simp [c', hndterm, candidacy, hT]
  · simp [c', hndstate]
  · simp [c']
  · rw [hrterm]
    exact hterm.le
  · rw [hnode x (Ne.symm hjx)] at hup
    simpa [c', hndlog] using hup
  · simp [c', hndlog]
  · simp [c', setVote_apply, hk]

/-- The requests of a candidacy of a later term reach all other nodes. -/
theorem leads_answers (hask : Asking x T c) (hne : ∀ j, (c.node j).log ≠ [])
    (hterm : ∀ j, j ≠ x → (c.node j).currentTerm < T) :
    ∃ c', (cluster n).LeadsBy Action.Internal c c' ∧ c'.loop x = .counting T 1 ∧
      c'.node x = c.node x ∧ ∀ j, j ≠ x → (c'.node j).log = (c.node j).log ∧ Answers x j T c' := by
  obtain ⟨c', hlead, ⟨hloop, hx, hothers⟩, hdone⟩ :=
    Machine.LeadsBy.forEach (m := cluster n) (P := Action.Internal) (s := c)
      (I := fun d => d.loop x = .counting T 1 ∧ d.node x = c.node x ∧ ∀ j, j ≠ x →
        (d.node j).log = (c.node j).log ∧
          (d.node j = c.node j ∧ d.vote x j = .sent (candidacy (c.node x)) ∨ Answers x j T d))
      (D := fun j d => j ≠ x → Answers x j T d)
      (fun j d hd => by
        obtain ⟨hloop, hx, hothers⟩ := hd
        by_cases hjx : j = x
        · exact ⟨d, .refl d, ⟨hloop, hx, hothers⟩, fun h => absurd hjx h, fun _ h => h⟩
        obtain ⟨hlog, ⟨hj, hsent⟩ | hans⟩ := hothers j hjx
        · obtain ⟨d', hstep, hans, hlog', hloop', hkeep⟩ := deliverVote_later (c := d) (T := T) hjx
            (by rw [hx]; exact hsent) (by rw [hx]; exact hask.term)
            (by rw [hj]; exact hterm j hjx) (by rw [hj]; exact hne j)
          have hx' : d'.node x = d.node x := (hkeep x (Ne.symm hjx)).1
          refine ⟨d', leadsBy_of_step hstep trivial,
            ⟨by rw [hloop', hloop], by rw [hx', hx], fun k hk => ?_⟩, fun _ => hans,
            fun k h hk => ?_⟩
          · by_cases hkj : k = j
            · subst hkj
              exact ⟨hlog'.trans hlog, Or.inr hans⟩
            · obtain ⟨hk', hv'⟩ := hkeep k hkj
              rw [hk', hv']
              exact (hothers k hk).imp_right (Or.imp_right fun h => h.frame hk' hx' hv')
          · by_cases hkj : k = j
            · exact hkj ▸ hans
            · exact (h hk).frame (hkeep k hkj).1 hx' (hkeep k hkj).2
        · exact ⟨d, .refl d, ⟨hloop, hx, hothers⟩, fun _ => hans, fun _ h => h⟩)
      (List.finRange n)
      ⟨hask.loop, rfl, fun j hj => ⟨rfl, Or.inl ⟨rfl, by rw [hask.vote]; simp [newVotes, hj]⟩⟩⟩
  exact ⟨c', hlead, hloop, hx, fun j hj => ⟨(hothers j hj).1, hdone j (List.mem_finRange j) hj⟩⟩

/-- `x` counts in term `T`, and every other node has granted it its vote. -/
structure Winning (x : Fin n) (T : Int) (c : Cluster n) : Prop where
  loop : ∃ v, c.loop x = .counting T v
  term : (c.node x).currentTerm = T
  state : (c.node x).state = .candidate
  votes : ∀ j, j ≠ x → ∃ r, r.term ≤ T ∧ r.voteGranted = true ∧
    (c.vote x j = .answered r ∨ c.vote x j = .counted r)

/-- A candidate that still counts has a vote to read: with all of them it would lead. -/
theorem Winning.exists_answered (hn : 2 ≤ n) (h : Winning x T c) (hc : Counted c) :
    ∃ j r, c.vote x j = .answered r ∧ r.term ≤ T ∧ r.voteGranted = true := by
  by_contra hnone
  obtain ⟨v, hl⟩ := h.loop
  have hall : Finset.univ.erase x ⊆ c.tallied x := by
    intro j hj
    obtain ⟨r, hrt, hg, hans | hcount⟩ := h.votes j (Finset.ne_of_mem_erase hj)
    · exact absurd ⟨j, r, hans, hrt, hg⟩ hnone
    · exact mem_tallied.mpr (by rw [hcount]; exact hg)
  have hcard := Finset.card_le_card hall
  rw [Finset.card_erase_of_mem (Finset.mem_univ x), Finset.card_univ, Fintype.card_fin] at hcard
  have hvotes := hc.votes x T v hl
  have hshort := hc.short x T v hl h.state h.term
  rw [Node.votesNeeded, hc.peers x] at hshort
  omega

/-- Reading one of its votes makes it the leader or leaves one vote less to read. -/
theorem Winning.count (h : Winning x T c) {r : RequestVoteReply} (hv : c.vote x j = .answered r)
    (hrt : r.term ≤ T) (hg : r.voteGranted = true) :
    ∃ c', c.step (.countVote x j) = some c' ∧ (∀ k, k ≠ x → c'.node k = c.node k) ∧
      (c'.node x = (c.node x).becomeLeaderLocked ∨
        c'.node x = c.node x ∧ Winning x T c' ∧
          (c'.tallied x).card = (c.tallied x).card + 1) := by
  obtain ⟨v, hl⟩ := h.loop
  obtain ⟨c', hstep⟩ : ∃ c', c.step (.countVote x j) = some c' := by
    simp only [step, hl, hv]
    exact ⟨_, rfl⟩
  refine ⟨c', hstep, ?_⟩
  cases Step.of_step hstep with
  | stepDown hl' hv' ht =>
    rw [hl] at hl'
    rw [hv] at hv'
    cases hl'
    cases hv'
    omega
  | win => exact ⟨fun k hk => by simp [hk], Or.inl (by simp)⟩
  | @tally _ _ T' v' r' hl' hv' hgo =>
    rw [hl] at hl'
    rw [hv] at hv'
    cases hl'
    cases hv'
    have hcard := Votes.tallied_counted hv
    rw [hg] at hcard
    refine ⟨fun _ _ => rfl, Or.inr ⟨rfl, ⟨⟨_, setLoop_same ..⟩, h.term, h.state, ?_⟩, hcard⟩⟩
    intro k hk
    by_cases hkj : k = j
    · subst hkj
      exact ⟨r, hrt, hg, Or.inr (by simp)⟩
    · simpa [setVote_apply, hkj] using h.votes k hk

theorem Winning.leads (hn : 2 ≤ n) (hreach : (cluster n).Reachable c) (h : Winning x T c) :
    ∃ c', (cluster n).LeadsBy Action.Internal c c' ∧
      c'.node x = (c.node x).becomeLeaderLocked ∧ ∀ k, k ≠ x → c'.node k = c.node k := by
  obtain ⟨c', hlead, ⟨-, hothers, -⟩, hgoal⟩ :=
    Machine.LeadsBy.iterate (m := cluster n) (P := Action.Internal) (s := c)
      (I := fun d => (cluster n).Reachable d ∧ (∀ k, k ≠ x → d.node k = c.node k) ∧
        (d.node x = (c.node x).becomeLeaderLocked ∨ d.node x = c.node x ∧ Winning x T d))
      (G := fun d => d.node x = (c.node x).becomeLeaderLocked)
      (fun d => n - (d.tallied x).card)
      (fun d hd hnot => by
        obtain ⟨hreach, hothers, hx⟩ := hd
        obtain ⟨hx, hwin⟩ := hx.resolve_left hnot
        obtain ⟨j, r, hv, hrt, hg⟩ := hwin.exists_answered hn (Counted.of_reachable hreach)
        obtain ⟨d', hstep, hothers', hd'⟩ := hwin.count hv hrt hg
        have hlead : (cluster n).LeadsBy Action.Internal d d' :=
          leadsBy_of_step hstep trivial
        refine ⟨d', hlead, ⟨hreach.leads hlead.leads, fun k hk => ?_, ?_⟩, ?_⟩
        · rw [hothers' k hk, hothers k hk]
        · rw [hx] at hd'
          exact hd'.imp_right fun h => ⟨h.1, h.2.1⟩
        · rw [hx] at hd'
          refine hd'.imp_right fun h => ?_
          have hcard : (d'.tallied x).card ≤ n :=
            (Finset.card_le_univ _).trans_eq (Fintype.card_fin n)
          omega)
      ⟨hreach, fun _ _ => rfl, Or.inr ⟨rfl, h⟩⟩
  exact ⟨c', hlead, hgoal, hothers⟩

/-- Two leaders of a small cluster would be leaders of the same term. -/
theorem exists_not_leader (hn : 2 ≤ n) (hn' : n ≤ 3) (hreach : (cluster n).Reachable c) :
    ∃ x, (c.node x).state ≠ .leader := by
  let a : Fin n := ⟨0, by omega⟩
  let b : Fin n := ⟨1, by omega⟩
  obtain ⟨g, hs⟩ := Sound.of_reachable hn' a hreach
  by_contra hall
  simp only [ne_eq, not_exists, not_not] at hall
  have hterm : (c.node a).currentTerm = (c.node b).currentTerm :=
    le_antisymm (hs.leader_term_le (hall a) b) (hs.leader_term_le (hall b) a)
  have hown := hs.votes.leader a (hall a)
  rw [hterm, hs.votes.leader b (hall b)] at hown
  exact absurd (Option.some.inj hown) (by simp [a, b])

theorem log_ne_nil (hn' : n ≤ 3) (hreach : (cluster n).Reachable c) (i : Fin n) :
    (c.node i).log ≠ [] := by
  obtain ⟨g, hs⟩ := Sound.of_reachable hn' i hreach
  exact (hs.logs.log i).ne_nil

/-- A candidacy of a term past all others ends the leadership of every node. -/
theorem leads_deposed (hn : 2 ≤ n) (hn' : n ≤ 3) (hreach : (cluster n).Reachable c) :
    ∃ c', (cluster n).LeadsBy Action.Internal c c' ∧ ∀ k, (c'.node k).state ≠ .leader := by
  obtain ⟨x, hx⟩ := exists_not_leader hn hn' hreach
  have : Nonempty (Fin n) := ⟨x⟩
  obtain ⟨m, hM⟩ := Finite.exists_max fun k => (c.node k).currentTerm
  have hne := log_ne_nil hn' hreach
  obtain ⟨c₁, T, h₁, hask, hcand, hlt⟩ := campaigns_above (c.node m).currentTerm hx (hne x)
  have hne₁ := log_ne_nil hn' (hreach.leads h₁.leads.leads)
  obtain ⟨c₂, hlead, -, hx₂, hans⟩ := leads_answers hask hne₁ fun j hj => by
      rw [h₁.others j hj]
      exact (hM j).trans_lt hlt
  refine ⟨c₂, h₁.leads.trans hlead, fun k => ?_⟩
  by_cases hk : k = x
  · rw [hk, hx₂, hcand]
    simp
  · rw [(hans k hk).2.state]
    simp

/-- Some log is up to date for all of them. -/
theorem exists_upToDate (c : Cluster n) (hn : 0 < n) :
    ∃ x, ∀ j, Node.UpToDate (candidacy (c.node x)) (c.node j).log := by
  have : Nonempty (Fin n) := ⟨⟨0, hn⟩⟩
  obtain ⟨x, hx⟩ := Finite.exists_max fun k : Fin n =>
    toLex (lastTerm LogEntry.term (c.node k).log, (c.node k).log.length)
  refine ⟨x, fun j => ?_⟩
  rcases Prod.Lex.le_iff.mp (hx j) with hlt | ⟨heq, hle⟩
  · exact Or.inl hlt
  · exact Or.inr ⟨heq.symm, Int.sub_le_sub_right (Int.ofNat_le.mpr hle) 1⟩

/-- A leader can be elected in a term that no node has passed. -/
theorem leads_leader (hn : 2 ≤ n) (hn' : n ≤ 3) (hreach : (cluster n).Reachable c) :
    ∃ c' x, (cluster n).LeadsBy Action.Internal c c' ∧ (c'.node x).state = .leader ∧
      ∀ j, (c'.node j).currentTerm ≤ (c'.node x).currentTerm := by
  obtain ⟨c₁, hlead₁, hnone⟩ := leads_deposed hn hn' hreach
  have hreach₁ := hreach.leads hlead₁.leads
  obtain ⟨x, hup⟩ := exists_upToDate c₁ (by omega)
  have : Nonempty (Fin n) := ⟨x⟩
  obtain ⟨m, hM⟩ := Finite.exists_max fun k => (c₁.node k).currentTerm
  obtain ⟨c₂, T, h₂, hask, hcand, hlt⟩ :=
    campaigns_above (c₁.node m).currentTerm (hnone x) (log_ne_nil hn' hreach₁ x)
  have hreach₂ := hreach₁.leads h₂.leads.leads
  have hne₂ := log_ne_nil hn' hreach₂
  obtain ⟨c₃, hlead₃, hloop₃, hx₃, hans⟩ := leads_answers hask hne₂ fun j hj => by
    rw [h₂.others j hj]
    exact (hM j).trans_lt hlt
  have hwin : Winning x T c₃ := by
    refine ⟨⟨1, hloop₃⟩, by rw [hx₃, hask.term], by rw [hx₃, hcand], fun j hj => ?_⟩
    obtain ⟨hlog, hj'⟩ := hans j hj
    obtain ⟨r, hv, hrt, hgrant⟩ := hj'.reply
    refine ⟨r, hrt, hgrant ?_, Or.inl hv⟩
    rw [hlog, h₂.others j hj, hx₃]
    simpa [Node.UpToDate, candidacy, h₂.log] using hup j
  obtain ⟨c₄, hlead₄, hx₄, hothers₄⟩ := hwin.leads hn (hreach₂.leads hlead₃.leads)
  have hterm : (c₄.node x).currentTerm = T := by
    rw [hx₄]
    exact hwin.term
  refine ⟨c₄, x, ((hlead₁.trans h₂.leads).trans hlead₃).trans hlead₄, by rw [hx₄]; rfl, ?_⟩
  intro j
  rw [hterm]
  by_cases hj : j = x
  · rw [hj, hterm]
  · rw [hothers₄ j hj, (hans j hj).2.term]

/-! ### Replication -/

/-- The worker of `x` for `j` gives up the call it may be in. -/
theorem leads_idle (c : Cluster n) (x j : Fin n) :
    ∃ c', (cluster n).LeadsBy Action.Internal c c' ∧ c'.node = c.node ∧ c'.append x j = .idle := by
  cases ha : c.append x j with
  | idle => exact ⟨c, .refl c, rfl, ha⟩
  | sent args =>
    exact ⟨{ c.setAppend x j .idle with lateAppends := c.lateAppends ++ [(j, args)] },
      leadsBy_of_step (a := .abandonAppend x j) (by simp [step, ha]) trivial, rfl,
      by simp [setAppend_apply]⟩
  | answered args reply =>
    exact ⟨c.setAppend x j .idle, leadsBy_of_step (a := .abandonAppend x j)
      (by simp [step, ha]) trivial, rfl, by simp [setAppend_apply]⟩

/-- A call that is answered at once, as steps of the cluster. -/
theorem leads_replicateToFollower {leader' follower' : Node} {args : AppendEntriesArgs}
    {again : Bool} (hjx : j ≠ x) (hargs : (c.node x).replicateArgs j = some args)
    (hcall : replicateToFollower (c.node x) (c.node j) j = some (leader', follower', again)) :
    ∃ c', (cluster n).LeadsBy Action.Internal c c' ∧ c'.node x = leader' ∧
      c'.node j = follower' ∧ ∀ k, k ≠ x → k ≠ j → c'.node k = c.node k := by
  obtain ⟨c₀, hlead₀, hnode₀, hidle⟩ := leads_idle c x j
  simp only [replicateToFollower, hargs, Option.bind_eq_bind, Option.pure_def,
    Option.bind_eq_some_iff, Option.some.injEq, Prod.mk.injEq] at hcall
  obtain ⟨⟨nd, reply⟩, hh, rfl, rfl, rfl⟩ := hcall
  let c₁ := c₀.setAppend x j (.sent args)
  let c₂ := (c₁.setNode j nd).setAppend x j (.answered args reply)
  let c₃ := (c₂.setNode x ((c.node x).replicateReply j args reply).1).setAppend x j .idle
  have h₁ : c₀.step (.replicate x j) = some c₁ := by
    simp [step, Ne.symm hjx, hidle, hnode₀, hargs, c₁]
  have h₂ : c₁.step (.deliverAppend x j) = some c₂ := by
    simp [step, c₁, setAppend_apply, hnode₀, hh, c₂]
  have h₃ : c₂.step (.finishAppend x j) = some c₃ := by
    simp [step, c₂, c₁, setAppend_apply, hnode₀, Ne.symm hjx, c₃]
  have hlead := (leadsBy_of_step h₁ trivial).trans
    ((leadsBy_of_step h₂ trivial).trans (leadsBy_of_step h₃ trivial))
  refine ⟨c₃, hlead₀.trans hlead, ?_, ?_, fun k hkx hkj => ?_⟩
  · simp [c₃]
  · simp [c₃, c₂, hjx]
  · simp [c₃, c₂, c₁, hkx, hkj, hnode₀]

/-- A log that ends with an entry of the leader's term is committed once the others hold it. -/
theorem leader_commitIndex_eq (hn : 2 ≤ n) (hn' : n ≤ 3) (hreach : (cluster n).Reachable c)
    (hst : (c.node x).state = .leader)
    (hlast : (c.node x).log.getLast?.map LogEntry.term = some (c.node x).currentTerm)
    (hmatch : ∀ j, j ≠ x → (c.node x).matchIndex j = (c.node x).log.length - 1) :
    (c.node x).commitIndex = (c.node x).log.length - 1 := by
  obtain ⟨hcount, hrule⟩ := Ruling.of_reachable hreach
  obtain ⟨g, hs⟩ := Sound.of_reachable hn' x hreach
  have hlt := (hs.commits.length_le x).trans_le (hs.commits.leader hs.votes hs.logs hst).length_le
  by_contra hne
  refine (hrule.node x).rule hst ((c.node x).log.length - 1) ⟨by omega, ?_, ?_⟩
  · rw [← List.getLast?_eq_getElem?, hlast]
  · -- some other node is one more than the leader itself
    obtain ⟨j, hj⟩ : ∃ j : Fin n, j ≠ x := by
      by_cases hx : x = ⟨0, by omega⟩
      · exact ⟨⟨1, by omega⟩, by rw [hx]; simp⟩
      · exact ⟨⟨0, by omega⟩, Ne.symm hx⟩
    have hmem : (j : Nat) ∈ (List.range (c.node x).peers.length).filter fun (i : Nat) =>
        (i : Int) ≠ (c.node x).id ∧
          (c.node x).matchIndex i ≥ (((c.node x).log.length - 1 : Nat) : Int) := by
      refine List.mem_filter.mpr ⟨List.mem_range.mpr (by rw [hcount.peers x]; exact j.isLt), ?_⟩
      rw [hs.votes.id x, hmatch j hj, decide_eq_true_iff]
      exact ⟨fun heq => hj (Fin.ext (Int.ofNat.inj heq)), by omega⟩
    have hone := List.length_pos_of_mem hmem
    have hpeers := hcount.peers x
    rw [Node.replicationCount]
    omega

/-- `x` leads term `T` with the log `L`, and no node has passed its term. -/
structure Leading (x : Fin n) (T : Int) (L : List LogEntry) (c : Cluster n) : Prop where
  reachable : (cluster n).Reachable c
  state : (c.node x).state = .leader
  term : (c.node x).currentTerm = T
  log : (c.node x).log = L
  le : ∀ j, (c.node j).currentTerm ≤ T

namespace Leading

/-- A call to `j` that leaves `x` the leader of the same log. -/
theorem call (h : Leading x T L c) (hlead : (cluster n).LeadsBy Action.Internal c c')
    (hst : (c'.node x).state = .leader) (htm : (c'.node x).currentTerm = T)
    (hlog : (c'.node x).log = L) (hj : (c'.node j).currentTerm ≤ T)
    (hrest : ∀ k, k ≠ x → k ≠ j → c'.node k = c.node k) : Leading x T L c' := by
  refine ⟨h.reachable.leads hlead.leads, hst, htm, hlog, fun k => ?_⟩
  by_cases hkx : k = x
  · rw [hkx, htm]
  · by_cases hkj : k = j
    · rw [hkj]
      exact hj
    · rw [hrest k hkx hkj]
      exact h.le k

theorem view (hn' : n ≤ 3) (h : Leading x T L c) (hjx : j ≠ x) : View c x j := by
  obtain ⟨g, -, hv⟩ := Views.of_reachable hn' x h.reachable
  exact hv.view x j h.state hjx

/-- A node that the leader knows to hold its whole log does so. -/
theorem prefix_log (hn' : n ≤ 3) (h : Leading x T L c) (hjx : j ≠ x)
    (hm : (c.node x).matchIndex j = L.length - 1) : L <+: (c.node j).log := by
  have hagrees := (h.view hn' hjx).agrees (by rw [h.term]; exact h.le j)
  rw [hm, h.log, show ((L.length : Int) - 1 + 1).toNat = L.length by omega,
    List.take_length] at hagrees
  exact hagrees

theorem commitIndex_lt (hn' : n ≤ 3) (h : Leading x T L c) (j : Fin n) :
    (c.node j).commitIndex < L.length := by
  obtain ⟨g, hs⟩ := Sound.of_reachable hn' x h.reachable
  have hle := (hs.commits.leader hs.votes hs.logs h.state).length_le
  rw [h.log] at hle
  exact (hs.commits.length_le j).trans_le hle

/-- One call to `j`: either `j` has the whole log and the leader's commit index, or the leader backs
up by one entry. -/
theorem round (hn' : n ≤ 3) (h : Leading x T L c) (hjx : j ≠ x) :
    ∃ c', (cluster n).LeadsBy Action.Internal c c' ∧ Leading x T L c' ∧
      (∀ k, k ≠ x → k ≠ j → c'.node k = c.node k) ∧
      (∀ k : Fin n, k ≠ j → (c'.node x).matchIndex k = (c.node x).matchIndex k) ∧
      (c.node x).commitIndex ≤ (c'.node x).commitIndex ∧
      ((c'.node x).matchIndex j = L.length - 1 ∧
          (c.node x).commitIndex ≤ (c'.node j).commitIndex ∨
        (c'.node x).nextIndex j < (c.node x).nextIndex j) := by
  have hview := h.view hn' hjx
  have hterm : (c.node j).currentTerm ≤ (c.node x).currentTerm := by
    rw [h.term]
    exact h.le j
  obtain ⟨k, hk⟩ : ∃ k : Nat, (c.node x).nextIndex j = k + 1 :=
    ⟨((c.node x).nextIndex j - 1).toNat, by have := hview.nonneg; have := hview.lt; omega⟩
  have hkl : k < (c.node x).log.length := by
    have := hview.le
    omega
  have hargs := replicateArgs_at h.state hk hkl
  by_cases hat : (c.node j).log[k]?.map LogEntry.term = (c.node x).log[k]?.map LogEntry.term
  · obtain ⟨leader', follower', again, hcall, hst, htm, hlog, hmi, hother, hci, hft, hfc⟩ :=
      replicateToFollower_serves h.state hterm hk hkl (hview.lt.trans_le hview.le) hat
    obtain ⟨c', hlead, hx, hj, hrest⟩ := leads_replicateToFollower hjx hargs hcall
    have h' : Leading x T L c' := h.call (j := j) hlead (by rw [hx, hst])
      (by rw [hx, htm, h.term]) (by rw [hx, hlog, h.log]) (by rw [hj, hft, h.term]) hrest
    have hm' : (c'.node x).matchIndex j = L.length - 1 := by rw [hx, hmi, h.log]
    refine ⟨c', hlead, h', hrest, fun k hkj => ?_, by rw [hx]; exact hci, Or.inl ⟨hm', ?_⟩⟩
    · rw [hx]
      exact hother k fun heq => hkj (Fin.ext (Int.ofNat.inj heq))
    · have hlt := (h.commitIndex_lt hn' x).trans_le (h'.prefix_log hn' hjx hm').length_le
      rw [hj] at hlt ⊢
      rw [hfc]
      exact Node.le_commitTo _ hlt
  · have hpos : 0 < k := by
      -- all logs begin with the sentinel
      refine Nat.pos_of_ne_zero fun hzero => hat ?_
      obtain ⟨g, hs⟩ := Sound.of_reachable hn' x h.reachable
      rw [hzero, ← List.head?_eq_getElem?, ← List.head?_eq_getElem?, (hs.logs.log j).head,
        (hs.logs.log x).head]
    obtain ⟨follower', hcall, hlog, hft⟩ :=
      replicateToFollower_refused h.state hterm hk hpos hkl hat
    obtain ⟨c', hlead, hx, hj, hrest⟩ := leads_replicateToFollower hjx hargs hcall
    refine ⟨c', hlead, ?_, hrest, fun k hkj => by rw [hx]; rfl, by rw [hx]; rfl, Or.inr ?_⟩
    · exact h.call (j := j) hlead (by rw [hx]; exact h.state) (by rw [hx]; exact h.term)
        (by rw [hx]; exact h.log) (by rw [hj]; exact hft.trans_eq h.term) hrest
    · rw [hx, hk]
      simp [Node.backUp]

/-- The leader knows `j` to hold its log, and `j` has committed up to `N`. -/
def Has (x j : Fin n) (L : List LogEntry) (N : Nat) (c : Cluster n) : Prop :=
  (c.node x).matchIndex j = L.length - 1 ∧ N ≤ (c.node j).commitIndex

/-- The calls to `j` go on until it holds the log. -/
theorem serve (hn' : n ≤ 3) (h : Leading x T L c) (hjx : j ≠ x) {N : Nat}
    (hN : N ≤ (c.node x).commitIndex) :
    ∃ c', (cluster n).LeadsBy Action.Internal c c' ∧
      (Leading x T L c' ∧ N ≤ (c'.node x).commitIndex) ∧ Has x j L N c' ∧
      ∀ k, k ≠ x → k ≠ j → Has x k L N c → Has x k L N c' := by
  obtain ⟨c', hlead, ⟨h', hN', hrest⟩, hgoal⟩ :=
    Machine.LeadsBy.iterate (m := cluster n) (P := Action.Internal) (s := c)
      (I := fun d => Leading x T L d ∧ N ≤ (d.node x).commitIndex ∧ ∀ k, k ≠ x → k ≠ j →
        d.node k = c.node k ∧ (d.node x).matchIndex k = (c.node x).matchIndex k)
      (G := Has x j L N) (fun d => ((d.node x).nextIndex j).toNat)
      (fun d hd _ => by
        obtain ⟨hd, hN, hrest⟩ := hd
        obtain ⟨d', hlead, hd', hrest', hmatch', hcommit, hdone⟩ := hd.round hn' hjx
        refine ⟨d', hlead, ⟨hd', hN.trans hcommit, fun k hkx hkj => ?_⟩, ?_⟩
        · rw [hrest' k hkx hkj, hmatch' k hkj]
          exact hrest k hkx hkj
        · refine hdone.imp (fun h => ⟨h.1, hN.trans h.2⟩) fun hlt => ?_
          have hview := hd'.view hn' hjx
          have := hview.nonneg
          have := hview.lt
          omega)
      ⟨h, hN, fun _ _ _ => ⟨rfl, rfl⟩⟩
  refine ⟨c', hlead, ⟨h', hN'⟩, hgoal, fun k hkx hkj hk => ?_⟩
  obtain ⟨hnode, hmatch⟩ := hrest k hkx hkj
  exact ⟨hmatch.trans hk.1, by rw [hnode]; exact hk.2⟩

theorem serveAll (hn' : n ≤ 3) (h : Leading x T L c) {N : Nat}
    (hN : N ≤ (c.node x).commitIndex) :
    ∃ c', (cluster n).LeadsBy Action.Internal c c' ∧ Leading x T L c' ∧
      N ≤ (c'.node x).commitIndex ∧ ∀ j, j ≠ x → Has x j L N c' := by
  obtain ⟨c', hlead, ⟨h', hN'⟩, hall⟩ :=
    Machine.LeadsBy.forEach (m := cluster n) (P := Action.Internal) (s := c)
      (I := fun d => Leading x T L d ∧ N ≤ (d.node x).commitIndex)
      (D := fun j d => j ≠ x → Has x j L N d)
      (fun j d hd => by
        by_cases hjx : j = x
        · exact ⟨d, .refl d, hd, fun h => absurd hjx h, fun _ h => h⟩
        obtain ⟨d', hlead, hd', hj, hkeep⟩ := hd.1.serve hn' hjx hd.2
        refine ⟨d', hlead, hd', fun _ => hj, fun k hk hkx => ?_⟩
        by_cases hkj : k = j
        · exact hkj ▸ hj
        · exact hkeep k hkx hkj (hk hkx))
      (List.finRange n) ⟨h, hN⟩
  exact ⟨c', hlead, h', hN', fun j hj => hall j (List.mem_finRange j) hj⟩

theorem commitIndex_eq (hn : 2 ≤ n) (hn' : n ≤ 3) (h : Leading x T L c)
    (hlast : L.getLast?.map LogEntry.term = some T)
    (hmatch : ∀ j, j ≠ x → (c.node x).matchIndex j = L.length - 1) :
    (c.node x).commitIndex = L.length - 1 := by
  obtain ⟨hreach, hst, rfl, rfl, -⟩ := h
  exact leader_commitIndex_eq hn hn' hreach hst hlast hmatch

end Leading

/-! ### The apply channel -/

/-- A node emits everything it has committed. -/
theorem leads_applied (hn' : n ≤ 3) (hreach : (cluster n).Reachable c) (i : Fin n) :
    ∃ c', (cluster n).LeadsBy Action.Internal c c' ∧
      c'.node i = { c.node i with lastApplied := (c.node i).commitIndex } ∧
      ∀ k, k ≠ i → c'.node k = c.node k := by
  obtain ⟨c', hlead, ⟨-, ⟨a, hi⟩, hrest⟩, hgoal⟩ :=
    Machine.LeadsBy.iterate (m := cluster n) (P := Action.Internal) (s := c)
      (I := fun d => (cluster n).Reachable d ∧
        (∃ a, d.node i = { c.node i with lastApplied := a }) ∧ ∀ k, k ≠ i → d.node k = c.node k)
      (G := fun d => (d.node i).lastApplied = (d.node i).commitIndex)
      (fun d => (d.node i).commitIndex - (d.node i).lastApplied)
      (fun d hd hnot => by
        obtain ⟨hreach, ⟨a, hi⟩, hrest⟩ := hd
        obtain ⟨g, hs⟩ := Sound.of_reachable hn' i hreach
        have hlt : (d.node i).lastApplied < (d.node i).commitIndex :=
          lt_of_le_of_ne (hs.commits.applied i) hnot
        obtain ⟨⟨nd, msg⟩, hnext⟩ := Option.ne_none_iff_exists'.mp (hs.applyNext_isSome hlt)
        have hstep : d.step (.apply i) = some { d.setNode i nd with
            emitted := Function.update d.emitted i (d.emitted i ++ [msg]) } := by
          simp [step, hnext]
        obtain ⟨-, rfl, -⟩ := Node.applyNext_cases hnext
        have hlead := leadsBy_of_step hstep trivial
        refine ⟨_, hlead, ⟨hreach.leads hlead.leads, ⟨a + 1, ?_⟩, fun k hk => ?_⟩, Or.inr ?_⟩
        · simp [hi]
        · simp [hk, hrest k hk]
        · simp only [setNode_same]
          omega)
      ⟨hreach, ⟨(c.node i).lastApplied, rfl⟩, fun _ _ => rfl⟩
  rw [hi] at hgoal
  exact ⟨c', hlead, by rw [hi, show a = (c.node i).commitIndex from hgoal], hrest⟩

/-- Every node emits what it has committed, and nothing else changes. -/
theorem leads_appliedAll (hn' : n ≤ 3) (hreach : (cluster n).Reachable c) :
    ∃ c', (cluster n).LeadsBy Action.Internal c c' ∧
      ∀ i, c'.node i = { c.node i with lastApplied := (c.node i).commitIndex } := by
  obtain ⟨c', hlead, -, hall⟩ :=
    Machine.LeadsBy.forEach (m := cluster n) (P := Action.Internal) (s := c)
      (I := fun d => (cluster n).Reachable d ∧ ∀ i, d.node i = c.node i ∨
        d.node i = { c.node i with lastApplied := (c.node i).commitIndex })
      (D := fun i d => d.node i = { c.node i with lastApplied := (c.node i).commitIndex })
      (fun i d hd => by
        obtain ⟨hreach, hnodes⟩ := hd
        obtain ⟨d', hlead, hi, hrest⟩ := leads_applied hn' hreach i
        have hdone : d'.node i = { c.node i with lastApplied := (c.node i).commitIndex } := by
          rcases hnodes i with h | h <;> rw [hi, h]
        refine ⟨d', hlead, ⟨hreach.leads hlead.leads, fun k => ?_⟩, hdone, fun k hk => ?_⟩
        · by_cases hki : k = i
          · exact Or.inr (hki ▸ hdone)
          · rw [hrest k hki]
            exact hnodes k
        · by_cases hki : k = i
          · exact hki ▸ hdone
          · rw [hrest k hki, hk])
      (List.finRange n) ⟨hreach, fun _ => Or.inl rfl⟩
  exact ⟨c', hlead, fun i => hall i (List.mem_finRange i)⟩

theorem emitted_prefix (h : (cluster n).Leads c c') (i : Fin n) : c.emitted i <+: c'.emitted i :=
  Machine.Leads.invariant (P := fun d => c.emitted i <+: d.emitted i)
    (fun _ _ _ hd hstep =>
      hd.trans ((Step.of_step hstep).emitted i))
    h List.prefix_rfl

/-- A command that has been appended by a leader whose term no node has passed is committed and
emitted everywhere, as the last entry of the leader's log. -/
theorem Leading.leads_emitted (hn : 2 ≤ n) (hn' : n ≤ 3) (h : Leading x T L c)
    (hlast : L.getLast?.map LogEntry.term = some T) :
    ∃ c', (cluster n).LeadsBy Action.Internal c c' ∧ Leading x T L c' ∧
      ∀ i, c'.emitted i = L.tail.map LogEntry.toMsg := by
  -- the first round of calls brings the log to every node, the second one its commit index
  obtain ⟨c₁, hlead₁, h₁, -, hhas₁⟩ := h.serveAll hn' (Nat.zero_le _)
  have hcommit₁ := h₁.commitIndex_eq hn hn' hlast fun j hj => (hhas₁ j hj).1
  obtain ⟨c₂, hlead₂, h₂, hx₂, hhas₂⟩ := h₁.serveAll hn' hcommit₁.ge
  obtain ⟨c₃, hlead₃, hnodes⟩ := leads_appliedAll hn' h₂.reachable
  have hall : ∀ i, (c₂.node i).commitIndex = L.length - 1 := by
    intro i
    have hlt := h₂.commitIndex_lt hn' i
    by_cases hi : i = x
    · rw [hi] at hlt ⊢
      omega
    · have := (hhas₂ i hi).2
      omega
  have hreach₃ := h₂.reachable.leads hlead₃.leads
  have h₃ : Leading x T L c₃ := by
    refine ⟨hreach₃, ?_, ?_, ?_, fun j => ?_⟩
    · rw [hnodes x]
      exact h₂.state
    · rw [hnodes x]
      exact h₂.term
    · rw [hnodes x]
      exact h₂.log
    · rw [hnodes j]
      exact h₂.le j
  refine ⟨c₃, (hlead₁.trans hlead₂).trans hlead₃, h₃, fun i => ?_⟩
  obtain ⟨g, hs⟩ := Sound.of_reachable hn' x hreach₃
  have hpos : 0 < L.length := (Nat.zero_le _).trans_lt (h₂.commitIndex_lt hn' x)
  have hLg : L <+: g.committed := by
    have hcommit := (hs.commits.commit x).2
    rw [hnodes x] at hcommit
    simp only [hall x, h₂.log] at hcommit
    rwa [Nat.sub_add_cancel hpos, List.take_length] at hcommit
  rw [hs.commits.emitted i, hnodes i]
  simp only [hall i]
  rw [Nat.sub_add_cancel hpos, ← List.prefix_iff_eq_take.mp hLg]

/-- The leader takes a command. -/
theorem Leading.submit (h : Leading x T L c) (cmd : Command) :
    ∃ nd, (c.node x).submit cmd = some (nd, (L.length : Int), T) ∧
      Leading x T (L ++ [⟨T, L.length, cmd⟩]) (c.setNode x nd) := by
  have hsubmit : (c.node x).submit cmd = some ({ c.node x with
      log := L ++ [⟨T, L.length, cmd⟩]
      matchIndex := Function.update (c.node x).matchIndex (c.node x).id L.length },
      (L.length : Int), T) := by
    simp [Node.submit, h.state, h.term, h.log]
  have hreach : (cluster n).Reachable _ := h.reachable.leads (.of_step (a := .submit x cmd)
    (show c.step (.submit x cmd) = some _ by simp only [step, hsubmit]; rfl))
  refine ⟨_, hsubmit, hreach, by simp [h.state], by simp [h.term], by simp, fun j => ?_⟩
  by_cases hj : j = x
  · simp [hj, h.term]
  · simp [hj, h.le j]

/-- Whatever has been emitted stands in the leader's log. -/
theorem Leading.emitted_within (hn' : n ≤ 3) (h : Leading x T L c) (i : Fin n) :
    c.emitted i <+: L.tail.map LogEntry.toMsg := by
  obtain ⟨g, hs⟩ := Sound.of_reachable hn' x h.reachable
  have hcommitted := hs.commits.leader hs.votes hs.logs h.state
  rw [h.log] at hcommitted
  rw [hs.commits.emitted i, ← List.drop_one, ← List.drop_one]
  exact (((List.take_prefix _ _).trans hcommitted).drop 1).map _

end Cluster

/-- A cluster of two or three nodes can always go on. From every state of every run, with whatever
requests lost or late and goroutines anywhere, a run of its own brings it to a leader that takes any
command, and a further one to a state in which every node has emitted the same messages, with that
command as the last of them. -/
theorem never_wedged {c : Cluster n} (hn : 2 ≤ n) (hn' : n ≤ 3) (h : (cluster n).Reachable c)
    (cmd : Command) :
    ∃ c₁ x c₂ c', (cluster n).LeadsBy Action.Internal c c₁ ∧
      c₁.step (.submit x cmd) = some c₂ ∧ (cluster n).LeadsBy Action.Internal c₂ c' ∧
      ∃ msgs msg, msg.command = cmd ∧
        ∀ i, c.emitted i <+: msgs ∧ c'.emitted i = msgs ++ [msg] := by
  obtain ⟨c₁, x, hlead₁, hst, hle⟩ := Cluster.leads_leader hn hn' h
  have hreach₁ := h.leads hlead₁.leads
  have h₁ : Cluster.Leading x (c₁.node x).currentTerm (c₁.node x).log c₁ :=
    ⟨hreach₁, hst, rfl, rfl, hle⟩
  obtain ⟨nd, hsubmit, h₂⟩ := h₁.submit cmd
  obtain ⟨c', hlead₃, -, hemit⟩ := h₂.leads_emitted hn hn' (by simp)
  have hne := Cluster.log_ne_nil hn' hreach₁ x
  refine ⟨c₁, x, _, c', hlead₁, by simp [Cluster.step, hsubmit], hlead₃,
    (c₁.node x).log.tail.map LogEntry.toMsg,
    LogEntry.toMsg ⟨(c₁.node x).currentTerm, (c₁.node x).log.length, cmd⟩, rfl, fun i => ⟨?_, ?_⟩⟩
  · exact (Cluster.emitted_prefix hlead₁.leads i).trans (h₁.emitted_within hn' i)
  · rw [hemit i, List.tail_append_of_ne_nil hne, List.map_append]
    rfl

/-- The leader 0 has appended a command that no other node has, and 1 and 2 stand in term 2. They
refuse each other's requests, and 0 refuses 2, whose log is behind its own. -/
def standoff : List (Action 3) :=
  oneCommand.take 9 ++
    [.readState 1, .electionTimeout 1, .readState 1, .startElection 1,
      .readState 2, .electionTimeout 2, .readState 2, .startElection 2,
      .deliverVote 1 2, .deliverVote 2 1, .deliverVote 2 0, .countVote 1 2, .countVote 2 1]

theorem never_wedged_standoff :
    ∃ c, (cluster 3).exec (Cluster.start ["a", "b", "c"]) standoff = some c ∧
      ∃ c₁ x c₂ c', (cluster 3).LeadsBy Action.Internal c c₁ ∧
        c₁.step (.submit x { type := .readBarrier }) = some c₂ ∧
        (cluster 3).LeadsBy Action.Internal c₂ c' ∧
        ∃ msgs msg, msg.command = { type := .readBarrier } ∧
          ∀ i, c.emitted i <+: msgs ∧ c'.emitted i = msgs ++ [msg] := by
  have hrun : ((cluster 3).exec (Cluster.start ["a", "b", "c"]) standoff).isSome := by
    decide +kernel
  obtain ⟨c, hc⟩ := Option.isSome_iff_exists.mp hrun
  exact ⟨c, hc, never_wedged (by decide) (by decide)
    ⟨_, _, ⟨["a", "b", "c"], rfl, rfl⟩, hc⟩ _⟩

end KvRaft.Raft
