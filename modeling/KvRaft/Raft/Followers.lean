import KvRaft.Raft.Safety

/-! The leader's view of its followers. A match index is taken from a request that was built before
the call and is set after it, while other requests of the same leader, late ones among them, reach
the follower; since all of them carry pieces of one log, none of them takes back what a reply has
acknowledged. -/

namespace KvRaft.Raft

open Lineage

variable {n : Nat}

namespace Node

variable {nd nd' : Node} {args : AppendEntriesArgs} {reply : AppendEntriesReply}

/-- A request of the node's term or a later one is refused only if the log does not have the entry
below the piece. -/
theorem handleAppendEntries_refused (h : nd.handleAppendEntries args = some (nd', reply))
    (hno : reply.success = false) (hle : nd.currentTerm ≤ args.term) :
    (nd.log.length : Int) ≤ args.prevLogIndex ∨
      (logAt nd.log args.prevLogIndex).map LogEntry.term ≠ some args.prevLogTerm := by
  rw [handleAppendEntries_current hle] at h
  split at h
  · next hprev => exact hprev.2
  · obtain ⟨_, -, heq⟩ := Option.map_eq_some_iff.mp h
    rw [← (Prod.mk.inj heq).2] at hno
    cases hno

theorem replicateArgs_next {peerIdx : Int} (h : nd.replicateArgs peerIdx = some args) :
    args.prevLogIndex + 1 = nd.nextIndex peerIdx := by
  simp only [replicateArgs, Option.bind_eq_bind, Option.pure_def] at h
  split at h
  · simp at h
  · split at h
    · simp at h
    · simp only [Option.bind_eq_some_iff, Option.some.injEq] at h
      obtain ⟨_, _, rfl⟩ := h
      exact Int.sub_add_cancel _ _

theorem becomeLeaderLocked_nextIndex {i : Nat} (h : i < nd.peers.length) :
    nd.becomeLeaderLocked.nextIndex i = nd.log.length := by
  simp [becomeLeaderLocked, h]

end Node

/-- Unless `p` has gone on to a later term, it has the log of `i` up to position `m`. -/
def Agrees (c : Cluster n) (i p : Fin n) (m : Int) : Prop :=
  (c.node p).currentTerm ≤ (c.node i).currentTerm →
    (c.node i).log.take (m + 1).toNat <+: (c.node p).log

/-- What the leader `i` knows about `p`, and the call of its worker for `p`. -/
structure View (c : Cluster n) (i p : Fin n) : Prop where
  nonneg : 0 ≤ (c.node i).matchIndex p
  lt : (c.node i).matchIndex p < (c.node i).nextIndex p
  le : (c.node i).nextIndex p ≤ (c.node i).log.length
  agrees : Agrees c i p ((c.node i).matchIndex p)
  sent : ∀ args, c.append i p = .sent args → args.term = (c.node i).currentTerm →
    args.prevLogIndex + 1 = (c.node i).nextIndex p
  answered : ∀ args reply, c.append i p = .answered args reply →
    args.term = (c.node i).currentTerm → args.prevLogIndex + 1 = (c.node i).nextIndex p ∧
      args.prevLogIndex + args.entries.length < (c.node i).log.length ∧
      (reply.success = true → Agrees c i p (args.prevLogIndex + args.entries.length)) ∧
      (reply.success = false → reply.term ≤ args.term →
        (c.node i).matchIndex p < args.prevLogIndex)

/-- Every leader's view of every other node. -/
structure Views (g : Ghost n) (c : Cluster n) : Prop where
  view : ∀ i p, (c.node i).state = .leader → p ≠ i → View c i p
  answered : ∀ i p args reply, c.append i p = .answered args reply → g.owner args.term ≠ none

theorem Agrees.mono {c c' : Cluster n} {i p : Fin n} {m : Int} (h : Agrees c i p m)
    (hm : m < (c.node i).log.length) (hterm : (c'.node i).currentTerm = (c.node i).currentTerm)
    (hlog : (c.node i).log <+: (c'.node i).log)
    (hp : (c'.node p).currentTerm ≤ (c.node i).currentTerm →
      (c.node p).currentTerm ≤ (c.node i).currentTerm ∧
        ∀ x, x <+: (c.node i).log → x <+: (c.node p).log → x <+: (c'.node p).log) :
    Agrees c' i p m := by
  intro hle
  rw [hterm] at hle
  obtain ⟨hle', hkeep⟩ := hp hle
  rw [take_prefix_eq hlog (by omega)]
  exact hkeep _ (List.take_prefix _ _) (h hle')

/-- The leader keeps its view, its log only grows, and `p` loses nothing of what the two have in
common. -/
theorem View.mono {c c' : Cluster n} {i p : Fin n} (h : View c i p)
    (hterm : (c'.node i).currentTerm = (c.node i).currentTerm)
    (hlog : (c.node i).log <+: (c'.node i).log)
    (hnext : (c'.node i).nextIndex p = (c.node i).nextIndex p)
    (hmatch : (c'.node i).matchIndex p = (c.node i).matchIndex p)
    (happ : c'.append i p = c.append i p)
    (hp : (c'.node p).currentTerm ≤ (c.node i).currentTerm →
      (c.node p).currentTerm ≤ (c.node i).currentTerm ∧
        ∀ x, x <+: (c.node i).log → x <+: (c.node p).log → x <+: (c'.node p).log) :
    View c' i p := by
  have hlen := hlog.length_le
  have hlt := h.lt
  have hle := h.le
  refine ⟨hmatch ▸ h.nonneg, by rw [hmatch, hnext]; exact h.lt, by rw [hnext]; omega, ?_, ?_, ?_⟩
  · rw [hmatch]
    exact h.agrees.mono (by omega) hterm hlog hp
  · rw [happ, hterm, hnext]
    exact h.sent
  · rw [happ, hterm, hnext, hmatch]
    intro args reply ha ht
    obtain ⟨hprev, hend, hyes, hno⟩ := h.answered args reply ha ht
    exact ⟨hprev, by omega, fun hs => (hyes hs).mono hend hterm hlog hp, hno⟩

/-- All logs begin with the same entry. -/
theorem WellFormed.prefix_head {L L' : Int → List LogEntry} {T T' : Int} {log log' : List LogEntry}
    (h : WellFormed L T log) (h' : WellFormed L' T' log') : log.take 1 <+: log' := by
  obtain ⟨e, rest, rfl⟩ := List.exists_cons_of_ne_nil h.ne_nil
  obtain ⟨e', rest', rfl⟩ := List.exists_cons_of_ne_nil h'.ne_nil
  have he := Option.some.inj h.head
  have he' := Option.some.inj h'.head
  subst he he'
  exact List.prefix_append [sentinel] rest'

/-- No node is in an earlier term than a leader, which has the votes of the whole cluster. -/
theorem Sound.leader_term_le {g : Ghost n} {c : Cluster n} (h : Sound g c) {i : Fin n}
    (hlead : (c.node i).state = .leader) (p : Fin n) :
    (c.node i).currentTerm ≤ (c.node p).currentTerm :=
  h.votes.voted_le p _ i (h.votes.owner_voted _ i (h.votes.leader i hlead) p)

namespace Views

variable {g g' : Ghost n} {c c' : Cluster n}

theorem start (peers : List String) (x : Fin n) : Views (Ghost.start x) (Cluster.start peers) where
  view _ _ h := by simp [Cluster.start, newNode] at h
  answered _ _ _ _ h := by simp [Cluster.start] at h

theorem mono (h : Views g c) (hg : g ≤ g') : Views g' c where
  view := h.view
  answered i p args reply ha := by
    obtain ⟨o, ho⟩ := Option.ne_none_iff_exists'.mp (h.answered i p args reply ha)
    rw [hg.2.1 _ o ho]
    exact Option.some_ne_none o

/-- Only goroutines, votes and late requests change. -/
theorem frame (h : Views g c) (hnode : c'.node = c.node) (happ : c'.append = c.append) :
    Views g c' := by
  obtain ⟨node, loop, vote, append, lateVotes, lateAppends, emitted⟩ := c'
  simp only at hnode happ
  subst hnode happ
  refine ⟨fun i p hst hne => ?_, h.answered⟩
  exact (h.view i p hst hne).mono rfl List.prefix_rfl rfl rfl rfl
    fun hle => ⟨hle, fun _ _ hx => hx⟩

/-- One node changes: what it knows if it leads is given, and as a follower it loses nothing that it
has in common with a leader of its term. -/
theorem setNode (h : Views g c) {q : Fin n} {nd : Node}
    (hlead : nd.state = .leader → ∀ p, p ≠ q → View (c.setNode q nd) q p)
    (hterm : (c.node q).currentTerm ≤ nd.currentTerm)
    (hlog : ∀ i, (c.node i).state = .leader → nd.currentTerm ≤ (c.node i).currentTerm →
      ∀ x, x <+: (c.node i).log → x <+: (c.node q).log → x <+: nd.log) :
    Views g (c.setNode q nd) := by
  refine ⟨fun i p hst hne => ?_, h.answered⟩
  by_cases hi : i = q
  · subst hi
    exact hlead (by simpa using hst) p hne
  · rw [Cluster.setNode_ne _ _ _ hi] at hst
    have hsame : (c.setNode q nd).node i = c.node i := Cluster.setNode_ne _ _ _ hi
    refine (h.view i p hst hne).mono ?_ ?_ ?_ ?_ rfl fun hle => ?_
    · rw [hsame]
    · rw [hsame]
    · rw [hsame]
    · rw [hsame]
    · by_cases hp : p = q
      · subst hp
        rw [Cluster.setNode_same] at hle ⊢
        exact ⟨hterm.trans hle, hlog i hst hle⟩
      · rw [Cluster.setNode_ne _ _ _ hp] at hle ⊢
        exact ⟨hle, fun _ _ hx => hx⟩

/-- A node that keeps its log, and its term and its view if it leads. -/
theorem quiet (h : Views g c) {q : Fin n} {nd : Node}
    (hterm : (c.node q).currentTerm ≤ nd.currentTerm) (hlog : nd.log = (c.node q).log)
    (hlead : nd.state = .leader → (c.node q).state = .leader ∧
      nd.currentTerm = (c.node q).currentTerm ∧ nd.nextIndex = (c.node q).nextIndex ∧
      nd.matchIndex = (c.node q).matchIndex) : Views g (c.setNode q nd) := by
  refine h.setNode (fun hst p hne => ?_) hterm fun _ _ _ x _ hx => hlog ▸ hx
  obtain ⟨hst', ht, hnext, hmatch⟩ := hlead hst
  refine (h.view q p hst' hne).mono ?_ ?_ ?_ ?_ rfl fun hle => ?_
  · rw [Cluster.setNode_same, ht]
  · rw [Cluster.setNode_same, hlog]
  · rw [Cluster.setNode_same, hnext]
  · rw [Cluster.setNode_same, hmatch]
  · rw [Cluster.setNode_ne _ _ _ hne] at hle ⊢
    exact ⟨hle, fun _ _ hx => hx⟩

theorem becomeFollower (h : Views g c) (q : Fin n) (term l : Int) :
    Views g (c.setNode q { (c.node q).becomeFollowerLocked term with leaderID := l }) :=
  h.quiet ((c.node q).becomeFollowerLocked_term term).1 rfl nofun

theorem handleVote (h : Views g c) {j : Fin n} {args : RequestVoteArgs} {nd : Node}
    {reply : RequestVoteReply} (hh : (c.node j).handleRequestVote args = some (nd, reply)) :
    Views g (c.setNode j nd) := by
  have hobs : ∀ v, Views g (c.setNode j { (c.node j).observe args.term with votedFor := v }) := by
    intro v
    unfold Node.observe
    split
    · exact h.quiet ((c.node j).becomeFollowerLocked_term args.term).1 rfl nofun
    · exact h.quiet le_rfl rfl fun hst => ⟨hst, rfl, rfl, rfl⟩
  rcases Node.handleRequestVote_cases hh with ⟨rfl, -⟩ | ⟨-, ⟨rfl, -⟩ | ⟨rfl, -⟩⟩
  · rw [Cluster.setNode_self]
    exact h
  · exact hobs _
  · exact hobs _

/-- A call of one worker starts, is answered or ends. -/
theorem setAppend (h : Views g c) {i j : Fin n} {a : AppendCall}
    (hsent : ∀ args, a = .sent args → (c.node i).state = .leader → j ≠ i →
      args.prevLogIndex + 1 = (c.node i).nextIndex j)
    (hans : ∀ args reply, a = .answered args reply → g.owner args.term ≠ none ∧
      ((c.node i).state = .leader → j ≠ i → args.term = (c.node i).currentTerm →
        args.prevLogIndex + 1 = (c.node i).nextIndex j ∧
        args.prevLogIndex + args.entries.length < (c.node i).log.length ∧
        (reply.success = true → Agrees c i j (args.prevLogIndex + args.entries.length)) ∧
        (reply.success = false → reply.term ≤ args.term →
          (c.node i).matchIndex j < args.prevLogIndex))) :
    Views g (c.setAppend i j a) := by
  refine ⟨fun k p hst hne => ?_, fun k p args reply ha => ?_⟩
  · by_cases hkp : k = i ∧ p = j
    · obtain ⟨rfl, rfl⟩ := hkp
      have hv := h.view k p hst hne
      refine ⟨hv.nonneg, hv.lt, hv.le, hv.agrees, fun args ha _ => ?_, fun args reply ha ht => ?_⟩
      · rw [Cluster.setAppend_apply, if_pos ⟨rfl, rfl⟩] at ha
        exact hsent args ha hst hne
      · rw [Cluster.setAppend_apply, if_pos ⟨rfl, rfl⟩] at ha
        exact (hans args reply ha).2 hst hne ht
    · refine (h.view k p hst hne).mono rfl List.prefix_rfl rfl rfl ?_
        fun hle => ⟨hle, fun _ _ hx => hx⟩
      rw [Cluster.setAppend_apply, if_neg hkp]
  · rw [Cluster.setAppend_apply] at ha
    split at ha
    · exact (hans args reply ha).1
    · exact h.answered k p args reply ha

theorem endAppend (h : Views g c) (i j : Fin n) : Views g (c.setAppend i j .idle) :=
  h.setAppend nofun nofun

theorem replicate (h : Views g c) {i j : Fin n} {args : AppendEntriesArgs}
    (ha : (c.node i).replicateArgs j = some args) : Views g (c.setAppend i j (.sent args)) := by
  refine h.setAppend (fun args' hs _ _ => ?_) nofun
  rw [← AppendCall.sent.inj hs]
  exact Node.replicateArgs_next ha

theorem submit (h : Views g c) (hs : Sound g c) {i : Fin n} {cmd : Command} {nd : Node}
    {index term : Int} (hsub : (c.node i).submit cmd = some (nd, index, term)) :
    Views g (c.setNode i nd) := by
  obtain ⟨hlead, -, -, rfl⟩ := Node.submit_cases hsub
  refine h.setNode (fun _ p hne => ?_) le_rfl
    fun _ _ _ x _ hx => hx.trans (List.prefix_append _ _)
  refine (h.view i p hlead hne).mono ?_ ?_ ?_ ?_ rfl fun hle => ?_
  · rw [Cluster.setNode_same]
  · rw [Cluster.setNode_same]
    exact List.prefix_append _ _
  · rw [Cluster.setNode_same]
  · rw [Cluster.setNode_same]
    refine Function.update_of_ne ?_ _ _
    rw [hs.votes.id i]
    exact fun heq => hne (Fin.ext (by omega))
  · rw [Cluster.setNode_ne _ _ _ hne] at hle ⊢
    exact ⟨hle, fun _ _ hx => hx⟩

theorem handleAppend (h : Views g c) (hs : Sound g c) {j : Fin n} {args : AppendEntriesArgs}
    {nd : Node} {reply : AppendEntriesReply} (hreq : c.AppendRequest j args)
    (hh : (c.node j).handleAppendEntries args = some (nd, reply)) : Views g (c.setNode j nd) := by
  rcases Node.handleAppendEntries_cases hh with ⟨-, rfl, -⟩ | ⟨hle, ⟨rfl, -⟩ | hacc⟩
  · rw [Cluster.setNode_self]
    exact h
  · exact h.becomeFollower j args.term args.leaderId
  · obtain ⟨log, hloop, rfl, -, hprev⟩ := hacc
    obtain ⟨-, hkeep, -⟩ := hs.logs.accept hreq hle hloop hprev
    have hterm : ((c.node j).follow args).currentTerm = args.term :=
      Node.becomeFollowerLocked_of_le hle
    refine h.setNode nofun (hterm ▸ hle) fun i hlead ht x hx hxj => hkeep x hxj ?_
    -- a leader of the request's term or a later one is not ahead of `j`: it is the sender
    have heq : args.term = (c.node i).currentTerm :=
      le_antisymm (hterm ▸ ht) ((hs.leader_term_le hlead j).trans hle)
    rw [heq, hs.logs.leader i hlead]
    exact hx

/-- What a reply says about the log of the follower that has just sent it. -/
theorem reply_agrees (h : Views g c) (hs : Sound g c) {i j : Fin n} {args : AppendEntriesArgs}
    {nd : Node} {reply : AppendEntriesReply} (ha : c.append i j = .sent args)
    (hh : (c.node j).handleAppendEntries args = some (nd, reply))
    (hlead : (c.node i).state = .leader) (hne : j ≠ i)
    (hterm : args.term = (c.node i).currentTerm) :
    args.prevLogIndex + args.entries.length < (c.node i).log.length ∧
      (reply.success = true →
        Agrees (c.setNode j nd) i j (args.prevLogIndex + args.entries.length)) ∧
      (reply.success = false → reply.term ≤ args.term →
        (c.node i).matchIndex j < args.prevLogIndex) := by
  have hreq : c.AppendRequest j args := Or.inl ⟨i, ha⟩
  have hv := h.view i j hlead hne
  have hnext := hv.sent args ha hterm
  have hL : g.leaderLog args.term = (c.node i).log := hterm ▸ hs.logs.leader i hlead
  obtain ⟨k, hk, ⟨hkl, hkt⟩, hpiece⟩ := hs.logs.request j args hreq
  simp only [hL] at hkl hkt hpiece
  have hlen := hpiece.length_le
  rw [List.length_drop] at hlen
  refine ⟨by omega, fun hyes _ => ?_, fun hno hle => ?_⟩
  · rcases Node.handleAppendEntries_cases hh with ⟨-, -, hno⟩ | ⟨hle, ⟨-, hno⟩ | hacc⟩
    · simp [hno] at hyes
    · simp [hno] at hyes
    · obtain ⟨log, hloop, rfl, -, hprev⟩ := hacc
      obtain ⟨⟨k', hk', -, htake⟩, -⟩ := hs.logs.accept hreq hle hloop hprev
      rw [Cluster.setNode_ne _ _ _ (Ne.symm hne), Cluster.setNode_same]
      rw [hL] at htake
      rw [show (args.prevLogIndex + args.entries.length + 1).toNat =
        k' + 1 + args.entries.length by omega]
      exact htake
  · rw [Node.handleAppendEntries_term hh] at hle
    have hrefused := Node.handleAppendEntries_refused hh hno hle
    have hlt := hv.lt
    by_contra hge
    -- the match index would be the position below the piece, where the logs agree
    have hpre := hv.agrees (hterm ▸ hle)
    rw [show (c.node i).matchIndex j = k by omega,
      show ((k : Int) + 1).toNat = k + 1 by omega] at hpre
    have hkj : k < (c.node j).log.length := by
      have := hpre.length_le
      rw [List.length_take] at this
      omega
    rcases hrefused with hshort | hdiff
    · omega
    · refine hdiff ?_
      have hget := hpre.getElem (i := k) (by rw [List.length_take]; omega)
      rw [List.getElem_take] at hget
      rw [hk, hkt, hget]
      simp [logAt, List.getElem?_eq_getElem hkj]

theorem deliverAppend (h : Views g c) (hs : Sound g c) {i j : Fin n} {args : AppendEntriesArgs}
    {nd : Node} {reply : AppendEntriesReply} (ha : c.append i j = .sent args)
    (hh : (c.node j).handleAppendEntries args = some (nd, reply)) :
    Views g ((c.setNode j nd).setAppend i j (.answered args reply)) := by
  have hreq : c.AppendRequest j args := Or.inl ⟨i, ha⟩
  refine (h.handleAppend hs hreq hh).setAppend nofun fun args' reply' he => ?_
  obtain ⟨rfl, rfl⟩ := AppendCall.answered.inj he
  refine ⟨hs.votes.append_owner j args hreq, fun hlead hne hterm => ?_⟩
  rw [Cluster.setNode_ne _ _ _ (Ne.symm hne)] at hlead hterm ⊢
  exact ⟨(h.view i j hlead hne).sent args ha hterm, h.reply_agrees hs ha hh hlead hne hterm⟩

/-- A new leader knows nothing of the others, and has no call of its term out. -/
theorem win (h : Views g c) (hs : Sound g c) {i : Fin n}
    (hnone : g.owner (c.node i).currentTerm = none) :
    Views g (c.setNode i (c.node i).becomeLeaderLocked) := by
  refine h.setNode (fun _ p hne => ?_) le_rfl fun _ _ _ x _ hx => hx
  have hne' : ((p : Nat) : Int) ≠ (c.node i).id := by
    rw [hs.votes.id i]
    exact fun heq => hne (Fin.ext (by omega))
  have hnext := (c.node i).becomeLeaderLocked_nextIndex (i := p)
    (by rw [hs.votes.peers i]; exact p.isLt)
  have hmatch := Node.becomeLeaderLocked_matchIndex hne'
  have hpos := List.length_pos_iff.mpr (hs.logs.log i).ne_nil
  have hcall : ∀ args : AppendEntriesArgs, g.owner args.term ≠ none →
      args.term ≠ (c.node i).currentTerm := fun args ho ht => ho (ht ▸ hnone)
  constructor
  · rw [Cluster.setNode_same, hmatch]
  · rw [Cluster.setNode_same, hmatch, hnext]
    omega
  · rw [Cluster.setNode_same, hnext]
    exact le_rfl
  · rw [Cluster.setNode_same, hmatch]
    intro _
    rw [Cluster.setNode_same, Cluster.setNode_ne _ _ _ hne]
    exact (hs.logs.log i).prefix_head (hs.logs.log p)
  · rw [Cluster.setNode_same]
    exact fun args ha ht => absurd ht (hcall args (hs.votes.append_owner p args (Or.inl ⟨i, ha⟩)))
  · rw [Cluster.setNode_same]
    exact fun args reply ha ht => absurd ht (hcall args (h.answered i p args reply ha))

/-- The leader `i` ends its call to `j` and changes nothing but its indices for `j`. -/
theorem setPeer (h : Views g c) {i j : Fin n} {nd : Node} (hlead : (c.node i).state = .leader)
    (hterm : nd.currentTerm = (c.node i).currentTerm) (hlog : nd.log = (c.node i).log)
    (hother : ∀ p : Int, p ≠ j → nd.nextIndex p = (c.node i).nextIndex p ∧
      nd.matchIndex p = (c.node i).matchIndex p)
    (hj : j ≠ i → 0 ≤ nd.matchIndex j ∧ nd.matchIndex j < nd.nextIndex j ∧
      nd.nextIndex j ≤ (c.node i).log.length ∧ Agrees c i j (nd.matchIndex j)) :
    Views g ((c.setNode i nd).setAppend i j .idle) := by
  have hidle := h.endAppend i j
  refine hidle.setNode (fun _ p hne => ?_) hterm.ge fun _ _ _ x _ hx => hlog ▸ hx
  have hkeep : ((c.setAppend i j .idle).setNode i nd).node p = c.node p :=
    Cluster.setNode_ne _ _ _ hne
  by_cases hp : p = j
  · subst hp
    obtain ⟨h0, h1, h2, h3⟩ := hj hne
    have hcall : ((c.setAppend i p .idle).setNode i nd).append i p = .idle := by
      rw [Cluster.setNode_append, Cluster.setAppend_apply, if_pos ⟨rfl, rfl⟩]
    refine ⟨?_, ?_, ?_, ?_, fun _ hs => ?_, fun _ _ hs => ?_⟩
    · rwa [Cluster.setNode_same]
    · rwa [Cluster.setNode_same]
    · rwa [Cluster.setNode_same, hlog]
    · rw [Cluster.setNode_same]
      refine h3.mono (by omega) ?_ ?_ fun hle => ?_
      · rw [Cluster.setNode_same, hterm]
      · rw [Cluster.setNode_same, hlog]
      · rw [hkeep] at hle ⊢
        exact ⟨hle, fun _ _ hx => hx⟩
    · cases hcall.symm.trans hs
    · cases hcall.symm.trans hs
  · obtain ⟨hnext, hmatch⟩ := hother p fun heq => hp (Fin.ext (by omega))
    refine (hidle.view i p hlead hne).mono ?_ ?_ ?_ ?_ rfl fun hle => ?_
    · rw [Cluster.setNode_same]
      exact hterm
    · rw [Cluster.setNode_same, hlog]
      exact List.prefix_rfl
    · rw [Cluster.setNode_same]
      exact hnext
    · rw [Cluster.setNode_same]
      exact hmatch
    · rw [hkeep] at hle ⊢
      exact ⟨hle, fun _ _ hx => hx⟩

/-- The worker of `i` for `j` takes its reply. -/
theorem finishAppend (h : Views g c) {i j : Fin n} {args : AppendEntriesArgs}
    {reply : AppendEntriesReply} (ha : c.append i j = .answered args reply) :
    Views g ((c.setNode i ((c.node i).replicateReply j args reply).1).setAppend i j .idle) := by
  rcases (c.node i).replicateReply_cases j args reply with
    ⟨-, he⟩ | he | ⟨hlead, hterm, ⟨hyes, hlt, he⟩ | ⟨hno, -, he⟩⟩
  · rw [he]
    exact (h.becomeFollower i reply.term (-1)).endAppend i j
  · rw [he, Cluster.setNode_self]
    exact h.endAppend i j
  · have hview : ∀ nd : Node, nd.currentTerm = (c.node i).currentTerm → nd.log = (c.node i).log →
        nd.nextIndex = Function.update (c.node i).nextIndex j
          (args.prevLogIndex + args.entries.length + 1) →
        nd.matchIndex = Function.update (c.node i).matchIndex j
          (args.prevLogIndex + args.entries.length) →
        Views g ((c.setNode i nd).setAppend i j .idle) := by
      intro nd ht hlog hnext hmatch
      refine h.setPeer hlead ht hlog (fun p hp => ?_) fun hne => ?_
      · rw [hnext, hmatch]
        exact ⟨Function.update_of_ne hp _ _, Function.update_of_ne hp _ _⟩
      · have hv := h.view i j hlead hne
        obtain ⟨-, hend, hagree, -⟩ := hv.answered args reply ha hterm.symm
        have h0 := hv.nonneg
        rw [hnext, hmatch, Function.update_self, Function.update_self]
        exact ⟨by omega, by omega, by omega, hagree hyes⟩
    rw [he]
    rcases Node.tryAdvanceCommitIndexLocked_cases ((c.node i).matchPeer j
      (args.prevLogIndex + args.entries.length)) with hadv | ⟨N, -, -, -, hadv⟩
    · rw [hadv]
      exact hview _ rfl rfl rfl rfl
    · rw [hadv]
      exact hview _ rfl rfl rfl rfl
  · have hrt : reply.term ≤ args.term := by
      by_contra hgt
      rw [Node.replicateReply, if_pos (by omega)] at he
      have hst := congrArg Node.state he
      cases hst.trans hlead
    rw [he]
    refine h.setPeer hlead rfl rfl (fun p hp => ⟨Function.update_of_ne hp _ _, rfl⟩) fun hne => ?_
    have hv := h.view i j hlead hne
    obtain ⟨hprev, -, -, hlow⟩ := hv.answered args reply ha hterm.symm
    have hm := hlow hno hrt
    have hle := hv.le
    simp only [Function.update_self]
    exact ⟨hv.nonneg, by omega, by omega, hv.agrees⟩

theorem move (hn : n ≤ 3) {a : Action n} (h : Views g c) (hs : Sound g c)
    (hm : Cluster.Step c a c') : Views g c' := by
  cases hm with
  | leaderStays => exact h
  | readState | wakeFollower | abandonElection | leaderReturns | tally => exact h.frame rfl rfl
  | @electionTimeout i =>
    have hq : Views g (c.setNode i (c.node i).electionTimeout) := h.quiet le_rfl rfl nofun
    exact hq.frame rfl rfl
  | @startElection i _ _ hl hst =>
    obtain ⟨-, rfl, -⟩ := Node.startElection_cases hst
    have hq : Views g (c.setNode i { c.node i with
        currentTerm := (c.node i).currentTerm + 1, votedFor := (c.node i).id,
        leaderID := -1 }) := by
      refine h.quiet (Int.le_add_one le_rfl) rfl fun hlead => ?_
      have := hs.votes.leader_loop i hlead
      simp [hl] at this
    exact hq.frame rfl rfl
  | @stepDown i _ _ _ r _ _ _ => exact (h.becomeFollower i r.term (-1)).frame rfl rfl
  | win hl hv hneed _ hterm =>
    exact (h.win hs (hterm ▸ (hs.unanimous hn hl hv hneed).2)).frame rfl rfl
  | deliverVote _ hh => exact (h.handleVote hh).frame rfl rfl
  | deliverLateVote _ hh => exact (h.handleVote hh).frame rfl rfl
  | submit hsub => exact h.submit hs hsub
  | replicate _ ha => exact h.replicate ha
  | deliverAppend ha hh => exact h.deliverAppend hs ha hh
  | deliverLateAppend ha hh =>
    exact (h.handleAppend hs (Or.inr (List.mem_of_getElem? ha)) hh).frame rfl rfl
  | finishAppend ha => exact h.finishAppend ha
  | @loseRequest i j => exact (h.endAppend i j).frame rfl rfl
  | @loseReply i j => exact h.endAppend i j
  | @apply i _ _ ha =>
    obtain ⟨-, rfl, -⟩ := Node.applyNext_cases ha
    have hq : Views g (c.setNode i { c.node i with lastApplied := (c.node i).lastApplied + 1 }) :=
      h.quiet le_rfl rfl fun hst => ⟨hst, rfl, rfl, rfl⟩
    exact hq.frame rfl rfl

theorem of_reachable (hn : n ≤ 3) (x : Fin n) (h : (cluster n).Reachable c) :
    ∃ g, Sound g c ∧ Views g c := by
  have hinit : ∀ s, (cluster n).initial s → ∃ g, Sound g s ∧ Views g s := by
    rintro s ⟨peers, hp, rfl⟩
    exact ⟨Ghost.start x, Sound.start peers hp x, start peers x⟩
  have hstep : ∀ g s a s', Sound g s ∧ Views g s → (cluster n).step s a = some s' →
      ∃ g', g ≤ g' ∧ Sound g' s' ∧ Views g' s' := by
    rintro g s a s' ⟨hs, hv⟩ ha
    obtain ⟨g', hg, hs'⟩ := hs.step hn ha
    exact ⟨g', hg, hs', (hv.move hn hs (.of_step ha)).mono hg⟩
  exact h.ghost hinit hstep

end Views

/-- The leader's view of its followers: its indices for another node are in range, and a node that
has not gone on to a later term holds the leader's entries through its match index. -/
theorem leader_view_sound {c : Cluster 3} (h : (cluster 3).Reachable c) {a p : Fin 3}
    (hlead : (c.node a).state = .leader) (hne : p ≠ a) :
    0 ≤ (c.node a).matchIndex p ∧ (c.node a).matchIndex p < (c.node a).nextIndex p ∧
      (c.node a).nextIndex p ≤ (c.node a).log.length ∧
      ((c.node p).currentTerm ≤ (c.node a).currentTerm → ∀ k : Nat,
        (k : Int) ≤ (c.node a).matchIndex p → k < (c.node a).log.length ∧
          (c.node p).log[k]? = (c.node a).log[k]?) := by
  obtain ⟨g, -, hv⟩ := Views.of_reachable le_rfl 0 h
  have hview := hv.view a p hlead hne
  have hlt := hview.lt
  have hle := hview.le
  refine ⟨hview.nonneg, hlt, hle, fun hterm k hk => ⟨by omega, ?_⟩⟩
  have hka : k < ((c.node a).log.take ((c.node a).matchIndex p + 1).toNat).length := by
    rw [List.length_take]
    omega
  have hpre := hview.agrees hterm
  rw [List.getElem?_eq_getElem (lt_of_lt_of_le hka hpre.length_le), getElem_prefix_eq hpre hka,
    List.getElem_take, List.getElem?_eq_getElem]

theorem leader_view_sound_oneCommand :
    ∃ c, (cluster 3).exec (Cluster.start ["a", "b", "c"]) oneCommand = some c ∧
      (c.node 0).matchIndex 1 = 1 ∧ (c.node 1).log[1]? = (c.node 0).log[1]? := by
  have hrun : ((cluster 3).exec (Cluster.start ["a", "b", "c"]) oneCommand).map
      (fun c => decide ((c.node 0).state = .leader ∧ (c.node 0).matchIndex 1 = 1 ∧
        (c.node 1).currentTerm ≤ (c.node 0).currentTerm)) = some true := by decide +kernel
  simp only [Option.map_eq_some_iff, decide_eq_true_eq] at hrun
  obtain ⟨c, hc, hlead, hmatch, hterm⟩ := hrun
  exact ⟨c, hc, hmatch, ((leader_view_sound ⟨_, _, ⟨["a", "b", "c"], rfl, rfl⟩, hc⟩ hlead
    (p := 1) (by decide)).2.2.2 hterm 1 hmatch.ge).2⟩

end KvRaft.Raft
