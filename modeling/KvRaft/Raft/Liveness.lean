import KvRaft.Raft.Wakeups

/-! The goroutines of a node always get on with their work: `run` comes round to its next election
or its next heartbeat by its own timer alone, whatever was queued or dropped, and the applier brings
everything that is committed to the server. -/

namespace KvRaft.Raft

open Lineage

variable {n capacity : Nat}

/-! ### Where `run` can stand -/

/-- The two records of the place of `run` agree. -/
def MainLoop.At : MainLoop n → Loop → Prop
  | .top, l | .read, l => l = .top
  | .inside, l => l ≠ .top
  | .timedOut, l => l = .follower
  | .signal _ byLeader, l => l = if byLeader then .leader else .top
  | .stopped, _ => True

structure Placed (x : Local n) : Prop where
  place : x.routines.main.At x.loop
  /-- in a `select` on the election timer, that timer runs or has fired -/
  timer : x.routines.main = .inside → x.routines.electionTimer = .stopped →
    x.routines.shutdownCh = true ∨ x.loop = .candidate ∨ x.loop = .leader
  stopped : x.routines.main = .stopped → x.routines.shutdownCh = true
  /-- a call of `signalAllReplications` with nobody left to signal has returned -/
  mainSend : ∀ b, x.routines.main ≠ .signal (.send []) b
  submitSend : .send [] ∉ x.routines.submits

namespace Placed

variable {x y : Local n} {i : Fin n}
  {guard : Local n → Fin n → AppendEntriesArgs → AppendEntriesReply → Prop}

theorem start (peers : List String) (i : Fin n) : Placed ((Wired.start peers).nodeAt i) where
  place := rfl
  timer h := by cases h
  stopped h := by cases h
  mainSend _ h := by cases h
  submitSend h := by cases h

/-- A step of another goroutine. -/
theorem frame (h : Placed x) (hmain : y.routines.main = x.routines.main) (hloop : y.loop = x.loop)
    (htimer : y.routines.electionTimer = .stopped →
      x.routines.electionTimer = .stopped ∨ y.routines.shutdownCh = true)
    (hshut : x.routines.shutdownCh = true → y.routines.shutdownCh = true)
    (hsubmit : .send [] ∉ y.routines.submits) : Placed y where
  place := by rw [hmain, hloop]; exact h.place
  timer hm ht := by
    rw [hloop]
    rcases htimer ht with ht | hs
    · exact (h.timer (hmain ▸ hm) ht).imp_left hshut
    · exact Or.inl hs
  stopped hs := hshut (h.stopped (hmain ▸ hs))
  mainSend b := by rw [hmain]; exact h.mainSend b
  submitSend := hsubmit

/-- A step that touches nothing of `run`. -/
theorem keep (h : Placed x) (hmain : y.routines.main = x.routines.main) (hloop : y.loop = x.loop)
    (htimer : y.routines.electionTimer = x.routines.electionTimer)
    (hshut : y.routines.shutdownCh = x.routines.shutdownCh)
    (hsubmit : y.routines.submits = x.routines.submits) : Placed y :=
  h.frame hmain hloop (fun ht => Or.inl (htimer ▸ ht)) (fun hs => hshut.trans hs)
    (hsubmit ▸ h.submitSend)

/-- A step of `run` to a place outside `signalAllReplications`. -/
theorem main (h : Placed x) (hplace : y.routines.main.At y.loop)
    (hm : ∀ s b, y.routines.main ≠ .signal s b) (hm' : y.routines.main ≠ .inside)
    (hm'' : y.routines.main ≠ .stopped) (hsubmit : y.routines.submits = x.routines.submits) :
    Placed y where
  place := hplace
  timer h := absurd h hm'
  stopped h := absurd h hm''
  mainSend b := hm _ b
  submitSend := hsubmit ▸ h.submitSend

/-- A step of `run` to the start of `signalAllReplications`. -/
theorem signal (h : Placed x) {b : Bool} (hm : y.routines.main = .signal .check b)
    (hl : y.loop = if b then .leader else .top)
    (hsubmit : y.routines.submits = x.routines.submits) : Placed y where
  place := by rw [hm]; exact hl
  timer h := by rw [hm] at h; cases h
  stopped h := by rw [hm] at h; cases h
  mainSend b h := by rw [hm] at h; cases h
  submitSend := hsubmit ▸ h.submitSend

/-- A step of a call of `signalAllReplications`. -/
theorem continueSignal (h : Placed x) {src : Option Nat} {s : Signal n}
    (hs : x.routines.signalAt src = some s) (peers : List (Fin n)) :
    Placed { x with routines := x.routines.continueSignal src peers } := by
  rcases src with _ | k
  · rw [Routines.signalAt] at hs
    split at hs
    · next t b hm =>
      have hl : x.loop = if b then .leader else .top := by
        have hp := h.place
        rw [hm] at hp
        exact hp
      have hr : x.routines.continueSignal none peers =
          { x.routines with
            main := if peers ≠ [] then .signal (.send peers) b
              else if b then .inside else .top } := by
        rw [Routines.continueSignal]
        split
        · next hm' =>
          rw [hm] at hm'
          rw [(MainLoop.signal.inj hm').2]
        · next hno => exact absurd hm (hno _ _)
      rw [hr]
      by_cases hp : peers = []
      · rw [if_neg (by simp [hp])]
        cases b with
        | true =>
          refine ⟨?_, fun _ _ => Or.inr (Or.inr hl), fun h => ?_, fun _ h => ?_, h.submitSend⟩
          · simp [MainLoop.At, hl]
          · cases h
          · cases h
        | false => exact h.main hl (by simp) (by simp) (by simp) rfl
      · rw [if_pos hp]
        refine ⟨hl, fun h => ?_, fun h => ?_, fun _ h => ?_, h.submitSend⟩
        · cases h
        · cases h
        · exact hp (Signal.send.inj (MainLoop.signal.inj h).1)
    · cases hs
  · refine h.frame rfl rfl (fun ht => Or.inl ht) id ?_
    rw [Routines.continueSignal]
    dsimp only
    split
    · next hp =>
      intro hmem
      rcases List.mem_or_eq_of_mem_set hmem with hmem | heq
      · exact h.submitSend hmem
      · exact hp (Signal.send.inj heq).symm
    · exact fun hmem => h.submitSend (List.mem_of_mem_eraseIdx hmem)

theorem step (h : Placed x) (hstep : Local.Step guard capacity i x y) : Placed y := by
  cases hstep with
  | idle => exact h
  | checkShutdown hm =>
    have hl : x.loop = .top := by have hp := h.place; rwa [hm] at hp
    by_cases hs : x.routines.shutdownCh = true
    · rw [if_pos hs]
      exact ⟨trivial, by simp, fun _ => hs, by simp, h.submitSend⟩
    · rw [if_neg hs]
      exact h.main hl (by simp) (by simp) (by simp) rfl
  | readState =>
    cases x.node.state with
    | follower =>
      exact ⟨by simp [Cluster.loopOf, Routines.enter, MainLoop.At], by
        simp [Cluster.loopOf, Routines.enter], by simp [Cluster.loopOf, Routines.enter], by
        simp [Cluster.loopOf, Routines.enter], h.submitSend⟩
    | candidate =>
      exact ⟨by simp [Cluster.loopOf, Routines.enter, MainLoop.At], fun _ _ => Or.inr (Or.inl rfl),
        by simp [Cluster.loopOf, Routines.enter], by simp [Cluster.loopOf, Routines.enter],
        h.submitSend⟩
    | leader => exact h.signal rfl rfl rfl
  | woken | abandonElection | electionTimeout | stepDown | leaderReturns =>
    exact h.main rfl (by simp [Routines.wake]) (by simp [Routines.wake]) (by simp [Routines.wake])
      rfl
  | takeTimer _ hl => exact h.main hl (by simp) (by simp) (by simp) rfl
  | win => exact h.signal rfl rfl rfl
  | leaderTick _ hl => exact h.signal rfl hl rfl
  | timerFires => exact h.frame rfl rfl (by simp) id h.submitSend
  | startElection hm _ hs =>
    exact ⟨by simp [hm, MainLoop.At], by simp, by simp [hm], by simp [hm], h.submitSend⟩
  | tally hm hl =>
    refine ⟨by simp [hm, MainLoop.At], fun _ ht => ?_, h.stopped, h.mainSend, h.submitSend⟩
    rcases h.timer hm ht with hs | hc | hc
    · exact Or.inl hs
    · rw [hl] at hc
      cases hc
    · rw [hl] at hc
      cases hc
  | stopMain _ hs => exact ⟨trivial, by simp, fun _ => hs, by simp, h.submitSend⟩
  | signalCheck hs => exact h.continueSignal hs _
  | signalSend hs => exact (h.continueSignal hs _).keep rfl rfl rfl rfl rfl
  | submit =>
    refine h.frame rfl rfl (fun ht => Or.inl ht) id fun hmem => ?_
    rcases List.mem_append.mp hmem with hmem | hmem
    · exact h.submitSend hmem
    · cases List.mem_singleton.mp hmem
  | shutdown => exact h.frame rfl rfl (fun _ => Or.inr rfl) (fun _ => rfl) h.submitSend
  | applierCheck | apply | applierWait | applierSend | applierWake | applierStop | receive
  | takeTrigger | callNobody | callFollower | finishAppend | abandonAppend | stopWorker | vote
  | append =>
    exact h.keep rfl rfl rfl rfl rfl

theorem of_reachable {w : Wired n} (h : (wired n capacity).Reachable w) (i : Fin n) :
    Placed (w.nodeAt i) :=
  Wired.reachable_nodeAt (P := fun _ => Placed) (I := fun _ _ => True)
    (fun _ _ _ => trivial) (fun _ _ _ _ _ _ _ => trivial) start
    (fun _ _ _ _ hx (hs : Local.Step (fun _ _ _ _ => True) capacity _ _ _) => hx.step hs) h i

end Placed

/-! ### Signals -/

/-- The turns that `run` of node `i` takes by itself, and the end of its timer. -/
def Turn.OfRun (i : Fin n) : Turn n → Prop
  | .checkShutdown k | .readState k | .timerFires k | .takeTimer k | .electionTimeout k
  | .startElection k | .leaderTick k | .stopMain k => k = i
  | .signalCheck k src | .signalSend k src _ => k = i ∧ src = none
  | _ => False

/-- `signalAllReplications` of `run` has returned, having signalled `peers`. -/
def Routines.signalled (r : Routines n) (byLeader : Bool) (peers : List (Fin n)) : Routines n :=
  { r with
    main := if byLeader then .inside else .top
    replicationTrigger := fun k => peers.any (fun j => decide (k = j)) || r.replicationTrigger k }

namespace Wired

variable {w w' w'' : Wired n} {i : Fin n} {r : Routines n} {P : Turn n → Prop}

@[simp] theorem set_cluster (w : Wired n) (i : Fin n) (r : Routines n) :
    (w.set i r).cluster = w.cluster := rfl

@[simp] theorem set_routines (w : Wired n) (i : Fin n) (r : Routines n) :
    (w.set i r).routines i = r := by simp [set]

theorem set_set (w : Wired n) (i : Fin n) (r r' : Routines n) :
    (w.set i r).set i r' = w.set i r' := by simp [set]

theorem leadsBy_of_step {t : Turn n} (h : w.step capacity t = some w') (ht : P t) :
    (wired n capacity).LeadsBy P w w' :=
  .of_step (a := t) h ht

theorem leadsBy_of_move {t : Turn n} {a : Action n} {c : Cluster n} {f : Cluster n → Routines n}
    (h : w.step capacity t = w.move a i f) (hc : w.cluster.step a = some c) (ht : P t) :
    (wired n capacity).LeadsBy P w
      { cluster := c, routines := Function.update w.routines i (f c) } :=
  leadsBy_of_step (h.trans (by simp [move, hc])) ht

/-- `signalAllReplications` goes through the workers that it has still to signal. -/
theorem leads_sends (b : Bool) (peers : List (Fin n)) (hne : peers ≠ [])
    (hm : (w.routines i).main = .signal (.send peers) b) :
    (wired n capacity).LeadsBy (Turn.OfRun i) w (w.set i ((w.routines i).signalled b peers)) := by
  induction peers generalizing w with
  | nil => exact absurd rfl hne
  | cons j rest ih =>
    have hat : (w.routines i).signalAt none = some (.send (j :: rest)) := by
      simp [Routines.signalAt, hm]
    have hstep : w.step capacity (.signalSend i none j) =
        some (w.set i (((w.routines i).continueSignal none rest).setTrigger j true)) := by
      simp [step, hat]
    have hlead := leadsBy_of_step (P := Turn.OfRun i) hstep ⟨rfl, rfl⟩
    by_cases hrest : rest = []
    · have heq : ((w.routines i).continueSignal none rest).setTrigger j true =
          (w.routines i).signalled b (j :: rest) := by
        simp only [Routines.continueSignal, hm, hrest, Routines.setTrigger, Routines.signalled,
          ne_eq, not_true_eq_false, if_false]
        congr 1
        funext k
        by_cases hk : k = j <;> simp [hk]
      rw [heq] at hlead
      exact hlead
    · have hnext := ih (w := w.set i (((w.routines i).continueSignal none rest).setTrigger j true))
        hrest (by simp [Routines.continueSignal, Routines.setTrigger, hm, hrest])
      have heq : (((w.routines i).continueSignal none rest).setTrigger j true).signalled b rest =
          (w.routines i).signalled b (j :: rest) := by
        simp only [Routines.continueSignal, hm, Routines.setTrigger, Routines.signalled]
        congr 1
        funext k
        by_cases hk : k = j <;> simp [hk]
      rw [set_set, set_routines, heq] at hnext
      exact hlead.trans hnext

/-- Wherever a call of `signalAllReplications` by `run` stands, it returns; one that starts in a
leader signals every worker. -/
theorem leads_signalled {s : Signal n} {b : Bool} (hplaced : Placed (w.nodeAt i))
    (hm : (w.routines i).main = .signal s b) :
    ∃ peers, (wired n capacity).LeadsBy (Turn.OfRun i) w
        (w.set i ((w.routines i).signalled b peers)) ∧
      (s = .check → (w.cluster.node i).state = .leader → ∀ j, j ≠ i → j ∈ peers) := by
  cases s with
  | send peers =>
    have hne : peers ≠ [] := fun h => hplaced.mainSend b (by rw [← h]; exact hm)
    exact ⟨peers, leads_sends b peers hne hm, fun h => by cases h⟩
  | check =>
    generalize hpeers : (if (w.cluster.node i).state = .leader then otherPeers i else []) = peers
    have hstep : w.step capacity (.signalCheck i none) =
        some (w.set i ((w.routines i).continueSignal none peers)) := by
      simp [step, Routines.signalAt, hm, hpeers]
    have hlead := leadsBy_of_step (P := Turn.OfRun i) hstep ⟨rfl, rfl⟩
    refine ⟨peers, ?_, fun _ hst j hj => ?_⟩
    · by_cases hne : peers = []
      · have heq : (w.routines i).continueSignal none peers =
            (w.routines i).signalled b peers := by
          simp [Routines.continueSignal, Routines.signalled, hm, hne]
        rw [heq] at hlead
        exact hlead
      · have hnext : (wired n capacity).LeadsBy _ _ _ := leads_sends (i := i)
          (w := w.set i ((w.routines i).continueSignal none peers)) b peers hne
          (by simp [Routines.continueSignal, hm, hne])
        have heq : ((w.routines i).continueSignal none peers).signalled b peers =
            (w.routines i).signalled b peers := by
          simp [Routines.continueSignal, Routines.signalled, hm]
        rw [set_set, set_routines, heq] at hnext
        exact hlead.trans hnext
    · rw [← hpeers, if_pos hst]
      simp [otherPeers, hj]

/-! ### Heartbeats -/

/-- `run` of node `i` comes through its own turns, which leave the nodes as they are, to a tick of
its heartbeat and from there to a state in which every worker has been signalled. -/
def Beats (capacity : Nat) (i : Fin n) (w : Wired n) : Prop :=
  ∃ w₁ w₂ w', (wired n capacity).LeadsBy (Turn.OfRun i) w w₁ ∧
    w₁.step capacity (.leaderTick i) = some w₂ ∧
    (wired n capacity).LeadsBy (Turn.OfRun i) w₂ w' ∧ w'.cluster.node = w.cluster.node ∧
    ∀ j, j ≠ i → (w'.routines i).replicationTrigger j = true

/-- `run` of node `i` comes through its own turns to the `select` of its state. -/
def Selects (capacity : Nat) (i : Fin n) (w : Wired n) : Prop :=
  ∃ w', (wired n capacity).LeadsBy (Turn.OfRun i) w w' ∧ w'.cluster.node = w.cluster.node ∧
    (w'.routines i).main = .inside

theorem Selects.of_leads (hlead : (wired n capacity).LeadsBy (Turn.OfRun i) w w')
    (hnode : w'.cluster.node = w.cluster.node) (h : Selects capacity i w') :
    Selects capacity i w := by
  obtain ⟨w'', hlead', hnode', hmain⟩ := h
  exact ⟨w'', hlead.trans hlead', hnode'.trans hnode, hmain⟩

/-- `run` reads the state of a leader and signals the workers. -/
theorem selects_read (h : (wired n capacity).Reachable w) (hm : (w.routines i).main = .read)
    (hlead : (w.cluster.node i).state = .leader) : Selects capacity i w := by
  have hl : w.cluster.loop i = .top := by
    have hplace := (Placed.of_reachable h i).place
    simp only [nodeAt, hm] at hplace
    exact hplace
  have hc : w.cluster.step (.readState i) = some (w.cluster.setLoop i .leader) := by
    simp [Cluster.step, hl, hlead, Cluster.loopOf]
  have hleads : (wired n capacity).LeadsBy (Turn.OfRun i) w _ :=
    leadsBy_of_move (t := .readState i) (if_pos hm) hc rfl
  obtain ⟨peers, hsignals, -⟩ := leads_signalled (s := .check) (b := true)
    (Placed.of_reachable (h.leads hleads.leads) i) (by simp [Routines.enter])
  exact ⟨_, hleads.trans hsignals, rfl, by simp [Routines.signalled]⟩

theorem selects_top (h : (wired n capacity).Reachable w)
    (hup : (w.routines i).shutdownCh = false) (hm : (w.routines i).main = .top)
    (hlead : (w.cluster.node i).state = .leader) : Selects capacity i w := by
  have hstep : w.step capacity (.checkShutdown i) =
      some (w.set i { w.routines i with main := .read }) := by
    simp [step, hm, hup]
  have hleads := leadsBy_of_step (P := Turn.OfRun i) hstep rfl
  exact .of_leads hleads rfl (selects_read (h.leads hleads.leads) (by simp) hlead)

/-- Wherever `run` of a leader stands, it comes to the `select` of `runLeader`. -/
theorem selects (h : (wired n capacity).Reachable w) (hup : (w.routines i).shutdownCh = false)
    (hlead : (w.cluster.node i).state = .leader) : Selects capacity i w := by
  have hplaced := Placed.of_reachable h i
  cases hmain : (w.routines i).main with
  | inside => exact ⟨w, .refl w, rfl, hmain⟩
  | read => exact selects_read h hmain hlead
  | top => exact selects_top h hup hmain hlead
  | signal s b =>
    obtain ⟨peers, hleads, -⟩ := leads_signalled hplaced hmain
    cases b with
    | true => exact ⟨_, hleads, rfl, by simp [Routines.signalled]⟩
    | false =>
      exact .of_leads hleads rfl (selects_top (h.leads hleads.leads)
        (by simpa [Routines.signalled] using hup) (by simp [Routines.signalled]) hlead)
  | stopped =>
    have := hplaced.stopped hmain
    simp only [nodeAt, hup] at this
    cases this
  | timedOut =>
    -- a leader is not in `runFollower`
    have hplace := hplaced.place
    simp only [nodeAt, hmain] at hplace
    have hruling := (Cluster.Ruling.of_reachable (reachable_cluster h)).2.node i
    rcases hruling.loop hlead with hl | hl <;>
      rw [show w.cluster.loop i = .follower from hplace] at hl <;> cases hl

/-- A leader gets to its next heartbeat. -/
theorem beats (h : (wired n capacity).Reachable w) (hup : (w.routines i).shutdownCh = false)
    (hlead : (w.cluster.node i).state = .leader) : Beats capacity i w := by
  obtain ⟨w₁, hleads, hnode, hm⟩ := selects h hup hlead
  have hreach := h.leads hleads.leads
  have hlead₁ : (w₁.cluster.node i).state = .leader := by rw [hnode]; exact hlead
  have hl : w₁.cluster.loop i = .leader := by
    have hplace := (Placed.of_reachable hreach i).place
    simp only [nodeAt, hm] at hplace
    exact (((Cluster.Ruling.of_reachable
      (reachable_cluster hreach)).2.node i).loop hlead₁).resolve_left hplace
  have hc : w₁.cluster.step (.leaderTick i) = some w₁.cluster := by
    simp [Cluster.step, hl, hlead₁]
  have htick : w₁.step capacity (.leaderTick i) =
      some (w₁.set i { w₁.routines i with main := .signal .check true }) := by
    simp [step, hm, move, hc, hl, set]
  have hreach₂ := hreach.leads (leadsBy_of_step (P := Turn.OfRun i) htick rfl).leads
  obtain ⟨peers, hsignals, hall⟩ := leads_signalled (Placed.of_reachable hreach₂ i)
    (s := .check) (b := true) (by simp)
  refine ⟨w₁, _, _, hleads, htick, hsignals, hnode, fun j hj => ?_⟩
  simp [Routines.signalled, hall rfl hlead₁ j hj]

/-! ### Elections -/

/-- Only `run` of node `i`, which does not lead, has moved, and the node has kept its log and not
gone back in term. -/
structure Stands (capacity : Nat) (i : Fin n) (w w' : Wired n) : Prop where
  leads : (wired n capacity).LeadsBy (Turn.OfRun i) w w'
  others : ∀ k, k ≠ i → w'.cluster.node k = w.cluster.node k
  log : (w'.cluster.node i).log = (w.cluster.node i).log
  term : (w.cluster.node i).currentTerm ≤ (w'.cluster.node i).currentTerm
  follows : (w'.cluster.node i).state ≠ .leader
  up : (w'.routines i).shutdownCh = false

namespace Stands

theorem trans (h : Stands capacity i w w') (h' : Stands capacity i w' w'') :
    Stands capacity i w w'' where
  leads := h.leads.trans h'.leads
  others k hk := (h'.others k hk).trans (h.others k hk)
  log := h'.log.trans h.log
  term := h.term.trans h'.term
  follows := h'.follows
  up := h'.up

/-- The cluster's nodes stay as they are. -/
theorem of_leads (hleads : (wired n capacity).LeadsBy (Turn.OfRun i) w w')
    (hnode : w'.cluster.node = w.cluster.node) (hstate : (w.cluster.node i).state ≠ .leader)
    (hup : (w'.routines i).shutdownCh = false) : Stands capacity i w w' where
  leads := hleads
  others k _ := by rw [hnode]
  log := by rw [hnode]
  term := by rw [hnode]
  follows := by rwa [hnode]
  up := hup

end Stands

section Turns

variable (hstate : (w.cluster.node i).state ≠ .leader) (hup : (w.routines i).shutdownCh = false)

include hstate hup

/-- Where `run` waits for its timer, the timer ends. -/
theorem stands_fired (hplaced : Placed (w.nodeAt i)) (hm : (w.routines i).main = .inside)
    (hl : w.cluster.loop i ≠ .candidate) (hl' : w.cluster.loop i ≠ .leader) :
    Stands capacity i w (w.set i { w.routines i with electionTimer := .fired }) := by
  refine .of_leads ?_ rfl hstate (by simpa using hup)
  cases ht : (w.routines i).electionTimer with
  | stopped =>
    rcases hplaced.timer hm ht with hs | hc | hc
    · simp only [nodeAt, hup] at hs
      cases hs
    · exact absurd hc hl
    · exact absurd hc hl'
  | running => exact leadsBy_of_step (t := .timerFires i) (by simp [step, ht]) rfl
  | fired =>
    have heq : w.set i { w.routines i with electionTimer := .fired } = w := by
      rw [← ht]
      simp [set]
    rw [heq]
    exact .refl w

omit hstate in
theorem stands_timedOut (capacity : Nat) (hm : (w.routines i).main = .timedOut)
    (hl : w.cluster.loop i = .follower) :
    ∃ w', Stands capacity i w w' ∧ (w'.routines i).main = .top ∧
      (w'.cluster.node i).state = .candidate := by
  have hc : w.cluster.step (.electionTimeout i) =
      some ((w.cluster.setNode i (w.cluster.node i).electionTimeout).setLoop i .top) := by
    simp [Cluster.step, hl]
  have hleads : (wired n capacity).LeadsBy (Turn.OfRun i) w _ :=
    leadsBy_of_move (t := .electionTimeout i) (if_pos hm) hc rfl
  refine ⟨_, ⟨hleads, fun k hk => ?_, ?_, ?_, ?_, ?_⟩, ?_, ?_⟩ <;>
    simp_all [Node.electionTimeout]

/-- `runFollower` becomes a candidate when its timer ends. -/
theorem stands_follower (hplaced : Placed (w.nodeAt i)) (hm : (w.routines i).main = .inside)
    (hl : w.cluster.loop i = .follower) :
    ∃ w', Stands capacity i w w' ∧ (w'.routines i).main = .top ∧
      (w'.cluster.node i).state = .candidate := by
  have h₁ : Stands capacity i w _ :=
    stands_fired hstate hup hplaced hm (by simp [hl]) (by simp [hl])
  let w₁ := w.set i { w.routines i with electionTimer := .fired }
  have h₂ : Stands capacity i w₁ (w₁.set i { w₁.routines i with
      main := .timedOut, electionTimer := .stopped }) := by
    refine .of_leads (leadsBy_of_step (t := .takeTimer i) ?_ rfl) rfl hstate ?_
    · simp [step, w₁, hm, hl]
    · simpa [w₁] using hup
  obtain ⟨w', h', hrest⟩ := stands_timedOut h₂.up capacity (by simp) hl
  exact ⟨w', (h₁.trans h₂).trans h', hrest⟩

/-- `runCandidate` gives up when its timer ends. -/
theorem stands_counting {T v : Int} (hplaced : Placed (w.nodeAt i))
    (hm : (w.routines i).main = .inside) (hl : w.cluster.loop i = .counting T v) :
    ∃ w', Stands capacity i w w' ∧ (w'.routines i).main = .top := by
  have h₁ : Stands capacity i w _ :=
    stands_fired hstate hup hplaced hm (by simp [hl]) (by simp [hl])
  let w₁ := w.set i { w.routines i with electionTimer := .fired }
  have hc : w₁.cluster.step (.abandonElection i) = some (w.cluster.setLoop i .top) := by
    simp [Cluster.step, w₁, hl]
  have hturn : w₁.step capacity (.takeTimer i) = w₁.move (.abandonElection i) i fun _ =>
      { w₁.routines i with main := .top, electionTimer := .stopped } := by
    simp [step, w₁, hm, hl]
  have hleads := leadsBy_of_move (P := Turn.OfRun i) hturn hc rfl
  have h₂ := Stands.of_leads hleads rfl hstate (by simpa [w₁] using hup)
  exact ⟨_, h₁.trans h₂, by simp⟩

theorem stands_leader (hm : (w.routines i).main = .inside) (hl : w.cluster.loop i = .leader) :
    ∃ w', Stands capacity i w w' ∧ (w'.routines i).main = .top := by
  have hc : w.cluster.step (.leaderTick i) = some (w.cluster.setLoop i .top) := by
    simp [Cluster.step, hl, hstate]
  have hleads : (wired n capacity).LeadsBy (Turn.OfRun i) w _ :=
    leadsBy_of_move (t := .leaderTick i) (if_pos hm) hc rfl
  exact ⟨_, .of_leads hleads rfl hstate (by simpa using hup), by simp⟩

/-- `runCandidate` asks for the votes of a new term. -/
theorem stands_candidate (hne : (w.cluster.node i).log ≠ []) (hm : (w.routines i).main = .inside)
    (hl : w.cluster.loop i = .candidate) :
    ∃ w', Stands capacity i w w' ∧ (w'.routines i).main = .inside ∧
      (w'.cluster.node i).state = (w.cluster.node i).state ∧
      Cluster.Asking i ((w.cluster.node i).currentTerm + 1) w'.cluster := by
  obtain ⟨c, hc, hothers, hlog, hst, hask⟩ := Cluster.startElection_asking hl hne
  have hleads : (wired n capacity).LeadsBy (Turn.OfRun i) w _ :=
    leadsBy_of_move (t := .startElection i) (if_pos hm) hc rfl
  refine ⟨_, ⟨hleads, hothers, hlog, ?_, ?_, by simpa using hup⟩, by simpa using hm, hst, hask⟩
  · change _ ≤ (c.node i).currentTerm
    rw [hask.term]
    omega
  · change (c.node i).state ≠ .leader
    rwa [hst]

theorem stands_read (hm : (w.routines i).main = .top) :
    Stands capacity i w (w.set i { w.routines i with main := .read }) :=
  .of_leads (leadsBy_of_step (t := .checkShutdown i) (by simp [step, hm, hup]) rfl) rfl hstate
    (by simpa using hup)

/-- `run` enters the function of the state that it reads. -/
theorem stands_enter (capacity : Nat) (hm : (w.routines i).main = .read)
    (hl : w.cluster.loop i = .top) :
    ∃ w', Stands capacity i w w' ∧ (w'.routines i).main = .inside ∧
      w'.cluster.node = w.cluster.node ∧
      w'.cluster.loop i = Cluster.loopOf (w.cluster.node i).state := by
  have hc : w.cluster.step (.readState i) =
      some (w.cluster.setLoop i (Cluster.loopOf (w.cluster.node i).state)) := by
    simp [Cluster.step, hl]
  have hleads : (wired n capacity).LeadsBy (Turn.OfRun i) w _ :=
    leadsBy_of_move (t := .readState i) (if_pos hm) hc rfl
  cases hst : (w.cluster.node i).state with
  | leader => exact absurd hst hstate
  | follower | candidate =>
    refine ⟨_, .of_leads hleads rfl hstate ?_, ?_, rfl, ?_⟩ <;>
      simp [hst, Cluster.loopOf, Routines.enter, hup]

end Turns

/-- Wherever `run` of a node that does not lead stands, it gets back to the top of its loop. -/
theorem stands_top (hn' : n ≤ 3) (h : (wired n capacity).Reachable w)
    (hup : (w.routines i).shutdownCh = false) (hstate : (w.cluster.node i).state ≠ .leader) :
    ∃ w', Stands capacity i w w' ∧ (w'.routines i).main = .top := by
  have hinside : ∀ w : Wired n, (wired n capacity).Reachable w →
      (w.routines i).shutdownCh = false → (w.cluster.node i).state ≠ .leader →
      (w.routines i).main = .inside →
      ∃ w', Stands capacity i w w' ∧ (w'.routines i).main = .top := by
    intro w h hup hstate hm
    have hplaced := Placed.of_reachable h i
    have hplace : w.cluster.loop i ≠ .top := by
      have hp := hplaced.place
      simp only [nodeAt, hm] at hp
      exact hp
    cases hl : w.cluster.loop i with
    | top => exact absurd hl hplace
    | follower =>
      obtain ⟨w', h', hm', -⟩ := stands_follower hstate hup hplaced hm hl
      exact ⟨w', h', hm'⟩
    | counting => exact stands_counting hstate hup hplaced hm hl
    | leader => exact stands_leader hstate hup hm hl
    | candidate =>
      obtain ⟨w₁, h₁, hm₁, -, hask⟩ := stands_candidate hstate hup
        (Cluster.log_ne_nil hn' (reachable_cluster h) i) hm hl
      obtain ⟨w', h', hm'⟩ := stands_counting h₁.follows h₁.up
        (Placed.of_reachable (h.leads h₁.leads.leads) i) hm₁ hask.loop
      exact ⟨w', h₁.trans h', hm'⟩
  have hplaced := Placed.of_reachable h i
  have hplace := hplaced.place
  simp only [nodeAt] at hplace
  cases hm : (w.routines i).main with
  | top => exact ⟨w, .of_leads (.refl w) rfl hstate hup, hm⟩
  | read =>
    rw [hm] at hplace
    obtain ⟨w₁, h₁, hm₁, -⟩ := stands_enter hstate hup capacity hm hplace
    obtain ⟨w', h', hm'⟩ := hinside w₁ (h.leads h₁.leads.leads) h₁.up h₁.follows hm₁
    exact ⟨w', h₁.trans h', hm'⟩
  | inside => exact hinside w h hup hstate hm
  | timedOut =>
    rw [hm] at hplace
    obtain ⟨w', h', hm', -⟩ := stands_timedOut hup capacity hm hplace
    exact ⟨w', h', hm'⟩
  | signal s b =>
    obtain ⟨peers, hleads, -⟩ := leads_signalled hplaced hm
    have h₁ := Stands.of_leads hleads rfl hstate (by simpa [Routines.signalled] using hup)
    cases b with
    | false => exact ⟨_, h₁, by simp [Routines.signalled]⟩
    | true =>
      obtain ⟨w', h', hm'⟩ := hinside _ (h.leads hleads.leads) h₁.up hstate
        (by simp [Routines.signalled])
      exact ⟨w', h₁.trans h', hm'⟩
  | stopped =>
    have := hplaced.stopped hm
    simp only [nodeAt, hup] at this
    cases this

/-- It stands for election, as a candidate, in a later term. -/
theorem stands_asking (hn' : n ≤ 3) (h : (wired n capacity).Reachable w)
    (hup : (w.routines i).shutdownCh = false) (hstate : (w.cluster.node i).state ≠ .leader) :
    ∃ w' T, Stands capacity i w w' ∧ (w.cluster.node i).currentTerm < T ∧
      (w'.cluster.node i).state = .candidate ∧ Cluster.Asking i T w'.cluster ∧
      (w'.routines i).main = .inside := by
  -- from the top of the loop, a candidate asks at once
  have hcand : ∀ w : Wired n, (wired n capacity).Reachable w →
      (w.routines i).shutdownCh = false → (w.routines i).main = .top →
      (w.cluster.node i).state = .candidate →
      ∃ w' T, Stands capacity i w w' ∧ (w.cluster.node i).currentTerm < T ∧
        (w'.cluster.node i).state = .candidate ∧ Cluster.Asking i T w'.cluster ∧
        (w'.routines i).main = .inside := by
    intro w h hup hm hst
    have hne : (w.cluster.node i).state ≠ .leader := by simp [hst]
    have h₁ : Stands capacity i w _ := stands_read hne hup hm
    have hl : w.cluster.loop i = .top := by
      have hp := (Placed.of_reachable h i).place
      simp only [nodeAt, hm] at hp
      exact hp
    obtain ⟨w₂, h₂, hm₂, hnode₂, hl₂⟩ :=
      stands_enter h₁.follows h₁.up capacity (by simp) hl
    have hst₂ : (w₂.cluster.node i).state = .candidate := by rw [hnode₂]; exact hst
    have h₁₂ := h₁.trans h₂
    obtain ⟨w₃, h₃, hm₃, hst₃, hask⟩ := stands_candidate h₂.follows h₂.up
      (Cluster.log_ne_nil hn' (reachable_cluster (h.leads h₁₂.leads.leads)) i) hm₂
      (hl₂.trans (by rw [set_cluster, hst]; rfl))
    refine ⟨w₃, _, h₁₂.trans h₃, ?_, hst₃.trans hst₂, hask, hm₃⟩
    have := h₁₂.term
    omega
  obtain ⟨w₁, h₁, hm₁⟩ := stands_top hn' h hup hstate
  have hreach₁ := h.leads h₁.leads.leads
  have hterm₁ := h₁.term
  cases hst₁ : (w₁.cluster.node i).state with
  | leader => exact absurd hst₁ h₁.follows
  | candidate =>
    obtain ⟨w', T, h', hT, hrest⟩ := hcand w₁ hreach₁ h₁.up hm₁ hst₁
    exact ⟨w', T, h₁.trans h', by omega, hrest⟩
  | follower =>
    -- a follower waits once more
    have h₂ : Stands capacity i w₁ _ := stands_read h₁.follows h₁.up hm₁
    have hl₁ : w₁.cluster.loop i = .top := by
      have hp := (Placed.of_reachable hreach₁ i).place
      simp only [nodeAt, hm₁] at hp
      exact hp
    obtain ⟨w₃, h₃, hm₃, hnode₃, hl₃⟩ :=
      stands_enter h₂.follows h₂.up capacity (by simp) hl₁
    have hreach₃ := (hreach₁.leads h₂.leads.leads).leads h₃.leads.leads
    obtain ⟨w₄, h₄, hm₄, hst₄⟩ := stands_follower h₃.follows h₃.up
      (Placed.of_reachable hreach₃ i) hm₃ (hl₃.trans (by rw [set_cluster, hst₁]; rfl))
    have h₁₄ := ((h₁.trans h₂).trans h₃).trans h₄
    obtain ⟨w', T, h', hT, hrest⟩ := hcand w₄ (hreach₃.leads h₄.leads.leads) h₄.up hm₄ hst₄
    have := h₁₄.term
    exact ⟨w', T, h₁₄.trans h', by omega, hrest⟩

end Wired

/-- `run` never loses its way. From every state of every run, unless the node has been shut down,
its own turns and the end of its timer bring a leader to the next tick of its heartbeat and from it
to a state with every worker signalled, and any other node to an election in a later term, with
every vote requested. -/
theorem run_comes_round (hn' : n ≤ 3) {w : Wired n} (h : (wired n capacity).Reachable w)
    (i : Fin n) (hup : (w.routines i).shutdownCh = false) :
    ((w.cluster.node i).state = .leader →
      ∃ w₁ w₂ w', (wired n capacity).LeadsBy (Turn.OfRun i) w w₁ ∧
        (wired n capacity).step w₁ (.leaderTick i) = some w₂ ∧
        (wired n capacity).LeadsBy (Turn.OfRun i) w₂ w' ∧ w'.cluster.node = w.cluster.node ∧
        ∀ j, j ≠ i → (w'.routines i).replicationTrigger j = true) ∧
    ((w.cluster.node i).state ≠ .leader →
      ∃ w', (wired n capacity).LeadsBy (Turn.OfRun i) w w' ∧
        (∀ k, k ≠ i → w'.cluster.node k = w.cluster.node k) ∧
        (w.cluster.node i).currentTerm < (w'.cluster.node i).currentTerm ∧
        (w'.cluster.node i).state = .candidate ∧
        ∀ j, j ≠ i → w'.cluster.vote i j = .sent (Cluster.candidacy (w'.cluster.node i))) := by
  refine ⟨fun hlead => Wired.beats h hup hlead, fun hstate => ?_⟩
  obtain ⟨w', T, hstands, hT, hst, hask, -⟩ := Wired.stands_asking hn' h hup hstate
  refine ⟨w', hstands.leads, hstands.others, by rw [hask.term]; exact hT, hst, fun j hj => ?_⟩
  rw [hask.vote]
  simp [Cluster.newVotes, hj]

/-- The workers of the leader 0 have taken their signals, and node 1 is still in its first
`select`. -/
theorem run_comes_round_served :
    ∃ w, (wired 3 1).exec (Wired.start ["a", "b", "c"]) servedTurns = some w ∧
      (w.routines 0).replicationTrigger 1 = false ∧ (w.routines 0).replicationTrigger 2 = false ∧
      (∃ w₁ w₂ w', (wired 3 1).LeadsBy (Turn.OfRun 0) w w₁ ∧
        (wired 3 1).step w₁ (.leaderTick 0) = some w₂ ∧
        (wired 3 1).LeadsBy (Turn.OfRun 0) w₂ w' ∧ w'.cluster.node = w.cluster.node ∧
        ∀ j, j ≠ 0 → (w'.routines 0).replicationTrigger j = true) ∧
      ∃ w', (wired 3 1).LeadsBy (Turn.OfRun 1) w w' ∧
        (∀ k, k ≠ 1 → w'.cluster.node k = w.cluster.node k) ∧
        (w.cluster.node 1).currentTerm < (w'.cluster.node 1).currentTerm ∧
        (w'.cluster.node 1).state = .candidate ∧
        ∀ j, j ≠ 1 → w'.cluster.vote 1 j = .sent (Cluster.candidacy (w'.cluster.node 1)) := by
  have hrun : ((wired 3 1).exec (Wired.start ["a", "b", "c"]) servedTurns).map
      (fun w => decide ((w.cluster.node 0).state = .leader ∧ (w.cluster.node 1).state ≠ .leader ∧
        (w.routines 0).shutdownCh = false ∧ (w.routines 1).shutdownCh = false ∧
        (w.routines 0).replicationTrigger 1 = false ∧
        (w.routines 0).replicationTrigger 2 = false)) = some true := by
    decide +kernel
  simp only [Option.map_eq_some_iff, decide_eq_true_eq] at hrun
  obtain ⟨w, hw, hlead, hfollow, hup₀, hup₁, hidle₁, hidle₂⟩ := hrun
  have hreach : (wired 3 1).Reachable w := ⟨_, _, ⟨["a", "b", "c"], rfl, rfl⟩, hw⟩
  exact ⟨w, hw, hidle₁, hidle₂, (run_comes_round (by decide) hreach 0 hup₀).1 hlead,
    (run_comes_round (by decide) hreach 1 hup₁).2 hfollow⟩

/-! ### The applier -/

/-- The turns of the applier of node `i`, and the server's receives. -/
def Turn.OfApplier (i : Fin n) : Turn n → Prop
  | .applierCheck k | .applierTake k | .applierSend k | .applierWake k | .applierStop k
  | .receive k => k = i
  | _ => False

/-- How far the applier is from its next wait. -/
def Applier.distance : Applier → Nat
  | .send _ => 4
  | .top => 2
  | .take => 1
  | .wait | .stopped => 0

/-- What the applier and the server have still to do with what is on the way. -/
def Routines.backlog (r : Routines n) : Nat :=
  r.applier.distance + (if r.commitNotifyCh then 4 else 0) + r.applyCh.length

theorem Sound.emitted_eq {g : Ghost n} {c : Cluster n} (h : Sound g c) (i : Fin n) :
    c.emitted i = ((c.node i).log.take ((c.node i).lastApplied + 1)).tail.map LogEntry.toMsg := by
  obtain ⟨hlt, hp⟩ := h.commits.commit i
  have happ := h.commits.applied i
  have htake : g.committed.take ((c.node i).lastApplied + 1) =
      (c.node i).log.take ((c.node i).lastApplied + 1) := by
    have hlen : ((c.node i).log.take ((c.node i).commitIndex + 1)).length =
        (c.node i).commitIndex + 1 := by
      rw [List.length_take]
      omega
    rw [take_prefix_eq hp (by omega), List.take_take]
    congr 1
    omega
  rw [h.commits.emitted i, htake]

namespace Wired

variable {w w' : Wired n} {i : Fin n}

/-- What the applier leaves alone. -/
structure Draining (capacity : Nat) (i : Fin n) (w w' : Wired n) : Prop where
  reachable : (wired n capacity).Reachable w'
  up : (w'.routines i).shutdownCh = false
  node : ∃ a, w'.cluster.node i = { w.cluster.node i with lastApplied := a }

/-- What they have to do until everything that is committed has been received. -/
def backlog (i : Fin n) (w : Wired n) : Nat :=
  10 * ((w.cluster.node i).commitIndex - (w.cluster.node i).lastApplied) + (w.routines i).backlog

namespace Draining

/-- A turn that leaves the cluster alone. -/
theorem set {t : Turn n} {r : Routines n} (h : Draining capacity i w w')
    (hstep : w'.step capacity t = some (w'.set i r)) (ht : t.OfApplier i)
    (hup : r.shutdownCh = false) (hlt : r.backlog < (w'.routines i).backlog) :
    ∃ w'', (wired n capacity).LeadsBy (Turn.OfApplier i) w' w'' ∧ Draining capacity i w w'' ∧
      w''.backlog i < w'.backlog i := by
  have hleads := leadsBy_of_step hstep ht
  refine ⟨_, hleads, ⟨h.reachable.leads hleads.leads, by simpa using hup, h.node⟩, ?_⟩
  rw [backlog, set_cluster, set_routines]
  exact Nat.add_lt_add_left hlt _

/-- The applier takes the next entry from the log. -/
theorem apply (hn' : n ≤ 3) (h : Draining capacity i w w')
    (ha : (w'.routines i).applier = .take)
    (hlt : (w'.cluster.node i).lastApplied < (w'.cluster.node i).commitIndex) :
    ∃ w'', (wired n capacity).LeadsBy (Turn.OfApplier i) w' w'' ∧ Draining capacity i w w'' ∧
      w''.backlog i < w'.backlog i := by
  obtain ⟨hreach, hup, a, hnode⟩ := h
  obtain ⟨g, hs⟩ := Sound.of_reachable hn' i (reachable_cluster hreach)
  obtain ⟨⟨nd, msg⟩, hnext⟩ := Option.ne_none_iff_exists'.mp (hs.applyNext_isSome hlt)
  have hc : w'.cluster.step (.apply i) = some { w'.cluster.setNode i nd with
      emitted := Function.update w'.cluster.emitted i (w'.cluster.emitted i ++ [msg]) } := by
    simp [Cluster.step, hnext]
  have hturn : w'.step capacity (.applierTake i) = w'.move (.apply i) i fun _ =>
      { w'.routines i with applier := .send msg } := by
    simp [step, ha, hlt, hnext]
  have hleads := leadsBy_of_move (P := Turn.OfApplier i) hturn hc rfl
  obtain ⟨-, rfl, -⟩ := Node.applyNext_cases hnext
  refine ⟨_, hleads, ⟨hreach.leads hleads.leads, by simpa using hup, a + 1, ?_⟩, ?_⟩
  · simp [hnode]
  · simp only [backlog, Routines.backlog, Cluster.setNode_same, Function.update_self, ha,
      Applier.distance]
    omega

/-- One turn of the applier, or a receive. -/
theorem turn (hn' : n ≤ 3) (hcap : 0 < capacity) (h : Draining capacity i w w')
    (hgo : ¬ ((w'.routines i).applier = .wait ∧ (w'.routines i).commitNotifyCh = false ∧
      (w'.routines i).applyCh = [])) :
    ∃ w'', (wired n capacity).LeadsBy (Turn.OfApplier i) w' w'' ∧ Draining capacity i w w'' ∧
      w''.backlog i < w'.backlog i := by
  have hup := h.up
  cases hch : (w'.routines i).applyCh with
  | cons msg rest =>
    refine h.set (t := .receive i) (r := { w'.routines i with
      applyCh := rest, received := (w'.routines i).received ++ [msg] }) ?_ rfl hup ?_
    · simp [step, hch]
    · simp [Routines.backlog, hch]
  | nil =>
    cases ha : (w'.routines i).applier with
    | top =>
      exact h.set (t := .applierCheck i) (r := { w'.routines i with applier := .take })
        (by simp [step, ha, hup]) rfl hup (by simp [Routines.backlog, ha, Applier.distance])
    | send msg =>
      exact h.set (t := .applierSend i) (r := { w'.routines i with
          applier := .top, applyCh := (w'.routines i).applyCh ++ [msg] })
        (by simp [step, ha, hch, hcap]) rfl hup
        (by simp only [Routines.backlog, ha, hch, Applier.distance, List.nil_append,
              List.length_singleton, List.length_nil]; omega)
    | wait =>
      have hn : (w'.routines i).commitNotifyCh = true := by
        by_contra hno
        exact hgo ⟨ha, Bool.eq_false_iff.mpr hno, hch⟩
      exact h.set (t := .applierWake i)
        (r := { w'.routines i with applier := .top, commitNotifyCh := false })
        (by simp [step, ha, hn]) rfl hup (by simp [Routines.backlog, ha, hn, Applier.distance])
    | stopped =>
      have hs := (Fed.of_reachable h.reachable i).stopped ha
      simp only [nodeAt, hup] at hs
      cases hs
    | take =>
      by_cases hlt : (w'.cluster.node i).lastApplied < (w'.cluster.node i).commitIndex
      · exact h.apply hn' ha hlt
      · exact h.set (t := .applierTake i) (r := { w'.routines i with applier := .wait })
          (by simp [step, ha, hlt]) rfl hup (by simp [Routines.backlog, ha, Applier.distance])

end Draining

/-- The applier and the server get through everything that is committed. -/
theorem leads_drained (hn' : n ≤ 3) (hcap : 0 < capacity) (h : (wired n capacity).Reachable w)
    (hup : (w.routines i).shutdownCh = false) :
    ∃ w', (wired n capacity).LeadsBy (Turn.OfApplier i) w w' ∧ Draining capacity i w w' ∧
      (w'.routines i).applier = .wait ∧ (w'.routines i).commitNotifyCh = false ∧
      (w'.routines i).applyCh = [] :=
  Machine.LeadsBy.iterate (I := Draining capacity i w) (backlog i)
    (fun _ hw hgo => by
      obtain ⟨w'', hleads, hdrain, hlt⟩ := hw.turn hn' hcap hgo
      exact ⟨w'', hleads, hdrain, Or.inr hlt⟩)
    ⟨h, hup, (w.cluster.node i).lastApplied, rfl⟩

end Wired

/-- What a server gets from its node. In every run, what it has received is the beginning of what
the node has committed, and of what any server that has received more has; and unless the node has
been shut down, its applier and further receives bring it everything that is committed. -/
theorem server_receives (hn' : n ≤ 3) (hcap : 0 < capacity) {w : Wired n}
    (h : (wired n capacity).Reachable w) (i : Fin n) :
    (w.routines i).received <+: ((w.cluster.node i).log.take
        ((w.cluster.node i).commitIndex + 1)).tail.map LogEntry.toMsg ∧
    (∀ j, (w.routines i).received <+: (w.routines j).received ∨
      (w.routines j).received <+: (w.routines i).received) ∧
    ((w.routines i).shutdownCh = false →
      ∃ w', (wired n capacity).LeadsBy (Turn.OfApplier i) w w' ∧
        (w'.routines i).received = ((w.cluster.node i).log.take
          ((w.cluster.node i).commitIndex + 1)).tail.map LogEntry.toMsg) := by
  have hreach := Wired.reachable_cluster h
  obtain ⟨g, hs⟩ := Sound.of_reachable hn' i hreach
  -- what a server has received is the beginning of what its node has emitted
  have hpassed : ∀ k, (w.routines k).received <+: w.cluster.emitted k := by
    intro k
    have hp := (Fed.of_reachable h k).passed
    simp only [Wired.nodeAt] at hp
    rw [hp, List.append_assoc]
    exact List.prefix_append _ _
  have hcommitted : ∀ k, w.cluster.emitted k <+: g.committed.tail.map LogEntry.toMsg := by
    intro k
    rw [hs.commits.emitted k, ← List.drop_one, ← List.drop_one]
    exact ((List.take_prefix _ _).drop 1).map _
  refine ⟨(hpassed i).trans ?_, fun j => ?_, fun hup => ?_⟩
  · rw [hs.emitted_eq i, ← List.drop_one, ← List.drop_one]
    refine ((List.take_prefix_take_left ?_).drop 1).map _
    have := hs.commits.applied i
    omega
  · exact List.prefix_or_prefix_of_prefix ((hpassed i).trans (hcommitted i))
      ((hpassed j).trans (hcommitted j))
  · obtain ⟨w', hleads, ⟨hreach', -, a, hnode⟩, hwait, hno, hempty⟩ :=
      Wired.leads_drained hn' hcap h hup
    refine ⟨w', hleads, ?_⟩
    obtain ⟨g', hs'⟩ := Sound.of_reachable hn' i (Wired.reachable_cluster hreach')
    have hfed := Fed.of_reachable hreach' i
    have hp := hfed.passed
    simp only [Wired.nodeAt, hwait, hempty, Applier.held, List.append_nil] at hp
    have hdone := (hfed.awake hwait).resolve_left (by simp [Wired.nodeAt, hno])
    have hall : (w'.cluster.node i).lastApplied = (w'.cluster.node i).commitIndex :=
      le_antisymm (hs'.commits.applied i) (not_lt.mp hdone)
    rw [← hp, hs'.emitted_eq i, hall, hnode]

/-- The leader 0 has committed a command that its applier has not looked at. -/
theorem server_receives_served :
    ∃ w, (wired 3 1).exec (Wired.start ["a", "b", "c"]) servedTurns = some w ∧
      (w.routines 0).received = [] ∧
      ∃ w', (wired 3 1).LeadsBy (Turn.OfApplier 0) w w' ∧
        (w'.routines 0).received = [⟨1, 1, { type := .readBarrier }⟩] := by
  have hrun : ((wired 3 1).exec (Wired.start ["a", "b", "c"]) servedTurns).map
      (fun w => ((w.routines 0).shutdownCh, (w.routines 0).received,
        ((w.cluster.node 0).log.take
          ((w.cluster.node 0).commitIndex + 1)).tail.map LogEntry.toMsg)) =
      some (false, [], [⟨1, 1, { type := .readBarrier }⟩]) := by decide +kernel
  obtain ⟨w, hw, heq⟩ := Option.map_eq_some_iff.mp hrun
  simp only [Prod.mk.injEq] at heq
  obtain ⟨hup, hnone, hlog⟩ := heq
  have hreach : (wired 3 1).Reachable w := ⟨_, _, ⟨["a", "b", "c"], rfl, rfl⟩, hw⟩
  obtain ⟨w', hleads, hall⟩ := (server_receives (by decide) (by decide) hreach 0).2.2 hup
  exact ⟨w, hw, hnone, w', hleads, hall.trans hlog⟩

end KvRaft.Raft
