import Mathlib.Algebra.Order.BigOperators.Group.Finset
import KvRaft.Raft.Liveness

/-! After `Shutdown`. Nothing waits for the goroutines of a node to end, and the applier does not
look at `shutdownCh` while it sends to `applyCh`. What is shown is that every other goroutine can
always get to its end without a message or the server, and with no timer but the 100 ms of a call
that a worker is in, that the applier can unless the channel is full, and that a node whose
goroutines have ended hands out nothing more. -/

namespace KvRaft.Raft

variable {n capacity : Nat}

/-! ### Workers and their calls -/

/-- The workers in a call are those that the cluster has a call of, and node `i` has none for
itself. -/
structure Manned (i : Fin n) (x : Local n) : Prop where
  own : x.routines.worker i = .stopped
  calling : ∀ j, x.routines.worker j = .calling ↔ x.calls j ≠ none

namespace Manned

variable {x y : Local n} {i j : Fin n}
  {guard : Local n → Fin n → AppendEntriesArgs → AppendEntriesReply → Prop}

theorem start (peers : List String) (i : Fin n) : Manned i ((Wired.start peers).nodeAt i) where
  own := if_pos rfl
  calling j := by
    have hne : (Routines.start i).worker j ≠ .calling := by
      simp only [Routines.start]
      split <;> simp
    exact ⟨fun h => absurd h hne, fun h => absurd rfl h⟩

theorem keep (h : Manned i x) (hworker : y.routines.worker = x.routines.worker)
    (hcalls : y.calls = x.calls) : Manned i y := by
  refine ⟨hworker ▸ h.own, fun j => ?_⟩
  rw [hworker, hcalls]
  exact h.calling j

/-- A step of the worker for `j`. -/
theorem assign (h : Manned i x) (hj : x.routines.worker j ≠ .stopped)
    (hworker : ∀ k, k ≠ j → y.routines.worker k = x.routines.worker k)
    (hcalls : ∀ k, k ≠ j → y.calls k = x.calls k)
    (hat : y.routines.worker j = .calling ↔ y.calls j ≠ none) : Manned i y := by
  have hij : i ≠ j := fun heq => hj (heq ▸ h.own)
  refine ⟨(hworker i hij).trans h.own, fun k => ?_⟩
  by_cases hk : k = j
  · rw [hk]
    exact hat
  · rw [hworker k hk, hcalls k hk]
    exact h.calling k

/-- The worker for `j` goes from one place outside its calls to another. -/
theorem outside (h : Manned i x) (hj : x.routines.worker j ≠ .stopped)
    (hj' : x.routines.worker j ≠ .calling) {v : Worker} (hv : v ≠ .calling)
    (hworker : y.routines.worker = Function.update x.routines.worker j v)
    (hcalls : y.calls = x.calls) : Manned i y := by
  refine h.assign hj (fun k hk => by rw [hworker, Function.update_of_ne hk])
    (fun k _ => by rw [hcalls]) ?_
  rw [hworker, Function.update_self, hcalls, ← h.calling j]
  exact ⟨fun heq => absurd heq hv, fun heq => absurd heq hj'⟩

theorem step (h : Manned i x) (hstep : Local.Step guard capacity i x y) : Manned i y := by
  cases hstep with
  | readState => cases x.node.state <;> exact h.keep rfl rfl
  | @signalCheck src _ =>
    obtain ⟨m, s, hr⟩ := x.routines.continueSignal_eq src
      (if x.node.state = .leader then otherPeers i else [])
    rw [hr]
    exact h.keep rfl rfl
  | @signalSend src peers j _ =>
    obtain ⟨m, s, hr⟩ := x.routines.continueSignal_eq src (peers.erase j)
    rw [hr]
    exact h.keep rfl rfl
  | takeTrigger hw | callNobody hw | stopWorker hw =>
    exact h.outside (by simp [hw]) (by simp [hw]) (by simp) rfl rfl
  | callFollower hw =>
    refine h.assign (by simp [hw]) (fun k hk => Function.update_of_ne hk _ _)
      (fun k hk => Function.update_of_ne hk _ _) ?_
    simp [Routines.setWorker]
  | @finishAppend j args reply hw =>
    refine h.assign (by simp [hw]) (fun k hk => Function.update_of_ne hk _ _)
      (fun k hk => Function.update_of_ne hk _ _) ?_
    cases (x.node.replicateReply j args reply).2 <;> simp [Routines.replied, Routines.setWorker]
  | abandonAppend hw =>
    refine h.assign (by simp [hw]) (fun k hk => Function.update_of_ne hk _ _)
      (fun k hk => Function.update_of_ne hk _ _) ?_
    simp [Routines.setWorker]
  | _ => exact h.keep rfl rfl

theorem of_reachable {w : Wired n} (h : (wired n capacity).Reachable w) (i : Fin n) :
    Manned i (w.nodeAt i) :=
  Wired.reachable_nodeAt (P := Manned) (I := fun _ _ => True)
    (fun _ _ _ => trivial) (fun _ _ _ _ _ _ _ => trivial) start
    (fun _ _ _ _ hx (hs : Local.Step (fun _ _ _ _ => True) capacity _ _ _) => hx.step hs) h i

end Manned

/-! ### What the goroutines have left to do -/

/-- The turns by which the goroutines of node `i` get to their ends. A worker leaves a call that is
under way by `abandonAppend`: after 100 ms, or when the message fails. -/
def Turn.Ends (i : Fin n) : Turn n → Prop
  | .checkShutdown k | .readState k | .electionTimeout k | .startElection k | .stopMain k
  | .signalCheck k _ | .signalSend k _ _ | .applierCheck k | .applierTake k | .applierSend k
  | .applierStop k | .callFollower k _ | .abandonAppend k _ | .stopWorker k _ => k = i
  | _ => False

def Signal.left : Signal n → Nat
  | .check => n + 1
  | .send peers => peers.length

/-- `runCandidate` does not look at `shutdownCh` before it has asked for the votes. -/
def MainLoop.left (l : Loop) : MainLoop n → Nat
  | .stopped => 0
  | .top => 1
  | .inside => if l = .candidate then 2 else 1
  | .timedOut => 2
  | .signal s _ => 2 + s.left
  | .read => n + 4

/-- Where `signalAllReplications` returns to. -/
theorem MainLoop.left_return (b : Bool) (l : Loop) :
    (if b then MainLoop.inside else .top : MainLoop n).left l ≤ 2 := by
  cases b with
  | false => exact Nat.le_succ 1
  | true =>
    simp only [if_true, MainLoop.left]
    split <;> omega

def Worker.left : Worker → Nat
  | .stopped => 0
  | .wait _ => 1
  | .calling => 2
  | .call => 3

def Applier.left : Applier → Nat
  | .stopped => 0
  | .wait | .top => 1
  | .send _ => 2
  | .take => 3

namespace Routines

/-- An upper bound of the turns that are left. -/
def left (r : Routines n) (l : Loop) : Nat :=
  r.main.left l + (r.submits.map Signal.left).sum + ∑ j, (r.worker j).left + r.applier.left

/-- The goroutines have ended, except for an applier that holds a message for a full channel. -/
structure Ended (capacity : Nat) (r : Routines n) : Prop where
  main : r.main = .stopped
  submits : r.submits = []
  worker : ∀ j, r.worker j = .stopped
  applier : r.applier = .stopped ∨ (∃ msg, r.applier = .send msg) ∧ capacity ≤ r.applyCh.length

variable {r : Routines n} {l : Loop} {src : Option Nat} {s : Signal n} {peers : List (Fin n)}

/-- One of the calls that are in `signalAllReplications` gets on. -/
theorem sum_left_set {ss : List (Signal n)} {k : Nat} (new : List (Signal n))
    (hs : ss[k]? = some s) (hnew : (new.map Signal.left).sum < s.left) :
    ((ss.take k ++ new ++ ss.drop (k + 1)).map Signal.left).sum < (ss.map Signal.left).sum := by
  obtain ⟨hlt, rfl⟩ := List.getElem?_eq_some_iff.mp hs
  have hsplit : ss = ss.take k ++ ss[k] :: ss.drop (k + 1) := by
    rw [List.getElem_cons_drop, List.take_append_drop]
  conv_rhs => rw [hsplit]
  simp only [List.map_append, List.sum_append, List.map_cons, List.sum_cons]
  omega

theorem left_continueSignal (h : r.signalAt src = some s) (hp : peers.length < s.left) :
    (r.continueSignal src peers).left l < r.left l := by
  rcases src with _ | k
  · rw [signalAt] at h
    split at h
    · next t b hm =>
      obtain rfl := Option.some.inj h
      have hmain : (r.continueSignal none peers).main.left l < r.main.left l := by
        by_cases hne : peers = []
        · have hnew : (r.continueSignal none peers).main = if b then .inside else .top := by
            simp [continueSignal, hm, hne]
          rw [hnew, hm]
          exact (MainLoop.left_return b l).trans_lt (Nat.lt_add_of_pos_right (by omega))
        · have hnew : (r.continueSignal none peers).main = .signal (.send peers) b := by
            simp [continueSignal, hm, hne]
          rw [hnew, hm]
          exact Nat.add_lt_add_left hp 2
      have hrest : (r.continueSignal none peers).left l =
          (r.continueSignal none peers).main.left l + (r.submits.map Signal.left).sum +
            ∑ j, (r.worker j).left + r.applier.left := by
        simp only [left, continueSignal, hm]
      rw [hrest, left]
      omega
    · cases h
  · rw [signalAt] at h
    obtain ⟨hlt, -⟩ := List.getElem?_eq_some_iff.mp h
    have hsum : ((r.continueSignal (some k) peers).submits.map Signal.left).sum <
        (r.submits.map Signal.left).sum := by
      simp only [continueSignal]
      by_cases hne : peers = []
      · rw [if_neg (by simp [hne]), List.eraseIdx_eq_take_drop_succ]
        simpa using sum_left_set [] h (by simpa [hne] using hp)
      · rw [if_pos hne, List.set_eq_take_append_cons_drop, if_pos hlt]
        simpa using sum_left_set [.send peers] h (by simpa [Signal.left] using hp)
    simp only [left, continueSignal] at hsum ⊢
    omega

/-- `run` enters the function of a state. -/
theorem left_enter (hm : r.main = .read) (l l' : Loop) : (r.enter l).left l < r.left l' := by
  have hmain : (r.enter l).main.left l ≤ n + 3 := by
    cases l with
    | leader => exact (Nat.add_comm 2 (n + 1)).le
    | candidate => exact Nat.le_add_left 2 (n + 1)
    | top | follower | counting => exact Nat.le_add_left 1 (n + 2)
  have hrest : (r.enter l).left l = (r.enter l).main.left l + (r.submits.map Signal.left).sum +
      ∑ j, (r.worker j).left + r.applier.left := by
    cases l <;> rfl
  rw [hrest, left, hm, MainLoop.left]
  omega

theorem left_setWorker {j : Fin n} {v : Worker} (h : v.left < (r.worker j).left) :
    (r.setWorker j v).left l < r.left l := by
  have hsum : ∑ k, ((r.setWorker j v).worker k).left < ∑ k, (r.worker k).left := by
    refine Finset.sum_lt_sum (fun k _ => ?_) ⟨j, Finset.mem_univ j, by simpa [setWorker] using h⟩
    by_cases hk : k = j
    · rw [hk]
      simpa [setWorker] using h.le
    · simp [setWorker, hk]
  simp only [left, setWorker] at hsum ⊢
  omega

end Routines

namespace Wired

variable {w : Wired n} {i : Fin n}

/-- What holds of a node that has been shut down. -/
structure Down (capacity : Nat) (i : Fin n) (w : Wired n) : Prop where
  reachable : (wired n capacity).Reachable w
  shut : (w.routines i).shutdownCh = true

/-- A turn or two of node `i` leave it less to do. -/
def Lowers (capacity : Nat) (i : Fin n) (w : Wired n) : Prop :=
  ∃ w', (wired n capacity).LeadsBy (Turn.Ends i) w w' ∧ Down capacity i w' ∧
    (w'.routines i).left (w'.cluster.loop i) < (w.routines i).left (w.cluster.loop i)

namespace Down

theorem set {t : Turn n} {r : Routines n} (h : Down capacity i w)
    (hstep : w.step capacity t = some (w.set i r)) (ht : t.Ends i) (hshut : r.shutdownCh = true)
    (hlt : r.left (w.cluster.loop i) < (w.routines i).left (w.cluster.loop i)) :
    Lowers capacity i w := by
  have hleads := leadsBy_of_step hstep ht
  refine ⟨_, hleads, ⟨h.reachable.leads hleads.leads, by simpa using hshut⟩, ?_⟩
  simpa using hlt

theorem move {t : Turn n} {a : Action n} {c : Cluster n} {f : Cluster n → Routines n}
    (h : Down capacity i w) (hstep : w.step capacity t = w.move a i f)
    (hc : w.cluster.step a = some c) (ht : t.Ends i) (hshut : (f c).shutdownCh = true)
    (hlt : (f c).left (c.loop i) < (w.routines i).left (w.cluster.loop i)) :
    Lowers capacity i w := by
  have hleads := leadsBy_of_move (P := Turn.Ends i) hstep hc ht
  refine ⟨_, hleads, ⟨h.reachable.leads hleads.leads, by simpa using hshut⟩, ?_⟩
  simpa using hlt

theorem signal {s : Signal n} (h : Down capacity i w) (src : Option Nat)
    (hs : (w.routines i).signalAt src = some s) (hne : s ≠ .send []) : Lowers capacity i w := by
  have hshut : ∀ peers, ((w.routines i).continueSignal src peers).shutdownCh = true := by
    intro peers
    obtain ⟨m, ss, hr⟩ := (w.routines i).continueSignal_eq src peers
    rw [hr]
    exact h.shut
  cases s with
  | check =>
    refine h.set (t := .signalCheck i src) (if_pos hs) rfl (hshut _)
      (Routines.left_continueSignal hs ?_)
    split
    · exact Nat.lt_succ_of_le ((List.length_filter_le _ _).trans (by simp))
    · exact Nat.succ_pos n
  | send peers =>
    obtain ⟨j, rest, rfl⟩ := List.exists_cons_of_ne_nil fun heq => hne (heq ▸ rfl)
    refine h.set (t := .signalSend i src j)
      (r := ((w.routines i).continueSignal src rest).setTrigger j true) ?_ rfl (hshut _) ?_
    · simp [step, hs]
    · exact Routines.left_continueSignal hs (Nat.lt_succ_self _)

theorem main (hn' : n ≤ 3) (h : Down capacity i w) (hne : (w.routines i).main ≠ .stopped) :
    Lowers capacity i w := by
  have hplaced := Placed.of_reachable h.reachable i
  have hplace := hplaced.place
  have hshut := h.shut
  simp only [nodeAt] at hplace
  cases hm : (w.routines i).main with
  | stopped => exact absurd hm hne
  | signal s b =>
    refine h.signal (s := s) none (by simp [Routines.signalAt, hm]) fun heq => ?_
    exact hplaced.mainSend b (by rw [← heq]; exact hm)
  | top =>
    refine h.set (t := .checkShutdown i) (r := { w.routines i with main := .stopped })
      (by simp [step, hm, hshut]) rfl hshut ?_
    simp [Routines.left, hm, MainLoop.left]
  | timedOut =>
    rw [hm] at hplace
    have hl : w.cluster.loop i = .follower := hplace
    have hc : w.cluster.step (.electionTimeout i) =
        some ((w.cluster.setNode i (w.cluster.node i).electionTimeout).setLoop i .top) := by
      simp [Cluster.step, hl]
    refine h.move (t := .electionTimeout i) (if_pos hm) hc rfl hshut ?_
    simp [Routines.left, hm, MainLoop.left]
  | read =>
    rw [hm] at hplace
    have hl : w.cluster.loop i = .top := hplace
    have hc : w.cluster.step (.readState i) =
        some (w.cluster.setLoop i (Cluster.loopOf (w.cluster.node i).state)) := by
      simp [Cluster.step, hl]
    refine h.move (t := .readState i) (if_pos hm) hc rfl ?_ ?_
    · cases hst : (w.cluster.node i).state <;> simp [Cluster.loopOf, Routines.enter, hshut]
    · simp only [Cluster.setLoop_same]
      exact Routines.left_enter hm _ _
  | inside =>
    by_cases hl : w.cluster.loop i = .candidate
    · obtain ⟨c, hc, -, -, -, hask⟩ := Cluster.startElection_asking hl
        (Cluster.log_ne_nil hn' (reachable_cluster h.reachable) i)
      refine h.move (t := .startElection i) (if_pos hm) hc rfl hshut ?_
      simp [Routines.left, hm, MainLoop.left, hask.loop, hl]
    · refine h.set (t := .stopMain i) (r := { w.routines i with main := .stopped })
        (by simp [step, hm, hshut, hl]) rfl hshut ?_
      simp [Routines.left, hm, MainLoop.left, hl]

theorem submits (h : Down capacity i w) (hne : (w.routines i).submits ≠ []) :
    Lowers capacity i w := by
  obtain ⟨s, rest, hs⟩ := List.exists_cons_of_ne_nil hne
  refine h.signal (s := s) (some 0) (by simp [Routines.signalAt, hs]) fun heq => ?_
  have hnot := (Placed.of_reachable h.reachable i).submitSend
  simp only [nodeAt] at hnot
  exact hnot (by rw [hs, heq]; exact List.mem_cons_self)

/-- A call that is under way is given up, as after its time. -/
theorem worker (h : Down capacity i w) {j : Fin n} (hne : (w.routines i).worker j ≠ .stopped) :
    Lowers capacity i w := by
  have hmanned := Manned.of_reachable h.reachable i
  have hij : i ≠ j := fun heq => hne (heq ▸ hmanned.own)
  have hcall := hmanned.calling j
  simp only [nodeAt] at hcall
  cases hw : (w.routines i).worker j with
  | stopped => exact absurd hw hne
  | wait lost =>
    exact h.set (t := .stopWorker i j) (r := (w.routines i).setWorker j .stopped)
      (by simp [step, hw, h.shut]) rfl h.shut
      (Routines.left_setWorker (by simp [hw, Worker.left]))
  | call =>
    cases ha : (w.cluster.node i).replicateArgs j with
    | none =>
      exact h.set (t := .callFollower i j) (r := (w.routines i).setWorker j (.wait false))
        (by simp [step, hw, ha]) rfl h.shut (Routines.left_setWorker (by simp [hw, Worker.left]))
    | some args =>
      have hidle : w.cluster.append i j = .idle := by
        have hnone : w.cluster.calls i j = none := by
          by_contra hsome
          rw [hcall.mpr hsome] at hw
          cases hw
        cases happ : w.cluster.append i j with
        | idle => rfl
        | sent | answered => simp [Cluster.calls, happ, AppendCall.request] at hnone
      have hc : w.cluster.step (.replicate i j) =
          some (w.cluster.setAppend i j (.sent args)) := by
        simp [Cluster.step, hij, hidle, ha]
      exact h.move (t := .callFollower i j) (f := fun _ => (w.routines i).setWorker j .calling)
        (by simp [step, hw, ha]) hc rfl h.shut (Routines.left_setWorker (by simp [hw, Worker.left]))
  | calling =>
    have hc : ∃ late, w.cluster.step (.abandonAppend i j) =
        some { w.cluster.setAppend i j .idle with lateAppends := late } := by
      have hsome := hcall.mp hw
      cases happ : w.cluster.append i j with
      | idle => simp [Cluster.calls, happ, AppendCall.request] at hsome
      | sent args => exact ⟨w.cluster.lateAppends ++ [(j, args)], by simp only [Cluster.step, happ]⟩
      | answered args reply => exact ⟨w.cluster.lateAppends, by simp only [Cluster.step, happ]; rfl⟩
    obtain ⟨late, hc⟩ := hc
    exact h.move (t := .abandonAppend i j) (if_pos hw) hc rfl h.shut
      (Routines.left_setWorker (by simp [hw, Worker.left]))

theorem applier (hn' : n ≤ 3) (h : Down capacity i w) (hne : (w.routines i).applier ≠ .stopped)
    (hroom : ∀ msg, (w.routines i).applier = .send msg →
      (w.routines i).applyCh.length < capacity) : Lowers capacity i w := by
  cases ha : (w.routines i).applier with
  | stopped => exact absurd ha hne
  | top =>
    exact h.set (t := .applierCheck i) (r := { w.routines i with applier := .stopped })
      (by simp [step, ha, h.shut]) rfl h.shut (by simp [Routines.left, ha, Applier.left])
  | wait =>
    exact h.set (t := .applierStop i) (r := { w.routines i with applier := .stopped })
      (by simp [step, ha, h.shut]) rfl h.shut (by simp [Routines.left, ha, Applier.left])
  | send msg =>
    exact h.set (t := .applierSend i) (r := { w.routines i with
        applier := .top, applyCh := (w.routines i).applyCh ++ [msg] })
      (by simp [step, ha, hroom msg ha]) rfl h.shut (by simp [Routines.left, ha, Applier.left])
  | take =>
    by_cases hlt : (w.cluster.node i).lastApplied < (w.cluster.node i).commitIndex
    · obtain ⟨g, hs⟩ := Sound.of_reachable hn' i (reachable_cluster h.reachable)
      obtain ⟨⟨nd, msg⟩, hnext⟩ := Option.ne_none_iff_exists'.mp (hs.applyNext_isSome hlt)
      have hc : w.cluster.step (.apply i) = some { w.cluster.setNode i nd with
          emitted := Function.update w.cluster.emitted i (w.cluster.emitted i ++ [msg]) } := by
        simp [Cluster.step, hnext]
      refine h.move (t := .applierTake i) (f := fun _ => { w.routines i with applier := .send msg })
        (by simp [step, ha, hlt, hnext]) hc rfl h.shut ?_
      simp [Routines.left, ha, Applier.left]
    · exact h.set (t := .applierTake i) (r := { w.routines i with applier := .wait })
        (by simp [step, ha, hlt]) rfl h.shut (by simp [Routines.left, ha, Applier.left])

theorem ends (hn' : n ≤ 3) (h : Down capacity i w) :
    ∃ w', (wired n capacity).LeadsBy (Turn.Ends i) w w' ∧ Down capacity i w' ∧
      (w'.routines i).Ended capacity := by
  refine Machine.LeadsBy.iterate (fun w => (w.routines i).left (w.cluster.loop i))
    (fun w hw hnot => ?_) h
  suffices hlowers : Lowers capacity i w by
    obtain ⟨w', hleads, hdown, hlt⟩ := hlowers
    exact ⟨w', hleads, hdown, Or.inr hlt⟩
  by_cases hmain : (w.routines i).main = .stopped
  · by_cases hsubmits : (w.routines i).submits = []
    · by_cases hworker : ∀ j, (w.routines i).worker j = .stopped
      · have happlier : ¬ ((w.routines i).applier = .stopped ∨
            (∃ msg, (w.routines i).applier = .send msg) ∧
              capacity ≤ (w.routines i).applyCh.length) :=
          fun ha => hnot ⟨hmain, hsubmits, hworker, ha⟩
        obtain ⟨hne, hfull⟩ := not_or.mp happlier
        exact hw.applier hn' hne fun msg hmsg => not_le.mp fun hle => hfull ⟨⟨msg, hmsg⟩, hle⟩
      · obtain ⟨j, hj⟩ := not_forall.mp hworker
        exact hw.worker hj
    · exact hw.submits hsubmits
  · exact hw.main hn' hmain

end Down

end Wired

/-! ### What does not happen any more -/

/-- No goroutine of the node will come to the log again; `taken` is what has been taken from it. -/
structure Still (taken : List ApplyMsg) (x : Local n) : Prop where
  shut : x.routines.shutdownCh = true
  main : x.routines.main = .stopped
  worker : ∀ j, x.routines.worker j = .stopped
  applier : x.routines.applier ≠ .take ∧ x.routines.applier ≠ .wait
  emitted : x.emitted = taken

namespace Still

variable {x y : Local n} {i : Fin n} {taken : List ApplyMsg}
  {guard : Local n → Fin n → AppendEntriesArgs → AppendEntriesReply → Prop}

theorem keep (h : Still taken x) (hshut : y.routines.shutdownCh = x.routines.shutdownCh)
    (hmain : y.routines.main = x.routines.main) (hworker : y.routines.worker = x.routines.worker)
    (happlier : y.routines.applier = x.routines.applier) (hemitted : y.emitted = x.emitted) :
    Still taken y := by
  refine ⟨hshut.trans h.shut, hmain.trans h.main, ?_, ?_, hemitted.trans h.emitted⟩
  · rw [hworker]
    exact h.worker
  · rw [happlier]
    exact h.applier

/-- A call of `Submit` may still go through `signalAllReplications`. -/
theorem signal (h : Still taken x) {src : Option Nat} {s : Signal n}
    (hs : x.routines.signalAt src = some s) (peers : List (Fin n)) :
    Still taken { x with routines := x.routines.continueSignal src peers } := by
  rcases src with _ | k
  · simp [Routines.signalAt, h.main] at hs
  · exact h.keep rfl rfl rfl rfl rfl

theorem step (h : Still taken x) (hstep : Local.Step guard capacity i x y) : Still taken y := by
  have hmain := h.main
  have hworker := h.worker
  cases hstep with
  | idle => exact h
  | checkShutdown hm | readState hm | woken hm | takeTimer hm | abandonElection hm
  | electionTimeout hm | startElection hm | stepDown hm | win hm | tally hm | leaderTick hm
  | leaderReturns hm | stopMain hm =>
    rw [hmain] at hm
    cases hm
  | takeTrigger hw | callNobody hw | callFollower hw | finishAppend hw | abandonAppend hw
  | stopWorker hw =>
    rw [hworker] at hw
    cases hw
  | signalCheck hs => exact h.signal hs _
  | signalSend hs => exact (h.signal hs _).keep rfl rfl rfl rfl rfl
  | apply ha | applierWait ha => exact absurd ha h.applier.1
  | applierWake ha | applierStop ha => exact absurd ha h.applier.2
  | applierCheck =>
    refine ⟨h.shut, hmain, hworker, ?_, h.emitted⟩
    simp [h.shut]
  | applierSend => exact ⟨h.shut, hmain, hworker, by simp, h.emitted⟩
  | shutdown => exact ⟨rfl, hmain, hworker, h.applier, h.emitted⟩
  | timerFires | receive | vote | append | submit => exact h.keep rfl rfl rfl rfl rfl

theorem leads {w w' : Wired n} (h : Still taken (w.nodeAt i))
    (hl : (wired n capacity).Leads w w') : Still taken (w'.nodeAt i) := by
  refine hl.invariant (P := fun w => Still taken (w.nodeAt i)) (fun s t s' hs hstep => ?_) h
  have hturns : Wired.Turns (fun _ _ _ _ => True) capacity s s' :=
    Wired.turns_of_step hstep fun _ _ _ _ _ => trivial
  obtain ⟨p, hlocal, hothers⟩ := hturns.node
  by_cases hp : i = p
  · subst hp
    exact hs.step hlocal
  · rw [hothers i hp]
    exact hs

end Still

/-- `Shutdown` ends a node. From every state after it of every run of up to three nodes, the
goroutines of the node can get to their ends by their own turns, with a worker's call given up after
its time, except for an applier that holds a message for a full channel. Once they have, `run` and
the workers stay stopped whatever happens, and nothing more is taken from the log for the server.
-/
theorem shutdown_ends (hn' : n ≤ 3) {w : Wired n} (h : (wired n capacity).Reachable w) (i : Fin n)
    (hshut : (w.routines i).shutdownCh = true) :
    ∃ w', (wired n capacity).LeadsBy (Turn.Ends i) w w' ∧ (w'.routines i).Ended capacity ∧
      ∀ w'', (wired n capacity).Leads w' w'' → (w''.routines i).main = .stopped ∧
        (∀ j, (w''.routines i).worker j = .stopped) ∧
        w''.cluster.emitted i = w'.cluster.emitted i := by
  obtain ⟨w', hleads, hdown, hended⟩ := Wired.Down.ends hn' ⟨h, hshut⟩
  refine ⟨w', hleads, hended, fun w'' hl => ?_⟩
  have happlier : (w'.routines i).applier ≠ .take ∧ (w'.routines i).applier ≠ .wait := by
    rcases hended.applier with ha | ⟨⟨msg, ha⟩, -⟩ <;> rw [ha] <;> simp
  have hstill : Still (w'.cluster.emitted i) (w'.nodeAt i) :=
    ⟨hdown.shut, hended.main, hended.worker, happlier, rfl⟩
  have hlater := hstill.leads hl
  exact ⟨hlater.main, hlater.worker, hlater.emitted⟩

/-- Two commands are committed, the first fills the channel and the applier holds the second when
the node is shut down, with a call of `Submit` that has still a worker to signal. -/
def stuckTurns : List (Turn 3) :=
  servedTurns ++
    [.applierCheck 0, .applierTake 0, .applierSend 0, .submit 0 { type := .readBarrier },
      .signalCheck 0 (some 0), .signalSend 0 (some 0) 1, .takeTrigger 0 1, .callFollower 0 1,
      .deliverAppend 0 1, .finishAppend 0 1, .applierCheck 0, .applierTake 0, .shutdown 0]

theorem shutdown_ends_stuck :
    ∃ w, (wired 3 1).exec (Wired.start ["a", "b", "c"]) stuckTurns = some w ∧
      (w.routines 0).applier = .send ⟨2, 1, { type := .readBarrier }⟩ ∧
      (w.routines 0).applyCh = [⟨1, 1, { type := .readBarrier }⟩] ∧
      ∃ w', (wired 3 1).LeadsBy (Turn.Ends 0) w w' ∧ (w'.routines 0).Ended 1 ∧
        ∀ w'', (wired 3 1).Leads w' w'' → (w''.routines 0).main = .stopped ∧
          (∀ j, (w''.routines 0).worker j = .stopped) ∧
          w''.cluster.emitted 0 = w'.cluster.emitted 0 := by
  have hrun : ((wired 3 1).exec (Wired.start ["a", "b", "c"]) stuckTurns).map
      (fun w => ((w.routines 0).shutdownCh, (w.routines 0).applier, (w.routines 0).applyCh)) =
      some (true, .send ⟨2, 1, { type := .readBarrier }⟩,
        [⟨1, 1, { type := .readBarrier }⟩]) := by decide +kernel
  obtain ⟨w, hw, heq⟩ := Option.map_eq_some_iff.mp hrun
  simp only [Prod.mk.injEq] at heq
  obtain ⟨hshut, happlier, hch⟩ := heq
  have hreach : (wired 3 1).Reachable w := ⟨_, _, ⟨["a", "b", "c"], rfl, rfl⟩, hw⟩
  exact ⟨w, hw, happlier, hch, shutdown_ends (by decide) hreach 0 hshut⟩

end KvRaft.Raft
