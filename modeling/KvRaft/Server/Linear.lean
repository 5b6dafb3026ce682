import KvRaft.Server.Replicas

/-! The calls of clients are linearizable. A call that succeeds is given the log index of its entry;
the indices follow the order of calls that do not overlap, and a `Get` returns what the map of a
committed prefix holds that reaches its index. -/

namespace KvRaft.Server

open Raft Store

variable {n : Nat} {carries : AppendEntriesArgs → Prop} {s s' : System n}

/-- A `Put` or `Delete` returned nil, a `Get` returned a value or `ErrKeyNotFound`. -/
def ClientCall.succeeded (call : ClientCall n) : Bool :=
  match call.request, call.progress with
  | .put _ _, .returned .nil => true
  | .delete _, .returned .nil => true
  | .get _, .returned (.value _) => true
  | .get _, .returned (.failed (.store .keyNotFound)) => true
  | _, _ => false

/-- The log index of the entry of a call that succeeded. -/
def ClientCall.index (call : ClientCall n) : Option Int :=
  if call.succeeded then call.waitKey.map PendingKey.index else none

/-- The call returns with success in the step from `s` to `s'`. -/
def System.Returns (s s' : System n) (id : Nat) (call : ClientCall n) : Prop :=
  s'.calls id = some call ∧ call.succeeded = true ∧
    ∀ old, s.calls id = some old → old.succeeded = false

theorem ClientCall.index_eq_some {call : ClientCall n} {x : Int} (h : call.index = some x) :
    call.succeeded = true ∧ ∃ key, call.waitKey = some key ∧ key.index = x := by
  simpa [ClientCall.index, Option.map_eq_some_iff] using h

namespace System

/-- A call in the state after `setCall`. -/
theorem setCall_cases {id id' : Nat} {call call' : ClientCall n}
    (h : (s.setCall id call).calls id' = some call') :
    id' = id ∧ call' = call ∨ s.calls id' = some call' := by
  by_cases hid : id' = id
  · subst hid
    simp only [setCall, Function.update_self, Option.some.injEq] at h
    exact Or.inl ⟨rfl, h.symm⟩
  · simp only [setCall, Function.update_of_ne hid] at h
    exact Or.inr h

/-- The key of a call comes from the `Submit` of a leader, and stays. -/
theorem Step.waitKey (h : Step carries s s') {id : Nat} {call : ClientCall n} {key : PendingKey}
    (hc : s'.calls id = some call) (hk : call.waitKey = some key) :
    (∃ old, s.calls id = some old ∧ old.waitKey = some key) ∨
      ∃ i, (s.cluster.node i).state = .leader ∧ key.index = (s.cluster.node i).log.length := by
  have hsame : ∀ {s₁ : System n} {id₀ : Nat} {call₀ new : ClientCall n},
      (s₁.setCall id₀ new).calls id = some call → s₁.calls = s.calls →
      s.calls id₀ = some call₀ → new.waitKey = call₀.waitKey →
      ∃ old, s.calls id = some old ∧ old.waitKey = some key := by
    intro s₁ id₀ call₀ new hnew hcalls h₀ hkey
    rcases setCall_cases hnew with ⟨rfl, rfl⟩ | hold
    · exact ⟨call₀, h₀, hkey.symm.trans hk⟩
    · exact ⟨call, hcalls ▸ hold, hk⟩
  cases h with
  | raft | apply | lost | keep => exact Or.inl ⟨call, hc, hk⟩
  | invoke hnew =>
    rcases setCall_cases hc with ⟨-, rfl⟩ | hold
    · cases hk
    · exact Or.inl ⟨call, hold, hk⟩
  | submit h₀ hp hs =>
    rcases setCall_cases hc with ⟨-, rfl⟩ | hold
    · obtain ⟨hlead, hindex, -, -⟩ := Node.submit_cases hs
      rw [Option.some.injEq] at hk
      subst hk
      exact Or.inr ⟨_, hlead, hindex⟩
    · exact Or.inl ⟨call, hold, hk⟩
  | refused h₀ | take h₀ | wait h₀ | wake h₀ | giveUp h₀ | told _ _ h₀ =>
    exact Or.inl (hsame hc rfl h₀ rfl)
  | find h₀ _ _ hs | read h₀ _ _ hs =>
    obtain ⟨w, progress, -, rfl⟩ := reading_cases hs
    exact Or.inl (hsame hc rfl h₀ rfl)

/-- A call does not return in a step of the raft nodes. -/
theorem Step.cluster_eq (h : Step carries s s') {id : Nat} {call : ClientCall n}
    (hr : s.Returns s' id call) : s'.cluster = s.cluster := by
  obtain ⟨hc, hyes, hno⟩ := hr
  cases h with
  | raft => exact absurd hyes (by simp [hno call hc])
  | submit h₀ hp hs =>
    rcases setCall_cases hc with ⟨-, rfl⟩ | hold
    · exact absurd hyes (by simp [ClientCall.succeeded])
    · exact absurd hyes (by simp [hno call hold])
  | find _ _ _ hs | read _ _ _ hs =>
    obtain ⟨w, progress, -, rfl⟩ := reading_cases hs
    rfl
  | _ => rfl

end System

section Runs

variable [DecidablePred carries]

theorem Consistent.of_reachable (hn : n ≤ 3) (hn' : 2 ≤ n) (x : Fin n)
    (hcarries : ∀ args, carries args → ∀ e ∈ args.entries, Sized e)
    (h : (system n carries).Reachable s) : ∃ g segs, Consistent g segs s := by
  have hstep : ∀ g s e s', (∃ segs, Consistent g segs s) → (system n carries).step s e = some s' →
      ∃ g', g ≤ g' ∧ ∃ segs, Consistent g' segs s' := fun g s e s' ⟨_, hc⟩ hs =>
    hc.step hn hn' hcarries (System.Step.of_step hs)
  exact h.ghost (fun s hi => Consistent.initial x hi) hstep

/-- A call that starts when `x` is committed gets a higher index. -/
theorem Consistent.later (hn : n ≤ 3) (hn' : 2 ≤ n)
    (hcarries : ∀ args, carries args → ∀ e ∈ args.entries, Sized e) {g : Ghost n}
    {segs : Fin n → Nat → Option Segment} (h : Consistent g segs s) {x b : Nat}
    (hx : x < g.committed.length) (hb : s.calls b = none) (hl : (system n carries).Leads s s')
    {call : ClientCall n} {key : PendingKey} (hc : s'.calls b = some call)
    (hk : call.waitKey = some key) : (x : Int) < key.index := by
  have hstep : ∀ (g : Ghost n) s e s', ((∃ segs, Consistent g segs s) ∧ x < g.committed.length ∧
      ∀ call key, s.calls b = some call → call.waitKey = some key → (x : Int) < key.index) →
      (system n carries).step s e = some s' →
      ∃ g', g ≤ g' ∧ (∃ segs, Consistent g' segs s') ∧ x < g'.committed.length ∧
        ∀ call key, s'.calls b = some call → call.waitKey = some key → (x : Int) < key.index := by
    rintro g s e s' ⟨⟨segs, h⟩, hx, hlow⟩ hs
    have hs := System.Step.of_step hs
    obtain ⟨g', hle, h'⟩ := h.step hn hn' hcarries hs
    refine ⟨g', hle, h', hx.trans_le hle.2.2.2.length_le, fun call key hc hk => ?_⟩
    rcases hs.waitKey hc hk with ⟨old, hold, hkey⟩ | ⟨i, hlead, hindex⟩
    · exact hlow old key hold hkey
    · have hlen := (h.sound.commits.leader h.sound.votes h.sound.logs hlead).length_le
      omega
  obtain ⟨g', -, -, -, hlow⟩ := hl.ghost hstep ⟨⟨segs, h⟩, hx, by simp [hb]⟩
  exact hlow call key hc hk

end Runs

section Returned

variable {g : Ghost n} {segs : Fin n → Nat → Option Segment}

/-- What a server has applied is committed in its node. -/
theorem Consistent.taken_le (h : Consistent g segs s) (i : Fin n) :
    (s.server i).taken ≤ (s.cluster.node i).commitIndex := by
  have := h.taken i
  rw [h.sound.length_emitted i] at this
  exact this.trans (h.sound.commits.applied i)

/-- The log of a node and the committed log agree on what the node has committed. -/
theorem Consistent.agree (h : Consistent g segs s) (i : Fin n) {m : Nat}
    (hm : m ≤ (s.cluster.node i).commitIndex) :
    (s.cluster.node i).log[m]? = g.committed[m]? ∧
      stateAt (s.cluster.node i).log m = stateAt g.committed m := by
  obtain ⟨hlt, hp⟩ := h.sound.commits.commit i
  have htake := Lineage.take_prefix_eq hp (k := m + 1) (by rw [List.length_take]; omega)
  rw [List.take_take, Nat.min_eq_left (by omega)] at htake
  refine ⟨?_, by rw [stateAt, stateAt, htake]⟩
  rw [← List.getElem?_take_of_lt (Nat.lt_succ_self m), ← htake,
    List.getElem?_take_of_lt (Nat.lt_succ_self m)]

/-- Where a call that succeeded has its entry. -/
theorem Stands.succeeded {taken : Nat} {segs : Nat → Option Segment} {call : ClientCall n}
    (h : Stands g taken segs call.request call.waitKey call.progress)
    (hyes : call.succeeded = true) :
    ∃ key, call.waitKey = some key ∧ Placed g.committed taken key call.request.command ∧
      ∀ k, call.request = .get k → ∃ m ≤ taken, key.index ≤ m ∧
        call.progress = .returned (Result.lookup (stateAt g.committed m k)) := by
  obtain ⟨node, request, waitKey, progress⟩ := call
  cases h with
  | invoked | submitted | waiting | notified | applied | found =>
    simp [ClientCall.succeeded] at hyes
  | got hp hm =>
    refine ⟨_, rfl, hp.mono List.prefix_rfl hm, fun k hk => ?_⟩
    obtain rfl := Request.get.inj hk
    obtain ⟨x, hx, hindex, -⟩ := hp
    exact ⟨_, hm, by omega, rfl⟩
  | written hp =>
    refine ⟨_, rfl, hp, fun k hk => ?_⟩
    subst hk
    simp [ClientCall.succeeded] at hyes
  | @failed _ _ err hget =>
    cases request with
    | get k =>
      have hne := hget k rfl
      cases err with
      | store e => cases e <;> simp_all [ClientCall.succeeded]
      | _ => simp [ClientCall.succeeded] at hyes
    | put | delete => simp [ClientCall.succeeded] at hyes

end Returned

/-- Linearizability on three nodes. A call that succeeded has a committed entry at its index; a call
that starts when another has succeeded gets a higher index; and a `Get` returns the lookup of its
key in the map of a prefix that reaches its index and was committed before it returned. The RPC
layer carries no entry too large for the record formats: the receive limit of gRPC is far below. -/
theorem linearizable {carries : AppendEntriesArgs → Prop} [DecidablePred carries]
    (hcarries : ∀ args, carries args → ∀ e ∈ args.entries, Sized e) {s : System 3}
    (h : (system 3 carries).Reachable s) :
    (∀ id call, s.calls id = some call → call.succeeded = true → ∃ (i : Fin 3) (k : Nat),
      call.index = some (k : Int) ∧ k ≤ (s.cluster.node i).commitIndex ∧
        (s.cluster.node i).log[k]?.map LogEntry.command = some call.request.command) ∧
    (∀ s' a b callA callB j k, (system 3 carries).Leads s s' → s.calls a = some callA →
      callA.index = some j → s.calls b = none → s'.calls b = some callB →
      callB.index = some k → j < k) ∧
    ∀ e s' id call key, (system 3 carries).step s e = some s' → s.Returns s' id call →
      call.request = .get key → ∃ (i : Fin 3) (k m : Nat), call.index = some (k : Int) ∧ k ≤ m ∧
        m ≤ (s.cluster.node i).commitIndex ∧
        call.progress = .returned (Result.lookup (stateAt (s.cluster.node i).log m key)) := by
  obtain ⟨g, segs, hs⟩ := Consistent.of_reachable le_rfl (by omega) 0 hcarries h
  refine ⟨fun id call hc hyes => ?_, fun s' a b callA callB j k hl ha hj hb hb' hk => ?_,
    fun e s' id call key hstep hret hget => ?_⟩
  · obtain ⟨key, hkey, ⟨k, hk, hindex, he⟩, -⟩ := (hs.stands id call hc).succeeded hyes
    have hle := hk.trans (hs.taken_le call.node)
    refine ⟨call.node, k, by simp [ClientCall.index, hyes, hkey, hindex], hle, ?_⟩
    rw [(hs.agree call.node hle).1, he]
    rfl
  · obtain ⟨hyes, key₁, hkey₁, rfl⟩ := ClientCall.index_eq_some hj
    obtain ⟨-, key₂, hkey₂, rfl⟩ := ClientCall.index_eq_some hk
    obtain ⟨key, hkey, ⟨x, hx, hindex, he⟩, -⟩ := (hs.stands a callA ha).succeeded hyes
    obtain rfl : key₁ = key := Option.some.inj (hkey₁.symm.trans hkey)
    rw [hindex]
    exact hs.later le_rfl (by omega) hcarries (List.getElem?_eq_some_iff.mp he).1 hb hl hb' hkey₂
  · have hstep := System.Step.of_step hstep
    have hcluster := hstep.cluster_eq hret
    obtain ⟨hc, hyes, -⟩ := hret
    obtain ⟨g', -, segs', hs'⟩ := hs.step le_rfl (by omega) hcarries hstep
    obtain ⟨waitKey, hkey, ⟨k, hk, hindex, -⟩, hread⟩ := (hs'.stands id call hc).succeeded hyes
    obtain ⟨m, hm, hle, hprogress⟩ := hread key hget
    have hcommit := hm.trans (hs'.taken_le call.node)
    rw [← (hs'.agree call.node hcommit).2, hcluster] at hprogress
    rw [hcluster] at hcommit
    exact ⟨call.node, k, m, by simp [ClientCall.index, hyes, hkey, hindex], by omega, hcommit,
      hprogress⟩

/-- An election, and a `Put` on the leader. -/
def firstPut : List (Event 3) :=
  [.raft (.readState 0), .raft (.electionTimeout 0), .raft (.readState 0), .raft (.startElection 0),
    .raft (.deliverVote 0 1), .raft (.deliverVote 0 2), .raft (.countVote 0 1),
    .raft (.countVote 0 2), .invoke 0 0 (.put [107] [118]), .submit 0, .register 0,
    .raft (.replicate 0 1), .raft (.deliverAppend 0 1), .raft (.finishAppend 0 1), .raft (.apply 0),
    .apply 0 1, .notify 0, .wake 0]

/-- A `Get` on the leader up to the read of the record; its barrier is applied before the call looks
for the result. -/
def thenGet : List (Event 3) :=
  [.invoke 1 0 (.get [107]), .submit 1, .raft (.replicate 0 1), .raft (.deliverAppend 0 1),
    .raft (.finishAppend 0 1), .raft (.apply 0), .apply 0 2, .notify 0, .register 1, .find 1]

/-- The RPC layer refuses only what the record formats cannot hold. -/
def carriesSized (args : AppendEntriesArgs) : Prop := ∀ e ∈ args.entries, Sized e

instance : DecidablePred carriesSized := fun _ => inferInstanceAs (Decidable (∀ _ ∈ _, _))

theorem linearizable_thenGet : ∃ s₁ s₂ s₃ put get,
    (system 3 carriesSized).Reachable s₁ ∧ (system 3 carriesSized).exec s₁ thenGet = some s₂ ∧
      (system 3 carriesSized).step s₂ (.read 1) = some s₃ ∧ s₁.calls 0 = some put ∧
      s₃.calls 1 = some get ∧ put.index = some 1 ∧ get.index = some 2 ∧ (1 : Int) < 2 ∧
      ∃ (i : Fin 3) (m : Nat), 2 ≤ m ∧ m ≤ (s₂.cluster.node i).commitIndex ∧
        get.progress = .returned (Result.lookup (stateAt (s₂.cluster.node i).log m [107])) := by
  have hrun : ((World.empty.openDB ⟨true, false, 1000⟩).bind fun w =>
      ((system 3 carriesSized).exec
        { cluster := Cluster.start ["a", "b", "c"], server := fun _ => { store := w } }
        firstPut).bind fun s₁ =>
      ((system 3 carriesSized).exec s₁ thenGet).bind fun s₂ =>
      ((system 3 carriesSized).step s₂ (.read 1)).map fun s₃ =>
        decide ((s₁.calls 0).map ClientCall.index = some (some 1) ∧ (s₁.calls 1).isNone ∧
          (s₂.calls 1).map ClientCall.succeeded = some false ∧
          ((s₃.calls 1).map fun call => (call.index, call.request)) =
            some (some 2, .get [107]))) = some true := by decide +kernel
  obtain ⟨w, hw, hrun⟩ := Option.bind_eq_some_iff.mp hrun
  obtain ⟨s₁, hs₁, hrun⟩ := Option.bind_eq_some_iff.mp hrun
  obtain ⟨s₂, hs₂, hrun⟩ := Option.bind_eq_some_iff.mp hrun
  obtain ⟨s₃, hs₃, hread⟩ := Option.map_eq_some_iff.mp hrun
  simp only [decide_eq_true_eq, Prod.mk.injEq, Option.map_eq_some_iff,
    Option.isNone_iff_eq_none] at hread
  obtain ⟨⟨put, hput, hone⟩, hnone, ⟨old, hold, hno⟩, get, hget, htwo, hreq⟩ := hread
  have h₁ : (system 3 carriesSized).Reachable s₁ :=
    ⟨_, firstPut, ⟨⟨_, rfl, rfl⟩, rfl, fun _ => ⟨w, ⟨⟨true, false, 1000⟩, hw⟩, rfl⟩⟩, hs₁⟩
  have hlead : (system 3 carriesSized).Leads s₁ s₂ := ⟨thenGet, hs₂⟩
  have hyes := (ClientCall.index_eq_some htwo).1
  have hret : s₂.Returns s₃ 1 get := ⟨hget, hyes, fun call hc => by
    rw [hold, Option.some.injEq] at hc
    exact hc ▸ hno⟩
  obtain ⟨-, horder, -⟩ := linearizable (fun _ hc => hc) h₁
  obtain ⟨-, -, hreads⟩ := linearizable (fun _ hc => hc) (h₁.leads hlead)
  obtain ⟨i, k, m, hk, hle, hm, hprogress⟩ := hreads _ s₃ 1 get [107] hs₃ hret hreq
  rw [htwo, Option.some.injEq] at hk
  exact ⟨s₁, s₂, s₃, put, get, h₁, hs₂, hs₃, hput, hget, hone, htwo,
    horder s₃ 0 1 put get 1 2 (hlead.trans (.of_step hs₃)) hput hone hnone hget htwo,
    i, m, by omega, hm, hprogress⟩

end KvRaft.Server
