import Mathlib.Order.Basic

/-! Machines that step by actions: runs, the states that runs reach, and the two induction rules
that every safety proof over runs uses, one for a plain invariant and one for an invariant of the
state together with a ghost that only grows. -/

/-- A machine whose steps are named by actions. An action that is not enabled in a state has no
next state. -/
structure Machine (State Action : Type*) where
  initial : State → Prop
  step : State → Action → Option State

namespace Machine

variable {State Action : Type*} (m : Machine State Action)

/-- The state after a list of actions, when every one of them is enabled in its turn. -/
def exec : State → List Action → Option State
  | s, [] => some s
  | s, a :: rest => (m.step s a).bind fun s' => exec s' rest

/-- `s` ends a run that starts in an initial state. -/
def Reachable (s : State) : Prop := ∃ s₀ as, m.initial s₀ ∧ m.exec s₀ as = some s

/-- `s'` is reached from `s` by some run. -/
def Leads (s s' : State) : Prop := ∃ as, m.exec s as = some s'

variable {m} {s s' s'' : State} {a : Action} {as bs : List Action}

@[simp] theorem exec_nil : m.exec s [] = some s := rfl

theorem exec_cons : m.exec s (a :: as) = (m.step s a).bind fun s' => m.exec s' as := rfl

@[simp] theorem exec_singleton : m.exec s [a] = m.step s a := by
  simp [exec_cons]

theorem exec_append : m.exec s (as ++ bs) = (m.exec s as).bind fun s' => m.exec s' bs := by
  induction as generalizing s with
  | nil => rfl
  | cons a as ih =>
    simp only [List.cons_append, exec_cons, Option.bind_assoc]
    congr 1
    funext s'
    exact ih

theorem exec_cons_eq_some :
    m.exec s (a :: as) = some s' ↔ ∃ s₁, m.step s a = some s₁ ∧ m.exec s₁ as = some s' := by
  simp [exec_cons, Option.bind_eq_some_iff]

theorem exec_append_eq_some :
    m.exec s (as ++ bs) = some s' ↔ ∃ s₁, m.exec s as = some s₁ ∧ m.exec s₁ bs = some s' := by
  simp [exec_append, Option.bind_eq_some_iff]

theorem Reachable.of_initial (h : m.initial s) : m.Reachable s := ⟨s, [], h, rfl⟩

theorem Leads.refl (s : State) : m.Leads s s := ⟨[], rfl⟩

theorem Leads.trans (h₁ : m.Leads s s') (h₂ : m.Leads s' s'') : m.Leads s s'' := by
  obtain ⟨as, ha⟩ := h₁
  obtain ⟨bs, hb⟩ := h₂
  exact ⟨as ++ bs, exec_append_eq_some.mpr ⟨s', ha, hb⟩⟩

theorem Leads.of_step (h : m.step s a = some s') : m.Leads s s' :=
  ⟨[a], exec_cons_eq_some.mpr ⟨s', h, rfl⟩⟩

theorem Reachable.leads (h : m.Reachable s) (hl : m.Leads s s') : m.Reachable s' := by
  obtain ⟨s₀, as, h₀, ha⟩ := h
  obtain ⟨bs, hb⟩ := hl
  exact ⟨s₀, as ++ bs, h₀, exec_append_eq_some.mpr ⟨s, ha, hb⟩⟩

/-- What every step keeps, every run keeps. -/
theorem Leads.invariant {P : State → Prop}
    (hStep : ∀ s a s', P s → m.step s a = some s' → P s')
    (h : m.Leads s s') (hs : P s) : P s' := by
  obtain ⟨as, ha⟩ := h
  induction as generalizing s with
  | nil => cases ha; exact hs
  | cons a as ih =>
    obtain ⟨s₁, h₁, hrest⟩ := exec_cons_eq_some.mp ha
    exact ih (hStep s a s₁ hs h₁) hrest

/-- What holds at the start and is kept by every step holds in every reachable state. -/
theorem Reachable.invariant {P : State → Prop} (hInit : ∀ s, m.initial s → P s)
    (hStep : ∀ s a s', P s → m.step s a = some s' → P s') (h : m.Reachable s) : P s := by
  obtain ⟨s₀, as, h₀, ha⟩ := h
  exact Leads.invariant hStep ⟨as, ha⟩ (hInit s₀ h₀)

section Along

variable (m) in
/-- Every step of the run meets `P` in the state where it is taken. -/
def Along (P : State → Action → Prop) : State → List Action → Prop
  | _, [] => True
  | s, a :: rest => P s a ∧ match m.step s a with
    | none => True
    | some s' => Along P s' rest

variable {P : State → Action → Prop}

instance decidableAlong [∀ s a, Decidable (P s a)] (s : State) (as : List Action) :
    Decidable (m.Along P s as) :=
  match as with
  | [] => inferInstanceAs (Decidable True)
  | a :: rest =>
    have : Decidable (match m.step s a with
        | none => True
        | some s' => m.Along P s' rest) :=
      match m.step s a with
      | none => inferInstanceAs (Decidable True)
      | some s' => decidableAlong s' rest
    inferInstanceAs (Decidable (_ ∧ _))

theorem Along.step (h : m.Along P s (a :: as)) (hs : m.step s a = some s') :
    P s a ∧ m.Along P s' as := by
  refine ⟨h.1, ?_⟩
  have := h.2
  rwa [hs] at this

/-- What every guarded step keeps, every guarded run keeps. -/
theorem Along.invariant {I : State → Prop}
    (hStep : ∀ s a s', I s → P s a → m.step s a = some s' → I s')
    (h : m.Along P s as) (hrun : m.exec s as = some s') (hs : I s) : I s' := by
  induction as generalizing s with
  | nil => cases hrun; exact hs
  | cons a as ih =>
    obtain ⟨s₁, h₁, hrest⟩ := exec_cons_eq_some.mp hrun
    obtain ⟨hP, halong⟩ := h.step h₁
    exact ih halong hrest (hStep s a s₁ hs hP h₁)

/-- A run keeps `I` as long as its steps meet the guard; a step that does not meet it leads to `J`,
which every step keeps. -/
theorem along_or {I J : State → Prop} (hgood : ∀ s a s', I s → P s a → m.step s a = some s' → I s')
    (hbad : ∀ s a s', I s → ¬ P s a → m.step s a = some s' → J s')
    (hstays : ∀ s a s', J s → m.step s a = some s' → J s')
    (hrun : m.exec s as = some s') (hs : I s) :
    m.Along P s as ∧ I s' ∨ ¬ m.Along P s as ∧ J s' := by
  induction as generalizing s with
  | nil =>
    cases hrun
    exact Or.inl ⟨trivial, hs⟩
  | cons a as ih =>
    obtain ⟨s₁, h₁, hrest⟩ := exec_cons_eq_some.mp hrun
    by_cases hP : P s a
    · rcases ih hrest (hgood s a s₁ hs hP h₁) with ⟨halong, hI⟩ | ⟨hnot, hJ⟩
      · refine Or.inl ⟨⟨hP, ?_⟩, hI⟩
        rw [h₁]
        exact halong
      · exact Or.inr ⟨fun h => hnot (h.step h₁).2, hJ⟩
    · exact Or.inr ⟨fun h => hP h.1, Leads.invariant hstays ⟨as, hrest⟩ (hbad s a s₁ hs hP h₁)⟩

/-- What the guard says about actions alone holds of every action of the run. -/
theorem Along.forall_mem {Q : Action → Prop} (hQ : ∀ s a, P s a → Q a) (h : m.Along P s as)
    (hrun : m.exec s as = some s') : ∀ a ∈ as, Q a := by
  induction as generalizing s with
  | nil => exact nofun
  | cons a as ih =>
    obtain ⟨s₁, h₁, hrest⟩ := exec_cons_eq_some.mp hrun
    obtain ⟨hP, halong⟩ := h.step h₁
    exact List.forall_mem_cons.mpr ⟨hQ s a hP, ih halong hrest⟩

/-- A run is guarded when what its actions are and an invariant imply the guard. -/
theorem Along.of_invariant {I : State → Prop} {Q : Action → Prop}
    (hP : ∀ s a, I s → Q a → P s a)
    (hStep : ∀ s a s', I s → Q a → m.step s a = some s' → I s')
    (hs : I s) (hQ : ∀ a ∈ as, Q a) : m.Along P s as := by
  induction as generalizing s with
  | nil => trivial
  | cons a as ih =>
    obtain ⟨ha, hrest⟩ := List.forall_mem_cons.mp hQ
    refine ⟨hP s a hs ha, ?_⟩
    cases h₁ : m.step s a with
    | none => trivial
    | some s₁ => exact ih (hStep s a s₁ hs ha h₁) hrest

end Along

section Reads

variable {Out : Type*} {P : State → Action → Prop}

variable (m) in
/-- What `f` reads off the steps of a run, in their order. -/
def reads (f : State → Action → Option Out) : State → List Action → List Out
  | _, [] => []
  | s, a :: rest => (f s a).toList ++ match m.step s a with
    | none => []
    | some s' => reads f s' rest

/-- What can be read off the actions alone is read off all of them. -/
theorem reads_eq_filterMap {f : Action → Option Out} (hrun : m.exec s as = some s') :
    m.reads (fun _ a => f a) s as = as.filterMap f := by
  induction as generalizing s with
  | nil => rfl
  | cons a as ih =>
    obtain ⟨s₁, h₁, hrest⟩ := exec_cons_eq_some.mp hrun
    simp only [reads, h₁, ih hrest]
    cases hf : f a with
    | none => rw [List.filterMap_cons_none hf, Option.toList_none, List.nil_append]
    | some out => rw [List.filterMap_cons_some hf, Option.toList_some, List.singleton_append]

/-- What every guarded step keeps of a state and of all that was read so far, every guarded run
keeps. -/
theorem Along.reads {f : State → Action → Option Out} {I : List Out → State → Prop}
    (hStep : ∀ t s a s', I t s → P s a → m.step s a = some s' → I (t ++ (f s a).toList) s')
    {t : List Out} (h : m.Along P s as) (hrun : m.exec s as = some s') (hs : I t s) :
    I (t ++ m.reads f s as) s' := by
  induction as generalizing s t with
  | nil =>
    cases hrun
    rwa [Machine.reads, List.append_nil]
  | cons a as ih =>
    obtain ⟨s₁, h₁, hrest⟩ := exec_cons_eq_some.mp hrun
    obtain ⟨hP, halong⟩ := h.step h₁
    have := ih halong hrest (hStep t s a s₁ hs hP h₁)
    rwa [List.append_assoc, show (f s a).toList ++ m.reads f s₁ as = m.reads f s (a :: as) by
      rw [Machine.reads, h₁]] at this

/-- What every step keeps of a state and of all that was read so far, every run keeps. -/
theorem reads_invariant {f : State → Action → Option Out} {I : List Out → State → Prop}
    (hStep : ∀ t s a s', I t s → m.step s a = some s' → I (t ++ (f s a).toList) s')
    {t : List Out} (hrun : m.exec s as = some s') (hs : I t s) : I (t ++ m.reads f s as) s' := by
  have hany : m.Along (fun _ _ => True) s as :=
    .of_invariant (I := fun _ => True) (Q := fun _ => True) (fun _ _ _ _ => trivial)
      (fun _ _ _ _ _ _ => trivial) trivial fun _ _ => trivial
  exact hany.reads (fun t s a s' h _ hstep => hStep t s a s' h hstep) hrun hs

end Reads

section Ghost

variable {Ghost : Type*} [Preorder Ghost] {Inv : Ghost → State → Prop}

/-- Along a run, an invariant of a state and a ghost carries the ghost forward: each step finds a
ghost for the next state that extends the one before. -/
theorem Leads.ghost
    (hStep : ∀ g s a s', Inv g s → m.step s a = some s' → ∃ g', g ≤ g' ∧ Inv g' s')
    (h : m.Leads s s') {g : Ghost} (hs : Inv g s) : ∃ g', g ≤ g' ∧ Inv g' s' := by
  obtain ⟨as, ha⟩ := h
  induction as generalizing s g with
  | nil => cases ha; exact ⟨g, le_refl g, hs⟩
  | cons a as ih =>
    obtain ⟨s₁, h₁, hrest⟩ := exec_cons_eq_some.mp ha
    obtain ⟨g₁, hle₁, hInv₁⟩ := hStep g s a s₁ hs h₁
    obtain ⟨g', hle, hInv⟩ := ih hInv₁ hrest
    exact ⟨g', hle₁.trans hle, hInv⟩

theorem Reachable.ghost (hInit : ∀ s, m.initial s → ∃ g, Inv g s)
    (hStep : ∀ g s a s', Inv g s → m.step s a = some s' → ∃ g', g ≤ g' ∧ Inv g' s')
    (h : m.Reachable s) : ∃ g, Inv g s := by
  obtain ⟨s₀, as, h₀, ha⟩ := h
  obtain ⟨g, hg⟩ := hInit s₀ h₀
  obtain ⟨g', _, hg'⟩ := Leads.ghost hStep ⟨as, ha⟩ hg
  exact ⟨g', hg'⟩

end Ghost

end Machine
