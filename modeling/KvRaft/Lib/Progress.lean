import KvRaft.Lib.Machine

/-! What a machine can be brought to: runs that take only actions of one kind, and the rules by
which such runs are put together, one that repeats a stretch as long as a measure falls, one that
takes a stretch for each element of a list, and one that follows the run of another machine. -/

namespace Machine

variable {State Action : Type*} {m : Machine State Action} {P : Action → Prop}
  {s s' s'' : State} {a : Action}

variable (m) in
/-- `s'` is reached from `s` by a run whose actions all meet `P`. -/
def LeadsBy (P : Action → Prop) (s s' : State) : Prop :=
  ∃ as, (∀ a ∈ as, P a) ∧ m.exec s as = some s'

namespace LeadsBy

theorem refl (s : State) : m.LeadsBy P s s := ⟨[], by simp, rfl⟩

theorem trans (h₁ : m.LeadsBy P s s') (h₂ : m.LeadsBy P s' s'') : m.LeadsBy P s s'' := by
  obtain ⟨as, hPa, ha⟩ := h₁
  obtain ⟨bs, hPb, hb⟩ := h₂
  refine ⟨as ++ bs, fun a h => ?_, exec_append_eq_some.mpr ⟨s', ha, hb⟩⟩
  exact (List.mem_append.mp h).elim (hPa a) (hPb a)

theorem of_step (h : m.step s a = some s') (hP : P a) : m.LeadsBy P s s' := by
  refine ⟨[a], fun b hb => ?_, exec_cons_eq_some.mpr ⟨s', h, rfl⟩⟩
  rw [List.mem_singleton.mp hb]
  exact hP

theorem leads (h : m.LeadsBy P s s') : m.Leads s s' := by
  obtain ⟨as, -, ha⟩ := h
  exact ⟨as, ha⟩

/-- What every action of the kind keeps is kept by the run. -/
theorem invariant {I : State → Prop}
    (hstep : ∀ s a s', I s → P a → m.step s a = some s' → I s')
    (h : m.LeadsBy P s s') (hs : I s) : I s' := by
  obtain ⟨as, hP, ha⟩ := h
  induction as generalizing s with
  | nil =>
    cases ha
    exact hs
  | cons a as ih =>
    obtain ⟨hPa, hPas⟩ := List.forall_mem_cons.mp hP
    obtain ⟨s₁, h₁, hrest⟩ := exec_cons_eq_some.mp ha
    exact ih (hstep s a s₁ hs hPa h₁) hPas hrest

/-- A run is followed by another machine that can follow each of its steps. -/
theorem follow {State' Action' : Type*} {m' : Machine State' Action'} {Q : Action' → Prop}
    {R : State → State' → Prop} (hstep : ∀ s a s' t, R s t → P a → m.step s a = some s' →
      ∃ t', m'.LeadsBy Q t t' ∧ R s' t')
    (h : m.LeadsBy P s s') {t : State'} (hR : R s t) : ∃ t', m'.LeadsBy Q t t' ∧ R s' t' := by
  obtain ⟨as, hP, ha⟩ := h
  induction as generalizing s t with
  | nil =>
    cases ha
    exact ⟨t, ⟨[], by simp, rfl⟩, hR⟩
  | cons a as ih =>
    obtain ⟨hPa, hPas⟩ := List.forall_mem_cons.mp hP
    obtain ⟨s₁, h₁, hrest⟩ := exec_cons_eq_some.mp ha
    obtain ⟨t₁, hlead₁, hR₁⟩ := hstep s a s₁ t hR hPa h₁
    obtain ⟨t₂, hlead₂, hR₂⟩ := ih hR₁ hPas hrest
    exact ⟨t₂, hlead₁.trans hlead₂, hR₂⟩

/-- If wherever the goal does not hold a stretch that keeps `I` can be taken that reaches the goal
or lowers the measure, the goal can be reached. -/
theorem iterate {I G : State → Prop} (measure : State → Nat)
    (hstep : ∀ s, I s → ¬ G s → ∃ s', m.LeadsBy P s s' ∧ I s' ∧
      (G s' ∨ measure s' < measure s))
    (hs : I s) : ∃ s', m.LeadsBy P s s' ∧ I s' ∧ G s' := by
  generalize hk : measure s = k
  induction k using Nat.strongRecOn generalizing s with
  | ind k ih =>
    by_cases hg : G s
    · exact ⟨s, refl s, hs, hg⟩
    · obtain ⟨s₁, hlead, hI, hg₁ | hlt⟩ := hstep s hs hg
      · exact ⟨s₁, hlead, hI, hg₁⟩
      · obtain ⟨s₂, hlead₂, hI₂, hg₂⟩ := ih (measure s₁) (hk ▸ hlt) hI rfl
        exact ⟨s₂, hlead.trans hlead₂, hI₂, hg₂⟩

/-- A stretch for each element of a list, none of which undoes the work of another. -/
theorem forEach {ι : Type*} {I : State → Prop} {D : ι → State → Prop}
    (hstep : ∀ j s, I s → ∃ s', m.LeadsBy P s s' ∧ I s' ∧ D j s' ∧
      ∀ k, D k s → D k s')
    (js : List ι) (hs : I s) : ∃ s', m.LeadsBy P s s' ∧ I s' ∧ ∀ j ∈ js, D j s' := by
  suffices h : ∃ s', m.LeadsBy P s s' ∧ I s' ∧ (∀ j ∈ js, D j s') ∧
      ∀ k, D k s → D k s' by
    obtain ⟨s', hlead, hI, hdone, -⟩ := h
    exact ⟨s', hlead, hI, hdone⟩
  induction js generalizing s with
  | nil => exact ⟨s, refl s, hs, by simp, fun _ h => h⟩
  | cons j rest ih =>
    obtain ⟨s₁, hlead₁, hI₁, hj, hkeep₁⟩ := hstep j s hs
    obtain ⟨s₂, hlead₂, hI₂, hrest, hkeep₂⟩ := ih hI₁
    refine ⟨s₂, hlead₁.trans hlead₂, hI₂, ?_, fun k hk => hkeep₂ k (hkeep₁ k hk)⟩
    exact List.forall_mem_cons.mpr ⟨hkeep₂ j hj, hrest⟩

end LeadsBy

end Machine
