import Mathlib.Order.Defs.Unbundled

/-! What a computation with a state may do to it, however the computation ends: a relation between
the state before and the state after, with a rule for each way to put computations together. -/

namespace Effects

variable {ε σ α β : Type} {R : σ → σ → Prop} {op : EStateM ε σ α} {s s' : σ}

/-- The state after a computation, whatever it returned. -/
def left (op : EStateM ε σ α) (s : σ) : σ :=
  match op s with
  | .ok _ s' => s'
  | .error _ s' => s'

theorem left_ok {a : α} (h : op s = .ok a s') : left op s = s' := by
  rw [left, h]

theorem left_error {e : ε} (h : op s = .error e s') : left op s = s' := by
  rw [left, h]

theorem left_bind_ok {f : α → EStateM ε σ β} {a : α} (h : op s = .ok a s') :
    left (op >>= f) s = left (f a) s' := by
  change left (EStateM.bind op f) s = _
  simp only [left, EStateM.bind, h]

theorem left_bind_error {f : α → EStateM ε σ β} {e : ε} (h : op s = .error e s') :
    left (op >>= f) s = s' := by
  change left (EStateM.bind op f) s = _
  simp only [left, EStateM.bind, h]

/-- The computation takes each state to one that `R` allows. -/
def Within (R : σ → σ → Prop) (op : EStateM ε σ α) : Prop := ∀ s, R s (left op s)

namespace Within

theorem ok (h : Within R op) {a : α} (hop : op s = .ok a s') : R s s' := by
  have := h s
  rwa [left, hop] at this

theorem error (h : Within R op) {e : ε} (hop : op s = .error e s') : R s s' := by
  have := h s
  rwa [left, hop] at this

theorem of_forall (hok : ∀ s a s', op s = .ok a s' → R s s')
    (herror : ∀ s e s', op s = .error e s' → R s s') : Within R op := by
  intro s
  rw [left]
  cases hop : op s with
  | ok a s' => exact hok s a s' hop
  | error e s' => exact herror s e s' hop

theorem mono {R' : σ → σ → Prop} (h : Within R op) (hR : ∀ s s', R s s' → R' s s') :
    Within R' op :=
  fun s => hR s _ (h s)

theorem modify {f : σ → σ} (hf : ∀ s, R s (f s)) : Within R (modify f : EStateM ε σ Unit) := hf

section Refl

variable [Std.Refl R]

theorem pure (a : α) : Within R (pure a : EStateM ε σ α) := fun s => refl_of R s

theorem throw (e : ε) : Within R (throw e : EStateM ε σ α) := fun s => refl_of R s

theorem get : Within R (get : EStateM ε σ σ) := fun s => refl_of R s

end Refl

theorem ite {p : Prop} [Decidable p] {op' : EStateM ε σ α} (h : Within R op)
    (h' : Within R op') : Within R (if p then op else op') := by
  split
  · exact h
  · exact h'

section Trans

variable [IsTrans σ R]

theorem bind {f : α → EStateM ε σ β} (h : Within R op) (hf : ∀ a, Within R (f a)) :
    Within R (op >>= f) := by
  intro s
  change R s (left (EStateM.bind op f) s)
  have hs := h s
  rw [left] at hs ⊢
  unfold EStateM.bind
  cases hop : op s with
  | error e s' =>
    rw [hop] at hs
    exact hs
  | ok a s' =>
    rw [hop] at hs
    exact trans_of R hs (hf a s')

theorem tryCatch {handler : ε → EStateM ε σ α} (h : Within R op)
    (hh : ∀ e, Within R (handler e)) : Within R (tryCatch op handler) := by
  intro s
  change R s (left (EStateM.tryCatch op handler) s)
  have hs := h s
  rw [left] at hs ⊢
  unfold EStateM.tryCatch
  cases hop : op s with
  | ok a s' =>
    rw [hop] at hs
    exact hs
  | error e s' =>
    rw [hop] at hs
    exact trans_of R hs (hh e s')

theorem forM [Std.Refl R] {f : α → EStateM ε σ PUnit} {as : List α}
    (h : ∀ a ∈ as, Within R (f a)) : Within R (as.forM f) := by
  induction as with
  | nil => exact pure ()
  | cons a as ih =>
    obtain ⟨ha, has⟩ := List.forall_mem_cons.mp h
    exact ha.bind fun _ => ih has

end Trans

end Within

end Effects
