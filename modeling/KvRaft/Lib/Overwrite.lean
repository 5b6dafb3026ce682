import Mathlib.Data.List.Basic

/-! Commands on a map that overwrite: what a command leaves at a place of the map is what was there,
or a value that does not depend on the map. A list of commands then gives the same map whatever
commands of the list have been carried out before. -/

namespace Overwrite

variable {K V C : Type*} {step : (K → V) → C → K → V} {touches : C → K → Prop} {k : K}
  {before cs : List C}

/-- `touches` says which places a command overwrites. -/
structure Overwrites (step : (K → V) → C → K → V) (touches : C → K → Prop) : Prop where
  same : ∀ m c k, ¬ touches c k → step m c k = m k
  fresh : ∀ m m' c k, touches c k → step m c k = step m' c k

namespace Overwrites

variable (h : Overwrites step touches)

include h

theorem foldl_same (hk : ∀ c ∈ cs, ¬ touches c k) (m : K → V) : cs.foldl step m k = m k := by
  induction cs generalizing m with
  | nil => rfl
  | cons c cs ih =>
    obtain ⟨hc, hcs⟩ := List.forall_mem_cons.mp hk
    rw [List.foldl_cons, ih hcs, h.same m c k hc]

theorem foldl_fresh (hk : ∃ c ∈ cs, touches c k) (m m' : K → V) :
    cs.foldl step m k = cs.foldl step m' k := by
  induction cs generalizing m m' with
  | nil => simp at hk
  | cons c cs ih =>
    rw [List.foldl_cons, List.foldl_cons]
    by_cases hlater : ∃ c ∈ cs, touches c k
    · exact ih hlater _ _
    · -- the first command is the last one that matters
      have hnone : ∀ c ∈ cs, ¬ touches c k := fun c hc ht => hlater ⟨c, hc, ht⟩
      obtain ⟨c', hmem, ht⟩ := hk
      rcases List.mem_cons.mp hmem with rfl | hmem
      · rw [h.foldl_same hnone, h.foldl_same hnone, h.fresh m m' c' k ht]
      · exact absurd ht (hnone c' hmem)

/-- Nothing is left of what was done before, if all of it is done again. -/
theorem foldl_replay (hsub : before ⊆ cs) (m : K → V) :
    (before ++ cs).foldl step m = cs.foldl step m := by
  funext k
  rw [List.foldl_append]
  by_cases hk : ∃ c ∈ cs, touches c k
  · exact h.foldl_fresh hk _ _
  · have hnone : ∀ c ∈ cs, ¬ touches c k := fun c hc ht => hk ⟨c, hc, ht⟩
    rw [h.foldl_same hnone, h.foldl_same hnone, h.foldl_same fun c hc => hnone c (hsub hc)]

end Overwrites

end Overwrite
