import Mathlib.Data.List.Sort

/-! What updates of extensional maps leave, and those that amount to an insertion, or to nothing. -/

namespace Maps

open Std

variable {κ β : Type*} [Ord κ] [TransOrd κ] [LawfulEqOrd κ] {m : ExtTreeMap κ β} {k a : κ}
  {v w : β}

theorem getElem?_insert_of_ne (h : a ≠ k) : (m.insert k v)[a]? = m[a]? := by
  rw [ExtTreeMap.getElem?_insert, if_neg fun hc => h (LawfulEqOrd.eq_of_compare hc).symm]

theorem getElem?_erase_of_ne (h : a ≠ k) : (m.erase k)[a]? = m[a]? := by
  rw [ExtTreeMap.getElem?_erase, if_neg fun hc => h (LawfulEqOrd.eq_of_compare hc).symm]

theorem getElem?_modify_eq_none {f : β → β} : (m.modify k f)[a]? = none ↔ m[a]? = none := by
  rw [ExtTreeMap.getElem?_modify]
  split
  · next hc => rw [LawfulEqOrd.eq_of_compare hc, Option.map_eq_none_iff]
  · rfl

omit [LawfulEqOrd κ] in
theorem getElem?_erase_ne_none (h : (m.erase k)[a]? ≠ none) : m[a]? ≠ none := by
  rw [ExtTreeMap.getElem?_erase] at h
  split at h
  · exact absurd rfl h
  · exact h

omit [LawfulEqOrd κ] in
theorem getElem?_insert_ne_none (h : m[a]? ≠ none) : (m.insert k v)[a]? ≠ none := by
  rw [ExtTreeMap.getElem?_insert]
  split
  · exact Option.some_ne_none v
  · exact h

theorem modify_eq_insert {f : β → β} (h : m[k]? = some v) : m.modify k f = m.insert k (f v) := by
  refine ExtTreeMap.ext_getElem? fun a => ?_
  rw [ExtTreeMap.getElem?_modify, ExtTreeMap.getElem?_insert, h]
  rfl

theorem alter_eq_insert {f : Option β → Option β} (h : f m[k]? = some v) :
    m.alter k f = m.insert k v := by
  refine ExtTreeMap.ext_getElem? fun a => ?_
  rw [ExtTreeMap.getElem?_alter, ExtTreeMap.getElem?_insert, h]

theorem insert_same (h : m[k]? = some v) : m.insert k v = m := by
  refine ExtTreeMap.ext_getElem? fun a => ?_
  rw [ExtTreeMap.getElem?_insert]
  split
  · next hc => rw [← LawfulEqOrd.eq_of_compare hc, h]
  · rfl

theorem insert_insert : (m.insert k v).insert k w = m.insert k w := by
  refine ExtTreeMap.ext_getElem? fun a => ?_
  simp only [ExtTreeMap.getElem?_insert]
  split <;> rfl

theorem erase_insert : (m.insert k v).erase k = m.erase k := by
  refine ExtTreeMap.ext_getElem? fun a => ?_
  rw [ExtTreeMap.getElem?_erase, ExtTreeMap.getElem?_erase]
  split
  · rfl
  · next hc => rw [ExtTreeMap.getElem?_insert, if_neg hc]

theorem erase_absent (h : m[k]? = none) : m.erase k = m := by
  refine ExtTreeMap.ext_getElem? fun a => ?_
  rw [ExtTreeMap.getElem?_erase]
  split
  · next hc => rw [← LawfulEqOrd.eq_of_compare hc, h]
  · rfl

/-- The keys of a map are the one sorted list of its keys. -/
theorem keys_eq {l : List κ} (hl : l.Pairwise fun a b => compare a b = .lt)
    (hmem : ∀ a, a ∈ l ↔ a ∈ m) : m.keys = l := by
  have hne : ∀ {a b : κ}, compare a b = .lt → a ≠ b := by
    rintro a _ hlt rfl
    rw [compare_self] at hlt
    cases hlt
  have hsorted := ExtTreeMap.ordered_keys (t := m)
  have hperm : m.keys.Perm l := (List.perm_ext_iff_of_nodup (hsorted.imp hne) (hl.imp hne)).mpr
    fun a => by rw [ExtTreeMap.mem_keys, hmem]
  refine hperm.eq_of_pairwise (fun a b _ _ hab hba => ?_) hsorted hl
  exact absurd rfl (hne (TransCmp.lt_trans hab hba))

theorem keys_insert_of_mem (h : k ∈ m) : (m.insert k v).keys = m.keys := by
  refine keys_eq ExtTreeMap.ordered_keys fun a => ?_
  rw [ExtTreeMap.mem_keys, ExtTreeMap.mem_insert]
  constructor
  · exact Or.inr
  · rintro (hc | ha)
    · rwa [← LawfulEqOrd.eq_of_compare hc]
    · exact ha

theorem keys_insert_last (h : ∀ a ∈ m, compare a k = .lt) :
    (m.insert k v).keys = m.keys ++ [k] := by
  refine keys_eq (List.pairwise_append.mpr ⟨ExtTreeMap.ordered_keys, by simp, ?_⟩) fun a => ?_
  · intro a ha b hb
    rw [List.mem_singleton.mp hb]
    exact h a (ExtTreeMap.mem_keys.mp ha)
  · rw [List.mem_append, ExtTreeMap.mem_keys, List.mem_singleton, ExtTreeMap.mem_insert, or_comm,
      eq_comm]
    exact or_congr_left ⟨fun h => h ▸ compare_self, LawfulEqOrd.eq_of_compare⟩

section Foldl

variable {γ : Type*} {f : ExtTreeMap κ β → κ → γ → ExtTreeMap κ β} {t : ExtTreeMap κ γ} {c : γ}

omit [LawfulEqOrd κ] in
/-- A fold whose steps change one key each leaves the keys alone that it does not visit. -/
theorem getElem?_foldl_list (hf : ∀ m k c a, a ≠ k → (f m k c)[a]? = m[a]?)
    {l : List (κ × γ)} (hl : ∀ p ∈ l, p.1 ≠ k) :
    (l.foldl (fun m p => f m p.1 p.2) m)[k]? = m[k]? := by
  induction l generalizing m with
  | nil => rfl
  | cons p l ih =>
    rw [List.foldl_cons, ih fun q hq => hl q (List.mem_cons_of_mem p hq),
      hf _ _ _ _ (hl p List.mem_cons_self).symm]

theorem getElem?_foldl_of_none (hf : ∀ m k c a, a ≠ k → (f m k c)[a]? = m[a]?)
    (hk : t[k]? = none) : (t.foldl f m)[k]? = m[k]? := by
  rw [ExtTreeMap.foldl_eq_foldl_toList]
  refine getElem?_foldl_list hf ?_
  rintro ⟨a, c⟩ hp rfl
  rw [ExtTreeMap.mem_toList_iff_getElem?_eq_some, hk] at hp
  cases hp

/-- The one step that visits a key decides it. -/
theorem getElem?_foldl_of_some (hf : ∀ m k c a, a ≠ k → (f m k c)[a]? = m[a]?)
    (hk : t[k]? = some c) :
    ∃ m' : ExtTreeMap κ β, m'[k]? = m[k]? ∧ (t.foldl f m)[k]? = (f m' k c)[k]? := by
  rw [ExtTreeMap.foldl_eq_foldl_toList]
  obtain ⟨l₁, l₂, hl⟩ := List.append_of_mem (ExtTreeMap.mem_toList_iff_getElem?_eq_some.mpr hk)
  have hdistinct := ExtTreeMap.distinct_keys_toList (t := t)
  rw [hl, List.pairwise_append, List.pairwise_cons] at hdistinct
  obtain ⟨-, ⟨h₂, -⟩, h₁⟩ := hdistinct
  have hne₁ : ∀ p ∈ l₁, p.1 ≠ k := fun p hp h =>
    h₁ p hp (k, c) List.mem_cons_self (by rw [h]; exact compare_self)
  have hne₂ : ∀ p ∈ l₂, p.1 ≠ k := fun p hp h => h₂ p hp (by rw [h]; exact compare_self)
  refine ⟨_, getElem?_foldl_list hf hne₁, ?_⟩
  rw [hl, List.foldl_append, List.foldl_cons, getElem?_foldl_list hf hne₂]

end Foldl

end Maps
