import Mathlib.Data.List.Sort

/-! Rebuilding an index from a list of updates. An update sets or removes one key, and takes effect
if the key is absent or its current entry gives way to the new one. A removed key leaves no entry
behind, so the outcome depends on the order of the updates; what it is when one update of a key
beats all others is the same for every order. -/

namespace Replay

open Std

variable {κ ε : Type*}

structure Update (κ ε : Type*) where
  key : κ
  entry : ε
  tombstone : Bool

variable [Ord κ] [TransOrd κ]

/-- `givesWay current incoming`: the entry `incoming` replaces `current`. -/
def apply (givesWay : ε → ε → Bool) (m : ExtTreeMap κ ε) (u : Update κ ε) : ExtTreeMap κ ε :=
  if (m[u.key]?).any fun current => !givesWay current u.entry then m
  else if u.tombstone then m.erase u.key
  else m.insert u.key u.entry

def replay (givesWay : ε → ε → Bool) (m : ExtTreeMap κ ε) (us : List (Update κ ε)) :
    ExtTreeMap κ ε :=
  us.foldl (apply givesWay) m

variable {givesWay : ε → ε → Bool} {m : ExtTreeMap κ ε} {u : Update κ ε}
  {us vs : List (Update κ ε)} {k : κ} {e : ε}

theorem replay_cons : replay givesWay m (u :: us) = replay givesWay (apply givesWay m u) us := rfl

theorem replay_append : replay givesWay m (us ++ vs) = replay givesWay (replay givesWay m us) vs :=
  List.foldl_append

theorem apply_kept (hm : m[u.key]? = some e) (h : givesWay e u.entry = false) :
    apply givesWay m u = m := by
  unfold apply
  rw [if_pos (by simp [hm, h])]

variable [LawfulEqOrd κ]

theorem apply_ne (h : u.key ≠ k) : (apply givesWay m u)[k]? = m[k]? := by
  unfold apply
  split
  · rfl
  · split
    · simp [ExtTreeMap.getElem?_erase, h]
    · simp [ExtTreeMap.getElem?_insert, h]

theorem apply_eq (h : (m[u.key]?).all fun current => givesWay current u.entry) :
    (apply givesWay m u)[u.key]? = if u.tombstone then none else some u.entry := by
  have hnot : ¬ (m[u.key]?).any fun current => !givesWay current u.entry := by
    cases hm : m[u.key]? with
    | none => simp
    | some c => simpa [hm] using h
  unfold apply
  rw [if_neg hnot]
  split <;> simp

/-- An update of a key is passed over for the current entry, or decides the key. -/
theorem apply_cases (givesWay : ε → ε → Bool) (m : ExtTreeMap κ ε) (u : Update κ ε) :
    (∃ c, m[u.key]? = some c ∧ givesWay c u.entry = false ∧
      (apply givesWay m u)[u.key]? = some c) ∨
    (∀ c, m[u.key]? = some c → givesWay c u.entry = true) ∧
      (apply givesWay m u)[u.key]? = if u.tombstone then none else some u.entry := by
  cases hm : m[u.key]? with
  | none => exact Or.inr ⟨fun c hc => (by cases hc), apply_eq (by simp [hm])⟩
  | some c =>
    cases hway : givesWay c u.entry with
    | false => exact Or.inl ⟨c, rfl, hway, by rw [apply_kept hm hway, hm]⟩
    | true =>
      refine Or.inr ⟨fun c' hc' => ?_, apply_eq (by simp [hm, hway])⟩
      obtain rfl := Option.some.inj hc'
      exact hway

theorem replay_ne (h : ∀ u ∈ us, u.key ≠ k) : (replay givesWay m us)[k]? = m[k]? := by
  induction us generalizing m with
  | nil => rfl
  | cons u us ih =>
    change (replay givesWay (apply givesWay m u) us)[k]? = _
    rw [ih fun v hv => h v (List.mem_cons_of_mem u hv), apply_ne (h u List.mem_cons_self)]

/-- What becomes of a key depends only on its own entry. -/
theorem replay_congr {m' : ExtTreeMap κ ε} (h : m[k]? = m'[k]?) :
    (replay givesWay m us)[k]? = (replay givesWay m' us)[k]? := by
  induction us generalizing m m' with
  | nil => exact h
  | cons u us ih =>
    refine ih ?_
    by_cases hk : u.key = k
    · subst hk
      rcases apply_cases givesWay m u with ⟨c, hc, hway, heq⟩ | ⟨hall, heq⟩
      · rw [heq, apply_kept (h.symm.trans hc) hway, ← h, hc]
      · rw [heq, apply_eq]
        rw [← h]
        cases hc : m[u.key]? with
        | none => rfl
        | some c => exact hall c hc
    · rw [apply_ne hk, apply_ne hk, h]

/-- An entry that gives way to no update stays. -/
theorem replay_stays (h : ∀ r ∈ us, r.key = k → givesWay e r.entry = false)
    (hm : m[k]? = some e) : (replay givesWay m us)[k]? = some e := by
  induction us generalizing m with
  | nil => exact hm
  | cons u us ih =>
    refine ih (fun r hr => h r (List.mem_cons_of_mem u hr)) ?_
    by_cases hk : u.key = k
    · subst hk
      rw [apply_kept hm (h u List.mem_cons_self rfl)]
      exact hm
    · rw [apply_ne hk]
      exact hm

/-- Every entry of the rebuilt index was there before or comes from an update that sets it, and no
removal that comes after it replaces it. -/
theorem replay_source (h : (replay givesWay m us)[k]? = some e) :
    (m[k]? = some e ∧
      ∀ v ∈ us, v.key = k → v.tombstone = true → givesWay e v.entry = false) ∨
    ∃ pre u post, us = pre ++ u :: post ∧ u.key = k ∧ u.entry = e ∧ u.tombstone = false ∧
      ∀ v ∈ post, v.key = k → v.tombstone = true → givesWay e v.entry = false := by
  induction us generalizing m with
  | nil => exact Or.inl ⟨h, fun v hv => (by cases hv)⟩
  | cons u us ih =>
    rcases ih h with ⟨hm, hlater⟩ | ⟨pre, v, post, rfl, hv⟩
    · by_cases hk : u.key = k
      · subst hk
        rcases apply_cases givesWay m u with ⟨c, hc, hway, heq⟩ | ⟨-, heq⟩
        · obtain rfl := Option.some.inj (heq.symm.trans hm)
          exact Or.inl ⟨hc, List.forall_mem_cons.mpr ⟨fun _ _ => hway, hlater⟩⟩
        · rw [heq] at hm
          split at hm
          · cases hm
          · next htomb =>
            exact Or.inr ⟨[], u, us, rfl, rfl, Option.some.inj hm, by simpa using htomb, hlater⟩
      · rw [apply_ne hk] at hm
        exact Or.inl ⟨hm, List.forall_mem_cons.mpr ⟨fun hkey => absurd hkey hk, hlater⟩⟩
    · exact Or.inr ⟨u :: pre, v, post, rfl, hv⟩

theorem replay_mem (h : (replay givesWay m us)[k]? = some e) :
    m[k]? = some e ∨ ∃ u ∈ us, u.key = k ∧ u.entry = e ∧ u.tombstone = false := by
  rcases replay_source h with ⟨hm, -⟩ | ⟨pre, u, post, rfl, hkey, he, ht, -⟩
  · exact Or.inl hm
  · exact Or.inr ⟨u, by simp, hkey, he, ht⟩

/-- An update to which every other update of its key gives way, and which gives way to none, decides
the key. -/
theorem replay_greatest (hmem : u ∈ us) (hset : u.tombstone = false)
    (hall : ∀ r ∈ us, r.key = u.key → r = u ∨ givesWay r.entry u.entry = true)
    (hnone : ∀ r ∈ us, r.key = u.key → givesWay u.entry r.entry = false)
    (hm : (m[u.key]?).all fun current => givesWay current u.entry) :
    (replay givesWay m us)[u.key]? = some u.entry := by
  induction us generalizing m with
  | nil => simp at hmem
  | cons v vs ih =>
    rw [replay_cons]
    by_cases hv : v = u
    · subst hv
      refine replay_stays (fun r hr => hnone r (List.mem_cons_of_mem v hr)) ?_
      rw [apply_eq hm, if_neg (by simp [hset])]
    · have hmem' : u ∈ vs := (List.mem_cons.mp hmem).resolve_left (Ne.symm hv)
      refine ih hmem' (fun r hr => hall r (List.mem_cons_of_mem v hr))
        (fun r hr => hnone r (List.mem_cons_of_mem v hr)) ?_
      by_cases hkey : v.key = u.key
      · have hway := (hall v List.mem_cons_self hkey).resolve_left hv
        rw [← hkey] at hm ⊢
        rcases apply_cases givesWay m v with ⟨c, hc, -, heq⟩ | ⟨-, heq⟩
        · rw [heq, ← hc]
          exact hm
        · rw [heq]
          split
          · rfl
          · simpa using hway
      · rw [apply_ne hkey]
        exact hm

/-- A removal that comes after every other update of its key, and to which they all give way, leaves
the key absent. -/
theorem replay_removed {pre post : List (Update κ ε)} (hset : u.tombstone = true)
    (hpre : ∀ r ∈ pre, r.key = u.key → givesWay r.entry u.entry = true)
    (hpost : ∀ r ∈ post, r.key ≠ u.key) (hm : m[u.key]? = none) :
    (replay givesWay m (pre ++ u :: post))[u.key]? = none := by
  rw [replay_append]
  change (replay givesWay (apply givesWay (replay givesWay m pre) u) post)[u.key]? = none
  rw [replay_ne hpost, apply_eq, if_pos hset]
  cases hc : (replay givesWay m pre)[u.key]? with
  | none => rfl
  | some c =>
    rcases replay_mem hc with h | ⟨r, hr, hkey, rfl, -⟩
    · simp [hm] at h
    · exact hpre r hr hkey

section Ordered

/-! When giving way is a strict weak order. -/

variable (hcompare : ∀ a b c, givesWay a b = false → givesWay a c = true → givesWay b c = true)

include hcompare

/-- A key that holds no less than `e` stays present unless a removal comes that `e` gives way to. -/
theorem replay_present (hasymm : ∀ a b, givesWay a b = true → givesWay b a = false) {c : ε}
    (hm : m[k]? = some c) (hc : givesWay c e = false)
    (hlater : ∀ v ∈ us, v.key = k → v.tombstone = true → givesWay e v.entry = false) :
    (replay givesWay m us)[k]? ≠ none := by
  induction us generalizing m c with
  | nil => exact hm ▸ Option.some_ne_none c
  | cons v vs ih =>
    rw [replay_cons]
    have hrest := fun r hr => hlater r (List.mem_cons_of_mem v hr)
    by_cases hk : v.key = k
    · subst hk
      rcases apply_cases givesWay m v with ⟨c', hc', -, heq⟩ | ⟨hway, heq⟩
      · obtain rfl := Option.some.inj (hm.symm.trans hc')
        exact ih heq hc hrest
      · have hlt : givesWay e v.entry = true := hcompare c e v.entry hc (hway c hm)
        have hset : v.tombstone ≠ true := by
          intro ht
          rw [hlater v List.mem_cons_self rfl ht] at hlt
          cases hlt
        rw [if_neg hset] at heq
        exact ih heq (hasymm e v.entry hlt) hrest
    · exact ih (by rw [apply_ne hk, hm]) hc hrest

/-- A key is absent exactly if every update that sets it is followed by a removal that it gives way
to. -/
theorem replay_eq_none_iff (hasymm : ∀ a b, givesWay a b = true → givesWay b a = false)
    (hm : m[k]? = none) : (replay givesWay m us)[k]? = none ↔
      ∀ pre u post, us = pre ++ u :: post → u.key = k → u.tombstone = false →
        ∃ v ∈ post, v.key = k ∧ v.tombstone = true ∧ givesWay u.entry v.entry = true := by
  constructor
  · rintro hnone pre u post rfl rfl hset
    by_contra hno
    rw [replay_append, replay_cons] at hnone
    have hlater : ∀ v ∈ post, v.key = u.key → v.tombstone = true →
        givesWay u.entry v.entry = false := by
      intro v hv hkey ht
      cases hway : givesWay u.entry v.entry with
      | false => rfl
      | true => exact absurd ⟨v, hv, hkey, ht, hway⟩ hno
    rcases apply_cases givesWay (replay givesWay m pre) u with ⟨c, -, hway, heq⟩ | ⟨-, heq⟩
    · exact replay_present hcompare hasymm heq hway hlater hnone
    · rw [if_neg (by simp [hset])] at heq
      have hself : givesWay u.entry u.entry = false := by
        cases hway : givesWay u.entry u.entry with
        | false => rfl
        | true => rw [← hway, hasymm _ _ hway]
      exact replay_present hcompare hasymm heq hself hlater hnone
  · intro h
    cases hfound : (replay givesWay m us)[k]? with
    | none => rfl
    | some e =>
      rcases replay_source hfound with ⟨hsome, -⟩ | ⟨pre, u, post, hus, hkey, rfl, hset, hlater⟩
      · rw [hm] at hsome
        cases hsome
      · obtain ⟨v, hv, hvk, hvt, hway⟩ := h pre u post hus hkey hset
        rw [hlater v hv hvk hvt] at hway
        cases hway

/-- An entry that gives way to some update does not matter: the first such update would also replace
whatever the updates before it have left. -/
theorem replay_overrun {m' : ExtTreeMap κ ε} {a : ε} (hm : m[k]? = some a)
    (hm' : ∀ c, m'[k]? = some c → givesWay a c = false)
    (hsome : ∃ v ∈ us, v.key = k ∧ givesWay a v.entry = true) :
    (replay givesWay m us)[k]? = (replay givesWay m' us)[k]? := by
  induction us generalizing m' m with
  | nil =>
    obtain ⟨v, hv, -⟩ := hsome
    cases hv
  | cons u us ih =>
    rw [replay_cons, replay_cons]
    by_cases hk : u.key = k
    · subst hk
      cases hway : givesWay a u.entry with
      | true =>
        refine replay_congr ?_
        rw [apply_eq (by simp [hm, hway]), apply_eq]
        cases hc : m'[u.key]? with
        | none => rfl
        | some c => exact hcompare a c u.entry (hm' c hc) hway
      | false =>
        refine ih (by rw [apply_kept hm hway, hm]) (fun c hc => ?_) ?_
        · rcases apply_cases givesWay m' u with ⟨c', hc', -, heq⟩ | ⟨-, heq⟩
          · obtain rfl := Option.some.inj (heq.symm.trans hc)
            exact hm' c' hc'
          · rw [heq] at hc
            split at hc
            · cases hc
            · exact Option.some.inj hc ▸ hway
        · obtain ⟨v, hv, hkey, hgives⟩ := hsome
          rcases List.mem_cons.mp hv with rfl | hv
          · rw [hway] at hgives
            cases hgives
          · exact ⟨v, hv, hkey, hgives⟩
    · refine ih (by rw [apply_ne hk, hm]) (by rwa [apply_ne hk]) ?_
      obtain ⟨v, hv, hkey, hgives⟩ := hsome
      rcases List.mem_cons.mp hv with rfl | hv
      · exact absurd hkey hk
      · exact ⟨v, hv, hkey, hgives⟩

/-- Either the key keeps its entry, or what it held does not matter. -/
theorem replay_kept_or_forgotten (m : ExtTreeMap κ ε) (us : List (Update κ ε)) (k : κ) :
    (replay givesWay m us)[k]? = m[k]? ∨
      (replay givesWay m us)[k]? = (replay givesWay ∅ us)[k]? := by
  cases hm : m[k]? with
  | none => exact Or.inr (replay_congr (by simp [hm]))
  | some a =>
    by_cases hsome : ∃ v ∈ us, v.key = k ∧ givesWay a v.entry = true
    · exact Or.inr (replay_overrun hcompare hm (by simp) hsome)
    · refine Or.inl (replay_stays (fun r hr hkey => ?_) hm)
      cases hway : givesWay a r.entry with
      | false => rfl
      | true => exact absurd ⟨r, hr, hkey, hway⟩ hsome

/-- The same updates a second time change nothing. -/
theorem replay_twice (m : ExtTreeMap κ ε) (us : List (Update κ ε)) :
    replay givesWay (replay givesWay m us) us = replay givesWay m us := by
  refine ExtTreeMap.ext_getElem? fun k => ?_
  rcases replay_kept_or_forgotten hcompare (replay givesWay m us) us k with h | h
  · exact h
  · rcases replay_kept_or_forgotten hcompare m us k with hkept | hforgot
    · exact replay_congr hkept
    · rw [h, hforgot]

end Ordered

end Replay
