import Mathlib.Data.List.Nodup
import Mathlib.Logic.Function.Basic

/-! A table of the values recorded last. The queue holds their keys in the order of recording; a
value that is taken leaves the table, and its key stays in the queue. Recording into a full queue
drops the oldest key, whether its value was taken or not. -/

structure Recent (κ α : Type*) where
  table : κ → Option α
  queue : List κ

namespace Recent

variable {κ α : Type*} [DecidableEq κ] {bound : Nat} {r : Recent κ α} {key k : κ} {a b : α}
  {later : List κ}

def evict (r : Recent κ α) : Recent κ α :=
  match r.queue with
  | [] => r
  | oldest :: rest => ⟨Function.update r.table oldest none, rest⟩

def record (bound : Nat) (r : Recent κ α) (key : κ) (a : α) : Recent κ α :=
  let r := if r.queue.length ≥ bound then r.evict else r
  ⟨Function.update r.table key (some a), r.queue ++ [key]⟩

def take (r : Recent κ α) (key : κ) : Recent κ α :=
  { r with table := Function.update r.table key none }

theorem of_update {f : κ → Option α} {x : Option α} (h : Function.update f key x k = some a) :
    k = key ∧ x = some a ∨ k ≠ key ∧ f k = some a := by
  by_cases hk : k = key
  · subst hk
    rw [Function.update_self] at h
    exact Or.inl ⟨rfl, h⟩
  · rw [Function.update_of_ne hk] at h
    exact Or.inr ⟨hk, h⟩

/-- What is left in a table after a removal was there before. -/
theorem of_update_none {f : κ → Option α} (h : Function.update f key none k = some a) :
    k ≠ key ∧ f k = some a :=
  (of_update h).resolve_left fun hnone => by cases hnone.2

/-- The values belong to keys in the queue, which holds at most `bound` keys, none twice. -/
structure Bounded (bound : Nat) (r : Recent κ α) : Prop where
  among : ∀ key a, r.table key = some a → key ∈ r.queue
  nodup : r.queue.Nodup
  length : r.queue.length ≤ bound

theorem Bounded.take (h : r.Bounded bound) (key : κ) : (r.take key).Bounded bound :=
  ⟨fun k a hk => h.among k a (of_update_none hk).2, h.nodup, h.length⟩

theorem Bounded.evict (h : r.Bounded bound) : r.evict.Bounded bound := by
  obtain ⟨table, queue⟩ := r
  cases queue with
  | nil => exact h
  | cons oldest rest =>
    refine ⟨fun k a hk => ?_, (List.nodup_cons.mp h.nodup).2, Nat.le_of_succ_le h.length⟩
    obtain ⟨hne, hk⟩ := of_update_none hk
    exact (List.mem_cons.mp (h.among k a hk)).resolve_left hne

theorem queue_evict : r.evict.queue = r.queue.tail := by
  obtain ⟨table, queue⟩ := r
  cases queue with
  | nil => rfl
  | cons oldest rest => rfl

theorem mem_queue_record (h : k ∈ (r.record bound key a).queue) : k ∈ r.queue ∨ k = key := by
  have hmem : k ∈ (if r.queue.length ≥ bound then r.evict else r).queue ++ [key] := h
  rw [List.mem_append, List.mem_singleton] at hmem
  refine hmem.imp_left fun hin => ?_
  split at hin
  · rw [queue_evict] at hin
    exact List.mem_of_mem_tail hin
  · exact hin

theorem Bounded.record (h : r.Bounded bound) (hpos : 0 < bound) (hnew : key ∉ r.queue) :
    (r.record bound key a).Bounded bound := by
  have hroom : ∀ r' : Recent κ α, r'.Bounded bound → key ∉ r'.queue → r'.queue.length < bound →
      Bounded bound ⟨Function.update r'.table key (some a), r'.queue ++ [key]⟩ := by
    intro r' h' hnew' hlt
    refine ⟨fun k b hk => ?_, ?_, ?_⟩
    · by_cases heq : k = key
      · exact List.mem_append_right _ (List.mem_singleton.mpr heq)
      · exact List.mem_append_left _ (h'.among k b ((Function.update_of_ne heq ..).symm.trans hk))
    · exact List.nodup_append.mpr ⟨h'.nodup, List.nodup_singleton key, fun x hx y hy hxy =>
        hnew' (List.mem_singleton.mp hy ▸ hxy ▸ hx)⟩
    · rw [List.length_append, List.length_singleton]
      omega
  unfold Recent.record
  by_cases hfull : r.queue.length ≥ bound
  · simp only [hfull, if_true]
    refine hroom _ h.evict (fun hin => hnew ?_) ?_
    · rw [queue_evict] at hin
      exact List.mem_of_mem_tail hin
    · rw [queue_evict, List.length_tail]
      have := h.length
      omega
  · simp only [hfull, if_false]
    exact hroom _ h hnew (by omega)

/-- The value of `key` is in the table, and `later` are the keys recorded since. -/
def Since (r : Recent κ α) (key : κ) (a : α) (later : List κ) : Prop :=
  r.table key = some a ∧ ∃ earlier, r.queue = earlier ++ key :: later

theorem since_record : (r.record bound key a).Since key a [] :=
  ⟨Function.update_self .., _, rfl⟩

theorem Since.take (h : r.Since key a later) (hk : k ≠ key) : (r.take k).Since key a later :=
  ⟨(Function.update_of_ne hk.symm ..).trans h.1, h.2⟩

/-- A value is not dropped by the recordings that follow before there are `bound` of them. -/
theorem Since.record (h : r.Since key a later) (hb : r.Bounded bound) (hk : k ≠ key)
    (hlater : later.length + 1 < bound) : (r.record bound k b).Since key a (later ++ [k]) := by
  obtain ⟨htable, earlier, hqueue⟩ := h
  unfold Recent.record
  by_cases hfull : r.queue.length ≥ bound
  · simp only [hfull, if_true]
    cases earlier with
    | nil =>
      rw [hqueue, List.nil_append, List.length_cons] at hfull
      omega
    | cons oldest rest =>
      have hne : key ≠ oldest := by
        rintro rfl
        have hnodup := hqueue ▸ hb.nodup
        exact (List.nodup_cons.mp hnodup).1 (by simp)
      have hevict : r.evict = ⟨Function.update r.table oldest none, rest ++ key :: later⟩ := by
        rw [evict, hqueue]
        rfl
      rw [hevict]
      exact ⟨(Function.update_of_ne hk.symm ..).trans ((Function.update_of_ne hne ..).trans htable),
        rest, by simp⟩
  · simp only [hfull, if_false]
    exact ⟨(Function.update_of_ne hk.symm ..).trans htable, earlier, by rw [hqueue]; simp⟩

end Recent
