import Mathlib.Data.Fintype.EquivFin
import Mathlib.Data.List.TakeDrop
import Mathlib.Logic.Function.Basic

/-! Checksums that fold bytes into a register. If a byte never takes two registers to the same one,
and two different bytes never take a register to the same one, then two messages that differ in one
byte have different checksums. The register of a cyclic redundancy check is of this kind whenever
its polynomial has the bit that a shift brings in. Such a register can also be forged: as many bits
as it has take it from any value to any other. -/

namespace Checksum

section Fold

variable {α β : Type*} {step : β → α → β}

theorem foldl_injective (hstep : ∀ a, Function.Injective (step · a)) (as : List α) :
    Function.Injective (as.foldl step) := by
  induction as with
  | nil => exact fun _ _ h => h
  | cons a as ih => exact fun c c' h => hstep a (ih h)

theorem foldl_set_ne (hstep : ∀ a, Function.Injective (step · a))
    (hbyte : ∀ c, Function.Injective (step c)) (c : β) {as : List α} {i : Nat} {a : α}
    (hi : i < as.length) (ha : a ≠ as[i]) : (as.set i a).foldl step c ≠ as.foldl step c := by
  have hold : as.foldl step c =
      (as.drop (i + 1)).foldl step (step ((as.take i).foldl step c) as[i]) := by
    conv_lhs => rw [← List.take_append_drop i as, List.drop_eq_getElem_cons hi]
    rw [List.foldl_append, List.foldl_cons]
  rw [List.set_eq_take_append_cons_drop, if_pos hi, List.foldl_append, List.foldl_cons, hold]
  exact fun h => ha (hbyte _ (foldl_injective hstep _ h))

end Fold

section Register

variable {w : Nat} {poly : BitVec w}

/-- One shift of a register to the right, with the polynomial added when a bit falls out. -/
def shift (poly c : BitVec w) : BitVec w := if c.getLsbD 0 then (c >>> 1) ^^^ poly else c >>> 1

/-- `n` shifts. -/
def shifts (poly : BitVec w) : Nat → BitVec w → BitVec w
  | 0, c => c
  | n + 1, c => shifts poly n (shift poly c)

/-- The highest bit after the shift tells which bit fell out. -/
theorem getLsbD_shift (hpoly : poly.getLsbD (w - 1) = true) (c : BitVec w) :
    (shift poly c).getLsbD (w - 1) = c.getLsbD 0 := by
  have hhigh : (c >>> 1).getLsbD (w - 1) = false := by
    rw [BitVec.getLsbD_ushiftRight]
    exact BitVec.getLsbD_of_ge c _ (by omega)
  unfold shift
  split
  · next h => rw [BitVec.getLsbD_xor, hhigh, hpoly, h]; rfl
  · next h => rw [hhigh, Bool.eq_false_iff.mpr h]

theorem shift_injective (hpoly : poly.getLsbD (w - 1) = true) :
    Function.Injective (shift poly) := by
  intro c c' h
  have hlow : c.getLsbD 0 = c'.getLsbD 0 := by
    rw [← getLsbD_shift hpoly c, ← getLsbD_shift hpoly c', h]
  have hrest : c >>> 1 = c' >>> 1 := by
    unfold shift at h
    rw [hlow] at h
    split at h
    · exact (BitVec.xor_left_inj poly).mp h
    · exact h
  refine BitVec.eq_of_getLsbD_eq fun i _ => ?_
  cases i with
  | zero => exact hlow
  | succ i =>
    have := congrArg (fun x : BitVec w => x.getLsbD i) hrest
    simpa [Nat.add_comm] using this

theorem shifts_injective (hpoly : poly.getLsbD (w - 1) = true) (n : Nat) :
    Function.Injective (shifts poly n) := by
  induction n with
  | zero => exact fun _ _ h => h
  | succ n ih => exact fun c c' h => shift_injective hpoly (ih h)

theorem shifts_add (a b : Nat) (c : BitVec w) :
    shifts poly (a + b) c = shifts poly b (shifts poly a c) := by
  induction a generalizing c with
  | zero => rw [Nat.zero_add]; rfl
  | succ a ih => rw [Nat.add_right_comm]; exact ih _

/-- Bits that do not fall out only move. -/
theorem shift_xor {x z : BitVec w} (hz : z.getLsbD 0 = false) :
    shift poly (x ^^^ z) = shift poly x ^^^ (z >>> 1) := by
  have hlow : (x ^^^ z).getLsbD 0 = x.getLsbD 0 := by simp [hz]
  unfold shift
  rw [hlow, BitVec.ushiftRight_xor_distrib]
  split
  · rw [BitVec.xor_assoc, BitVec.xor_comm (z >>> 1), ← BitVec.xor_assoc]
  · rfl

theorem shifts_xor {n : Nat} {x z : BitVec w} (hz : ∀ i < n, z.getLsbD i = false) :
    shifts poly n (x ^^^ z) = shifts poly n x ^^^ (z >>> n) := by
  induction n generalizing x z with
  | zero => simp [shifts]
  | succ n ih =>
    have hrest : ∀ i < n, (z >>> 1).getLsbD i = false := by
      intro i hi
      rw [BitVec.getLsbD_ushiftRight, Nat.add_comm]
      exact hz (i + 1) (by omega)
    rw [shifts, shift_xor (hz 0 (by omega)), ih hrest, ← BitVec.shiftRight_add, Nat.add_comm 1]
    rfl

/-- The first `n` groups of `k` bits, the lowest first. -/
def groups (k : Nat) : Nat → BitVec w → List (BitVec k)
  | 0, _ => []
  | n + 1, z => z.setWidth k :: groups k n (z >>> k)

@[simp] theorem length_groups (k n : Nat) (z : BitVec w) : (groups k n z).length = n := by
  induction n generalizing z with
  | zero => rfl
  | succ n ih => rw [groups, List.length_cons, ih]

/-- Folding the groups in one by one is as good as adding all bits before the first shift. -/
theorem foldl_groups (k n : Nat) (c z : BitVec w) : shifts poly (k * n) (c ^^^ z) =
    (groups k n z).foldl (fun c g => shifts poly k (c ^^^ g.setWidth w)) c ^^^ (z >>> (k * n)) := by
  induction n generalizing c z with
  | zero => simp [shifts, groups]
  | succ n ih =>
    -- the lowest group goes through the shifts, the others move down
    have hsplit : c ^^^ z = c ^^^ (z.setWidth k).setWidth w ^^^ ((z >>> k) <<< k) := by
      rw [BitVec.xor_assoc]
      congr 1
      refine BitVec.eq_of_getLsbD_eq fun i hi => ?_
      by_cases hik : i < k
      · simp [hi, hik]
      · simp [hi, hik, Nat.add_sub_cancel' (Nat.not_lt.mp hik)]
    have hhigh : ∀ i < k, ((z >>> k) <<< k).getLsbD i = false := by
      intro i hi
      simp [hi]
    have hdown : ((z >>> k) <<< k) >>> k = z >>> k := by
      refine BitVec.eq_of_getLsbD_eq fun i hi => ?_
      by_cases hik : k + i < w
      · simp [hik]
      · simp [hik, BitVec.getLsbD_of_ge z (k + i) (Nat.not_lt.mp hik)]
    rw [Nat.mul_succ, Nat.add_comm, shifts_add, hsplit, shifts_xor hhigh, hdown, ih,
      BitVec.shiftRight_add]
    rfl

/-- Every register is reached from every other. -/
theorem exists_foldl_groups (hpoly : poly.getLsbD (w - 1) = true) {k n : Nat} (hn : w ≤ k * n)
    (c c' : BitVec w) : ∃ z : BitVec w,
      (groups k n z).foldl (fun c g => shifts poly k (c ^^^ g.setWidth w)) c = c' := by
  have : Finite (BitVec w) := Finite.of_injective BitVec.toFin fun _ _ => BitVec.toFin_inj.mp
  obtain ⟨x, hx⟩ := Finite.surjective_of_injective (shifts_injective hpoly (k * n)) c'
  refine ⟨c ^^^ x, ?_⟩
  have hnone : (c ^^^ x) >>> (k * n) = 0#w := BitVec.ushiftRight_eq_zero hn
  calc _ = shifts poly (k * n) (c ^^^ (c ^^^ x)) := by
        rw [foldl_groups, hnone, BitVec.xor_zero]
    _ = c' := by rw [← BitVec.xor_assoc, BitVec.xor_self, BitVec.zero_xor, hx]

end Register

end Checksum
