import Mathlib.Data.List.TakeDrop
import Mathlib.Data.UInt

/-! Fixed-width little-endian numbers over bytes. -/

namespace LittleEndian

/-- The low `w` bytes of `x`, least significant first. -/
def bytesLE : Nat → Nat → List UInt8
  | 0, _ => []
  | w + 1, x => UInt8.ofNat x :: bytesLE w (x / 256)

def natLE : List UInt8 → Nat
  | [] => 0
  | b :: bs => b.toNat + 256 * natLE bs

@[simp] theorem length_bytesLE (w x : Nat) : (bytesLE w x).length = w := by
  induction w generalizing x with
  | zero => rfl
  | succ w ih => simp [bytesLE, ih]

/-- Only the bits that fit are written. -/
theorem bytesLE_add (w x : Nat) : bytesLE w (x + 256 ^ w) = bytesLE w x := by
  induction w generalizing x with
  | zero => rfl
  | succ w ih =>
    have hlow : UInt8.ofNat (x + 256 ^ (w + 1)) = UInt8.ofNat x := by
      refine UInt8.toNat_inj.mp ?_
      rw [UInt8.toNat_ofNat', UInt8.toNat_ofNat', Nat.pow_succ, Nat.add_mul_mod_self_right]
    have hhigh : (x + 256 ^ (w + 1)) / 256 = x / 256 + 256 ^ w := by
      rw [Nat.pow_succ, Nat.add_mul_div_right _ _ (by omega)]
    rw [bytesLE, hlow, hhigh, ih, bytesLE]

theorem natLE_bytesLE (w x : Nat) : natLE (bytesLE w x) = x % 256 ^ w := by
  induction w generalizing x with
  | zero => simp [bytesLE, natLE, Nat.mod_one]
  | succ w ih =>
    rw [bytesLE, natLE, ih, Nat.pow_succ, Nat.mul_comm (256 ^ w) 256, Nat.mod_mul]
    simp

theorem natLE_bytesLE_of_lt {w x : Nat} (h : x < 256 ^ w) : natLE (bytesLE w x) = x := by
  rw [natLE_bytesLE, Nat.mod_eq_of_lt h]

theorem natLE_lt (bs : List UInt8) : natLE bs < 256 ^ bs.length := by
  induction bs with
  | nil => simp [natLE]
  | cons b bs ih =>
    have hb := b.toNat_lt
    rw [natLE, List.length_cons, Nat.pow_succ]
    omega

theorem bytesLE_natLE (bs : List UInt8) : bytesLE bs.length (natLE bs) = bs := by
  induction bs with
  | nil => rfl
  | cons b bs ih =>
    have hb := b.toNat_lt
    rw [List.length_cons, bytesLE, natLE, show (b.toNat + 256 * natLE bs) / 256 = natLE bs by omega,
      ih]
    congr 1
    exact UInt8.toNat_inj.mp (by rw [UInt8.toNat_ofNat']; omega)

end LittleEndian
