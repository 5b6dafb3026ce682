import Mathlib.Algebra.Group.Nat.Defs
import Mathlib.Data.List.Lex
import Mathlib.Data.Char

/-! Decimal numerals of a fixed width. A string of digits is its value padded to its length, so
numerals of one width are equal when their values are, and compare as strings as their values do. -/

namespace Numerals

/-- The number that a string of digits stands for. -/
def value (cs : List Char) : Nat := Nat.ofDigitChars 10 cs 0

/-- The decimal digits of `n` after as many zeros as bring them to `width` characters. -/
def pad (width n : Nat) : List Char :=
  List.replicate (width - (Nat.toDigits 10 n).length) '0' ++ Nat.toDigits 10 n

variable {as bs : List Char} {width n : Nat}

@[simp] theorem value_nil : value [] = 0 := rfl

theorem value_cons (c : Char) (cs : List Char) :
    value (c :: cs) = 10 ^ cs.length * (c.toNat - '0'.toNat) + value cs := by
  rw [value, Nat.ofDigitChars_cons, Nat.ofDigitChars_eq_ofDigitChars_zero, Nat.mul_zero,
    Nat.zero_add]
  rfl

theorem value_lt (h : ∀ c ∈ as, c.isDigit) : value as < 10 ^ as.length := by
  induction as with
  | nil => simp
  | cons c as ih =>
    obtain ⟨hc, has⟩ := List.forall_mem_cons.mp h
    have hle : c.toNat - '0'.toNat ≤ 9 := by
      have := (Char.isDigit_iff_toNat.mp hc).2
      simp only [Char.reduceToNat] at this ⊢
      omega
    have hrest := ih has
    have hfirst := Nat.mul_le_mul_left (10 ^ as.length) hle
    rw [value_cons, List.length_cons, Nat.pow_succ]
    omega

/-- The first digit decides, and then the rest. -/
theorem lt_iff_value_lt (ha : ∀ c ∈ as, c.isDigit) (hb : ∀ c ∈ bs, c.isDigit)
    (hlen : as.length = bs.length) : as < bs ↔ value as < value bs := by
  induction as generalizing bs with
  | nil =>
    obtain rfl := List.length_eq_zero_iff.mp hlen.symm
    simp
  | cons a as ih =>
    cases bs with
    | nil => cases hlen
    | cons b bs =>
      have hlen : as.length = bs.length := Nat.succ.inj hlen
      obtain ⟨had, has⟩ := List.forall_mem_cons.mp ha
      obtain ⟨hbd, hbs⟩ := List.forall_mem_cons.mp hb
      have hla := value_lt has
      have hlb := value_lt hbs
      have hzero := (Char.isDigit_iff_toNat.mp had).1
      have hzero' := (Char.isDigit_iff_toNat.mp hbd).1
      have hord : a < b ↔ a.toNat < b.toNat := Iff.rfl
      rw [List.cons_lt_cons_iff, ih has hbs hlen, value_cons, value_cons, hlen, hord,
        ← Char.toNat_inj]
      rw [hlen] at hla
      rcases Nat.lt_trichotomy a.toNat b.toNat with hlt | heq | hgt
      · have hle : a.toNat - '0'.toNat + 1 ≤ b.toNat - '0'.toNat := by omega
        have := Nat.mul_le_mul_left (10 ^ bs.length) hle
        rw [Nat.mul_add] at this
        omega
      · rw [heq]
        omega
      · have hle : b.toNat - '0'.toNat + 1 ≤ a.toNat - '0'.toNat := by omega
        have := Nat.mul_le_mul_left (10 ^ bs.length) hle
        rw [Nat.mul_add] at this
        omega

theorem eq_of_value_eq (ha : ∀ c ∈ as, c.isDigit) (hb : ∀ c ∈ bs, c.isDigit)
    (hlen : as.length = bs.length) (h : value as = value bs) : as = bs := by
  rcases lt_trichotomy as bs with hlt | heq | hgt
  · have := (lt_iff_value_lt ha hb hlen).mp hlt
    omega
  · exact heq
  · have := (lt_iff_value_lt hb ha hlen.symm).mp hgt
    omega

theorem isDigit_pad : ∀ c ∈ pad width n, c.isDigit := by
  intro c hc
  rcases List.mem_append.mp hc with hzero | hdigit
  · rw [(List.mem_replicate.mp hzero).2]
    rfl
  · exact Nat.isDigit_of_mem_toDigits (by omega) (by omega) hdigit

@[simp] theorem value_pad : value (pad width n) = n := by
  rw [value, pad, Nat.ofDigitChars_append, Nat.ofDigitChars_replicate_zero, Nat.mul_zero,
    Nat.ofDigitChars_ten_toDigits]

theorem pad_ne_nil : pad width n ≠ [] := by
  simp [pad]

theorem length_pad (hwidth : 0 < width) (hn : n < 10 ^ width) : (pad width n).length = width := by
  have hlen := (Nat.length_toDigits_le_iff (by omega) hwidth).mpr hn
  rw [pad, List.length_append, List.length_replicate]
  omega

/-- Only the padded numeral of a number has its width. -/
theorem eq_pad_iff (ha : ∀ c ∈ as, c.isDigit) (hwidth : 0 < width) (hn : value as < 10 ^ width) :
    as = pad width (value as) ↔ as.length = width := by
  have hlen := length_pad hwidth hn
  constructor
  · intro h
    rw [h, hlen]
  · intro h
    exact eq_of_value_eq ha isDigit_pad (h.trans hlen.symm) value_pad.symm

/-- What follows two strings of one length does not matter for their order, if it is the same. -/
theorem append_lt_append_iff (hlen : as.length = bs.length) (cs : List Char) :
    as ++ cs < bs ++ cs ↔ as < bs := by
  induction as generalizing bs with
  | nil =>
    obtain rfl := List.length_eq_zero_iff.mp hlen.symm
    simp
  | cons a as ih =>
    cases bs with
    | nil => cases hlen
    | cons b bs =>
      rw [List.cons_append, List.cons_append, List.cons_lt_cons_iff, List.cons_lt_cons_iff,
        ih (Nat.succ.inj hlen)]

theorem pad_lt_pad_iff {m : Nat} (hwidth : 0 < width) (hm : m < 10 ^ width) (hn : n < 10 ^ width) :
    pad width m < pad width n ↔ m < n := by
  rw [lt_iff_value_lt isDigit_pad isDigit_pad ((length_pad hwidth hm).trans
    (length_pad hwidth hn).symm), value_pad, value_pad]

end Numerals
