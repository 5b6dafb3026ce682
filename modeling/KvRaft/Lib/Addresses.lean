import Mathlib.Algebra.Group.Int.Defs
import Mathlib.Algebra.Group.Nat.Defs
import Mathlib.Data.List.DropRight

/-! Network addresses as text: a host and a port joined by a colon, with brackets around a host that
has colons of its own, and signed decimal numerals for the port. What is joined splits into the same
host and port, and a numeral reads back as its number. -/

namespace Addresses

abbrev Text := List Char

inductive AddrError
  | missingPort
  | tooManyColons
  | missingBracket
  | unexpectedOpen
  | unexpectedClose
deriving DecidableEq, Repr

inductive NumError
  | invalid
  | outOfRange
deriving DecidableEq, Repr

/-- White space in the sense of Unicode. -/
def isSpace (c : Char) : Bool :=
  c.toNat ∈ [0x09, 0x0a, 0x0b, 0x0c, 0x0d, 0x20, 0x85, 0xa0, 0x1680, 0x2028, 0x2029, 0x202f, 0x205f,
    0x3000] || (0x2000 ≤ c.toNat && c.toNat ≤ 0x200a)

def trimSpace (s : Text) : Text := (s.dropWhile isSpace).rdropWhile isSpace

def indexByte (s : Text) (c : Char) : Option Nat := s.findIdx? (· == c)

def lastIndexByte (s : Text) (c : Char) : Option Nat :=
  (s.reverse.findIdx? (· == c)).map (s.length - 1 - ·)

/-- The host before the last colon, with the positions from where no bracket may open or close. -/
def hostBefore (s : Text) (i : Nat) : Except AddrError (Text × Nat × Nat) :=
  if s.head? = some '[' then
    match indexByte s ']' with
    | none => .error .missingBracket
    | some stop =>
      -- the bracket has to close just before the colon
      if stop + 1 = s.length then .error .missingPort
      else if stop + 1 = i then .ok ((s.take stop).drop 1, 1, stop + 1)
      else if s[stop + 1]? = some ':' then .error .tooManyColons
      else .error .missingPort
  else if (indexByte (s.take i) ':').isSome then .error .tooManyColons
  else .ok (s.take i, 0, 0)

/-- The host and the port of an address; the port starts after the last colon. -/
def splitHostPort (s : Text) : Except AddrError (Text × Text) :=
  match lastIndexByte s ':' with
  | none => .error .missingPort
  | some i =>
    match hostBefore s i with
    | .error err => .error err
    | .ok (host, j, k) =>
      if (indexByte (s.drop j) '[').isSome then .error .unexpectedOpen
      else if (indexByte (s.drop k) ']').isSome then .error .unexpectedClose
      else .ok (host, s.drop (i + 1))

def joinHostPort (host port : Text) : Text :=
  if (indexByte host ':').isSome then '[' :: (host ++ ']' :: ':' :: port)
  else host ++ ':' :: port

/-- Digits behind the number `n`, read from left to right as an unsigned number of 64 bits: of a
character that is no digit and a number that has grown too large, the first is the error. -/
def parseUint : Nat → Text → Except NumError Nat
  | n, [] => .ok n
  | n, c :: rest =>
    if ¬ c.isDigit then .error .invalid
    else if 10 * n + (c.toNat - '0'.toNat) < 2 ^ 64 then
      parseUint (10 * n + (c.toNat - '0'.toNat)) rest
    else .error .outOfRange

/-- A decimal numeral with an optional sign, if it is a signed number of 64 bits. -/
def atoi (s : Text) : Except NumError Int :=
  let negative := s.head? = some '-'
  let digits := if s.head? = some '-' ∨ s.head? = some '+' then s.tail else s
  if digits = [] then .error .invalid
  else
    match parseUint 0 digits with
    | .error err => .error err
    | .ok n =>
      if negative then if n ≤ 2 ^ 63 then .ok (-(n : Int)) else .error .outOfRange
      else if n < 2 ^ 63 then .ok (n : Int)
      else .error .outOfRange

def itoa (z : Int) : Text :=
  if z < 0 then '-' :: Nat.toDigits 10 (-z).toNat else Nat.toDigits 10 z.toNat

variable {s a b host port : Text} {c : Char}

/-! ### Positions -/

theorem isSome_indexByte : (indexByte s c).isSome ↔ c ∈ s := by
  simp [indexByte]

theorem indexByte_eq_none (h : c ∉ s) : indexByte s c = none := by
  rw [← Option.not_isSome_iff_eq_none, isSome_indexByte]
  exact h

theorem indexByte_append (h : c ∉ a) : indexByte (a ++ c :: b) c = some a.length := by
  have hnone : a.findIdx? (· == c) = none := indexByte_eq_none h
  simp [indexByte, List.findIdx?_append, hnone, List.findIdx?_cons]

theorem lastIndexByte_append (h : c ∉ b) : lastIndexByte (a ++ c :: b) c = some a.length := by
  have hrev : (a ++ c :: b).reverse = b.reverse ++ c :: a.reverse := by simp
  have hfirst : (b.reverse ++ c :: a.reverse).findIdx? (· == c) = some b.reverse.length :=
    indexByte_append (by simpa using h)
  rw [lastIndexByte, hrev, hfirst, Option.map_some, List.length_append, List.length_cons,
    List.length_reverse]
  congr 1
  omega

/-! ### White space -/

theorem trimSpace_eq_self (hfirst : ∀ c ∈ s.head?, isSpace c = false)
    (hlast : ∀ c ∈ s.getLast?, isSpace c = false) : trimSpace s = s := by
  have hdrop : s.dropWhile isSpace = s := by
    cases s with
    | nil => rfl
    | cons x s => rw [List.dropWhile_cons_of_neg (by simp [hfirst x rfl])]
  rw [trimSpace, hdrop, List.rdropWhile_eq_self_iff]
  intro hne
  rw [hlast _ (List.getLast?_eq_some_getLast hne)]
  simp

/-! ### Addresses -/

/-- A host that is written between no brackets but those around the whole. -/
def PlainHost (host : Text) : Prop := '[' ∉ host ∧ ']' ∉ host

instance (host : Text) : Decidable (PlainHost host) := inferInstanceAs (Decidable (_ ∧ _))

/-- A text that can stand after the colon. -/
def PlainPort (port : Text) : Prop := ':' ∉ port ∧ '[' ∉ port ∧ ']' ∉ port

theorem hostBefore_bracketed (hh : PlainHost host) :
    hostBefore ('[' :: (host ++ ']' :: ':' :: port)) (host.length + 2) =
      .ok (host, 1, host.length + 2) := by
  have hindex : indexByte ('[' :: (host ++ ']' :: ':' :: port)) ']' =
      some ('[' :: host).length := by
    have hmem : ']' ∉ '[' :: host := by simp [hh.2]
    exact indexByte_append hmem
  rw [hostBefore, if_pos (by rfl), hindex]
  simp

theorem hostBefore_plain (hh : PlainHost host) (hcolon : ':' ∉ host) :
    hostBefore (host ++ ':' :: port) host.length = .ok (host, 0, 0) := by
  have hhead : (host ++ ':' :: port).head? ≠ some '[' := by
    cases host with
    | nil => simp
    | cons x host =>
      rintro h
      exact hh.1 (by simp [Option.some.inj h])
  rw [hostBefore, if_neg hhead, List.take_left, indexByte_eq_none hcolon]
  rfl

/-- What has been joined is split again. -/
theorem splitHostPort_joinHostPort (hh : PlainHost host) (hp : PlainPort port) :
    splitHostPort (joinHostPort host port) = .ok (host, port) := by
  rw [joinHostPort]
  split
  · have hlast : lastIndexByte ('[' :: (host ++ ']' :: ':' :: port)) ':' =
        some (host.length + 2) := by
      have := lastIndexByte_append (a := '[' :: host ++ [']']) hp.1
      simpa using this
    have hopen : '[' ∉ host ++ ']' :: ':' :: port := by simp [hh.1, hp.2.1]
    have hclose : ']' ∉ ':' :: port := by simp [hp.2.2]
    simp [splitHostPort, hlast, hostBefore_bracketed hh, indexByte_eq_none hopen,
      indexByte_eq_none hclose]
  · next hcolon =>
    rw [isSome_indexByte] at hcolon
    have hopen : '[' ∉ host ++ ':' :: port := by simp [hh.1, hp.2.1]
    have hclose : ']' ∉ host ++ ':' :: port := by simp [hh.2, hp.2.2]
    rw [splitHostPort, lastIndexByte_append hp.1]
    simp [hostBefore_plain hh hcolon, indexByte_eq_none hopen, indexByte_eq_none hclose]

theorem joinHostPort_ne_nil : joinHostPort host port ≠ [] := by
  rw [joinHostPort]
  split <;> simp

theorem notMem_joinHostPort (hc : c ∉ ['[', ']', ':']) (hh : c ∉ host) (hp : c ∉ port) :
    c ∉ joinHostPort host port := by
  rw [joinHostPort]
  split <;> simp_all

/-- A joined address has no white space around it if its host has none before it. -/
theorem trimSpace_joinHostPort (hh : ∀ c ∈ host.head?, isSpace c = false)
    (hp : ∀ c ∈ port, isSpace c = false) :
    trimSpace (joinHostPort host port) = joinHostPort host port := by
  have hfirst : ∀ c ∈ (joinHostPort host port).head?, isSpace c = false := by
    rw [joinHostPort]
    split
    · simp [isSpace]
    · cases host with
      | nil => simp [isSpace]
      | cons x host => simpa using hh
  have hlast : ∀ c ∈ (':' :: port).getLast?, isSpace c = false := by
    intro c hc
    rcases List.mem_cons.mp (List.mem_of_getLast? hc) with rfl | hmem
    · decide
    · exact hp c hmem
  refine trimSpace_eq_self hfirst fun c hc => hlast c ?_
  rw [joinHostPort] at hc
  split at hc
  · rw [show '[' :: (host ++ ']' :: ':' :: port) = ('[' :: host ++ [']']) ++ ':' :: port by simp,
      List.getLast?_append] at hc
    simpa using hc
  · rw [List.getLast?_append] at hc
    simpa using hc

/-! ### Numerals -/

theorem isDigit_toDigits {n : Nat} (hc : c ∈ Nat.toDigits 10 n) : c.isDigit :=
  Nat.isDigit_of_mem_toDigits (by omega) (by omega) hc

theorem parseUint_eq {n : Nat} (hs : ∀ c ∈ s, c.isDigit) (h : Nat.ofDigitChars 10 s n < 2 ^ 64) :
    parseUint n s = .ok (Nat.ofDigitChars 10 s n) := by
  induction s generalizing n with
  | nil => rfl
  | cons c s ih =>
    obtain ⟨hc, hs⟩ := List.forall_mem_cons.mp hs
    rw [Nat.ofDigitChars_cons] at h ⊢
    have hle : 10 * n + (c.toNat - '0'.toNat) < 2 ^ 64 := by
      rw [Nat.ofDigitChars_eq_ofDigitChars_zero] at h
      refine Nat.lt_of_le_of_lt ?_ h
      exact (Nat.le_mul_of_pos_left _ (Nat.pow_pos (by omega))).trans (Nat.le_add_right _ _)
    rw [parseUint, if_neg (not_not.mpr hc), if_pos hle]
    exact ih hs h

theorem parseUint_toDigits {n : Nat} (h : n < 2 ^ 64) :
    parseUint 0 (Nat.toDigits 10 n) = .ok n := by
  have hvalue : Nat.ofDigitChars 10 (Nat.toDigits 10 n) 0 = n := Nat.ofDigitChars_ten_toDigits
  rw [parseUint_eq (fun c hc => isDigit_toDigits hc) (by rwa [hvalue]), hvalue]

theorem head_toDigits_ne {n : Nat} (hc : c.isDigit = false) :
    (Nat.toDigits 10 n).head? ≠ some c := by
  intro h
  rw [isDigit_toDigits (List.mem_of_head? h)] at hc
  cases hc

/-- The numeral of a number of 64 bits reads as the number. -/
theorem atoi_itoa {z : Int} (hlow : -2 ^ 63 ≤ z) (hhigh : z < 2 ^ 63) : atoi (itoa z) = .ok z := by
  rw [itoa]
  split
  · next hneg =>
    simp only [atoi, List.head?_cons, true_or, if_true, List.tail_cons, Nat.toDigits_ne_nil,
      if_false, parseUint_toDigits (show (-z).toNat < 2 ^ 64 by omega)]
    rw [if_pos (by omega)]
    congr 1
    omega
  · next hpos =>
    simp only [atoi, head_toDigits_ne (show '-'.isDigit = false from rfl),
      head_toDigits_ne (show '+'.isDigit = false from rfl), or_self, if_false,
      Nat.toDigits_ne_nil, parseUint_toDigits (show z.toNat < 2 ^ 64 by omega)]
    rw [if_pos (by omega)]
    congr 1
    omega

/-- A numeral is made of digits and at most one sign. -/
theorem mem_itoa {z : Int} (hc : c ∈ itoa z) : c.isDigit ∨ c = '-' := by
  rw [itoa] at hc
  split at hc
  · rcases List.mem_cons.mp hc with rfl | hmem
    · exact Or.inr rfl
    · exact Or.inl (isDigit_toDigits hmem)
  · exact Or.inl (isDigit_toDigits hc)

theorem notMem_itoa {z : Int} (hdigit : c.isDigit = false) (hc : c ≠ '-') : c ∉ itoa z := by
  intro hmem
  rcases mem_itoa hmem with h | h
  · rw [h] at hdigit
    cases hdigit
  · exact hc h

theorem plainPort_itoa (z : Int) : PlainPort (itoa z) :=
  ⟨notMem_itoa rfl (by decide), notMem_itoa rfl (by decide), notMem_itoa rfl (by decide)⟩

theorem isSpace_itoa {z : Int} (hc : c ∈ itoa z) : isSpace c = false := by
  rcases mem_itoa hc with h | rfl
  · obtain ⟨hlow, hhigh⟩ := Char.isDigit_iff_toNat.mp h
    simp only [Char.reduceToNat] at hlow hhigh
    simp only [isSpace, List.mem_cons, List.not_mem_nil, or_false, Bool.or_eq_false_iff,
      decide_eq_false_iff_not, Bool.and_eq_false_iff]
    omega
  · decide

end Addresses
