import Mathlib.Data.List.TakeDrop
import Mathlib.Data.List.Flatten

/-! Files made of frames: a decoder that reads one frame from the front of a byte string, applied
until it fails. Reading back a file that a matching encoder wrote, followed by a tail that the
decoder refuses, gives exactly the frames and the reason of the refusal. -/

namespace Frames

variable {α β ε : Type*}

/-- What `decode` reads frame by frame from the front of `bs`, each with its length, and the error
that ends it. -/
def readAll (decode : List β → Except ε (α × Nat)) (stop : ε) : Nat → List β →
    List (α × Nat) × ε
  | 0, _ => ([], stop)
  | fuel + 1, bs =>
    match decode bs with
    | .error e => ([], e)
    | .ok (a, size) =>
      let (rest, e) := readAll decode stop fuel (bs.drop size)
      ((a, size) :: rest, e)

/-- `decode` reads back every frame of `P` that `encode` wrote, whatever follows it. -/
structure Codec (P : α → Prop) (encode : α → List β)
    (decode : List β → Except ε (α × Nat)) : Prop where
  pos : ∀ a, 0 < (encode a).length
  read : ∀ a rest, P a → decode (encode a ++ rest) = .ok (a, (encode a).length)

variable {P : α → Prop} {encode : α → List β} {decode : List β → Except ε (α × Nat)}

theorem Codec.length_le (h : Codec P encode decode) (as : List α) :
    as.length ≤ (as.flatMap encode).length := by
  induction as with
  | nil => exact Nat.le_refl _
  | cons a as ih =>
    have hpos := h.pos a
    rw [List.flatMap_cons, List.length_append, List.length_cons]
    omega

/-- The frames are read whatever follows them. -/
theorem Codec.readAll_append (h : Codec P encode decode) (stop : ε) {as : List α} {tail : List β}
    (has : ∀ a ∈ as, P a) {fuel : Nat} (hfuel : as.length ≤ fuel) :
    Frames.readAll decode stop fuel (as.flatMap encode ++ tail) =
      ((as.map fun a => (a, (encode a).length)) ++
          (Frames.readAll decode stop (fuel - as.length) tail).1,
        (Frames.readAll decode stop (fuel - as.length) tail).2) := by
  induction as generalizing fuel with
  | nil => rfl
  | cons a as ih =>
    cases fuel with
    | zero => cases hfuel
    | succ fuel =>
      have hread := h.read a (as.flatMap encode ++ tail) (has a List.mem_cons_self)
      have hrest := ih (fun b hb => has b (List.mem_cons_of_mem a hb))
        (Nat.le_of_succ_le_succ hfuel)
      simp only [List.flatMap_cons, List.append_assoc, Frames.readAll, hread, List.drop_left,
        hrest, List.map_cons, List.length_cons, Nat.add_sub_add_right, List.cons_append]

theorem Codec.readAll (h : Codec P encode decode) (stop : ε) {e : ε} {as : List α} {tail : List β}
    (has : ∀ a ∈ as, P a) (htail : decode tail = .error e) {fuel : Nat}
    (hfuel : (as.flatMap encode ++ tail).length < fuel) :
    readAll decode stop fuel (as.flatMap encode ++ tail) =
      (as.map fun a => (a, (encode a).length), e) := by
  have hlen := h.length_le as
  rw [List.length_append] at hfuel
  obtain ⟨rest, hrest⟩ : ∃ rest, fuel - as.length = rest + 1 := ⟨fuel - as.length - 1, by omega⟩
  rw [h.readAll_append stop has (by omega), hrest, Frames.readAll, htail, List.append_nil]

end Frames
