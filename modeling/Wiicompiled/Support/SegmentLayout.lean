import Wiicompiled.Support.ByteImage

/-!
# Pieces that are copied into an image

Pieces are copied into an image one after the other.  What a piece puts there stays when no
later piece covers it, and what no piece covers is as it was.
-/

namespace SegmentLayout

open ByteImage

variable {α : Type*}

/-- Copies pieces to their offsets, in order. -/
def copyAll : List (ℕ × List α) → List α → List α
  | [], image => image
  | piece :: rest, image => copyAll rest (splice image piece.1 piece.2)

/-- The pieces lie in the image. -/
def Fit (pieces : List (ℕ × List α)) (image : List α) : Prop :=
  ∀ piece ∈ pieces, piece.1 + piece.2.length ≤ image.length

/-- No piece covers an offset. -/
def Uncovered (pieces : List (ℕ × List α)) (i : ℕ) : Prop :=
  ∀ piece ∈ pieces, i < piece.1 ∨ piece.1 + piece.2.length ≤ i

variable {pieces before after : List (ℕ × List α)} {piece : ℕ × List α} {image : List α} {i : ℕ}

theorem Fit.splice (h : Fit (piece :: pieces) image) :
    Fit pieces (splice image piece.1 piece.2) := by
  intro other hother
  rw [length_splice (h piece List.mem_cons_self)]
  exact h other (List.mem_cons_of_mem _ hother)

@[simp]
theorem length_copyAll (h : Fit pieces image) :
    (copyAll pieces image).length = image.length := by
  induction pieces generalizing image with
  | nil => rfl
  | cons piece rest ih =>
      rw [copyAll, ih h.splice, length_splice (h piece List.mem_cons_self)]

theorem getElem?_copyAll_of_uncovered (h : Fit pieces image) (hi : Uncovered pieces i) :
    (copyAll pieces image)[i]? = image[i]? := by
  induction pieces generalizing image with
  | nil => rfl
  | cons piece rest ih =>
      rw [copyAll, ih h.splice fun other hother => hi other (List.mem_cons_of_mem _ hother),
        getElem?_splice_of_outside (h piece List.mem_cons_self) (hi piece List.mem_cons_self)]

theorem copyAll_append (before after : List (ℕ × List α)) (image : List α) :
    copyAll (before ++ after) image = copyAll after (copyAll before image) := by
  induction before generalizing image with
  | nil => rfl
  | cons piece rest ih => exact ih _

/-- The entries of a piece are there when no later piece covers them. -/
theorem getElem?_copyAll_of_last (h : Fit (before ++ piece :: after) image)
    (hi : i < piece.2.length) (hafter : Uncovered after (piece.1 + i)) :
    (copyAll (before ++ piece :: after) image)[piece.1 + i]? = piece.2[i]? := by
  have hbefore : Fit before image := fun other hother => h other (List.mem_append_left _ hother)
  have hrest : Fit (piece :: after) (copyAll before image) := by
    intro other hother
    rw [length_copyAll hbefore]
    exact h other (List.mem_append_right _ hother)
  rw [copyAll_append, copyAll, getElem?_copyAll_of_uncovered hrest.splice hafter,
    getElem?_splice_of_inside (hrest piece List.mem_cons_self) hi]

end SegmentLayout
