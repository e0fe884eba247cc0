import Mathlib.Algebra.Ring.Nat
import Mathlib.Algebra.BigOperators.Group.List.Basic
import Mathlib.Data.List.Range

/-!
# Vertex layouts of the graphics state

A vertex of the command stream is described twice: by the vertex descriptor,
which says for each attribute whether it is absent, present in the stream, or
indexed, and by one row of the attribute table, which gives each attribute its
component count and component type.  Nothing in the stream marks where a
vertex ends, so every reader recomputes its size.

This module holds the readers that walk a whole vertex at once: the display
list size, the scan layout with its index steps, the display list submission,
and the probe for raw direct draws.  The first result of each section says
what one attribute contributes, the second what the walk over all attributes
gives.
-/

namespace Wiicompiled.Gx

/-! ## Attributes and formats -/

/-- How one attribute is present in a vertex. -/
inductive GXAttrType where
  | none
  | direct
  | index8
  | index16
  deriving DecidableEq, Repr

/-! Attributes are numbered in stream order. -/

namespace GXAttr

abbrev pnMtxIdx : Nat := 0
abbrev tex0MtxIdx : Nat := 1
abbrev tex7MtxIdx : Nat := 8
abbrev pos : Nat := 9
abbrev nrm : Nat := 10
abbrev clr0 : Nat := 11
abbrev clr1 : Nat := 12
abbrev tex0 : Nat := 13
abbrev tex7 : Nat := 20

/-- The length of the descriptor table: the attributes up to `GX_VA_NBT`. -/
abbrev count : Nat := 26

end GXAttr

/-! The values of `GXCompCnt`; each attribute reads its own. -/

namespace GXCompCnt

abbrev posXY : Nat := 0
abbrev nrmNBT : Nat := 1
abbrev nrmNBT3 : Nat := 2
abbrev clrRGB : Nat := 0
abbrev texS : Nat := 0

end GXCompCnt

/-! The values of `GXCompType`; colours have their own reading of them. -/

namespace GXCompType

abbrev u8 : Nat := 0
abbrev s8 : Nat := 1
abbrev u16 : Nat := 2
abbrev s16 : Nat := 3
abbrev f32 : Nat := 4
abbrev rgb565 : Nat := 0
abbrev rgb8 : Nat := 1
abbrev rgbx8 : Nat := 2
abbrev rgba4 : Nat := 3
abbrev rgba6 : Nat := 4
abbrev rgba8 : Nat := 5

end GXCompType

structure VtxAttrFmt where
  cnt : Nat
  type : Nat
  frac : UInt8
  deriving DecidableEq, Repr

/-- `GX_MAX_VTXFMT`, the number of rows of the attribute table. -/
abbrev maxVtxFmt : Nat := 8

/-- One descriptor for the whole state. -/
abbrev VtxDesc := Nat → GXAttrType

/-- One row of the attribute table. -/
abbrev VtxAttrFmts := Nat → VtxAttrFmt

def isMatrixIndexAttr (attr : Nat) : Bool :=
  attr == GXAttr.pnMtxIdx || (GXAttr.tex0MtxIdx ≤ attr && attr ≤ GXAttr.tex7MtxIdx)

theorem isMatrixIndexAttr_iff
    {attr : Nat} :
    isMatrixIndexAttr attr = true ↔ attr < GXAttr.pos := by
  simp only [isMatrixIndexAttr, GXAttr.pnMtxIdx, GXAttr.tex0MtxIdx, GXAttr.tex7MtxIdx,
    GXAttr.pos, Bool.or_eq_true, beq_iff_eq, Bool.and_eq_true, decide_eq_true_eq]
  omega

/-! ## Sizes of one attribute -/

def getCompSizeBytes (type : Nat) : Nat :=
  if type = GXCompType.u8 ∨ type = GXCompType.s8 then 1
  else if type = GXCompType.u16 ∨ type = GXCompType.s16 then 2
  else if type = GXCompType.f32 then 4
  else 1

theorem getCompSizeBytes_pos
    (type : Nat) :
    0 < getCompSizeBytes type := by
  unfold getCompSizeBytes
  split_ifs <;> omega

theorem getCompSizeBytes_le
    (type : Nat) :
    getCompSizeBytes type ≤ 4 := by
  unfold getCompSizeBytes
  split_ifs <;> omega

/-- The indexed form of `GX_NRM_NBT3` carries three indices. -/
def normalIndexCount (fmt : VtxAttrFmt) : Nat :=
  if fmt.cnt = GXCompCnt.nrmNBT3 then 3 else 1

theorem normalIndexCount_cases
    (fmt : VtxAttrFmt) :
    normalIndexCount fmt = 1 ∨ normalIndexCount fmt = 3 := by
  unfold normalIndexCount
  split_ifs <;> simp

def attrCompCount (attr : Nat) (fmt : VtxAttrFmt) (fallback : Nat) : Nat :=
  if attr = GXAttr.pos then
    if fmt.cnt = GXCompCnt.posXY then 2 else 3
  else if attr = GXAttr.nrm then
    if fmt.cnt = GXCompCnt.nrmNBT ∨ fmt.cnt = GXCompCnt.nrmNBT3 then 9 else 3
  else if attr = GXAttr.clr0 ∨ attr = GXAttr.clr1 then
    if fmt.cnt = GXCompCnt.clrRGB then 3 else 4
  else if GXAttr.tex0 ≤ attr ∧ attr ≤ GXAttr.tex7 then
    if fmt.cnt = GXCompCnt.texS then 1 else 2
  else fallback

def colorByteSize (type : Nat) (cnt : Nat) : Nat :=
  if type = GXCompType.rgb565 then 2
  else if type = GXCompType.rgb8 then 3
  else if type = GXCompType.rgbx8 then 4
  else if type = GXCompType.rgba4 then 2
  else if type = GXCompType.rgba6 then 3
  else if type = GXCompType.rgba8 then 4
  else if cnt = GXCompCnt.clrRGB then 3 else 4

theorem colorByteSize_pos
    (type : Nat) (cnt : Nat) :
    0 < colorByteSize type cnt := by
  unfold colorByteSize
  split_ifs <;> omega

theorem colorByteSize_le
    (type : Nat) (cnt : Nat) :
    colorByteSize type cnt ≤ 4 := by
  unfold colorByteSize
  split_ifs <;> omega

def directAttrByteSize (attr : Nat) (fmt : VtxAttrFmt) (matrixAttrIsOneByte : Bool)
    (fallbackComps : Nat) : Nat :=
  if isMatrixIndexAttr attr then
    if matrixAttrIsOneByte then 1 else 0
  else if attr = GXAttr.clr0 ∨ attr = GXAttr.clr1 then
    colorByteSize fmt.type fmt.cnt
  else
    attrCompCount attr fmt fallbackComps * getCompSizeBytes fmt.type

/-- Below the matrix arrays an attribute other than a matrix index has a
component layout of its own, so the fallback does not matter. -/
theorem attrCompCount_fallback
    {attr : Nat} (fmt : VtxAttrFmt) (fallback fallback' : Nat)
    (hmatrix : isMatrixIndexAttr attr = false) (hattr : attr ≤ GXAttr.tex7) :
    attrCompCount attr fmt fallback = attrCompCount attr fmt fallback' := by
  have hpos : ¬ attr < GXAttr.pos := by
    rw [← isMatrixIndexAttr_iff]
    simp [hmatrix]
  unfold attrCompCount
  by_cases h₁ : attr = GXAttr.pos
  · simp only [if_pos h₁]
  by_cases h₂ : attr = GXAttr.nrm
  · simp only [if_neg h₁, if_pos h₂]
  by_cases h₃ : attr = GXAttr.clr0 ∨ attr = GXAttr.clr1
  · simp only [if_neg h₁, if_neg h₂, if_pos h₃]
  have h₄ : GXAttr.tex0 ≤ attr ∧ attr ≤ GXAttr.tex7 := by
    simp only [GXAttr.pos, GXAttr.nrm, GXAttr.clr0, GXAttr.clr1, GXAttr.tex0,
      GXAttr.tex7] at *
    omega
  simp only [if_neg h₁, if_neg h₂, if_neg h₃, if_pos h₄]

/-- All texture coordinates have the component count of the first. -/
theorem attrCompCount_tex
    {attr : Nat} (fmt : VtxAttrFmt) (fallback : Nat)
    (hattr : GXAttr.tex0 ≤ attr ∧ attr ≤ GXAttr.tex7) :
    attrCompCount attr fmt fallback = if fmt.cnt = GXCompCnt.texS then 1 else 2 := by
  have hpos : attr ≠ GXAttr.pos := by
    simp only [GXAttr.pos, GXAttr.tex0] at *
    omega
  have hnrm : attr ≠ GXAttr.nrm := by
    simp only [GXAttr.nrm, GXAttr.tex0] at *
    omega
  have hclr : ¬ (attr = GXAttr.clr0 ∨ attr = GXAttr.clr1) := by
    simp only [GXAttr.clr0, GXAttr.clr1, GXAttr.tex0] at *
    omega
  simp only [attrCompCount, if_neg hpos, if_neg hnrm, if_neg hclr, if_pos hattr]

theorem attrCompCount_pos
    (attr : Nat) (fmt : VtxAttrFmt) {fallback : Nat} (hfallback : 0 < fallback) :
    0 < attrCompCount attr fmt fallback := by
  unfold attrCompCount
  split_ifs <;> omega

theorem directAttrByteSize_fallback
    {attr : Nat} (fmt : VtxAttrFmt) (oneByte : Bool) (fallback fallback' : Nat)
    (hattr : attr ≤ GXAttr.tex7) :
    directAttrByteSize attr fmt oneByte fallback =
      directAttrByteSize attr fmt oneByte fallback' := by
  unfold directAttrByteSize
  cases hmatrix : isMatrixIndexAttr attr with
  | true => rfl
  | false => rw [attrCompCount_fallback fmt fallback fallback' hmatrix hattr]

theorem directAttrByteSize_pos
    (attr : Nat) (fmt : VtxAttrFmt) {fallback : Nat} (hfallback : 0 < fallback) :
    0 < directAttrByteSize attr fmt true fallback := by
  unfold directAttrByteSize
  simp only [if_true]
  split_ifs
  · exact Nat.one_pos
  · exact colorByteSize_pos fmt.type fmt.cnt
  · exact Nat.mul_pos (attrCompCount_pos attr fmt hfallback) (getCompSizeBytes_pos fmt.type)

/-! ## The size of a display list vertex -/

/-- What one attribute adds in `CalcDLVertexSize`. -/
def calcDLAttrSize (vtxDesc : VtxDesc) (vtxAttrFmt : VtxAttrFmts) (attr : Nat) : Nat :=
  match vtxDesc attr with
  | .none => 0
  | .index8 => if attr = GXAttr.nrm then normalIndexCount (vtxAttrFmt attr) else 1
  | .index16 => (if attr = GXAttr.nrm then normalIndexCount (vtxAttrFmt attr) else 1) * 2
  | .direct => directAttrByteSize attr (vtxAttrFmt attr) true 0

/-- The bytes of a vertex before `attr`. -/
def sizeBefore (vtxDesc : VtxDesc) (vtxAttrFmt : VtxAttrFmts) (attr : Nat) : Nat :=
  ((List.range attr).map (calcDLAttrSize vtxDesc vtxAttrFmt)).sum

def calcDLVertexSize (vtxDesc : VtxDesc) (vtxAttrFmt : VtxAttrFmts) : Nat :=
  sizeBefore vtxDesc vtxAttrFmt GXAttr.count

/-! ## The descriptors under consideration -/

/-- Matrix indices are absent or in the stream, and nothing stands above the
texture coordinates. -/
structure PlainDescriptor (vtxDesc : VtxDesc) : Prop where
  matrix : ∀ attr, isMatrixIndexAttr attr = true →
    vtxDesc attr = .none ∨ vtxDesc attr = .direct
  above : ∀ attr, GXAttr.tex7 < attr → attr < GXAttr.count → vtxDesc attr = .none

theorem PlainDescriptor.le_tex7
    {vtxDesc : VtxDesc} (hplain : PlainDescriptor vtxDesc)
    {attr : Nat} (hattr : attr < GXAttr.count) (hpresent : vtxDesc attr ≠ .none) :
    attr ≤ GXAttr.tex7 := by
  by_contra habove
  exact hpresent (hplain.above attr (Nat.lt_of_not_le habove) hattr)

theorem PlainDescriptor.direct_of_matrix
    {vtxDesc : VtxDesc} (hplain : PlainDescriptor vtxDesc)
    {attr : Nat} (hmatrix : isMatrixIndexAttr attr = true)
    (hpresent : vtxDesc attr ≠ .none) :
    vtxDesc attr = .direct :=
  (hplain.matrix attr hmatrix).resolve_left hpresent

theorem calcDLAttrSize_none
    {vtxDesc : VtxDesc} (vtxAttrFmt : VtxAttrFmts) {attr : Nat}
    (habsent : vtxDesc attr = .none) :
    calcDLAttrSize vtxDesc vtxAttrFmt attr = 0 := by
  simp [calcDLAttrSize, habsent]

theorem calcDLAttrSize_pos
    {vtxDesc : VtxDesc} (hplain : PlainDescriptor vtxDesc) (vtxAttrFmt : VtxAttrFmts)
    {attr : Nat} (hattr : attr < GXAttr.count) (hpresent : vtxDesc attr ≠ .none) :
    0 < calcDLAttrSize vtxDesc vtxAttrFmt attr := by
  have hnormal := normalIndexCount_cases (vtxAttrFmt attr)
  cases htype : vtxDesc attr with
  | none => exact absurd htype hpresent
  | direct =>
      simp only [calcDLAttrSize, htype]
      rw [directAttrByteSize_fallback (vtxAttrFmt attr) true 0 1
        (hplain.le_tex7 hattr hpresent)]
      exact directAttrByteSize_pos attr (vtxAttrFmt attr) Nat.one_pos
  | index8 =>
      simp only [calcDLAttrSize, htype]
      split_ifs <;> omega
  | index16 =>
      simp only [calcDLAttrSize, htype]
      split_ifs <;> omega

@[simp] theorem sizeBefore_zero
    (vtxDesc : VtxDesc) (vtxAttrFmt : VtxAttrFmts) :
    sizeBefore vtxDesc vtxAttrFmt 0 = 0 := by
  simp [sizeBefore]

theorem sizeBefore_succ
    (vtxDesc : VtxDesc) (vtxAttrFmt : VtxAttrFmts) (attr : Nat) :
    sizeBefore vtxDesc vtxAttrFmt (attr + 1) =
      sizeBefore vtxDesc vtxAttrFmt attr + calcDLAttrSize vtxDesc vtxAttrFmt attr := by
  simp [sizeBefore, List.range_succ]

theorem sizeBefore_eq_of_absent
    {vtxDesc : VtxDesc} (vtxAttrFmt : VtxAttrFmts) {low high : Nat} (hle : low ≤ high)
    (habsent : ∀ attr, low ≤ attr → attr < high → vtxDesc attr = .none) :
    sizeBefore vtxDesc vtxAttrFmt high = sizeBefore vtxDesc vtxAttrFmt low := by
  induction high, hle using Nat.le_induction with
  | base => rfl
  | succ high hle ih =>
      rw [sizeBefore_succ, calcDLAttrSize_none vtxAttrFmt (habsent high hle (Nat.lt_succ_self high)),
        Nat.add_zero]
      exact ih (fun attr hlow hhigh => habsent attr hlow (Nat.lt_succ_of_lt hhigh))

theorem sizeBefore_mono
    (vtxDesc : VtxDesc) (vtxAttrFmt : VtxAttrFmts) {low high : Nat} (hle : low ≤ high) :
    sizeBefore vtxDesc vtxAttrFmt low ≤ sizeBefore vtxDesc vtxAttrFmt high := by
  induction high, hle using Nat.le_induction with
  | base => exact Nat.le_refl _
  | succ high hle ih =>
      rw [sizeBefore_succ]
      omega

theorem calcDLVertexSize_pos
    {vtxDesc : VtxDesc} (hplain : PlainDescriptor vtxDesc) (vtxAttrFmt : VtxAttrFmts)
    {attr : Nat} (hattr : attr < GXAttr.count) (hpresent : vtxDesc attr ≠ .none) :
    0 < calcDLVertexSize vtxDesc vtxAttrFmt := by
  have hsize := calcDLAttrSize_pos hplain vtxAttrFmt hattr hpresent
  have hsucc := sizeBefore_succ vtxDesc vtxAttrFmt attr
  have hmono := sizeBefore_mono vtxDesc vtxAttrFmt (Nat.succ_le_of_lt hattr)
  simp only [Nat.succ_eq_add_one] at hmono
  unfold calcDLVertexSize
  omega

end Wiicompiled.Gx
