import Wiicompiled.Gx.VertexLayout

/-!
# Readers that walk a whole vertex

The scan of a display list, the submission of its vertices, and the probe for
raw direct draws each add up the attributes of a vertex on their own.  Each is
stated here for one attribute first; the walk over all attributes then agrees
with `calcDLVertexSize`, and the scan and the submission read their indices at
the same places of the vertex.
-/

namespace Wiicompiled.Gx

/-- The attributes in stream order, the range of every walk. -/
def allAttrs : List Nat := List.range GXAttr.count

theorem mem_allAttrs
    {attr : Nat} :
    attr ∈ allAttrs ↔ attr < GXAttr.count := by
  simp [allAttrs]

/-! ## Reading a vertex -/

def readBE16 (ptr : Nat → UInt8) (offset : Nat) : Nat :=
  (ptr offset).toNat * 256 + (ptr (offset + 1)).toNat

def readBE32 (ptr : Nat → UInt8) (offset : Nat) : Nat :=
  readBE16 ptr offset * 65536 + readBE16 ptr (offset + 2)

/-- A raw component out of the stream. -/
def readBECompRaw (ptr : Nat → UInt8) (offset : Nat) (type : Nat) : Nat :=
  if type = GXCompType.u8 ∨ type = GXCompType.s8 then (ptr offset).toNat
  else if type = GXCompType.u16 ∨ type = GXCompType.s16 then readBE16 ptr offset
  else if type = GXCompType.f32 then readBE32 ptr offset
  else (ptr offset).toNat

/-- The index that stands at `offset`, of one byte or of two. -/
def readIndex (ptr : Nat → UInt8) (index16 : Bool) (offset : Nat) : Nat :=
  if index16 then readBE16 ptr offset else (ptr offset).toNat

/-- What the submission of a vertex hands to the graphics library.  An indexed
attribute keeps the places its indices were read from. -/
inductive Submission where
  | matrixIndex (attr : Nat) (idx : UInt8)
  | indexed (attr : Nat) (index16 : Bool) (offsets indices : List Nat)
  | components (attr : Nat) (fmt : VtxAttrFmt) (raws : List Nat)
  | color (attr : Nat) (fmt : VtxAttrFmt) (bytes : List UInt8)
  deriving DecidableEq

/-- The indices a submission looks up, with their places. -/
def Submission.indexReads : Submission → Option (Nat × Bool × List Nat × List Nat)
  | .indexed attr index16 offsets indices => some (attr, index16, offsets, indices)
  | _ => none

/-! ## Submission -/

/-- `count` components of one size, read from `offset` on. -/
def readComps (ptr : Nat → UInt8) (offset : Nat) (fmt : VtxAttrFmt) (count : Nat) : List Nat :=
  (List.range count).map fun i =>
    readBECompRaw ptr (offset + i * getCompSizeBytes fmt.type) fmt.type

/-- One indexed attribute: the places of its indices and their values. -/
def submitIndexed (ptr : Nat → UInt8) (attr : Nat) (fmt : VtxAttrFmt) (index16 : Bool)
    (offset : Nat) : Submission :=
  let width := if index16 then 2 else 1
  let offsets :=
    if attr = GXAttr.nrm ∧ normalIndexCount fmt = 3 then
      [offset, offset + width, offset + 2 * width]
    else [offset]
  .indexed attr index16 offsets (offsets.map (readIndex ptr index16))

/-- One attribute of `SubmitDLVertex`: the offset after it and what it submits. -/
def submitDLAttr (ptr : Nat → UInt8) (vtxDesc : VtxDesc) (vtxAttrFmt : VtxAttrFmts)
    (attr offset : Nat) : Nat × List Submission :=
  let fmt := vtxAttrFmt attr
  match vtxDesc attr with
  | .none => (offset, [])
  | .index8 =>
      let indexCount := if attr = GXAttr.nrm then normalIndexCount fmt else 1
      (offset + indexCount, [submitIndexed ptr attr fmt false offset])
  | .index16 =>
      let indexCount := if attr = GXAttr.nrm then normalIndexCount fmt else 1
      (offset + indexCount * 2, [submitIndexed ptr attr fmt true offset])
  | .direct =>
      if attr ≤ GXAttr.tex7MtxIdx then
        (offset + 1, [.matrixIndex attr (ptr offset)])
      else if attr = GXAttr.pos then
        let count := attrCompCount GXAttr.pos fmt 0
        (offset + count * getCompSizeBytes fmt.type,
          [.components attr fmt (readComps ptr offset fmt count)])
      else if attr = GXAttr.nrm then
        let count := attrCompCount GXAttr.nrm fmt 0
        (offset + count * getCompSizeBytes fmt.type,
          [.components attr fmt (readComps ptr offset fmt count)])
      else if attr = GXAttr.clr0 ∨ attr = GXAttr.clr1 then
        let size := colorByteSize fmt.type fmt.cnt
        (offset + size, [.color attr fmt ((List.range size).map fun i => ptr (offset + i))])
      else if GXAttr.tex0 ≤ attr ∧ attr ≤ GXAttr.tex7 then
        -- all texture coordinates share the layout of the first
        let count := attrCompCount GXAttr.tex0 fmt 0
        (offset + count * getCompSizeBytes fmt.type,
          [.components attr fmt (readComps ptr offset fmt count)])
      else (offset, [])

/-- The loop of `SubmitDLVertex`. -/
def submitDLAttrs (ptr : Nat → UInt8) (vtxDesc : VtxDesc) (vtxAttrFmt : VtxAttrFmts) :
    List Nat → Nat → Nat × List Submission
  | [], offset => (offset, [])
  | attr :: attrs, offset =>
      let (next, submitted) := submitDLAttr ptr vtxDesc vtxAttrFmt attr offset
      let (last, others) := submitDLAttrs ptr vtxDesc vtxAttrFmt attrs next
      (last, submitted ++ others)

/-- The bytes of the vertex and the submissions made from them. -/
def submitDLVertex (ptr : Nat → UInt8) (vtxDesc : VtxDesc) (vtxAttrFmt : VtxAttrFmts) :
    Nat × List Submission :=
  submitDLAttrs ptr vtxDesc vtxAttrFmt allAttrs 0

/-! ## The scan layout -/

structure ScanAttrStep where
  attr : Nat
  offset : Nat
  size : Nat
  indexed : Bool
  index16 : Bool
  deriving DecidableEq, Repr

def scanAttrStep (vtxDesc : VtxDesc) (vtxAttrFmt : VtxAttrFmts) (attr offset : Nat) :
    ScanAttrStep :=
  let fmt := vtxAttrFmt attr
  if isMatrixIndexAttr attr then
    { attr := attr, offset := offset, size := 1, indexed := false, index16 := false }
  else
    match vtxDesc attr with
    | .index8 =>
        { attr := attr, offset := offset
          size := if attr = GXAttr.nrm then normalIndexCount fmt else 1
          indexed := true, index16 := false }
    | .index16 =>
        { attr := attr, offset := offset
          size := (if attr = GXAttr.nrm then normalIndexCount fmt else 1) * 2
          indexed := true, index16 := true }
    | .direct =>
        -- matrix attributes are handled above
        { attr := attr, offset := offset, size := directAttrByteSize attr fmt false 0
          indexed := false, index16 := false }
    | .none =>
        { attr := attr, offset := offset, size := 0, indexed := false, index16 := false }

/-- The loop of `BuildScanVertexLayout`: the indexed steps and the size. -/
def scanAttrs (vtxDesc : VtxDesc) (vtxAttrFmt : VtxAttrFmts) :
    List Nat → Nat → List ScanAttrStep × Nat
  | [], vertexSize => ([], vertexSize)
  | attr :: attrs, vertexSize =>
      if vtxDesc attr = .none then
        scanAttrs vtxDesc vtxAttrFmt attrs vertexSize
      else
        let step := scanAttrStep vtxDesc vtxAttrFmt attr vertexSize
        if step.size = 0 then
          scanAttrs vtxDesc vtxAttrFmt attrs vertexSize
        else
          let (steps, size) := scanAttrs vtxDesc vtxAttrFmt attrs (vertexSize + step.size)
          (if step.indexed then step :: steps else steps, size)

def buildScanVertexLayout (vtxDesc : VtxDesc) (vtxAttrFmt : VtxAttrFmts) :
    List ScanAttrStep × Nat :=
  scanAttrs vtxDesc vtxAttrFmt allAttrs 0

/-- The places in a vertex that `ScanDLVerticesMaxIndices` reads for a step. -/
def ScanAttrStep.offsets (step : ScanAttrStep) : List Nat :=
  let indexSize := if step.index16 then 2 else 1
  (List.range (max 1 (step.size / indexSize))).map fun i => step.offset + i * indexSize

/-- The indices it reads there, as a submission would report them. -/
def ScanAttrStep.indexReads (step : ScanAttrStep) (ptr : Nat → UInt8) :
    Nat × Bool × List Nat × List Nat :=
  (step.attr, step.index16, step.offsets, step.offsets.map (readIndex ptr step.index16))

/-! ## The probe for raw direct draws -/

/-- The loop of `TryGetRawDirectFifoVertexSize`. -/
def rawDirectAttrs (vtxDesc : VtxDesc) (vtxAttrFmt : VtxAttrFmts) :
    List Nat → Nat → Option Nat
  | [], vertexSize => some vertexSize
  | attr :: attrs, vertexSize =>
      match vtxDesc attr with
      | .none => rawDirectAttrs vtxDesc vtxAttrFmt attrs vertexSize
      | .direct =>
          let attrBytes := directAttrByteSize attr (vtxAttrFmt attr) true 1
          if attrBytes = 0 then none
          else rawDirectAttrs vtxDesc vtxAttrFmt attrs (vertexSize + attrBytes)
      | .index8 | .index16 => none

def tryGetRawDirectFifoVertexSize (vtxDesc : VtxDesc) (vtxAttrFmt : Nat → VtxAttrFmts)
    (fmt : Nat) : Option Nat :=
  if maxVtxFmt ≤ fmt then none
  else
    match rawDirectAttrs vtxDesc (vtxAttrFmt fmt) allAttrs 0 with
    | none => none
    | some vertexSize => if vertexSize ≠ 0 then some vertexSize else none

/-! ## One attribute -/

/-- The bytes that a list of attributes adds to a vertex. -/
def attrsSize (vtxDesc : VtxDesc) (vtxAttrFmt : VtxAttrFmts) (attrs : List Nat) : Nat :=
  (attrs.map (calcDLAttrSize vtxDesc vtxAttrFmt)).sum

theorem calcDLVertexSize_eq_attrsSize
    (vtxDesc : VtxDesc) (vtxAttrFmt : VtxAttrFmts) :
    calcDLVertexSize vtxDesc vtxAttrFmt = attrsSize vtxDesc vtxAttrFmt allAttrs :=
  rfl

@[simp] theorem attrsSize_cons
    (vtxDesc : VtxDesc) (vtxAttrFmt : VtxAttrFmts) (attr : Nat) (attrs : List Nat) :
    attrsSize vtxDesc vtxAttrFmt (attr :: attrs) =
      calcDLAttrSize vtxDesc vtxAttrFmt attr + attrsSize vtxDesc vtxAttrFmt attrs := by
  simp [attrsSize]

/-- An index step covers the indices of its attribute, one or three of them. -/
theorem submitIndexed_indexReads
    (ptr : Nat → UInt8) (attr : Nat) (fmt : VtxAttrFmt) (index16 : Bool) (offset : Nat) :
    (submitIndexed ptr attr fmt index16 offset).indexReads =
      some (ScanAttrStep.indexReads
        { attr := attr, offset := offset
          size := (if attr = GXAttr.nrm then normalIndexCount fmt else 1) *
            (if index16 then 2 else 1)
          indexed := true, index16 := index16 } ptr) := by
  have hcount := normalIndexCount_cases fmt
  simp only [submitIndexed, Submission.indexReads, ScanAttrStep.indexReads,
    ScanAttrStep.offsets]
  by_cases hnrm : attr = GXAttr.nrm
  · rcases hcount with hone | hthree
    · cases index16 <;> simp [hnrm, hone]
    · cases index16 <;> simp [hnrm, hthree, List.range_succ]
  · cases index16 <;> simp [hnrm]

section

variable {vtxDesc : VtxDesc} (hplain : PlainDescriptor vtxDesc)

include hplain

theorem submitDLAttr_fst
    (ptr : Nat → UInt8) (vtxAttrFmt : VtxAttrFmts) {attr : Nat}
    (hattr : attr < GXAttr.count) (offset : Nat) :
    (submitDLAttr ptr vtxDesc vtxAttrFmt attr offset).1 =
      offset + calcDLAttrSize vtxDesc vtxAttrFmt attr := by
  cases htype : vtxDesc attr with
  | none => simp [submitDLAttr, calcDLAttrSize, htype]
  | index8 => simp [submitDLAttr, calcDLAttrSize, htype]
  | index16 => simp [submitDLAttr, calcDLAttrSize, htype]
  | direct =>
      have htex : attr ≤ GXAttr.tex7 := hplain.le_tex7 hattr (by simp [htype])
      simp only [submitDLAttr, calcDLAttrSize, htype, directAttrByteSize]
      by_cases hmatrix : attr ≤ GXAttr.tex7MtxIdx
      · have hidx : isMatrixIndexAttr attr = true :=
          isMatrixIndexAttr_iff.mpr (Nat.lt_succ_of_le hmatrix)
        simp only [if_pos hmatrix, hidx, if_true]
      · have hidx : isMatrixIndexAttr attr = false := by
          rw [Bool.eq_false_iff, ne_eq, isMatrixIndexAttr_iff]
          exact fun hlt => hmatrix (Nat.le_of_lt_succ hlt)
        simp only [if_neg hmatrix, hidx, Bool.false_eq_true, if_false]
        by_cases hpos : attr = GXAttr.pos
        · subst hpos
          rfl
        by_cases hnrm : attr = GXAttr.nrm
        · subst hnrm
          rfl
        by_cases hclr : attr = GXAttr.clr0 ∨ attr = GXAttr.clr1
        · simp only [if_neg hpos, if_neg hnrm, if_pos hclr]
        have hcoord : GXAttr.tex0 ≤ attr ∧ attr ≤ GXAttr.tex7 := by
          simp only [GXAttr.pos, GXAttr.nrm, GXAttr.clr0, GXAttr.clr1, GXAttr.tex0,
            GXAttr.tex7, GXAttr.tex7MtxIdx] at *
          omega
        have hfirst : GXAttr.tex0 ≤ GXAttr.tex0 ∧ GXAttr.tex0 ≤ GXAttr.tex7 := by
          decide
        simp only [if_neg hpos, if_neg hnrm, if_neg hclr, if_pos hcoord,
          attrCompCount_tex (vtxAttrFmt attr) 0 hcoord,
          attrCompCount_tex (vtxAttrFmt attr) 0 hfirst]

theorem scanAttrStep_size
    (vtxAttrFmt : VtxAttrFmts) {attr : Nat} (hpresent : vtxDesc attr ≠ .none)
    (offset : Nat) :
    (scanAttrStep vtxDesc vtxAttrFmt attr offset).size =
      calcDLAttrSize vtxDesc vtxAttrFmt attr := by
  cases hmatrix : isMatrixIndexAttr attr with
  | true =>
      have hdirect := hplain.direct_of_matrix hmatrix hpresent
      simp [scanAttrStep, calcDLAttrSize, hmatrix, hdirect, directAttrByteSize]
  | false =>
      cases htype : vtxDesc attr with
      | none => exact absurd htype hpresent
      | direct => simp [scanAttrStep, calcDLAttrSize, hmatrix, htype, directAttrByteSize]
      | index8 => simp [scanAttrStep, calcDLAttrSize, hmatrix, htype]
      | index16 => simp [scanAttrStep, calcDLAttrSize, hmatrix, htype]

/-- An indexed step and the submission of its attribute read the same indices
at the same places; a direct attribute has no index step. -/
theorem submitDLAttr_indexReads
    (ptr : Nat → UInt8) (vtxAttrFmt : VtxAttrFmts) {attr : Nat}
    (hpresent : vtxDesc attr ≠ .none) (offset : Nat) :
    (submitDLAttr ptr vtxDesc vtxAttrFmt attr offset).2.filterMap Submission.indexReads =
      if (scanAttrStep vtxDesc vtxAttrFmt attr offset).indexed then
        [(scanAttrStep vtxDesc vtxAttrFmt attr offset).indexReads ptr]
      else [] := by
  cases hmatrix : isMatrixIndexAttr attr with
  | true =>
      have hle : attr ≤ GXAttr.tex7MtxIdx :=
        Nat.le_of_lt_succ (isMatrixIndexAttr_iff.mp hmatrix)
      have hdirect := hplain.direct_of_matrix hmatrix hpresent
      simp [scanAttrStep, submitDLAttr, hmatrix, hdirect, hle, Submission.indexReads]
  | false =>
      cases htype : vtxDesc attr with
      | none => exact absurd htype hpresent
      | direct =>
          simp only [scanAttrStep, submitDLAttr, hmatrix, htype, Bool.false_eq_true, if_false]
          split_ifs <;> simp [Submission.indexReads]
      | index8 =>
          simp [scanAttrStep, submitDLAttr, hmatrix, htype, submitIndexed_indexReads]
      | index16 =>
          simp [scanAttrStep, submitDLAttr, hmatrix, htype, submitIndexed_indexReads]

/-! ## The walks over all attributes -/

theorem submitDLAttrs_fst
    (ptr : Nat → UInt8) (vtxAttrFmt : VtxAttrFmts) (attrs : List Nat)
    (hattrs : ∀ attr ∈ attrs, attr < GXAttr.count) (offset : Nat) :
    (submitDLAttrs ptr vtxDesc vtxAttrFmt attrs offset).1 =
      offset + attrsSize vtxDesc vtxAttrFmt attrs := by
  induction attrs generalizing offset with
  | nil => rfl
  | cons attr attrs ih =>
      have hhead := submitDLAttr_fst hplain ptr vtxAttrFmt
        (hattrs attr List.mem_cons_self) offset
      simp only [submitDLAttrs]
      rw [ih (fun other hother => hattrs other (List.mem_cons_of_mem attr hother)), hhead,
        attrsSize_cons, Nat.add_assoc]

/-- The submission consumes the size of the vertex, whatever its bytes are. -/
theorem submitDLVertex_fst
    (ptr : Nat → UInt8) (vtxAttrFmt : VtxAttrFmts) :
    (submitDLVertex ptr vtxDesc vtxAttrFmt).1 = calcDLVertexSize vtxDesc vtxAttrFmt := by
  unfold submitDLVertex
  rw [submitDLAttrs_fst hplain ptr vtxAttrFmt allAttrs
    (fun _ hattr => mem_allAttrs.mp hattr), Nat.zero_add,
    calcDLVertexSize_eq_attrsSize]

theorem scanAttrs_snd
    (vtxAttrFmt : VtxAttrFmts) (attrs : List Nat) (vertexSize : Nat) :
    (scanAttrs vtxDesc vtxAttrFmt attrs vertexSize).2 =
      vertexSize + attrsSize vtxDesc vtxAttrFmt attrs := by
  induction attrs generalizing vertexSize with
  | nil => rfl
  | cons attr attrs ih =>
      simp only [scanAttrs, attrsSize_cons]
      by_cases habsent : vtxDesc attr = .none
      · rw [if_pos habsent, ih, calcDLAttrSize_none vtxAttrFmt habsent, Nat.zero_add]
      · rw [if_neg habsent]
        have hsize := scanAttrStep_size hplain vtxAttrFmt habsent vertexSize
        by_cases hzero : (scanAttrStep vtxDesc vtxAttrFmt attr vertexSize).size = 0
        · rw [if_pos hzero, ih, ← hsize, hzero, Nat.zero_add]
        · rw [if_neg hzero]
          simp only [ih, hsize, Nat.add_assoc]

theorem buildScanVertexLayout_snd
    (vtxAttrFmt : VtxAttrFmts) :
    (buildScanVertexLayout vtxDesc vtxAttrFmt).2 = calcDLVertexSize vtxDesc vtxAttrFmt := by
  unfold buildScanVertexLayout
  rw [scanAttrs_snd hplain vtxAttrFmt, Nat.zero_add, calcDLVertexSize_eq_attrsSize]

theorem scanAttrs_indexReads
    (ptr : Nat → UInt8) (vtxAttrFmt : VtxAttrFmts) (attrs : List Nat)
    (hattrs : ∀ attr ∈ attrs, attr < GXAttr.count) (offset : Nat) :
    (scanAttrs vtxDesc vtxAttrFmt attrs offset).1.map (fun step => step.indexReads ptr) =
      (submitDLAttrs ptr vtxDesc vtxAttrFmt attrs offset).2.filterMap
        Submission.indexReads := by
  induction attrs generalizing offset with
  | nil => rfl
  | cons attr attrs ih =>
      have hattr := hattrs attr List.mem_cons_self
      have hrest := ih (fun other hother => hattrs other (List.mem_cons_of_mem attr hother))
      simp only [scanAttrs, submitDLAttrs, List.filterMap_append]
      by_cases habsent : vtxDesc attr = .none
      · have hnothing : submitDLAttr ptr vtxDesc vtxAttrFmt attr offset = (offset, []) := by
          simp [submitDLAttr, habsent]
        simp only [if_pos habsent, hnothing, List.filterMap_nil, List.nil_append]
        exact hrest offset
      · have hsize := scanAttrStep_size hplain vtxAttrFmt habsent offset
        have hpos := calcDLAttrSize_pos hplain vtxAttrFmt hattr habsent
        have hnonzero : ¬ calcDLAttrSize vtxDesc vtxAttrFmt attr = 0 :=
          Nat.ne_of_gt hpos
        have hnext := submitDLAttr_fst hplain ptr vtxAttrFmt hattr offset
        have hreads := submitDLAttr_indexReads hplain ptr vtxAttrFmt habsent offset
        simp only [if_neg habsent, hreads, hnext, hsize, if_neg hnonzero]
        rw [← hrest]
        cases (scanAttrStep vtxDesc vtxAttrFmt attr offset).indexed <;> simp

/-- The index steps of the scan are read where the submission reads its
indices, and with the same result. -/
theorem buildScanVertexLayout_indexReads
    (ptr : Nat → UInt8) (vtxAttrFmt : VtxAttrFmts) :
    (buildScanVertexLayout vtxDesc vtxAttrFmt).1.map (fun step => step.indexReads ptr) =
      (submitDLVertex ptr vtxDesc vtxAttrFmt).2.filterMap Submission.indexReads :=
  scanAttrs_indexReads hplain ptr vtxAttrFmt allAttrs
    (fun _ hattr => mem_allAttrs.mp hattr) 0

theorem rawDirectAttrs_eq
    (vtxAttrFmt : VtxAttrFmts) (attrs : List Nat)
    (hattrs : ∀ attr ∈ attrs, attr < GXAttr.count)
    (hdirect : ∀ attr ∈ attrs, vtxDesc attr = .none ∨ vtxDesc attr = .direct)
    (vertexSize : Nat) :
    rawDirectAttrs vtxDesc vtxAttrFmt attrs vertexSize =
      some (vertexSize + attrsSize vtxDesc vtxAttrFmt attrs) := by
  induction attrs generalizing vertexSize with
  | nil => rfl
  | cons attr attrs ih =>
      have hrest := ih
        (fun other hother => hattrs other (List.mem_cons_of_mem attr hother))
        (fun other hother => hdirect other (List.mem_cons_of_mem attr hother))
      rcases hdirect attr List.mem_cons_self with htype | htype
      · simp [rawDirectAttrs, htype, hrest, calcDLAttrSize_none vtxAttrFmt htype]
      · have hle := hplain.le_tex7 (hattrs attr List.mem_cons_self) (by simp [htype])
        have hsize : calcDLAttrSize vtxDesc vtxAttrFmt attr =
            directAttrByteSize attr (vtxAttrFmt attr) true 1 := by
          simp only [calcDLAttrSize, htype]
          exact directAttrByteSize_fallback (vtxAttrFmt attr) true 0 1 hle
        have hnonzero : directAttrByteSize attr (vtxAttrFmt attr) true 1 ≠ 0 :=
          Nat.ne_of_gt (directAttrByteSize_pos attr (vtxAttrFmt attr) Nat.one_pos)
        simp only [rawDirectAttrs, htype, if_neg hnonzero, hrest, attrsSize_cons, hsize,
          Nat.add_assoc]

/-- Where every present attribute is in the stream, the probe finds the size
of the vertex, except for the vertex of size zero, which it refuses. -/
theorem tryGetRawDirectFifoVertexSize_eq
    (vtxAttrFmt : Nat → VtxAttrFmts) {fmt : Nat} (hfmt : fmt < maxVtxFmt)
    (hdirect : ∀ attr, attr < GXAttr.count →
      vtxDesc attr = .none ∨ vtxDesc attr = .direct) :
    tryGetRawDirectFifoVertexSize vtxDesc vtxAttrFmt fmt =
      if calcDLVertexSize vtxDesc (vtxAttrFmt fmt) ≠ 0 then
        some (calcDLVertexSize vtxDesc (vtxAttrFmt fmt))
      else none := by
  have hraw := rawDirectAttrs_eq hplain (vtxAttrFmt fmt) allAttrs
    (fun _ hattr => mem_allAttrs.mp hattr)
    (fun attr hattr => hdirect attr (mem_allAttrs.mp hattr)) 0
  rw [Nat.zero_add, ← calcDLVertexSize_eq_attrsSize] at hraw
  simp only [tryGetRawDirectFifoVertexSize, if_neg (Nat.not_le_of_lt hfmt), hraw]

end

end Wiicompiled.Gx
