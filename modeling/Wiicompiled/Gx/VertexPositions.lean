import Wiicompiled.Gx.VertexFifo

/-!
# Positions in a primitive

The parser stands inside a vertex at some attribute and component, with some
vertices behind it; together they give the number of bytes of the primitive it
has consumed.  One iteration moves this position by the bytes it takes from the
queue, and an iteration that waits does so inside a vertex.
-/

namespace Wiicompiled.Gx.VertexFifo

section

variable {vtxDesc : VtxDesc} {vtxAttrFmt : VtxAttrFmts}

/-- The descriptor and the attribute row that the parser works with. -/
structure HasLayout (vtxDesc : VtxDesc) (vtxAttrFmt : VtxAttrFmts) (s : HleGxState) :
    Prop where
  desc : s.vtxDesc = vtxDesc
  fmt : s.vtxAttrFmt s.currentVtxFmt = vtxAttrFmt

/-- The attributes of which the parser takes one component at a time. -/
def ByComponents (vtxDesc : VtxDesc) (attr : Nat) : Prop :=
  isMatrixIndexAttr attr = false ∧ vtxDesc attr = .direct ∧
    ¬ (attr = GXAttr.clr0 ∨ attr = GXAttr.clr1)

/-- The parser stands at a component of `attr`, and has consumed `position`
bytes of a primitive of `vtxCount` vertices. -/
structure InsideVertex (vtxDesc : VtxDesc) (vtxAttrFmt : VtxAttrFmts)
    (vtxCount position attr : Nat) (s : HleGxState) : Prop where
  inBegin : s.inBegin = true
  currentAttr : s.currentAttr = some attr
  lt_count : attr < GXAttr.count
  present : vtxDesc attr ≠ .none
  left : 0 < s.vertsRemaining
  left_le : s.vertsRemaining ≤ vtxCount
  whole : s.currentComp ≠ 0 → ByComponents vtxDesc attr
  comp_lt : s.currentComp * getCompSizeBytes (vtxAttrFmt attr).type <
    calcDLAttrSize vtxDesc vtxAttrFmt attr
  position_eq : position =
    (vtxCount - s.vertsRemaining) * calcDLVertexSize vtxDesc vtxAttrFmt +
      sizeBefore vtxDesc vtxAttrFmt attr +
      s.currentComp * getCompSizeBytes (vtxAttrFmt attr).type

/-- The primitive is complete. -/
structure Finished (vtxDesc : VtxDesc) (vtxAttrFmt : VtxAttrFmts)
    (vtxCount position : Nat) (s : HleGxState) : Prop where
  inBegin : s.inBegin = false
  left : s.vertsRemaining = 0
  position_eq : position = vtxCount * calcDLVertexSize vtxDesc vtxAttrFmt

/-- The parser has consumed `position` bytes of the primitive. -/
def AtPosition (vtxDesc : VtxDesc) (vtxAttrFmt : VtxAttrFmts)
    (vtxCount position : Nat) (s : HleGxState) : Prop :=
  HasLayout vtxDesc vtxAttrFmt s ∧
    ((∃ attr, InsideVertex vtxDesc vtxAttrFmt vtxCount position attr s) ∨
      Finished vtxDesc vtxAttrFmt vtxCount position s)

theorem atPosition_beginPrimitive
    (hplain : PlainDescriptor vtxDesc) {attr : Nat} (hattr : attr < GXAttr.count)
    (hpresent : vtxDesc attr ≠ .none) (s : HleGxState) (hdesc : s.vtxDesc = vtxDesc)
    (vtxFmt : Nat) (hfmt : s.vtxAttrFmt vtxFmt = vtxAttrFmt)
    {vtxCount : Nat} (hcount : 0 < vtxCount) (queued : List UInt8) :
    AtPosition vtxDesc vtxAttrFmt vtxCount 0 (s.beginPrimitive vtxFmt vtxCount queued) := by
  obtain ⟨first, hfirst⟩ := exists_nextEnabledAttr_zero hattr hpresent
  obtain ⟨-, hlt, hnone, -⟩ := nextEnabledAttr_eq_some hfirst
  have hbefore := sizeBefore_of_nextEnabledAttr vtxAttrFmt hfirst
  refine ⟨⟨hdesc, hfmt⟩, Or.inl ⟨first, ?_⟩⟩
  refine ⟨rfl, ?_, hlt, hnone, hcount, Nat.le_refl _, ?_, ?_, ?_⟩
  · simp [HleGxState.beginPrimitive, HleGxState.resetVertex, hdesc, hfirst]
  · simp [HleGxState.beginPrimitive, HleGxState.resetVertex]
  · simpa [HleGxState.beginPrimitive, HleGxState.resetVertex] using
      calcDLAttrSize_pos hplain vtxAttrFmt hlt hnone
  · simp [HleGxState.beginPrimitive, HleGxState.resetVertex, hbefore]

/-- Going on after an attribute leaves the parser behind its last byte. -/
theorem atPosition_finishVertexIfNeeded
    (hplain : PlainDescriptor vtxDesc) {vtxCount attr : Nat} {s : HleGxState}
    (hlayout : HasLayout vtxDesc vtxAttrFmt s) (hbegin : s.inBegin = true)
    (hattr : attr < GXAttr.count) (hpresent : vtxDesc attr ≠ .none)
    (hleft : 0 < s.vertsRemaining) (hle : s.vertsRemaining ≤ vtxCount) :
    AtPosition vtxDesc vtxAttrFmt vtxCount
      ((vtxCount - s.vertsRemaining) * calcDLVertexSize vtxDesc vtxAttrFmt +
        sizeBefore vtxDesc vtxAttrFmt (attr + 1))
      (finishVertexIfNeeded s attr) := by
  cases hnext : nextEnabledAttr vtxDesc (attr + 1) with
  | some other =>
      have hnext' : nextEnabledAttr s.vtxDesc (attr + 1) = some other := by
        rw [hlayout.desc, hnext]
      simp only [finishVertexIfNeeded, hnext']
      obtain ⟨-, hlt, hnone, -⟩ := nextEnabledAttr_eq_some hnext
      have hbefore := sizeBefore_of_nextEnabledAttr vtxAttrFmt hnext
      refine ⟨⟨hlayout.desc, hlayout.fmt⟩, Or.inl ⟨other, ?_⟩⟩
      refine ⟨hbegin, rfl, hlt, hnone, hleft, hle, ?_, ?_, ?_⟩
      · simp
      · simpa using calcDLAttrSize_pos hplain vtxAttrFmt hlt hnone
      · simp [hbefore]
  | none =>
      -- the vertex is complete; its size is what was consumed of it
      have hsize := calcDLVertexSize_of_nextEnabledAttr vtxAttrFmt
        (Nat.succ_le_of_lt hattr) hnext
      have hposition :
          (vtxCount - s.vertsRemaining) * calcDLVertexSize vtxDesc vtxAttrFmt +
              sizeBefore vtxDesc vtxAttrFmt (attr + 1) =
            (vtxCount - (s.vertsRemaining - 1)) * calcDLVertexSize vtxDesc vtxAttrFmt := by
        have hone : vtxCount - (s.vertsRemaining - 1) = vtxCount - s.vertsRemaining + 1 := by
          omega
        rw [hone, Nat.add_mul, Nat.one_mul, hsize]
      have hnext' : nextEnabledAttr s.vtxDesc (attr + 1) = none := by
        rw [hlayout.desc, hnext]
      have hleft' : 0 < s.resetVertex.vertsRemaining := hleft
      simp only [hposition, finishVertexIfNeeded, hnext', if_pos hleft']
      refine ⟨⟨hlayout.desc, hlayout.fmt⟩, ?_⟩
      by_cases hlast : s.vertsRemaining - 1 = 0
      · refine Or.inr ⟨?_, hlast, ?_⟩
        · simp [HleGxState.resetVertex, hlast]
        · rw [hlast, Nat.sub_zero]
      · obtain ⟨first, hfirst⟩ := exists_nextEnabledAttr_zero hattr hpresent
        obtain ⟨-, hlt, hnone, -⟩ := nextEnabledAttr_eq_some hfirst
        have hbefore := sizeBefore_of_nextEnabledAttr vtxAttrFmt hfirst
        refine Or.inl ⟨first, ?_⟩
        refine ⟨?_, ?_, hlt, hnone, ?_, ?_, ?_, ?_, ?_⟩
        · simp [HleGxState.resetVertex, hlast, hbegin]
        · simp [HleGxState.resetVertex, hlayout.desc, hfirst]
        · exact Nat.pos_of_ne_zero hlast
        · exact Nat.le_trans (Nat.sub_le _ _) hle
        · simp [HleGxState.resetVertex]
        · simpa [HleGxState.resetVertex] using
            calcDLAttrSize_pos hplain vtxAttrFmt hlt hnone
        · simp [HleGxState.resetVertex, hbefore]

/-! ## One iteration -/

/-- What one iteration does inside a vertex: it waits for the next piece of the
vertex, or takes it from the queue. -/
structure TakesPiece (vtxDesc : VtxDesc) (vtxAttrFmt : VtxAttrFmts)
    (vtxCount position piece : Nat) (s : HleGxState) : Prop where
  pos : 0 < piece
  le_six : piece ≤ 6
  wait : s.fifoBytes.length < piece → vertexStep s = .stop s
  take : piece ≤ s.fifoBytes.length → ∃ t, vertexStep s = .next t ∧
    t.fifoBytes = s.fifoBytes.drop piece ∧
    AtPosition vtxDesc vtxAttrFmt vtxCount (position + piece) t

@[simp] theorem finishVertexIfNeeded_fifoBytes
    (s : HleGxState) (prevAttr : Nat) :
    (finishVertexIfNeeded s prevAttr).fifoBytes = s.fifoBytes := by
  unfold finishVertexIfNeeded
  split
  · rfl
  · simp only
    split <;> rfl

theorem takesPiece_of_whole
    (hplain : PlainDescriptor vtxDesc) {vtxCount position attr piece : Nat} {s : HleGxState}
    (hlayout : HasLayout vtxDesc vtxAttrFmt s)
    (hinside : InsideVertex vtxDesc vtxAttrFmt vtxCount position attr s)
    (hwhole : ¬ ByComponents vtxDesc attr)
    (hpiece : piece = calcDLAttrSize vtxDesc vtxAttrFmt attr) (hsix : piece ≤ 6)
    (hstep : vertexStep s =
      if s.fifoBytes.length < piece then .stop s
      else .next (finishVertexIfNeeded (s.consume piece) attr)) :
    TakesPiece vtxDesc vtxAttrFmt vtxCount position piece s := by
  have hcomp : s.currentComp = 0 := by
    by_contra hne
    exact hwhole (hinside.whole hne)
  have hpos := calcDLAttrSize_pos hplain vtxAttrFmt hinside.lt_count hinside.present
  refine ⟨by omega, hsix, ?_, ?_⟩
  · intro hshort
    rw [hstep, if_pos hshort]
  · intro hlong
    refine ⟨finishVertexIfNeeded (s.consume piece) attr, ?_, ?_, ?_⟩
    · rw [hstep, if_neg (Nat.not_lt.mpr hlong)]
    · simp [HleGxState.consume]
    · have hfinish := atPosition_finishVertexIfNeeded
        (s := s.consume piece) hplain ⟨hlayout.desc, hlayout.fmt⟩ hinside.inBegin
        hinside.lt_count hinside.present hinside.left hinside.left_le
      have hposition := hinside.position_eq
      rw [hcomp, Nat.zero_mul, Nat.add_zero] at hposition
      rw [sizeBefore_succ, ← hpiece, ← Nat.add_assoc] at hfinish
      rw [hposition]
      exact hfinish

theorem takesPiece_of_byComponents
    (hplain : PlainDescriptor vtxDesc) {vtxCount position attr : Nat} {s : HleGxState}
    (hlayout : HasLayout vtxDesc vtxAttrFmt s)
    (hinside : InsideVertex vtxDesc vtxAttrFmt vtxCount position attr s)
    (hcomps : ByComponents vtxDesc attr) :
    TakesPiece vtxDesc vtxAttrFmt vtxCount position
      (getCompSizeBytes (vtxAttrFmt attr).type) s := by
  obtain ⟨hmatrix, hdirect, hclr⟩ := hcomps
  have hcompPos := getCompSizeBytes_pos (vtxAttrFmt attr).type
  have hcompLe := getCompSizeBytes_le (vtxAttrFmt attr).type
  have hdirect' : s.vtxDesc attr = .direct := by
    rw [hlayout.desc, hdirect]
  -- the attribute is as long as its expected components
  have hsize : calcDLAttrSize vtxDesc vtxAttrFmt attr =
      attrCompCount attr (vtxAttrFmt attr) 1 * getCompSizeBytes (vtxAttrFmt attr).type := by
    simp only [calcDLAttrSize, hdirect]
    rw [directAttrByteSize_fallback (vtxAttrFmt attr) true 0 1
      (hplain.le_tex7 hinside.lt_count hinside.present)]
    simp only [directAttrByteSize, hmatrix, Bool.false_eq_true, if_false, if_neg hclr]
  have hlt : s.currentComp < attrCompCount attr (vtxAttrFmt attr) 1 := by
    have hcomp := hinside.comp_lt
    rw [hsize] at hcomp
    exact Nat.lt_of_mul_lt_mul_right hcomp
  have hstep : vertexStep s =
      if s.fifoBytes.length < getCompSizeBytes (vtxAttrFmt attr).type then .stop s
      else if attrCompCount attr (vtxAttrFmt attr) 1 ≤ s.currentComp + 1 then
        .next (finishVertexIfNeeded
          { s.consume (getCompSizeBytes (vtxAttrFmt attr).type) with
            currentComp := s.currentComp + 1 } attr)
      else .next { s.consume (getCompSizeBytes (vtxAttrFmt attr).type) with
        currentComp := s.currentComp + 1 } := by
    simp only [vertexStep, hinside.inBegin, if_true, hinside.currentAttr, hlayout.fmt,
      hmatrix, Bool.false_eq_true, if_false, hdirect', if_neg hclr]
  refine ⟨hcompPos, Nat.le_trans hcompLe (by omega), ?_, ?_⟩
  · intro hshort
    rw [hstep, if_pos hshort]
  · intro hlong
    rw [hstep, if_neg (Nat.not_lt.mpr hlong)]
    by_cases hlast : attrCompCount attr (vtxAttrFmt attr) 1 ≤ s.currentComp + 1
    · refine ⟨_, if_pos hlast, by simp [HleGxState.consume], ?_⟩
      have hfinish := atPosition_finishVertexIfNeeded
        (s := { s.consume (getCompSizeBytes (vtxAttrFmt attr).type) with
          currentComp := s.currentComp + 1 })
        hplain ⟨hlayout.desc, hlayout.fmt⟩ hinside.inBegin
        hinside.lt_count hinside.present hinside.left hinside.left_le
      have heq : attrCompCount attr (vtxAttrFmt attr) 1 = s.currentComp + 1 := by
        omega
      rw [sizeBefore_succ, hsize, heq, Nat.add_mul, Nat.one_mul, ← Nat.add_assoc,
        ← Nat.add_assoc] at hfinish
      rw [hinside.position_eq]
      exact hfinish
    · refine ⟨_, if_neg hlast, by simp [HleGxState.consume], ⟨hlayout.desc, hlayout.fmt⟩,
        Or.inl ⟨attr, ?_⟩⟩
      refine ⟨hinside.inBegin, hinside.currentAttr, hinside.lt_count, hinside.present,
        hinside.left, hinside.left_le, fun _ => ⟨hmatrix, hdirect, hclr⟩, ?_, ?_⟩
      · rw [hsize]
        exact Nat.mul_lt_mul_of_pos_right (by simpa using hlast) hcompPos
      · have hposition := hinside.position_eq
        simp only [HleGxState.consume, Nat.add_mul, Nat.one_mul]
        omega

/-- Inside a vertex every iteration waits for, or takes, a piece of at most six
bytes that ends within the vertex. -/
theorem exists_takesPiece
    (hplain : PlainDescriptor vtxDesc) {vtxCount position attr : Nat} {s : HleGxState}
    (hlayout : HasLayout vtxDesc vtxAttrFmt s)
    (hinside : InsideVertex vtxDesc vtxAttrFmt vtxCount position attr s) :
    ∃ piece, TakesPiece vtxDesc vtxAttrFmt vtxCount position piece s ∧
      position + piece ≤
        (vtxCount - s.vertsRemaining + 1) * calcDLVertexSize vtxDesc vtxAttrFmt := by
  have hdesc := congrFun hlayout.desc attr
  have hcount := normalIndexCount_cases (vtxAttrFmt attr)
  -- a piece that ends with the attribute ends within the vertex
  have hend : (vtxCount - s.vertsRemaining) * calcDLVertexSize vtxDesc vtxAttrFmt +
      sizeBefore vtxDesc vtxAttrFmt attr + calcDLAttrSize vtxDesc vtxAttrFmt attr ≤
        (vtxCount - s.vertsRemaining + 1) * calcDLVertexSize vtxDesc vtxAttrFmt := by
    have hmono := sizeBefore_mono vtxDesc vtxAttrFmt (Nat.succ_le_of_lt hinside.lt_count)
    rw [Nat.succ_eq_add_one, sizeBefore_succ] at hmono
    rw [Nat.add_mul, Nat.one_mul, Nat.add_assoc]
    exact Nat.add_le_add_left hmono _
  have hwholeEnd : ∀ {piece : Nat}, piece = calcDLAttrSize vtxDesc vtxAttrFmt attr →
      ¬ ByComponents vtxDesc attr → position + piece ≤
        (vtxCount - s.vertsRemaining + 1) * calcDLVertexSize vtxDesc vtxAttrFmt := by
    intro piece hpiece hwhole
    have hcomp : s.currentComp = 0 := by
      by_contra hne
      exact hwhole (hinside.whole hne)
    have hposition := hinside.position_eq
    rw [hcomp, Nat.zero_mul, Nat.add_zero] at hposition
    rw [hposition, hpiece]
    exact hend
  have hindexed : vtxDesc attr ≠ .direct → ¬ ByComponents vtxDesc attr := fun hne h => hne h.2.1
  cases hmatrix : isMatrixIndexAttr attr with
  | true =>
      have hdirect := hplain.direct_of_matrix hmatrix hinside.present
      have hwhole : ¬ ByComponents vtxDesc attr := fun h => by
        simp [ByComponents, hmatrix] at h
      have hsize : 1 = calcDLAttrSize vtxDesc vtxAttrFmt attr := by
        simp [calcDLAttrSize, hdirect, directAttrByteSize, hmatrix]
      refine ⟨1, takesPiece_of_whole hplain hlayout hinside hwhole hsize (by omega) ?_,
        hwholeEnd hsize hwhole⟩
      simp [vertexStep, hinside.inBegin, hinside.currentAttr, hmatrix]
  | false =>
      cases htype : vtxDesc attr with
      | none => exact absurd htype hinside.present
      | direct =>
          by_cases hclr : attr = GXAttr.clr0 ∨ attr = GXAttr.clr1
          · have hwhole : ¬ ByComponents vtxDesc attr := fun h => h.2.2 hclr
            have hsize : colorByteSize (vtxAttrFmt attr).type (vtxAttrFmt attr).cnt =
                calcDLAttrSize vtxDesc vtxAttrFmt attr := by
              simp only [calcDLAttrSize, htype, directAttrByteSize, hmatrix,
                Bool.false_eq_true, if_false, if_pos hclr]
            have hle := colorByteSize_le (vtxAttrFmt attr).type (vtxAttrFmt attr).cnt
            refine ⟨_, takesPiece_of_whole hplain hlayout hinside hwhole hsize
              (by omega) ?_, hwholeEnd hsize hwhole⟩
            simp only [vertexStep, hinside.inBegin, if_true, hinside.currentAttr, hmatrix,
              Bool.false_eq_true, if_false, hdesc, htype, if_pos hclr, hlayout.fmt]
          · have hcomps : ByComponents vtxDesc attr := ⟨hmatrix, htype, hclr⟩
            refine ⟨_, takesPiece_of_byComponents hplain hlayout hinside hcomps, ?_⟩
            have hlt := hinside.comp_lt
            have hposition := hinside.position_eq
            have hsize : calcDLAttrSize vtxDesc vtxAttrFmt attr =
                attrCompCount attr (vtxAttrFmt attr) 0 *
                  getCompSizeBytes (vtxAttrFmt attr).type := by
              simp only [calcDLAttrSize, htype, directAttrByteSize, hmatrix,
                Bool.false_eq_true, if_false, if_neg hclr]
            have hnext : (s.currentComp + 1) * getCompSizeBytes (vtxAttrFmt attr).type ≤
                calcDLAttrSize vtxDesc vtxAttrFmt attr := by
              rw [hsize] at hlt ⊢
              exact Nat.mul_le_mul_right _ (Nat.lt_of_mul_lt_mul_right hlt)
            rw [Nat.add_mul, Nat.one_mul] at hnext
            omega
      | index8 =>
          have hwhole := hindexed (by simp [htype])
          have hsize : (if attr = GXAttr.nrm then normalIndexCount (vtxAttrFmt attr) else 1) =
              calcDLAttrSize vtxDesc vtxAttrFmt attr := by
            simp only [calcDLAttrSize, htype]
          refine ⟨_, takesPiece_of_whole hplain hlayout hinside hwhole hsize
            (by split_ifs <;> omega) ?_, hwholeEnd hsize hwhole⟩
          simp only [vertexStep, hinside.inBegin, if_true, hinside.currentAttr, hmatrix,
            Bool.false_eq_true, if_false, hdesc, htype, hlayout.fmt]
      | index16 =>
          have hwhole := hindexed (by simp [htype])
          have hsize :
              (if attr = GXAttr.nrm then normalIndexCount (vtxAttrFmt attr) else 1) * 2 =
                calcDLAttrSize vtxDesc vtxAttrFmt attr := by
            simp only [calcDLAttrSize, htype]
          refine ⟨_, takesPiece_of_whole hplain hlayout hinside hwhole hsize
            (by split_ifs <;> omega) ?_, hwholeEnd hsize hwhole⟩
          simp only [vertexStep, hinside.inBegin, if_true, hinside.currentAttr, hmatrix,
            Bool.false_eq_true, if_false, hdesc, htype, hlayout.fmt]

end

end Wiicompiled.Gx.VertexFifo
