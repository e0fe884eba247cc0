import Wiicompiled.Gx.VertexPositions
import Mathlib.Tactic.IntervalCases

/-!
# Agreement of the vertex readers

All readers give a vertex the same size.  For the readers that walk a vertex
this is a statement about one call.  For the FIFO it is one about every sequence
of writes that brings a primitive: after any number of bytes the parser has
finished as many vertices as fit into them.

A descriptor without any attribute is the exception.  Its vertices have size
zero; the raw probe refuses it, and the FIFO parser has no attribute to wait for
and throws away what is queued.
-/

namespace Wiicompiled.Gx.VertexFifo

section

variable {vtxDesc : VtxDesc} {vtxAttrFmt : VtxAttrFmts}

/-! ## The loop -/

/-- The parser has worked through `bytes`, the whole of the primitive received
so far, and holds the rest of them in its queue.  While the primitive is open it
waits for the rest of a vertex. -/
structure Parsed (vtxDesc : VtxDesc) (vtxAttrFmt : VtxAttrFmts) (vtxCount : Nat)
    (bytes : List UInt8) (s : HleGxState) : Prop where
  queue : ∃ position, position ≤ bytes.length ∧
    AtPosition vtxDesc vtxAttrFmt vtxCount position s ∧
    s.fifoBytes = bytes.drop position
  waits : s.inBegin = true → s.fifoBytes.length < 6 ∧
    bytes.length < (vtxCount - s.vertsRemaining + 1) * calcDLVertexSize vtxDesc vtxAttrFmt

theorem parsed_vertexLoop
    (hplain : PlainDescriptor vtxDesc) {vtxCount position : Nat} {bytes : List UInt8}
    {s : HleGxState} (hle : position ≤ bytes.length)
    (hat : AtPosition vtxDesc vtxAttrFmt vtxCount position s)
    (hqueue : s.fifoBytes = bytes.drop position)
    {fuel : Nat} (hfuel : s.fifoBytes.length < fuel) :
    Parsed vtxDesc vtxAttrFmt vtxCount bytes (vertexLoop fuel s) := by
  induction fuel generalizing s position with
  | zero => exact absurd hfuel (Nat.not_lt_zero _)
  | succ fuel ih =>
      have hlength : s.fifoBytes.length = bytes.length - position := by
        rw [hqueue, List.length_drop]
      rcases hat with ⟨hlayout, ⟨attr, hinside⟩ | hfinished⟩
      · obtain ⟨piece, hpiece, hend⟩ := exists_takesPiece hplain hlayout hinside
        have hpos := hpiece.pos
        by_cases hshort : s.fifoBytes.length < piece
        · simp only [vertexLoop, hpiece.wait hshort]
          refine ⟨⟨position, hle, ⟨hlayout, Or.inl ⟨attr, hinside⟩⟩, hqueue⟩, fun _ => ?_⟩
          have hsix := hpiece.le_six
          exact ⟨by omega, by omega⟩
        · have hlong := Nat.not_lt.mp hshort
          obtain ⟨t, hstep, hfifo, hat⟩ := hpiece.take hlong
          simp only [vertexLoop, hstep]
          refine ih (by omega) hat ?_ ?_
          · rw [hfifo, hqueue, List.drop_drop]
          · rw [hfifo, List.length_drop]
            omega
      · have hstep : vertexStep s = .stop s := by
          simp [vertexStep, hfinished.inBegin]
        simp only [vertexLoop, hstep]
        refine ⟨⟨position, hle, ⟨hlayout, Or.inr hfinished⟩, hqueue⟩, ?_⟩
        intro hbegin
        simp [hfinished.inBegin] at hbegin

theorem parsed_parseVertices
    (hplain : PlainDescriptor vtxDesc) {vtxCount position : Nat} {bytes : List UInt8}
    {s : HleGxState} (hle : position ≤ bytes.length)
    (hat : AtPosition vtxDesc vtxAttrFmt vtxCount position s)
    (hqueue : s.fifoBytes = bytes.drop position) :
    Parsed vtxDesc vtxAttrFmt vtxCount bytes (parseVertices s) :=
  parsed_vertexLoop hplain hle hat hqueue (Nat.lt_succ_self _)

/-! ## Writes -/

theorem AtPosition.congr_fifoBytes
    {vtxCount position : Nat} {s : HleGxState}
    (hat : AtPosition vtxDesc vtxAttrFmt vtxCount position s) (queue : List UInt8) :
    AtPosition vtxDesc vtxAttrFmt vtxCount position { s with fifoBytes := queue } := by
  rcases hat with ⟨hlayout, ⟨attr, hinside⟩ | hfinished⟩
  · refine ⟨⟨hlayout.desc, hlayout.fmt⟩, Or.inl ⟨attr, ?_⟩⟩
    exact ⟨hinside.inBegin, hinside.currentAttr, hinside.lt_count, hinside.present,
      hinside.left, hinside.left_le, hinside.whole, hinside.comp_lt, hinside.position_eq⟩
  · exact ⟨⟨hlayout.desc, hlayout.fmt⟩,
      Or.inr ⟨hfinished.inBegin, hfinished.left, hfinished.position_eq⟩⟩

/-- A parser that waits takes the bytes of a write into its queue: only the
bytes of an unfinished piece are there before. -/
theorem Parsed.hleFifoWrite
    (hplain : PlainDescriptor vtxDesc) {vtxCount : Nat} {bytes : List UInt8}
    {s : HleGxState} (hparsed : Parsed vtxDesc vtxAttrFmt vtxCount bytes s)
    (hbegin : s.inBegin = true) (parseCommands : HleGxState → HleGxState)
    (write : FifoWrite) :
    Parsed vtxDesc vtxAttrFmt vtxCount (bytes ++ write.bytes)
      (hleFifoWrite parseCommands s write) := by
  obtain ⟨position, hle, hat, hqueue⟩ := hparsed.queue
  have hsix := (hparsed.waits hbegin).1
  have hfour := write.bytes_length_le
  have hroom : ¬ fifoCapacity < s.fifoBytes.length + write.bytes.length := by
    simp only [fifoCapacity]
    omega
  have hpush : VertexFifo.hleFifoWrite parseCommands s write =
      parseVertices { s with fifoBytes := s.fifoBytes ++ write.bytes } := by
    simp only [VertexFifo.hleFifoWrite, pushBytes, if_neg hroom, hbegin, if_true]
  rw [hpush]
  refine parsed_parseVertices hplain ?_ (hat.congr_fifoBytes _) ?_
  · rw [List.length_append]
    omega
  · rw [List.drop_append_of_le_length hle, hqueue]

/-- While the primitive is open, as many vertices are complete as fit into the
bytes received. -/
theorem Parsed.vertsRemaining_eq
    {vtxCount : Nat} {bytes : List UInt8} {s : HleGxState}
    (hparsed : Parsed vtxDesc vtxAttrFmt vtxCount bytes s) (hbegin : s.inBegin = true) :
    bytes.length / calcDLVertexSize vtxDesc vtxAttrFmt = vtxCount - s.vertsRemaining ∧
      0 < s.vertsRemaining ∧ s.vertsRemaining ≤ vtxCount := by
  obtain ⟨position, hle, ⟨-, hat⟩, -⟩ := hparsed.queue
  rcases hat with ⟨attr, hinside⟩ | hfinished
  · refine ⟨?_, hinside.left, hinside.left_le⟩
    have hupper := (hparsed.waits hbegin).2
    have hposition := hinside.position_eq
    exact Nat.div_eq_of_lt_le (by omega) hupper
  · simp [hfinished.inBegin] at hbegin

/-- The primitive is open exactly while bytes of it are missing. -/
theorem Parsed.inBegin_iff
    {vtxCount : Nat} {bytes : List UInt8} {s : HleGxState}
    (hparsed : Parsed vtxDesc vtxAttrFmt vtxCount bytes s) :
    s.inBegin = true ↔
      bytes.length < vtxCount * calcDLVertexSize vtxDesc vtxAttrFmt := by
  obtain ⟨position, hle, ⟨-, hat⟩, -⟩ := hparsed.queue
  constructor
  · intro hbegin
    obtain ⟨-, hleft, hleftLe⟩ := hparsed.vertsRemaining_eq hbegin
    refine Nat.lt_of_lt_of_le (hparsed.waits hbegin).2 (Nat.mul_le_mul_right _ ?_)
    omega
  · intro hmissing
    rcases hat with ⟨attr, hinside⟩ | hfinished
    · exact hinside.inBegin
    · have hposition := hfinished.position_eq
      omega

/-- The state after a primitive of `vtxCount` vertices has been opened with some
bytes behind its header and further bytes have been written. -/
def afterWrites (parseCommands : HleGxState → HleGxState) (s : HleGxState)
    (vtxFmt vtxCount : Nat) (queued : List UInt8) (writes : List FifoWrite) : HleGxState :=
  writes.foldl (hleFifoWrite parseCommands)
    (parseVertices (s.beginPrimitive vtxFmt vtxCount queued))

def receivedBytes (queued : List UInt8) (writes : List FifoWrite) : List UInt8 :=
  queued ++ writes.flatMap FifoWrite.bytes

theorem parsed_foldl
    (hplain : PlainDescriptor vtxDesc) {vtxCount : Nat}
    (parseCommands : HleGxState → HleGxState) (writes : List FifoWrite)
    {bytes : List UInt8} {s : HleGxState}
    (hparsed : Parsed vtxDesc vtxAttrFmt vtxCount bytes s)
    (hopen : writes ≠ [] → (bytes ++ writes.dropLast.flatMap FifoWrite.bytes).length <
      vtxCount * calcDLVertexSize vtxDesc vtxAttrFmt) :
    Parsed vtxDesc vtxAttrFmt vtxCount (bytes ++ writes.flatMap FifoWrite.bytes)
      (writes.foldl (hleFifoWrite parseCommands) s) := by
  induction writes generalizing bytes s with
  | nil => simpa using hparsed
  | cons write writes ih =>
      have hlt := hopen (List.cons_ne_nil write writes)
      have hbegin : s.inBegin = true := by
        rw [hparsed.inBegin_iff]
        rw [List.length_append] at hlt
        omega
      have hnext := hparsed.hleFifoWrite hplain hbegin parseCommands write
      have hrest := ih hnext (fun hne => by
        rw [List.dropLast_cons_of_ne_nil hne] at hlt
        simpa [List.append_assoc] using hlt)
      simpa [List.append_assoc] using hrest

end

/-! ## The agreement -/

/-- The FIFO parser consumes `size` bytes for every vertex: within the primitive
it keeps count of the complete vertices and stands at the first attribute
between two of them, and it leaves the bytes behind the last vertex alone. -/
structure ConsumesVertices (size vtxCount : Nat) (bytes : List UInt8) (s : HleGxState) :
    Prop where
  within : bytes.length < vtxCount * size →
    s.inBegin = true ∧ s.vertsRemaining = vtxCount - bytes.length / size ∧
      s.fifoBytes = bytes.drop (bytes.length - s.fifoBytes.length) ∧
      s.fifoBytes.length ≤ bytes.length % size
  between : bytes.length < vtxCount * size → bytes.length % size = 0 →
    s.currentAttr = nextEnabledAttr s.vtxDesc 0 ∧ s.currentComp = 0
  after : vtxCount * size ≤ bytes.length →
    s.inBegin = false ∧ s.vertsRemaining = 0 ∧ s.fifoBytes = bytes.drop (vtxCount * size)

/-- All readers of one vertex layout agree. -/
structure WalkersAgree (vtxDesc : VtxDesc) (vtxAttrFmt : Nat → VtxAttrFmts) (vtxFmt : Nat) :
    Prop where
  scan : (buildScanVertexLayout vtxDesc (vtxAttrFmt vtxFmt)).2 =
    calcDLVertexSize vtxDesc (vtxAttrFmt vtxFmt)
  submit : ∀ ptr, (submitDLVertex ptr vtxDesc (vtxAttrFmt vtxFmt)).1 =
    calcDLVertexSize vtxDesc (vtxAttrFmt vtxFmt)
  indices : ∀ ptr,
    (buildScanVertexLayout vtxDesc (vtxAttrFmt vtxFmt)).1.map (fun step => step.indexReads ptr) =
      (submitDLVertex ptr vtxDesc (vtxAttrFmt vtxFmt)).2.filterMap Submission.indexReads
  raw : (∀ attr, attr < GXAttr.count → vtxDesc attr = .none ∨ vtxDesc attr = .direct) →
    tryGetRawDirectFifoVertexSize vtxDesc vtxAttrFmt vtxFmt =
      some (calcDLVertexSize vtxDesc (vtxAttrFmt vtxFmt))
  fifo : ∀ (parseCommands : HleGxState → HleGxState) (s : HleGxState) (vtxCount : Nat)
      (queued : List UInt8) (writes : List FifoWrite),
    s.vtxDesc = vtxDesc → s.vtxAttrFmt = vtxAttrFmt → 0 < vtxCount →
    (writes ≠ [] → (receivedBytes queued writes.dropLast).length <
      vtxCount * calcDLVertexSize vtxDesc (vtxAttrFmt vtxFmt)) →
    ConsumesVertices (calcDLVertexSize vtxDesc (vtxAttrFmt vtxFmt)) vtxCount
      (receivedBytes queued writes)
      (afterWrites parseCommands s vtxFmt vtxCount queued writes)
  draw : ∀ (submitRawDraw : Bool) (s t : HleGxState) (cmd high low : UInt8)
      (queued : List UInt8),
    s.vtxDesc = vtxDesc → s.vtxAttrFmt = vtxAttrFmt → cmd.toNat % maxVtxFmt = vtxFmt →
    s.fifoBytes = cmd :: high :: low :: queued → parseDraw submitRawDraw s = .drawn t →
    t.fifoBytes = queued.drop
      ((high.toNat * 256 + low.toNat) * calcDLVertexSize vtxDesc (vtxAttrFmt vtxFmt))

section

variable {vtxDesc : VtxDesc} {vtxAttrFmt : VtxAttrFmts}

/-- Nothing of a vertex is consumed only before its first attribute. -/
theorem eq_first_of_sizeBefore_eq_zero
    (hplain : PlainDescriptor vtxDesc) (vtxAttrFmt : VtxAttrFmts) {attr : Nat} (hattr : attr < GXAttr.count)
    (hpresent : vtxDesc attr ≠ .none) (hzero : sizeBefore vtxDesc vtxAttrFmt attr = 0) :
    nextEnabledAttr vtxDesc 0 = some attr := by
  obtain ⟨first, hfirst⟩ := exists_nextEnabledAttr_zero hattr hpresent
  obtain ⟨-, hlt, hnone, habsent⟩ := nextEnabledAttr_eq_some hfirst
  have hle : first ≤ attr := by
    by_contra hgt
    exact hpresent (habsent attr (Nat.zero_le attr) (Nat.lt_of_not_le hgt))
  have hge : attr ≤ first := by
    by_contra hgt
    have hmono := sizeBefore_mono vtxDesc vtxAttrFmt (Nat.succ_le_of_lt (Nat.lt_of_not_le hgt))
    rw [Nat.succ_eq_add_one, sizeBefore_succ] at hmono
    have hpos := calcDLAttrSize_pos hplain vtxAttrFmt hlt hnone
    omega
  rw [hfirst, Nat.le_antisymm hle hge]

theorem Parsed.consumesVertices
    (hplain : PlainDescriptor vtxDesc) {vtxCount : Nat} {bytes : List UInt8}
    {s : HleGxState} (hparsed : Parsed vtxDesc vtxAttrFmt vtxCount bytes s) :
    ConsumesVertices (calcDLVertexSize vtxDesc vtxAttrFmt) vtxCount bytes s := by
  have hiff := hparsed.inBegin_iff
  obtain ⟨position, hle, ⟨hlayout, hat⟩, hqueue⟩ := hparsed.queue
  have hlength : s.fifoBytes.length = bytes.length - position := by
    rw [hqueue, List.length_drop]
  -- within the primitive, the position lies behind the complete vertices
  have hinside : bytes.length < vtxCount * calcDLVertexSize vtxDesc vtxAttrFmt →
      ∃ attr, InsideVertex vtxDesc vtxAttrFmt vtxCount position attr s ∧
        bytes.length / calcDLVertexSize vtxDesc vtxAttrFmt = vtxCount - s.vertsRemaining ∧
        bytes.length % calcDLVertexSize vtxDesc vtxAttrFmt =
          s.fifoBytes.length + sizeBefore vtxDesc vtxAttrFmt attr +
            s.currentComp * getCompSizeBytes (vtxAttrFmt attr).type := by
    intro hmissing
    have hbegin := hiff.mpr hmissing
    obtain ⟨hdiv, -, -⟩ := hparsed.vertsRemaining_eq hbegin
    rcases hat with ⟨attr, hinside⟩ | hfinished
    · refine ⟨attr, hinside, hdiv, ?_⟩
      have hmod := Nat.div_add_mod' bytes.length (calcDLVertexSize vtxDesc vtxAttrFmt)
      rw [hdiv] at hmod
      have hposition := hinside.position_eq
      omega
    · simp [hfinished.inBegin] at hbegin
  refine ⟨?_, ?_, ?_⟩
  · intro hmissing
    have hbegin := hiff.mpr hmissing
    obtain ⟨hdiv, -, hleft⟩ := hparsed.vertsRemaining_eq hbegin
    obtain ⟨attr, -, -, hmod⟩ := hinside hmissing
    have hback : bytes.length - s.fifoBytes.length = position := by
      rw [hlength]
      exact Nat.sub_sub_self hle
    clear hinside
    refine ⟨hbegin, by omega, ?_, by omega⟩
    rw [hback]
    exact hqueue
  · intro hmissing hzero
    obtain ⟨attr, hattr, -, hmod⟩ := hinside hmissing
    rw [hzero] at hmod
    have hfirst := eq_first_of_sizeBefore_eq_zero hplain vtxAttrFmt
      hattr.lt_count hattr.present (by omega)
    have hcomp : s.currentComp * getCompSizeBytes (vtxAttrFmt attr).type = 0 := by
      omega
    refine ⟨by rw [hattr.currentAttr, hlayout.desc, hfirst], ?_⟩
    exact (Nat.mul_eq_zero.mp hcomp).resolve_right
      (Nat.ne_of_gt (getCompSizeBytes_pos _))
  · intro hall
    rcases hat with ⟨attr, hattr⟩ | hfinished
    · have hmissing := hiff.mp hattr.inBegin
      omega
    · refine ⟨hfinished.inBegin, hfinished.left, ?_⟩
      rw [hqueue, hfinished.position_eq]

end

theorem direct_of_rawDirectAttrs
    {vtxDesc : VtxDesc} {vtxAttrFmt : VtxAttrFmts} {attrs : List Nat} {start size : Nat}
    (hraw : rawDirectAttrs vtxDesc vtxAttrFmt attrs start = some size) :
    ∀ attr ∈ attrs, vtxDesc attr = .none ∨ vtxDesc attr = .direct := by
  induction attrs generalizing start with
  | nil => simp
  | cons attr attrs ih =>
      intro other hother
      cases htype : vtxDesc attr with
      | none =>
          simp only [rawDirectAttrs, htype] at hraw
          rcases List.mem_cons.mp hother with heq | hmem
          · exact Or.inl (heq ▸ htype)
          · exact ih hraw other hmem
      | direct =>
          simp only [rawDirectAttrs, htype] at hraw
          split_ifs at hraw
          rcases List.mem_cons.mp hother with heq | hmem
          · exact Or.inr (heq ▸ htype)
          · exact ih hraw other hmem
      | index8 => simp [rawDirectAttrs, htype] at hraw
      | index16 => simp [rawDirectAttrs, htype] at hraw

theorem tryGetRawDirectFifoVertexSize_eq_some
    {vtxDesc : VtxDesc} (hplain : PlainDescriptor vtxDesc) {vtxAttrFmt : Nat → VtxAttrFmts}
    {vtxFmt size : Nat}
    (hraw : tryGetRawDirectFifoVertexSize vtxDesc vtxAttrFmt vtxFmt = some size) :
    size = calcDLVertexSize vtxDesc (vtxAttrFmt vtxFmt) := by
  unfold tryGetRawDirectFifoVertexSize at hraw
  split_ifs at hraw
  cases hattrs : rawDirectAttrs vtxDesc (vtxAttrFmt vtxFmt) allAttrs 0 with
  | none => simp [hattrs] at hraw
  | some total =>
      have hdirect := direct_of_rawDirectAttrs hattrs
      have htotal := rawDirectAttrs_eq hplain (vtxAttrFmt vtxFmt) allAttrs
        (fun _ hattr => mem_allAttrs.mp hattr) hdirect 0
      rw [Nat.zero_add, ← calcDLVertexSize_eq_attrsSize, hattrs] at htotal
      simp only [hattrs, Option.some.injEq] at hraw htotal
      split_ifs at hraw
      rw [← Option.some.inj hraw, htotal]

/-- For every descriptor that has an attribute, every attribute row and every
way its bytes arrive, all readers agree on the size of a vertex. -/
theorem walkersAgree_of_present
    (vtxDesc : VtxDesc) (vtxAttrFmt : Nat → VtxAttrFmts) (vtxFmt : Nat)
    (hfmt : vtxFmt < maxVtxFmt) (hplain : PlainDescriptor vtxDesc)
    (hpresent : ∃ attr, attr < GXAttr.count ∧ vtxDesc attr ≠ .none) :
    WalkersAgree vtxDesc vtxAttrFmt vtxFmt := by
  obtain ⟨attr, hattr, hsome⟩ := hpresent
  have hsize := calcDLVertexSize_pos hplain (vtxAttrFmt vtxFmt) hattr hsome
  refine
    { scan := buildScanVertexLayout_snd hplain (vtxAttrFmt vtxFmt)
      submit := fun ptr => submitDLVertex_fst hplain ptr (vtxAttrFmt vtxFmt)
      indices := fun ptr => buildScanVertexLayout_indexReads hplain ptr (vtxAttrFmt vtxFmt)
      raw := ?_
      fifo := ?_
      draw := ?_ }
  · intro hdirect
    rw [tryGetRawDirectFifoVertexSize_eq hplain vtxAttrFmt hfmt hdirect,
      if_pos (Nat.ne_of_gt hsize)]
  · intro parseCommands s vtxCount queued writes hdesc hfmts hcount hopen
    have hat := atPosition_beginPrimitive hplain hattr hsome s hdesc vtxFmt
      (congrFun hfmts vtxFmt) hcount queued
    have hstart : Parsed vtxDesc (vtxAttrFmt vtxFmt) vtxCount queued
        (parseVertices (s.beginPrimitive vtxFmt vtxCount queued)) :=
      parsed_parseVertices hplain (Nat.zero_le _) hat rfl
    exact (parsed_foldl hplain parseCommands writes hstart hopen).consumesVertices hplain
  · intro submitRawDraw s t cmd high low queued hdesc hfmts hcmd hqueue hdrawn
    simp only [parseDraw, hqueue, hdesc, hfmts, hcmd] at hdrawn
    cases hraw : tryGetRawDirectFifoVertexSize vtxDesc vtxAttrFmt vtxFmt with
    | none => simp [hraw] at hdrawn
    | some size =>
        have heq := tryGetRawDirectFifoVertexSize_eq_some hplain hraw
        simp only [hraw] at hdrawn
        split_ifs at hdrawn
        rw [← DrawResult.drawn.inj hdrawn, ← heq]
        simp only [HleGxState.beginPrimitive, HleGxState.resetVertex, Nat.add_comm 3,
          List.drop_succ_cons]

/-- A matrix index, a position, three normal indices and a colour. -/
def mixedDesc : VtxDesc := fun attr =>
  if attr = GXAttr.pnMtxIdx ∨ attr = GXAttr.pos ∨ attr = GXAttr.clr0 then .direct
  else if attr = GXAttr.nrm then .index16
  else .none

/-- Components of two bytes, `GX_NRM_NBT3` among the normals. -/
def shortFmts : Nat → VtxAttrFmts := fun _ _ =>
  { cnt := 2, type := GXCompType.s16, frac := 8 }

theorem mixedDesc_agrees :
    (0 < maxVtxFmt ∧ PlainDescriptor mixedDesc ∧
      (∃ attr, attr < GXAttr.count ∧ mixedDesc attr ≠ .none)) ∧
      WalkersAgree mixedDesc shortFmts 0 := by
  have hplain : PlainDescriptor mixedDesc := by
    refine ⟨?_, ?_⟩
    · intro attr hmatrix
      have hlt := isMatrixIndexAttr_iff.mp hmatrix
      simp only [GXAttr.pos] at hlt
      interval_cases attr <;> simp [mixedDesc]
    · intro attr habove hlt
      simp only [GXAttr.tex7, GXAttr.count] at habove hlt
      interval_cases attr <;> simp [mixedDesc]
  have hpresent : ∃ attr, attr < GXAttr.count ∧ mixedDesc attr ≠ .none :=
    ⟨GXAttr.pos, by decide, by decide⟩
  exact ⟨⟨by decide, hplain, hpresent⟩,
    walkersAgree_of_present mixedDesc shortFmts 0 (by decide) hplain hpresent⟩

def absentDesc : VtxDesc := fun _ => .none

/-- A state whose descriptor has no attribute. -/
def absentState : HleGxState where
  vtxDesc := absentDesc
  vtxAttrFmt := shortFmts
  currentVtxFmt := 0
  vertsRemaining := 0
  inBegin := false
  currentAttr := none
  currentComp := 0
  fifoBytes := []

/-- Without any attribute the display list vertex has size zero, but the raw
probe fails and the FIFO takes a byte without completing a vertex. -/
theorem absentDesc_disagrees :
    PlainDescriptor absentDesc ∧ calcDLVertexSize absentDesc (shortFmts 0) = 0 ∧
      tryGetRawDirectFifoVertexSize absentDesc shortFmts 0 = none ∧
      (afterWrites id absentState 0 1 [] [.write8 7]).fifoBytes = [] ∧
      (afterWrites id absentState 0 1 [] [.write8 7]).vertsRemaining = 1 ∧
      ¬ WalkersAgree absentDesc shortFmts 0 := by
  have hraw : tryGetRawDirectFifoVertexSize absentDesc shortFmts 0 = none := by
    decide +kernel
  refine ⟨⟨fun _ _ => Or.inl rfl, fun _ _ _ => rfl⟩, by decide +kernel, hraw,
    by decide +kernel, by decide +kernel, ?_⟩
  intro hagree
  have hsome := hagree.raw (fun _ _ => Or.inl rfl)
  rw [hraw] at hsome
  cases hsome

end Wiicompiled.Gx.VertexFifo
