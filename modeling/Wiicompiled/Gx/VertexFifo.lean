import Wiicompiled.Gx.VertexWalkers

/-!
# Vertices written to the command FIFO

`HleFifoWrite` takes a primitive apart while its bytes arrive: every write
queues one, two or four bytes, and a loop then consumes as many attributes as
the queue holds.  An attribute may be split between writes at every component,
and a write may straddle two vertices.

The position of the parser in the primitive carries the proof.  A step of the
loop moves the position by what it takes from the queue, and the loop stops
only where the queue holds less than the rest of the vertex.  The number of
finished vertices is therefore the number of bytes received, divided by the
vertex size of the walkers.
-/

namespace Wiicompiled.Gx.VertexFifo

/-! ## State -/

structure HleGxState where
  vtxDesc : VtxDesc
  vtxAttrFmt : Nat → VtxAttrFmts
  currentVtxFmt : Nat
  vertsRemaining : Nat
  inBegin : Bool
  /-- `GX_VA_NULL` is `none`. -/
  currentAttr : Option Nat
  currentComp : Nat
  /-- The queued bytes, from the read offset on. -/
  fifoBytes : List UInt8

/-- The capacity of the byte queue. -/
def fifoCapacity : Nat := 4096

/-- `NextEnabledAttr`, given the first attribute to look at. -/
def nextEnabledAttr (vtxDesc : VtxDesc) (first : Nat) : Option Nat :=
  (List.range' first (GXAttr.count - first)).find? fun attr => vtxDesc attr ≠ .none

namespace HleGxState

def resetVertex (s : HleGxState) : HleGxState :=
  { s with currentAttr := nextEnabledAttr s.vtxDesc 0, currentComp := 0 }

/-- The bytes leave the front of the queue. -/
def consume (s : HleGxState) (count : Nat) : HleGxState :=
  { s with fifoBytes := s.fifoBytes.drop count }

/-- The state in which the first vertex of a primitive is expected, with the
bytes that are queued behind the header. -/
def beginPrimitive (s : HleGxState) (vtxFmt vtxCount : Nat) (queued : List UInt8) :
    HleGxState :=
  resetVertex
    { s with
      currentVtxFmt := vtxFmt
      vertsRemaining := vtxCount
      inBegin := true
      fifoBytes := queued }

end HleGxState

/-! ## Writes -/

/-- The three widths of the FIFO entry points. -/
inductive FifoWrite where
  | write8 (val : UInt8)
  | write16 (val : UInt16)
  | write32 (val : UInt32)

def FifoWrite.bytes : FifoWrite → List UInt8
  | .write8 val => [val]
  | .write16 val => [(val >>> 8).toUInt8, val.toUInt8]
  | .write32 val =>
      [(val >>> 24).toUInt8, (val >>> 16).toUInt8, (val >>> 8).toUInt8, val.toUInt8]

theorem FifoWrite.bytes_length_le
    (write : FifoWrite) :
    write.bytes.length ≤ 4 := by
  cases write <;> simp [FifoWrite.bytes]

/-- The bytes go to the end of the queue, which is emptied when they do not fit. -/
def pushBytes (s : HleGxState) (write : FifoWrite) : HleGxState :=
  if fifoCapacity < s.fifoBytes.length + write.bytes.length then
    { s with fifoBytes := write.bytes }
  else
    { s with fifoBytes := s.fifoBytes ++ write.bytes }

/-! ## The loop over the attributes of a primitive -/

def finishVertexIfNeeded (s : HleGxState) (prevAttr : Nat) : HleGxState :=
  match nextEnabledAttr s.vtxDesc (prevAttr + 1) with
  | some attr => { s with currentAttr := some attr, currentComp := 0 }
  | none =>
      let s := s.resetVertex
      if 0 < s.vertsRemaining then
        { s with
          vertsRemaining := s.vertsRemaining - 1
          inBegin := if s.vertsRemaining - 1 = 0 then false else s.inBegin }
      else s

/-- The way an iteration ends: by leaving the loop, or with another one. -/
inductive LoopStep where
  | stop (s : HleGxState)
  | next (s : HleGxState)

def vertexStep (s : HleGxState) : LoopStep :=
  if s.inBegin then
    match s.currentAttr with
    | none => .stop { s with fifoBytes := [] }
    | some attr =>
        let fmt := s.vtxAttrFmt s.currentVtxFmt attr
        if isMatrixIndexAttr attr then
          if s.fifoBytes.length < 1 then .stop s
          else .next (finishVertexIfNeeded (s.consume 1) attr)
        else
          match s.vtxDesc attr with
          | .direct =>
              if attr = GXAttr.clr0 ∨ attr = GXAttr.clr1 then
                let colorSize := colorByteSize fmt.type fmt.cnt
                if s.fifoBytes.length < colorSize then .stop s
                else .next (finishVertexIfNeeded (s.consume colorSize) attr)
              else
                let compSize := getCompSizeBytes fmt.type
                if s.fifoBytes.length < compSize then .stop s
                else
                  let s := { s.consume compSize with currentComp := s.currentComp + 1 }
                  if attrCompCount attr fmt 1 ≤ s.currentComp then
                    .next (finishVertexIfNeeded s attr)
                  else .next s
          | .index8 =>
              let indexCount := if attr = GXAttr.nrm then normalIndexCount fmt else 1
              if s.fifoBytes.length < indexCount then .stop s
              else .next (finishVertexIfNeeded (s.consume indexCount) attr)
          | .index16 =>
              let indexCount := if attr = GXAttr.nrm then normalIndexCount fmt else 1
              if s.fifoBytes.length < indexCount * 2 then .stop s
              else .next (finishVertexIfNeeded (s.consume (indexCount * 2)) attr)
          | .none =>
              -- the descriptor has changed under the primitive
              match nextEnabledAttr s.vtxDesc (attr + 1) with
              | some other => .stop { s with currentAttr := some other, currentComp := 0 }
              | none => .stop s.resetVertex
  else .stop s

/-- The loop; every iteration but the last takes a byte from the queue. -/
def vertexLoop : Nat → HleGxState → HleGxState
  | 0, s => s
  | fuel + 1, s =>
      match vertexStep s with
      | .stop s => s
      | .next s => vertexLoop fuel s

/-- The loop with enough iterations for the queue. -/
def parseVertices (s : HleGxState) : HleGxState :=
  vertexLoop (s.fifoBytes.length + 1) s

/-- A write outside display list recording.  The commands between primitives
are parsed by `parseCommands`. -/
def hleFifoWrite (parseCommands : HleGxState → HleGxState) (s : HleGxState)
    (write : FifoWrite) : HleGxState :=
  let s := pushBytes s write
  let s := if s.inBegin then s else parseCommands s
  if s.inBegin then parseVertices s else s

/-! ## The header of a primitive -/

/-- What the command parser does with a queue that starts with a draw command. -/
inductive DrawResult where
  | wait
  | drawn (s : HleGxState)
  | begun (s : HleGxState)

/-- The draw command of the command parser: `submitRawDraw` is the answer of the
graphics library to a packet that is complete in the queue. -/
def parseDraw (submitRawDraw : Bool) (s : HleGxState) : DrawResult :=
  match s.fifoBytes with
  | cmd :: high :: low :: queued =>
      let vtxCount := high.toNat * 256 + low.toNat
      let vtxFmt := cmd.toNat % maxVtxFmt
      match tryGetRawDirectFifoVertexSize s.vtxDesc s.vtxAttrFmt vtxFmt with
      | none => .begun (s.beginPrimitive vtxFmt vtxCount queued)
      | some rawVertexSize =>
          let packetBytes := 3 + vtxCount * rawVertexSize
          if s.fifoBytes.length < packetBytes then .wait
          else if vtxCount ≠ 0 ∧ submitRawDraw then
            .drawn
              { s.beginPrimitive vtxFmt vtxCount (s.fifoBytes.drop packetBytes) with
                inBegin := false }
          else .begun (s.beginPrimitive vtxFmt vtxCount queued)
  | _ => .wait

/-! ## The next attribute -/

theorem nextEnabledAttr_eq_some
    {vtxDesc : VtxDesc} {first attr : Nat}
    (hnext : nextEnabledAttr vtxDesc first = some attr) :
    first ≤ attr ∧ attr < GXAttr.count ∧ vtxDesc attr ≠ .none ∧
      ∀ other, first ≤ other → other < attr → vtxDesc other = .none := by
  obtain ⟨hpresent, hmem, habsent⟩ := List.find?_range'_eq_some.mp hnext
  rw [List.mem_range'_1] at hmem
  refine ⟨hmem.1, by omega, by simpa using hpresent, ?_⟩
  intro other hle hlt
  simpa using habsent other hle hlt

theorem nextEnabledAttr_eq_none
    {vtxDesc : VtxDesc} {first : Nat}
    (hnext : nextEnabledAttr vtxDesc first = none) :
    ∀ attr, first ≤ attr → attr < GXAttr.count → vtxDesc attr = .none := by
  intro attr hle hlt
  have habsent := List.find?_eq_none.mp hnext attr (by rw [List.mem_range'_1]; omega)
  simpa using habsent

/-- Going to the next attribute passes over nothing but absent ones. -/
theorem sizeBefore_of_nextEnabledAttr
    {vtxDesc : VtxDesc} (vtxAttrFmt : VtxAttrFmts) {first attr : Nat}
    (hnext : nextEnabledAttr vtxDesc first = some attr) :
    sizeBefore vtxDesc vtxAttrFmt attr = sizeBefore vtxDesc vtxAttrFmt first := by
  obtain ⟨hle, -, -, habsent⟩ := nextEnabledAttr_eq_some hnext
  exact sizeBefore_eq_of_absent vtxAttrFmt hle habsent

theorem calcDLVertexSize_of_nextEnabledAttr
    {vtxDesc : VtxDesc} (vtxAttrFmt : VtxAttrFmts) {first : Nat}
    (hfirst : first ≤ GXAttr.count) (hnext : nextEnabledAttr vtxDesc first = none) :
    calcDLVertexSize vtxDesc vtxAttrFmt = sizeBefore vtxDesc vtxAttrFmt first :=
  sizeBefore_eq_of_absent vtxAttrFmt hfirst (nextEnabledAttr_eq_none hnext)

theorem exists_nextEnabledAttr_zero
    {vtxDesc : VtxDesc} {attr : Nat} (hattr : attr < GXAttr.count)
    (hpresent : vtxDesc attr ≠ .none) :
    ∃ first, nextEnabledAttr vtxDesc 0 = some first := by
  rw [← Option.ne_none_iff_exists']
  intro hnone
  exact hpresent (nextEnabledAttr_eq_none hnone attr (Nat.zero_le attr) hattr)

end Wiicompiled.Gx.VertexFifo
