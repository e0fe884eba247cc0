import Mathlib.Data.List.Basic

/-!
# AX command lists

A command list is an array of words that the guest announced by its size.  Before it is
mixed it is scanned for what has to be known at mail time: the number of its outputs, and
the blocks of aux input that it reads.  The mix walks the list a second time.

The words are a function of their index, so that an index behind the array has a word too:
whatever lies there.  Each walk returns the indices that it read.
-/

namespace Wiicompiled.Audio.AxDsp

def kAxSamplesPerFrame : ℕ := 96

/-- The number of words that the command list has room for. -/
def cmdListWords : ℕ := 512

/-- The number of aux blocks that a scan, a snapshot and a shadow have room for. -/
def auxBlocks : ℕ := 24

def Hilo (hi lo : UInt16) : UInt32 :=
  hi.toUInt32 <<< 16 ||| lo.toUInt32

inductive AXCommandLayout where
  | auto
  | new
  | newNoOutputVolume
  | old
deriving DecidableEq, Repr

inductive Cmd where
  | setup
  | addToLR
  | subToLR
  | addSubToLR
  | process
  | mixAuxA
  | mixAuxB
  | mixAuxC
  | uplAuxAMixLRSC
  | uplAuxBMixLRSC
  | compressor
  | output
  | outputDpl2
  | wmOutput
  | endOfList
deriving DecidableEq, Repr

/-- A word as a command, if it names one. -/
def Cmd.ofRaw (raw : UInt16) : Option Cmd :=
  match raw.toNat with
  | 0x00 => some .setup
  | 0x01 => some .addToLR
  | 0x02 => some .subToLR
  | 0x03 => some .addSubToLR
  | 0x04 => some .process
  | 0x05 => some .mixAuxA
  | 0x06 => some .mixAuxB
  | 0x07 => some .mixAuxC
  | 0x08 => some .uplAuxAMixLRSC
  | 0x09 => some .uplAuxBMixLRSC
  | 0x0a => some .compressor
  | 0x0b => some .output
  | 0x0c => some .outputDpl2
  | 0x0d => some .wmOutput
  | 0x0e => some .endOfList
  | _ => none

def kCmdSetPbAddressOld : UInt16 := 0x04

structure DecodedCommand where
  cmd : Option Cmd
  setsPbAddress : Bool

def DecodeCommand (raw : UInt16) (layout : AXCommandLayout) : DecodedCommand :=
  if layout ≠ .old then ⟨Cmd.ofRaw raw, false⟩
  else if raw = kCmdSetPbAddressOld then ⟨some .setup, true⟩
  else ⟨Cmd.ofRaw (if kCmdSetPbAddressOld < raw then raw - 1 else raw), false⟩

def UsesStashedPbAddress (layout : AXCommandLayout) : Bool :=
  layout = .old

def OutputCarriesVolume (layout : AXCommandLayout) : Bool :=
  layout ≠ .old ∧ layout ≠ .newNoOutputVolume

/-! ## The scan -/

structure CommandListScan where
  outputCommands : ℕ
  auxInputAddrs : List UInt32

def CanReadWords (cmdListSize idx count : ℕ) : Bool :=
  idx ≤ cmdListSize ∧ count ≤ cmdListSize - idx

/-- Consecutive blocks from an address on, as far as there is room for them. -/
def addAuxInput (addrs : List UInt32) (addr : UInt32) (blocks : ℕ) : List UInt32 :=
  (List.range blocks).foldl (fun addrs block =>
    if auxBlocks ≤ addrs.length then addrs
    else addrs ++ [addr + UInt32.ofNat (block * kAxSamplesPerFrame * 4)]) addrs

/-- What the scan does for a command: the words that it skips, the operands that hold an
address of aux input with the number of blocks there, and whether it counts an output. -/
structure ScanCase where
  words : ℕ
  auxInputs : List (ℕ × ℕ)
  countsOutput : Bool

def scanCase (layout : AXCommandLayout) : Cmd → Option ScanCase
  | .setup | .addToLR | .subToLR | .addSubToLR => some ⟨2, [], false⟩
  | .process => some ⟨if UsesStashedPbAddress layout then 0 else 2, [], false⟩
  | .mixAuxA | .mixAuxB | .mixAuxC => some ⟨5, [(3, 3)], false⟩
  | .uplAuxAMixLRSC | .uplAuxBMixLRSC =>
      some ⟨13, (List.range' 2 4).map fun slot => (1 + slot * 2, 1), false⟩
  | .compressor => some ⟨4, [], false⟩
  | .output | .outputDpl2 =>
      some ⟨if OutputCarriesVolume layout then 5 else 4, [], true⟩
  | .wmOutput => some ⟨8, [], false⟩
  | .endOfList => none

structure ScanResult where
  valid : Bool
  scan : CommandListScan
  reads : List ℕ

def ScanCase.apply (scanCase : ScanCase) (cmdList : ℕ → UInt16) (operandBase : ℕ)
    (scan : CommandListScan) : CommandListScan where
  outputCommands := scan.outputCommands + if scanCase.countsOutput then 1 else 0
  auxInputAddrs := scanCase.auxInputs.foldl (fun addrs input =>
    addAuxInput addrs
      (Hilo (cmdList (operandBase + input.1)) (cmdList (operandBase + input.1 + 1)))
      input.2) scan.auxInputAddrs

def ScanCase.reads (scanCase : ScanCase) (operandBase : ℕ) : List ℕ :=
  scanCase.auxInputs.flatMap fun input => [operandBase + input.1, operandBase + input.1 + 1]

/-- The walk of the scan.  Each turn moves on, so that a turn for each announced word and
one more are enough. -/
def scanLoop (layout : AXCommandLayout) (cmdListSize : ℕ) (cmdList : ℕ → UInt16) :
    ℕ → ℕ → CommandListScan → List ℕ → ScanResult
  | 0, _, scan, reads => ⟨false, scan, reads⟩
  | turns + 1, idx, scan, reads =>
      if CanReadWords cmdListSize idx 1 = false then ⟨false, scan, reads⟩
      else
        let decoded := DecodeCommand (cmdList idx) layout
        let reads := reads ++ [idx]
        let operandBase := idx + 1
        if decoded.setsPbAddress then
          if CanReadWords cmdListSize operandBase 2 = false then ⟨false, scan, reads⟩
          else scanLoop layout cmdListSize cmdList turns (operandBase + 2) scan reads
        else
          match decoded.cmd with
          | none => ⟨false, scan, reads⟩
          | some cmd =>
              match scanCase layout cmd with
              | none => ⟨operandBase ≤ cmdListSize, scan, reads⟩
              | some scanCase =>
                  if CanReadWords cmdListSize operandBase scanCase.words = false then
                    ⟨false, scan, reads⟩
                  else
                    scanLoop layout cmdListSize cmdList turns (operandBase + scanCase.words)
                      (scanCase.apply cmdList operandBase scan)
                      (reads ++ scanCase.reads operandBase)

def ScanCommandList (layout : AXCommandLayout) (cmdListSize : ℕ) (cmdList : ℕ → UInt16) :
    ScanResult :=
  scanLoop layout cmdListSize cmdList (cmdListSize + 1) 0 ⟨0, []⟩ []

/-! ## The mix -/

/-- What the mix is told to do by a command. -/
inductive Operation where
  | setupProcessing (initAddr : UInt32)
  | addToLR (addr : UInt32) (neg : Bool)
  | addSubToLR (addr : UInt32)
  | processPBList (pbAddr : UInt32) (newFilter oldAxLayout : Bool)
  | mixAUXSamples (auxId : ℕ) (writeAddr readAddr : UInt32) (volume : UInt16)
  | uploadAUXMixLRSC (auxId : ℕ) (addresses : List UInt32) (volume : UInt16)
  | runCompressor (threshold releaseFrames : UInt16) (tableAddr : UInt32)
  | outputSamples (lrAddr surroundAddr : UInt32) (volume : UInt16) (uploadAuxC : Bool)
  | outputWMSamples (addresses : List UInt32)
deriving DecidableEq, Repr

/-- The index of a walk, and the indices that were read. -/
structure Cursor where
  idx : ℕ
  reads : List ℕ

def Cursor.next (cmdList : ℕ → UInt16) (cursor : Cursor) : UInt16 × Cursor :=
  (cmdList cursor.idx, ⟨cursor.idx + 1, cursor.reads ++ [cursor.idx]⟩)

def ReadAddress (cmdList : ℕ → UInt16) (cursor : Cursor) : UInt32 × Cursor :=
  let (hi, cursor) := cursor.next cmdList
  let (lo, cursor) := cursor.next cmdList
  (Hilo hi lo, cursor)

/-- Several addresses in a row. -/
def readAddresses (cmdList : ℕ → UInt16) : ℕ → Cursor → List UInt32 × Cursor
  | 0, cursor => ([], cursor)
  | count + 1, cursor =>
      let (addr, cursor) := ReadAddress cmdList cursor
      let (addrs, cursor) := readAddresses cmdList count cursor
      (addr :: addrs, cursor)

/-- One command of the mix; there is none for the end of the list. -/
def executeCommand (layout : AXCommandLayout) (newFilter : Bool) (oldPbAddr : UInt32)
    (cmdList : ℕ → UInt16) (cursor : Cursor) : Cmd → Option (Operation × Cursor)
  | .setup =>
      let (addr, cursor) := ReadAddress cmdList cursor
      some (.setupProcessing addr, cursor)
  | .addToLR =>
      let (addr, cursor) := ReadAddress cmdList cursor
      some (.addToLR addr false, cursor)
  | .subToLR =>
      let (addr, cursor) := ReadAddress cmdList cursor
      some (.addToLR addr true, cursor)
  | .addSubToLR =>
      let (addr, cursor) := ReadAddress cmdList cursor
      some (.addSubToLR addr, cursor)
  | .process =>
      if UsesStashedPbAddress layout then
        some (.processPBList oldPbAddr newFilter true, cursor)
      else
        let (addr, cursor) := ReadAddress cmdList cursor
        some (.processPBList addr newFilter false, cursor)
  | .mixAuxA => some (mixAux 0 cursor)
  | .mixAuxB => some (mixAux 1 cursor)
  | .mixAuxC => some (mixAux 2 cursor)
  | .uplAuxAMixLRSC => some (uploadAux 0 cursor)
  | .uplAuxBMixLRSC => some (uploadAux 1 cursor)
  | .compressor =>
      let (volume, cursor) := cursor.next cmdList
      let (frames, cursor) := cursor.next cmdList
      let (addr, cursor) := ReadAddress cmdList cursor
      some (.runCompressor volume frames addr, cursor)
  | .output => some (output false cursor)
  | .outputDpl2 => some (output true cursor)
  | .wmOutput =>
      let (addresses, cursor) := readAddresses cmdList 4 cursor
      some (.outputWMSamples addresses, cursor)
  | .endOfList => none
where
  mixAux (auxId : ℕ) (cursor : Cursor) : Operation × Cursor :=
    let (volume, cursor) := cursor.next cmdList
    let (addr, cursor) := ReadAddress cmdList cursor
    let (addr2, cursor) := ReadAddress cmdList cursor
    (.mixAUXSamples auxId addr addr2 volume, cursor)
  uploadAux (auxId : ℕ) (cursor : Cursor) : Operation × Cursor :=
    let (volume, cursor) := cursor.next cmdList
    let (addresses, cursor) := readAddresses cmdList 6 cursor
    (.uploadAUXMixLRSC auxId addresses volume, cursor)
  output (uploadAuxC : Bool) (cursor : Cursor) : Operation × Cursor :=
    let (volume, cursor) :=
      if OutputCarriesVolume layout then cursor.next cmdList else (0x8000, cursor)
    let (addr, cursor) := ReadAddress cmdList cursor
    let (addr2, cursor) := ReadAddress cmdList cursor
    (.outputSamples addr2 addr volume uploadAuxC, cursor)

/-- What the mix did: its operations in their order, and the indices that it read. -/
structure Execution where
  operations : List Operation
  reads : List ℕ

/-- The walk of the mix. -/
def executeLoop (layout : AXCommandLayout) (newFilter : Bool) (cmdListSize : ℕ)
    (cmdList : ℕ → UInt16) : ℕ → Cursor → UInt32 → List Operation → Execution
  | 0, cursor, _, operations => ⟨operations, cursor.reads⟩
  | turns + 1, cursor, oldPbAddr, operations =>
      if cursor.idx < cmdListSize then
        let (raw, cursor) := cursor.next cmdList
        let decoded := DecodeCommand raw layout
        if decoded.setsPbAddress then
          let (oldPbAddr, cursor) := ReadAddress cmdList cursor
          executeLoop layout newFilter cmdListSize cmdList turns cursor oldPbAddr operations
        else
          -- An unknown command ends the walk as the end of the list does.
          match decoded.cmd.bind (executeCommand layout newFilter oldPbAddr cmdList cursor) with
          | none => ⟨operations, cursor.reads⟩
          | some (operation, cursor) =>
              executeLoop layout newFilter cmdListSize cmdList turns cursor oldPbAddr
                (operations ++ [operation])
      else ⟨operations, cursor.reads⟩

def ExecuteCommandList (layout : AXCommandLayout) (newFilter : Bool) (cmdListSize : ℕ)
    (cmdList : ℕ → UInt16) : Execution :=
  executeLoop layout newFilter cmdListSize cmdList (cmdListSize + 1) ⟨0, []⟩ 0 []

def Operation.isOutput : Operation → Bool
  | .outputSamples .. => true
  | _ => false

end Wiicompiled.Audio.AxDsp
