import Wiicompiled.Disassembly.PpcDisassembler
import Mathlib.Algebra.Ring.Nat

/-!
# Decoding of branches

The decoder's cases for the primary opcodes 16, 18 and 19: relative and absolute branches,
branches to the link and count registers, and the condition register instructions beside
them.  All other instructions have no branch targets and neither return nor call; their
mnemonics and operands are left as a parameter.
-/

namespace Wiicompiled.Disassembly

open Ir

/-- The decoding of an instruction of another primary opcode.  None is a jump through the
count register. -/
structure PlainInstruction where
  mnemonic : String
  operands : List PpcOperand
  isConditionalBranch : Bool
  mnemonic_ne : equalsIgnoreCase mnemonic.toList "bctr".toList = false

namespace PpcDecoder

/-! ## Fields -/

def GetField (word : UInt32) (startBit : ℕ) (width : ℕ) : ℕ :=
  (word.toNat >>> startBit) % 2 ^ width

/-- The low bits of a word as a signed number. -/
def SignExtend (value bits : UInt32) : Int32 :=
  (value <<< (32 - bits)).toInt32 >>> (32 - bits).toInt32

def CrField (field : ℕ) : PpcOperand :=
  .conditionRegister ("cr" ++ toString field) (Int32.ofNat (field * 4))

def CrBit (bit : ℕ) : PpcOperand :=
  .conditionRegister ("crb" ++ toString bit) (Int32.ofNat bit)

def immediate (value : ℕ) : PpcOperand :=
  .immediate (Int32.ofNat value) false

/-- The operand of a condition register field other than the first. -/
def crOperand (field : ℕ) : List PpcOperand :=
  if field ≠ 0 then [CrField field] else []

/-! ## Relative and absolute branches -/

def displacedTarget (address word : UInt32) (displacement : Int32) : UInt32 :=
  if GetField word 1 1 ≠ 0 then displacement.toUInt32 else address + displacement.toUInt32

/-- The target of `bc`. -/
def bcTarget (address word : UInt32) : UInt32 :=
  displacedTarget address word (SignExtend ((word >>> 2) &&& 0x3FFF) 14 <<< 2)

/-- The target of `b`. -/
def bTarget (address word : UInt32) : UInt32 :=
  displacedTarget address word (SignExtend ((word >>> 2) &&& 0x00FFFFFF) 24 <<< 2)

def TrueCrBranchMnemonics : List String :=
  ["blt", "bgt", "beq", "bso"]

def FalseCrBranchMnemonics : List String :=
  ["bge", "ble", "bne", "bns"]

/-- The extended mnemonic of a branch on a condition bit, whatever the hint bits. -/
def TryDecodeCrBranchMnemonic (bo bi : ℕ) : Option String :=
  if bo / 2 = 6 then some (TrueCrBranchMnemonics.getD (bi % 4) "")
  else if bo / 2 = 2 then some (FalseCrBranchMnemonics.getD (bi % 4) "")
  else none

/-- The mnemonic of `bc` and its operands before the condition register field. -/
def bcMnemonic (bo bi : ℕ) (lk : Bool) : String × List PpcOperand :=
  match TryDecodeCrBranchMnemonic bo bi with
  | some mnemonic => (if lk then mnemonic ++ "l" else mnemonic, [])
  | none =>
      if bo / 2 = 8 then (if lk then "bdnzl" else "bdnz", [])
      else if bo / 2 = 9 then (if lk then "bdzl" else "bdz", [])
      else (if lk then "bcl" else "bc", [immediate bo, immediate bi])

def decodePrimary16 (address word : UInt32) : PpcInstruction :=
  let bo := GetField word 21 5
  let bi := GetField word 16 5
  let lk := GetField word 0 1 ≠ 0
  let target := bcTarget address word
  { address := address
    word := word
    mnemonic := (bcMnemonic bo bi lk).1
    operands := (bcMnemonic bo bi lk).2 ++ crOperand (bi / 4) ++ [.branchTarget target]
    branchTargets := [target]
    isReturn := false
    isCall := lk
    isConditionalBranch := true }

def decodePrimary18 (address word : UInt32) : PpcInstruction :=
  let lk := GetField word 0 1 ≠ 0
  let target := bTarget address word
  { address := address
    word := word
    mnemonic := if lk then "bl" else "b"
    operands := [.branchTarget target]
    branchTargets := [target]
    isReturn := false
    isCall := lk
    isConditionalBranch := false }

/-! ## Branches through registers -/

/-- The mnemonic of a conditional branch to the link register. -/
def bclrMnemonic (bo crBit : ℕ) : String :=
  match bo, crBit with
  | 12, 0 => "bltlr"
  | 12, 1 => "bgtlr"
  | 12, 2 => "beqlr"
  | 12, 3 => "bsolr"
  | 4, 0 => "bgelr"
  | 4, 1 => "blelr"
  | 4, 2 => "bnelr"
  | 4, 3 => "bnslr"
  | _, _ => "bclr"

/-- The logical instructions on condition register bits. -/
def crLogicalMnemonic : ℕ → Option String
  | 33 => some "crnor"
  | 129 => some "crandc"
  | 193 => some "crxor"
  | 225 => some "crnand"
  | 257 => some "crand"
  | 289 => some "creqv"
  | 417 => some "crorc"
  | 449 => some "cror"
  | _ => none

/-- An instruction of opcode 19 without branch targets. -/
def primary19 (address word : UInt32) (mnemonic : String) (operands : List PpcOperand)
    (isReturn isCall isConditionalBranch : Bool) : PpcInstruction :=
  ⟨address, word, mnemonic, operands, [], isReturn, isCall, isConditionalBranch⟩

def decodeBclr (address word : UInt32) : PpcInstruction :=
  let bo := GetField word 21 5
  let bi := GetField word 16 5
  let lk := GetField word 0 1 ≠ 0
  let mnemonic :=
    if bo = 20 then (if lk then "blrl" else "blr")
    else if lk then bclrMnemonic bo (bi % 4) ++ "l" else bclrMnemonic bo (bi % 4)
  primary19 address word mnemonic (if bo ≠ 20 then crOperand (bi / 4) else [])
    (!lk && equalsIgnoreCase (mnemonic.toList.drop (mnemonic.length - 2)) "lr".toList)
    lk (bo ≠ 20)

def decodeBcctr (address word : UInt32) : PpcInstruction :=
  let bo := GetField word 21 5
  let bi := GetField word 16 5
  let lk := GetField word 0 1 ≠ 0
  let mnemonic :=
    if bo = 20 then (if lk then "bctrl" else "bctr") else if lk then "bcctrl" else "bcctr"
  primary19 address word mnemonic (if bo ≠ 20 then crOperand (bi / 4) else [])
    (!lk && bo = 20) lk (bo ≠ 20)

def decodePrimary19 (address word : UInt32) : PpcInstruction :=
  let field0 := GetField word 21 5
  let field1 := GetField word 16 5
  let field2 := GetField word 11 5
  let xo := GetField word 1 10
  if xo = 16 then decodeBclr address word
  else if xo = 528 then decodeBcctr address word
  else if xo = 50 then primary19 address word "rfi" [] true false false
  else if xo = 150 then primary19 address word "isync" [] false false false
  else if xo = 0 then
    primary19 address word "mcrf" [CrField (field0 / 4), CrField (field1 / 4)]
      false false false
  else
    match crLogicalMnemonic xo with
    | some mnemonic =>
        primary19 address word mnemonic [CrBit field0, CrBit field1, CrBit field2]
          false false false
    | none => primary19 address word "unk19" [] false false false

/-- The decoder, with the other primary opcodes as a parameter. -/
def Decode (plain : UInt32 → PlainInstruction) (address word : UInt32) : PpcInstruction :=
  match GetField word 26 6 with
  | 16 => decodePrimary16 address word
  | 18 => decodePrimary18 address word
  | 19 => decodePrimary19 address word
  | _ =>
      { address := address
        word := word
        mnemonic := (plain word).mnemonic
        operands := (plain word).operands
        branchTargets := []
        isReturn := false
        isCall := false
        isConditionalBranch := (plain word).isConditionalBranch }

example : (decodePrimary18 0x80004000 0x4BFFFFFC).branchTargets = [0x80003FFC] := by decide

end PpcDecoder
end Wiicompiled.Disassembly
