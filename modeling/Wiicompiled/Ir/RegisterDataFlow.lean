import Wiicompiled.Ir.RegisterNames

/-!
# Operand uses and definitions

The names an instruction uses and defines explicitly.  State that a call
reaches through the register context is not listed here.
-/

namespace Wiicompiled.Ir

/-- The base spelling of a value name, without its version. -/
def baseName (name : String) : List Char :=
  stripNumericSuffixSpan name.toList

/-- The further registers that are recognised by their whole name. -/
def namedRegisters : List String :=
  ["cr", "lr", "ctr", "xer", "fpscr", "msr", "dar", "dsisr", "iccr", "tbr",
    "tbl", "tbu", "hid0", "hid1", "hid2", "srr0", "srr1"]

def isRegisterName (name : String) : Bool :=
  if isNullOrWhiteSpace name then false
  else
    let base := baseName name
    let below := fun (digits : List Char) (limit : Int) =>
      match tryParseInt digits with
      | some n => decide (0 ≤ n ∧ n < limit)
      | none => false
    (decide (2 ≤ base.length ∧ base.length ≤ 3) &&
        (base.head? = some 'r' || base.head? = some 'f') &&
        below (base.drop 1) 32) ||
      (base.length = 3 && startsWithIgnoreCase base "cr".toList &&
        ((base.drop 2).all fun c => '0' ≤ c && c ≤ '7')) ||
      (decide (4 ≤ base.length ∧ base.length ≤ 5) &&
        startsWithIgnoreCase base "crb".toList && below (base.drop 3) 32) ||
      (base.length = 4 && startsWithIgnoreCase base "gqr".toList &&
        ((base.drop 3).all fun c => '0' ≤ c && c ≤ '7')) ||
      namedRegisters.any fun r => equalsIgnoreCase base r.toList

/-- The register an operand names, if it is a register operand. -/
def IrValue.tryRegister (value : IrValue) : Option String :=
  if value.kind = "register" ∧ value.registerName.getD "" ≠ "" then
    value.registerName
  else none

namespace IrInstruction

/-- The names an instruction reads as operands. -/
def uses : IrInstruction → List String
  | .assign _ value => value.tryRegister.toList
  | .binary _ left right _ =>
      left.tryRegister.toList ++ right.tryRegister.toList
  | .load _ address _ => [address.base]
  | .store address source _ => address.base :: source.tryRegister.toList
  | .resolveGuestMemoryRange _ base _ _ _ _ => base.tryRegister.toList
  | .resolvedLoad _ _ originalAddress _ _ => [originalAddress.base]
  | .resolvedStore _ originalAddress _ source _ =>
      originalAddress.base :: source.tryRegister.toList
  | .resolvedPsqLoad _ _ originalAddress _ _ i knownGqr guardKnownGqr =>
      originalAddress.tryRegister.toList ++
        if knownGqr = none ∨ guardKnownGqr then ["gqr" ++ toString i.toNat]
        else []
  | .resolvedPsqStore _ originalAddress _ source _ i knownGqr guardKnownGqr =>
      originalAddress.tryRegister.toList ++ source.tryRegister.toList ++
        if knownGqr = none ∨ guardKnownGqr then ["gqr" ++ toString i.toNat]
        else []
  | .resolvedLoadPair _ _ _ first second _ _ _ => [first.base, second.base]
  | .resolvedStorePair _ first second _ firstSource secondSource _ _ =>
      first.base :: second.base ::
        (firstSource.tryRegister.toList ++ secondSource.tryRegister.toList)
  | .call _ _ arguments => arguments.filterMap IrValue.tryRegister
  | .indirectCall _ target arguments =>
      target.tryRegister.toList ++ arguments.filterMap IrValue.tryRegister
  | .indirectJump target => target.tryRegister.toList
  | .ret value => (value.bind IrValue.tryRegister).toList
  | .branch _ _ _ conditionRegister =>
      if isRegisterName conditionRegister then [conditionRegister] else []
  | .phi _ sources => sources.entries.map Prod.snd
  | .setCrField _ left right _ =>
      left.tryRegister.toList ++ right.tryRegister.toList ++ ["xer"]
  | .jumpTable selector _ => [selector]
  | .jump .. | .comment .. | .tracePpc .. | .undefined .. => []

/-- The names an instruction writes as destinations. -/
def definitions : IrInstruction → List String
  | .assign destination _ => [destination]
  | .binary destination _ _ _ => [destination]
  | .load destination _ _ => [destination]
  | .resolveGuestMemoryRange destination _ _ _ _ _ => [destination]
  | .resolvedLoad destination _ _ _ _ => [destination]
  | .resolvedPsqLoad destination _ _ _ _ _ _ _ => [destination]
  | .resolvedLoadPair firstDestination secondDestination _ _ _ _ _ _ =>
      [firstDestination, secondDestination]
  | .call destination _ _ | .indirectCall destination _ _ =>
      if isNullOrWhiteSpace destination then [] else [destination]
  | .phi destination _ => [destination]
  | .setCrField fieldIndex _ _ _ => ["cr" ++ toString fieldIndex.toInt]
  | .store .. | .resolvedStore .. | .resolvedPsqStore ..
  | .resolvedStorePair .. | .branch .. | .jump .. | .indirectJump ..
  | .jumpTable .. | .ret .. | .comment .. | .tracePpc .. | .undefined .. => []

end IrInstruction

end Wiicompiled.Ir
