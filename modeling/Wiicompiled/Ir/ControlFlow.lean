import Wiicompiled.Ir.Nodes

/-!
# Control flow between blocks

Blocks are found by their label, and a block that does not end in a control
transfer continues with the next block in list order.
-/

namespace Wiicompiled
namespace Ir

namespace IrFunction

def ordinal (function : IrFunction) (label : String) : Option ℕ :=
  function.blocks.findIdx? fun block => block.label = label

def blockAt (function : IrFunction) (index : ℕ) : IrBasicBlock :=
  function.blocks.getD index ⟨"", []⟩

def DistinctLabels (function : IrFunction) : Prop :=
  (function.blocks.map IrBasicBlock.label).Nodup

instance (function : IrFunction) : Decidable function.DistinctLabels :=
  inferInstanceAs (Decidable (List.Nodup _))

theorem ordinal_lt
    {function : IrFunction} {label : String} {index : ℕ}
    (h : function.ordinal label = some index) :
    index < function.blocks.length := by
  obtain ⟨hlt, -⟩ := List.findIdx?_eq_some_iff_getElem.mp h
  exact hlt

theorem label_blockAt_ordinal
    {function : IrFunction} {label : String} {index : ℕ}
    (h : function.ordinal label = some index) :
    (function.blockAt index).label = label := by
  obtain ⟨hlt, hlabel, -⟩ := List.findIdx?_eq_some_iff_getElem.mp h
  simpa [blockAt, hlt] using hlabel

theorem ordinal_label
    {function : IrFunction} (h : function.DistinctLabels) {index : ℕ}
    (hlt : index < function.blocks.length) :
    function.ordinal (function.blockAt index).label = some index := by
  rw [ordinal, List.findIdx?_eq_some_iff_getElem]
  have hblock : function.blockAt index = function.blocks[index] := by
    simp [blockAt, hlt]
  refine ⟨hlt, by simp [hblock], fun j hj => ?_⟩
  intro heq
  have hsame : function.blocks[j].label = function.blocks[index].label := by
    simpa [hblock] using heq
  have hinjective : ∀ (hi : j < (function.blocks.map IrBasicBlock.label).length)
      (hk : index < (function.blocks.map IrBasicBlock.label).length),
      (function.blocks.map IrBasicBlock.label)[j] =
        (function.blocks.map IrBasicBlock.label)[index] → j = index :=
    fun _ _ => (List.Nodup.getElem_inj_iff h).mp
  have hij := hinjective (by rw [List.length_map]; omega) (by simpa using hlt)
    (by simpa using hsame)
  omega

theorem blockAt_mem
    {function : IrFunction} {index : ℕ} (h : index < function.blocks.length) :
    function.blockAt index ∈ function.blocks := by
  simp [blockAt, h]

theorem lt_of_mem_blockAt
    {function : IrFunction} {index : ℕ} {i : IrInstruction}
    (h : i ∈ (function.blockAt index).instructions) :
    index < function.blocks.length := by
  by_contra hge
  simp [blockAt, List.getElem?_eq_none (Nat.le_of_not_lt hge)] at h

end IrFunction

namespace IrInstruction

/-- The labels to which a control transfer may go. -/
def targets : IrInstruction → List String
  | .branch _ trueLabel falseLabel _ => [trueLabel, falseLabel]
  | .jump targetLabel => [targetLabel]
  | .jumpTable _ cases => cases.map IrJumpTableCase.targetLabel
  | _ => []

/-- Instructions after which control goes to one of their targets. -/
def transfers : IrInstruction → Bool
  | .branch .. | .jump .. | .jumpTable .. => true
  | _ => false

/-- Instructions after which control does not come back to the function. -/
def stops : IrInstruction → Bool
  | .ret .. | .indirectJump .. | .undefined .. => true
  | _ => false

end IrInstruction

namespace IrInstruction

/-- Instructions whose execution ends in a trap. -/
def traps : IrInstruction → Bool
  | .undefined .. => true
  | _ => false

end IrInstruction

/-- Control transfers and returns stand only at the end of a block, where the
front end cuts its blocks; an untranslatable instruction may stand anywhere. -/
def ControlAtEnds (function : IrFunction) : Prop :=
  ∀ block ∈ function.blocks, ∀ i ∈ block.instructions.dropLast,
    i.transfers = false ∧ (i.stops = true → i.traps = true)

instance (function : IrFunction) : Decidable (ControlAtEnds function) :=
  inferInstanceAs (Decidable (∀ block ∈ function.blocks,
    ∀ i ∈ block.instructions.dropLast,
      i.transfers = false ∧ (i.stops = true → i.traps = true)))

theorem ControlAtEnds.inner
    {function : IrFunction} (h : ControlAtEnds function)
    {block : IrBasicBlock} (hblock : block ∈ function.blocks)
    {front back : List IrInstruction} {i : IrInstruction}
    (hsplit : block.instructions = front ++ i :: back) (hback : back ≠ []) :
    i.transfers = false ∧ (i.stops = true → i.traps = true) := by
  refine h block hblock i ?_
  rw [hsplit, List.dropLast_append_of_ne_nil (List.cons_ne_nil i back),
    List.dropLast_cons_of_ne_nil hback]
  simp

theorem plain_append
    {front : List IrInstruction} {i : IrInstruction}
    (h : ∀ j ∈ front, j.transfers = false ∧ j.stops = false) (htransfers : i.transfers = false)
    (hstops : i.stops = false) : ∀ j ∈ front ++ [i], j.transfers = false ∧ j.stops = false :=
  List.forall_mem_append.mpr ⟨h, List.forall_mem_singleton.mpr ⟨htransfers, hstops⟩⟩

theorem ControlAtEnds.last
    {function : IrFunction} (h : ControlAtEnds function)
    {block : IrBasicBlock} (hblock : block ∈ function.blocks)
    {front back : List IrInstruction} {i : IrInstruction} {label : String}
    (hsplit : block.instructions = front ++ i :: back) (hlabel : label ∈ i.targets) :
    i.transfers = true ∧ back = [] := by
  have htransfers : i.transfers = true := by
    cases i <;> first | rfl | simp [IrInstruction.targets] at hlabel
  refine ⟨htransfers, ?_⟩
  by_contra hne
  rw [(h.inner hblock hsplit hne).1] at htransfers
  exact Bool.false_ne_true htransfers

end Ir
end Wiicompiled
