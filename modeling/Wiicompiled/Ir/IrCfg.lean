import Mathlib.Data.List.Dedup
import Wiicompiled.Ir.ControlFlow
import Wiicompiled.Ir.RegisterNames

/-!
# The control-flow graph of the translator

`IrCfg.Build` looks blocks up without regard to the case of their labels and
takes the edges from the last instruction of each block.  Blocks are identified
by their ordinals.
-/

namespace Wiicompiled.Ir.IrCfg

/-- The ordinal of the block with a given label, whatever its case. -/
def ordinal (function : IrFunction) (label : String) : Option ℕ :=
  function.blocks.findIdx? fun block => folded block.label = folded label

/-- Labels are distinct even without their case; `Build` throws otherwise. -/
def DistinctLabels (function : IrFunction) : Prop :=
  (function.blocks.map fun block => folded block.label).Nodup

instance (function : IrFunction) : Decidable (DistinctLabels function) :=
  inferInstanceAs (Decidable (List.Nodup _))

/-- The successors of a block, as `Build` lists them.  An empty block has none,
not even the block it falls through to. -/
def successors (function : IrFunction) (index : ℕ) : List ℕ :=
  match (function.blockAt index).instructions.getLast? with
  | none => []
  | some (.jumpTable selector cases) =>
      ((IrInstruction.jumpTable selector cases).targets.filterMap
        (ordinal function)).eraseDups
  | some i =>
      if i.transfers then i.targets.filterMap (ordinal function)
      else if i.stops then []
      else if index + 1 < function.blocks.length then [index + 1]
      else []

/-- The predecessors of a block, one for each edge, in block order. -/
def predecessors (function : IrFunction) (index : ℕ) : List ℕ :=
  (List.range function.blocks.length).flatMap fun p =>
    ((successors function p).filter fun s => s = index).map fun _ => p

/-! ## Lookup -/

theorem ordinal_lt
    {function : IrFunction} {label : String} {index : ℕ}
    (h : ordinal function label = some index) :
    index < function.blocks.length := by
  obtain ⟨hlt, -⟩ := List.findIdx?_eq_some_iff_getElem.mp h
  exact hlt

theorem folded_label_ordinal
    {function : IrFunction} {label : String} {index : ℕ}
    (h : ordinal function label = some index) :
    folded (function.blockAt index).label = folded label := by
  obtain ⟨hlt, hlabel, -⟩ := List.findIdx?_eq_some_iff_getElem.mp h
  simpa [IrFunction.blockAt, hlt] using hlabel

/-! ## Edges -/

theorem mem_successors_of_transfer
    {function : IrFunction} {index next : ℕ} {front : List IrInstruction}
    {i : IrInstruction} {label : String}
    (hblock : (function.blockAt index).instructions = front ++ [i])
    (htransfers : i.transfers = true) (hlabel : label ∈ i.targets)
    (hnext : ordinal function label = some next) :
    next ∈ successors function index := by
  have hlast : (function.blockAt index).instructions.getLast? = some i := by
    rw [hblock, List.getLast?_concat]
  have hfound : next ∈ i.targets.filterMap (ordinal function) :=
    List.mem_filterMap.mpr ⟨label, hlabel, hnext⟩
  rw [successors, hlast]
  cases i
  case jumpTable => exact List.mem_eraseDups.mpr hfound
  all_goals simpa [htransfers] using hfound

theorem mem_successors_of_fallthrough
    {function : IrFunction} {index : ℕ} {front : List IrInstruction}
    {i : IrInstruction}
    (hblock : (function.blockAt index).instructions = front ++ [i])
    (htransfers : i.transfers = false) (hstops : i.stops = false)
    (hnext : index + 1 < function.blocks.length) :
    index + 1 ∈ successors function index := by
  have hlast : (function.blockAt index).instructions.getLast? = some i := by
    rw [hblock, List.getLast?_concat]
  rw [successors, hlast]
  cases i
  case jumpTable => cases htransfers
  all_goals simp [htransfers, hstops, hnext]

theorem lt_of_mem_successors
    {function : IrFunction} {index s : ℕ} (h : s ∈ successors function index) :
    index < function.blocks.length := by
  by_contra hge
  have hblock : function.blockAt index = ⟨"", []⟩ := by
    simp [IrFunction.blockAt, List.getElem?_eq_none (Nat.le_of_not_lt hge)]
  simp [successors, hblock] at h

theorem mem_predecessors
    {function : IrFunction} {p index : ℕ} :
    p ∈ predecessors function index ↔ index ∈ successors function p := by
  constructor
  · intro h
    obtain ⟨q, -, hq⟩ := List.mem_flatMap.mp h
    obtain ⟨s, hs, rfl⟩ := List.mem_map.mp hq
    obtain ⟨hmem, heq⟩ := List.mem_filter.mp hs
    rwa [← of_decide_eq_true heq]
  · intro h
    refine List.mem_flatMap.mpr
      ⟨p, List.mem_range.mpr (lt_of_mem_successors h), ?_⟩
    exact List.mem_map.mpr ⟨index, List.mem_filter.mpr ⟨h, by simp⟩, rfl⟩

end Wiicompiled.Ir.IrCfg
