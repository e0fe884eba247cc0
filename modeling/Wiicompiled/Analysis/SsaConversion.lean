import Wiicompiled.Analysis.SsaRenaming

/-!
# Conversion only renames, and names only once

The walk over the dominator tree renames each block that it visits once.  Between two turns
the versions of all renamed blocks are distinct, and every block is the original one up to
phis and versions.
-/

namespace Wiicompiled.Analysis.SsaTransformer

open Ir

/-! ## Blocks -/

/-- What the first pass makes of an instruction. -/
structure PhiRenamed (i i' : IrInstruction) (newDefined : List String) : Prop where
  other : isPhi i = false → i' = i ∧ newDefined = []
  phi : ∀ destination sources, i = .phi destination sources →
    ∃ id, i' = .phi (versionName (Base destination) id) sources ∧
      newDefined = [versionName (Base destination) id]

theorem renamePhi_renames {stable : Prop} (i : IrInstruction)
    (hname : stable → ∀ name ∈ destinationOf i, Stable name) :
    Renames stable (renamePhi i) fun i' newDefined _ => PhiRenamed i i' newDefined := by
  rcases i
  case phi destination sources =>
    intro state defined implicit pending htracked
    refine ⟨[(NewVersion destination state).1], [], ?_, ?_, nofun, ?_⟩
    · rw [List.append_nil]
      exact (htracked.define fun h => hname h destination rfl).definedHere _
    · intro hstable
      refine List.map_append.trans ?_
      have hkey : keyOf (NewVersion destination state).1 = folded (Base destination) :=
        keyOf_newVersion (Base_ne_empty (hname hstable destination rfl).1)
      rw [List.map_singleton, List.map_singleton, hkey]
    · rintro _ _ heq
      obtain ⟨rfl, rfl⟩ := IrInstruction.phi.inj heq
      exact ⟨_, rfl, rfl⟩
  all_goals exact .pure fun _ => ⟨fun _ => ⟨rfl, rfl⟩, nofun⟩

structure BlockRenamed (stable : Prop) (is is' : List IrInstruction) (newDefined : List String)
    (known : String → Prop) : Prop where
  defines : (is'.filterMap destinationOf).Perm newDefined
  reads : ∀ i ∈ is', ∀ name ∈ operandNames i, known name
  same : (is'.filter fun i => !isPhi i).map plainInstruction =
    (is.filter fun i => !isPhi i).map plainInstruction
  phis : ∀ destination sources, .phi destination sources ∈ is' →
    (stable → Stable destination) ∧ ∃ original, .phi original sources ∈ is

theorem stable_versionName {name : String} (h : Stable name) (id : ℕ) :
    Stable (versionName (Base name) id) := by
  have hbase := Base_versionName (Base_ne_empty h.1) id
  refine ⟨?_, by rw [hbase, h.2]⟩
  intro hempty
  have hblank := not_blank_versionName (Base name) id
  rw [hempty] at hblank
  exact absurd hblank (by decide)

theorem BlockRenamed.of_passes {stable : Prop} {is : List IrInstruction}
    (hnames : stable → ∀ i ∈ is, StableNames i) {known : String → Prop}
    {ps qs : List (IrInstruction × List String)}
    (hps : List.Forall₂ (fun i p => PhiRenamed i p.1 p.2) is ps)
    (hqs : List.Forall₂ (fun p q => InstructionRenamed p q.1 q.2 known)
      (ps.map Prod.fst) qs) :
    BlockRenamed stable is (qs.map Prod.fst) (ps.flatMap Prod.snd ++ qs.flatMap Prod.snd)
      known := by
  induction hps generalizing qs with
  | nil =>
      rw [List.map_nil, List.forall₂_nil_left_iff] at hqs
      subst hqs
      exact ⟨by simp, by simp, rfl, by simp⟩
  | @cons i p is ps hp hps ih =>
      obtain ⟨q, qs', hq, hqs', rfl⟩ := List.forall₂_cons_left_iff.mp hqs
      have hrest := ih (fun h j hj => hnames h j (List.mem_cons_of_mem i hj)) hqs'
      by_cases hphi : isPhi i = true
      · -- a phi registers its version in the first pass and stays in the second one
        rcases i <;> cases hphi
        rename_i destination sources
        obtain ⟨id, hp1, hp2⟩ := hp.phi destination sources rfl
        have hq1 : q.1 = .phi (versionName (Base destination) id) sources := by
          rw [← hp1]
          exact hq.kept (by rw [hp1]; rfl)
        have hq2 : q.2 = [] := by
          rw [← hq.defines, hq1]
          rfl
        refine ⟨?_, ?_, ?_, ?_⟩
        · rw [List.map_cons, List.filterMap_cons, hq1, List.flatMap_cons, List.flatMap_cons,
            hp2, hq2]
          exact hrest.defines.cons _
        · rw [List.map_cons, hq1]
          exact List.forall_mem_cons.mpr ⟨by simp [operandNames], hrest.reads⟩
        · rw [List.map_cons, hq1]
          exact hrest.same
        · rw [List.map_cons, hq1]
          intro d s hmem
          rcases List.mem_cons.mp hmem with heq | hmem
          · obtain ⟨rfl, rfl⟩ := IrInstruction.phi.inj heq
            refine ⟨fun h => stable_versionName ?_ id, _, List.mem_cons_self⟩
            exact (hnames h _ List.mem_cons_self).2 destination rfl
          · obtain ⟨hstable, original, hin⟩ := hrest.phis d s hmem
            exact ⟨hstable, original, List.mem_cons_of_mem _ hin⟩
      · rw [Bool.not_eq_true] at hphi
        obtain ⟨hp1, hp2⟩ := hp.other hphi
        rw [hp1] at hq
        have hqphi : isPhi q.1 = false := hq.phi.trans hphi
        have hq2 : (destinationOf q.1).toList = q.2 := by
          rw [← hq.defines, hqphi]
          rfl
        refine ⟨?_, ?_, ?_, ?_⟩
        · have hmiddle : (q.2 ++ (ps.flatMap Prod.snd ++ qs'.flatMap Prod.snd)).Perm
              (ps.flatMap Prod.snd ++ (q.2 ++ qs'.flatMap Prod.snd)) := by
            rw [← List.append_assoc, ← List.append_assoc]
            exact List.perm_append_comm.append_right _
          rw [List.map_cons, List.flatMap_cons, List.flatMap_cons, hp2, List.nil_append,
            List.filterMap_cons]
          refine List.Perm.trans ?_ hmiddle
          rcases hdest : destinationOf q.1 with - | x
          · rw [hdest] at hq2
            rw [← hq2]
            exact hrest.defines
          · rw [hdest] at hq2
            rw [← hq2]
            exact hrest.defines.cons x
        · rw [List.map_cons]
          exact List.forall_mem_cons.mpr ⟨hq.reads, hrest.reads⟩
        · rw [List.map_cons, List.filter_cons_of_pos (by simp [hqphi]),
            List.filter_cons_of_pos (by simp [hphi]), List.map_cons, List.map_cons, hq.same,
            hrest.same]
        · rw [List.map_cons]
          intro d s hmem
          rcases List.mem_cons.mp hmem with heq | hmem
          · rw [← heq] at hqphi
            cases hqphi
          · obtain ⟨hstable, original, hin⟩ := hrest.phis d s hmem
            exact ⟨hstable, original, List.mem_cons_of_mem _ hin⟩

theorem InstructionRenamed.mono {i i' : IrInstruction} {d : List String}
    {known known' : String → Prop} (hknown : ∀ x, known x → known' x)
    (h : InstructionRenamed i i' d known) : InstructionRenamed i i' d known' :=
  ⟨h.defines, fun name hname => hknown name (h.reads name hname), h.same, h.phi, h.kept⟩

theorem PhiRenamed.stableNames {i i' : IrInstruction} {d : List String}
    (h : PhiRenamed i i' d) (hnames : StableNames i) : StableNames i' := by
  by_cases hphi : isPhi i = true
  · rcases i <;> cases hphi
    rename_i destination sources
    obtain ⟨id, hi', -⟩ := h.phi destination sources rfl
    rw [hi']
    refine ⟨by simp [operandNames], ?_⟩
    intro name hname
    obtain rfl := Option.some.inj hname
    exact stable_versionName (hnames.2 destination rfl) id
  · rwa [(h.other (Bool.not_eq_true _ ▸ hphi)).1]

theorem renameBlock_renames {stable : Prop} {is : List IrInstruction}
    (hnames : stable → ∀ i ∈ is, StableNames i) :
    Renames stable (renameBlock is) (BlockRenamed stable is) := by
  have hphis : ∀ i ∈ is, Renames stable (renamePhi i) fun i' d _ => PhiRenamed i i' d :=
    fun i hi => renamePhi_renames i fun h => (hnames h i hi).2
  refine (Renames.bind (Renames.mapM (fun _ _ _ _ _ _ h => h) hphis)
    fun is' d known hpost => Renames.mapM (fun _ _ _ _ _ hknown h => h.mono hknown)
      fun i hi => renameInstruction_renames i fun h => ?_).mono ?_
  · obtain ⟨ps, rfl, -, hps⟩ := hpost
    obtain ⟨p, hp, rfl⟩ := List.mem_map.mp hi
    obtain ⟨j, hj, hjp⟩ := exists_of_forall₂ hps hp
    exact hjp.stableNames (hnames h j hj)
  · rintro _ _ known ⟨_, _, _, known₁, rfl, -, ⟨ps, rfl, rfl, hps⟩, qs, rfl, rfl, hqs⟩
    exact .of_passes hnames hps hqs

/-! ## Sources of phis -/

/-- An instruction whose sources, if it is a phi, have got known versions. -/
structure SourcesUpdated (known : String → Prop) (i i' : IrInstruction) : Prop where
  other : isPhi i = false → i' = i
  phi : ∀ destination sources, i = .phi destination sources →
    ∃ sources', i' = .phi destination sources' ∧
      ∀ entry ∈ sources'.entries, entry ∈ sources.entries ∨ known entry.2

theorem SourcesUpdated.refl {known : String → Prop} (i : IrInstruction) :
    SourcesUpdated known i i :=
  ⟨fun _ => rfl, fun _ sources h => ⟨sources, h, fun _ hentry => .inl hentry⟩⟩

theorem SourcesUpdated.mono {known known' : String → Prop} (hknown : ∀ x, known x → known' x)
    {i i' : IrInstruction} (h : SourcesUpdated known i i') : SourcesUpdated known' i i' := by
  refine ⟨h.other, fun d sources heq => ?_⟩
  obtain ⟨sources', heq', hentries⟩ := h.phi d sources heq
  exact ⟨sources', heq', fun e he => (hentries e he).imp_right (hknown e.2)⟩

theorem SourcesUpdated.trans {known : String → Prop} {i j k : IrInstruction}
    (hij : SourcesUpdated known i j) (hjk : SourcesUpdated known j k) :
    SourcesUpdated known i k := by
  constructor
  · intro hi
    obtain rfl := hij.other hi
    exact hjk.other hi
  · intro d sources hi
    obtain ⟨sources', rfl, hentries⟩ := hij.phi d sources hi
    obtain ⟨sources'', rfl, hentries'⟩ := hjk.phi d sources' rfl
    refine ⟨sources'', rfl, fun e he => ?_⟩
    rcases hentries' e he with hold | hknown
    · exact hentries e hold
    · exact .inr hknown

theorem mem_setSource {sources : PhiSources} {label name : String} {entry : String × String}
    (h : entry ∈ (setSource sources label name).entries) :
    entry ∈ sources.entries ∨ entry.2 = name := by
  rw [setSource] at h
  dsimp only at h
  by_cases hlabel : label ∈ sources.entries.map Prod.fst
  · rw [if_pos hlabel] at h
    obtain ⟨old, hold, rfl⟩ := List.mem_map.mp h
    by_cases hkey : old.1 = label
    · rw [if_pos hkey]
      exact .inr rfl
    · rw [if_neg hkey]
      exact .inl hold
  · rw [if_neg hlabel] at h
    rcases List.mem_append.mp h with hold | hnew
    · exact .inl hold
    · rw [List.mem_singleton] at hnew
      exact .inr (congrArg Prod.snd hnew)

theorem updateSources_renames {stable : Prop} (label : String) (i : IrInstruction)
    (hname : stable → ∀ destination sources, i = .phi destination sources → Stable destination) :
    Renames stable (updateSources label i) fun i' newDefined known =>
      newDefined = [] ∧ SourcesUpdated known i i' := by
  rcases i
  case phi destination sources =>
    refine Renames.map (currentVersion_reads fun h => hname h destination sources rfl) ?_
    rintro x d known ⟨rfl, hread, -⟩
    refine ⟨rfl, nofun, ?_⟩
    rintro _ _ heq
    obtain ⟨rfl, rfl⟩ := IrInstruction.phi.inj heq
    refine ⟨_, rfl, fun entry hentry => ?_⟩
    rcases mem_setSource hentry with hold | hnew
    · exact .inl hold
    · exact .inr (hnew ▸ hread x (List.mem_singleton_self x))
  all_goals exact .pure fun _ => ⟨rfl, .refl _⟩

/-- All blocks after updates of the sources of phis. -/
structure WorkingUpdated (working working' : List (List IrInstruction))
    (known : String → Prop) : Prop where
  length : working'.length = working.length
  blocks : ∀ b, List.Forall₂ (SourcesUpdated known) (working.getD b []) (working'.getD b [])

theorem WorkingUpdated.refl {known : String → Prop} (working : List (List IrInstruction)) :
    WorkingUpdated working working known :=
  ⟨rfl, fun _ => List.forall₂_same.mpr fun i _ => .refl i⟩

theorem forall₂_trans {α : Type} {R : α → α → Prop} (hR : ∀ a b c, R a b → R b c → R a c)
    {as bs cs : List α} (h : List.Forall₂ R as bs) (h' : List.Forall₂ R bs cs) :
    List.Forall₂ R as cs := by
  induction h generalizing cs with
  | nil => exact h'
  | cons hab _ ih =>
      obtain ⟨c, cs, hbc, hrest, rfl⟩ := List.forall₂_cons_left_iff.mp h'
      exact .cons (hR _ _ _ hab hbc) (ih hrest)

theorem WorkingUpdated.trans {known : String → Prop}
    {working working' working'' : List (List IrInstruction)}
    (h : WorkingUpdated working working' known) (h' : WorkingUpdated working' working'' known) :
    WorkingUpdated working working'' known :=
  ⟨h'.length.trans h.length, fun b =>
    forall₂_trans (fun _ _ _ hij hjk => hij.trans hjk) (h.blocks b) (h'.blocks b)⟩

theorem WorkingUpdated.mono {known known' : String → Prop} (hknown : ∀ x, known x → known' x)
    {working working' : List (List IrInstruction)} (h : WorkingUpdated working working' known) :
    WorkingUpdated working working' known' :=
  ⟨h.length, fun b => (h.blocks b).imp fun _ _ hi => hi.mono hknown⟩

def StablePhis (working : List (List IrInstruction)) : Prop :=
  ∀ b destination sources, .phi destination sources ∈ working.getD b [] → Stable destination

theorem WorkingUpdated.phi {known : String → Prop} {working working' : List (List IrInstruction)}
    (h : WorkingUpdated working working' known) {b : ℕ} {destination : String}
    {sources : PhiSources} (hmem : .phi destination sources ∈ working'.getD b []) :
    ∃ original, .phi destination original ∈ working.getD b [] ∧
      ∀ entry ∈ sources.entries, entry ∈ original.entries ∨ known entry.2 := by
  obtain ⟨i, hi, hupdated⟩ := exists_of_forall₂ (h.blocks b) hmem
  by_cases hphi : isPhi i = true
  · rcases i <;> cases hphi
    rename_i d original
    obtain ⟨sources', heq, hentries⟩ := hupdated.phi d original rfl
    obtain ⟨rfl, rfl⟩ := IrInstruction.phi.inj heq
    exact ⟨original, hi, hentries⟩
  · have heq := hupdated.other (Bool.not_eq_true _ ▸ hphi)
    rw [← heq] at hphi
    exact absurd rfl hphi

theorem updateSuccessor_renames {stable : Prop} (label : String)
    {working : List (List IrInstruction)} (succ : ℕ) (hphis : stable → StablePhis working) :
    Renames stable (updateSuccessor label working succ) fun working' newDefined known =>
      newDefined = [] ∧ WorkingUpdated working working' known := by
  have hupdate : ∀ i ∈ working.getD succ [], Renames stable (updateSources label i)
      fun i' d known => d = [] ∧ SourcesUpdated known i i' := by
    intro i hi
    refine updateSources_renames label i fun h destination sources heq => ?_
    exact hphis h succ destination sources (heq ▸ hi)
  refine Renames.map (Renames.mapM ?_ hupdate) ?_
  · rintro i i' d known known' hknown ⟨hd, hi⟩
    exact ⟨hd, hi.mono hknown⟩
  · rintro is' d known ⟨ps, rfl, rfl, hps⟩
    refine ⟨?_, by rw [List.length_set], fun b => ?_⟩
    · rw [List.flatMap_eq_nil_iff]
      intro p hp
      obtain ⟨i, -, hpost⟩ := exists_of_forall₂ hps hp
      exact hpost.1
    · have hforall : List.Forall₂ (SourcesUpdated known) (working.getD succ [])
          (ps.map Prod.fst) := by
        rw [List.forall₂_map_right_iff]
        exact hps.imp fun _ _ hpost => hpost.2
      by_cases hb : b = succ
      · subst hb
        by_cases hlt : b < working.length
        · have hget : (working.set b (ps.map Prod.fst)).getD b [] = ps.map Prod.fst := by
            simp [hlt]
          rwa [hget]
        · rw [List.set_eq_of_length_le (Nat.le_of_not_lt hlt)]
          exact List.forall₂_same.mpr fun i _ => .refl i
      · have hget : (working.set succ (ps.map Prod.fst)).getD b [] = working.getD b [] := by
          simp [List.getElem?_set_ne (Ne.symm hb)]
        rw [hget]
        exact List.forall₂_same.mpr fun i _ => .refl i

theorem updateSuccessors_renames {stable : Prop} (label : String) (succs : List ℕ)
    {working : List (List IrInstruction)} (hphis : stable → StablePhis working) :
    Renames stable (succs.foldlM (updateSuccessor label) working)
      fun working' newDefined known =>
        newDefined = [] ∧ WorkingUpdated working working' known := by
  induction succs generalizing working with
  | nil =>
      rw [List.foldlM_nil]
      exact .pure fun known => ⟨rfl, .refl working⟩
  | cons succ succs ih =>
      rw [List.foldlM_cons]
      refine (Renames.bind (updateSuccessor_renames label succ hphis)
        fun working' d known hpost => ih fun h b destination sources hmem => ?_).mono ?_
      · obtain ⟨original, horiginal, -⟩ := hpost.2.phi hmem
        exact hphis h b destination original horiginal
      · rintro _ _ known ⟨_, _, _, _, rfl, hknown, ⟨rfl, hfirst⟩, rfl, hrest⟩
        exact ⟨rfl, (hfirst.mono hknown).trans hrest⟩

/-! ## Pops -/

def keysOf (pops : List (String × String)) : List (List Char) :=
  pops.map fun pop => folded pop.1

section Pops

variable {stable : Prop} {defined implicit : List String} {pending : List (List Char)}

theorem Tracked.pop {state : RenameState} {key : List Char} {top : String} {rest : List String}
    (h : Tracked stable state defined implicit (key :: pending))
    (hstack : state.versionStacks key = top :: rest) :
    Tracked stable { state with versionStacks := Function.update state.versionStacks key rest }
      defined implicit pending := by
  refine ⟨h.allocated, h.nodup, ?_, ?_, h.single⟩
  · intro other x hx
    dsimp only at hx
    by_cases hkey : other = key
    · rw [hkey] at hx ⊢
      rw [Function.update_self] at hx
      exact h.stacked key x (hstack ▸ List.mem_cons_of_mem top hx)
    · rw [Function.update_of_ne hkey] at hx
      exact h.stacked other x hx
  · intro hstable other
    have hdepth := h.depth hstable other
    by_cases hkey : other = key
    · rw [hkey, hstack, List.length_cons, List.count_cons_self] at hdepth
      rw [hkey]
      dsimp only
      rw [Function.update_self]
      omega
    · rw [List.count_cons_of_ne (Ne.symm hkey)] at hdepth
      dsimp only
      rw [Function.update_of_ne hkey]
      exact hdepth

theorem popVersions_tracked {pops : List (String × String)} {state state' : RenameState}
    (h : Tracked stable state defined implicit (keysOf pops ++ pending))
    (hpop : popVersions pops state = some state') :
    Tracked stable state' defined implicit pending := by
  induction pops generalizing state with
  | nil =>
      obtain rfl := Option.some.inj hpop
      exact h
  | cons pop pops ih =>
      rw [popVersions] at hpop
      rcases hstack : state.versionStacks (folded pop.1) with - | ⟨top, rest⟩
      · rw [hstack] at hpop
        cases hpop
      · rw [hstack] at hpop
        exact ih (h.pop hstack) hpop

/-- The definitions of a block are on their stacks when the block is left. -/
theorem exists_popVersions (hstable : stable) {pops : List (String × String)}
    {state : RenameState} (h : Tracked stable state defined implicit (keysOf pops ++ pending)) :
    ∃ state', popVersions pops state = some state' := by
  induction pops generalizing state with
  | nil => exact ⟨state, rfl⟩
  | cons pop pops ih =>
      rw [popVersions]
      rcases hstack : state.versionStacks (folded pop.1) with - | ⟨top, rest⟩
      · have hdepth := h.depth hstable (folded pop.1)
        rw [hstack, keysOf, List.map_cons, List.cons_append, List.count_cons_self,
          List.length_nil] at hdepth
        omega
      · exact ih (h.pop hstack)

theorem Tracked.congr {state : RenameState} {pending' : List (List Char)}
    (h : Tracked stable state defined implicit pending)
    (hperm : stable → pending.Perm pending') :
    Tracked stable state defined implicit pending' := by
  refine ⟨h.allocated, h.nodup, h.stacked, fun hstable key => ?_, h.single⟩
  rw [← (hperm hstable).count_eq key]
  exact h.depth hstable key

end Pops

/-! ## The walk -/

def visits (work : List Frame) : List ℕ :=
  work.filterMap fun frame =>
    match frame with
    | .visit block => some block
    | .leave .. => none

/-- The definitions that the frames of the work stack will pop. -/
def pendingKeys (work : List Frame) : List (List Char) :=
  work.flatMap fun frame =>
    match frame with
    | .visit _ => []
    | .leave _ pops => keysOf pops

def definitionsAt (working : List (List IrInstruction)) (block : ℕ) : List String :=
  (working.getD block []).filterMap destinationOf

/-- The instructions of a block that are not phis, with plain names. -/
def plainBody (is : List IrInstruction) : List IrInstruction :=
  (is.filter fun i => !isPhi i).map plainInstruction

/-- A name that a phi of the function reads before the conversion. -/
def OriginalSource (function : IrFunction) (name : String) : Prop :=
  ∃ b destination sources, .phi destination sources ∈ (function.blockAt b).instructions ∧
    ∃ entry ∈ sources.entries, entry.2 = name

/-- What holds between two turns of the work loop, about blocks and versions. -/
structure Converting (stable : Prop) (withPhis : IrFunction) (walk : Walk)
    (defined implicit : List String) : Prop where
  tracked : Tracked stable walk.versions defined implicit (pendingKeys walk.work)
  length : walk.working.length = withPhis.blocks.length
  defines : (walk.renamed.flatMap (definitionsAt walk.working)).Perm defined
  reads : ∀ b ∈ walk.renamed, ∀ i ∈ walk.working.getD b [], ∀ name ∈ operandNames i,
    name ∈ defined ++ implicit
  sources : ∀ b destination sources, .phi destination sources ∈ walk.working.getD b [] →
    ∀ entry ∈ sources.entries, entry.2 ∈ defined ++ implicit ∨ OriginalSource withPhis entry.2
  same : ∀ b, plainBody (walk.working.getD b []) = plainBody (withPhis.blockAt b).instructions
  names : stable → ∀ b, b ∉ walk.renamed → ∀ i ∈ walk.working.getD b [], StableNames i
  phis : stable → StablePhis walk.working

theorem WorkingUpdated.definitionsAt_eq {working working' : List (List IrInstruction)}
    {known : String → Prop} (h : WorkingUpdated working working' known) (b : ℕ) :
    definitionsAt working' b = definitionsAt working b := by
  rw [definitionsAt, definitionsAt]
  have hblock := h.blocks b
  generalize working.getD b [] = is, working'.getD b [] = is' at hblock
  induction hblock with
  | nil => rfl
  | @cons i i' is is' hi _ ih =>
      have hdest : destinationOf i' = destinationOf i := by
        by_cases hphi : isPhi i = true
        · rcases i <;> cases hphi
          obtain ⟨sources', rfl, -⟩ := hi.phi _ _ rfl
          rfl
        · rw [hi.other (Bool.not_eq_true _ ▸ hphi)]
      rw [List.filterMap_cons, List.filterMap_cons, hdest, ih]

theorem WorkingUpdated.plainBody_eq {working working' : List (List IrInstruction)}
    {known : String → Prop} (h : WorkingUpdated working working' known) (b : ℕ) :
    plainBody (working'.getD b []) = plainBody (working.getD b []) := by
  rw [plainBody, plainBody]
  have hblock := h.blocks b
  generalize working.getD b [] = is, working'.getD b [] = is' at hblock
  induction hblock with
  | nil => rfl
  | @cons i i' is is' hi _ ih =>
      by_cases hphi : isPhi i = true
      · rcases i <;> cases hphi
        obtain ⟨sources', rfl, -⟩ := hi.phi _ _ rfl
        exact ih
      · have heq := hi.other (Bool.not_eq_true _ ▸ hphi)
        subst heq
        have hpos : (!isPhi i') = true := by simpa using hphi
        rw [List.filter_cons, List.filter_cons, if_pos hpos, if_pos hpos, List.map_cons,
          List.map_cons, ih]

theorem WorkingUpdated.mem {working working' : List (List IrInstruction)}
    {known : String → Prop} (h : WorkingUpdated working working' known) {b : ℕ}
    {i' : IrInstruction} (hmem : i' ∈ working'.getD b []) :
    ∃ i ∈ working.getD b [], operandNames i' = operandNames i ∧
      destinationOf i' = destinationOf i := by
  obtain ⟨i, hi, hupdated⟩ := exists_of_forall₂ (h.blocks b) hmem
  refine ⟨i, hi, ?_⟩
  by_cases hphi : isPhi i = true
  · rcases i <;> cases hphi
    obtain ⟨sources', rfl, -⟩ := hupdated.phi _ _ rfl
    exact ⟨rfl, rfl⟩
  · rw [hupdated.other (Bool.not_eq_true _ ▸ hphi)]
    exact ⟨rfl, rfl⟩

section Turns

variable {stable : Prop} {function withPhis : IrFunction} {entry block : ℕ}
  {idom : ℕ → Option ℕ} {walk walk' : Walk} {work : List Frame}
  {defined implicit : List String}

theorem visit_eq (hwork : walk.work = .visit block :: work) (hactive : block ∉ walk.active) :
    step function entry idom walk =
      let renamed := renameBlock (walk.working.getD block [])
        { walk.versions with definedHere := [] }
      let updated := (IrCfg.successors function block).foldlM
        (updateSuccessor (blockLabel function entry block))
        (walk.working.set block renamed.1) renamed.2
      some
        { work := (domChildren function idom block).map Frame.visit ++
            .leave block updated.2.definedHere :: work
          working := updated.1
          versions := updated.2
          renamed := block :: walk.renamed
          active := block :: walk.active } := by
  rw [step, hwork]
  exact if_neg hactive

theorem pendingKeys_visited (blocks : List ℕ) (pops : List (String × String)) :
    pendingKeys (blocks.map Frame.visit ++ .leave block pops :: work) =
      keysOf pops ++ pendingKeys work := by
  induction blocks with
  | nil => rfl
  | cons b blocks ih => exact ih

theorem visits_visited (blocks : List ℕ) (pops : List (String × String)) :
    visits (blocks.map Frame.visit ++ .leave block pops :: work) = blocks ++ visits work := by
  induction blocks with
  | nil => rfl
  | cons b blocks ih => exact congrArg (List.cons b) ih

theorem getD_set {working : List (List IrInstruction)} {is : List IrInstruction} {b : ℕ}
    (hlt : block < working.length) :
    (working.set block is).getD b [] = if b = block then is else working.getD b [] := by
  by_cases hb : b = block
  · subst hb
    simp [hlt]
  · rw [if_neg hb]
    simp [List.getElem?_set_ne (Ne.symm hb)]

/-- A block is renamed in place. -/
structure BlockSet (stable : Prop) (working working' : List (List IrInstruction)) (block : ℕ)
    (newDefined : List String) (known : String → Prop) : Prop where
  length : working'.length = working.length
  renamed : BlockRenamed stable (working.getD block []) (working'.getD block []) newDefined known
  others : ∀ b, b ≠ block → working'.getD b [] = working.getD b []

theorem Converting.afterVisit (h : Converting stable withPhis walk defined implicit)
    (hfresh : block ∉ walk.renamed) {working₁ working₂ : List (List IrInstruction)}
    {newDefined newImplicit : List String} {versions : RenameState} {work' : List Frame}
    {active : List ℕ}
    (hset : BlockSet stable walk.working working₁ block newDefined
      fun x => x ∈ defined ++ newDefined ++ (implicit ++ newImplicit))
    (hupdated : WorkingUpdated working₁ working₂
      fun x => x ∈ defined ++ newDefined ++ (implicit ++ newImplicit))
    (htracked : Tracked stable versions (defined ++ newDefined) (implicit ++ newImplicit)
      (pendingKeys work')) :
    Converting stable withPhis ⟨work', working₂, versions, block :: walk.renamed, active⟩
      (defined ++ newDefined) (implicit ++ newImplicit) := by
  have hknown : ∀ x, x ∈ defined ++ implicit →
      x ∈ defined ++ newDefined ++ (implicit ++ newImplicit) := by
    intro x hx
    rcases List.mem_append.mp hx with hd | hi
    · exact List.mem_append_left _ (List.mem_append_left _ hd)
    · exact List.mem_append_right _ (List.mem_append_left _ hi)
  refine ⟨htracked, ?_, ?_, ?_, ?_, ?_, ?_, ?_⟩
  · exact hupdated.length.trans (hset.length.trans h.length)
  · have hothers : walk.renamed.flatMap (definitionsAt working₂) =
        walk.renamed.flatMap (definitionsAt walk.working) := by
      refine List.flatMap_congr fun b hb => ?_
      have hne : b ≠ block := fun heq => hfresh (heq ▸ hb)
      rw [hupdated.definitionsAt_eq, definitionsAt, hset.others b hne, definitionsAt]
    rw [List.flatMap_cons, hothers, hupdated.definitionsAt_eq]
    exact (hset.renamed.defines.append h.defines).trans List.perm_append_comm
  · intro b hb i hi name hname
    obtain ⟨i₁, hi₁, hoperands, -⟩ := hupdated.mem hi
    rw [hoperands] at hname
    by_cases heq : b = block
    · subst heq
      exact hset.renamed.reads i₁ hi₁ name hname
    · rw [hset.others b heq] at hi₁
      exact hknown name (h.reads b (List.mem_of_ne_of_mem heq hb) i₁ hi₁ name hname)
  · intro b destination sources hmem e he
    obtain ⟨sources₁, hmem₁, hentries⟩ := hupdated.phi hmem
    rcases hentries e he with hold | hnew
    · have horiginal : ∃ d, .phi d sources₁ ∈ walk.working.getD b [] := by
        by_cases heq : b = block
        · subst heq
          exact (hset.renamed.phis destination sources₁ hmem₁).2
        · rw [hset.others b heq] at hmem₁
          exact ⟨destination, hmem₁⟩
      obtain ⟨d, hd⟩ := horiginal
      exact (h.sources b d sources₁ hd e hold).imp_left (hknown e.2)
    · exact .inl hnew
  · intro b
    rw [hupdated.plainBody_eq, ← h.same b]
    by_cases heq : b = block
    · subst heq
      exact hset.renamed.same
    · rw [hset.others b heq]
  · intro hs b hb i hi
    rw [List.mem_cons, not_or] at hb
    obtain ⟨i₁, hi₁, hoperands, hdest⟩ := hupdated.mem hi
    rw [hset.others b hb.1] at hi₁
    obtain ⟨hstable, hstable'⟩ := h.names hs b hb.2 i₁ hi₁
    exact ⟨hoperands ▸ hstable, hdest ▸ hstable'⟩
  · intro hs b destination sources hmem
    obtain ⟨sources₁, hmem₁, -⟩ := hupdated.phi hmem
    by_cases heq : b = block
    · subst heq
      exact (hset.renamed.phis destination sources₁ hmem₁).1 hs
    · rw [hset.others b heq] at hmem₁
      exact h.phis hs b destination sources₁ hmem₁

theorem BlockSet.mono {working working' : List (List IrInstruction)} {newDefined : List String}
    {known known' : String → Prop} (hknown : ∀ x, known x → known' x)
    (h : BlockSet stable working working' block newDefined known) :
    BlockSet stable working working' block newDefined known' :=
  ⟨h.length, ⟨h.renamed.defines, fun i hi name hname =>
    hknown name (h.renamed.reads i hi name hname), h.renamed.same, h.renamed.phis⟩, h.others⟩

theorem Converting.visit (h : Converting stable withPhis walk defined implicit)
    (hwork : walk.work = .visit block :: work) (hactive : block ∉ walk.active)
    (hfresh : block ∉ walk.renamed) (hlt : block < withPhis.blocks.length)
    (hstep : step function entry idom walk = some walk') :
    ∃ defined' implicit', Converting stable withPhis walk' defined' implicit' ∧
      walk'.renamed = block :: walk.renamed ∧ walk'.active = block :: walk.active ∧
      ∃ pops, walk'.work =
        (domChildren function idom block).map Frame.visit ++ .leave block pops :: work := by
  have hlt' : block < walk.working.length := h.length ▸ hlt
  -- the block itself
  obtain ⟨newDefined, newImplicit, htracked₁, hhere₁, hblock⟩ :=
    renameBlock_renames (fun hs => h.names hs block hfresh) _ _ _ _ (h.tracked.definedHere [])
  rw [visit_eq hwork hactive] at hstep
  dsimp only at hstep
  generalize renameBlock (walk.working.getD block []) { walk.versions with definedHere := [] } =
    renamed at hstep htracked₁ hhere₁ hblock
  have hset : BlockSet stable walk.working (walk.working.set block renamed.1) block newDefined
      (fun x => x ∈ defined ++ newDefined ++ (implicit ++ newImplicit)) := by
    refine ⟨List.length_set, ?_, fun b hb => ?_⟩
    · rw [getD_set hlt', if_pos rfl]
      exact hblock
    · rw [getD_set hlt', if_neg hb]
  have hphis : stable → StablePhis (walk.working.set block renamed.1) := by
    intro hs b destination sources hmem
    by_cases hb : b = block
    · subst hb
      exact (hset.renamed.phis destination sources hmem).1 hs
    · rw [hset.others b hb] at hmem
      exact h.phis hs b destination sources hmem
  -- the sources of its successors
  obtain ⟨none', moreImplicit, htracked₂, hhere₂, rfl, hupdated⟩ :=
    updateSuccessors_renames (blockLabel function entry block)
      (IrCfg.successors function block) hphis _ _ _ _ htracked₁
  generalize (IrCfg.successors function block).foldlM
    (updateSuccessor (blockLabel function entry block)) (walk.working.set block renamed.1)
    renamed.2 = updated at hstep htracked₂ hhere₂ hupdated
  obtain rfl := Option.some.inj hstep
  rw [List.append_nil, List.append_assoc implicit, List.map_nil, List.append_nil] at htracked₂
  rw [List.append_nil, List.append_assoc implicit] at hupdated
  refine ⟨_, _, h.afterVisit hfresh (hset.mono fun x hx => ?_) hupdated
    (htracked₂.congr fun hs => ?_), rfl, rfl, _, rfl⟩
  · rcases List.mem_append.mp hx with hd | hi
    · exact List.mem_append_left _ hd
    · rw [← List.append_assoc implicit]
      exact List.mem_append_right _ (List.mem_append_left _ hi)
  · have hhere : keysOf updated.2.definedHere = newDefined.map keyOf := by
      rw [keysOf, hhere₂ hs, hhere₁ hs, List.map_nil, List.map_nil, List.append_nil,
        List.nil_append]
    have hwork' : pendingKeys walk.work = pendingKeys work := by
      rw [hwork]
      rfl
    rw [hwork', ← hhere, pendingKeys_visited]
    exact List.perm_append_comm

theorem keysOf_reverse (pops : List (String × String)) :
    (keysOf pops.reverse).Perm (keysOf pops) := by
  rw [keysOf, List.map_reverse]
  exact List.reverse_perm _

theorem leave_eq {pops : List (String × String)} (hwork : walk.work = .leave block pops :: work) :
    step function entry idom walk =
      (popVersions pops.reverse walk.versions).map fun versions =>
        { walk with work := work, versions := versions, active := walk.active.erase block } := by
  rw [step, hwork]

theorem Converting.pops_tracked {pops : List (String × String)}
    (h : Converting stable withPhis walk defined implicit)
    (hwork : walk.work = .leave block pops :: work) :
    Tracked stable walk.versions defined implicit (keysOf pops.reverse ++ pendingKeys work) := by
  refine h.tracked.congr fun _ => ?_
  rw [hwork]
  exact (keysOf_reverse pops).symm.append_right _

theorem Converting.leave {pops : List (String × String)}
    (h : Converting stable withPhis walk defined implicit)
    (hwork : walk.work = .leave block pops :: work)
    (hstep : step function entry idom walk = some walk') :
    Converting stable withPhis walk' defined implicit ∧ walk'.renamed = walk.renamed ∧
      walk'.active = walk.active.erase block ∧ walk'.work = work := by
  rw [leave_eq hwork] at hstep
  obtain ⟨versions, hpop, rfl⟩ := Option.map_eq_some_iff.mp hstep
  have htracked := popVersions_tracked (h.pops_tracked hwork) hpop
  exact ⟨⟨htracked, h.length, h.defines, h.reads, h.sources, h.same, h.names, h.phis⟩,
    rfl, rfl, rfl⟩

/-! ## The tree -/

/-- What holds between two turns about the blocks that are waiting and the renamed ones. -/
structure TreeWalk (function : IrFunction) (entry : ℕ) (idom : ℕ → Option ℕ) (walk : Walk) :
    Prop where
  nodup : (visits walk.work ++ walk.renamed).Nodup
  parent : ∀ b ∈ visits walk.work ++ walk.renamed,
    b = entry ∨ ∃ d ∈ walk.renamed, idom b = some d
  child : ∀ d ∈ walk.renamed, ∀ c ∈ domChildren function idom d,
    c ∈ visits walk.work ++ walk.renamed
  root : entry ∈ visits walk.work ++ walk.renamed
  bounded : ∀ b ∈ visits walk.work ++ walk.renamed, b < function.blocks.length
  active : ∀ b ∈ walk.active, b ∈ walk.renamed

theorem mem_domChildren {c : ℕ} :
    c ∈ domChildren function idom block ↔ c < function.blocks.length ∧ idom c = some block := by
  simp [domChildren, ordinals]

theorem TreeWalk.fresh (h : TreeWalk function entry idom walk)
    (hwork : walk.work = .visit block :: work) : block ∉ walk.renamed := by
  have hnodup := h.nodup
  rw [hwork] at hnodup
  exact fun hmem => (List.nodup_cons.mp hnodup).1 (List.mem_append_right _ hmem)

theorem TreeWalk.visit (h : TreeWalk function entry idom walk) (hroot : idom entry = none)
    (hwork : walk.work = .visit block :: work) {pops : List (String × String)}
    (hrenamed : walk'.renamed = block :: walk.renamed)
    (hactive : walk'.active = block :: walk.active)
    (hwork' : walk'.work =
      (domChildren function idom block).map Frame.visit ++ .leave block pops :: work) :
    TreeWalk function entry idom walk' := by
  have hfresh := h.fresh hwork
  have hvisits : visits walk.work = block :: visits work := by
    rw [hwork]
    rfl
  have hvisits' : visits walk'.work = domChildren function idom block ++ visits work := by
    rw [hwork', visits_visited]
  -- the old blocks, waiting or renamed, are waiting or renamed
  have hperm : (visits walk.work ++ walk.renamed).Perm (visits work ++ walk'.renamed) := by
    rw [hvisits, hrenamed]
    exact List.perm_middle.symm
  have hmem : ∀ b, b ∈ visits walk'.work ++ walk'.renamed ↔
      b ∈ domChildren function idom block ∨ b ∈ visits walk.work ++ walk.renamed := by
    intro b
    rw [hperm.mem_iff, hvisits', List.append_assoc, List.mem_append]
  refine ⟨?_, ?_, ?_, (hmem entry).mpr (.inr h.root), ?_, ?_⟩
  · rw [hvisits', List.append_assoc, List.nodup_append]
    refine ⟨List.nodup_range.filter _, hperm.nodup_iff.mp h.nodup, ?_⟩
    rintro c hc _ hold rfl
    have hidom := (mem_domChildren.mp hc).2
    rcases h.parent c (hperm.mem_iff.mpr hold) with rfl | ⟨d, hd, hparent⟩
    · rw [hroot] at hidom
      cases hidom
    · obtain rfl := Option.some.inj (hparent.symm.trans hidom)
      exact hfresh hd
  · intro b hb
    rw [hrenamed]
    rcases (hmem b).mp hb with hc | hold
    · exact .inr ⟨block, List.mem_cons_self, (mem_domChildren.mp hc).2⟩
    · rcases h.parent b hold with heq | ⟨d, hd, hparent⟩
      · exact .inl heq
      · exact .inr ⟨d, List.mem_cons_of_mem block hd, hparent⟩
  · intro d hd c hc
    rw [hrenamed] at hd
    rcases List.mem_cons.mp hd with rfl | hd
    · exact (hmem c).mpr (.inl hc)
    · exact (hmem c).mpr (.inr (h.child d hd c hc))
  · intro b hb
    rcases (hmem b).mp hb with hc | hold
    · exact (mem_domChildren.mp hc).1
    · exact h.bounded b hold
  · intro b hb
    rw [hactive] at hb
    rw [hrenamed]
    rcases List.mem_cons.mp hb with rfl | hb
    · exact List.mem_cons_self
    · exact List.mem_cons_of_mem block (h.active b hb)

theorem TreeWalk.leave (h : TreeWalk function entry idom walk) {pops : List (String × String)}
    (hwork : walk.work = .leave block pops :: work) (hrenamed : walk'.renamed = walk.renamed)
    (hactive : walk'.active = walk.active.erase block) (hwork' : walk'.work = work) :
    TreeWalk function entry idom walk' := by
  have hvisits : visits walk.work = visits walk'.work := by
    rw [hwork, hwork']
    rfl
  obtain ⟨hnodup, hparent, hchild, hroot, hbounded, hsub⟩ := h
  rw [hvisits, ← hrenamed] at hnodup hparent hchild hroot hbounded
  refine ⟨hnodup, hparent, hchild, hroot, hbounded, fun b hb => ?_⟩
  rw [hactive] at hb
  rw [hrenamed]
  exact hsub b (List.mem_of_mem_erase hb)

theorem converting_step (h : Converting stable withPhis walk defined implicit)
    (htree : TreeWalk function entry idom walk) (hroot : idom entry = none)
    (hlen : withPhis.blocks.length = function.blocks.length)
    (hstep : step function entry idom walk = some walk') :
    TreeWalk function entry idom walk' ∧
      ∃ defined' implicit', Converting stable withPhis walk' defined' implicit' := by
  rcases hwork : walk.work with - | ⟨⟨block⟩ | ⟨block, pops⟩, work⟩
  · rw [step, hwork] at hstep
    obtain rfl := Option.some.inj hstep
    exact ⟨htree, defined, implicit, h⟩
  · have hfresh := htree.fresh hwork
    have hmem : block ∈ visits walk.work ++ walk.renamed := by
      rw [hwork]
      exact List.mem_cons_self
    obtain ⟨defined', implicit', hconverting, hrenamed, hactive, pops, hwork'⟩ :=
      h.visit hwork (fun hb => hfresh (htree.active block hb)) hfresh
        (hlen ▸ htree.bounded block hmem) hstep
    exact ⟨htree.visit hroot hwork hrenamed hactive hwork', defined', implicit', hconverting⟩
  · obtain ⟨hconverting, hrenamed, hactive, hwork'⟩ := h.leave hwork hstep
    exact ⟨htree.leave hwork hrenamed hactive hwork', defined, implicit, hconverting⟩

/-- A run that ends has kept both invariants, and nothing waits. -/
theorem converting_run {fuel : ℕ} (h : Converting stable withPhis walk defined implicit)
    (htree : TreeWalk function entry idom walk) (hroot : idom entry = none)
    (hlen : withPhis.blocks.length = function.blocks.length)
    (hrun : run function entry idom fuel walk = some walk') :
    walk'.work = [] ∧ TreeWalk function entry idom walk' ∧
      ∃ defined' implicit', Converting stable withPhis walk' defined' implicit' := by
  induction fuel generalizing walk defined implicit with
  | zero =>
      rw [run] at hrun
      by_cases hempty : walk.work.isEmpty = true
      · rw [if_pos hempty] at hrun
        obtain rfl := Option.some.inj hrun
        exact ⟨List.isEmpty_iff.mp hempty, htree, defined, implicit, h⟩
      · rw [if_neg hempty] at hrun
        cases hrun
  | succ fuel ih =>
      rw [run] at hrun
      by_cases hempty : walk.work.isEmpty = true
      · rw [if_pos hempty] at hrun
        obtain rfl := Option.some.inj hrun
        exact ⟨List.isEmpty_iff.mp hempty, htree, defined, implicit, h⟩
      · rw [if_neg hempty] at hrun
        obtain ⟨next, hstep, hrest⟩ := Option.bind_eq_some_iff.mp hrun
        obtain ⟨htree', defined', implicit', h'⟩ := converting_step h htree hroot hlen hstep
        exact ih h' htree' hrest

end Turns

end Wiicompiled.Analysis.SsaTransformer
