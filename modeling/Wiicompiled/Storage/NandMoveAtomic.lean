import Wiicompiled.Storage.NandMove

/-!
# Moves are done as a whole or not at all

Each operation of the host changes the disk at or below one path.  The scratch directory, the
destination and the source are apart, so that the destination changes in one step from
nothing to the whole source, and the source goes only after that.  Two slips break this: a
query of the destination that fails counts as a free name, which the rename then replaces;
and the scratch directory can have the name of the source.
-/

namespace Wiicompiled.Storage.NandMove

open DirectoryTree

/-! ## Changes within a path -/

/-- A world that differs from an earlier one at or below a path only, also in between. -/
structure Within (path : Path) (world world' : World) : Prop where
  tree : AgreeOff path world.tree world'.tree
  moments : ∀ moment ∈ world'.moments, moment ∈ world.moments ∨ AgreeOff path world.tree moment

section Changes

variable {world world' world'' : World} {path longer source target : Path}

theorem Within.refl (path : Path) (world : World) : Within path world world :=
  ⟨AgreeOff.refl path world.tree, fun _ => Or.inl⟩

theorem Within.trans (h : Within path world world') (h' : Within path world' world'') :
    Within path world world'' where
  tree := h.tree.trans h'.tree
  moments moment hmoment := by
    rcases h'.moments moment hmoment with hearlier | hagree
    · exact h.moments moment hearlier
    · exact Or.inr (h.tree.trans hagree)

theorem Within.of_isPrefix (h : Within longer world world') (hle : path <+: longer) :
    Within path world world' where
  tree := h.tree.of_isPrefix hle
  moments moment hmoment := (h.moments moment hmoment).imp_right (·.of_isPrefix hle)

theorem within_change {tree : Disk} (h : AgreeOff path world.tree tree) :
    Within path world (world.change tree) where
  tree := h
  moments moment hmoment := by
    rcases List.mem_append.mp hmoment with hearlier | hnew
    · exact Or.inl hearlier
    · rw [List.mem_singleton.mp hnew]
      exact Or.inr h

theorem within_putPart (stuff : Part Name (List UInt8)) :
    Within path world (world.putPart path stuff) := by
  rw [World.putPart]
  split_ifs with h
  · exact within_change (agreeOff_put h)
  · exact Within.refl path world

theorem within_foldl {α : Type} {step : World → α → World}
    (hstep : ∀ world value, Within path world (step world value)) (values : List α)
    (world : World) : Within path world (values.foldl step world) := by
  induction values generalizing world with
  | nil => exact Within.refl path world
  | cons value values ih => exact (hstep world value).trans (ih _)

/-! ## The operations -/

theorem within_beginRemoval (progress : List (List Path)) :
    Within path world (beginRemoval progress path world) := by
  rw [beginRemoval]
  split_ifs
  · exact within_foldl (fun _ kept => within_change (agreeOff_remove kept)) _ _
  · exact Within.refl path world

theorem removeAll_of_succeeds {answer : RemovalAnswer} (h : answer.succeeds = true) :
    removeAll answer path world =
      let begun := beginRemoval answer.progress path world
      (begun.change (begun.tree.remove path []), true) :=
  if_pos h

theorem removeAll_of_fails {answer : RemovalAnswer} (h : ¬answer.succeeds = true) :
    removeAll answer path world = (beginRemoval answer.progress path world, false) :=
  if_neg h

theorem within_removeAll (answer : RemovalAnswer) :
    Within path world (removeAll answer path world).1 := by
  have hbegun : Within path world (beginRemoval answer.progress path world) :=
    within_beginRemoval answer.progress
  by_cases hsucceeds : answer.succeeds = true
  · rw [removeAll_of_succeeds hsucceeds]
    exact hbegun.trans (within_change (agreeOff_remove []))
  · rw [removeAll_of_fails hsucceeds]
    exact hbegun

theorem removeAll_gone {answer : RemovalAnswer} (hsucceeds : answer.succeeds = true)
    (hpath : path ≠ []) : (removeAll answer path world).1.tree.entry path = none := by
  rw [removeAll_of_succeeds hsucceeds]
  exact remove_entry_self hpath

theorem removeAll_file (answer : RemovalAnswer) (hfile : world.tree.entry path ≠ some .directory)
    (hpath : path ≠ []) {moment : Disk}
    (hmoment : moment ∈ (removeAll answer path world).1.moments) :
    moment ∈ world.moments ∨ moment.entry path = none := by
  have hbegun : beginRemoval answer.progress path world = world := if_neg hfile
  by_cases hsucceeds : answer.succeeds = true
  · rw [removeAll_of_succeeds hsucceeds, hbegun] at hmoment
    rcases List.mem_append.mp hmoment with hearlier | hnew
    · exact Or.inl hearlier
    · rw [List.mem_singleton.mp hnew]
      exact Or.inr (remove_entry_self hpath)
  · rw [removeAll_of_fails hsucceeds, hbegun] at hmoment
    exact Or.inl hmoment

theorem within_copySource (answer : CopyAnswer) (sourceIsDirectory : Bool) :
    Within target world (copySource answer sourceIsDirectory source target world).1 := by
  have hbegun : Within target world (answer.progress.foldl (World.putPart target) world) :=
    within_foldl (fun _ stuff => within_putPart stuff) _ _
  rw [copySource]
  split_ifs
  · exact hbegun.trans (within_putPart _)
  · exact hbegun

theorem target_ne_nil {tree : Disk} (h : tree.CanMove source target) : target ≠ [] := by
  rintro rfl
  exact Option.some_ne_none _ (tree.rooted.symm.trans h.free)

theorem not_isPrefix_dropLast (hpath : path ≠ []) : ¬ path <+: path.dropLast := by
  intro hle
  have hlength := hle.length_le
  rw [List.length_dropLast] at hlength
  have := List.length_pos_iff.mpr hpath
  omega

theorem copySource_complete {answer : CopyAnswer} {sourceIsDirectory : Bool}
    (h : (copySource answer sourceIsDirectory source target world).2 = true) :
    world.tree.CanMove source target ∧
      sourceIsDirectory = IsDirectory true world.tree source ∧
      (copySource answer sourceIsDirectory source target world).1.tree.under target =
        world.tree.under source := by
  rw [copySource] at h ⊢
  split_ifs at h ⊢ with hcopy
  obtain ⟨-, hkind, hcan⟩ := hcopy
  refine ⟨hcan, hkind, ?_⟩
  have hbegun : Within target world (answer.progress.foldl (World.putPart target) world) :=
    within_foldl (fun _ stuff => within_putPart stuff) _ _
  have hput : (answer.progress.foldl (World.putPart target) world).tree.CanPut target :=
    ⟨target_ne_nil hcan,
      (hbegun.tree _ (not_isPrefix_dropLast (target_ne_nil hcan))).trans hcan.parent⟩
  rw [World.putPart, dif_pos hput]
  exact under_put hput

theorem publishCopy_whole {succeeds sourceIsDirectory : Bool}
    (h : publishCopy succeeds sourceIsDirectory source target world = some world') :
    world.tree.entry target = none ∧
      world'.tree.under target = world.tree.under source ∧
      (∀ other, ¬ source <+: other → ¬ target <+: other →
        world'.tree.entry other = world.tree.entry other) ∧
      world'.moments = world.moments ++ [world'.tree] := by
  rw [publishCopy] at h
  split_ifs at h with hsucceeds hcan hdirectory
  · rw [← Option.some.inj h]
    exact ⟨hcan.free, under_move hcan,
      fun other hsource htarget => move_entry_of_not_isPrefix hcan hsource htarget, rfl⟩
  · have hput : world.tree.CanPut target := ⟨target_ne_nil hcan, hcan.parent⟩
    rw [World.putPart, dif_pos hput] at h
    rw [← Option.some.inj h]
    exact ⟨hcan.free, under_put hput, fun other _ htarget => agreeOff_put hput other htarget, rfl⟩

theorem createDirectory_created {answer : CreateAnswer}
    (h : createDirectory answer path world = .created world') :
    world.tree.entry path = none ∧ Within path world world' := by
  cases answer with
  | fails => cases h
  | fileExists => cases h
  | succeeds =>
      rw [createDirectory.eq_def] at h
      simp only at h
      split_ifs at h with hfree hput
      cases h
      exact ⟨not_not.mp hfree, within_change (agreeOff_put hput)⟩

theorem claimScratch_free {host : Host} {processId moveSequence left attempt : ℕ}
    {dstDirectoryHost scratchHost : Path}
    (h : claimScratch host processId moveSequence dstDirectoryHost world left attempt =
      some (scratchHost, world')) :
    (∃ name, scratchHost = dstDirectoryHost ++ [name]) ∧
      world.tree.entry scratchHost = none ∧ Within scratchHost world world' := by
  induction left generalizing attempt with
  | zero => exact absurd h (Option.some_ne_none _).symm
  | succ left ih =>
      rw [claimScratch] at h
      cases hcreate : createDirectory (host.create attempt)
          (dstDirectoryHost ++ [scratchName processId (moveSequence + attempt) attempt]) world with
      | failed => rw [hcreate] at h; exact absurd h (Option.some_ne_none _).symm
      | fileExists => rw [hcreate] at h; exact ih h
      | created created =>
          rw [hcreate] at h
          obtain ⟨rfl, rfl⟩ := Prod.mk.inj (Option.some.inj h)
          exact ⟨⟨_, rfl⟩, createDirectory_created hcreate⟩

end Changes

/-! ## What a move promises -/

/-- The destination is what it was or, where nothing was, the whole source. -/
def WholeAt (before : Disk) (srcHost dstHost : Path) (moment : Disk) : Prop :=
  (before.entry dstHost ≠ none → moment.under dstHost = before.under dstHost) ∧
    (before.entry dstHost = none →
      moment.entry dstHost = none ∨ moment.under dstHost = before.under srcHost)

/-- A move that is done as a whole or not at all.  An existing destination refuses it, and
the scratch directory is neither the destination nor left behind. -/
structure AllOrNothing (before : Disk) (srcHost dstHost : Path) (cleanup : RemovalAnswer)
    (outcome : Outcome) : Prop where
  moved : outcome.result = .ok → outcome.world.tree.under dstHost = before.under srcHost ∧
    outcome.world.tree.entry srcHost = none
  kept : outcome.result ≠ .ok →
    (∀ rest, before.under srcHost rest ≠ none →
      outcome.world.tree.under srcHost rest = before.under srcHost rest) ∨
    before.entry srcHost = some .directory ∧
      outcome.world.tree.under dstHost = before.under srcHost
  refused : before.entry dstHost ≠ none → outcome.result ≠ .ok
  moments : ∀ moment ∈ outcome.world.moments, WholeAt before srcHost dstHost moment
  scratch : ∀ scratchHost, outcome.scratchHost = some scratchHost →
    ¬ dstHost <+: scratchHost ∧
      (cleanup.succeeds = true → outcome.world.tree.entry scratchHost = none)

section Moves

variable {before : Disk} {srcHost dstHost scratchHost path : Path} {cleanup : RemovalAnswer}
  {moment : Disk} {world : World}

theorem unknown_ne_ok : NandResult.unknown ≠ .ok := by decide

theorem wholeAt_of_agreeOff (h : AgreeOff path before moment) (hapart : Apart path dstHost) :
    WholeAt before srcHost dstHost moment :=
  ⟨fun _ => h.under_eq hapart, fun hfree => Or.inl ((h.entry_eq hapart).trans hfree)⟩

theorem allOrNothing_unchanged {result : NandResult} (hresult : result ≠ .ok) :
    AllOrNothing before srcHost dstHost cleanup ⟨result, ⟨before, []⟩, none⟩ where
  moved h := absurd h hresult
  kept _ := Or.inl fun _ _ => rfl
  refused _ := hresult
  moments _ hmoment := absurd hmoment List.not_mem_nil
  scratch _ h := absurd h (Option.some_ne_none _).symm

/-- An error of the copy or its publication: only the scratch directory has changed. -/
theorem allOrNothing_unpublished (hwithin : Within scratchHost ⟨before, []⟩ world)
    (hfree : before.entry scratchHost = none) (hapart : Apart scratchHost dstHost)
    (hscratch : scratchHost ≠ []) :
    AllOrNothing before srcHost dstHost cleanup
      ⟨.unknown, (removeAll cleanup scratchHost world).1, some scratchHost⟩ := by
  have hend := hwithin.trans (within_removeAll cleanup)
  exact
    { moved := fun h => nomatch h
      kept := fun _ => Or.inl fun rest hrest => hend.tree.entry_of_free hfree hrest
      refused := fun _ h => nomatch h
      moments := fun moment hmoment =>
        wholeAt_of_agreeOff ((hend.moments moment hmoment).resolve_left List.not_mem_nil) hapart
      scratch := fun _ h => by
        rw [← Option.some.inj h]
        exact ⟨hapart.2, fun hsucceeds => removeAll_gone hsucceeds hscratch⟩ }

/-- The state after the publication: the destination is the whole source, the source is as
it was, and so it stays while the scratch directory is removed. -/
structure Published (before : Disk) (srcHost dstHost scratchHost : Path) (world : World) :
    Prop where
  target : world.tree.under dstHost = before.under srcHost
  source : world.tree.under srcHost = before.under srcHost
  free : before.entry dstHost = none
  moments : ∀ moment ∈ world.moments, WholeAt before srcHost dstHost moment

theorem Published.removeScratch (h : Published before srcHost dstHost scratchHost world)
    (hdst : Apart scratchHost dstHost) (hsrc : Apart scratchHost srcHost) :
    Published before srcHost dstHost scratchHost (removeAll cleanup scratchHost world).1 := by
  have hend : Within scratchHost world (removeAll cleanup scratchHost world).1 :=
    within_removeAll cleanup
  refine ⟨(hend.tree.under_eq hdst).trans h.target, (hend.tree.under_eq hsrc).trans h.source,
    h.free, fun moment hmoment => ?_⟩
  rcases hend.moments moment hmoment with hearlier | hagree
  · exact h.moments moment hearlier
  · exact ⟨fun hne => absurd h.free hne, fun _ => Or.inr ((hagree.under_eq hdst).trans h.target)⟩

/-- The removal of the source, when it succeeds or the source is a directory. -/
theorem Published.removeSource {removal : RemovalAnswer} {result : NandResult}
    (h : Published before srcHost dstHost scratchHost world) (hdst : Apart srcHost dstHost)
    (hscratch : Apart srcHost scratchHost) (hapart : Apart scratchHost dstHost)
    (hgone : cleanup.succeeds = true → world.tree.entry scratchHost = none)
    (hsrc : srcHost ≠ [])
    (hresult : result = .ok ∧ removal.succeeds = true ∨
      result ≠ .ok ∧ before.entry srcHost = some .directory) :
    AllOrNothing before srcHost dstHost cleanup
      ⟨result, (removeAll removal srcHost world).1, some scratchHost⟩ := by
  have hend : Within srcHost world (removeAll removal srcHost world).1 := within_removeAll removal
  have htarget := (hend.tree.under_eq hdst).trans h.target
  refine ⟨fun hok => ⟨htarget, ?_⟩, fun hne => ?_, fun hne => absurd h.free hne,
    fun moment hmoment => ?_, fun _ hsome => ?_⟩
  · rcases hresult with ⟨-, hsucceeds⟩ | ⟨hne, -⟩
    · exact removeAll_gone hsucceeds hsrc
    · exact absurd hok hne
  · rcases hresult with ⟨hok, -⟩ | ⟨-, hdirectory⟩
    · exact absurd hok hne
    · exact Or.inr ⟨hdirectory, htarget⟩
  · rcases hend.moments moment hmoment with hearlier | hagree
    · exact h.moments moment hearlier
    · exact ⟨fun hne => absurd h.free hne,
        fun _ => Or.inr ((hagree.under_eq hdst).trans h.target)⟩
  · rw [← Option.some.inj hsome]
    exact ⟨hapart.2, fun hsucceeds => (hend.tree.entry_eq hscratch).trans (hgone hsucceeds)⟩

theorem Published.rollBack {rollback : RemovalAnswer}
    (h : Published before srcHost dstHost scratchHost world) (hdst : Apart dstHost srcHost)
    (hapart : Apart scratchHost dstHost)
    (hgone : cleanup.succeeds = true → world.tree.entry scratchHost = none)
    (hfile : before.entry srcHost ≠ some .directory) (hne : dstHost ≠ []) :
    AllOrNothing before srcHost dstHost cleanup
      ⟨.unknown, (removeAll rollback dstHost world).1, some scratchHost⟩ := by
  have hend : Within dstHost world (removeAll rollback dstHost world).1 :=
    within_removeAll rollback
  have htarget : world.tree.entry dstHost ≠ some .directory := by
    have hentry := congrFun h.target []
    rw [under, under, List.append_nil, List.append_nil] at hentry
    rwa [hentry]
  refine ⟨fun hok => absurd hok unknown_ne_ok, fun _ => Or.inl fun rest _ => ?_,
    fun hne => absurd h.free hne, fun moment hmoment => ?_, fun _ hsome => ?_⟩
  · rw [hend.tree.under_eq hdst, h.source]
  · rcases removeAll_file rollback htarget hne hmoment with hearlier | hremoved
    · exact h.moments moment hearlier
    · exact ⟨fun hne => absurd h.free hne, fun _ => Or.inl hremoved⟩
  · rw [← Option.some.inj hsome]
    exact ⟨hapart.2, fun hsucceeds => (hend.tree.entry_eq hapart.symm).trans (hgone hsucceeds)⟩

theorem published_of_publishCopy {created copied : World} {sourceIsDirectory : Bool}
    {succeeds : Bool} {tempHost : Path} (hcreated : Within scratchHost ⟨before, []⟩ created)
    (hcopied : Within tempHost created copied) (htemp : scratchHost <+: tempHost)
    (hcomplete : copied.tree.under tempHost = created.tree.under srcHost)
    (hpublish : publishCopy succeeds sourceIsDirectory tempHost dstHost copied = some world)
    (hdst : Apart scratchHost dstHost) (hsrc : Apart scratchHost srcHost)
    (hthere : before.entry srcHost ≠ none) (hstays : ¬ srcHost <+: dstHost) :
    Published before srcHost dstHost scratchHost world ∧ Apart srcHost dstHost := by
  have hwithin := hcreated.trans (hcopied.of_isPrefix htemp)
  obtain ⟨hfree, htarget, hothers, hmoments⟩ := publishCopy_whole hpublish
  have hfreeBefore : before.entry dstHost = none := (hwithin.tree.entry_eq hdst).symm.trans hfree
  have hwhole : world.tree.under dstHost = before.under srcHost :=
    htarget.trans (hcomplete.trans (hcreated.tree.under_eq hsrc))
  have hapart : Apart srcHost dstHost :=
    ⟨hstays, fun hle => hthere (entry_eq_none_of_isPrefix hle hfreeBefore)⟩
  refine ⟨⟨hwhole, funext fun rest => ?_, hfreeBefore, fun moment hmoment => ?_⟩, hapart⟩
  · have htempRest : ¬ tempHost <+: srcHost ++ rest :=
      fun hle => hsrc.not_isPrefix_append rest (htemp.trans hle)
    have hdstRest : ¬ dstHost <+: srcHost ++ rest := hapart.symm.not_isPrefix_append rest
    exact (hothers _ htempRest hdstRest).trans (congrFun (hwithin.tree.under_eq hsrc) rest)
  · rw [hmoments] at hmoment
    rcases List.mem_append.mp hmoment with hearlier | hnew
    · exact wholeAt_of_agreeOff
        ((hwithin.moments moment hearlier).resolve_left List.not_mem_nil) hdst
    · rw [List.mem_singleton.mp hnew]
      exact ⟨fun hne => absurd hfreeBefore hne, fun _ => Or.inr hwhole⟩

theorem moveByCopy_allOrNothing {host : Host} {created : World} {srcName : Name}
    (hthere : before.entry srcHost ≠ none) (hsrc : srcHost ≠ [])
    (hcreated : Within scratchHost ⟨before, []⟩ created) (hfree : before.entry scratchHost = none)
    (hdst : Apart scratchHost dstHost) (hscratch : scratchHost ≠ []) (hne : dstHost ≠ [])
    (habove : srcHost <+: dstHost → srcHost ≠ dstHost → srcHost <+: scratchHost) :
    AllOrNothing before srcHost dstHost host.cleanup
      ⟨(moveByCopy host srcHost dstHost scratchHost srcName created).1,
        (moveByCopy host srcHost dstHost scratchHost srcName created).2, some scratchHost⟩ := by
  have htemp : scratchHost <+: scratchHost ++ [srcName] := List.prefix_append _ _
  have hscratchSrc : ¬ scratchHost <+: srcHost :=
    fun hle => hthere (entry_eq_none_of_isPrefix hle hfree)
  obtain ⟨sourceIsDirectory, hkind⟩ :
    ∃ kind, kind = IsDirectory host.kindQuery created.tree srcHost := ⟨_, rfl⟩
  rw [moveByCopy, ← hkind]
  have hcopyWithin : Within (scratchHost ++ [srcName]) created
      (copySource host.copy sourceIsDirectory srcHost (scratchHost ++ [srcName]) created).1 :=
    within_copySource host.copy sourceIsDirectory
  rcases hcopy : copySource host.copy sourceIsDirectory srcHost (scratchHost ++ [srcName])
    created with ⟨copied, _ | _⟩
  · rw [hcopy] at hcopyWithin
    exact allOrNothing_unpublished (hcreated.trans (hcopyWithin.of_isPrefix htemp)) hfree hdst
      hscratch
  obtain ⟨hcan, hdirectory, hcomplete⟩ := copySource_complete (by rw [hcopy])
  rw [hcopy] at hcopyWithin hcomplete
  -- the source does not lead to the scratch directory, or it would be copied into itself
  have hapartSrc : Apart scratchHost srcHost :=
    ⟨hscratchSrc, fun hle => hcan.stays (hle.trans htemp)⟩
  simp only
  rcases hpublish : publishCopy host.publish sourceIsDirectory (scratchHost ++ [srcName])
    dstHost copied with _ | world
  · exact allOrNothing_unpublished (hcreated.trans (hcopyWithin.of_isPrefix htemp)) hfree hdst
      hscratch
  have hstays : ¬ srcHost <+: dstHost := by
    intro hle
    by_cases heq : srcHost = dstHost
    · have hwithin := hcreated.trans (hcopyWithin.of_isPrefix htemp)
      rw [heq] at hthere
      exact hthere ((hwithin.tree.entry_eq hdst).symm.trans (publishCopy_whole hpublish).1)
    · exact hapartSrc.2 (habove hle heq)
  obtain ⟨hpublished, hapart⟩ := published_of_publishCopy hcreated hcopyWithin htemp hcomplete
    hpublish hdst hapartSrc hthere hstays
  obtain ⟨cleaned, hcleanup⟩ : ∃ cleaned, cleaned = (removeAll host.cleanup scratchHost world).1 :=
    ⟨_, rfl⟩
  have hcleaned : Published before srcHost dstHost scratchHost cleaned :=
    hcleanup ▸ hpublished.removeScratch hdst hapartSrc
  have hgone : host.cleanup.succeeds = true → cleaned.tree.entry scratchHost = none :=
    fun hsucceeds => hcleanup ▸ removeAll_gone hsucceeds hscratch
  have hentry : created.tree.entry srcHost = before.entry srcHost :=
    hcreated.tree.entry_eq hapartSrc
  simp only
  rw [← hcleanup]
  by_cases hsucceeds : host.removal.succeeds = true
  · have hend : AllOrNothing before srcHost dstHost host.cleanup
        ⟨.ok, (removeAll host.removal srcHost cleaned).1, some scratchHost⟩ :=
      hcleaned.removeSource hapart hapartSrc.symm hdst hgone hsrc (Or.inl ⟨rfl, hsucceeds⟩)
    rw [removeAll_of_succeeds hsucceeds] at hend ⊢
    exact hend
  cases hsource : sourceIsDirectory with
  | true =>
      have hdir : before.entry srcHost = some .directory := by
        rw [← hentry]
        simpa [IsDirectory, hsource] using hdirectory
      have hend : AllOrNothing before srcHost dstHost host.cleanup
          ⟨.unknown, (removeAll host.removal srcHost cleaned).1, some scratchHost⟩ :=
        hcleaned.removeSource hapart hapartSrc.symm hdst hgone hsrc
          (Or.inr ⟨unknown_ne_ok, hdir⟩)
      rw [removeAll_of_fails hsucceeds] at hend ⊢
      exact hend
  | false =>
      have hfile : before.entry srcHost ≠ some .directory := by
        rw [← hentry]
        simpa [IsDirectory, hsource] using hdirectory
      have hkept : beginRemoval host.removal.progress srcHost cleaned = cleaned := by
        refine if_neg ?_
        have hunder := congrFun hcleaned.source []
        rw [under, under, List.append_nil] at hunder
        rwa [hunder]
      rw [removeAll_of_fails hsucceeds, hkept]
      exact hcleaned.rollBack hapart.symm hdst hgone hfile hne

theorem renamed_moves {tree : Disk} (h : renamed before srcHost dstHost = some tree)
    (hfree : before.entry dstHost = none) (hthere : before.entry srcHost ≠ none) :
    tree.under dstHost = before.under srcHost ∧ tree.entry srcHost = none := by
  rw [renamed] at h
  split_ifs at h with heq hreplace hcan
  · exact absurd (heq ▸ hfree) hthere
  · rw [← Option.some.inj h]
    refine ⟨(under_move hcan).trans (funext fun rest => ?_), move_entry_source hcan⟩
    exact remove_entry_of_free hfree

end Moves

/-! ## The move -/

section Move

variable (host : Host) (processId moveSequence : ℕ) (before : Disk)
  (srcHost dstDirectoryHost : Path) (srcName : Name)

/-- The queries of the source and of the destination directory find them. -/
def SourceFound : Prop :=
  PathExists host.sourceQuery before srcHost = true ∧
    IsDirectory host.directoryQuery before dstDirectoryHost = true

/-- The query of an existing destination fails, and the rename replaces it. -/
def ReplacesDestination : Prop :=
  SourceFound host before srcHost dstDirectoryHost ∧ host.destinationQuery = false ∧
    before.entry (dstDirectoryHost ++ [srcName]) ≠ none ∧ host.rename = .succeeds ∧
    (renamed before srcHost (dstDirectoryHost ++ [srcName])).isSome

/-- The scratch directory of a copy takes the name of the destination. -/
def ScratchAtDestination : Prop :=
  SourceFound host before srcHost dstDirectoryHost ∧
    PathExists host.destinationQuery before (dstDirectoryHost ++ [srcName]) = false ∧
    host.rename = .crossDeviceLink ∧
    (claimScratch host processId moveSequence dstDirectoryHost ⟨before, []⟩ 128 0).map Prod.fst =
      some (dstDirectoryHost ++ [srcName])

variable {host processId moveSequence before srcHost dstDirectoryHost srcName}

theorem moveInto_refused
    (h : ¬SourceFound host before srcHost dstDirectoryHost ∨
      PathExists host.destinationQuery before (dstDirectoryHost ++ [srcName]) = true) :
    ∃ result, result ≠ .ok ∧
      moveInto host processId moveSequence srcHost dstDirectoryHost srcName ⟨before, []⟩ =
        ⟨result, ⟨before, []⟩, none⟩ := by
  rw [moveInto]
  by_cases hsource : PathExists host.sourceQuery before srcHost = false
  · exact ⟨.noExists, by decide, if_pos hsource⟩
  by_cases hdirectory : IsDirectory host.directoryQuery before dstDirectoryHost = false
  · exact ⟨.noExists, by decide, (if_neg hsource).trans (if_pos hdirectory)⟩
  have hquery := h.resolve_left
    (not_not.mpr ⟨by simpa using hsource, by simpa using hdirectory⟩)
  exact ⟨.exists, by decide, (if_neg hsource).trans ((if_neg hdirectory).trans (if_pos hquery))⟩

theorem moveInto_found (hfound : SourceFound host before srcHost dstDirectoryHost)
    (hquery : ¬PathExists host.destinationQuery before (dstDirectoryHost ++ [srcName]) = true) :
    moveInto host processId moveSequence srcHost dstDirectoryHost srcName ⟨before, []⟩ =
      match host.rename, renamed before srcHost (dstDirectoryHost ++ [srcName]) with
      | .succeeds, some tree => ⟨.ok, ⟨tree, [tree]⟩, none⟩
      | .crossDeviceLink, _ =>
          match claimScratch host processId moveSequence dstDirectoryHost ⟨before, []⟩ 128 0 with
          | none => ⟨.unknown, ⟨before, []⟩, none⟩
          | some (scratchHost, world) =>
              ⟨(moveByCopy host srcHost (dstDirectoryHost ++ [srcName]) scratchHost srcName
                world).1, (moveByCopy host srcHost (dstDirectoryHost ++ [srcName]) scratchHost
                srcName world).2, some scratchHost⟩
      | _, _ => ⟨.unknown, ⟨before, []⟩, none⟩ := by
  have hsource : ¬PathExists host.sourceQuery before srcHost = false := by
    rw [hfound.1]
    decide
  have hdirectory : ¬IsDirectory host.directoryQuery before dstDirectoryHost = false := by
    rw [hfound.2]
    decide
  rw [moveInto]
  refine (if_neg hsource).trans ((if_neg hdirectory).trans ((if_neg hquery).trans ?_))
  simp only
  cases host.rename with
  | succeeds => cases renamed before srcHost (dstDirectoryHost ++ [srcName]) <;> rfl
  | crossDeviceLink =>
      cases claimScratch host processId moveSequence dstDirectoryHost ⟨before, []⟩ 128 0 <;> rfl
  | fails => rfl

theorem SourceFound.there (h : SourceFound host before srcHost dstDirectoryHost) :
    before.entry srcHost ≠ none := by
  have hquery := h.1
  rw [PathExists, Bool.and_eq_true, Option.isSome_iff_ne_none] at hquery
  exact hquery.2

/-- A rename is a whole move exactly when the destination is free. -/
theorem allOrNothing_renamed_iff {tree : Disk} (hthere : before.entry srcHost ≠ none)
    (hrenamed : renamed before srcHost (dstDirectoryHost ++ [srcName]) = some tree) :
    AllOrNothing before srcHost (dstDirectoryHost ++ [srcName]) host.cleanup
        ⟨.ok, ⟨tree, [tree]⟩, none⟩ ↔ before.entry (dstDirectoryHost ++ [srcName]) = none := by
  constructor
  · intro h
    by_contra hne
    exact h.refused hne rfl
  · intro hfree
    obtain ⟨hwhole, hgone⟩ := renamed_moves hrenamed hfree hthere
    refine ⟨fun _ => ⟨hwhole, hgone⟩, fun hne => absurd rfl hne, fun hne => absurd hfree hne,
      fun moment hmoment => ?_, fun _ h => absurd h (Option.some_ne_none _).symm⟩
    rw [List.mem_singleton.mp hmoment]
    exact ⟨fun hne => absurd hfree hne, fun _ => Or.inr hwhole⟩

/-- A move by a copy is whole exactly when the scratch directory is not the destination. -/
theorem allOrNothing_copied_iff {scratchHost : Path} {world : World}
    (hthere : before.entry srcHost ≠ none) (hsrc : srcHost ≠ [])
    (hclaim : claimScratch host processId moveSequence dstDirectoryHost ⟨before, []⟩ 128 0 =
      some (scratchHost, world)) :
    AllOrNothing before srcHost (dstDirectoryHost ++ [srcName]) host.cleanup
        ⟨(moveByCopy host srcHost (dstDirectoryHost ++ [srcName]) scratchHost srcName world).1,
          (moveByCopy host srcHost (dstDirectoryHost ++ [srcName]) scratchHost srcName world).2,
          some scratchHost⟩ ↔ scratchHost ≠ dstDirectoryHost ++ [srcName] := by
  constructor
  · intro h heq
    exact (h.scratch scratchHost rfl).1 (heq ▸ List.prefix_rfl)
  · intro hne
    obtain ⟨⟨scratch, rfl⟩, hfree, hwithin⟩ := claimScratch_free hclaim
    have hname : scratch ≠ srcName := fun heq => hne (heq ▸ rfl)
    refine moveByCopy_allOrNothing hthere hsrc hwithin hfree (apart_concat hname)
      (by simp) (by simp) fun hle heq => ?_
    -- what leads to the destination leads to its directory
    rcases List.prefix_concat_iff.mp hle with hself | habove
    · exact absurd hself heq
    · exact habove.trans (List.prefix_append _ _)

theorem moveInto_allOrNothing_iff (hsrc : srcHost ≠ []) :
    AllOrNothing before srcHost (dstDirectoryHost ++ [srcName]) host.cleanup
        (moveInto host processId moveSequence srcHost dstDirectoryHost srcName ⟨before, []⟩) ↔
      ¬ReplacesDestination host before srcHost dstDirectoryHost srcName ∧
        ¬ScratchAtDestination host processId moveSequence before srcHost dstDirectoryHost
          srcName := by
  by_cases hrefused : ¬SourceFound host before srcHost dstDirectoryHost ∨
      PathExists host.destinationQuery before (dstDirectoryHost ++ [srcName]) = true
  · obtain ⟨result, hresult, hmove⟩ := @moveInto_refused host processId moveSequence before
      srcHost dstDirectoryHost srcName hrefused
    rw [hmove]
    refine iff_of_true (allOrNothing_unchanged hresult) ⟨?_, ?_⟩
    · rintro ⟨hfound, hquery, -⟩
      rcases hrefused with hnot | hexists
      · exact hnot hfound
      · rw [PathExists, hquery] at hexists
        exact Bool.false_ne_true hexists
    · rintro ⟨hfound, hquery, -⟩
      rcases hrefused with hnot | hexists
      · exact hnot hfound
      · rw [hquery] at hexists
        exact Bool.false_ne_true hexists
  rw [not_or, not_not] at hrefused
  obtain ⟨hfound, hquery⟩ := hrefused
  rw [moveInto_found hfound hquery]
  cases hrename : host.rename with
  | fails =>
      refine iff_of_true (allOrNothing_unchanged unknown_ne_ok) ⟨?_, ?_⟩
      · rintro ⟨-, -, -, h, -⟩
        exact absurd (hrename.symm.trans h) (by decide)
      · rintro ⟨-, -, h, -⟩
        exact absurd (hrename.symm.trans h) (by decide)
  | succeeds =>
      have hscratch : ¬ScratchAtDestination host processId moveSequence before srcHost
          dstDirectoryHost srcName := by
        rintro ⟨-, -, h, -⟩
        exact absurd (hrename.symm.trans h) (by decide)
      rw [and_iff_left hscratch]
      cases hrenamed : renamed before srcHost (dstDirectoryHost ++ [srcName]) with
      | none =>
          refine iff_of_true (allOrNothing_unchanged unknown_ne_ok) ?_
          rintro ⟨-, -, -, -, h⟩
          rw [hrenamed] at h
          exact Bool.false_ne_true h
      | some tree =>
          simp only
          rw [allOrNothing_renamed_iff hfound.there hrenamed]
          refine ⟨fun hfree h => h.2.2.1 hfree, fun h => ?_⟩
          by_contra hne
          refine h ⟨hfound, ?_, hne, hrename, by rw [hrenamed]; rfl⟩
          rw [PathExists, Option.isSome_iff_ne_none.mpr hne, Bool.and_true] at hquery
          exact Bool.eq_false_iff.mpr hquery
  | crossDeviceLink =>
      have hreplaces : ¬ReplacesDestination host before srcHost dstDirectoryHost srcName := by
        rintro ⟨-, -, -, h, -⟩
        exact absurd (hrename.symm.trans h) (by decide)
      rw [and_iff_right hreplaces]
      have hscratch : ScratchAtDestination host processId moveSequence before srcHost
            dstDirectoryHost srcName ↔
          (claimScratch host processId moveSequence dstDirectoryHost ⟨before, []⟩ 128 0).map
            Prod.fst = some (dstDirectoryHost ++ [srcName]) :=
        ⟨fun h => h.2.2.2, fun h => ⟨hfound, Bool.eq_false_iff.mpr hquery, hrename, h⟩⟩
      rw [hscratch]
      rcases hclaim : claimScratch host processId moveSequence dstDirectoryHost ⟨before, []⟩ 128 0
        with _ | ⟨scratchHost, world⟩
      · exact iff_of_true (allOrNothing_unchanged unknown_ne_ok) (Option.some_ne_none _).symm
      · rw [Option.map_some, Option.some.injEq]
        exact allOrNothing_copied_iff hfound.there hsrc hclaim

end Move

/-! ## The call -/

section Call

variable (host : Host) (processId moveSequence : ℕ)
  (translateNandPath : List Char → Option Path) (srcPath dstPath : Option (List Char))
  (tree : Disk)

/-- The source, the destination directory and the name of a call that has them. -/
def movedPaths : Option (Path × Path × Name) :=
  match srcPath, dstPath with
  | some srcPath, some dstPath =>
      let srcHost := (translateNandPath srcPath).getD []
      if srcHost.getLastD [] = [] then none
      else (translateNandPath dstPath).map fun dstDirectoryHost =>
        (srcHost, dstDirectoryHost, srcHost.getLastD [])
  | _, _ => none

/-- A call without paths fails and changes nothing, and others are all-or-nothing. -/
def IsAllOrNothing : Prop :=
  match movedPaths translateNandPath srcPath dstPath with
  | none =>
      (NANDMove_HLE host processId moveSequence translateNandPath srcPath dstPath tree).result ≠
          .ok ∧
        (NANDMove_HLE host processId moveSequence translateNandPath srcPath dstPath tree).world =
          ⟨tree, []⟩
  | some (srcHost, dstDirectoryHost, srcName) =>
      AllOrNothing tree srcHost (dstDirectoryHost ++ [srcName]) host.cleanup
        (NANDMove_HLE host processId moveSequence translateNandPath srcPath dstPath tree)

/-- Neither slip happens. -/
def IsGuarded : Prop :=
  ∀ srcHost dstDirectoryHost srcName,
    movedPaths translateNandPath srcPath dstPath = some (srcHost, dstDirectoryHost, srcName) →
      ¬ReplacesDestination host tree srcHost dstDirectoryHost srcName ∧
        ¬ScratchAtDestination host processId moveSequence tree srcHost dstDirectoryHost srcName

variable {host processId moveSequence translateNandPath srcPath dstPath tree}

theorem NANDMove_of_movedPaths_none (h : movedPaths translateNandPath srcPath dstPath = none) :
    ∃ result, result ≠ .ok ∧
      NANDMove_HLE host processId moveSequence translateNandPath srcPath dstPath tree =
        ⟨result, ⟨tree, []⟩, none⟩ := by
  cases srcPath with
  | none => exact ⟨.invalid, by decide, rfl⟩
  | some srcPath =>
      cases dstPath with
      | none => exact ⟨.invalid, by decide, rfl⟩
      | some dstPath =>
          rw [NANDMove_HLE]
          by_cases hname : ((translateNandPath srcPath).getD []).getLastD [] = []
          · exact ⟨.invalid, by decide, if_pos hname⟩
          · have hdst : translateNandPath dstPath = none :=
              Option.map_eq_none_iff.mp ((if_neg hname).symm.trans h)
            rw [hdst]
            exact ⟨.noExists, by decide, if_neg hname⟩

theorem NANDMove_of_movedPaths {srcHost dstDirectoryHost : Path} {srcName : Name}
    (h : movedPaths translateNandPath srcPath dstPath =
      some (srcHost, dstDirectoryHost, srcName)) :
    srcHost ≠ [] ∧
      NANDMove_HLE host processId moveSequence translateNandPath srcPath dstPath tree =
        moveInto host processId moveSequence srcHost dstDirectoryHost srcName ⟨tree, []⟩ := by
  cases srcPath with
  | none => exact absurd h (Option.some_ne_none _).symm
  | some srcPath =>
      cases dstPath with
      | none => exact absurd h (Option.some_ne_none _).symm
      | some dstPath =>
          have hname : ¬((translateNandPath srcPath).getD []).getLastD [] = [] := by
            intro hname
            exact absurd ((if_pos hname).symm.trans h) (Option.some_ne_none _).symm
          obtain ⟨_, hdst, heq⟩ := Option.map_eq_some_iff.mp ((if_neg hname).symm.trans h)
          cases heq
          refine ⟨fun hnil => hname (by rw [hnil]; rfl), ?_⟩
          rw [NANDMove_HLE, hdst]
          exact if_neg hname

variable (host processId moveSequence translateNandPath srcPath dstPath tree)

/-- A move is all-or-nothing unless the query of an existing destination fails before a
rename that replaces it, or the scratch directory takes the destination's name. -/
theorem isAllOrNothing_iff :
    IsAllOrNothing host processId moveSequence translateNandPath srcPath dstPath tree ↔
      IsGuarded host processId moveSequence translateNandPath srcPath dstPath tree := by
  rw [IsAllOrNothing, IsGuarded]
  rcases hpaths : movedPaths translateNandPath srcPath dstPath with
    _ | ⟨srcHost, dstDirectoryHost, srcName⟩
  · obtain ⟨result, hresult, hmove⟩ := @NANDMove_of_movedPaths_none host processId moveSequence
      translateNandPath srcPath dstPath tree hpaths
    rw [hmove]
    exact iff_of_true ⟨hresult, rfl⟩ fun _ _ _ h => absurd h (Option.some_ne_none _).symm
  · obtain ⟨hsrc, hmove⟩ := @NANDMove_of_movedPaths host processId moveSequence
      translateNandPath srcPath dstPath tree _ _ _ hpaths
    simp only
    rw [hmove, moveInto_allOrNothing_iff hsrc]
    constructor
    · intro h _ _ _ heq
      cases heq
      exact h
    · intro h
      exact h srcHost dstDirectoryHost srcName rfl

/-! A file that is moved onto another one, whose query fails. -/

def twoFiles : Disk :=
  ((((empty.makeDirectories [['a']]).makeDirectories [['b']]).createFile [['a']] ['f'] [1]
    (by decide) (by decide)).createFile [['b']] ['f'] [2] (by decide) (by decide))

/-- The query of the destination fails; the rename works. -/
def failingQuery : Host where
  sourceQuery := true
  directoryQuery := true
  destinationQuery := false
  kindQuery := true
  rename := .succeeds
  create _ := .succeeds
  copy := ⟨true, []⟩
  publish := true
  cleanup := ⟨true, []⟩
  removal := ⟨true, []⟩
  rollback := ⟨true, []⟩

def letterPath (text : List Char) : Option Path :=
  some (text.map fun letter => [letter])

/-- The file at the destination is lost, and the move is reported as done. -/
theorem failingQuery_replaces :
    ¬IsAllOrNothing failingQuery 1 0 letterPath (some ['a', 'f']) (some ['b']) twoFiles := by
  intro h
  have hrefused : _ → _ := h.refused
  exact hrefused (by decide) (by decide)

end Call

end Wiicompiled.Storage.NandMove
