import Wiicompiled.Output.TransactionalDirectoryOutput

/-!
# The directory is published as a whole or not at all

Beside the destination, every step of a publication leaves the old tree at the destination
or at the backup name until the staged tree stands at the destination.  A separator at the
end of the destination takes the staging directory into the destination itself.
-/

namespace Wiicompiled.Output

open ThrowingPrograms DirectoryTree

/-! ## What a publication may leave -/

def runFrom (host : Host) (destination : FullPath) (producer : Producer) (before : Disk) :
    EStateM.Result Failure World GenerateAndPublishResult :=
  GenerateAndPublish host destination producer ⟨before, 0, []⟩

/-- The disk when a call has returned or thrown. -/
def finalTree {α : Type} : EStateM.Result Failure World α → Disk
  | .ok _ world => world.tree
  | .error _ world => world.tree

/-- The tree at a path is another tree, up to the times of the files. -/
def SameFiles (tree : Disk) (path : Path) (staged : Disk) : Prop :=
  ∀ rest, (tree.entry (path ++ rest)).map (Entry.map File.bytes) =
    (staged.entry rest).map (Entry.map File.bytes)

def OldTree (before : Disk) (destination : Path) (tree : Disk) (path : Path) : Prop :=
  ∀ rest, tree.entry (path ++ rest) = before.entry (destination ++ rest)

/-- Nothing changed but at the three places and on the way to them. -/
def Elsewhere (before : Disk) (destination staging backup : Path) (tree : Disk) : Prop :=
  ∀ path, ¬ path <+: destination → ¬ destination <+: path → ¬ staging <+: path →
    ¬ backup <+: path → tree.entry path = before.entry path

structure AllOrNothing (host : Host) (destination : FullPath) (producer : Producer)
    (before : Disk) : Prop where
  complete :
    OldTree before destination.components
        (finalTree (runFrom host destination producer before)) destination.components ∨
      (producer.exitCode = some 0 ∧
        SameFiles (finalTree (runFrom host destination producer before)) destination.components
          producer.staged) ∨
      ((∃ publishError rollbackError world,
          runFrom host destination producer before =
            .error (.aggregate publishError rollbackError) world) ∧
        OldTree before destination.components
          (finalTree (runFrom host destination producer before))
          (backupPath destination host.backupGuid))
  siblings :
    Elsewhere before destination.components (stagingPath destination host.stagingGuid)
      (backupPath destination host.backupGuid)
      (finalTree (runFrom host destination producer before))

/-- The GUID of the staging directory is new. -/
def Fresh (host : Host) (destination : FullPath) (before : Disk) : Prop :=
  before.entry (stagingPath destination host.stagingGuid) = none

/-- The staging directory comes to lie in the destination. -/
structure StagedInside (destination : FullPath) (before : Disk) : Prop where
  separator : destination.endsInSeparator = true
  notRoot : destination.components ≠ []
  creatable : canCreate before destination.components = true
  fresh : ∃ guid, before.entry (stagingPath destination guid) = none

/-! ## Calls under an invariant of the disk -/

def On (P : Disk → Prop) (world : World) : Prop :=
  P world.tree

section Calls

variable {α : Type} {host : Host} {P Q E : Disk → Prop}

theorem meets_perform
    {change : Disk → Option Disk} {partly : List Path → ℕ → Disk → Disk}
    (hdone : ∀ tree tree', P tree → change tree = some tree' → Q tree')
    (hpartly : ∀ tree kept made, P tree → E (partly kept made tree))
    (hrefused : ∀ tree, P tree → E tree) :
    Meets (On P) (perform host change partly) (fun _ => On Q)
      (fun failure world => failure = .io ∧ E world.tree) := by
  intro world hworld
  unfold perform
  cases host.answers world.asked with
  | fails kept made => exact ⟨rfl, hpartly _ kept made hworld⟩
  | succeeds =>
      simp only
      cases hchange : change world.tree with
      | none => exact ⟨rfl, hrefused _ hworld⟩
      | some tree => exact hdone _ tree hworld hchange

theorem meets_observe {read : Disk → Except Failure α} :
    Meets (On P) (observe host read) (fun _ => On P) (fun _ => On P) := by
  intro world hworld
  unfold observe
  cases host.answers world.asked with
  | fails kept made => exact hworld
  | succeeds =>
      simp only
      cases read world.tree with
      | error failure => exact hworld
      | ok value => exact hworld

theorem meets_MoveDirectoryWithRetry
    {source target : Path}
    (hmove : ∀ tree (h : tree.CanMove source target), P tree → Q (tree.move source target h)) :
    Meets (On P) (MoveDirectoryWithRetry host source target) (fun _ => On Q)
      (fun _ => On P) := by
  have honce : Meets (On P) (DirectoryMove host source target) (fun _ => On Q)
      (fun failure world => failure = .io ∧ P world.tree) := by
    refine meets_perform ?_ (fun _ _ _ hP => hP) (fun _ hP => hP)
    intro tree tree' hP hchange
    by_cases h : tree.CanMove source target
    · rw [dif_pos h] at hchange
      exact Option.some_inj.mp hchange ▸ hmove tree h hP
    · rw [dif_neg h] at hchange
      exact absurd hchange.symm (Option.some_ne_none _)
  exact (honce.retry (fun _ _ hE => hE.2) _).weaken_failure fun _ _ hE => hE.2

theorem meets_TryDeleteDirectory
    {path : Path} {subject : WarningSubject} {F : Failure → World → Prop}
    (hremove : ∀ tree kept, P tree → P (tree.remove path kept)) :
    Meets (On P) (TryDeleteDirectory host path subject) (fun _ => On P) F := by
  have honce : Meets (On P) (DirectoryDelete host path) (fun _ => On P)
      (fun failure world => failure = .io ∧ P world.tree) := by
    refine meets_perform ?_ (fun tree kept _ hP => hremove tree kept hP) (fun _ hP => hP)
    intro tree tree' hP hchange
    split_ifs at hchange
    exact Option.some_inj.mp hchange ▸ hremove tree [] hP
  refine (honce.retry (fun _ _ hE => hE.2) _).handle fun failure => ?_
  rintro world ⟨rfl, hP⟩
  exact hP

end Calls

/-! ## The steps of a publication -/

/-- The three places are apart, in one directory. -/
structure Places (destination staging backup : Path) : Prop where
  toStaging : Apart destination staging
  toBackup : Apart destination backup
  scratch : Apart staging backup
  beside : staging.dropLast <+: destination

section Steps

variable {host : Host} {before : Disk} {staged : Disk} {destination staging backup : Path}
  {tree tree' : Disk}

structure Idle (before : Disk) (destination staging backup : Path) (tree : Disk) : Prop where
  elsewhere : Elsewhere before destination staging backup tree
  old : OldTree before destination tree destination

structure Staged (before staged : Disk) (destination staging backup : Path) (tree : Disk) :
    Prop extends Idle before destination staging backup tree where
  new : SameFiles tree staging staged

/-- The old tree stands at the backup name. -/
structure Aside (before : Disk) (destination staging backup : Path) (tree : Disk) : Prop where
  elsewhere : Elsewhere before destination staging backup tree
  old : OldTree before destination tree backup
  there : before.entry destination = some .directory

/-- The old tree stands at the backup name, and the destination is free for the staged
tree. -/
structure Vacated (before staged : Disk) (destination staging backup : Path) (tree : Disk) :
    Prop extends Aside before destination staging backup tree where
  free : tree.entry destination = none
  new : SameFiles tree staging staged

structure Done (before staged : Disk) (destination staging backup : Path) (tree : Disk) :
    Prop where
  elsewhere : Elsewhere before destination staging backup tree
  new : SameFiles tree destination staged

/-- Nothing changed but below the staging directory. -/
def OffStaging (staging : Path) (tree tree' : Disk) : Prop :=
  ∀ path, ¬ staging <+: path → tree'.entry path = tree.entry path

theorem offStaging_remove (kept : List Path) : OffStaging staging tree (tree.remove staging kept) :=
  fun _ hpath => remove_entry_of_not_isPrefix hpath

theorem Elsewhere.of_offStaging
    (h : Elsewhere before destination staging backup tree) (hoff : OffStaging staging tree tree') :
    Elsewhere before destination staging backup tree' := by
  intro path habove hdestination hstaging hbackup
  rw [hoff path hstaging]
  exact h path habove hdestination hstaging hbackup

theorem Idle.of_offStaging
    (hplaces : Places destination staging backup)
    (h : Idle before destination staging backup tree) (hoff : OffStaging staging tree tree') :
    Idle before destination staging backup tree' where
  elsewhere := h.elsewhere.of_offStaging hoff
  old := by
    intro rest
    rw [hoff _ (hplaces.toStaging.symm.not_isPrefix_append rest)]
    exact h.old rest

theorem Aside.of_offStaging
    (hplaces : Places destination staging backup)
    (h : Aside before destination staging backup tree) (hoff : OffStaging staging tree tree') :
    Aside before destination staging backup tree' where
  elsewhere := h.elsewhere.of_offStaging hoff
  old := by
    intro rest
    rw [hoff _ (hplaces.scratch.not_isPrefix_append rest)]
    exact h.old rest
  there := h.there

theorem Done.of_offStaging
    (hplaces : Places destination staging backup)
    (h : Done before staged destination staging backup tree)
    (hoff : OffStaging staging tree tree') :
    Done before staged destination staging backup tree' where
  elsewhere := h.elsewhere.of_offStaging hoff
  new := by
    intro rest
    rw [hoff _ (hplaces.toStaging.symm.not_isPrefix_append rest)]
    exact h.new rest

/-- The directories on the way to the staging directory are above the destination. -/
theorem Idle.makeDirectories
    (hplaces : Places destination staging backup)
    (h : Idle before destination staging backup tree) {path : Path} (hpath : path <+: staging) :
    Idle before destination staging backup (tree.makeDirectories path) where
  elsewhere := by
    intro other habove hdestination hstaging hbackup
    rw [makeDirectories_entry, if_neg]
    · exact h.elsewhere other habove hdestination hstaging hbackup
    · intro hother
      have hle := hother.trans hpath
      by_cases heq : other = staging
      · exact hstaging (heq ▸ List.prefix_rfl)
      · refine habove (List.IsPrefix.trans ?_ hplaces.beside)
        exact isPrefix_dropLast hle heq
  old := by
    intro rest
    rw [makeDirectories_entry, if_neg]
    · exact h.old rest
    · intro hother
      exact hplaces.toStaging.1
        ((List.prefix_append destination rest).trans (hother.trans hpath))

theorem Staged.modifyFile
    (hplaces : Places destination staging backup)
    (h : Staged before staged destination staging backup tree) (relativePath : Path) (time : ℕ) :
    Staged before staged destination staging backup
      (tree.modifyFile (staging ++ relativePath)
        fun file => { file with lastWriteTime := time }) where
  toIdle := h.toIdle.of_offStaging hplaces fun path hpath => by
    refine modifyFile_entry_of_ne ?_
    rintro rfl
    exact hpath (List.prefix_append staging relativePath)
  new := by
    intro rest
    by_cases heq : staging ++ rest = staging ++ relativePath
    · rw [← h.new rest, heq, modifyFile_entry_self, Option.map_map]
      congr 1
      funext entry
      cases entry <;> rfl
    · rw [modifyFile_entry_of_ne heq]
      exact h.new rest

theorem Staged.move_aside
    (hplaces : Places destination staging backup)
    (h : Staged before staged destination staging backup tree)
    (hthere : tree.entry destination = some .directory)
    (hmove : tree.CanMove destination backup) :
    Vacated before staged destination staging backup (tree.move destination backup hmove) where
  elsewhere := by
    intro path habove hdestination hstaging hbackup
    rw [move_entry_of_not_isPrefix hmove hdestination hbackup]
    exact h.elsewhere path habove hdestination hstaging hbackup
  old := by
    intro rest
    rw [move_entry_target_append hmove]
    exact h.old rest
  there := by
    have hold := h.old []
    rw [List.append_nil, hthere] at hold
    exact hold.symm
  free := move_entry_source hmove
  new := by
    intro rest
    rw [move_entry_of_not_isPrefix hmove (hplaces.toStaging.not_isPrefix_append rest)
      (hplaces.scratch.symm.not_isPrefix_append rest)]
    exact h.new rest

theorem Elsewhere.move_staging
    (h : Elsewhere before destination staging backup tree)
    (hnew : SameFiles tree staging staged) (hmove : tree.CanMove staging destination) :
    Done before staged destination staging backup (tree.move staging destination hmove) where
  elsewhere := by
    intro path habove hdestination hstaging hbackup
    rw [move_entry_of_not_isPrefix hmove hstaging hdestination]
    exact h path habove hdestination hstaging hbackup
  new := by
    intro rest
    rw [move_entry_target_append hmove]
    exact hnew rest

theorem Aside.move_back
    (h : Aside before destination staging backup tree)
    (hmove : tree.CanMove backup destination) :
    Idle before destination staging backup (tree.move backup destination hmove) where
  elsewhere := by
    intro path habove hdestination hstaging hbackup
    rw [move_entry_of_not_isPrefix hmove hbackup hdestination]
    exact h.elsewhere path habove hdestination hstaging hbackup
  old := by
    intro rest
    rw [move_entry_target_append hmove]
    exact h.old rest

theorem Done.remove_backup
    (hplaces : Places destination staging backup)
    (h : Done before staged destination staging backup tree) (kept : List Path) :
    Done before staged destination staging backup (tree.remove backup kept) where
  elsewhere := by
    intro path habove hdestination hstaging hbackup
    rw [remove_entry_of_not_isPrefix hbackup]
    exact h.elsewhere path habove hdestination hstaging hbackup
  new := by
    intro rest
    rw [remove_entry_of_not_isPrefix (hplaces.toBackup.symm.not_isPrefix_append rest)]
    exact h.new rest

/-! ## The publication -/

/-- How a call may throw: with the old tree at its place, or with an aggregate failure and
the old tree at the backup name. -/
def Throws (before : Disk) (destination staging backup : Path) (failure : Failure)
    (world : World) : Prop :=
  Idle before destination staging backup world.tree ∨
    ((∃ publishError rollbackError, failure = .aggregate publishError rollbackError) ∧
      Aside before destination staging backup world.tree)

theorem meets_compareFile
    (hplaces : Places destination staging backup) (liveFiles : List Path)
    (counts : PublishResult) (relativePath : Path) :
    Meets (On (Staged before staged destination staging backup))
      (compareFile host staging destination liveFiles counts relativePath)
      (fun _ => On (Staged before staged destination staging backup))
      (fun _ => On (Staged before staged destination staging backup)) := by
  unfold compareFile
  cases tryGetValue host liveFiles relativePath with
  | none => exact meets_pure _ fun _ h => h
  | some livePath =>
      have hequal : Meets (On (Staged before staged destination staging backup))
          (FilesEqual host (staging ++ relativePath) (destination ++ livePath))
          (fun _ => On (Staged before staged destination staging backup))
          (fun _ => On (Staged before staged destination staging backup)) :=
        meets_observe.bind fun _ => meets_observe.bind fun _ => meets_pure _ fun _ h => h
      refine hequal.bind fun equal => ?_
      cases equal with
      | false => exact meets_pure _ fun _ h => h
      | true =>
          refine meets_observe.bind fun live => ?_
          refine Meets.bind (Q := fun _ => On (Staged before staged destination staging backup)) ?_
            fun _ => meets_pure _ fun _ h => h
          refine (meets_perform ?_ (fun _ _ _ h => h) (fun _ h => h)).weaken_failure
            fun _ _ hE => hE.2
          intro tree tree' h hchange
          cases hentry : tree.entry (staging ++ relativePath) with
          | none =>
              simp only [hentry] at hchange
              exact absurd hchange.symm (Option.some_ne_none _)
          | some entry =>
              cases entry with
              | directory =>
                  simp only [hentry] at hchange
                  exact absurd hchange.symm (Option.some_ne_none _)
              | file file =>
                  simp only [hentry] at hchange
                  exact Option.some_inj.mp hchange ▸ h.modifyFile hplaces relativePath _

/-- A failed move of the staged tree is rolled back, or the failure is an aggregate one. -/
theorem meets_restore (publishError : Failure) :
    Meets (On (Vacated before staged destination staging backup))
      (restore host destination backup publishError)
      (fun _ _ => False) (Throws before destination staging backup) := by
  refine Meets.bind (Q := fun _ => On (Idle before destination staging backup)) ?_
    fun _ => meets_throw _ fun _ h => Or.inl h
  refine meets_select ?_ ?_
  · refine Meets.mono (P := On (Aside before destination staging backup)) ?_
      (fun _ h => h.1.toAside) (fun _ _ h => h) (fun _ _ h => h)
    refine (meets_MoveDirectoryWithRetry fun _ hmove h => h.move_back hmove).handle
      fun rollbackError => ?_
    exact meets_throw _ fun _ h => Or.inr ⟨⟨publishError, rollbackError, rfl⟩, h⟩
  · rintro world ⟨h, htest⟩
    -- the destination is free, and the backup is the directory that was there
    have hbackup : world.tree.entry backup = some .directory := by
      have hold := h.old []
      rw [List.append_nil, List.append_nil, h.there] at hold
      exact hold
    simp [DirectoryExists, h.free, hbackup] at htest

theorem meets_swap
    {γ : Type} (hplaces : Places destination staging backup) (result : γ) :
    Meets
      (fun world => Staged before staged destination staging backup world.tree ∧
        world.tree.entry destination = some .directory)
      (do
        MoveDirectoryWithRetry host destination backup
        handle (MoveDirectoryWithRetry host staging destination) (restore host destination backup)
        TryDeleteDirectory host backup .priorOutputBackup
        return result : Action γ)
      (fun _ => On (Done before staged destination staging backup))
      (Throws before destination staging backup) := by
  have haside : Meets
      (fun world => Staged before staged destination staging backup world.tree ∧
        world.tree.entry destination = some .directory)
      (MoveDirectoryWithRetry host destination backup)
      (fun _ => On (Vacated before staged destination staging backup))
      (Throws before destination staging backup) := by
    refine (meets_MoveDirectoryWithRetry
      (P := fun tree => Staged before staged destination staging backup tree ∧
        tree.entry destination = some .directory)
      fun tree hmove h => h.1.move_aside hplaces h.2 hmove).weaken_failure ?_
    exact fun _ _ h => Or.inl h.1.toIdle
  have hpublish : Meets (On (Vacated before staged destination staging backup))
      (handle (MoveDirectoryWithRetry host staging destination) (restore host destination backup))
      (fun _ => On (Done before staged destination staging backup))
      (Throws before destination staging backup) := by
    refine (meets_MoveDirectoryWithRetry
      (Q := Done before staged destination staging backup)
      fun _ hmove h => h.elsewhere.move_staging h.new hmove).handle fun failure => ?_
    exact (meets_restore failure).mono (fun _ h => h) (fun _ _ h => h.elim) fun _ _ h => h
  refine haside.bind fun _ => hpublish.bind fun _ => ?_
  refine Meets.bind (Q := fun _ => On (Done before staged destination staging backup)) ?_
    fun _ => meets_pure _ fun _ h => h
  exact meets_TryDeleteDirectory fun _ kept h => h.remove_backup hplaces kept

end Steps

section Publication

variable {host : Host} {before staged : Disk} {destination : FullPath} {staging : Path}

theorem meets_Publish
    (hplaces : Places destination.components staging (backupPath destination host.backupGuid)) :
    Meets
      (On (Staged before staged destination.components staging
        (backupPath destination host.backupGuid)))
      (Publish host staging destination)
      (fun _ => On (Done before staged destination.components staging
        (backupPath destination host.backupGuid)))
      (Throws before destination.components staging (backupPath destination host.backupGuid)) := by
  have hkeeps : ∀ {α : Type} {action : Action α},
      Meets (On (Staged before staged destination.components staging
          (backupPath destination host.backupGuid))) action
        (fun _ => On (Staged before staged destination.components staging
          (backupPath destination host.backupGuid)))
        (fun _ => On (Staged before staged destination.components staging
          (backupPath destination host.backupGuid))) →
      Meets (On (Staged before staged destination.components staging
          (backupPath destination host.backupGuid))) action
        (fun _ => On (Staged before staged destination.components staging
          (backupPath destination host.backupGuid)))
        (Throws before destination.components staging (backupPath destination host.backupGuid)) :=
    fun h => h.weaken_failure fun _ _ hstaged => Or.inl hstaged.toIdle
  refine (hkeeps meets_observe).bind fun stagedFiles => ?_
  refine Meets.bind (hkeeps ?_) fun liveFiles => ?_
  · refine meets_select ?_ ?_
    · exact meets_observe.mono (fun _ h => h.1) (fun _ _ h => h) fun _ _ h => h
    · exact meets_pure _ fun _ h => h.1
  refine (hkeeps (meets_foldlM stagedFiles
    (fun counts relativePath => meets_compareFile hplaces liveFiles counts relativePath)
    noFiles)).bind fun counts => ?_
  refine meets_select ?_ ?_
  · refine Meets.bind (Q := fun _ => On (Done before staged destination.components staging
      (backupPath destination host.backupGuid))) ?_ fun _ => meets_pure _ fun _ h => h
    refine (meets_MoveDirectoryWithRetry
      fun _ hmove h => Elsewhere.move_staging h.elsewhere h.new hmove).mono
        (fun _ h => h.1) (fun _ _ h => h) fun _ _ h => Or.inl (Staged.toIdle h)
  · refine (meets_swap hplaces _).mono ?_ (fun _ _ h => h) fun _ _ h => h
    rintro world ⟨hstaged, htest⟩
    refine ⟨hstaged, ?_⟩
    simpa [DirectoryExists] using htest

/-- With the exit code 0 only, the destination has the staged tree. -/
theorem meets_generate
    {producer : Producer}
    (hplaces : Places destination.components staging (backupPath destination host.backupGuid)) :
    Meets
      (On (Idle before destination.components staging (backupPath destination host.backupGuid)))
      (generate host producer staging destination)
      (fun _ world =>
        Idle before destination.components staging (backupPath destination host.backupGuid)
            world.tree ∨
          (producer.exitCode = some 0 ∧
            Done before producer.staged destination.components staging
              (backupPath destination host.backupGuid) world.tree))
      (Throws before destination.components staging (backupPath destination host.backupGuid)) := by
  have hgraft : ∀ (tree : Disk) (h : tree.entry staging = some .directory),
      Idle before destination.components staging (backupPath destination host.backupGuid) tree →
      Staged before producer.staged destination.components staging
        (backupPath destination host.backupGuid) (tree.graft staging producer.staged h) := by
    intro tree h hidle
    refine ⟨hidle.of_offStaging hplaces fun path hpath => graft_entry_of_not_isPrefix h hpath, ?_⟩
    intro rest
    rw [graft_entry_append h]
  have hrun : Meets
      (On (Idle before destination.components staging (backupPath destination host.backupGuid)))
      (producer.run staging)
      (fun exitCode world => producer.exitCode = some exitCode ∧
        Staged before producer.staged destination.components staging
          (backupPath destination host.backupGuid) world.tree)
      (Throws before destination.components staging (backupPath destination host.backupGuid)) := by
    intro world hidle
    unfold Producer.run
    by_cases h : world.tree.entry staging = some .directory
    · rw [dif_pos h]
      cases hexit : producer.exitCode with
      | none => exact Or.inl (hgraft _ h hidle).toIdle
      | some exitCode => exact ⟨rfl, hgraft _ h hidle⟩
    · rw [dif_neg h]
      exact Or.inl hidle
  refine hrun.bind fun exitCode => ?_
  by_cases hzero : exitCode = 0
  · rw [if_neg (not_not_intro hzero)]
    subst hzero
    intro world hworld
    have hpublish : Meets
        (On (Staged before producer.staged destination.components staging
          (backupPath destination host.backupGuid)))
        (do
          let publication ← Publish host staging destination
          return ⟨0, some publication⟩ : Action GenerateAndPublishResult)
        (fun _ => On (Done before producer.staged destination.components staging
          (backupPath destination host.backupGuid)))
        (Throws before destination.components staging (backupPath destination host.backupGuid)) :=
      (meets_Publish hplaces).bind fun _ => meets_pure _ fun _ h => h
    exact (hpublish.mono (fun _ h => h) (fun _ _ h => Or.inr ⟨hworld.1, h⟩)
      fun _ _ h => h) world hworld.2
  · rw [if_pos hzero]
    by_cases hthrows : producer.onProducerFailureThrows = true
    · rw [if_pos hthrows]
      exact meets_throw _ fun _ h => Or.inl h.2.toIdle
    · rw [if_neg hthrows]
      exact meets_pure _ fun _ h => Or.inl h.2.toIdle

theorem meets_cleanup
    {P : Disk → Prop} {F : Failure → World → Prop}
    (hoff : ∀ tree tree', P tree → OffStaging staging tree tree' → P tree') :
    Meets (On P)
      (select (DirectoryExists staging) (TryDeleteDirectory host staging .stagingOutput)
        (pure ()))
      (fun _ => On P) F := by
  refine meets_select ?_ (meets_pure _ fun _ h => h.1)
  exact (meets_TryDeleteDirectory fun tree kept h =>
    hoff tree _ h (offStaging_remove kept)).mono (fun _ h => h.1) (fun _ _ h => h) fun _ _ h => h

theorem meets_GenerateAndPublish
    (before : Disk) (producer : Producer) {parent : Path} (hparent : GetParent destination = some parent)
    (hstaging : parent <+: stagingPath destination host.stagingGuid)
    (hplaces : Places destination.components (stagingPath destination host.stagingGuid)
      (backupPath destination host.backupGuid)) :
    Meets (On (· = before)) (GenerateAndPublish host destination producer)
      (fun _ world =>
        Idle before destination.components (stagingPath destination host.stagingGuid)
            (backupPath destination host.backupGuid) world.tree ∨
          (producer.exitCode = some 0 ∧
            Done before producer.staged destination.components
              (stagingPath destination host.stagingGuid)
              (backupPath destination host.backupGuid) world.tree))
      (Throws before destination.components (stagingPath destination host.stagingGuid)
        (backupPath destination host.backupGuid)) := by
  have hcreate : ∀ path, path <+: stagingPath destination host.stagingGuid →
      Meets
        (On (Idle before destination.components (stagingPath destination host.stagingGuid)
          (backupPath destination host.backupGuid)))
        (CreateDirectory host path)
        (fun _ => On (Idle before destination.components
          (stagingPath destination host.stagingGuid) (backupPath destination host.backupGuid)))
        (Throws before destination.components (stagingPath destination host.stagingGuid)
          (backupPath destination host.backupGuid)) := by
    intro path hpath
    refine (meets_perform ?_ ?_ fun _ h => h).weaken_failure fun _ _ hE => Or.inl hE.2
    · intro tree tree' h hchange
      split_ifs at hchange
      exact Option.some_inj.mp hchange ▸ h.makeDirectories hplaces hpath
    · intro tree _ made h
      by_cases hcreate : canCreate tree path = true
      · rw [if_pos hcreate]
        exact h.makeDirectories hplaces ((List.take_prefix made path).trans hpath)
      · rw [if_neg hcreate]
        exact h
  unfold GenerateAndPublish
  rw [hparent]
  refine Meets.bind ((hcreate parent hstaging).mono ?_ (fun _ _ h => h) fun _ _ h => h)
    fun _ => (hcreate _ List.prefix_rfl).bind fun _ => ?_
  · rintro world rfl
    exact ⟨fun _ _ _ _ _ => rfl, fun _ => rfl⟩
  · refine (meets_generate hplaces).ensure (fun _ => ?_) fun failure => ?_
    · refine meets_cleanup (P := fun tree =>
        Idle before destination.components (stagingPath destination host.stagingGuid)
            (backupPath destination host.backupGuid) tree ∨
          (producer.exitCode = some 0 ∧
            Done before producer.staged destination.components
              (stagingPath destination host.stagingGuid)
              (backupPath destination host.backupGuid) tree)) ?_
      rintro tree tree' (h | ⟨hexit, h⟩) hoff
      · exact Or.inl (h.of_offStaging hplaces hoff)
      · exact Or.inr ⟨hexit, h.of_offStaging hplaces hoff⟩
    · refine meets_cleanup (P := fun tree =>
        Idle before destination.components (stagingPath destination host.stagingGuid)
            (backupPath destination host.backupGuid) tree ∨
          ((∃ publishError rollbackError, failure = .aggregate publishError rollbackError) ∧
            Aside before destination.components (stagingPath destination host.stagingGuid)
              (backupPath destination host.backupGuid) tree)) ?_
      rintro tree tree' (h | ⟨haggregate, h⟩) hoff
      · exact Or.inl (h.of_offStaging hplaces hoff)
      · exact Or.inr ⟨haggregate, h.of_offStaging hplaces hoff⟩

end Publication

/-! ## Every run -/

section Runs

variable {host : Host} {before : Disk} {producer : Producer} {destination : FullPath}

theorem markedName_ne (leaf : Name) (staging backup : Guid) :
    markedName leaf stagingMarker staging ≠ markedName leaf backupMarker backup := by
  intro heq
  simp only [markedName, List.cons.injEq, true_and, List.append_cancel_left_eq] at heq
  have htake := congrArg (List.take 16) heq
  rw [List.take_append_of_le_length (by decide), List.take_append_of_le_length (by decide)] at htake
  exact absurd htake (by decide)

theorem leaf_ne_markedName (leaf marker : Name) (guid : Guid) :
    leaf ≠ markedName leaf marker guid := by
  intro heq
  have hlength := congrArg List.length heq
  simp only [markedName, List.length_cons, List.length_append] at hlength
  omega

/-- Without a separator at the end, the three places are names in one directory. -/
theorem places_of_no_separator
    (hseparator : destination.endsInSeparator = false) (hroot : destination.components ≠ []) :
    Places destination.components (stagingPath destination host.stagingGuid)
      (backupPath destination host.backupGuid) := by
  have hparent : (GetParent destination).getD [] = destination.components.dropLast := by
    rw [GetParent, if_neg hroot, hseparator, if_neg Bool.false_ne_true]
    rfl
  have hleaf : destination.components =
      destination.components.dropLast ++ [leafName destination] := by
    rw [leafName, List.getLastD_eq_getLast?, List.getLast?_eq_some_getLast hroot]
    exact (List.dropLast_append_getLast hroot).symm
  rw [stagingPath, backupPath, hparent]
  constructor
  · nth_rewrite 1 [hleaf]
    exact apart_concat (leaf_ne_markedName _ _ _)
  · nth_rewrite 1 [hleaf]
    exact apart_concat (leaf_ne_markedName _ _ _)
  · exact apart_concat (markedName_ne _ _ _)
  · rw [List.dropLast_concat]
    exact List.dropLast_prefix _

theorem AllOrNothing.of_unchanged
    (h : finalTree (runFrom host destination producer before) = before) :
    AllOrNothing host destination producer before where
  complete := Or.inl fun _ => by rw [h]
  siblings := fun _ _ _ _ _ => by rw [h]

theorem AllOrNothing.of_not_creatable
    (hseparator : destination.endsInSeparator = true)
    (hcreate : canCreate before destination.components = false) :
    AllOrNothing host destination producer before := by
  by_cases hroot : destination.components = []
  · refine AllOrNothing.of_unchanged ?_
    unfold runFrom GenerateAndPublish GetParent
    rw [if_pos hroot]
    rfl
  have hrefused : Meets (fun world => world.tree = before)
      (CreateDirectory host destination.components) (fun _ _ => False)
      (fun _ world => world.tree = before) := by
    rintro world rfl
    unfold CreateDirectory perform
    cases host.answers world.asked with
    | fails kept made => simp only [hcreate, Bool.false_eq_true, if_false]
    | succeeds => simp only [hcreate, Bool.false_eq_true, if_false]
  have hall : Meets (fun world => world.tree = before) (GenerateAndPublish host destination producer)
      (fun _ _ => False) (fun _ world => world.tree = before) := by
    unfold GenerateAndPublish GetParent
    rw [if_neg hroot, if_pos hseparator]
    exact hrefused.bind fun _ _ h => h.elim
  have hrun := hall ⟨before, 0, []⟩ rfl
  rw [← runFrom] at hrun
  refine AllOrNothing.of_unchanged ?_
  cases hresult : runFrom host destination producer before with
  | ok value world =>
      rw [hresult] at hrun
      exact hrun.elim
  | error failure world =>
      rw [hresult] at hrun
      exact hrun

theorem allOrNothing_of_places
    (hroot : destination.components ≠ [])
    (hplaces : Places destination.components (stagingPath destination host.stagingGuid)
      (backupPath destination host.backupGuid)) :
    AllOrNothing host destination producer before := by
  obtain ⟨parent, hparent⟩ : ∃ parent, GetParent destination = some parent := by
    unfold GetParent
    rw [if_neg hroot]
    split_ifs
    · exact ⟨_, rfl⟩
    · exact ⟨_, rfl⟩
  have hstaging : parent <+: stagingPath destination host.stagingGuid := by
    rw [stagingPath, hparent]
    exact List.prefix_append parent _
  have hrun := meets_GenerateAndPublish before producer hparent
    hstaging hplaces ⟨before, 0, []⟩ rfl
  rw [← runFrom] at hrun
  cases hresult : runFrom host destination producer before with
  | ok value world =>
      rw [hresult] at hrun
      rcases hrun with h | ⟨hexit, h⟩
      · exact ⟨Or.inl (by rw [hresult]; exact h.old), by rw [hresult]; exact h.elsewhere⟩
      · exact ⟨Or.inr (Or.inl ⟨hexit, by rw [hresult]; exact h.new⟩),
          by rw [hresult]; exact h.elsewhere⟩
  | error failure world =>
      rw [hresult] at hrun
      rcases hrun with h | ⟨⟨publishError, rollbackError, rfl⟩, h⟩
      · exact ⟨Or.inl (by rw [hresult]; exact h.old), by rw [hresult]; exact h.elsewhere⟩
      · exact ⟨Or.inr (Or.inr ⟨⟨publishError, rollbackError, world, hresult⟩,
          by rw [hresult]; exact h.old⟩), by rw [hresult]; exact h.elsewhere⟩

end Runs

/-! ## A staging directory in the destination -/

/-- After the two directories are made, every call is refused and removes nothing. -/
def refusingHost (destination : FullPath) (producer : Producer) (guid : Guid) : Host where
  answers asked :=
    if asked < 2 then .succeeds
    else .fails (producer.staged.paths.map (stagingPath destination guid ++ ·)) 0
  stagingGuid := guid
  backupGuid := guid
  caseKey path := path

/-- The host refuses from now on, and the staged tree stays where it is. -/
def Stuck (producer : Producer) (staging : Path) (world : World) : Prop :=
  2 ≤ world.asked ∧ OldTree producer.staged [] world.tree staging

def StuckFailure (producer : Producer) (staging : Path) (failure : Failure) (world : World) :
    Prop :=
  (∀ publishError rollbackError, failure ≠ .aggregate publishError rollbackError) ∧
    Stuck producer staging world

section Inside

variable {α : Type} {before : Disk} {producer : Producer} {destination : FullPath} {guid : Guid}

theorem refusingHost_answers {asked : ℕ} (h : 2 ≤ asked) :
    (refusingHost destination producer guid).answers asked =
      .fails (producer.staged.paths.map (stagingPath destination guid ++ ·)) 0 :=
  if_neg (Nat.not_lt_of_le h)

theorem OldTree.remove_kept
    {tree : Disk} {staging : Path} (h : OldTree producer.staged [] tree staging) :
    OldTree producer.staged []
      (tree.remove staging (producer.staged.paths.map (staging ++ ·))) staging := by
  intro rest
  by_cases hrest : producer.staged.entry rest = none
  · -- what was not there is not put there
    have hnone := h rest
    rw [List.nil_append, hrest] at hnone ⊢
    change (if _ then none else tree.entry (staging ++ rest)) = none
    rw [hnone]
    exact ite_self none
  · rw [remove_entry_of_kept (List.mem_map_of_mem (producer.staged.listed rest hrest))
      List.prefix_rfl]
    exact h rest

theorem meets_EnumerateRelativeFiles_stuck (root : Path) :
    Meets (Stuck producer (stagingPath destination guid))
      (EnumerateRelativeFiles (refusingHost destination producer guid) root)
      (fun _ _ => False) (StuckFailure producer (stagingPath destination guid)) := by
  rintro world ⟨hasked, hstaged⟩
  unfold EnumerateRelativeFiles observe
  rw [refusingHost_answers hasked]
  exact ⟨fun _ _ => by simp, Nat.le_succ_of_le hasked, hstaged⟩

theorem meets_TryDeleteDirectory_stuck {F : Failure → World → Prop} :
    Meets (Stuck producer (stagingPath destination guid))
      (TryDeleteDirectory (refusingHost destination producer guid)
        (stagingPath destination guid) .stagingOutput)
      (fun _ => Stuck producer (stagingPath destination guid)) F := by
  have honce : Meets (Stuck producer (stagingPath destination guid))
      (DirectoryDelete (refusingHost destination producer guid) (stagingPath destination guid))
      (fun _ => Stuck producer (stagingPath destination guid))
      (fun failure world => failure = .io ∧ Stuck producer (stagingPath destination guid) world) := by
    rintro world ⟨hasked, hstaged⟩
    unfold DirectoryDelete perform
    rw [refusingHost_answers hasked]
    exact ⟨rfl, Nat.le_succ_of_le hasked, hstaged.remove_kept⟩
  refine (honce.retry (fun _ _ hE => hE.2) _).handle fun failure => ?_
  rintro world ⟨rfl, hstuck⟩
  exact hstuck

theorem meets_generate_stuck :
    Meets
      (fun world => 2 ≤ world.asked ∧
        world.tree.entry (stagingPath destination guid) = some .directory)
      (generate (refusingHost destination producer guid) producer (stagingPath destination guid)
        destination)
      (fun _ => Stuck producer (stagingPath destination guid))
      (StuckFailure producer (stagingPath destination guid)) := by
  have hrun : Meets
      (fun world => 2 ≤ world.asked ∧
        world.tree.entry (stagingPath destination guid) = some .directory)
      (producer.run (stagingPath destination guid))
      (fun _ => Stuck producer (stagingPath destination guid))
      (StuckFailure producer (stagingPath destination guid)) := by
    rintro world ⟨hasked, hthere⟩
    have hstuck : OldTree producer.staged []
        (world.tree.graft (stagingPath destination guid) producer.staged hthere)
        (stagingPath destination guid) := fun rest => graft_entry_append hthere
    unfold Producer.run
    rw [dif_pos hthere]
    cases producer.exitCode with
    | none => exact ⟨fun _ _ => by simp, hasked, hstuck⟩
    | some exitCode => exact ⟨hasked, hstuck⟩
  refine hrun.bind fun exitCode => ?_
  split_ifs
  · exact meets_throw _ fun _ h => ⟨fun _ _ => by simp, h⟩
  · exact meets_pure _ fun _ h => h
  · refine Meets.bind (Q := fun _ _ => False) ?_ fun _ _ h => h.elim
    exact (meets_EnumerateRelativeFiles_stuck _).bind fun _ _ h => h.elim

theorem meets_GenerateAndPublish_stuck
    (producer : Producer) (h : StagedInside destination before)
    (hfresh : before.entry (stagingPath destination guid) = none) :
    Meets (fun world => world.tree = before ∧ world.asked = 0)
      (GenerateAndPublish (refusingHost destination producer guid) destination producer)
      (fun _ => Stuck producer (stagingPath destination guid))
      (StuckFailure producer (stagingPath destination guid)) := by
  have hparent : GetParent destination = some destination.components := by
    rw [GetParent, if_neg h.notRoot, if_pos h.separator]
  have hlonger : stagingPath destination guid =
      destination.components ++ [markedName (leafName destination) stagingMarker guid] := by
    rw [stagingPath, hparent]
    rfl
  have hinside : ¬ stagingPath destination guid <+: destination.components := by
    intro hle
    have hlength := hle.length_le
    rw [hlonger, List.length_append, List.length_singleton] at hlength
    exact Nat.not_succ_le_self _ hlength
  have hcreatable : canCreate (before.makeDirectories destination.components)
      (stagingPath destination guid) = true := by
    refine List.all_eq_true.mpr fun above habove => ?_
    rw [makeDirectories_entry]
    rcases List.prefix_concat_iff.mp (hlonger ▸ (List.mem_inits _ _).mp habove) with heq | hle
    · rw [heq, ← hlonger, if_neg hinside, hfresh]
    · rw [if_pos hle]
  have hparentMade : Meets (fun world => world.tree = before ∧ world.asked = 0)
      (CreateDirectory (refusingHost destination producer guid) destination.components)
      (fun _ world => world.tree = before.makeDirectories destination.components ∧
        world.asked = 1)
      (StuckFailure producer (stagingPath destination guid)) := by
    rintro ⟨tree, asked, warnings⟩ ⟨htree, hasked⟩
    simp only at htree hasked
    subst htree hasked
    unfold CreateDirectory perform
    simp only [refusingHost, Nat.zero_lt_two, if_true, h.creatable]
    exact ⟨trivial, trivial⟩
  have hstagingMade : Meets
      (fun world => world.tree = before.makeDirectories destination.components ∧
        world.asked = 1)
      (CreateDirectory (refusingHost destination producer guid) (stagingPath destination guid))
      (fun _ world => 2 ≤ world.asked ∧
        world.tree.entry (stagingPath destination guid) = some .directory)
      (StuckFailure producer (stagingPath destination guid)) := by
    rintro ⟨tree, asked, warnings⟩ ⟨htree, hasked⟩
    simp only at htree hasked
    subst htree hasked
    unfold CreateDirectory perform
    simp only [refusingHost, Nat.one_lt_two, if_true, hcreatable]
    exact ⟨Nat.le_refl 2, if_pos List.prefix_rfl⟩
  unfold GenerateAndPublish
  rw [hparent]
  refine hparentMade.bind fun _ => hstagingMade.bind fun _ => ?_
  refine meets_generate_stuck.ensure (fun _ => ?_) fun failure => ?_
  · refine meets_select ?_ (meets_pure _ fun _ h => h.1)
    exact meets_TryDeleteDirectory_stuck.mono (fun _ h => h.1) (fun _ _ h => h) fun _ _ h => h
  · refine meets_select ?_ (meets_pure _ fun _ h => h.1)
    intro world hworld
    refine (meets_TryDeleteDirectory_stuck.mono (fun _ h => h)
      (fun _ _ h => ⟨hworld.1.1, h⟩) fun _ _ h => h) world hworld.1.2

/-- The staged tree is left in the destination, beside what was there. -/
theorem not_allOrNothing_of_stagedInside
    (h : StagedInside destination before)
    (hfresh : before.entry (stagingPath destination guid) = none) :
    ¬ AllOrNothing (refusingHost destination producer guid) destination producer before := by
  intro hall
  have hrun := meets_GenerateAndPublish_stuck producer h hfresh ⟨before, 0, []⟩
    ⟨rfl, rfl⟩
  rw [← runFrom] at hrun
  have hstuck : OldTree producer.staged []
      (finalTree (runFrom (refusingHost destination producer guid) destination producer before))
      (stagingPath destination guid) := by
    cases hresult : runFrom (refusingHost destination producer guid) destination producer before with
    | ok value world =>
        rw [hresult] at hrun
        exact hrun.2
    | error failure world =>
        rw [hresult] at hrun
        exact hrun.2.2
  obtain ⟨name, hname⟩ : ∃ name, stagingPath destination guid =
      destination.components ++ [name] := by
    refine ⟨markedName (leafName destination) stagingMarker guid, ?_⟩
    rw [stagingPath, GetParent, if_neg h.notRoot, if_pos h.separator]
    rfl
  rcases hall.complete with hold | ⟨-, hnew⟩ | ⟨⟨publishError, rollbackError, world, heq⟩, -⟩
  · -- the staging directory was not there
    have hthere := hstuck []
    rw [List.append_nil, List.append_nil, producer.staged.rooted, hname, hold [name], ← hname,
      hfresh] at hthere
    exact Option.some_ne_none _ hthere.symm
  · -- the staged tree would have itself as a part
    obtain ⟨rest, hrest, hnone⟩ := exists_entry_cons_eq_none producer.staged name
    have hsame := hnew (name :: rest)
    rw [hnone, List.append_cons, ← hname, hstuck rest] at hsame
    exact hrest (Option.map_eq_none_iff.mp hsame)
  · rw [heq] at hrun
    exact hrun.1 publishError rollbackError rfl

end Inside

/-- A publication is all or nothing, however the host answers, where its staging directory
does not come to lie in the destination. -/
theorem allOrNothing_iff_not_stagedInside
    (destination : FullPath) (producer : Producer) (before : Disk) :
    (∀ host, Fresh host destination before → AllOrNothing host destination producer before) ↔
      ¬ StagedInside destination before := by
  constructor
  · intro hall h
    obtain ⟨guid, hfresh⟩ := h.fresh
    exact not_allOrNothing_of_stagedInside h hfresh
      (hall (refusingHost destination producer guid) hfresh)
  · intro hinside host hfresh
    by_cases hroot : destination.components = []
    · refine AllOrNothing.of_unchanged ?_
      unfold runFrom GenerateAndPublish GetParent
      rw [if_pos hroot]
      rfl
    · by_cases hseparator : destination.endsInSeparator = true
      · refine AllOrNothing.of_not_creatable hseparator ?_
        by_contra hcreatable
        exact hinside ⟨hseparator, hroot, Bool.not_eq_false _ ▸ hcreatable,
          host.stagingGuid, hfresh⟩
      · exact allOrNothing_of_places hroot
          (places_of_no_separator (Bool.not_eq_true _ ▸ hseparator) hroot)

/-! ## A destination with a separator at its end -/

def sampleDigits : List Char :=
  ['3', 'f', '2', '5', '0', '4', 'e', '0', '4', 'f', '8', '9',
    '4', '1', 'd', '3', '9', 'a', '0', 'c', '0', '3', '0', '5',
    'e', '8', '2', 'c', '3', '3', '0', '1']

def sampleGuid : Guid where
  digits := sampleDigits
  length_digits := rfl
  hexadecimal := by
    have hall : (sampleDigits.all fun digit => digit ∈ "0123456789abcdef".toList) = true := by
      decide
    exact fun digit hdigit => of_decide_eq_true (List.all_eq_true.mp hall digit hdigit)

/-- A host that refuses nothing. -/
def willingHost : Host where
  answers _ := .succeeds
  stagingGuid := sampleGuid
  backupGuid := sampleGuid
  caseKey path := path

/-- A generation of one file. -/
def sampleProducer : Producer where
  staged := DirectoryTree.empty.createFile [] "main.cpp".toList ⟨[0x0A], 0⟩ rfl rfl
  exitCode := some 0
  onProducerFailureThrows := false

/-- `/out/` -/
def sampleDestination : FullPath where
  components := ["out".toList]
  endsInSeparator := true

theorem not_allOrNothing_of_leftover
    {host : Host} {destination : FullPath} {producer : Producer} {before : Disk}
    (file : Path) (hbefore : before.entry destination.components = none)
    (hleft : (finalTree (runFrom host destination producer before)).entry
      destination.components = some .directory)
    (hfile : producer.staged.entry file ≠ none)
    (hmissing : (finalTree (runFrom host destination producer before)).entry
      (destination.components ++ file) = none)
    (hfailure : ∀ publishError rollbackError world,
      runFrom host destination producer before ≠
        .error (.aggregate publishError rollbackError) world) :
    ¬ AllOrNothing host destination producer before := by
  intro hall
  rcases hall.complete with hold | ⟨-, hnew⟩ | ⟨⟨publishError, rollbackError, world, heq⟩, -⟩
  · have hroot := hold []
    rw [List.append_nil, hleft, hbefore] at hroot
    exact Option.some_ne_none _ hroot
  · have hsame := hnew file
    rw [hmissing] at hsame
    exact hfile (Option.map_eq_none_iff.mp hsame.symm)
  · exact hfailure publishError rollbackError world heq

/-- What a call threw. -/
def thrown {α : Type} : EStateM.Result Failure World α → Option Failure
  | .ok _ _ => none
  | .error failure _ => some failure

/-- No call is refused, and an empty directory is left where nothing was. -/
theorem not_allOrNothing_separator :
    ¬ AllOrNothing willingHost sampleDestination sampleProducer DirectoryTree.empty := by
  refine not_allOrNothing_of_leftover ["main.cpp".toList] (by decide +kernel)
    (by decide +kernel) (by decide +kernel) (by decide +kernel) ?_
  intro publishError rollbackError world heq
  have hio : thrown (runFrom willingHost sampleDestination sampleProducer DirectoryTree.empty) =
      some .io := by
    decide +kernel
  rw [heq] at hio
  exact Failure.noConfusion (Option.some_inj.mp hio)

end Wiicompiled.Output
