import Wiicompiled.Analysis.SsaTransformer
import Wiicompiled.Support.Numerals

/-!
# What the renaming of instructions does

Every step of the renaming allocates fresh versions, of which it registers the ones that it
gives to destinations.  It reads only versions that have been allocated, and leaves every
name unchanged up to its versions and its case.
-/

namespace Wiicompiled.Analysis.SsaTransformer

open Ir

/-! ## Names without versions -/

theorem lastIndexOf_lt {c : Char} {cs : List Char} {idx : ℕ} (h : lastIndexOf c cs = some idx) :
    idx < cs.length := by
  obtain ⟨i, hi, rfl⟩ := Option.map_eq_some_iff.mp h
  have hlt := (List.idxOf?_eq_some_iff.mp hi).1
  rw [List.length_reverse] at hlt
  omega

/-- Drop version suffixes until there is none. -/
def withoutVersions (cs : List Char) : List Char :=
  match h : lastIndexOf '_' cs with
  | none => cs
  | some idx =>
      if (cs.drop (idx + 1)).all Char.isDigit then withoutVersions (cs.take idx) else cs
termination_by cs.length
decreasing_by
  rw [List.length_take]
  have := lastIndexOf_lt h
  omega

/-- A name without its versions; names are told apart without their case. -/
def plain (name : String) : String :=
  String.ofList (withoutVersions (folded name))

theorem underscore_notMem {digits : List Char} (h : digits.all Char.isDigit = true) :
    '_' ∉ digits :=
  fun hmem => absurd (List.all_eq_true.mp h '_' hmem) (by decide)

theorem withoutVersions_append {front digits : List Char}
    (h : digits.all Char.isDigit = true) :
    withoutVersions (front ++ '_' :: digits) = withoutVersions front := by
  have hlast := lastIndexOf_append_cons front (underscore_notMem h)
  have hdrop : (front ++ '_' :: digits).drop (front.length + 1) = digits := by
    rw [← List.drop_drop, List.drop_left, List.drop_one, List.tail_cons]
  rw [withoutVersions]
  split
  · next hnone => rw [hlast] at hnone; cases hnone
  · next idx hsome =>
      obtain rfl := Option.some.inj (hlast.symm.trans hsome)
      rw [hdrop, if_pos h, List.take_left]

/-- A base is the name itself or the name without its last version. -/
theorem toList_Base (name : String) :
    (Base name).toList = name.toList ∨
      ∃ digits, digits.all Char.isDigit = true ∧ Base name ≠ "" ∧
        name.toList = (Base name).toList ++ '_' :: digits := by
  have hbase : (Base name).toList = stripNumericSuffixSpan name.toList := by
    rw [Base, stripNumericSuffix, String.toList_ofList]
  rw [stripNumericSuffixSpan] at hbase
  rcases hlast : lastIndexOf '_' name.toList with - | idx
  · rw [hlast] at hbase
    exact .inl hbase
  rw [hlast] at hbase
  dsimp only at hbase
  by_cases hzero : idx = 0
  · rw [if_pos hzero] at hbase
    exact .inl hbase
  rw [if_neg hzero] at hbase
  by_cases hdigits : (name.toList.drop (idx + 1)).all Char.isDigit = true
  · rw [if_pos hdigits] at hbase
    have hlt := lastIndexOf_lt hlast
    have hat : name.toList[idx] = '_' := by
      obtain ⟨i, hi, rfl⟩ := Option.map_eq_some_iff.mp hlast
      obtain ⟨hi', hat, -⟩ := List.idxOf?_eq_some_iff.mp hi
      rw [List.getElem_reverse] at hat
      exact hat
    refine .inr ⟨_, hdigits, ?_, ?_⟩
    · intro hempty
      rw [hempty, String.toList_empty] at hbase
      have hlen := congrArg List.length hbase
      rw [List.length_nil, List.length_take] at hlen
      omega
    · rw [hbase, ← hat, List.getElem_cons_drop, List.take_append_drop]
  · rw [if_neg hdigits] at hbase
    exact .inl hbase

theorem all_isDigit_map_toLower {digits : List Char} (h : digits.all Char.isDigit = true) :
    (digits.map Char.toLower).all Char.isDigit = true := by
  rw [List.all_map, List.all_eq_true]
  intro c hc
  have hdigit := List.all_eq_true.mp h c hc
  have hlower : c.toLower = c := by
    refine dif_neg ?_
    rintro ⟨hle, -⟩
    rw [Char.isDigit, Bool.and_eq_true, decide_eq_true_eq, decide_eq_true_eq] at hdigit
    exact absurd (UInt32.le_trans hle hdigit.2) (by decide)
  rwa [Function.comp_apply, hlower]

theorem withoutVersions_folded_Base (name : String) :
    withoutVersions (folded (Base name)) = withoutVersions (folded name) := by
  rcases toList_Base name with heq | ⟨digits, hdigits, -, heq⟩
  · rw [folded, heq, folded]
  · have hfolded : folded name =
        folded (Base name) ++ '_' :: digits.map Char.toLower := by
      rw [folded, heq, List.map_append, List.map_cons, folded]
      rfl
    rw [hfolded, withoutVersions_append (all_isDigit_map_toLower hdigits)]

theorem toList_versionName (base : String) (id : ℕ) :
    (versionName base id).toList = base.toList ++ '_' :: (toString id).toList := by
  simp [versionName, String.toList_append]

theorem withoutVersions_versionName (base : String) (id : ℕ) :
    withoutVersions (folded (versionName base id)) = withoutVersions (folded base) := by
  have hfolded : folded (versionName base id) =
      folded base ++ '_' :: (toString id).toList.map Char.toLower := by
    rw [folded, toList_versionName, List.map_append, List.map_cons, folded]
    rfl
  rw [hfolded, withoutVersions_append (all_isDigit_map_toLower (Numerals.all_isDigit_toString id))]

theorem versionName_inj {base base' : String} {id id' : ℕ}
    (h : versionName base id = versionName base' id') : base = base' ∧ id = id' := by
  have hlist := congrArg String.toList h
  rw [toList_versionName, toList_versionName] at hlist
  have hlast := lastIndexOf_append_cons base.toList
    (underscore_notMem (Numerals.all_isDigit_toString id))
  rw [hlist, lastIndexOf_append_cons base'.toList
    (underscore_notMem (Numerals.all_isDigit_toString id')), Option.some.injEq] at hlast
  obtain ⟨hbase, hdigits⟩ := List.append_inj hlist hlast.symm
  rw [List.cons.injEq, Nat.toString_eq_repr, Nat.toString_eq_repr, Nat.toList_repr,
    Nat.toList_repr] at hdigits
  have hids := congrArg (fun cs => Nat.ofDigitChars 10 cs 0) hdigits.2
  simp only [Nat.ofDigitChars_ten_toDigits] at hids
  exact ⟨String.toList_inj.mp hbase, hids⟩

theorem Base_versionName {base : String} (h : base ≠ "") (id : ℕ) :
    Base (versionName base id) = base := by
  apply String.toList_inj.mp
  have hlast := lastIndexOf_append_cons base.toList
    (underscore_notMem (Numerals.all_isDigit_toString id))
  have hdrop : (base.toList ++ '_' :: (toString id).toList).drop (base.toList.length + 1) =
      (toString id).toList := by
    rw [← List.drop_drop, List.drop_left, List.drop_one, List.tail_cons]
  have hne : base.toList.length ≠ 0 := by
    rw [ne_eq, List.length_eq_zero_iff, String.toList_eq_nil_iff]
    exact h
  rw [Base, stripNumericSuffix, String.toList_ofList, toList_versionName,
    stripNumericSuffixSpan, hlast]
  dsimp only
  rw [if_neg hne, hdrop, if_pos (Numerals.all_isDigit_toString id), List.take_left]

theorem not_blank_versionName (base : String) (id : ℕ) :
    isNullOrWhiteSpace (versionName base id) = false := by
  rw [isNullOrWhiteSpace, toList_versionName, List.all_eq_false]
  exact ⟨'_', by simp, by decide⟩

/-! ## Allocation -/

def keyOf (name : String) : List Char :=
  folded (Base name)

/-- A register name with at most one version. -/
def Stable (name : String) : Prop :=
  name ≠ "" ∧ Base (Base name) = Base name

instance (name : String) : Decidable (Stable name) :=
  inferInstanceAs (Decidable (_ ∧ _))

/-- The versions that were given to destinations and to implicit parameters, and the keys
of the definitions that are still to be popped.  The counts hold for functions in which
every name is stable. -/
structure Tracked (stable : Prop) (state : RenameState) (defined implicit : List String)
    (pending : List (List Char)) : Prop where
  allocated : ∀ x ∈ defined ++ implicit,
    ∃ base id, x = versionName base id ∧ id < state.nextVersions (folded base)
  nodup : (defined ++ implicit).Nodup
  stacked : ∀ key, ∀ x ∈ state.versionStacks key,
    x ∈ defined ++ implicit ∧ withoutVersions (folded x) = withoutVersions key
  depth : stable → ∀ key,
    (state.versionStacks key).length = pending.count key + (implicit.map keyOf).count key
  single : stable → (implicit.map keyOf).Nodup

theorem Base_ne_empty {name : String} (h : name ≠ "") : Base name ≠ "" := by
  rcases toList_Base name with heq | ⟨-, -, hne, -⟩
  · rwa [String.toList_inj.mp heq]
  · exact hne

theorem plain_version {name : String} {id : ℕ} :
    plain (versionName (Base name) id) = plain name := by
  rw [plain, withoutVersions_versionName, withoutVersions_folded_Base, plain]

theorem Tracked.definedHere {stable : Prop} {state : RenameState}
    {defined implicit : List String} {pending : List (List Char)}
    (h : Tracked stable state defined implicit pending) (here : List (String × String)) :
    Tracked stable { state with definedHere := here } defined implicit pending :=
  ⟨h.allocated, h.nodup, h.stacked, h.depth, h.single⟩

section Allocation

variable {stable : Prop} {state : RenameState} {defined implicit : List String}
  {pending : List (List Char)} {original : String}

theorem Tracked.fresh (h : Tracked stable state defined implicit pending) :
    (NewVersion original state).1 ∉ defined ++ implicit := by
  intro hmem
  obtain ⟨base, id, heq, hlt⟩ := h.allocated _ hmem
  obtain ⟨rfl, rfl⟩ := versionName_inj heq
  exact lt_irrefl _ hlt

/-- After an allocation the counters are past all versions, the new one included. -/
theorem Tracked.allocated_newVersion (h : Tracked stable state defined implicit pending)
    {x : String} (hx : x = (NewVersion original state).1 ∨ x ∈ defined ++ implicit) :
    ∃ base id, x = versionName base id ∧
      id < (NewVersion original state).2.nextVersions (folded base) := by
  rcases hx with rfl | hx
  · exact ⟨_, _, rfl, by simp [NewVersion]⟩
  · obtain ⟨base, id, heq, hlt⟩ := h.allocated x hx
    refine ⟨base, id, heq, ?_⟩
    by_cases hkey : folded base = folded (Base original)
    · simp only [NewVersion, hkey, Function.update_self]
      rw [hkey] at hlt
      omega
    · simpa only [NewVersion, Function.update_of_ne hkey] using hlt

theorem Tracked.stacked_newVersion (h : Tracked stable state defined implicit pending)
    (key : List Char) {x : String}
    (hx : x ∈ (NewVersion original state).2.versionStacks key) :
    (x = (NewVersion original state).1 ∨ x ∈ defined ++ implicit) ∧
      withoutVersions (folded x) = withoutVersions key := by
  by_cases hkey : key = folded (Base original)
  · simp only [NewVersion, hkey, Function.update_self] at hx
    rcases List.mem_cons.mp hx with rfl | hx
    · exact ⟨.inl rfl, by rw [withoutVersions_versionName, hkey]⟩
    · obtain ⟨hmem, hplain⟩ := h.stacked _ x hx
      exact ⟨.inr hmem, by rw [hplain, hkey]⟩
  · simp only [NewVersion, Function.update_of_ne hkey] at hx
    obtain ⟨hmem, hplain⟩ := h.stacked key x hx
    exact ⟨.inr hmem, hplain⟩

theorem length_newVersion (key : List Char) :
    ((NewVersion original state).2.versionStacks key).length =
      (state.versionStacks key).length + [folded (Base original)].count key := by
  by_cases hkey : key = folded (Base original)
  · simp [NewVersion, hkey]
  · simp [NewVersion, Function.update_of_ne hkey, Ne.symm hkey]

theorem keyOf_newVersion (hname : Base original ≠ "") :
    keyOf (NewVersion original state).1 = folded (Base original) := by
  rw [keyOf]
  exact congrArg folded (Base_versionName hname _)

theorem plain_newVersion : plain (NewVersion original state).1 = plain original :=
  plain_version

theorem Tracked.define (h : Tracked stable state defined implicit pending)
    (hname : stable → Stable original) :
    Tracked stable (NewVersion original state).2 (defined ++ [(NewVersion original state).1])
      implicit (pending ++ [keyOf (NewVersion original state).1]) := by
  have hmem : ∀ x, x ∈ defined ++ [(NewVersion original state).1] ++ implicit ↔
      x = (NewVersion original state).1 ∨ x ∈ defined ++ implicit := by
    intro x
    simp only [List.mem_append, List.mem_singleton, or_assoc, or_left_comm]
  refine ⟨fun x hx => h.allocated_newVersion ((hmem x).mp hx), ?_, ?_, ?_, h.single⟩
  · have hperm : (defined ++ [(NewVersion original state).1] ++ implicit).Perm
        ((NewVersion original state).1 :: (defined ++ implicit)) := by
      rw [List.append_assoc, List.singleton_append]
      exact List.perm_middle
    exact hperm.nodup_iff.mpr (List.nodup_cons.mpr ⟨h.fresh, h.nodup⟩)
  · intro key x hx
    obtain ⟨hx', hplain⟩ := h.stacked_newVersion key hx
    exact ⟨(hmem x).mpr hx', hplain⟩
  · intro hstable key
    rw [length_newVersion, h.depth hstable key, List.count_append,
      keyOf_newVersion (Base_ne_empty (hname hstable).1)]
    omega

theorem Tracked.assume (h : Tracked stable state defined implicit pending)
    (hname : stable → Base original ≠ "")
    (hempty : stable → state.versionStacks (folded (Base original)) = []) :
    Tracked stable (NewVersion original state).2 defined
      (implicit ++ [(NewVersion original state).1]) pending := by
  have hmem : ∀ x, x ∈ defined ++ (implicit ++ [(NewVersion original state).1]) ↔
      x = (NewVersion original state).1 ∨ x ∈ defined ++ implicit := by
    intro x
    simp only [List.mem_append, List.mem_singleton]
    rw [← or_assoc, or_comm]
  refine ⟨fun x hx => h.allocated_newVersion ((hmem x).mp hx), ?_, ?_, ?_, ?_⟩
  · rw [← List.append_assoc]
    have hperm : (defined ++ implicit ++ [(NewVersion original state).1]).Perm
        ((NewVersion original state).1 :: (defined ++ implicit)) :=
      List.perm_append_singleton _ _
    exact hperm.nodup_iff.mpr (List.nodup_cons.mpr ⟨h.fresh, h.nodup⟩)
  · intro key x hx
    obtain ⟨hx', hplain⟩ := h.stacked_newVersion key hx
    exact ⟨(hmem x).mpr hx', hplain⟩
  · intro hstable key
    rw [length_newVersion, h.depth hstable key, List.map_append, List.count_append,
      List.map_singleton, keyOf_newVersion (hname hstable)]
    omega
  · intro hstable
    rw [List.map_append, List.map_singleton, keyOf_newVersion (hname hstable)]
    have hcount := h.depth hstable (folded (Base original))
    rw [hempty hstable, List.length_nil] at hcount
    have hnone : folded (Base original) ∉ implicit.map keyOf := by
      rw [← List.count_eq_zero]
      omega
    have hperm : (implicit.map keyOf ++ [folded (Base original)]).Perm
        (folded (Base original) :: implicit.map keyOf) :=
      List.perm_append_singleton _ _
    exact hperm.nodup_iff.mpr (List.nodup_cons.mpr ⟨hnone, h.single hstable⟩)

end Allocation

/-! ## Rules -/

section Rules

variable {α β : Type} {stable : Prop}

/-- What a computation returns, which versions it registers, and which are known after it. -/
def Renames (stable : Prop) (m : Renamer α)
    (post : α → List String → (String → Prop) → Prop) : Prop :=
  ∀ state defined implicit pending, Tracked stable state defined implicit pending →
    ∃ newDefined newImplicit,
      Tracked stable (m state).2 (defined ++ newDefined) (implicit ++ newImplicit)
        (pending ++ newDefined.map keyOf) ∧
      (stable → (m state).2.definedHere.map (fun d => folded d.1) =
        state.definedHere.map (fun d => folded d.1) ++ newDefined.map keyOf) ∧
      post (m state).1 newDefined fun x => x ∈ defined ++ newDefined ++ (implicit ++ newImplicit)

/-- A computation that registers nothing and reads known versions only. -/
def Reads (stable : Prop) (m : Renamer α) (names : α → List String) (P : α → Prop) : Prop :=
  Renames stable m fun a newDefined known =>
    newDefined = [] ∧ (∀ name ∈ names a, known name) ∧ P a

theorem Renames.pure {a : α} {post : α → List String → (String → Prop) → Prop}
    (h : ∀ known, post a [] known) : Renames stable (pure a) post := by
  intro state defined implicit pending htracked
  refine ⟨[], [], ?_, ?_, h _⟩
  · rw [List.append_nil, List.append_nil, List.map_nil, List.append_nil]
    exact htracked
  · intro _
    exact (List.append_nil _).symm

theorem Renames.mono {m : Renamer α} {post post' : α → List String → (String → Prop) → Prop}
    (h : Renames stable m post) (himp : ∀ a d known, post a d known → post' a d known) :
    Renames stable m post' := by
  intro state defined implicit pending htracked
  obtain ⟨d, i, htracked', hhere, hpost⟩ := h state defined implicit pending htracked
  exact ⟨d, i, htracked', hhere, himp _ _ _ hpost⟩

theorem Renames.bind {m : Renamer α} {f : α → Renamer β}
    {post : α → List String → (String → Prop) → Prop}
    {post' : α → β → List String → (String → Prop) → Prop} (hm : Renames stable m post)
    (hf : ∀ a d known, post a d known → Renames stable (f a) (post' a)) :
    Renames stable (m >>= f) fun b d known => ∃ a d₁ d₂ known₁, d = d₁ ++ d₂ ∧
      (∀ x, known₁ x → known x) ∧ post a d₁ known₁ ∧ post' a b d₂ known := by
  intro state defined implicit pending htracked
  obtain ⟨d₁, i₁, htracked₁, hhere₁, hpost₁⟩ := hm state defined implicit pending htracked
  obtain ⟨d₂, i₂, htracked₂, hhere₂, hpost₂⟩ := hf _ _ _ hpost₁ _ _ _ _ htracked₁
  refine ⟨d₁ ++ d₂, i₁ ++ i₂, ?_, ?_, _, d₁, d₂, _, rfl, ?_, hpost₁, ?_⟩
  · rw [List.append_assoc, List.append_assoc, List.append_assoc, ← List.map_append]
      at htracked₂
    exact htracked₂
  · intro hstable
    refine (hhere₂ hstable).trans ?_
    rw [hhere₁ hstable, List.map_append, List.append_assoc]
  · intro x hx
    rw [← List.append_assoc defined, ← List.append_assoc implicit]
    rcases List.mem_append.mp hx with hd | hi
    · exact List.mem_append_left _ (List.mem_append_left _ hd)
    · exact List.mem_append_right _ (List.mem_append_left _ hi)
  · have hknown : (fun x => x ∈ defined ++ (d₁ ++ d₂) ++ (implicit ++ (i₁ ++ i₂))) =
        fun x => x ∈ defined ++ d₁ ++ d₂ ++ (implicit ++ i₁ ++ i₂) := by
      simp only [List.append_assoc]
    rw [hknown]
    exact hpost₂

theorem Renames.map {m : Renamer α} {g : α → β}
    {post : α → List String → (String → Prop) → Prop}
    {post' : β → List String → (String → Prop) → Prop} (h : Renames stable m post)
    (himp : ∀ a d known, post a d known → post' (g a) d known) :
    Renames stable (m >>= fun a => Pure.pure (g a)) post' := by
  intro state defined implicit pending htracked
  obtain ⟨d, i, htracked', hhere, hpost⟩ := h state defined implicit pending htracked
  exact ⟨d, i, htracked', hhere, himp _ _ _ hpost⟩

theorem Renames.afterReads {m : Renamer α} {f : α → Renamer β} {names : α → List String}
    {P : α → Prop} {post : β → List String → (String → Prop) → Prop}
    (hm : Reads stable m names P)
    (hf : ∀ a, Renames stable (f a) fun b d known =>
      P a → (∀ name ∈ names a, known name) → post b d known) :
    Renames stable (m >>= f) post := by
  refine (Renames.bind hm fun a _ _ _ => hf a).mono ?_
  rintro b d known ⟨a, -, d₂, known₁, rfl, hmono, ⟨rfl, hread, hP⟩, hpost⟩
  exact hpost hP fun name hname => hmono name (hread name hname)

theorem Renames.mapM {f : α → Renamer β}
    {post : α → β → List String → (String → Prop) → Prop}
    (hmono : ∀ a b d known known', (∀ x, known x → known' x) → post a b d known →
      post a b d known')
    {as : List α} (h : ∀ a ∈ as, Renames stable (f a) (post a)) :
    Renames stable (as.mapM f) fun bs d known => ∃ ps : List (β × List String),
      bs = ps.map Prod.fst ∧ d = ps.flatMap Prod.snd ∧
        List.Forall₂ (fun a p => post a p.1 p.2 known) as ps := by
  induction as with
  | nil =>
      rw [List.mapM_nil]
      exact .pure fun known => ⟨[], rfl, rfl, .nil⟩
  | cons a as ih =>
      rw [List.mapM_cons]
      have hrest := ih fun x hx => h x (List.mem_cons_of_mem a hx)
      have hcons : ∀ b, Renames stable (as.mapM f >>= fun bs => Pure.pure (b :: bs))
          fun bs d known => ∃ ps : List (β × List String), bs = b :: ps.map Prod.fst ∧
            d = ps.flatMap Prod.snd ∧ List.Forall₂ (fun a p => post a p.1 p.2 known) as ps := by
        intro b
        refine hrest.map ?_
        rintro bs d known ⟨ps, rfl, hd, hps⟩
        exact ⟨ps, rfl, hd, hps⟩
      refine ((h a List.mem_cons_self).bind fun b _ _ _ => hcons b).mono ?_
      rintro bs d known ⟨b, d₁, d₂, known₁, rfl, hknown, hb, ps, rfl, rfl, hps⟩
      exact ⟨(b, d₁) :: ps, rfl, rfl, .cons (hmono a b d₁ _ _ hknown hb) hps⟩

theorem exists_of_forall₂ {γ : Type} {R : α → γ → Prop} {as : List α} {cs : List γ}
    (h : List.Forall₂ R as cs) {c : γ} (hc : c ∈ cs) : ∃ a ∈ as, R a c := by
  induction h with
  | nil => cases hc
  | @cons a c' as cs hac _ ih =>
      rcases List.mem_cons.mp hc with rfl | hc
      · exact ⟨a, List.mem_cons_self, hac⟩
      · obtain ⟨b, hb, hbc⟩ := ih hc
        exact ⟨b, List.mem_cons_of_mem a hb, hbc⟩

theorem Reads.mapM {f : α → Renamer β} {names : β → List String} {P : α → β → Prop}
    {as : List α} (h : ∀ a ∈ as, Reads stable (f a) names (P a)) :
    Reads stable (as.mapM f) (fun bs => bs.flatMap names) (List.Forall₂ P as) := by
  refine (Renames.mapM ?_ h).mono ?_
  · rintro a b d known known' hknown ⟨hd, hread, hP⟩
    exact ⟨hd, fun name hname => hknown name (hread name hname), hP⟩
  · rintro bs d known ⟨ps, rfl, rfl, hps⟩
    refine ⟨?_, ?_, ?_⟩
    · rw [List.flatMap_eq_nil_iff]
      intro p hp
      obtain ⟨a, -, hpost⟩ := exists_of_forall₂ hps hp
      exact hpost.1
    · intro name hname
      obtain ⟨b, hb, hname⟩ := List.mem_flatMap.mp hname
      obtain ⟨p, hp, rfl⟩ := List.mem_map.mp hb
      obtain ⟨a, -, hpost⟩ := exists_of_forall₂ hps hp
      exact hpost.2.1 name hname
    · rw [List.forall₂_map_right_iff]
      exact hps.imp fun a p hpost => hpost.2.2

end Rules

/-! ## Operands -/

def registerNames (value : IrValue) : List String :=
  if value.kind = "register" then value.registerName.toList else []

def plainValue (value : IrValue) : IrValue :=
  { value with registerName := value.registerName.map plain }

def plainAddress (address : IrAddress) : IrAddress :=
  { address with base := plain address.base }

section Operands

variable {stable : Prop}

theorem currentVersion_reads {name : String} (hname : stable → Stable name) :
    Reads stable (CurrentVersion (Base name)) (fun x => [x]) fun x => plain x = plain name := by
  intro state defined implicit pending htracked
  rcases hstack : state.versionStacks (folded (Base name)) with - | ⟨top, rest⟩
  · have hrun : CurrentVersion (Base name) state = NewVersion (Base name) state := by
      rw [CurrentVersion, hstack]
    have hassume : Tracked stable (NewVersion (Base name) state).2 defined
        (implicit ++ [(NewVersion (Base name) state).1]) pending := htracked.assume
      (fun hstable => by rw [(hname hstable).2]; exact Base_ne_empty (hname hstable).1)
      (fun hstable => by rw [(hname hstable).2, hstack])
    refine ⟨[], [(NewVersion (Base name) state).1], ?_, ?_, rfl, ?_, ?_⟩
    · rw [hrun, List.map_nil, List.append_nil, List.append_nil]
      exact hassume
    · intro _
      rw [hrun, List.map_nil, List.append_nil]
      rfl
    · intro x hx
      rw [hrun, List.mem_singleton] at hx
      simp [hx]
    · rw [hrun]
      exact plain_newVersion.trans (congrArg String.ofList (withoutVersions_folded_Base name))
  · have hrun : CurrentVersion (Base name) state = (top, state) := by
      rw [CurrentVersion, hstack]
    obtain ⟨hmem, hplain⟩ := htracked.stacked (folded (Base name)) top
      (by rw [hstack]; exact List.mem_cons_self)
    refine ⟨[], [], ?_, ?_, rfl, ?_, ?_⟩
    · rw [hrun, List.map_nil, List.append_nil, List.append_nil, List.append_nil]
      exact htracked
    · intro _
      rw [hrun, List.map_nil, List.append_nil]
    · intro x hx
      rw [hrun, List.mem_singleton] at hx
      rw [List.append_nil, List.append_nil, hx]
      exact hmem
    · rw [hrun]
      exact congrArg String.ofList (hplain.trans (withoutVersions_folded_Base name))

theorem renameValue_reads {value : IrValue}
    (hname : stable → ∀ name ∈ registerNames value, Stable name) :
    Reads stable (RenameValue value) registerNames
      fun value' => plainValue value' = plainValue value := by
  rw [RenameValue]
  by_cases hkind : value.kind = "register"
  · rw [if_pos hkind]
    rcases hregister : value.registerName with - | name
    · refine .pure fun known => ⟨rfl, ?_, rfl⟩
      simp [registerNames, hregister]
    · have hstable : stable → Stable name := fun h => hname h name (by
        simp [registerNames, hkind, hregister])
      refine Renames.map (currentVersion_reads hstable) ?_
      rintro x d known ⟨hd, hread, hplain⟩
      refine ⟨hd, ?_, ?_⟩
      · simpa [registerNames, hkind] using hread
      · simp [plainValue, hregister, hplain]
  · rw [if_neg hkind]
    refine .pure fun known => ⟨rfl, ?_, rfl⟩
    simp [registerNames, hkind]

theorem renameAddress_reads {address : IrAddress} (hname : stable → Stable address.base) :
    Reads stable (RenameAddress address) (fun address' => [address'.base])
      fun address' => plainAddress address' = plainAddress address := by
  refine Renames.map (currentVersion_reads hname) ?_
  rintro x d known ⟨hd, hread, hplain⟩
  exact ⟨hd, hread, by simp [plainAddress, hplain]⟩

theorem renameValues_reads {values : List IrValue}
    (hname : stable → ∀ value ∈ values, ∀ name ∈ registerNames value, Stable name) :
    Reads stable (values.mapM RenameValue) (fun values' => values'.flatMap registerNames)
      fun values' => values'.map plainValue = values.map plainValue := by
  refine (Reads.mapM fun value hvalue => renameValue_reads fun h => hname h value hvalue).mono ?_
  rintro values' d known ⟨hd, hread, hsame⟩
  refine ⟨hd, hread, ?_⟩
  dsimp only
  rw [← List.forall₂_eq_eq_eq, List.forall₂_map_left_iff, List.forall₂_map_right_iff]
  exact hsame.flip

theorem newDestination_renames {destination : String} (hname : stable → Stable destination) :
    Renames stable (newDestination destination) fun x newDefined _ =>
      newDefined = [x] ∧ plain x = plain destination ∧ isNullOrWhiteSpace x = false := by
  intro state defined implicit pending htracked
  refine ⟨[(NewVersion destination state).1], [], ?_, ?_, rfl, plain_newVersion,
    not_blank_versionName _ _⟩
  · rw [List.append_nil]
    exact (htracked.define hname).definedHere _
  · intro _
    exact List.map_append

theorem newCallDestination_renames {destination : String}
    (hname : stable → isNullOrWhiteSpace destination = false → Stable destination) :
    Renames stable (newCallDestination destination) fun x newDefined _ =>
      newDefined = (if isNullOrWhiteSpace x then [] else [x]) ∧
        (if isNullOrWhiteSpace x then "" else plain x) =
          if isNullOrWhiteSpace destination then "" else plain destination := by
  rw [newCallDestination]
  by_cases hblank : isNullOrWhiteSpace destination = true
  · rw [if_pos hblank]
    refine .pure fun known => ?_
    rw [if_pos hblank]
    exact ⟨rfl, rfl⟩
  · rw [if_neg hblank]
    refine (newDestination_renames fun h => hname h (Bool.not_eq_true _ ▸ hblank)).mono ?_
    rintro x d known ⟨hd, hplain, hfull⟩
    rw [hfull, if_neg hblank]
    exact ⟨hd, hplain⟩

end Operands

/-! ## Instructions -/

def isPhi : IrInstruction → Bool
  | .phi .. => true
  | _ => false

def operandNames : IrInstruction → List String
  | .assign _ value => registerNames value
  | .binary _ left right _ => registerNames left ++ registerNames right
  | .load _ address _ => [address.base]
  | .store address source _ => address.base :: registerNames source
  | .call _ _ arguments => arguments.flatMap registerNames
  | .indirectCall _ target arguments =>
      registerNames target ++ arguments.flatMap registerNames
  | .setCrField _ left right _ => registerNames left ++ registerNames right
  | .branch _ _ _ conditionRegister =>
      if isRegisterName conditionRegister then [conditionRegister] else []
  | .indirectJump target => registerNames target
  | .jumpTable selector _ => [selector]
  | .ret (some value) => registerNames value
  | _ => []

/-- An instruction with plain names; a blank destination of a call is empty. -/
def plainInstruction : IrInstruction → IrInstruction
  | .assign destination value => .assign (plain destination) (plainValue value)
  | .binary destination left right op =>
      .binary (plain destination) (plainValue left) (plainValue right) op
  | .load destination address sizeBytes =>
      .load (plain destination) (plainAddress address) sizeBytes
  | .store address source sizeBytes =>
      .store (plainAddress address) (plainValue source) sizeBytes
  | .call destination target arguments =>
      .call (if isNullOrWhiteSpace destination then "" else plain destination) target
        (arguments.map plainValue)
  | .indirectCall destination target arguments =>
      .indirectCall (if isNullOrWhiteSpace destination then "" else plain destination)
        (plainValue target) (arguments.map plainValue)
  | .setCrField fieldIndex left right isUnsigned =>
      .setCrField fieldIndex (plainValue left) (plainValue right) isUnsigned
  | .branch condition trueLabel falseLabel conditionRegister =>
      .branch condition trueLabel falseLabel (plain conditionRegister)
  | .indirectJump target => .indirectJump (plainValue target)
  | .jumpTable selector cases => .jumpTable (plain selector) cases
  | .ret (some value) => .ret (some (plainValue value))
  | i => i

/-- What the renaming of one instruction makes of it.  Phis are left alone. -/
structure InstructionRenamed (i i' : IrInstruction) (newDefined : List String)
    (known : String → Prop) : Prop where
  defines : (if isPhi i' then [] else (destinationOf i').toList) = newDefined
  reads : ∀ name ∈ operandNames i', known name
  same : plainInstruction i' = plainInstruction i
  phi : isPhi i' = isPhi i
  kept : isPhi i = true → i' = i

def StableNames (i : IrInstruction) : Prop :=
  (∀ name ∈ operandNames i, Stable name) ∧ ∀ name ∈ destinationOf i, Stable name

instance (i : IrInstruction) : Decidable (StableNames i) :=
  inferInstanceAs (Decidable (_ ∧ _))

theorem renameInstruction_renames {stable : Prop} (i : IrInstruction)
    (hnames : stable → StableNames i) :
    Renames stable (RenameInstruction i) (InstructionRenamed i) := by
  have hoperand : ∀ {name : String}, name ∈ operandNames i → stable → Stable name :=
    fun hmem h => (hnames h).1 _ hmem
  have hdestination : ∀ {name : String}, name ∈ destinationOf i → stable → Stable name :=
    fun hmem h => (hnames h).2 _ hmem
  rcases i
  case assign destination value =>
    refine .afterReads (renameValue_reads fun h name hmem => hoperand hmem h) fun value' => ?_
    refine Renames.map (newDestination_renames (hdestination rfl)) ?_
    rintro x d known ⟨rfl, hplain, -⟩ hvalue hread
    exact ⟨rfl, hread, by simp only [plainInstruction, hplain, hvalue], rfl,
      fun h => absurd h Bool.false_ne_true⟩
  case binary destination left right op =>
    refine .afterReads (renameValue_reads fun h name hmem =>
      hoperand (List.mem_append_left _ hmem) h) fun left' => ?_
    refine .afterReads (renameValue_reads fun h name hmem =>
      hoperand (List.mem_append_right _ hmem) h) fun right' => ?_
    refine Renames.map (newDestination_renames (hdestination rfl)) ?_
    rintro x d known ⟨rfl, hplain, -⟩ hright hreadRight hleft hreadLeft
    refine ⟨rfl, ?_, by simp only [plainInstruction, hplain, hleft, hright], rfl,
      fun h => absurd h Bool.false_ne_true⟩
    exact List.forall_mem_append.mpr ⟨hreadLeft, hreadRight⟩
  case load destination address sizeBytes =>
    refine .afterReads (renameAddress_reads (hoperand List.mem_cons_self)) fun address' => ?_
    refine Renames.map (newDestination_renames (hdestination rfl)) ?_
    rintro x d known ⟨rfl, hplain, -⟩ haddress hread
    exact ⟨rfl, hread, by simp only [plainInstruction, hplain, haddress], rfl,
      fun h => absurd h Bool.false_ne_true⟩
  case store address source sizeBytes =>
    refine .afterReads (renameAddress_reads (hoperand List.mem_cons_self)) fun address' => ?_
    refine Renames.map (renameValue_reads fun h name hmem =>
      hoperand (List.mem_cons_of_mem _ hmem) h) ?_
    rintro source' d known ⟨rfl, hreadSource, hsource⟩ haddress hreadAddress
    refine ⟨rfl, ?_, by simp only [plainInstruction, haddress, hsource], rfl,
      fun h => absurd h Bool.false_ne_true⟩
    exact List.forall_mem_cons.mpr ⟨hreadAddress _ List.mem_cons_self, hreadSource⟩
  case call destination target arguments =>
    refine .afterReads (renameValues_reads fun h value hvalue name hmem =>
      hoperand (List.mem_flatMap.mpr ⟨value, hvalue, hmem⟩) h) fun arguments' => ?_
    refine Renames.map (newCallDestination_renames fun h hfull =>
      hdestination (by simp [destinationOf, hfull]) h) ?_
    rintro x d known ⟨rfl, hplain⟩ harguments hread
    refine ⟨?_, hread, by simp only [plainInstruction, hplain, harguments], rfl,
      fun h => absurd h Bool.false_ne_true⟩
    by_cases hblank : isNullOrWhiteSpace x = true <;> simp [isPhi, destinationOf, hblank]
  case indirectCall destination target arguments =>
    refine .afterReads (renameValue_reads fun h name hmem =>
      hoperand (List.mem_append_left _ hmem) h) fun target' => ?_
    refine .afterReads (renameValues_reads fun h value hvalue name hmem =>
      hoperand (List.mem_append_right _ (List.mem_flatMap.mpr ⟨value, hvalue, hmem⟩)) h)
      fun arguments' => ?_
    refine Renames.map (newCallDestination_renames fun h hfull =>
      hdestination (by simp [destinationOf, hfull]) h) ?_
    rintro x d known ⟨rfl, hplain⟩ harguments hreadArguments htarget hreadTarget
    refine ⟨?_, ?_, by simp only [plainInstruction, hplain, harguments, htarget], rfl,
      fun h => absurd h Bool.false_ne_true⟩
    · by_cases hblank : isNullOrWhiteSpace x = true <;> simp [isPhi, destinationOf, hblank]
    · exact List.forall_mem_append.mpr ⟨hreadTarget, hreadArguments⟩
  case setCrField fieldIndex left right isUnsigned =>
    refine .afterReads (renameValue_reads fun h name hmem =>
      hoperand (List.mem_append_left _ hmem) h) fun left' => ?_
    refine Renames.map (renameValue_reads fun h name hmem =>
      hoperand (List.mem_append_right _ hmem) h) ?_
    rintro right' d known ⟨rfl, hreadRight, hright⟩ hleft hreadLeft
    refine ⟨rfl, ?_, by simp only [plainInstruction, hleft, hright], rfl,
      fun h => absurd h Bool.false_ne_true⟩
    exact List.forall_mem_append.mpr ⟨hreadLeft, hreadRight⟩
  case branch condition trueLabel falseLabel conditionRegister =>
    rw [RenameInstruction]
    by_cases hregister : isRegisterName conditionRegister = true
    · rw [if_pos hregister]
      refine Renames.map (currentVersion_reads (hoperand (by simp [operandNames, hregister]))) ?_
      rintro x d known ⟨rfl, hread, hplain⟩
      refine ⟨rfl, ?_, by simp only [plainInstruction, hplain], rfl,
      fun h => absurd h Bool.false_ne_true⟩
      intro name hname
      rw [operandNames] at hname
      by_cases hx : isRegisterName x = true
      · rw [if_pos hx] at hname
        exact hread name hname
      · rw [if_neg hx] at hname
        cases hname
    · rw [if_neg hregister]
      refine .pure fun known => ⟨rfl, ?_, rfl, rfl,
      fun h => absurd h Bool.false_ne_true⟩
      simp [operandNames, hregister]
  case indirectJump target =>
    refine Renames.map (renameValue_reads fun h name hmem => hoperand hmem h) ?_
    rintro target' d known ⟨rfl, hread, htarget⟩
    exact ⟨rfl, hread, by simp only [plainInstruction, htarget], rfl,
      fun h => absurd h Bool.false_ne_true⟩
  case jumpTable selector cases =>
    refine Renames.map (currentVersion_reads (hoperand List.mem_cons_self)) ?_
    rintro x d known ⟨rfl, hread, hplain⟩
    exact ⟨rfl, hread, by simp only [plainInstruction, hplain], rfl,
      fun h => absurd h Bool.false_ne_true⟩
  case ret value =>
    rcases value with - | value
    · exact .pure fun known => ⟨rfl, by simp [operandNames], rfl, rfl,
      fun h => absurd h Bool.false_ne_true⟩
    · refine Renames.map (renameValue_reads fun h name hmem => hoperand hmem h) ?_
      rintro value' d known ⟨rfl, hread, hvalue⟩
      exact ⟨rfl, hread, by simp only [plainInstruction, hvalue], rfl,
      fun h => absurd h Bool.false_ne_true⟩
  -- the other instructions are returned as they are
  all_goals exact .pure fun known => ⟨rfl, by simp [operandNames], rfl, rfl, fun _ => rfl⟩

end Wiicompiled.Analysis.SsaTransformer
