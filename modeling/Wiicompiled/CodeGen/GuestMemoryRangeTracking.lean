import Wiicompiled.CodeGen.GuestMemoryRangeLowering
import Mathlib.Data.List.TakeWhile
import Wiicompiled.Support.Numerals

/-!
# What the affine tracker knows

The value of a base register is followed backwards, through copies and constant additions,
to the instruction after which nothing follows it any more.  The tracker holds exactly that
origin and the distance from it, and along every run of a segment the register holds the
value of its origin plus the distance.
-/

namespace Wiicompiled.CodeGen.GuestMemoryRangeLowering

open Ir Analysis
open CxxLinearCodeGenerator (toLower_cases toLower_eq_underscore isDigit_toLower isDigit_eq_false)

/-! ## Names without their case -/

theorem isWhiteSpace_toLower (c : Char) : isWhiteSpace c.toLower = isWhiteSpace c := by
  rcases toLower_cases c with h | ⟨hlow, hhigh, hlow', hhigh'⟩
  · rw [h]
  · have hnot : ∀ d : Char, 65 ≤ d.toNat → d.toNat ≤ 122 → isWhiteSpace d = false := by
      intro d hd hd'
      simp only [isWhiteSpace, Bool.or_eq_false_iff, Bool.and_eq_false_iff,
        decide_eq_false_iff_not]
      omega
    rw [hnot _ (by omega) hhigh', hnot _ hlow (by omega)]

theorem dropWhile_map_toLower {p : Char → Bool} (hp : ∀ c : Char, p c.toLower = p c)
    (cs : List Char) :
    (cs.map Char.toLower).dropWhile p = (cs.dropWhile p).map Char.toLower := by
  rw [List.dropWhile_map]
  congr 2
  funext c
  exact hp c

theorem takeWhile_map_toLower {p : Char → Bool} (hp : ∀ c : Char, p c.toLower = p c)
    (cs : List Char) :
    (cs.map Char.toLower).takeWhile p = (cs.takeWhile p).map Char.toLower := by
  rw [List.takeWhile_map]
  congr 2
  funext c
  exact hp c

theorem trim_map_toLower (cs : List Char) :
    trim (cs.map Char.toLower) = (trim cs).map Char.toLower := by
  rw [trim, trim, dropWhile_map_toLower isWhiteSpace_toLower, ← List.map_reverse,
    dropWhile_map_toLower isWhiteSpace_toLower, List.map_reverse]

theorem all_isDigit_map_toLower_eq (cs : List Char) :
    (cs.map Char.toLower).all Char.isDigit = cs.all Char.isDigit := by
  rw [List.all_map]
  congr 1
  funext c
  exact isDigit_toLower c

theorem map_toLower_eq_self {cs : List Char} (h : ∀ c ∈ cs, ¬ (65 ≤ c.toNat ∧ c.toNat ≤ 90)) :
    cs.map Char.toLower = cs := by
  conv_rhs => rw [← List.map_id cs]
  apply List.map_congr_left
  intro c hc
  rcases toLower_cases c with hlower | ⟨hlow, hhigh, _, _⟩
  · exact hlower
  · exact absurd ⟨hlow, hhigh⟩ (h c hc)

theorem tryParseInt_unsigned {cs rest : List Char} {c : Char} (h : trim cs = c :: rest)
    (hminus : c ≠ '-') (hplus : c ≠ '+') :
    tryParseInt cs =
      ((if c :: rest ≠ [] ∧ (c :: rest).all Char.isDigit then some (decimalValue (c :: rest))
        else none).bind fun n => if n ≤ 2147483647 then some (n : Int) else none) := by
  unfold tryParseInt
  rw [h]
  split
  · rename_i heq
    exact absurd (List.cons.inj heq).1 hminus
  · rename_i heq
    exact absurd (List.cons.inj heq).1 hplus
  · dsimp only
    split
    · rename_i heq
      rw [heq]
      rfl
    · rename_i heq
      rw [heq]
      rfl

theorem tryParseInt_map_toLower (cs : List Char) :
    tryParseInt (cs.map Char.toLower) = tryParseInt cs := by
  have hdigits : ∀ digits : List Char, digits.all Char.isDigit = true →
      digits.map Char.toLower = digits := by
    intro digits hall
    apply map_toLower_eq_self
    rintro c hc ⟨hlow, _⟩
    have hdigit := List.all_eq_true.mp hall c hc
    rw [isDigit_eq_false (by omega)] at hdigit
    exact absurd hdigit Bool.false_ne_true
  have hmagnitude : ∀ digits : List Char,
      (if digits.map Char.toLower ≠ [] ∧ (digits.map Char.toLower).all Char.isDigit then
        some (decimalValue (digits.map Char.toLower)) else none) =
      if digits ≠ [] ∧ digits.all Char.isDigit then some (decimalValue digits) else none := by
    intro digits
    rw [all_isDigit_map_toLower_eq]
    by_cases h : digits ≠ [] ∧ digits.all Char.isDigit
    · rw [hdigits digits h.2]
    · rw [if_neg h, if_neg (by simpa using h)]
  have hsign : ∀ (c sign : Char), sign.toNat < 65 → (c.toLower = sign ↔ c = sign) := by
    intro c sign hsmall
    rcases toLower_cases c with hlower | ⟨hlow, _, hlow', _⟩
    · rw [hlower]
    · constructor
      · rintro rfl
        omega
      · rintro rfl
        omega
  have htrim := trim_map_toLower cs
  rcases hcs : trim cs with _ | ⟨c, rest⟩
  · unfold tryParseInt
    rw [htrim, hcs]
    rfl
  · rw [hcs, List.map_cons] at htrim
    by_cases hminus : c = '-'
    · subst hminus
      unfold tryParseInt
      rw [htrim, hcs]
      simp only [show Char.toLower '-' = '-' from rfl, hmagnitude]
    · by_cases hplus : c = '+'
      · subst hplus
        unfold tryParseInt
        rw [htrim, hcs]
        simp only [show Char.toLower '+' = '+' from rfl, hmagnitude]
      · rw [tryParseInt_unsigned hcs hminus hplus,
          tryParseInt_unsigned htrim (fun h => hminus ((hsign c '-' (by decide)).mp h))
            (fun h => hplus ((hsign c '+' (by decide)).mp h)), ← List.map_cons, hmagnitude]

def isRegisterLetter (letter : Option Char) : Bool :=
  letter = some 'r' || letter = some 'R' || letter = some 'f' || letter = some 'F'

theorem isRegisterLetter_toLower (letter : Option Char) :
    isRegisterLetter (letter.map Char.toLower) = isRegisterLetter letter := by
  rcases letter with _ | c
  · rfl
  · rcases toLower_cases c with h | ⟨hlow, hhigh, _, _⟩
    · rw [Option.map_some, h]
    · have hc : c = Char.ofNat c.toNat := (Char.ofNat_toNat c).symm
      rw [hc]
      generalize c.toNat = n at hlow hhigh
      have hall : ∀ n ∈ List.range 26,
          isRegisterLetter ((some (Char.ofNat (65 + n))).map Char.toLower) =
            isRegisterLetter (some (Char.ofNat (65 + n))) := by
        decide
      have hn := hall (n - 65) (List.mem_range.mpr (by omega))
      rwa [show 65 + (n - 65) = n by omega] at hn

/-- Whether a name is architectural does not depend on its case. -/
theorem IsArchitecturalRegister_of_folded {a b : String} (h : folded a = folded b) :
    IsArchitecturalRegister a = IsArchitecturalRegister b := by
  suffices hspan : ∀ name : String, IsArchitecturalRegister name =
      (((folded name).drop ((beforeSeparator (folded name)).length + 1)).all Char.isDigit &&
        decide (2 ≤ (beforeSeparator (folded name)).length) &&
        isRegisterLetter (beforeSeparator (folded name)).head? &&
        (tryParseInt ((beforeSeparator (folded name)).drop 1)).any fun index =>
          decide (0 ≤ index ∧ index < 32)) by
    rw [hspan, hspan, h]
  intro name
  have hbefore : beforeSeparator (folded name) =
      (beforeSeparator name.toList).map Char.toLower := by
    rw [beforeSeparator, folded, takeWhile_map_toLower, beforeSeparator]
    intro c
    rw [Bool.eq_iff_iff, decide_eq_true_iff, decide_eq_true_iff, Ne, Ne, toLower_eq_underscore]
  rw [hbefore, List.length_map, folded, ← List.map_drop, all_isDigit_map_toLower_eq,
    List.head?_map, isRegisterLetter_toLower, ← List.map_drop, tryParseInt_map_toLower]
  simp only [IsArchitecturalRegister]
  rcases tryParseInt ((beforeSeparator name.toList).drop 1) with _ | index
  · rfl
  · rfl

theorem beforeSeparator_beforeSeparator (name : List Char) :
    beforeSeparator (beforeSeparator name) = beforeSeparator name := by
  rw [beforeSeparator, beforeSeparator, List.takeWhile_idem]

theorem notMem_beforeSeparator (name : List Char) : '_' ∉ beforeSeparator name := by
  intro h
  exact absurd (List.all_eq_true.mp List.all_takeWhile '_' h) (by decide)

theorem beforeSeparator_of_notMem {name : List Char} (h : '_' ∉ name) :
    beforeSeparator name = name := by
  rw [beforeSeparator, List.takeWhile_eq_self_iff]
  intro c hc
  rw [decide_eq_true_iff]
  rintro rfl
  exact h hc

theorem IsArchitecturalRegister_base {name : String} (h : IsArchitecturalRegister name = true) :
    IsArchitecturalRegister (String.ofList (beforeSeparator name.toList)) = true := by
  simp only [IsArchitecturalRegister, Bool.and_eq_true] at h ⊢
  rw [String.toList_ofList, beforeSeparator_beforeSeparator]
  refine ⟨⟨⟨?_, h.1.1.2⟩, h.1.2⟩, h.2⟩
  rw [List.drop_eq_nil_of_le (by omega)]
  rfl

theorem cellOf_of_architectural {name : String} (h : IsArchitecturalRegister name = true) :
    cellOf name = folded (String.ofList (beforeSeparator name.toList)) := by
  rw [cellOf, NormalizeRegisterIdentity, if_pos h]

theorem cellOf_of_not_architectural {name : String}
    (h : IsArchitecturalRegister name = false) : cellOf name = folded name := by
  rw [cellOf, NormalizeRegisterIdentity, h]
  rfl

theorem IsArchitecturalRegister_of_cellOf {a b : String} (h : cellOf a = cellOf b) :
    IsArchitecturalRegister a = IsArchitecturalRegister b := by
  by_cases ha : IsArchitecturalRegister a = true
  · by_cases hb : IsArchitecturalRegister b = true
    · rw [ha, hb]
    · rw [Bool.not_eq_true] at hb
      rw [cellOf_of_architectural ha, cellOf_of_not_architectural hb] at h
      rw [ha, ← IsArchitecturalRegister_of_folded h, IsArchitecturalRegister_base ha]
  · by_cases hb : IsArchitecturalRegister b = true
    · rw [Bool.not_eq_true] at ha
      rw [cellOf_of_architectural hb, cellOf_of_not_architectural ha] at h
      rw [hb, IsArchitecturalRegister_of_folded h, IsArchitecturalRegister_base hb]
    · rw [Bool.not_eq_true] at ha hb
      rw [ha, hb]

theorem cellOf_of_folded {name other : String} (h : folded name = cellOf other) :
    cellOf name = folded name := by
  by_cases hname : IsArchitecturalRegister name = true
  · have hother : IsArchitecturalRegister other = true := by
      by_contra hother
      rw [Bool.not_eq_true] at hother
      rw [cellOf_of_not_architectural hother] at h
      rw [IsArchitecturalRegister_of_folded h, hother] at hname
      exact Bool.false_ne_true hname
    have hseparator : '_' ∉ name.toList := by
      intro hmem
      have hfold : '_' ∈ folded name :=
        List.mem_map.mpr ⟨'_', hmem, (toLower_eq_underscore '_').mpr rfl⟩
      rw [h, cellOf_of_architectural hother, folded, String.toList_ofList, List.mem_map] at hfold
      obtain ⟨c, hc, hlower⟩ := hfold
      rw [(toLower_eq_underscore c).mp hlower] at hc
      exact notMem_beforeSeparator _ hc
    rw [cellOf_of_architectural hname, beforeSeparator_of_notMem hseparator, String.ofList_toList]
  · rw [Bool.not_eq_true] at hname
    exact cellOf_of_not_architectural hname

/-! ## Origins -/

def defines (instruction : IrInstruction) (cell : List Char) : Bool :=
  instruction.definitions.any fun destination => cellOf destination = cell

/-- The register that an instruction copies, and what it adds to it. -/
def followed : IrInstruction → Option (String × ℤ)
  | .assign _ value =>
      if value.kind = "register" then value.registerName.map fun source => (source, 0) else none
  | .binary _ left right op =>
      if equalsIgnoreCase op.toList "add".toList then affineOperands left right else none
  | _ => none

/-- Where a value comes from: the number of instructions after which a register has held it,
and the distance from it. -/
structure Origin where
  position : ℕ
  name : String
  distance : ℤ

def Origin.extend (origin : Origin) (constant : ℤ) : Option Origin :=
  if InInt (origin.distance + constant) then
    some { origin with distance := origin.distance + constant }
  else none

/-- The origin of what a register holds after the first instructions of a segment. -/
def origin (segment : List IrInstruction) : ℕ → String → Origin
  | 0, name => ⟨0, name, 0⟩
  | k + 1, name =>
      match segment[k]? with
      | none => origin segment k name
      | some instruction =>
          if defines instruction (cellOf name) then
            ((followed instruction).bind fun source =>
              (origin segment k source.1).extend source.2).getD ⟨k + 1, name, 0⟩
          else origin segment k name

def passedOn (segment : List IrInstruction) (k : ℕ) (instruction : IrInstruction) :
    Option Origin :=
  (followed instruction).bind fun source => (origin segment k source.1).extend source.2

section Origins

variable {segment : List IrInstruction} {k : ℕ} {instruction : IrInstruction} {name : String}

theorem origin_kept (h : segment[k]? = some instruction)
    (hdefines : defines instruction (cellOf name) = false) :
    origin segment (k + 1) name = origin segment k name := by
  simp [origin, h, hdefines]

theorem origin_passedOn {value : Origin} (h : segment[k]? = some instruction)
    (hdefines : defines instruction (cellOf name) = true)
    (hvalue : passedOn segment k instruction = some value) :
    origin segment (k + 1) name = value := by
  rw [passedOn] at hvalue
  simp [origin, h, hdefines, hvalue]

theorem origin_fresh (h : segment[k]? = some instruction)
    (hdefines : defines instruction (cellOf name) = true)
    (hvalue : passedOn segment k instruction = none) :
    origin segment (k + 1) name = ⟨k + 1, name, 0⟩ := by
  rw [passedOn] at hvalue
  simp [origin, h, hdefines, hvalue]

theorem origin_past (h : segment[k]? = none) :
    origin segment (k + 1) name = origin segment k name := by
  simp [origin, h]

theorem eq_of_passedOn {value : Origin} (h : passedOn segment k instruction = some value) :
    ∃ source constant, followed instruction = some (source, constant) ∧
      InInt ((origin segment k source).distance + constant) ∧
      value = { origin segment k source with
        distance := (origin segment k source).distance + constant } := by
  rw [passedOn, Option.bind_eq_some_iff] at h
  obtain ⟨⟨source, constant⟩, hfollowed, hextend⟩ := h
  rw [Origin.extend] at hextend
  split at hextend
  · rename_i hin
    exact ⟨source, constant, hfollowed, hin, (Option.some.inj hextend).symm⟩
  · exact absurd hextend nofun

/-- What a register holds after an instruction is what it held, what the instruction passes
on, or new. -/
theorem origin_cases (segment : List IrInstruction) (k : ℕ) (name : String) :
    origin segment (k + 1) name = origin segment k name ∨
      ∃ instruction, segment[k]? = some instruction ∧
        defines instruction (cellOf name) = true ∧
        (passedOn segment k instruction = some (origin segment (k + 1) name) ∨
          (passedOn segment k instruction = none ∧
            origin segment (k + 1) name = ⟨k + 1, name, 0⟩)) := by
  rcases h : segment[k]? with _ | instruction
  · exact Or.inl (origin_past h)
  · by_cases hdefines : defines instruction (cellOf name) = true
    · right
      refine ⟨instruction, rfl, hdefines, ?_⟩
      rcases hvalue : passedOn segment k instruction with _ | value
      · exact Or.inr ⟨rfl, origin_fresh h hdefines hvalue⟩
      · exact Or.inl (congrArg some (origin_passedOn h hdefines hvalue).symm)
    · rw [Bool.not_eq_true] at hdefines
      exact Or.inl (origin_kept h hdefines)

theorem inInt_zero : InInt 0 := by decide

theorem inInt_distance (segment : List IrInstruction) (k : ℕ) (name : String) :
    InInt (origin segment k name).distance := by
  induction k generalizing name with
  | zero => exact inInt_zero
  | succ k ih =>
      rcases origin_cases segment k name with h | ⟨instruction, _, _, h | ⟨_, h⟩⟩
      · rw [h]
        exact ih name
      · obtain ⟨source, constant, _, hin, hvalue⟩ := eq_of_passedOn h
        rw [hvalue]
        exact hin
      · rw [h]
        exact inInt_zero

end Origins

/-! ## The tracker holds the origins -/

def trackerAt (segment : List IrInstruction) (k : ℕ) : Tracker :=
  (segment.take k).foldl track .initial

theorem trackerAt_succ {segment : List IrInstruction} {k : ℕ} {instruction : IrInstruction}
    (h : segment[k]? = some instruction) :
    trackerAt segment (k + 1) = track (trackerAt segment k) instruction := by
  rw [trackerAt, trackerAt, List.take_add_one, h, List.foldl_append]
  rfl

theorem trackerAt_past {segment : List IrInstruction} {k : ℕ} (h : segment[k]? = none) :
    trackerAt segment (k + 1) = trackerAt segment k := by
  rw [trackerAt, trackerAt, List.take_add_one, h, Option.toList_none, List.append_nil]

def KeysAreCells (tracker : Tracker) : Prop :=
  ∀ key known, tracker.affine key = some known → ∃ name, key = cellOf name

/-- The root of a register that is not followed. -/
def freshRoot (tracker : Tracker) (name : String) : Root :=
  ⟨NormalizeRegisterIdentity name,
    if IsArchitecturalRegister name then tracker.generations (cellOf name) else 0⟩

theorem Lookup_eq {tracker : Tracker} (hkeys : KeysAreCells tracker) (name : String) :
    Lookup tracker name = (tracker.affine (cellOf name)).getD (freshRoot tracker name, 0) := by
  rw [Lookup]
  rcases hknown : tracker.affine (folded name) with _ | known
  · by_cases harch : IsArchitecturalRegister name = true
    · simp only [harch, if_true, freshRoot]
      rcases tracker.affine (cellOf name) with _ | known <;> rfl
    · rw [Bool.not_eq_true] at harch
      rw [cellOf_of_not_architectural harch, hknown]
      simp [harch, freshRoot, NormalizeRegisterIdentity]
  · obtain ⟨other, hother⟩ := hkeys _ _ hknown
    rw [cellOf_of_folded hother, hknown]
    rfl

theorem affine_invalidated (destinations : List String) (tracker : Tracker) (key : List Char) :
    (destinations.foldl InvalidateDestination tracker).affine key =
      if destinations.any (fun destination => cellOf destination = key) then none
      else tracker.affine key := by
  induction destinations generalizing tracker with
  | nil => rfl
  | cons destination destinations ih =>
      have hone : (InvalidateDestination tracker destination).affine key =
          if cellOf destination = key then none else tracker.affine key := by
        have haffine : (InvalidateDestination tracker destination).affine =
            Function.update tracker.affine (cellOf destination) none := by
          rw [InvalidateDestination]
          split <;> rfl
        rw [haffine, Function.update_apply]
        simp only [eq_comm]
      rw [List.foldl_cons, ih, hone, List.any_cons]
      by_cases hd : cellOf destination = key
      · simp [hd]
      · simp [hd]

theorem generations_InvalidateDestination (tracker : Tracker) (destination : String)
    (key : List Char) :
    (InvalidateDestination tracker destination).generations key =
      tracker.generations key +
        if IsArchitecturalRegister destination ∧ cellOf destination = key then 1 else 0 := by
  rw [InvalidateDestination]
  by_cases harch : IsArchitecturalRegister destination = true
  · rw [if_pos harch]
    by_cases hkey : cellOf destination = key
    · subst hkey
      simp [harch]
    · rw [if_neg fun h => hkey h.2]
      exact Function.update_of_ne (fun h => hkey h.symm) _ _
  · rw [if_neg harch, if_neg fun h => harch h.1]
    rfl

theorem le_generations_invalidated (destinations : List String) (tracker : Tracker)
    (key : List Char) :
    tracker.generations key ≤
      (destinations.foldl InvalidateDestination tracker).generations key := by
  induction destinations generalizing tracker with
  | nil => exact le_refl _
  | cons destination destinations ih =>
      refine le_trans ?_ (ih (InvalidateDestination tracker destination))
      rw [generations_InvalidateDestination]
      exact Nat.le_add_right _ _

theorem lt_generations_invalidated {destinations : List String} {destination : String}
    (hmem : destination ∈ destinations) (harch : IsArchitecturalRegister destination = true)
    (tracker : Tracker) :
    tracker.generations (cellOf destination) <
      (destinations.foldl InvalidateDestination tracker).generations (cellOf destination) := by
  induction destinations generalizing tracker with
  | nil => exact absurd hmem List.not_mem_nil
  | cons first destinations ih =>
      rw [List.foldl_cons]
      rcases List.mem_cons.mp hmem with rfl | hmem
      · refine lt_of_lt_of_le ?_ (le_generations_invalidated destinations _ _)
        rw [generations_InvalidateDestination, if_pos ⟨harch, rfl⟩]
        exact Nat.lt_succ_self _
      · refine lt_of_le_of_lt ?_ (ih hmem (InvalidateDestination tracker first))
        exact le_generations_invalidated [first] tracker _

theorem generations_invalidated_of_not {destinations : List String} {key : List Char}
    (h : (destinations.any fun destination => cellOf destination = key) = false)
    (tracker : Tracker) :
    (destinations.foldl InvalidateDestination tracker).generations key =
      tracker.generations key := by
  induction destinations generalizing tracker with
  | nil => rfl
  | cons destination destinations ih =>
      rw [List.any_cons, Bool.or_eq_false_iff, decide_eq_false_iff_not] at h
      rw [List.foldl_cons, ih h.2, generations_InvalidateDestination, if_neg fun hd => h.1 hd.2,
        Nat.add_zero]

theorem definitions_of_followed {instruction : IrInstruction} {source : String × ℤ}
    (h : followed instruction = some source) :
    ∃ destination, instruction.definitions = [destination] := by
  rcases instruction
  case assign destination value => exact ⟨destination, rfl⟩
  case binary destination left right op => exact ⟨destination, rfl⟩
  all_goals exact absurd h.symm (Option.some_ne_none _)

theorem track_followed {tracker : Tracker} {instruction : IrInstruction}
    {source destination : String} {constant : ℤ}
    (hfollowed : followed instruction = some (source, constant))
    (hdestination : instruction.definitions = [destination])
    (hin : InInt ((Lookup tracker source).2 + constant)) :
    track tracker instruction =
      { tracker with
        affine := Function.update tracker.affine (cellOf destination)
          (some ((Lookup tracker source).1, (Lookup tracker source).2 + constant)) } := by
  rcases instruction
  case assign target value =>
    obtain rfl : target = destination := (List.cons.inj hdestination).1
    rw [followed] at hfollowed
    split at hfollowed
    · rename_i hkind
      rw [Option.map_eq_some_iff] at hfollowed
      obtain ⟨register, hregister, heq⟩ := hfollowed
      obtain ⟨rfl, rfl⟩ := Prod.mk.inj heq
      simp [track, hkind, hregister]
    · exact absurd hfollowed.symm (Option.some_ne_none _)
  case binary target left right op =>
    obtain rfl : target = destination := (List.cons.inj hdestination).1
    rw [followed] at hfollowed
    split at hfollowed
    · rename_i hop
      rw [track, if_pos hop]
      simp only [TryAffineAdd, hfollowed, if_pos hin]
    · exact absurd hfollowed.symm (Option.some_ne_none _)
  all_goals exact absurd hfollowed.symm (Option.some_ne_none _)

theorem track_not_followed {tracker : Tracker} {instruction : IrInstruction}
    (hlookup : ∀ name, InInt (Lookup tracker name).2)
    (h : ∀ source constant, followed instruction = some (source, constant) →
      ¬ InInt ((Lookup tracker source).2 + constant)) :
    track tracker instruction =
      instruction.definitions.foldl InvalidateDestination tracker := by
  rcases instruction
  case assign target value =>
    rw [track]
    by_cases hkind : value.kind = "register"
    · rw [if_pos hkind]
      rcases hregister : value.registerName with _ | register
      · rfl
      · have hfollowed : followed (.assign target value) = some (register, 0) := by
          rw [followed, if_pos hkind, hregister, Option.map_some]
        exact absurd (by simpa using hlookup register) (h register 0 hfollowed)
    · rw [if_neg hkind]
  case binary target left right op =>
    rw [track]
    by_cases hop : equalsIgnoreCase op.toList "add".toList = true
    · rw [if_pos hop]
      rcases hoperands : affineOperands left right with _ | ⟨register, constant⟩
      · simp only [TryAffineAdd, hoperands]
      · have hfollowed : followed (.binary target left right op) =
            some (register, constant) := by
          rw [followed, if_pos hop, hoperands]
        simp only [TryAffineAdd, hoperands, if_neg (h register constant hfollowed)]
    · rw [if_neg hop]
  all_goals rfl

/-- A destination takes over what is known of the source, or is not followed. -/
theorem track_cases {tracker : Tracker} (hlookup : ∀ name, InInt (Lookup tracker name).2)
    (instruction : IrInstruction) :
    (∃ destination known, track tracker instruction =
      { tracker with
        affine := Function.update tracker.affine (cellOf destination) (some known) }) ∨
      track tracker instruction =
        instruction.definitions.foldl InvalidateDestination tracker := by
  by_cases h : ∃ source constant, followed instruction = some (source, constant) ∧
      InInt ((Lookup tracker source).2 + constant)
  · obtain ⟨source, constant, hfollowed, hin⟩ := h
    obtain ⟨destination, hdestination⟩ := definitions_of_followed hfollowed
    exact Or.inl ⟨destination, _, track_followed hfollowed hdestination hin⟩
  · exact Or.inr (track_not_followed hlookup fun source constant hfollowed hin =>
      h ⟨source, constant, hfollowed, hin⟩)

theorem keysAreCells_track {tracker : Tracker} (hkeys : KeysAreCells tracker)
    (hlookup : ∀ name, InInt (Lookup tracker name).2) (instruction : IrInstruction) :
    KeysAreCells (track tracker instruction) := by
  intro key known hknown
  rcases track_cases hlookup instruction with ⟨destination, value, h⟩ | h
  · rw [h] at hknown
    by_cases hkey : key = cellOf destination
    · exact ⟨destination, hkey⟩
    · simp only [Function.update_of_ne hkey] at hknown
      exact hkeys key known hknown
  · rw [h, affine_invalidated] at hknown
    split at hknown
    · exact absurd hknown.symm (Option.some_ne_none _)
    · exact hkeys key known hknown

def rootOf (segment : List IrInstruction) (value : Origin) : Root :=
  freshRoot (trackerAt segment value.position) value.name

/-- The tracker knows the origin of every register, and the distance from it. -/
theorem Lookup_trackerAt (segment : List IrInstruction) (k : ℕ) :
    KeysAreCells (trackerAt segment k) ∧ ∀ name, Lookup (trackerAt segment k) name =
      (rootOf segment (origin segment k name), (origin segment k name).distance) := by
  induction k with
  | zero =>
      have hkeys : KeysAreCells (trackerAt segment 0) := fun _ _ h =>
        absurd h.symm (Option.some_ne_none _)
      refine ⟨hkeys, fun name => ?_⟩
      rw [Lookup_eq hkeys]
      rfl
  | succ k ih =>
      obtain ⟨hkeys, hknown⟩ := ih
      rcases hi : segment[k]? with _ | instruction
      · rw [trackerAt_past hi]
        refine ⟨hkeys, fun name => ?_⟩
        rw [hknown, origin_past hi]
      · have hlookup : ∀ name, InInt (Lookup (trackerAt segment k) name).2 := by
          intro name
          rw [hknown]
          exact inInt_distance segment k name
        have hkeys' := keysAreCells_track hkeys hlookup instruction
        rw [← trackerAt_succ hi] at hkeys'
        refine ⟨hkeys', fun name => ?_⟩
        rw [Lookup_eq hkeys', trackerAt_succ hi]
        have hbefore := hknown name
        rw [Lookup_eq hkeys] at hbefore
        rcases hvalue : passedOn segment k instruction with _ | value
        · have hnot : ∀ source constant, followed instruction = some (source, constant) →
              ¬ InInt ((Lookup (trackerAt segment k) source).2 + constant) := by
            intro source constant hfollowed hin
            rw [hknown] at hin
            rw [passedOn, hfollowed, Option.bind_some, Origin.extend, if_pos hin] at hvalue
            exact Option.some_ne_none _ hvalue
          rw [track_not_followed hlookup hnot, affine_invalidated]
          by_cases hdefines : defines instruction (cellOf name) = true
          · rw [origin_fresh hi hdefines hvalue, rootOf, trackerAt_succ hi,
              track_not_followed hlookup hnot]
            rw [defines] at hdefines
            rw [if_pos hdefines]
            rfl
          · rw [Bool.not_eq_true] at hdefines
            rw [origin_kept hi hdefines, ← hbefore]
            rw [defines] at hdefines
            rw [hdefines, freshRoot, generations_invalidated_of_not hdefines]
            rfl
        · obtain ⟨source, constant, hfollowed, hin, rfl⟩ := eq_of_passedOn hvalue
          obtain ⟨destination, hdestination⟩ := definitions_of_followed hfollowed
          have hin' : InInt ((Lookup (trackerAt segment k) source).2 + constant) := by
            rw [hknown]
            exact hin
          rw [track_followed hfollowed hdestination hin', hknown source]
          by_cases hdefines : defines instruction (cellOf name) = true
          · rw [origin_passedOn hi hdefines hvalue]
            have hcell : cellOf destination = cellOf name := by
              simpa [defines, hdestination] using hdefines
            simp only [← hcell, Function.update_self, Option.getD_some]
            rfl
          · rw [Bool.not_eq_true] at hdefines
            have hcell : cellOf name ≠ cellOf destination := by
              intro h
              simp [defines, hdestination, h] at hdefines
            rw [origin_kept hi hdefines, ← hbefore]
            simp only [Function.update_of_ne hcell]
            rfl

/-! ## Equal roots are equal origins -/

/-- The registers whose values the tracker asks for. -/
def reads (instruction : IrInstruction) : List String :=
  ((TryCreate instruction).map fun raw => raw.address.base).toList ++
    ((followed instruction).map Prod.fst).toList

/-- A register that is not architectural is not written once it has been read. -/
def Settled (segment : List IrInstruction) : Prop :=
  ∀ (i j : ℕ) (first later : IrInstruction) (name : String), i ≤ j →
    segment[i]? = some first → segment[j]? = some later → name ∈ reads first →
    IsArchitecturalRegister name = false → defines later (cellOf name) = false

/-- An origin is the start of the segment, or an instruction that passes nothing on. -/
theorem origin_start (segment : List IrInstruction) (k : ℕ) (name : String) :
    (origin segment k name).position = 0 ∨
      ∃ p instruction, (origin segment k name).position = p + 1 ∧
        segment[p]? = some instruction ∧
        defines instruction (cellOf (origin segment k name).name) = true ∧
        passedOn segment p instruction = none := by
  induction k generalizing name with
  | zero => exact Or.inl rfl
  | succ k ih =>
      rcases origin_cases segment k name with h | ⟨instruction, hi, hdefines, h | ⟨hnone, h⟩⟩
      · rw [h]
        exact ih name
      · obtain ⟨source, constant, _, _, hvalue⟩ := eq_of_passedOn h
        rw [hvalue]
        exact ih source
      · rw [h]
        exact Or.inr ⟨k, instruction, rfl, hi, hdefines, hnone⟩

theorem origin_read (segment : List IrInstruction) (k : ℕ) (name : String) :
    ∃ q, q ≤ k ∧
      (∀ j instruction, (origin segment k name).position ≤ j → j < q →
        segment[j]? = some instruction →
        defines instruction (cellOf (origin segment k name).name) = false) ∧
      ((q = k ∧ (origin segment k name).name = name) ∨
        ∃ instruction, segment[q]? = some instruction ∧
          (origin segment k name).name ∈ reads instruction) := by
  induction k generalizing name with
  | zero => exact ⟨0, le_refl 0, fun j _ _ hj => absurd hj (Nat.not_lt_zero j), Or.inl ⟨rfl, rfl⟩⟩
  | succ k ih =>
      rcases hi : segment[k]? with _ | instruction
      · rw [origin_past hi]
        obtain ⟨q, hq, hheld, hread⟩ := ih name
        rcases hread with ⟨rfl, hname⟩ | hread
        · refine ⟨q + 1, le_refl _, ?_, Or.inl ⟨rfl, hname⟩⟩
          intro j other hj hj' hother
          rcases Nat.lt_succ_iff_lt_or_eq.mp hj' with hlt | rfl
          · exact hheld j other hj hlt hother
          · rw [hi] at hother
            exact absurd hother.symm (Option.some_ne_none _)
        · exact ⟨q, Nat.le_succ_of_le hq, hheld, Or.inr hread⟩
      · by_cases hdefines : defines instruction (cellOf name) = true
        · rcases hvalue : passedOn segment k instruction with _ | value
          · rw [origin_fresh hi hdefines hvalue]
            refine ⟨k + 1, le_refl _, ?_, Or.inl ⟨rfl, rfl⟩⟩
            intro j other hj hj'
            exact absurd hj' (Nat.not_lt_of_le hj)
          · rw [origin_passedOn hi hdefines hvalue]
            obtain ⟨source, constant, hfollowed, _, rfl⟩ := eq_of_passedOn hvalue
            obtain ⟨q, hq, hheld, hread⟩ := ih source
            refine ⟨q, Nat.le_succ_of_le hq, hheld, Or.inr ?_⟩
            rcases hread with ⟨rfl, hname⟩ | hread
            · refine ⟨instruction, hi, ?_⟩
              rw [reads, List.mem_append, hfollowed]
              right
              exact List.mem_singleton.mpr hname
            · exact hread
        · rw [Bool.not_eq_true] at hdefines
          rw [origin_kept hi hdefines]
          obtain ⟨q, hq, hheld, hread⟩ := ih name
          rcases hread with ⟨rfl, hname⟩ | hread
          · refine ⟨q + 1, le_refl _, ?_, Or.inl ⟨rfl, hname⟩⟩
            intro j other hj hj' hother
            rcases Nat.lt_succ_iff_lt_or_eq.mp hj' with hlt | rfl
            · exact hheld j other hj hlt hother
            · rw [hi] at hother
              obtain rfl := Option.some.inj hother
              rw [hname]
              exact hdefines
          · exact ⟨q, Nat.le_succ_of_le hq, hheld, Or.inr hread⟩

theorem generations_le_succ (segment : List IrInstruction) (k : ℕ) (key : List Char) :
    (trackerAt segment k).generations key ≤ (trackerAt segment (k + 1)).generations key := by
  rcases hi : segment[k]? with _ | instruction
  · rw [trackerAt_past hi]
  · have hlookup : ∀ name, InInt (Lookup (trackerAt segment k) name).2 := by
      intro name
      rw [(Lookup_trackerAt segment k).2]
      exact inInt_distance segment k name
    rw [trackerAt_succ hi]
    rcases track_cases hlookup instruction with ⟨destination, value, h⟩ | h
    · rw [h]
    · rw [h]
      exact le_generations_invalidated _ _ _

theorem generations_mono (segment : List IrInstruction) (key : List Char) :
    Monotone fun k => (trackerAt segment k).generations key :=
  monotone_nat_of_le_succ fun k => generations_le_succ segment k key

theorem generations_lt_succ {segment : List IrInstruction} {p : ℕ} {instruction : IrInstruction}
    {name : String} (hi : segment[p]? = some instruction)
    (hdefines : defines instruction (cellOf name) = true)
    (hnone : passedOn segment p instruction = none)
    (harch : IsArchitecturalRegister name = true) :
    (trackerAt segment p).generations (cellOf name) <
      (trackerAt segment (p + 1)).generations (cellOf name) := by
  have hlookup : ∀ name, InInt (Lookup (trackerAt segment p) name).2 := by
    intro name
    rw [(Lookup_trackerAt segment p).2]
    exact inInt_distance segment p name
  have hnot : ∀ source constant, followed instruction = some (source, constant) →
      ¬ InInt ((Lookup (trackerAt segment p) source).2 + constant) := by
    intro source constant hfollowed hin
    rw [(Lookup_trackerAt segment p).2] at hin
    rw [passedOn, hfollowed, Option.bind_some, Origin.extend, if_pos hin] at hnone
    exact Option.some_ne_none _ hnone
  rw [trackerAt_succ hi, track_not_followed hlookup hnot]
  rw [defines, List.any_eq_true] at hdefines
  obtain ⟨destination, hmem, hcell⟩ := hdefines
  have hcell := of_decide_eq_true hcell
  rw [← hcell]
  exact lt_generations_invalidated hmem ((IsArchitecturalRegister_of_cellOf hcell).trans harch) _

/-- Two origins of one cell and one generation do not lie apart. -/
theorem not_position_lt {segment : List IrInstruction} (hsettled : Settled segment)
    {k k' : ℕ} {name name' : String} {instruction : IrInstruction}
    (hi : segment[k]? = some instruction) (hname : name ∈ reads instruction)
    (hroot : cellOf (origin segment k name).name = cellOf (origin segment k' name').name)
    (hgeneration : (rootOf segment (origin segment k name)).generation =
      (rootOf segment (origin segment k' name')).generation) :
    ¬ (origin segment k name).position < (origin segment k' name').position := by
  intro hlt
  rcases origin_start segment k' name' with hzero | ⟨p, writer, hposition, hp, hdefines, hnone⟩
  · rw [hzero] at hlt
    exact absurd hlt (Nat.not_lt_zero _)
  · have hle : (origin segment k name).position ≤ p := by omega
    have hkind := IsArchitecturalRegister_of_cellOf hroot
    by_cases harch : IsArchitecturalRegister (origin segment k' name').name = true
    · have hgrows := generations_lt_succ hp hdefines hnone harch
      have hmono := generations_mono segment (cellOf (origin segment k' name').name) hle
      simp only [rootOf, freshRoot, hkind, harch, if_true, hroot, hposition] at hgeneration
      dsimp only at hmono
      omega
    · rw [Bool.not_eq_true] at harch
      rw [harch] at hkind
      rw [← hroot] at hdefines
      obtain ⟨q, hq, hheld, hread⟩ := origin_read segment k name
      have hpq : q ≤ p := by
        by_contra hpq
        rw [hheld p writer hle (Nat.lt_of_not_le hpq) hp] at hdefines
        exact Bool.false_ne_true hdefines
      have hfalse : defines writer (cellOf (origin segment k name).name) = false := by
        rcases hread with ⟨rfl, hsame⟩ | ⟨reader, hreader, hmem⟩
        · rw [hsame] at hkind ⊢
          exact hsettled q p instruction writer name hpq hi hp hname hkind
        · exact hsettled q p reader writer _ hpq hreader hp hmem hkind
      rw [hfalse] at hdefines
      exact Bool.false_ne_true hdefines

theorem hash_notMem_cellOf {name : String} (h : '#' ∉ name.toList) : '#' ∉ cellOf name := by
  have hlower : ∀ c : Char, c.toLower = '#' → c = '#' := by
    intro c hc
    rcases toLower_cases c with hsame | ⟨_, _, hlow, _⟩
    · rw [← hsame, hc]
    · rw [hc] at hlow
      exact absurd hlow (by decide)
  have hfolded : ∀ chars : List Char, '#' ∉ chars → '#' ∉ chars.map Char.toLower := by
    intro chars hnot hmem
    obtain ⟨c, hc, heq⟩ := List.mem_map.mp hmem
    rw [hlower c heq] at hc
    exact hnot hc
  by_cases harch : IsArchitecturalRegister name = true
  · rw [cellOf_of_architectural harch, folded, String.toList_ofList]
    exact hfolded _ fun hmem => h (List.takeWhile_subset _ hmem)
  · rw [Bool.not_eq_true] at harch
    rw [cellOf_of_not_architectural harch, folded]
    exact hfolded _ h

theorem rootOf_text (segment : List IrInstruction) (value : Origin) :
    (rootOf segment value).text =
      if (rootOf segment value).generation = 0 then cellOf value.name
      else cellOf value.name ++
        '#' :: (toString (rootOf segment value).generation).toList :=
  rfl

theorem eq_of_text_eq {segment : List IrInstruction} {value value' : Origin}
    (hvalue : '#' ∉ value.name.toList) (hvalue' : '#' ∉ value'.name.toList)
    (h : (rootOf segment value).text = (rootOf segment value').text) :
    cellOf value.name = cellOf value'.name ∧
      (rootOf segment value).generation = (rootOf segment value').generation := by
  have hcell := hash_notMem_cellOf hvalue
  have hcell' := hash_notMem_cellOf hvalue'
  rw [rootOf_text, rootOf_text] at h
  by_cases hzero : (rootOf segment value).generation = 0
  · by_cases hzero' : (rootOf segment value').generation = 0
    · rw [if_pos hzero, if_pos hzero'] at h
      exact ⟨h, hzero.trans hzero'.symm⟩
    · rw [if_pos hzero, if_neg hzero'] at h
      rw [h] at hcell
      exact absurd (List.mem_append_right _ List.mem_cons_self) hcell
  · by_cases hzero' : (rootOf segment value').generation = 0
    · rw [if_neg hzero, if_pos hzero'] at h
      rw [← h] at hcell'
      exact absurd (List.mem_append_right _ List.mem_cons_self) hcell'
    · rw [if_neg hzero, if_neg hzero', List.append_eq_append_iff] at h
      rcases h with ⟨more, hname, hrest⟩ | ⟨more, hname, hrest⟩
      · rcases more with _ | ⟨c, more⟩
        · rw [List.append_nil] at hname
          exact ⟨hname.symm, Numerals.toString_injective (List.cons.inj hrest).2⟩
        · rw [hname, ← (List.cons.inj hrest).1] at hcell'
          exact absurd (List.mem_append_right _ List.mem_cons_self) hcell'
      · rcases more with _ | ⟨c, more⟩
        · rw [List.append_nil] at hname
          exact ⟨hname, (Numerals.toString_injective (List.cons.inj hrest).2).symm⟩
        · rw [hname, ← (List.cons.inj hrest).1] at hcell
          exact absurd (List.mem_append_right _ List.mem_cons_self) hcell

/-! ## Runs -/

abbrev Registers := List Char → UInt32

/-- The low word of a number. -/
def word (value : ℤ) : UInt32 :=
  (Int32.ofInt value).toUInt32

theorem word_add (a b : ℤ) : word (a + b) = word a + word b := by
  rw [word, Int32.ofInt_add, Int32.toUInt32_add, word, word]

def operandValue (registers : Registers) (value : IrValue) : Option UInt32 :=
  if value.kind = "register" then
    value.registerName.map fun name => registers (cellOf name)
  else if value.kind = "const" then value.constant.map fun constant => word constant.toInt
  else none

/-- What a helper may write without naming it as its destination. -/
def HelperWrites (instruction : IrInstruction) (cell : List Char) : Prop :=
  ∃ destination target arguments name, instruction = .call destination target arguments ∧
    cellOf name = cell ∧
    (GuestStateMask.ofSsaName name).intersect
      (GuestHelperEffectCatalog.analyze target arguments).writes ≠ GuestStateMask.empty

/-- One instruction between the boundaries of a block. -/
structure Executes (instruction : IrInstruction) (before after : Registers) : Prop where
  copy : ∀ destination value result, instruction = .assign destination value →
    operandValue before value = some result → after (cellOf destination) = result
  add : ∀ destination left right op x y, instruction = .binary destination left right op →
    equalsIgnoreCase op.toList "add".toList = true → operandValue before left = some x →
    operandValue before right = some y → after (cellOf destination) = x + y
  frame : ∀ cell, defines instruction cell = false → ¬ HelperWrites instruction cell →
    after cell = before cell

/-- A run of a segment, with the registers before each of its instructions. -/
def IsRun (segment : List IrInstruction) (registers : ℕ → Registers) : Prop :=
  ∀ k instruction, segment[k]? = some instruction →
    Executes instruction (registers k) (registers (k + 1))

theorem value_of_affineOperands {before : Registers} {left right : IrValue} {name : String}
    {constant : ℤ} (h : affineOperands left right = some (name, constant)) :
    ∃ x y, operandValue before left = some x ∧ operandValue before right = some y ∧
      x + y = before (cellOf name) + word constant := by
  have hregister : ∀ value : IrValue, value.kind = "register" →
      value.registerName = some name → operandValue before value = some (before (cellOf name)) := by
    intro value hkind hname
    rw [operandValue, if_pos hkind, hname, Option.map_some]
  have hconst : ∀ (value : IrValue) (c : Int64), value.kind = "const" →
      value.constant = some c → operandValue before value = some (word c.toInt) := by
    intro value c hkind hc
    rw [operandValue, if_neg (by rw [hkind]; decide), if_pos hkind, hc, Option.map_some]
  have hparts : ∀ (register : IrValue) (c : Int64),
      (if InInt c.toInt then register.registerName.map fun name => (name, c.toInt)
        else none) = some (name, constant) →
      register.registerName = some name ∧ c.toInt = constant := by
    intro register c hmap
    split at hmap
    · rw [Option.map_eq_some_iff] at hmap
      obtain ⟨found, hfound, heq⟩ := hmap
      obtain ⟨rfl, rfl⟩ := Prod.mk.inj heq
      exact ⟨hfound, rfl⟩
    · exact absurd hmap.symm (Option.some_ne_none _)
  by_cases hleft : left.kind = "register" ∧ right.kind = "const" ∧ right.constant.isSome
  · obtain ⟨c, hc⟩ := Option.isSome_iff_exists.mp hleft.2.2
    have hleft' := hleft
    rw [hc] at hleft'
    simp only [affineOperands, hc, if_pos hleft'] at h
    obtain ⟨hname, rfl⟩ := hparts left c h
    exact ⟨_, _, hregister left hleft.1 hname, hconst right c hleft.2.1 hc, rfl⟩
  · by_cases hright : right.kind = "register" ∧ left.kind = "const" ∧ left.constant.isSome
    · obtain ⟨c, hc⟩ := Option.isSome_iff_exists.mp hright.2.2
      have hright' := hright
      rw [hc] at hright'
      simp only [affineOperands, hc, if_neg hleft, if_pos hright'] at h
      obtain ⟨hname, rfl⟩ := hparts right c h
      exact ⟨_, _, hconst left c hright.2.1 hc, hregister right hright.1 hname,
        UInt32.add_comm _ _⟩
    · simp only [affineOperands, if_neg hleft, if_neg hright] at h
      exact absurd h.symm (Option.some_ne_none _)

theorem Executes.followed {instruction : IrInstruction} {before after : Registers}
    {source destination : String} {constant : ℤ} (h : Executes instruction before after)
    (hfollowed : followed instruction = some (source, constant))
    (hdestination : instruction.definitions = [destination]) :
    after (cellOf destination) = before (cellOf source) + word constant := by
  rcases instruction
  case assign target value =>
    obtain rfl : target = destination := (List.cons.inj hdestination).1
    rw [GuestMemoryRangeLowering.followed] at hfollowed
    split at hfollowed
    · rename_i hkind
      rw [Option.map_eq_some_iff] at hfollowed
      obtain ⟨register, hregister, heq⟩ := hfollowed
      obtain ⟨rfl, rfl⟩ := Prod.mk.inj heq
      rw [h.copy target value (before (cellOf register)) rfl
        (by rw [operandValue, if_pos hkind, hregister, Option.map_some])]
      exact (UInt32.add_zero _).symm
    · exact absurd hfollowed.symm (Option.some_ne_none _)
  case binary target left right op =>
    obtain rfl : target = destination := (List.cons.inj hdestination).1
    rw [GuestMemoryRangeLowering.followed] at hfollowed
    split at hfollowed
    · rename_i hop
      obtain ⟨x, y, hx, hy, hsum⟩ := @value_of_affineOperands before _ _ _ _ hfollowed
      rw [h.add target left right op x y rfl hop hx hy, hsum]
    · exact absurd hfollowed.symm (Option.some_ne_none _)
  all_goals exact absurd hfollowed.symm (Option.some_ne_none _)

/-- A set of cells outside of which everything that changes is seen. -/
structure Covers (hidden : Set (List Char)) (segment : List IrInstruction) : Prop where
  helper : ∀ instruction ∈ segment, ∀ cell, HelperWrites instruction cell → cell ∈ hidden
  passed : ∀ instruction ∈ segment, ∀ source constant,
    followed instruction = some (source, constant) → cellOf source ∈ hidden →
    ∀ destination ∈ instruction.definitions, cellOf destination ∈ hidden

/-- Along a run a register holds the value of its origin plus the distance. -/
theorem value_origin {hidden : Set (List Char)} {segment : List IrInstruction}
    (hcovers : Covers hidden segment) {registers : ℕ → Registers}
    (hrun : IsRun segment registers) (k : ℕ) (hk : k ≤ segment.length) (name : String)
    (hname : cellOf name ∉ hidden) :
    registers k (cellOf name) =
      registers (origin segment k name).position (cellOf (origin segment k name).name) +
        word (origin segment k name).distance := by
  induction k generalizing name with
  | zero => exact (UInt32.add_zero _).symm
  | succ k ih =>
      have hi := List.getElem?_eq_getElem (Nat.lt_of_succ_le hk)
      have hmem := List.mem_of_getElem? hi
      have hexecutes := hrun k _ hi
      by_cases hdefines : defines segment[k] (cellOf name) = true
      · rcases hvalue : passedOn segment k segment[k] with _ | value
        · rw [origin_fresh hi hdefines hvalue]
          exact (UInt32.add_zero _).symm
        · rw [origin_passedOn hi hdefines hvalue]
          obtain ⟨source, constant, hfollowed, _, rfl⟩ := eq_of_passedOn hvalue
          obtain ⟨destination, hdestination⟩ := definitions_of_followed hfollowed
          have hcell : cellOf destination = cellOf name := by
            simpa [defines, hdestination] using hdefines
          have hsource : cellOf source ∉ hidden := by
            intro hin
            have hout := hcovers.passed _ hmem source constant hfollowed hin destination
              (by rw [hdestination]; exact List.mem_singleton_self _)
            rw [hcell] at hout
            exact hname hout
          rw [← hcell, hexecutes.followed hfollowed hdestination,
            ih (Nat.le_of_succ_le hk) source hsource, word_add, UInt32.add_assoc]
      · rw [Bool.not_eq_true] at hdefines
        rw [origin_kept hi hdefines, ← ih (Nat.le_of_succ_le hk) name hname]
        exact hexecutes.frame _ hdefines fun h => hname (hcovers.helper _ hmem _ h)

end Wiicompiled.CodeGen.GuestMemoryRangeLowering
