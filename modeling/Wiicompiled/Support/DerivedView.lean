import Mathlib.Data.List.AList

/-!
# Views that hold derived values

A view holds a value for some keys, and each value can be recomputed from elsewhere.  The
view is synced when every value it holds is the one that is derived for its key.  A change
that alters what is derived has to be followed by a refresh of the keys it concerns.
-/

namespace DerivedView

variable {K V : Type*} [DecidableEq K]

/-- Every value of the view is the derived one. -/
def Synced (derive : K → Option V) (view : AList fun _ : K => V) : Prop :=
  ∀ k v, view.lookup k = some v → derive k = some v

/-- Put the derived value in the place of the one that is there. -/
def refresh (derive : K → Option V) (view : AList fun _ : K => V) (k : K) :
    AList fun _ : K => V :=
  match derive k with
  | some v => if k ∈ view then view.insert k v else view
  | none => view

variable {derive derive' : K → Option V}
  {view : AList fun _ : K => V} {k other : K}

theorem mem_refresh : other ∈ refresh derive view k ↔ other ∈ view := by
  unfold refresh
  split
  · split
    · rename_i hmem
      rw [AList.mem_insert]
      exact ⟨fun h => h.elim (fun heq => heq ▸ hmem) id, .inr⟩
    · rfl
  · rfl

theorem lookup_refresh_ne (hne : other ≠ k) :
    (refresh derive view k).lookup other = view.lookup other := by
  unfold refresh
  split
  · split
    · exact AList.lookup_insert_ne hne
    · rfl
  · rfl

/-- The key that was refreshed holds the derived value. -/
theorem lookup_refresh_self {v : V} (hderive : (derive k).isSome)
    (hlookup : (refresh derive view k).lookup k = some v) : derive k = some v := by
  have hmem : k ∈ view :=
    mem_refresh.mp (AList.lookup_isSome.mp (Option.isSome_of_eq_some hlookup))
  obtain ⟨u, hu⟩ := Option.isSome_iff_exists.mp hderive
  unfold refresh at hlookup
  rw [hu] at hlookup ⊢
  simp only [hmem, if_true, AList.lookup_insert] at hlookup
  exact hlookup

/-- When all other values are the derived ones, a refresh of the key syncs the view. -/
theorem synced_refresh
    (h : ∀ other v, other ≠ k → view.lookup other = some v → derive other = some v)
    (hderive : k ∈ view → (derive k).isSome) : Synced derive (refresh derive view k) := by
  intro other v hlookup
  by_cases heq : other = k
  · subst heq
    have hmem : other ∈ view :=
      mem_refresh.mp (AList.lookup_isSome.mp (Option.isSome_of_eq_some hlookup))
    exact lookup_refresh_self (hderive hmem) hlookup
  · rw [lookup_refresh_ne heq] at hlookup
    exact h other v heq hlookup

/-- A refresh of all keys syncs the view, whatever it held. -/
theorem synced_refreshAll {keys : List K} (hcover : ∀ k ∈ view, k ∈ keys)
    (hderive : ∀ k ∈ view, (derive k).isSome) :
    Synced derive (keys.foldl (DerivedView.refresh derive) view) := by
  have hgeneral : ∀ (keys : List K) (view : AList fun _ : K => V),
      (∀ k ∈ view, (derive k).isSome) →
      (∀ k v, view.lookup k = some v → k ∉ keys → derive k = some v) →
      Synced derive (keys.foldl (DerivedView.refresh derive) view) := by
    intro keys
    induction keys with
    | nil => exact fun view _ h k v hlookup => h k v hlookup List.not_mem_nil
    | cons first keys ih =>
        intro view hderive h
        refine ih _ (fun k hk => hderive k (mem_refresh.mp hk)) ?_
        intro k v hlookup hnot
        by_cases heq : k = first
        · subst heq
          have hmem : k ∈ view :=
            mem_refresh.mp (AList.lookup_isSome.mp (Option.isSome_of_eq_some hlookup))
          exact lookup_refresh_self (hderive k hmem) hlookup
        · rw [lookup_refresh_ne heq] at hlookup
          refine h k v hlookup fun hmem => ?_
          rcases List.mem_cons.mp hmem with hfirst | hrest
          · exact heq hfirst
          · exact hnot hrest
  refine hgeneral keys view hderive fun k v hlookup hnot => ?_
  exact absurd (hcover k (AList.lookup_isSome.mp (Option.isSome_of_eq_some hlookup))) hnot

theorem Synced.erase
    (h : Synced derive view) (hsame : ∀ other, other ≠ k → derive' other = derive other) :
    Synced derive' (view.erase k) := by
  intro other v hlookup
  have hne : other ≠ k := by
    rintro rfl
    rw [AList.lookup_erase] at hlookup
    cases hlookup
  rw [AList.lookup_erase_ne hne] at hlookup
  rw [hsame other hne]
  exact h other v hlookup

/-- A view that is overwritten holds the one value for all of its keys. -/
theorem lookup_overwrite (view : AList fun _ : K => V) (value : V) (k : K) :
    (view.keys.foldl (fun written key => written.insert key value) view).lookup k =
      if k ∈ view then some value else none := by
  have hgeneral : ∀ (keys : List K) (written : AList fun _ : K => V),
      (keys.foldl (fun written key => written.insert key value) written).lookup k =
        if k ∈ keys then some value else written.lookup k := by
    intro keys
    induction keys with
    | nil => exact fun written => rfl
    | cons first keys ih =>
        intro written
        rw [List.foldl_cons, ih]
        by_cases hrest : k ∈ keys
        · rw [if_pos hrest, if_pos (List.mem_cons_of_mem _ hrest)]
        · by_cases heq : k = first
          · subst heq
            rw [if_neg hrest, if_pos List.mem_cons_self, AList.lookup_insert]
          · have hnot : k ∉ first :: keys := fun hmem =>
              (List.mem_cons.mp hmem).elim heq hrest
            rw [if_neg hrest, if_neg hnot, AList.lookup_insert_ne heq]
  rw [hgeneral]
  by_cases hmem : k ∈ view
  · rw [if_pos hmem, if_pos (AList.mem_keys.mp hmem)]
  · rw [if_neg hmem, if_neg (fun hkeys => hmem (AList.mem_keys.mpr hkeys))]
    exact AList.lookup_eq_none.mpr hmem

end DerivedView
