import Wiicompiled.Storage.DvdFst
import Mathlib.Data.List.GetD

/-!
# The layout of an emitted tree

Emitting a tree lays its nodes out in depth-first order.  The end of a directory is the
index of the next node that is not below it, so the layout can be told without patching.
-/

namespace Wiicompiled.Storage.DvdFst

/-! ## Nodes in order -/

/-- The names of the nodes, in the order of the entries. -/
def labels : Children → List Text
  | .nil => []
  | .cons _ name _ children rest => name :: labels children ++ labels rest

def nodeEntry (file : Option RegisteredFile) (path : Text) (parent subtreeEnd : ℕ) :
    IndexedEntry :=
  match file with
  | some file =>
      ⟨file.hostPath, path, file.size, file.discOffsetWords, parent, subtreeEnd, false⟩
  | none => ⟨[], path, 0, 0, parent, subtreeEnd, true⟩

def layout : Children → ℕ → Text → ℕ → List IndexedEntry
  | .nil, _, _, _ => []
  | .cons _ name file children rest, parent, directoryPath, start =>
      let path := childPath directoryPath name
      nodeEntry file path parent (start + 1 + children.count) ::
        layout children start path (start + 1) ++
        layout rest parent directoryPath (start + 1 + children.count)

/-- A node has a file if and only if it has no children. -/
def Proper : Children → Prop
  | .nil => True
  | .cons _ _ file children rest =>
      (file = none ↔ children ≠ .nil) ∧ Proper children ∧ Proper rest

def emplaceAll (map : Text → Option ℕ) (entries : List IndexedEntry) (start : ℕ) :
    Text → Option ℕ :=
  (entries.zipIdx start).foldl
    (fun map entry => emplace map (normalizeLookupPath entry.1.dvdPath) entry.2) map

section Emission

variable {tree : Children} {parent start : ℕ} {directoryPath : Text}
  {state emitted : EmitState} {map : Text → Option ℕ} {entries entries' : List IndexedEntry}

theorem length_layout : (layout tree parent directoryPath start).length = tree.count := by
  induction tree generalizing parent directoryPath start with
  | nil => rfl
  | cons key name file children rest ihChildren ihRest =>
      rw [layout, List.length_append, List.length_cons, ihChildren, ihRest,
        KeyedForest.count]
      omega

theorem length_labels : (labels tree).length = tree.count := by
  induction tree with
  | nil => rfl
  | cons key name file children rest ihChildren ihRest =>
      rw [labels, List.length_append, List.length_cons, ihChildren, ihRest, KeyedForest.count]
      omega

theorem emplaceAll_append :
    emplaceAll map (entries ++ entries') start =
      emplaceAll (emplaceAll map entries start) entries' (start + entries.length) := by
  rw [emplaceAll, List.zipIdx_append, List.foldl_append]
  rfl

theorem emplaceAll_cons {entry : IndexedEntry} :
    emplaceAll map (entry :: entries) start =
      emplaceAll (emplace map (normalizeLookupPath entry.dvdPath) start) entries (start + 1) :=
  rfl

theorem modify_length_append (entry : IndexedEntry) (patch : IndexedEntry → IndexedEntry) :
    (entries ++ entry :: entries').modify entries.length patch =
      entries ++ patch entry :: entries' := by
  induction entries with
  | nil => rfl
  | cons first entries ih => simpa using ih

theorem exists_ok_of_bind {ε α β : Type} {first : Except ε α} {next : α → Except ε β}
    {result : β} (h : (first >>= next) = .ok result) :
    ∃ value, first = .ok value ∧ next value = .ok result := by
  cases first with
  | error e => cases h
  | ok value => exact ⟨value, rfl, h⟩

theorem emitTree_eq (h : emitTree tree parent directoryPath state = .ok emitted) :
    Proper tree ∧
      emitted.entries =
        state.entries ++ layout tree parent directoryPath state.entries.length ∧
      emitted.names = state.names ++ labels tree ∧
      emitted.pathToEntry = emplaceAll state.pathToEntry
        (layout tree parent directoryPath state.entries.length) state.entries.length := by
  induction tree generalizing parent directoryPath state emitted with
  | nil =>
      cases h
      exact ⟨trivial, by rw [layout, List.append_nil], by rw [labels, List.append_nil], rfl⟩
  | cons key name file children rest ihChildren ihRest =>
      cases children with
      | nil =>
          cases file with
          | none => cases h
          | some file =>
              obtain ⟨hproper, hentries, hnames, hpaths⟩ := ihRest h
              have hlength : (state.push (nodeEntry (some file) (childPath directoryPath name)
                  parent (state.entries.length + 1)) name).entries.length =
                  state.entries.length + 1 := List.length_append
              refine ⟨⟨by simp, trivial, hproper⟩, ?_, ?_, ?_⟩
              · rw [hentries]
                simp [EmitState.push, layout, nodeEntry, KeyedForest.count]
              · rw [hnames]
                simp [EmitState.push, labels]
              · rw [hpaths]
                simp [EmitState.push, layout, nodeEntry, KeyedForest.count, emplaceAll_cons]
      | cons key' name' file' children' rest' =>
          cases file with
          | some file => cases h
          | none =>
              rw [emitTree] at h
              generalize hbelow : KeyedForest.cons key' name' file' children' rest' = below at *
              obtain ⟨inner, hinner, h⟩ := exists_ok_of_bind h
              obtain ⟨hproper, hentries, hnames, hpaths⟩ := ihChildren hinner
              obtain ⟨hproper', hentries', hnames', hpaths'⟩ := ihRest h
              have hne : below ≠ .nil := by
                rw [← hbelow]
                simp
              simp only [EmitState.push, List.length_append, List.length_singleton,
                List.append_assoc, List.singleton_append] at hentries hnames hpaths
              -- the end of the directory is the number of entries after those below it
              have hlength : inner.entries.length = state.entries.length + 1 + below.count := by
                rw [hentries, List.length_append, List.length_cons, length_layout]
                omega
              have hclosed : (inner.close state.entries.length).entries =
                  state.entries ++ nodeEntry none (childPath directoryPath name) parent
                    (state.entries.length + 1 + below.count) ::
                    layout below state.entries.length (childPath directoryPath name)
                      (state.entries.length + 1) := by
                rw [← hlength, EmitState.close, hentries, modify_length_append]
                rfl
              have hlength' : (inner.close state.entries.length).entries.length =
                  state.entries.length + 1 + below.count := by
                rw [← hlength, EmitState.close, List.length_modify]
              rw [hlength'] at hentries' hpaths'
              refine ⟨⟨by simp [hne], hproper, hproper'⟩, ?_, ?_, ?_⟩
              · rw [hentries', hclosed, layout]
                simp only [List.append_assoc, List.cons_append]
              · rw [hnames', labels]
                simp only [EmitState.close, hnames, List.append_assoc, List.cons_append]
              · rw [hpaths', layout, emplaceAll_append, List.length_cons, length_layout,
                  emplaceAll_cons]
                simp only [EmitState.close, hpaths]
                rw [show state.entries.length + (below.count + 1) =
                  state.entries.length + 1 + below.count by omega]
                rfl

end Emission

end Wiicompiled.Storage.DvdFst
