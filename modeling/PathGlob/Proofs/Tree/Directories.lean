/-
A tree of paths as a table of directories.

A tree of paths keeps a list of entries. What it answers is what a table of directories
would answer: the table has a row for the root and for every entry, the key of a row is
the path of the entry, and in the row stand the names directly inside (`directory?`).
A path is looked up by what it spells (`tree_eq_lookup`).

`IsTree` is what makes such a table a tree. Every key but that of the root is found as a
name in the row of another key, every name in a row leads to a key, names are names, and
they stand in the order of their bytes. The table of every list of paths is a tree, and
paths that describe no entry of their own leave it as it is, wherever in the list they
stand and however often (`isTree_ofPaths`).
-/
import Mathlib.Data.List.Sort
import PathGlob.Proofs.Text.Bytes
import PathGlob.Proofs.Tree.Entries

set_option autoImplicit false

namespace PathGlob

/-- For each key the names in its directory, if there is one. -/
abbrev Directories := Text → Option (List Text)

namespace Directories

/-- The key of what stands under a name in the directory of a key. -/
def keyInside (key name : Text) : Text := if key = [] then name else key ++ '/' :: name

/-- The directories are those of a tree, with the empty key for its root. -/
structure IsTree (dirs : Directories) : Prop where
  root : (dirs []).isSome
  /-- Every other key stands under a name in the directory of a key. -/
  above : ∀ key, (dirs key).isSome → key ≠ [] → ∃ parent name siblings,
    key = keyInside parent name ∧ dirs parent = some siblings ∧ name ∈ siblings
  /-- Every name leads to a key. -/
  below : ∀ key names, dirs key = some names → ∀ name ∈ names, (dirs (keyInside key name)).isSome
  isName : ∀ key names, dirs key = some names → ∀ name ∈ names, Text.IsName name
  ordered : ∀ key names, dirs key = some names → (names.map Text.utf8).Pairwise (· < ·)

end Directories

namespace PathTree

open Directories (keyInside IsTree)

/-! ## Keys -/

/-- The entry that a key stands for. -/
def parts (key : Text) : List Text := if key = [] then [] else Text.components key

theorem join_parts (key : Text) : Text.join (parts key) = key := by
  rw [parts]
  split
  · rename_i hnil
    rw [hnil]
    rfl
  · exact Text.join_components key

theorem parts_join {entry : List Text} (h : ∀ name ∈ entry, Text.IsName name) :
    parts (Text.join entry) = entry := by
  rw [Text.join_eq_spell]
  by_cases hne : entry = []
  · rw [hne]
    rfl
  · rw [parts, if_neg (Text.spell_ne_nil hne h), Text.components_spell hne h]

theorem join_concat {entry : List Text} (h : ∀ name ∈ entry, Text.IsName name) (name : Text) :
    Text.join (entry ++ [name]) = keyInside (Text.join entry) name := by
  rw [Text.join_eq_spell, Text.join_eq_spell, spell_append, spell_singleton, keyInside]
  by_cases hne : entry = []
  · rw [hne]
    simp
  · rw [if_neg (Text.spell_ne_nil hne h), List.isEmpty_cons, Bool.not_false, Bool.or_true,
      spell_true hne]
    simp

theorem key_eq_parts (path : Text) : key path = parts (spelled path) := by
  rw [key, parts]
  simp only [beq_iff_eq]

/-! ## The table -/

/-- The table of a tree: under the path of each entry, and under the empty one, the names
directly inside. -/
def directory? (t : PathTree) : Directories :=
  fun key => if t.has (parts key) then some (t.namesIn (parts key)) else none

section Table

variable {t : PathTree} {key : Text} {names : List Text}

theorem isSome_directory? : (t.directory? key).isSome ↔ t.has (parts key) = true := by
  rw [directory?]
  split <;> simp_all

theorem directory?_eq_some : t.directory? key = some names ↔
    t.has (parts key) = true ∧ names = t.namesIn (parts key) := by
  rw [directory?]
  split
  · rename_i hhas
    rw [Option.some.injEq, eq_comm, and_iff_right hhas]
  · rename_i hhas
    exact iff_of_false (by simp) fun h => hhas h.1

/-- **A tree answers as its table does**, for the key that a path spells. -/
theorem Sound.tree_eq_lookup (h : t.Sound) (path : Text) :
    t.tree.list path = .ok ((t.directory? (spelled path)).getD []) ∧
      t.tree.probe path = .ok (t.directory? (spelled path)).isSome := by
  show Except.ok (t.namesIn (PathTree.key path)) = _ ∧ Except.ok (t.has (PathTree.key path)) = _
  rw [key_eq_parts, directory?]
  cases hhas : t.has (parts (spelled path)) with
  | true => exact ⟨rfl, rfl⟩
  | false =>
    have hne : parts (spelled path) ≠ [] := by
      intro hnil
      have hroot : t.has [] = true := rfl
      rw [hnil, hroot] at hhas
      exact absurd hhas (by decide)
    rw [h.namesIn_of_not_has hne hhas]
    exact ⟨rfl, rfl⟩

/-- The root and every entry are made of names. -/
theorem Sound.isName_of_has (h : t.Sound) {entry : List Text} (hhas : t.has entry = true) :
    ∀ name ∈ entry, Text.IsName name := by
  rcases has_iff.1 hhas with rfl | hentry
  · simp
  · exact h.isName _ hentry

/-! ## Names in order -/

theorem lt_of_append_lt {front a b : List Text} (h : front ++ a < front ++ b) : a < b := by
  induction front with
  | nil => exact h
  | cons name front ih =>
    rcases List.cons_lt_cons_iff.1 h with hlt | ⟨-, hlt⟩
    · exact absurd hlt (List.lt_irrefl name)
    · exact ih hlt

/-- Names inside one directory stand in the order of the entries. -/
theorem pairwise_namesIn (h : t.entries.Pairwise (· < ·)) (dir : List Text) :
    (t.namesIn dir).Pairwise (· < ·) := by
  refine List.Pairwise.filterMap _ (fun e e' hlt name hname name' hname' => ?_) h
  rw [childName_eq_some.1 hname, childName_eq_some.1 hname'] at hlt
  rcases List.cons_lt_cons_iff.1 (lt_of_append_lt hlt) with hlt | ⟨-, hlt⟩
  · exact hlt
  · exact absurd hlt (List.lt_irrefl [])

/-- The table of a tree with its entries in order is that of a tree. -/
theorem Sound.isTree (hsound : t.Sound) (hsorted : t.entries.Pairwise (· < ·)) :
    IsTree t.directory? where
  root := isSome_directory?.2 rfl
  above key hkey hne := by
    have hhas := isSome_directory?.1 hkey
    obtain ⟨front, name, hsplit⟩ : ∃ front name, parts key = front ++ [name] := by
      refine (List.eq_nil_or_concat' (parts key)).resolve_left fun hnil => hne ?_
      rw [← join_parts key, hnil]
      rfl
    have hnames := hsound.isName_of_has hhas
    rw [hsplit] at hhas hnames
    have hfront : ∀ name ∈ front, Text.IsName name := fun n hn => hnames n (by simp [hn])
    have hentry := (has_iff.1 hhas).resolve_left (by simp)
    refine ⟨Text.join front, name, t.namesIn front, ?_, ?_, mem_namesIn.2 hentry⟩
    · rw [← join_concat hfront, ← hsplit, join_parts]
    · rw [directory?_eq_some, parts_join hfront]
      refine ⟨has_iff.2 ?_, rfl⟩
      exact or_iff_not_imp_left.2 fun hne => hsound.upward front [name] hne hentry
  below key names hkey name hname := by
    obtain ⟨hhas, rfl⟩ := directory?_eq_some.1 hkey
    have hentry := mem_namesIn.1 hname
    have hnames := hsound.isName _ hentry
    rw [isSome_directory?, ← join_parts key, ← join_concat (hsound.isName_of_has hhas),
      parts_join hnames]
    exact has_iff.2 (.inr hentry)
  isName key names hkey name hname := by
    obtain ⟨-, rfl⟩ := directory?_eq_some.1 hkey
    exact hsound.isName _ (mem_namesIn.1 hname) name (by simp)
  ordered key names hkey := by
    obtain ⟨-, rfl⟩ := directory?_eq_some.1 hkey
    exact (pairwise_namesIn hsorted (parts key)).map _ fun _ _ => Text.utf8_lt_of_lt

end Table

/-! ## Trees of paths -/

/-- A path that is a key describes the entry of the key. -/
theorem entryOf_of_isSome {paths : List Text} {key : Text}
    (h : ((ofPaths paths).directory? key).isSome) : entryOf key = parts key := by
  have hhas := isSome_directory?.1 h
  have hsound := sound_ofPaths paths
  rw [← join_parts key, parts_join (hsound.isName_of_has hhas)]
  refine entryOf_join (hsound.isName_of_has hhas) fun name hname => ?_
  obtain ⟨rest, hsplit⟩ := List.head?_eq_some_iff.1 hname
  rw [hsplit] at hhas
  exact hsound.grounded name rest ((has_iff.1 hhas).resolve_left (by simp))

/-- Paths that describe no entry of their own add nothing. -/
theorem ofPaths_eq {paths more : List Text} (hkept : paths ⊆ more)
    (hmore : ∀ path ∈ more, path ∈ paths ∨ ((ofPaths paths).directory? path).isSome) :
    ofPaths more = ofPaths paths := by
  have hmem : ∀ e, e ∈ (ofPaths more).entries ↔ e ∈ (ofPaths paths).entries := by
    intro e
    rw [mem_ofPaths, mem_ofPaths]
    refine and_congr_right fun hne => ⟨?_, ?_⟩
    · rintro ⟨path, hpath, hbegins⟩
      rcases hmore path hpath with hold | hkey
      · exact ⟨path, hold, hbegins⟩
      · -- The key is the path of an entry, or of the root, above which there is nothing.
        rw [entryOf_of_isSome hkey] at hbegins
        rcases has_iff.1 (isSome_directory?.1 hkey) with hnil | hentry
        · rw [hnil, List.prefix_nil] at hbegins
          exact absurd hbegins hne
        · obtain ⟨-, path', hpath', hbegins'⟩ := mem_ofPaths.1 hentry
          exact ⟨path', hpath', hbegins.trans hbegins'⟩
    · rintro ⟨path, hpath, hbegins⟩
      exact ⟨path, hkept hpath, hbegins⟩
  have hentries : (ofPaths more).entries = (ofPaths paths).entries :=
    (pairwise_ofPaths more).eq_of_mem_iff (pairwise_ofPaths paths) hmem
  exact congrArg mk hentries

/-- **The directories of a list of paths** are those of a tree, in which every path is
looked up by what it spells, and the list may be reordered, repeat its paths and go on
with keys of the tree. -/
theorem isTree_ofPaths (paths : List Text) :
    IsTree (ofPaths paths).directory? ∧
    (∀ path, (ofPaths paths).tree.list path =
        .ok (((ofPaths paths).directory? (spelled path)).getD []) ∧
      (ofPaths paths).tree.probe path = .ok ((ofPaths paths).directory? (spelled path)).isSome) ∧
    (∀ path, ∃ names, (ofPaths paths).tree.list path = .ok names ∧
      (names.map Text.utf8).Pairwise (· < ·)) ∧
    ∀ more, paths ⊆ more →
      (∀ path ∈ more, path ∈ paths ∨ ((ofPaths paths).directory? path).isSome) →
        ofPaths more = ofPaths paths := by
  have hsorted := pairwise_ofPaths paths
  refine ⟨(sound_ofPaths paths).isTree hsorted, (sound_ofPaths paths).tree_eq_lookup,
    fun path => ⟨_, rfl, ?_⟩, fun more hkept hmore => ofPaths_eq hkept hmore⟩
  exact (pairwise_namesIn hsorted _).map _ fun _ _ => Text.utf8_lt_of_lt

/-- The key `a/é` is added, and a path spelled with more separators comes first. -/
theorem isTree_ofPaths_again :
    (["./a//é/".toList, "a/b".toList] ⊆ ["a/b".toList, "a/é".toList, "./a//é/".toList, "a/b".toList] ∧
      ((ofPaths ["./a//é/".toList, "a/b".toList]).directory? "a/é".toList).isSome) ∧
    ofPaths ["a/b".toList, "a/é".toList, "./a//é/".toList, "a/b".toList] =
      ofPaths ["./a//é/".toList, "a/b".toList] := by
  have hkept : ["./a//é/".toList, "a/b".toList] ⊆
      ["a/b".toList, "a/é".toList, "./a//é/".toList, "a/b".toList] := by simp
  have hkey : ((ofPaths ["./a//é/".toList, "a/b".toList]).directory? "a/é".toList).isSome := by
    decide +kernel
  refine ⟨⟨hkept, hkey⟩, (isTree_ofPaths _).2.2.2 _ hkept fun path hpath => ?_⟩
  simp only [List.mem_cons, List.not_mem_nil, or_false] at hpath
  rcases hpath with rfl | rfl | rfl | rfl
  · exact .inl (by simp)
  · exact .inr hkey
  · exact .inl (by simp)
  · exact .inl (by simp)

end PathTree

end PathGlob
