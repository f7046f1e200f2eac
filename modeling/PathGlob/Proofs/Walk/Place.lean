/-
The places a walk comes to.

A walk starts at a root and goes down by names, so each of its places is the one
`below` the root that some names lead to, in both spellings at once. Going down
by a name, going down along several, and going on from a path reported before
are all the same thing then: names are added at the end. Asked of a tree, such a
place is the entry with these names (`key_below_dir`).
-/
import PathGlob.Proofs.Lexical.Anchor
import PathGlob.Proofs.Tree.Entries
import PathGlob.Walk.Place

set_option autoImplicit false

namespace PathGlob

namespace Text

theorem joinName_append (base a b : Text) : joinName base (a ++ b) = joinName base a ++ b := by
  rw [joinName, joinName]
  split <;> simp

theorem joinName_open {base : Text} (hne : base ≠ []) (hopen : closed base = false) (name : Text) :
    joinName base name = base ++ '/' :: name := by
  rw [joinName, if_neg (by simp [hne, hopen])]
  simp

theorem joinName_ne_nil (base : Text) {name : Text} (hname : name ≠ []) :
    joinName base name ≠ [] := by
  rw [joinName]
  split <;> simp [hname]

theorem closed_joinName (base : Text) {name : Text} (hname : name ≠ []) :
    closed (joinName base name) = closed name := by
  rw [joinName]
  split
  · exact closed_append hname
  · exact closed_append hname

end Text

namespace Place

open Text (IsName)
open Lexical (IsBase IsDots)

/-- The place below a root that some names lead to. `lead` says whether paths
are told with a separator in front. -/
def below (root : Text) (lead : Bool) (entry : List Text) : Place :=
  ⟨if entry.isEmpty then root else Text.joinName root (spell '/' false entry),
    Text.written lead false entry⟩

variable {root : Text} {lead : Bool} {entry more : List Text}

theorem below_of_ne_nil (hne : entry ≠ []) :
    below root lead entry =
      ⟨Text.joinName root (spell '/' false entry), Text.written lead false entry⟩ := by
  rw [below, if_neg (by simpa using hne)]

theorem below_dir (hne : entry ≠ []) :
    (below root lead entry).dir = Text.joinName root (spell '/' false entry) := by
  rw [below_of_ne_nil hne]

theorem spell_open_append (hne : entry ≠ []) (hmore : more ≠ []) :
    spell '/' false (entry ++ more) = spell '/' false entry ++ '/' :: spell '/' false more := by
  rw [spell_append, List.isEmpty_eq_false_iff.2 hmore, Bool.not_false, Bool.or_true,
    spell_true hne]
  simp

theorem written_open_append (hne : entry ≠ []) (hmore : more ≠ []) :
    Text.written lead false (entry ++ more) =
      Text.written lead false entry ++ '/' :: spell '/' false more := by
  rw [Text.written, Text.written, spell_open_append hne hmore, List.append_assoc]

/-- Names written after one another are asked for and told as one path. -/
theorem child_below (hnames : ∀ n ∈ entry, IsName n) (hne : more ≠ []) :
    (below root lead entry).child (Text.join more) = below root lead (entry ++ more) := by
  rw [Text.join_eq_spell]
  by_cases hentry : entry = []
  · subst hentry
    rw [child, List.nil_append, below_of_ne_nil hne, below]
    cases lead <;> simp [Text.written, Text.joinName, Text.closed]
  · have hspell := @Text.spell_ne_nil false _ hentry hnames
    have hopen := @Text.closed_spell false _ hentry hnames
    have hpath := @Text.closed_written lead false _ hentry hnames
    have hpathNe : Text.written lead false entry ≠ [] := by simp [Text.written, hspell]
    have hdir := Text.joinName_ne_nil root hspell
    rw [← Text.closed_joinName root hspell] at hopen
    have hall : entry ++ more ≠ [] := by simp [hentry]
    rw [below_of_ne_nil hentry, below_of_ne_nil hall, child]
    dsimp only
    rw [Text.joinName_open hdir hopen, Text.joinName_open hpathNe hpath,
      spell_open_append hentry hne, Text.joinName_append, written_open_append hentry hne]

theorem child_name (hnames : ∀ n ∈ entry, IsName n) (name : Text) :
    (below root lead entry).child name = below root lead (entry ++ [name]) := by
  rw [← child_below hnames (by simp : [name] ≠ []), Text.join_eq_spell, spell_singleton]
  simp

/-- What a path told before adds to the path of a place above it. -/
theorem drop_path (hnames : ∀ n ∈ entry, IsName n) :
    (below root lead (entry ++ more)).path.drop (below root lead entry).path.length =
      if more.isEmpty then [] else Text.written (!entry.isEmpty) false more := by
  rw [below, below]
  by_cases hmore : more = []
  · subst hmore
    simp
  · rw [List.isEmpty_eq_false_iff.2 hmore, if_neg Bool.false_ne_true]
    by_cases hentry : entry = []
    · subst hentry
      cases lead <;> simp [Text.written]
    · have hlead : (!entry.isEmpty) = true := by simp [hentry]
      rw [written_open_append hentry hmore, List.drop_left, hlead]
      rfl

/-- Going on from a path told before. -/
theorem descend_below (hentry : ∀ n ∈ entry, IsName n) (hmore : ∀ n ∈ more, IsName n) :
    (below root lead entry).descend (below root lead (entry ++ more)).path =
      below root lead (entry ++ more) := by
  rw [descend, drop_path hentry]
  by_cases hne : more = []
  · subst hne
    rw [List.append_nil]
    rfl
  · have hspell := @Text.spell_ne_nil false _ hne hmore
    rw [List.isEmpty_eq_false_iff.2 hne, if_neg (by simp)]
    by_cases hnil : entry = []
    · subst hnil
      have hopen := @Text.opened_spell false more hmore
      rw [List.nil_append, List.isEmpty_nil, Bool.not_true, Text.written_false, Text.joinPath,
        if_neg (by simpa using hspell), hopen, if_neg (by simp), below_of_ne_nil hne]
      rfl
    · have hspellEntry := @Text.spell_ne_nil false _ hnil hentry
      have hclosed : Text.closed (below root lead entry).dir = false := by
        rw [below_dir hnil, Text.closed_joinName root hspellEntry]
        exact Text.closed_spell hnil hentry
      have hlead : (!entry.isEmpty) = true := by simp [hnil]
      have hwritten : Text.written (!entry.isEmpty) false more = '/' :: spell '/' false more := by
        rw [hlead]
        rfl
      have hopened : Text.opened ('/' :: spell '/' false more) = true := rfl
      have hall : entry ++ more ≠ [] := by simp [hnil]
      rw [hwritten, Text.joinPath, if_neg (by simp), hopened, if_pos rfl, hclosed, if_neg (by simp),
        below_dir hnil, ← Text.joinName_append, ← spell_open_append hnil hne,
        below_of_ne_nil hall]

theorem isRoot_below (hnames : ∀ n ∈ entry, IsName n) :
    (below root lead entry).isRoot = entry.isEmpty := by
  rw [isRoot, below]
  by_cases hentry : entry = []
  · subst hentry
    cases lead <;> rfl
  · obtain ⟨name, rest, rfl⟩ := List.exists_cons_of_ne_nil hentry
    have hopen := @Text.opened_written false false _ hnames
    have hnil := @Text.spell_ne_nil false _ (by simp) hnames
    rw [Text.written_false] at hopen
    cases lead with
    | false =>
      have hbare : spell '/' false (name :: rest) ≠ ['/'] := by
        intro h
        rw [h] at hopen
        exact absurd hopen (by decide)
      simp [Text.written, hnil, hbare]
    | true => simp [Text.written, hnil]

/-- Different names are told as different paths. -/
theorem path_injective {entry' : List Text} (hnames : ∀ n ∈ entry, IsName n)
    (hnames' : ∀ n ∈ entry', IsName n)
    (h : (below root lead entry).path = (below root lead entry').path) : entry = entry' := by
  have hread := congrArg Text.names h
  rwa [below, below, Text.names_written hnames, Text.names_written hnames'] at hread

/-- **Asked of a tree,** the place is the entry with the names that lead to it. -/
theorem key_below_dir (hroot : IsBase root) (hnames : ∀ n ∈ entry, IsName n)
    (hdots : ∀ name ∈ entry.head?, ¬ IsDots name) :
    PathTree.key (below root lead entry).dir = entry := by
  cases entry with
  | nil => exact PathTree.key_root hroot.all
  | cons name rest =>
    have hname := hdots name rfl
    rw [below_dir (by simp)]
    cases hclosed : Text.closed root with
    | false =>
      rw [Text.joinName_open hroot.ne_nil hclosed]
      exact PathTree.key_below hroot.all hnames hname
    | true =>
      -- The separator is the root's own.
      obtain ⟨front, rfl⟩ := Text.exists_of_closed hclosed
      rw [Text.joinName, hclosed, Bool.or_true, if_pos rfl, List.append_assoc, List.singleton_append]
      exact PathTree.key_below (fun d hd => hroot.all d (List.mem_append_left _ hd)) hnames hname

end Place

end PathGlob
