/-
The places below a place of any tree, and their paths.

Going down by names adds them at the end of a path, and nothing that stands there
changes. So a path says which place it is under (`Under`), and two names in one
listing never lead to the same path (`name_eq_of_under`).

A tree that is no more than its answers has no entries to speak of. What it has
is listings, and what can be reached from a place is what one listing after the
other leads to (`Reaches`). `visits` are the names that lead there, depth first
and in the order of the listings. All walks that go down come to these places in
this order, and where the tree is not deeper than it says they come to all of
them (`mem_visits`).
-/
import PathGlob.Proofs.Mask.Components
import PathGlob.Proofs.Walk.Place
import PathGlob.Tree.Basic

set_option autoImplicit false

namespace PathGlob

namespace Text

/-! ## Paths -/

/-- The path or one that goes on from it. -/
def Under (above path : Text) : Prop :=
  path = above ∨ ∃ rest, rest ≠ [] ∧ path = joinName above rest

/-- A path that a name can only be joined to by a separator. -/
def Ended (path : Text) : Prop := path ≠ [] ∧ closed path = false

/-- The path with more names. -/
def down (path : Text) (names : List Text) : Text := names.foldl joinName path

variable {above path name : Text} {names : List Text}

theorem Under.refl (path : Text) : Under path path := .inl rfl

theorem under_joinName (above : Text) {rest : Text} (hrest : rest ≠ []) :
    Under above (joinName above rest) := .inr ⟨rest, hrest, rfl⟩

theorem joinName_eq (base rest : Text) : joinName base rest = joinName base [] ++ rest :=
  joinName_append base [] rest

theorem Under.trans {below : Text} (h : Under above path) (h' : Under path below) :
    Under above below := by
  rcases h with rfl | ⟨rest, hrest, rfl⟩
  · exact h'
  · rcases h' with rfl | ⟨more, -, rfl⟩
    · exact under_joinName above hrest
    · -- What is joined on is the rest of the text, with a separator or without.
      obtain ⟨tail, htail⟩ : ∃ tail, joinName (joinName above rest) more =
          joinName above rest ++ tail := by
        rw [joinName.eq_1 (joinName above rest)]
        split
        · exact ⟨more, rfl⟩
        · exact ⟨['/'] ++ more, by rw [List.append_assoc]⟩
      rw [htail, ← joinName_append]
      exact under_joinName above (List.append_ne_nil_of_left_ne_nil hrest tail)

theorem ended_joinName (above : Text) (hname : IsName name) : Ended (joinName above name) :=
  ⟨joinName_ne_nil above hname.1, by rw [closed_joinName above hname.1, closed_name hname]⟩

/-- Under a path with an end there is itself, and what a separator leads on to. -/
theorem Ended.under_iff (h : Ended above) :
    Under above path ↔ path = above ∨ ∃ rest, rest ≠ [] ∧ path = above ++ '/' :: rest := by
  refine or_congr_right (exists_congr fun rest => and_congr_right fun _ => ?_)
  rw [joinName_open h.1 h.2]

/-- Different names lead to different paths. -/
theorem name_eq_of_under {other : Text} (hname : IsName name) (hother : IsName other)
    (h : Under (joinName above name) path) (h' : Under (joinName above other) path) :
    name = other := by
  have hcut : ∀ {n : Text}, IsName n → Under (joinName above n) path →
      path = joinName above [] ++ n ∨ ∃ rest, path = joinName above [] ++ (n ++ '/' :: rest) := by
    intro n hn hunder
    rcases (ended_joinName above hn).under_iff.1 hunder with rfl | ⟨rest, -, rfl⟩
    · exact .inl (joinName_eq above n)
    · refine .inr ⟨rest, ?_⟩
      rw [joinName_eq, List.append_assoc]
  rcases hcut hname h with rfl | ⟨rest, rfl⟩
  · rcases hcut hother h' with heq | ⟨rest, heq⟩
    · exact List.append_cancel_left heq
    · rw [List.append_cancel_left heq] at hname
      exact absurd (by simp) hname.2
  · rcases hcut hother h' with heq | ⟨rest', heq⟩
    · rw [← List.append_cancel_left heq] at hother
      exact absurd (by simp) hother.2
    · exact (Mask.append_sep_inj hname.2 hother.2 (List.append_cancel_left heq)).1

theorem under_down (path : Text) (hnames : ∀ name ∈ names, name ≠ []) :
    Under path (down path names) := by
  induction names generalizing path with
  | nil => exact .refl path
  | cons name rest ih =>
    obtain ⟨hname, hrest⟩ := List.forall_mem_cons.1 hnames
    exact (under_joinName path hname).trans (ih _ hrest)

theorem length_lt_joinName (path : Text) (hname : name ≠ []) :
    path.length < (joinName path name).length := by
  have hpos := List.length_pos_iff.2 hname
  rw [joinName]
  split
  · rw [List.length_append]
    omega
  · rw [List.length_append, List.length_append, List.length_singleton]
    omega

/-- Going down makes a path longer. -/
theorem length_lt_down (path : Text) (hne : names ≠ []) (hnames : ∀ name ∈ names, name ≠ []) :
    path.length < (down path names).length := by
  induction names generalizing path with
  | nil => exact absurd rfl hne
  | cons name rest ih =>
    obtain ⟨hname, hrest⟩ := List.forall_mem_cons.1 hnames
    have hfirst := length_lt_joinName path hname
    by_cases hnil : rest = []
    · subst hnil
      exact hfirst
    · exact hfirst.trans (ih (joinName path name) hnil hrest)

end Text

namespace Place

/-- The place that some names lead to. -/
def down (place : Place) (names : List Text) : Place := names.foldl child place

theorem down_append (place : Place) (names more : List Text) :
    place.down (names ++ more) = (place.down names).down more := List.foldl_append

theorem path_down (place : Place) (names : List Text) :
    (place.down names).path = Text.down place.path names := by
  induction names generalizing place with
  | nil => rfl
  | cons name rest ih => exact ih (place.child name)

end Place

namespace Tree

/-! ## What can be reached -/

/-- The names directly inside a path; none where the tree has no answer. -/
def inside (tree : Tree) (dir : Text) : List Text := (tree.list dir).toOption.getD []

/-- The listings of a tree hold names. -/
def Named (tree : Tree) : Prop := ∀ dir, ∀ name ∈ tree.inside dir, Text.IsName name

/-- The listings of a tree are in order. -/
def Sorted (r : Text → Text → Prop) (tree : Tree) : Prop := ∀ dir, (tree.inside dir).Pairwise r

/-- So many listings, one below the other, come to an end below a path. -/
def EndsWithin (tree : Tree) : Nat → Text → Prop
  | 0, _ => False
  | depth + 1, dir => ∀ name ∈ tree.inside dir, EndsWithin tree depth (Text.joinName dir name)

/-- The tree is nowhere deeper than it says. -/
def Finite (tree : Tree) : Prop := ∀ dir, tree.EndsWithin tree.depth dir

/-- Going down by names, each of which is in the listing of the place before. -/
def Reaches (tree : Tree) : Place → List Text → Prop
  | _, [] => True
  | place, name :: rest => name ∈ tree.inside place.dir ∧ Reaches tree (place.child name) rest

/-- The names that lead from a place to those below it, depth first and in the
order of the listings. -/
def visitsWithin (tree : Tree) : Nat → Place → List (List Text)
  | 0, _ => []
  | depth + 1, place => (tree.inside place.dir).flatMap fun name =>
    ([] :: visitsWithin tree depth (place.child name)).map (name :: ·)

/-- The names that lead to the places below a place. -/
def visits (tree : Tree) (place : Place) : List (List Text) := tree.visitsWithin tree.depth place

variable {tree : Tree} {place : Place} {names more : List Text}

theorem reaches_append :
    tree.Reaches place (names ++ more) ↔
      tree.Reaches place names ∧ tree.Reaches (place.down names) more := by
  induction names generalizing place with
  | nil => exact (and_iff_right trivial).symm
  | cons name rest ih =>
    rw [List.cons_append, Reaches, Reaches, ih, and_assoc]
    rfl

theorem Named.of_reaches (hnamed : tree.Named) (h : tree.Reaches place names) :
    ∀ name ∈ names, Text.IsName name := by
  induction names generalizing place with
  | nil => simp
  | cons name rest ih => exact List.forall_mem_cons.2 ⟨hnamed _ name h.1, ih h.2⟩

theorem ne_nil_of_mem_visitsWithin {depth : Nat} (h : names ∈ tree.visitsWithin depth place) :
    names ≠ [] := by
  cases depth with
  | zero => simp [visitsWithin] at h
  | succ depth =>
    obtain ⟨name, -, h⟩ := List.mem_flatMap.1 h
    obtain ⟨rest, -, rfl⟩ := List.mem_map.1 h
    simp

theorem reaches_of_mem_visitsWithin {depth : Nat} (h : names ∈ tree.visitsWithin depth place) :
    tree.Reaches place names := by
  induction depth generalizing place names with
  | zero => simp [visitsWithin] at h
  | succ depth ih =>
    obtain ⟨name, hname, h⟩ := List.mem_flatMap.1 h
    obtain ⟨rest, hrest, rfl⟩ := List.mem_map.1 h
    rcases List.mem_cons.1 hrest with rfl | hrest
    · exact ⟨hname, trivial⟩
    · exact ⟨hname, ih hrest⟩

theorem mem_visitsWithin {depth : Nat} (hends : tree.EndsWithin depth place.dir)
    (hne : names ≠ []) (h : tree.Reaches place names) : names ∈ tree.visitsWithin depth place := by
  induction depth generalizing place names with
  | zero => exact absurd hends id
  | succ depth ih =>
    obtain ⟨name, rest, rfl⟩ := List.exists_cons_of_ne_nil hne
    refine List.mem_flatMap.2 ⟨name, h.1, List.mem_map.2 ⟨rest, ?_, rfl⟩⟩
    by_cases hnil : rest = []
    · subst hnil
      exact List.mem_cons_self
    · exact List.mem_cons_of_mem _ (ih (hends name h.1) hnil h.2)

/-- **Every place below is visited** where the tree is not deeper than it says. -/
theorem Finite.mem_visits (hfinite : tree.Finite) :
    names ∈ tree.visits place ↔ names ≠ [] ∧ tree.Reaches place names :=
  ⟨fun h => ⟨ne_nil_of_mem_visitsWithin h, reaches_of_mem_visitsWithin h⟩,
    fun h => mem_visitsWithin (hfinite place.dir) h.1 h.2⟩

theorem flatMap_visitsWithin {α : Type} (depth : Nat) (place : Place) (f : List Text → List α) :
    (tree.visitsWithin (depth + 1) place).flatMap f = (tree.inside place.dir).flatMap fun name =>
      f [name] ++ (tree.visitsWithin depth (place.child name)).flatMap fun rest => f (name :: rest) := by
  rw [visitsWithin, List.flatMap_assoc]
  congr 1
  funext name
  rw [List.map_cons, List.flatMap_cons, List.flatMap_map]

end Tree

end PathGlob
