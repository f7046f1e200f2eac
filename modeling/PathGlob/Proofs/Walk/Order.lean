/-
The order in which a walk hands over paths.

The listings of a tree are in some order, by code points or any other. Paths are
compared component by component in this order, so that what is above comes first
(`Text.Before`), and paths are handed over in it (`glob_increasing`).

Visiting is depth first, so the places visited are in order, and so is what is
told of each. Going on from a place and from one further down can tell the same
path, and then not in order. But what the second tells the first has told before
(`told_below`), and a walk that can come to a path in two ways hands it over once.
So it is enough that of two paths told the second comes after the first, or had
been told with it (`Increasing.append`).
-/
import Mathlib.Data.List.Lex
import PathGlob.Proofs.Tree.Listings
import PathGlob.Proofs.Walk.Scope

set_option autoImplicit false

namespace PathGlob

open Text (IsName Under)
open Segment (Alternating)

variable {r : Text → Text → Prop}

namespace Text

/-! ## The order of paths -/

/-- The order of paths that compares their components from the front. -/
def Before (r : Text → Text → Prop) (path other : Text) : Prop :=
  List.Lex r (components path) (components other)

theorem components_append_sep (front rest : Text) :
    components (front ++ '/' :: rest) = components front ++ components rest :=
  List.splitOn_append_cons_self front rest

/-- What is joined on to a path has its components behind the same others. -/
theorem exists_stem (base : Text) :
    ∃ stem, ∀ rest, components (joinName base rest) = stem ++ components rest := by
  by_cases hnil : base = []
  · subst hnil
    exact ⟨[], fun rest => by simp [joinName]⟩
  cases hend : closed base with
  | false =>
    refine ⟨components base, fun rest => ?_⟩
    rw [joinName_open hnil hend, components_append_sep]
  | true =>
    obtain ⟨front, rfl⟩ := exists_of_closed hend
    refine ⟨components front, fun rest => ?_⟩
    rw [joinName, hend, Bool.or_true, if_pos rfl, List.append_assoc, List.singleton_append,
      components_append_sep]

variable {base name other m m' : Text} {stem : List Text}

/-- A path under a name has the name for a component. -/
theorem exists_components (hstem : ∀ rest, components (joinName base rest) = stem ++ components rest)
    (hname : IsName name) (h : Under (joinName base name) m) :
    ∃ more, components m = stem ++ name :: more := by
  have hsingle : components name = [name] := List.splitOn_eq_singleton hname.2
  rcases (ended_joinName base hname).under_iff.1 h with rfl | ⟨rest, -, rfl⟩
  · exact ⟨[], by rw [hstem, hsingle]⟩
  · exact ⟨components rest, by rw [← joinName_append, hstem, components_append_sep, hsingle]; rfl⟩

/-- Below two names in order everything is in order. -/
theorem before_of_names (hname : IsName name) (hother : IsName other) (hr : r name other)
    (h : Under (joinName base name) m) (h' : Under (joinName base other) m') : Before r m m' := by
  obtain ⟨stem, hstem⟩ := exists_stem base
  obtain ⟨more, hmore⟩ := exists_components hstem hname h
  obtain ⟨more', hmore'⟩ := exists_components hstem hother h'
  rw [Before, hmore, hmore']
  exact List.Lex.append_left r (.rel hr) stem

/-- What is above comes before what is below. -/
theorem Ended.before (h : Ended m) (hunder : Under m m') (hne : m' ≠ m) : Before r m m' := by
  obtain ⟨rest, -, rfl⟩ := (h.under_iff.1 hunder).resolve_left hne
  obtain ⟨first, others, hrest⟩ : ∃ first others, components rest = first :: others :=
    List.exists_cons_of_ne_nil (List.splitOn_ne_nil '/' rest)
  have hlex := List.Lex.append_left r (.nil : List.Lex r [] (first :: others)) (components m)
  rw [List.append_nil] at hlex
  rwa [Before, components_append_sep, hrest]

/-- The paths of names are in the order of the names. -/
theorem before_down {names names' : List Text} (h : List.Lex r names names') {path : Text}
    (hnames : ∀ name ∈ names, IsName name) (hnames' : ∀ name ∈ names', IsName name)
    (hended : names = [] → Ended path) : Before r (down path names) (down path names') := by
  induction h generalizing path with
  | @nil name rest =>
    have hne : ∀ n ∈ name :: rest, n ≠ [] := fun n hn => (hnames' n hn).1
    have hlonger := length_lt_down path (by simp) hne
    apply (hended rfl).before (under_down path hne)
    intro heq
    exact absurd (congrArg List.length heq) (Nat.ne_of_gt hlonger)
  | @cons name rest rest' _ ih =>
    rw [List.forall_mem_cons] at hnames hnames'
    exact ih hnames.2 hnames'.2 fun _ => ended_joinName path hnames.1
  | @rel name rest other rest' hr =>
    rw [List.forall_mem_cons] at hnames hnames'
    have hbelow := @under_down rest (joinName path name) fun n hn => (hnames.2 n hn).1
    have hbelow' := @under_down rest' (joinName path other) fun n hn => (hnames'.2 n hn).1
    exact before_of_names hnames.1 hnames'.1 hr hbelow hbelow'

end Text

/-! ## Lists in order -/

/-- The paths are in order as they are handed over. -/
def Increasing (r : Text → Text → Prop) (once : Bool) (told : List Text) : Prop :=
  (handed once [] told).Pairwise (Text.Before r)

section Increasing

variable {α : Type} {once : Bool} {told more : List Text}

theorem increasing_nil : Increasing r once [] := by
  cases once <;> exact .nil

theorem increasing_singleton (m : Text) : Increasing r once [m] := by
  cases once <;> exact List.pairwise_singleton _ _

/-- One list of paths after another: what is told in the second has been told in
the first or comes after it. -/
theorem Increasing.append (h : Increasing r once told) (h' : Increasing r once more)
    (hcross : ∀ m ∈ told, ∀ m' ∈ more, (once = true ∧ m' ∈ told) ∨ Text.Before r m m') :
    Increasing r once (told ++ more) := by
  rw [Increasing, handed_append, List.pairwise_append]
  refine ⟨h, h'.sublist handed_sublist, fun m hm m' hm' => ?_⟩
  obtain ⟨hmore, hnew⟩ := mem_handed.1 hm'
  refine (hcross m (mem_handed.1 hm).1 m' hmore).resolve_left fun ⟨honce, htold⟩ => ?_
  apply hnew honce
  rw [List.append_nil, List.mem_reverse]
  exact mem_handed.2 ⟨htold, by simp⟩

theorem increasing_flatMap {elements : List α} {told : α → List Text}
    (h : ∀ a ∈ elements, Increasing r once (told a))
    (hcross : elements.Pairwise fun a b => ∀ m ∈ told a, ∀ m' ∈ told b,
      (once = true ∧ m' ∈ told a) ∨ Text.Before r m m') :
    Increasing r once (elements.flatMap told) := by
  induction elements with
  | nil => exact increasing_nil
  | cons a rest ih =>
    rw [List.forall_mem_cons] at h
    rw [List.pairwise_cons] at hcross
    refine h.1.append (ih h.2 hcross.2) fun m hm m' hm' => ?_
    obtain ⟨b, hb, hm'⟩ := List.mem_flatMap.1 hm'
    exact hcross.1 b hb m hm m' hm'

end Increasing

/-! ## Listings in order -/

variable {tree : Tree} {once : Bool}

/-- Depth first means in order. -/
theorem Tree.Sorted.pairwise_visitsWithin (hsorted : tree.Sorted r) (depth : Nat) (place : Place) :
    (tree.visitsWithin depth place).Pairwise (List.Lex r) := by
  induction depth generalizing place with
  | zero => exact .nil
  | succ depth ih =>
    rw [visitsWithin, List.pairwise_flatMap]
    constructor
    · intro name _
      rw [List.pairwise_map, List.pairwise_cons]
      constructor
      · intro rest hrest
        obtain ⟨first, others, rfl⟩ :=
          List.exists_cons_of_ne_nil (Tree.ne_nil_of_mem_visitsWithin hrest)
        exact .cons .nil
      · exact (ih (place.child name)).imp fun h => .cons h
    · refine (hsorted place.dir).imp fun hr names hnames names' hnames' => ?_
      obtain ⟨rest, -, rfl⟩ := List.mem_map.1 hnames
      obtain ⟨rest', -, rfl⟩ := List.mem_map.1 hnames'
      exact .rel hr

/-- The paths are under two names in order. -/
def Text.Parted (r : Text → Text → Prop) (path other : Text) : Prop :=
  ∃ base name name', Text.IsName name ∧ Text.IsName name' ∧ r name name' ∧
    Under (Text.joinName base name) path ∧ Under (Text.joinName base name') other

theorem Text.Parted.before {path other m m' : Text} (h : Parted r path other) (hm : Under path m)
    (hm' : Under other m') : Before r m m' := by
  obtain ⟨base, name, name', hname, hname', hr, hunder, hunder'⟩ := h
  exact before_of_names hname hname' hr (hunder.trans hm) (hunder'.trans hm')

/-- A route reaches paths in order, and what is under them is in order too. -/
theorem Route.pairwise_reached (hnamed : tree.Named) (hsorted : tree.Sorted r) {route : Route}
    (h : route.Proper) (place : Place) :
    (route.reached tree place).Pairwise (Text.Parted r) := by
  induction route generalizing place with
  | here => exact List.pairwise_singleton _ _
  | nowhere => exact .nil
  | probe path next ih =>
    rw [reached]
    split
    · exact ih h.2 (place.child path)
    · exact .nil
  | choose mask next ih =>
    have hunder : ∀ name, ∀ path ∈ (if Mask.Fits mask name then next.reached tree (place.child name)
        else []), Under (Text.joinName place.path name) path := by
      intro name path hpath
      split at hpath
      · exact @under_reached tree hnamed next h (place.child name) path hpath
      · simp at hpath
    rw [reached, List.pairwise_flatMap]
    constructor
    · intro name _
      split
      · exact ih h (place.child name)
      · exact .nil
    · refine (List.pairwise_iff_forall_sublist.2 ?_)
      intro name name' hsub path hpath path' hpath'
      have hr := List.pairwise_iff_forall_sublist.1 (hsorted place.dir) hsub
      have hmem := hsub.subset
      exact ⟨place.path, name, name', hnamed _ name (hmem (by simp)), hnamed _ name' (hmem (by simp)),
        hr, hunder name path hpath, hunder name' path' hpath'⟩

namespace Expansion

/-! ## What is told is in order -/

theorem before_of_visits (hnamed : tree.Named) {place : Place} {names names' : List Text}
    (h : names ∈ tree.visits place) (h' : names' ∈ tree.visits place)
    (hlex : List.Lex r names names') :
    Text.Before r (place.down names).path (place.down names').path := by
  rw [Place.path_down, Place.path_down]
  exact Text.before_down hlex (hnamed.of_reaches (Tree.reaches_of_mem_visitsWithin h))
    (hnamed.of_reaches (Tree.reaches_of_mem_visitsWithin h'))
    fun hnil => absurd hnil (Tree.ne_nil_of_mem_visitsWithin h)

/-- One place visited after another is below it, or from two names in order on
they lead apart. -/
theorem below_or_parted (hnamed : tree.Named) {place : Place} {names names' : List Text}
    (hreach : tree.Reaches place names) (hreach' : tree.Reaches place names')
    (hlex : List.Lex r names names') :
    (∃ more, names' = names ++ more) ∨
      Text.Parted r (place.down names).path (place.down names').path := by
  induction hlex generalizing place with
  | nil => exact .inl ⟨_, rfl⟩
  | @cons name rest rest' _ ih =>
    refine (ih hreach.2 hreach'.2).imp ?_ id
    rintro ⟨more, rfl⟩
    exact ⟨more, rfl⟩
  | @rel name rest other rest' hr =>
    right
    exact ⟨place.path, name, other, hnamed _ name hreach.1, hnamed _ other hreach'.1, hr,
      under_place hnamed hreach.2, under_place hnamed hreach'.2⟩

theorem pairwise_visits (hsorted : tree.Sorted r) (place : Place) :
    (tree.visits place).Pairwise fun names names' =>
      names ∈ tree.visits place ∧ names' ∈ tree.visits place ∧ List.Lex r names names' := by
  refine List.pairwise_iff_forall_sublist.2 fun hsub => ?_
  exact ⟨hsub.subset (by simp), hsub.subset (by simp),
    List.pairwise_iff_forall_sublist.1 (hsorted.pairwise_visitsWithin _ place) hsub⟩

section Told

variable (hnamed : tree.Named) (hsorted : tree.Sorted r)

include hnamed hsorted

/-- The ends below a place are told in order. -/
theorem increasing_wild (stars : Text) (place : Place) :
    Increasing r once (told tree [.wild stars] place) := by
  rw [told]
  refine increasing_flatMap (fun names _ => ?_) (List.pairwise_cons.2 ⟨?_, ?_⟩)
  · rw [endAt]
    split
    · split
      · exact increasing_nil
      · exact increasing_singleton _
    · exact increasing_nil
  · -- At a place with nothing inside nothing else is visited.
    intro names hnames m hm
    have hlist := (mem_endAt hm).1
    obtain ⟨name, rest, rfl⟩ := List.exists_cons_of_ne_nil (Tree.ne_nil_of_mem_visitsWithin hnames)
    have hname := (Tree.reaches_of_mem_visitsWithin hnames).1
    rw [Tree.inside, show tree.list place.dir = .ok [] from hlist] at hname
    simp [Except.toOption] at hname
  · refine (pairwise_visits hsorted place).imp fun h m hm m' hm' => .inr ?_
    obtain ⟨-, rfl⟩ := mem_endAt hm
    obtain ⟨-, rfl⟩ := mem_endAt hm'
    exact before_of_visits hnamed h.1 h.2.1 h.2.2

/-- What is told from the places that are hit is in order. -/
theorem increasing_literal (hfinite : tree.Finite) (stars text : Text) (width : Nat)
    {rest : List Segment} (hrest : rest = [] ∨ (Alternating rest ∧ once = true))
    (h : ∀ target, Increasing r once (after tree rest target)) (place : Place) :
    Increasing r once (told tree (.wild stars :: .literal text width :: rest) place) := by
  have hunder := fun target => @under_after tree hnamed rest (hrest.imp_right And.left) target
  rw [told_literal]
  refine increasing_flatMap (fun names _ => ?_) ?_
  · split
    · exact h (place.down names)
    · exact increasing_nil
  · refine (pairwise_visits hsorted place).imp fun {names names'} hvisits m hm m' hm' => ?_
    obtain ⟨hvisit, hvisit', hlex⟩ := hvisits
    have hreach := Tree.reaches_of_mem_visitsWithin hvisit
    have hreach' := Tree.reaches_of_mem_visitsWithin hvisit'
    rw [List.mem_ite_nil_right] at hm hm'
    rw [if_pos hm.1]
    rcases below_or_parted hnamed hreach hreach' hlex with ⟨more, rfl⟩ | hparted
    · rcases hrest with rfl | ⟨hrest, honce⟩
      · right
        obtain rfl := List.mem_singleton.1 hm.2
        obtain rfl := List.mem_singleton.1 hm'.2
        exact before_of_visits hnamed hvisit hvisit' hlex
      · -- Below a hit nothing new is found.
        left
        refine ⟨honce, ?_⟩
        rw [after_alternating hrest] at hm' ⊢
        rw [Place.down_append] at hm'
        exact told_below hfinite hrest (Tree.reaches_append.1 hreach').2 m' hm'.2
    · right
      exact hparted.before (hunder _ m hm.2) (hunder _ m' hm'.2)

/-- **From a wildcard on** everything is told in order, where with several
wildcards each path is handed over once. -/
theorem increasing_told (hfinite : tree.Finite) {segments : List Segment} (h : Alternating segments)
    (honce : repeats segments = true → once = true) (place : Place) :
    Increasing r once (told tree segments place) := by
  induction h generalizing place with
  | wild stars => exact increasing_wild hnamed hsorted stars place
  | literal stars text width =>
    exact increasing_literal hnamed hsorted hfinite stars text width (.inl rfl)
      (fun target => increasing_singleton target.path) place
  | more stars text width hrest ih =>
    -- Two wildcards are enough for a path to be found again.
    have hmany : once = true := by
      apply honce
      obtain ⟨stars', others, rfl⟩ := hrest.head
      simp [repeats, Segment.isWild]
    apply increasing_literal hnamed hsorted hfinite stars text width (.inr ⟨hrest, hmany⟩)
    intro target
    rw [after_alternating hrest]
    exact ih (fun _ => hmany) target

/-- The segments of a pattern tell paths in order. -/
theorem increasing_ofPattern (hfinite : tree.Finite) (pattern : Text) (place : Place) :
    Increasing r (repeats (Segment.ofPattern pattern))
      (told tree (Segment.ofPattern pattern) place) := by
  rcases Segment.ofPattern_cases pattern with h | h | ⟨text, width, rest, h, hrest⟩
  · rw [h]
    exact increasing_nil
  · exact increasing_told hnamed hsorted hfinite h id place
  · rw [h]
    rcases hrest with rfl | hrest
    · have hpairs := Route.pairwise_reached hnamed hsorted (Route.proper_ofText text) place
      rw [told, ← List.flatMap_singleton' ((Route.ofText text).reached tree place)]
      refine increasing_flatMap (fun path _ => increasing_singleton path) ?_
      refine hpairs.imp fun hparted m hm m' hm' => .inr ?_
      obtain rfl := List.mem_singleton.1 hm
      obtain rfl := List.mem_singleton.1 hm'
      exact hparted.before (.refl m) (.refl m')
    · have hpairs :=
        Route.pairwise_reached hnamed hsorted (Route.proper_ofText (Text.trimmed text)) place
      have honce : repeats rest = true → repeats (.literal text width :: rest) = true := id
      rw [told_head hrest.ne_nil]
      refine increasing_flatMap (fun path _ => ?_) ?_
      · exact increasing_told hnamed hsorted hfinite hrest honce (place.descend path)
      · refine hpairs.imp fun hparted m hm m' hm' => .inr ?_
        exact hparted.before (under_told hnamed hrest _ m hm) (under_told hnamed hrest _ m' hm')

end Told

end Expansion

/-! ## The whole walk -/

/-- **The order of matches.** In a tree of finite depth with listings of names in
some order, the paths handed over to a listener that refuses nothing are in this
order, component by component, and none is handed over twice. -/
theorem glob_increasing {tree : Tree} {listener : Listener} (hnamed : tree.Named)
    (hsorted : tree.Sorted r) (hfinite : tree.Finite) (hwilling : listener.Willing)
    (pattern root : Text) :
    (tree.glob listener pattern root).found.Pairwise (Text.Before r) ∧
      ((∀ name, ¬ r name name) → (tree.glob listener pattern root).found.Nodup) := by
  have hpairs : (tree.glob listener pattern root).found.Pairwise (Text.Before r) := by
    cases hread : Segment.read (Anchored.of pattern root).pattern with
    | error e =>
      rw [found_of_error hwilling hread]
      exact .nil
    | ok segments =>
      rw [found_of_read hnamed hfinite hwilling hread]
      obtain ⟨rfl, -⟩ := Segment.read_eq_ok.1 hread
      exact Expansion.increasing_ofPattern hnamed hsorted hfinite _ _
  refine ⟨hpairs, fun hirrefl => hpairs.imp fun hbefore heq => ?_⟩
  subst heq
  exact List.lex_irrefl hirrefl _ hbefore

theorem glob_increasing_nested :
    ((ListingTable.tree ⟨[("./".toList, ["a".toList, "b".toList]), ("./a".toList, ["a".toList])],
        []⟩).glob (fun _ _ => none) "**/a/**".toList []).found.Pairwise (Text.Before (· < ·)) ∧
      ((∀ name : Text, ¬ name < name) →
        ((ListingTable.tree ⟨[("./".toList, ["a".toList, "b".toList]),
          ("./a".toList, ["a".toList])], []⟩).glob (fun _ _ => none) "**/a/**".toList []).found.Nodup) := by
  have hnamed : (ListingTable.tree ⟨[("./".toList, ["a".toList, "b".toList]),
      ("./a".toList, ["a".toList])], []⟩).Named := ListingTable.tree_named (by decide)
  exact glob_increasing hnamed (ListingTable.tree_sorted (by decide))
    (ListingTable.tree_finite hnamed) (fun _ _ => rfl) _ _

end PathGlob
