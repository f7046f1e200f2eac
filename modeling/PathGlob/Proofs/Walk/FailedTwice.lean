/-
Which paths a run tells to have failed more than once.

A route asks about a path once, and paths that it reaches or that fail on it lead
apart (`Route.pairwise_stops`). A sweep lists every place below once. So a path can
fail again in one way only: where the literal behind a wildcard fits and the walk
goes on from there, the segments left list everything below once more, and then the
sweep itself goes on and does the same. Nothing that failed is remembered, as a
match that was told is.

What fails at or below such a place is told again, and nothing else is
(`glob_failed_once`).
-/
import Mathlib
import PathGlob.Proofs.Walk.Order
import PathGlob.Proofs.Walk.Thinning
import PathGlob.Proofs.Walk.Veto
import PathGlob.Walk.Listener

set_option autoImplicit false

namespace PathGlob

open Text (IsName Under)
open Segment (Alternating)

/-! ## Lists -/

/-- What comes from two elements, or from one in two ways, comes twice. -/
theorem not_nodup_flatMap {α β : Type} {elements : List α} {f g : α → List β} {a b : α} {x : β}
    (ha : a ∈ elements) (hb : b ∈ elements) (hx : x ∈ f a) (hx' : x ∈ g b) :
    ¬ (elements.flatMap fun a => f a ++ g a).Nodup := by
  intro hnodup
  rw [← (List.flatMap_append_perm elements f g).nodup_iff, List.nodup_append] at hnodup
  exact hnodup.2.2 x (List.mem_flatMap.2 ⟨a, ha, hx⟩) x (List.mem_flatMap.2 ⟨b, hb, hx'⟩) rfl

/-! ## Paths that lead apart -/

namespace Text

variable {path other m m' : Text}

theorem Before.ne (h : Before (· ≠ ·) m m') : m ≠ m' := by
  rintro rfl
  exact List.lex_irrefl (fun _ hne => hne rfl) _ h

theorem Parted.symm (h : Parted (· ≠ ·) path other) : Parted (· ≠ ·) other path := by
  obtain ⟨base, name, name', hname, hname', hne, hunder, hunder'⟩ := h
  exact ⟨base, name', name, hname', hname, hne.symm, hunder', hunder⟩

theorem Parted.ne (h : Parted (· ≠ ·) path other) (hm : Under path m) (hm' : Under other m') :
    m ≠ m' := (h.before hm hm').ne

end Text

variable {tree : Tree}

namespace Route

theorem under_failed (hnamed : tree.Named) {route : Route} (h : route.Proper) (place : Place) :
    ∀ path ∈ route.failed tree place, Under place.path path := by
  induction route generalizing place with
  | here => simp [failed]
  | nowhere => simp [failed]
  | probe path next ih =>
    intro other hother
    rw [failed, List.mem_append, Place.mem_failure, List.mem_ite_nil_right] at hother
    have hchild := Text.under_joinName place.path h.1
    rcases hother with ⟨rfl, -⟩ | ⟨-, hother⟩
    · exact hchild
    · exact hchild.trans (ih h.2 (place.child path) other hother)
  | choose mask next ih =>
    intro other hother
    rw [failed, List.mem_append, Place.mem_failure, List.mem_flatMap] at hother
    rcases hother with ⟨rfl, -⟩ | ⟨name, hname, hother⟩
    · exact .refl place.path
    · rw [List.mem_ite_nil_right] at hother
      have hchild := Text.under_joinName place.path (hnamed _ name hname).1
      exact hchild.trans (ih h (place.child name) other hother.2)

/-- The paths that fail on a route and those it reaches lead apart. -/
theorem pairwise_stops (hnamed : tree.Named) (hsorted : tree.Sorted (· ≠ ·)) {route : Route}
    (h : route.Proper) (place : Place) :
    (route.failed tree place ++ route.reached tree place).Pairwise (Text.Parted (· ≠ ·)) := by
  induction route generalizing place with
  | here => exact List.pairwise_singleton _ _
  | nowhere => exact .nil
  | probe path next ih =>
    rw [failed, reached]
    -- A path that fails is not reached.
    cases tree.probe (place.child path).dir with
    | error fault => exact List.pairwise_singleton _ _
    | ok there =>
      cases there with
      | false => exact .nil
      | true => exact ih h.2 (place.child path)
  | choose mask next ih =>
    rw [failed, reached, Tree.inside]
    have hdistinct := hsorted place.dir
    have hnames := hnamed place.dir
    rw [Tree.inside] at hdistinct hnames
    cases hlist : tree.list place.dir with
    | error fault => exact List.pairwise_singleton _ _
    | ok names =>
      rw [hlist] at hdistinct hnames
      have hnext : next.Proper := h
      have hunder : ∀ name ∈ names, ∀ path ∈
          (if Mask.Fits mask name then next.failed tree (place.child name) else []) ++
            (if Mask.Fits mask name then next.reached tree (place.child name) else []),
          Under (Text.joinName place.path name) path := by
        intro name hname path hpath
        rw [List.mem_append, List.mem_ite_nil_right, List.mem_ite_nil_right] at hpath
        rcases hpath with hpath | hpath
        · exact under_failed hnamed hnext (place.child name) path hpath.2
        · exact under_reached hnamed hnext (place.child name) path hpath.2
      -- Leading apart does not depend on the order, so what fails and what is reached
      -- may be taken together name by name. Under two names the paths part there.
      change (names.flatMap _ ++ names.flatMap _).Pairwise _
      rw [(List.flatMap_append_perm names _ _).pairwise_iff fun h => h.symm, List.pairwise_flatMap]
      constructor
      · intro name _
        by_cases hfits : Mask.Fits mask name
        · rw [if_pos hfits, if_pos hfits]
          exact ih h (place.child name)
        · rw [if_neg hfits, if_neg hfits]
          exact .nil
      · refine (List.Pairwise.and_mem.1 hdistinct).imp ?_
        intro name name' hapart path hpath path' hpath'
        obtain ⟨hmem, hmem', hne⟩ := hapart
        exact ⟨place.path, name, name', hnames name hmem, hnames name' hmem', hne,
          hunder name hmem path hpath, hunder name' hmem' path' hpath'⟩

end Route

/-! ## From a wildcard on -/

/-- Some listing fails at the place or below it. -/
def Tree.FailsWithin (tree : Tree) (place : Place) : Prop :=
  ∃ names fault, tree.Reaches place names ∧ tree.list (place.down names).dir = .error fault

namespace Expansion

variable {segments rest : List Segment} {place : Place} {names : List Text}

/-- Somewhere the literal behind the first wildcard fits, the walk goes on from there
with the segments behind it, and a listing fails there or below. -/
def FailsTwice (tree : Tree) : List Segment → Place → Prop
  | .literal text _ :: rest, place =>
    ∃ path ∈ (Route.ofText (Text.trimmed text)).reached tree place,
      FailsTwice tree rest (place.descend path)
  | .wild _ :: .literal text width :: rest, place => rest ≠ [] ∧
    ∃ names, tree.Reaches place names ∧ FitsLast (Text.trimmed text) (max width 1) names ∧
      tree.FailsWithin (place.down names)
  | _, _ => False

/-- The place, or one that is visited below it. -/
theorem mem_visited (hfinite : tree.Finite) (hreach : tree.Reaches place names) :
    names ∈ [] :: tree.visits place := by
  by_cases hne : names = []
  · rw [hne]
    exact List.mem_cons_self
  · exact List.mem_cons_of_mem _ (hfinite.mem_visits.2 ⟨hne, hreach⟩)

theorem reaches_of_mem_visited (h : names ∈ [] :: tree.visits place) : tree.Reaches place names := by
  rcases List.mem_cons.1 h with rfl | h
  · trivial
  · exact Tree.reaches_of_mem_visitsWithin h

theorem failedAt_eq_nil (h : ¬ tree.FailsWithin place) (hreach : tree.Reaches place names) :
    failedAt tree (place.down names) = [] := by
  rw [List.eq_nil_iff_forall_not_mem]
  intro path hpath
  obtain ⟨-, fault, hfault⟩ := Place.mem_failure.1 hpath
  exact h ⟨names, fault, hreach, hfault⟩

/-- Where nothing fails further down nothing fails from there. -/
theorem not_failsWithin_down (h : ¬ tree.FailsWithin place) (hreach : tree.Reaches place names) :
    ¬ tree.FailsWithin (place.down names) := by
  rintro ⟨more, fault, hmore, hfault⟩
  rw [← Place.down_append] at hfault
  exact h ⟨names ++ more, fault, Tree.reaches_append.2 ⟨hreach, hmore⟩, hfault⟩

/-- A sweep that goes on to no failure lists everything once. -/
theorem failed_literal {stars text : Text} {width : Nat}
    (h : ∀ names ∈ tree.visits place, FitsLast (Text.trimmed text) (max width 1) names →
      failed tree rest (place.down names) = []) :
    failed tree (.wild stars :: .literal text width :: rest) place =
      ([] :: tree.visits place).flatMap fun names => failedAt tree (place.down names) := by
  rw [failed, List.flatMap_cons]
  congr 1
  refine List.flatMap_congr fun names hnames => ?_
  rw [List.nil_append]
  split
  · rename_i hfits
    rw [h names hnames hfits, List.nil_append]
  · exact List.nil_append _

/-- Where no listing fails nothing does. -/
theorem failed_eq_nil (h : Alternating segments) (hnone : ¬ tree.FailsWithin place) :
    failed tree segments place = [] := by
  have hvisited : ∀ place, ¬ tree.FailsWithin place →
      (([] :: tree.visits place).flatMap fun names => failedAt tree (place.down names)) = [] := by
    intro place hnone
    rw [List.flatMap_eq_nil_iff]
    exact fun names hnames => failedAt_eq_nil hnone (reaches_of_mem_visited hnames)
  induction h generalizing place with
  | wild stars =>
    rw [failed]
    exact hvisited place hnone
  | literal stars text width =>
    rw [failed_literal fun names _ _ => by rw [failed]]
    exact hvisited place hnone
  | more stars text width hrest ih =>
    rw [failed_literal fun names hnames _ =>
      ih (not_failsWithin_down hnone (Tree.reaches_of_mem_visitsWithin hnames))]
    exact hvisited place hnone

/-- A listing that fails is told, whatever the segments. -/
theorem mem_failed (hfinite : tree.Finite) (h : Alternating segments) {fault : IoFault}
    (hreach : tree.Reaches place names) (hfault : tree.list (place.down names).dir = .error fault) :
    (place.down names).path ∈ failed tree segments place := by
  have hvisit := mem_visited hfinite hreach
  have hmem : (place.down names).path ∈ failedAt tree (place.down names) :=
    Place.mem_failure.2 ⟨rfl, fault, hfault⟩
  have hliteral : ∀ {stars text : Text} {width : Nat} {rest : List Segment},
      (place.down names).path ∈ failed tree (.wild stars :: .literal text width :: rest) place := by
    intro stars text width rest
    rw [failed, List.mem_append]
    rcases List.mem_cons.1 hvisit with rfl | hvisit
    · exact .inl hmem
    · exact .inr (List.mem_flatMap.2 ⟨names, hvisit, List.mem_append_right _ hmem⟩)
  cases h with
  | wild stars =>
    rw [failed]
    exact List.mem_flatMap.2 ⟨names, hvisit, hmem⟩
  | literal stars text width => exact hliteral
  | more stars text width hrest => exact hliteral

theorem path_of_mem_failedAt {path : Text} (h : path ∈ failedAt tree place) : path = place.path :=
  (Place.mem_failure.1 h).1

theorem under_failedAt (hnamed : tree.Named) (hreach : tree.Reaches place names) :
    ∀ path ∈ failedAt tree (place.down names), Under place.path path := by
  intro path hpath
  rw [path_of_mem_failedAt hpath]
  exact under_place hnamed hreach

/-- What fails from a place on is under it. -/
theorem under_failed (hnamed : tree.Named) (h : Alternating segments) (place : Place) :
    ∀ path ∈ failed tree segments place, Under place.path path := by
  have hliteral : ∀ {stars text : Text} {width : Nat} {rest : List Segment} (place : Place),
      (∀ target, ∀ path ∈ failed tree rest target, Under target.path path) →
      ∀ path ∈ failed tree (.wild stars :: .literal text width :: rest) place,
        Under place.path path := by
    intro stars text width rest place hrest path hpath
    rw [failed, List.mem_append] at hpath
    rcases hpath with hpath | hpath
    · rw [path_of_mem_failedAt hpath]
      exact .refl place.path
    · obtain ⟨names, hnames, hpath⟩ := List.mem_flatMap.1 hpath
      have hreach := Tree.reaches_of_mem_visitsWithin hnames
      rw [List.mem_append, List.mem_ite_nil_right] at hpath
      rcases hpath with ⟨-, hpath⟩ | hpath
      · exact (under_place hnamed hreach).trans (hrest _ path hpath)
      · exact under_failedAt hnamed hreach path hpath
  induction h generalizing place with
  | wild stars =>
    intro path hpath
    rw [failed] at hpath
    obtain ⟨names, hnames, hpath⟩ := List.mem_flatMap.1 hpath
    exact under_failedAt hnamed (reaches_of_mem_visited hnames) path hpath
  | literal stars text width =>
    apply hliteral place
    simp [failed]
  | more stars text width hrest ih => exact hliteral place ih

/-- Listing everything once tells each failure once. -/
theorem nodup_visited (hnamed : tree.Named) (hsorted : tree.Sorted (· ≠ ·)) (place : Place) :
    (([] :: tree.visits place).flatMap fun names => failedAt tree (place.down names)).Nodup := by
  have hcross : ∀ {names names' : List Text},
      (place.down names).path ≠ (place.down names').path →
      ∀ path ∈ failedAt tree (place.down names), ∀ path' ∈ failedAt tree (place.down names'),
        path ≠ path' := by
    intro names names' hne path hpath path' hpath'
    rw [path_of_mem_failedAt hpath, path_of_mem_failedAt hpath']
    exact hne
  rw [List.Nodup, List.pairwise_flatMap, List.pairwise_cons]
  refine ⟨?_, ?_, ?_⟩
  · intro names _
    rw [failedAt]
    cases tree.list (place.down names).dir with
    | ok names => exact .nil
    | error fault => exact List.pairwise_singleton _ _
  · -- The place itself has the shortest path.
    intro names hnames
    apply hcross
    have hvisit := hnamed.of_reaches (Tree.reaches_of_mem_visitsWithin hnames)
    have hlonger := Text.length_lt_down place.path (Tree.ne_nil_of_mem_visitsWithin hnames)
      fun name hname => (hvisit name hname).1
    rw [← Place.path_down] at hlonger
    intro heq
    exact absurd (congrArg List.length heq) (Nat.ne_of_lt hlonger)
  · refine (pairwise_visits hsorted place).imp ?_
    intro names names' hvisits
    obtain ⟨hvisit, hvisit', hlex⟩ := hvisits
    exact hcross (before_of_visits hnamed hvisit hvisit' hlex).ne

/-- **From a wildcard on** nothing fails twice, unless the walk goes on to it. -/
theorem nodup_failed (hnamed : tree.Named) (hsorted : tree.Sorted (· ≠ ·))
    (h : Alternating segments) (hnot : ¬ FailsTwice tree segments place) :
    (failed tree segments place).Nodup := by
  cases h with
  | wild stars =>
    rw [failed]
    exact nodup_visited hnamed hsorted place
  | literal stars text width =>
    rw [failed_literal fun names _ _ => by rw [failed]]
    exact nodup_visited hnamed hsorted place
  | more stars text width hrest =>
    rw [failed_literal fun names hnames hfits => failed_eq_nil hrest fun hfails => hnot ?_]
    · exact nodup_visited hnamed hsorted place
    · exact ⟨hrest.ne_nil, names, Tree.reaches_of_mem_visitsWithin hnames, hfits, hfails⟩

/-- What it goes on to fails for it and for the sweep. -/
theorem not_nodup_failed (hfinite : tree.Finite) (h : Alternating segments)
    (hagain : FailsTwice tree segments place) : ¬ (failed tree segments place).Nodup := by
  cases h with
  | wild stars => exact absurd hagain id
  | literal stars text width => exact absurd rfl hagain.1
  | @more stars text width rest hrest =>
    obtain ⟨-, names, hreach, hfits, more, fault, hmore, hfault⟩ := hagain
    have hne : names ≠ [] := by
      rintro rfl
      have hlen := hfits.1
      rw [List.length_nil] at hlen
      omega
    -- The segments left tell the failure from the hit above it, and the sweep tells
    -- it where it comes to it.
    have hmem := mem_failed hfinite hrest hmore hfault
    rw [← Place.down_append] at hmem hfault
    have hvisit := hfinite.mem_visits.2 ⟨hne, hreach⟩
    have hvisit' := hfinite.mem_visits.2 ⟨List.append_ne_nil_of_left_ne_nil hne more,
      Tree.reaches_append.2 ⟨hreach, hmore⟩⟩
    have hhit : (place.down (names ++ more)).path ∈
        if FitsLast (Text.trimmed text) (max width 1) ([] ++ names) then
          failed tree rest (place.down names) else [] := by
      rw [List.nil_append, if_pos hfits]
      exact hmem
    have hlisted : (place.down (names ++ more)).path ∈ failedAt tree (place.down (names ++ more)) :=
      Place.mem_failure.2 ⟨rfl, fault, hfault⟩
    intro hnodup
    rw [failed, List.nodup_append] at hnodup
    exact not_nodup_flatMap hvisit hvisit' hhit hlisted hnodup.2.1

/-! ## From the whole pattern -/

/-- What fails on the way to the wildcards is apart from what fails behind. -/
theorem nodup_failed_head (hnamed : tree.Named) (hsorted : tree.Sorted (· ≠ ·)) {text : Text}
    {width : Nat} (hrest : Alternating rest)
    (hnot : ¬ FailsTwice tree (.literal text width :: rest) place) :
    (failed tree (.literal text width :: rest) place).Nodup := by
  have hstops :=
    Route.pairwise_stops hnamed hsorted (Route.proper_ofText (Text.trimmed text)) place
  rw [List.pairwise_append] at hstops
  obtain ⟨hfailed, hreached, hcross⟩ := hstops
  have hunder := fun path => under_failed hnamed hrest (place.descend path)
  rw [failed_head hrest.ne_nil, List.nodup_append]
  refine ⟨?_, List.pairwise_flatMap.2 ⟨?_, ?_⟩, ?_⟩
  · exact hfailed.imp fun hparted => hparted.ne (.refl _) (.refl _)
  · intro path hpath
    exact nodup_failed hnamed hsorted hrest fun hagain => hnot ⟨path, hpath, hagain⟩
  · refine hreached.imp ?_
    intro path path' hparted m hm m' hm'
    exact hparted.ne (hunder path m hm) (hunder path' m' hm')
  · intro m hm m' hm'
    obtain ⟨path, hpath, hm'⟩ := List.mem_flatMap.1 hm'
    exact (hcross m hm path hpath).ne (.refl m) (hunder path m' hm')

theorem nodup_failed_ofPattern (hnamed : tree.Named) (hsorted : tree.Sorted (· ≠ ·))
    (pattern : Text) (hnot : ¬ FailsTwice tree (Segment.ofPattern pattern) place) :
    (failed tree (Segment.ofPattern pattern) place).Nodup := by
  rcases Segment.ofPattern_cases pattern with h | h | ⟨text, width, rest, h, hrest⟩
  · rw [h, failed]
    exact .nil
  · exact nodup_failed hnamed hsorted h hnot
  · rw [h] at hnot ⊢
    rcases hrest with rfl | hrest
    · rw [failed]
      have hstops := Route.pairwise_stops hnamed hsorted (Route.proper_ofText text) place
      refine (List.pairwise_append.1 hstops).1.imp fun hparted => hparted.ne (.refl _) (.refl _)
    · exact nodup_failed_head hnamed hsorted hrest hnot

theorem not_nodup_failed_ofPattern (hfinite : tree.Finite) (pattern : Text)
    (hagain : FailsTwice tree (Segment.ofPattern pattern) place) :
    ¬ (failed tree (Segment.ofPattern pattern) place).Nodup := by
  rcases Segment.ofPattern_cases pattern with h | h | ⟨text, width, rest, h, hrest⟩
  · rw [h] at hagain
    exact absurd hagain id
  · exact not_nodup_failed hfinite h hagain
  · rw [h] at hagain ⊢
    obtain ⟨path, hpath, hagain⟩ := hagain
    rcases hrest with rfl | hrest
    · exact absurd hagain id
    · intro hnodup
      rw [failed_head hrest.ne_nil, List.nodup_append] at hnodup
      have hpaths := (List.pairwise_flatMap.1 hnodup.2.1).1
      exact not_nodup_failed hfinite hrest hagain (hpaths path hpath)

end Expansion

/-! ## The whole walk -/

open Expansion (FailsTwice start)

/-- Before any listener the paths told to have failed are the first ones of those
told before a listener that refuses nothing. -/
theorem failed_upTo (tree : Tree) (listener : Listener) (pattern root : Text) :
    (tree.glob listener pattern root).failed <+: (tree.glob .lenient pattern root).failed := by
  rcases (Walk.yields_glob tree.depth pattern root).obeys tree listener [] with
    ⟨seen, e, hstops, hrun⟩ | ⟨-, hrun⟩
  · rw [Tree.glob, Tree.glob, hrun]
    exact (hstops.upTo.filterMap _).filterMap _
  · rw [Tree.glob, Tree.glob, hrun]

/-- Some listing fails in the tree at or below a path where the literal behind the
first wildcard of the pattern fits, with another wildcard behind it. -/
def FailsAgain (tree : Tree) (pattern root : Text) : Prop :=
  let anchored := Anchored.of pattern root
  let segments := Segment.ofPattern anchored.pattern
  FailsTwice tree segments (start anchored.root segments)

/-- **Which failures are told twice.** If no listing fails at or below a path from
which the walk goes on to another wildcard, no path is told to have failed twice,
before any listener. If one does, some path is, before a listener that refuses
nothing, unless the run ends at a text that is no mask. -/
theorem glob_failed_once (hnamed : tree.Named) (hsorted : tree.Sorted (· ≠ ·))
    (hfinite : tree.Finite) (pattern root : Text) :
    (¬ FailsAgain tree pattern root →
      ∀ listener, (tree.glob listener pattern root).failed.Nodup) ∧
    (FailsAgain tree pattern root → (tree.glob .lenient pattern root).ending = .finished () →
      ¬ (tree.glob .lenient pattern root).failed.Nodup) := by
  have hupTo := fun listener => failed_upTo tree listener pattern root
  cases hread : Segment.read (Anchored.of pattern root).pattern with
  | error e =>
    have hrun : tree.glob .lenient pattern root =
        ⟨[.tell (.root (Anchored.of pattern root).root)], .malformed e⟩ := by
      rw [Tree.glob, Walk.glob, hread]
      rfl
    rw [hrun] at hupTo ⊢
    constructor
    · intro _ listener
      rw [List.prefix_nil.1 (hupTo listener)]
      exact .nil
    · intro _ hfinished
      cases hfinished
  | ok segments =>
    have hwalk := recites_of_read hnamed hfinite hread .lenient (fun _ _ => rfl) []
    obtain ⟨rfl, -⟩ := Segment.read_eq_ok.1 hread
    constructor
    · intro hnot listener
      have hnodup := Expansion.nodup_failed_ofPattern hnamed hsorted _ hnot
      refine (hupTo listener).sublist.nodup ?_
      rcases hwalk with ⟨-, -, hfailed⟩ | ⟨-, -, -, hfailed⟩
      · rw [Tree.glob, hfailed]
        exact hnodup
      · exact hfailed.sublist.nodup hnodup
    · intro hagain hfinished
      rcases hwalk with ⟨-, -, hfailed⟩ | ⟨-, hending, -⟩
      · rw [Tree.glob, hfailed]
        exact Expansion.not_nodup_failed_ofPattern hfinite _ hagain
      · exact absurd hfinished (hending ())

/-- `b` cannot be listed, and lies beside `a`, from which the walk goes on. The
listener takes faults and would refuse a second match. -/
theorem glob_failed_once_beside :
    ¬ FailsAgain ((ListingTable.tree ⟨[("./".toList, ["a".toList, "b".toList]),
        ("./a".toList, ["x".toList])], []⟩).failing
        (fun path => if path = "./b".toList then some ⟨.other, "broken"⟩ else none) fun _ => none)
      "**/a/**".toList [] ∧
    (((ListingTable.tree ⟨[("./".toList, ["a".toList, "b".toList]),
        ("./a".toList, ["x".toList])], []⟩).failing
        (fun path => if path = "./b".toList then some ⟨.other, "broken"⟩ else none)
        fun _ => none).glob (ListenerPolicy.listener ⟨none, some 2, false⟩)
        "**/a/**".toList []).failed.Nodup := by
  have hnamed : (ListingTable.tree ⟨[("./".toList, ["a".toList, "b".toList]),
      ("./a".toList, ["x".toList])], []⟩).Named := ListingTable.tree_named (by decide)
  have hsorted : (ListingTable.tree ⟨[("./".toList, ["a".toList, "b".toList]),
      ("./a".toList, ["x".toList])], []⟩).Sorted (· ≠ ·) := ListingTable.tree_sorted (by decide)
  obtain ⟨honce, htwice⟩ := glob_failed_once
    (@Tree.Named.failing _ (fun path => if path = "./b".toList then some ⟨.other, "broken"⟩ else none)
      (fun _ => none) hnamed)
    hsorted.failing (ListingTable.tree_finite hnamed).failing "**/a/**".toList []
  have hending : (((ListingTable.tree ⟨[("./".toList, ["a".toList, "b".toList]),
      ("./a".toList, ["x".toList])], []⟩).failing
      (fun path => if path = "./b".toList then some ⟨.other, "broken"⟩ else none)
      fun _ => none).glob .lenient "**/a/**".toList []).ending = .finished () := by cbv
  have hfailed : (((ListingTable.tree ⟨[("./".toList, ["a".toList, "b".toList]),
      ("./a".toList, ["x".toList])], []⟩).failing
      (fun path => if path = "./b".toList then some ⟨.other, "broken"⟩ else none)
      fun _ => none).glob .lenient "**/a/**".toList []).failed = ["b".toList] := by cbv
  have hnot := fun hagain => htwice hagain hending (by rw [hfailed]; decide)
  exact ⟨hnot, honce hnot _⟩

/-- `a` cannot be listed. The walk goes on from it and tells so, and then the sweep
does. -/
theorem glob_failed_once_hit :
    ¬ ∀ (tree : Tree) (listener : Listener), tree.Named → tree.Sorted (· ≠ ·) → tree.Finite →
      (∀ heard path fault, listener heard (.failed path fault) = none) →
      ∀ pattern root, (tree.glob listener pattern root).failed.Nodup := by
  intro h
  have hnamed : (ListingTable.tree ⟨[("./".toList, ["a".toList])], []⟩).Named :=
    ListingTable.tree_named (by decide)
  have hsorted : (ListingTable.tree ⟨[("./".toList, ["a".toList])], []⟩).Sorted (· ≠ ·) :=
    ListingTable.tree_sorted (by decide)
  have hfailed : (((ListingTable.tree ⟨[("./".toList, ["a".toList])], []⟩).failing
      (fun path => if path = "./a".toList then some ⟨.other, "broken"⟩ else none)
      fun _ => none).glob .lenient "**/a/**".toList []).failed = ["a".toList, "a".toList] := by cbv
  have hnodup := h ((ListingTable.tree ⟨[("./".toList, ["a".toList])], []⟩).failing
    (fun path => if path = "./a".toList then some ⟨.other, "broken"⟩ else none) fun _ => none)
    .lenient hnamed.failing hsorted.failing (ListingTable.tree_finite hnamed).failing
    (fun _ _ _ => rfl) "**/a/**".toList []
  rw [hfailed] at hnodup
  exact absurd hnodup (by decide)

end PathGlob
