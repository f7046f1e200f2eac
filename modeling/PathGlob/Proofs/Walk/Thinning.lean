/-
A tree in which some questions fail, and what is told there.

Where a listing fails there is nothing inside, and where a probe fails there is
nothing there. So the places visited are among those visited before, in the same
order, and of each of them the same or less is told.

For paths handed over once this is not enough: one that is left out at first and
told later would come late. It is `Thins` that is carried through the walk, and
it asks of two lists told one after the other that no path of the second was lost
from the first (`Thins.append`). Between two names of a listing there is no such
path unless they are the same name. And below a place where a literal fits, what
is told has been told from there already (`told_below`), with or without faults.
-/
import PathGlob.Proofs.Walk.Scope

set_option autoImplicit false

namespace PathGlob

open Text (IsName Under)
open Segment (Alternating)

/-! ## The tree -/

/-- The tree in which questions about some paths fail, and all others are
answered as before. -/
def Tree.failing (tree : Tree) (listFault probeFault : Text → Option IoFault) : Tree where
  list path :=
    match listFault path with
    | some fault => .error fault
    | none => tree.list path
  probe path :=
    match probeFault path with
    | some fault => .error fault
    | none => tree.probe path
  depth := tree.depth

/-- Faults put in by rules are such faults. -/
theorem Tree.withFaults_eq (tree : Tree) (rules : List FaultRule) :
    tree.withFaults rules =
      tree.failing (FaultRule.find rules (·.onList)) (FaultRule.find rules (·.onProbe)) := rfl

namespace Tree

variable {tree : Tree} {listFault probeFault : Text → Option IoFault}

theorem list_failing (dir : Text) : (tree.failing listFault probeFault).list dir =
    match listFault dir with
    | some fault => .error fault
    | none => tree.list dir := rfl

theorem probe_failing (dir : Text) : (tree.failing listFault probeFault).probe dir =
    match probeFault dir with
    | some fault => .error fault
    | none => tree.probe dir := rfl

theorem failing_list {dir : Text} (h : listFault dir = none) :
    (tree.failing listFault probeFault).list dir = tree.list dir := by
  rw [list_failing, h]

theorem failing_probe {dir : Text} (h : probeFault dir = none) :
    (tree.failing listFault probeFault).probe dir = tree.probe dir := by
  rw [probe_failing, h]

/-- A listing fails or is as before. -/
theorem failing_list_cases (tree : Tree) (listFault probeFault : Text → Option IoFault) (dir : Text) :
    (∃ fault, (tree.failing listFault probeFault).list dir = .error fault) ∨
      (tree.failing listFault probeFault).list dir = tree.list dir := by
  rw [list_failing]
  cases listFault dir with
  | none => exact .inr rfl
  | some fault => exact .inl ⟨fault, rfl⟩

theorem failing_inside_cases (tree : Tree) (listFault probeFault : Text → Option IoFault)
    (dir : Text) : (tree.failing listFault probeFault).inside dir = [] ∨
      (tree.failing listFault probeFault).inside dir = tree.inside dir := by
  rcases tree.failing_list_cases listFault probeFault dir with ⟨fault, h⟩ | h
  · left
    rw [inside, h]
    rfl
  · right
    rw [inside, h]
    rfl

theorem mem_inside_of_failing {dir name : Text}
    (h : name ∈ (tree.failing listFault probeFault).inside dir) : name ∈ tree.inside dir := by
  rcases tree.failing_inside_cases listFault probeFault dir with hnil | hsame
  · rw [hnil] at h
    simp at h
  · rwa [hsame] at h

theorem Named.failing (h : tree.Named) : (tree.failing listFault probeFault).Named :=
  fun dir name hname => h dir name (mem_inside_of_failing hname)

theorem Sorted.failing {r : Text → Text → Prop} (h : tree.Sorted r) :
    (tree.failing listFault probeFault).Sorted r := by
  intro dir
  rcases tree.failing_inside_cases listFault probeFault dir with hnil | hsame
  · rw [hnil]
    exact .nil
  · rw [hsame]
    exact h dir

theorem EndsWithin.failing {depth : Nat} {dir : Text} (h : tree.EndsWithin depth dir) :
    (tree.failing listFault probeFault).EndsWithin depth dir := by
  induction depth generalizing dir with
  | zero => exact h
  | succ depth ih => exact fun name hname => ih (h name (mem_inside_of_failing hname))

theorem Finite.failing (h : tree.Finite) : (tree.failing listFault probeFault).Finite :=
  fun dir => (h dir).failing

end Tree

/-! ## Lists with paths left out -/

/-- The paths handed over of the second list are some of those handed over of the
first, in the same order. -/
def Thins (once : Bool) (told fewer : List Text) : Prop :=
  (handed once [] fewer).Sublist (handed once [] told)

section Thins

variable {α : Type} {once : Bool} {told fewer more moreFewer : List Text}

theorem Thins.refl (told : List Text) : Thins once told told := List.Sublist.refl _

theorem thins_nil (told : List Text) : Thins once told [] := by
  cases once <;> exact List.nil_sublist _

theorem Thins.mem (h : Thins once told fewer) {m : Text} (hm : m ∈ fewer) : m ∈ told :=
  (mem_handed.1 (List.Sublist.subset h (mem_handed.2 ⟨hm, by simp⟩))).1

/-- One list after another, if none that the second still has was lost from the
first. -/
theorem Thins.append (h : Thins once told fewer) (h' : Thins once more moreFewer)
    (hkept : ∀ m ∈ moreFewer, m ∈ told → m ∈ fewer) :
    Thins once (told ++ more) (fewer ++ moreFewer) := by
  rw [Thins, handed_append, handed_append, List.append_nil, List.append_nil, @handed_filter once _ more,
    @handed_filter once _ moreFewer]
  refine List.Sublist.append h ?_
  -- What is new in the second list after less is new in it after more.
  have hnew : (handed once [] moreFewer).filter
      (fun m => !(once && (handed once [] fewer).reverse.contains m)) =
      ((handed once [] moreFewer).filter
        fun m => !(once && (handed once [] told).reverse.contains m)).filter
        fun m => !(once && (handed once [] fewer).reverse.contains m) := by
    rw [List.filter_filter]
    apply List.filter_congr
    intro m hm
    have hmore := (mem_handed.1 hm).1
    by_cases hm : m ∈ fewer
    · simp +contextual [mem_handed, hm]
    · have htold : m ∉ told := fun h => hm (hkept m hmore h)
      simp [mem_handed, hm, htold]
  rw [hnew]
  exact List.filter_sublist.trans (List.Sublist.filter _ h')

theorem thins_flatMap {elements : List α} {told fewer : α → List Text}
    (h : ∀ a ∈ elements, Thins once (told a) (fewer a))
    (hkept : ∀ a ∈ elements, ∀ b ∈ elements, ∀ m ∈ fewer b, m ∈ told a → m ∈ fewer a) :
    Thins once (elements.flatMap told) (elements.flatMap fewer) := by
  induction elements with
  | nil => exact .refl []
  | cons a rest ih =>
    have hrest := ih (fun b hb => h b (List.mem_cons_of_mem _ hb)) fun b hb c hc =>
      hkept b (List.mem_cons_of_mem _ hb) c (List.mem_cons_of_mem _ hc)
    refine (h a List.mem_cons_self).append hrest fun m hm htold => ?_
    obtain ⟨b, hb, hm⟩ := List.mem_flatMap.1 hm
    exact hkept a List.mem_cons_self b (List.mem_cons_of_mem _ hb) m hm htold

end Thins

/-! ## What is told with faults -/

variable {tree : Tree} {once : Bool} {listFault probeFault : Text → Option IoFault}

/-- What is told from the names of a listing, each under its own path. -/
theorem thins_names (hnamed : tree.Named) (dir base : Text) {told fewer : Text → List Text}
    (h : ∀ name ∈ (tree.failing listFault probeFault).inside dir, Thins once (told name) (fewer name))
    (hunder : ∀ name ∈ tree.inside dir, ∀ m ∈ told name, Under (Text.joinName base name) m) :
    Thins once ((tree.inside dir).flatMap told)
      (((tree.failing listFault probeFault).inside dir).flatMap fewer) := by
  rcases tree.failing_inside_cases listFault probeFault dir with hnil | hsame
  · rw [hnil]
    exact thins_nil _
  · rw [hsame] at h ⊢
    refine thins_flatMap h fun name hname other hother m hm htold => ?_
    have hunderOther := hunder other hother m ((h other hother).mem hm)
    have heq := Text.name_eq_of_under (hnamed dir name hname) (hnamed dir other hother)
      (hunder name hname m htold) hunderOther
    rwa [heq]

/-- What is told of the places visited. -/
theorem thins_visitsWithin (hnamed : tree.Named) (depth : Nat) (place : Place)
    {told fewer : List Text → List Text} (h : ∀ names, Thins once (told names) (fewer names))
    (hunder : ∀ names, ∀ m ∈ told names, Under (place.down names).path m)
    (hkept : ∀ names more, (tree.failing listFault probeFault).Reaches place (names ++ more) →
      ∀ m ∈ fewer (names ++ more), m ∈ told names → m ∈ fewer names) :
    Thins once ((tree.visitsWithin depth place).flatMap told)
      (((tree.failing listFault probeFault).visitsWithin depth place).flatMap fewer) := by
  induction depth generalizing place told fewer with
  | zero => exact .refl []
  | succ depth ih =>
    rw [Tree.flatMap_visitsWithin, Tree.flatMap_visitsWithin]
    refine thins_names hnamed place.dir place.path (fun name hname => ?_) fun name _ m hm => ?_
    · have hbelow := @ih (place.child name) (fun rest => told (name :: rest))
        (fun rest => fewer (name :: rest)) (fun rest => h (name :: rest))
        (fun rest => hunder (name :: rest))
        fun rest more hreach => hkept (name :: rest) more ⟨hname, hreach⟩
      refine (h [name]).append hbelow fun m hm htold => ?_
      obtain ⟨rest, hrest, hm⟩ := List.mem_flatMap.1 hm
      exact hkept [name] rest ⟨hname, Tree.reaches_of_mem_visitsWithin hrest⟩ m hm htold
    · rcases List.mem_append.1 hm with hm | hm
      · exact hunder [name] m hm
      · obtain ⟨rest, hrest, hm⟩ := List.mem_flatMap.1 hm
        have hplace := Expansion.under_place hnamed (Tree.reaches_of_mem_visitsWithin hrest)
        exact hplace.trans (hunder (name :: rest) m hm)

namespace Route

/-- What is told from the paths that a route reaches. -/
theorem thins_reached (hnamed : tree.Named) {told fewer : Text → List Text}
    (h : ∀ path, Thins once (told path) (fewer path))
    (hunder : ∀ path, ∀ m ∈ told path, Under path m) {route : Route} (hroute : route.Proper)
    (place : Place) :
    Thins once ((route.reached tree place).flatMap told)
      ((route.reached (tree.failing listFault probeFault) place).flatMap fewer) := by
  induction route generalizing place with
  | here =>
    rw [reached, reached, List.flatMap_singleton, List.flatMap_singleton]
    exact h place.path
  | nowhere => exact .refl []
  | probe path next ih =>
    rw [reached, reached]
    cases hprobe : probeFault (place.child path).dir with
    | none =>
      rw [Tree.failing_probe hprobe]
      split
      · exact ih hroute.2 (place.child path)
      · exact .refl []
    | some fault =>
      rw [Tree.probe_failing, hprobe, Except.toOption, Option.getD_none, if_neg Bool.false_ne_true]
      exact thins_nil _
  | choose mask next ih =>
    rw [reached, reached, List.flatMap_assoc, List.flatMap_assoc]
    refine thins_names hnamed place.dir place.path (fun name _ => ?_) fun name _ m hm => ?_
    · split
      · exact ih hroute (place.child name)
      · exact .refl []
    · split at hm
      · obtain ⟨path, hpath, hm⟩ := List.mem_flatMap.1 hm
        exact (@under_reached tree hnamed next hroute (place.child name) path hpath).trans
          (hunder path m hm)
      · simp at hm

end Route

namespace Expansion

/-! ## Segments with faults -/

/-- The end of a path is told as before, or the listing there fails. -/
theorem endAt_failing (place : Place) :
    endAt (tree.failing listFault probeFault) place = [] ∨
      endAt (tree.failing listFault probeFault) place = endAt tree place := by
  rcases tree.failing_list_cases listFault probeFault place.dir with ⟨fault, h⟩ | h
  · left
    rw [endAt, h]
  · right
    rw [endAt, endAt, h]

theorem thins_endAt (place : Place) :
    Thins once (endAt tree place) (endAt (tree.failing listFault probeFault) place) := by
  rcases @endAt_failing tree listFault probeFault place with h | h
  · rw [h]
    exact thins_nil _
  · rw [h]
    exact .refl _

/-- Below an end there is nothing, with faults or without. -/
theorem eq_nil_of_end {place : Place} {m : Text} {names : List Text} (hm : m ∈ endAt tree place)
    (hreach : (tree.failing listFault probeFault).Reaches place names) : names = [] := by
  cases names with
  | nil => rfl
  | cons name rest =>
    have hname := Tree.mem_inside_of_failing hreach.1
    rw [Tree.inside, (mem_endAt hm).1] at hname
    simp [Except.toOption] at hname

theorem thins_wild (hnamed : tree.Named) (stars : Text) (place : Place) :
    Thins once (told tree [.wild stars] place)
      (told (tree.failing listFault probeFault) [.wild stars] place) := by
  have hunder : ∀ names, ∀ m ∈ endAt tree (place.down names), Under (place.down names).path m := by
    intro names m hm
    rw [(mem_endAt hm).2]
    exact .refl _
  rw [told, told, List.flatMap_cons, List.flatMap_cons]
  refine (thins_endAt place).append
    (thins_visitsWithin hnamed tree.depth place (fun names => thins_endAt (place.down names)) hunder
      ?_) ?_
  · intro names more hreach m hm htold
    obtain rfl := eq_nil_of_end htold (Tree.reaches_append.1 hreach).2
    rwa [List.append_nil] at hm
  · intro m hm htold
    obtain ⟨names, hnames, -⟩ := List.mem_flatMap.1 hm
    have hnil := eq_nil_of_end htold (Tree.reaches_of_mem_visitsWithin hnames)
    exact absurd hnil (Tree.ne_nil_of_mem_visitsWithin hnames)

theorem thins_literal (hnamed : tree.Named) (hfinite : tree.Finite) (stars text : Text) (width : Nat)
    {rest : List Segment} (hrest : rest = [] ∨ Alternating rest)
    (h : ∀ target, Thins once (after tree rest target)
      (after (tree.failing listFault probeFault) rest target)) (place : Place) :
    Thins once (told tree (.wild stars :: .literal text width :: rest) place)
      (told (tree.failing listFault probeFault) (.wild stars :: .literal text width :: rest) place) := by
  rw [told_literal, told_literal]
  refine thins_visitsWithin hnamed tree.depth place (fun names => ?_) ?_ ?_
  · split
    · exact h (place.down names)
    · exact .refl []
  · intro names m hm
    rw [List.mem_ite_nil_right] at hm
    exact under_after hnamed hrest (place.down names) m hm.2
  · intro names more hreach m hm htold
    rw [List.mem_ite_nil_right] at hm htold
    rw [if_pos htold.1]
    rcases hrest with rfl | hrest
    · exact htold.2
    · rw [after_alternating hrest] at hm ⊢
      rw [Place.down_append] at hm
      exact told_below hfinite.failing hrest (Tree.reaches_append.1 hreach).2 m hm.2

/-- **From a wildcard on** faults leave out paths and change nothing else. -/
theorem thins_told (hnamed : tree.Named) (hfinite : tree.Finite) {segments : List Segment}
    (h : Alternating segments) (place : Place) :
    Thins once (told tree segments place)
      (told (tree.failing listFault probeFault) segments place) := by
  induction h generalizing place with
  | wild stars => exact thins_wild hnamed stars place
  | literal stars text width =>
    exact thins_literal hnamed hfinite stars text width (.inl rfl) (fun _ => .refl _) place
  | more stars text width hrest ih =>
    apply thins_literal hnamed hfinite stars text width (.inr hrest)
    intro target
    rw [after_alternating hrest, after_alternating hrest]
    exact ih target

/-- The segments of a pattern tell less, in the same order. -/
theorem thins_ofPattern (hnamed : tree.Named) (hfinite : tree.Finite) (pattern : Text)
    (place : Place) :
    Thins once (told tree (Segment.ofPattern pattern) place)
      (told (tree.failing listFault probeFault) (Segment.ofPattern pattern) place) := by
  rcases Segment.ofPattern_cases pattern with h | h | ⟨text, width, rest, h, hrest⟩
  · rw [h]
    exact .refl []
  · exact thins_told hnamed hfinite h place
  · rw [h]
    rcases hrest with rfl | hrest
    · have hreached := @Route.thins_reached tree once listFault probeFault hnamed (fun path => [path])
        (fun path => [path]) (fun path => .refl [path]) (by simpa using Under.refl)
        (Route.ofText text) (Route.proper_ofText text) place
      rwa [List.flatMap_singleton', List.flatMap_singleton'] at hreached
    · rw [told_head hrest.ne_nil, told_head hrest.ne_nil]
      exact Route.thins_reached hnamed (fun path => thins_told hnamed hfinite hrest _)
        (fun path => under_told hnamed hrest _) (Route.proper_ofText _) place

end Expansion

end PathGlob
