/-
Where the paths lie that a walk tells.

All of them lie under the place from which it goes on (`under_told`). And going
on from further down finds nothing new: the segments begin with a wildcard, and
what the wildcard takes from a place below it can take, with the names on the way
there, from the place itself (`told_below`). So however often a walk comes to the
same place again, the first time has told everything.
-/
import PathGlob.Proofs.Pattern.Segmentation
import PathGlob.Proofs.Walk.Told

set_option autoImplicit false

namespace PathGlob

open Text (IsName Under)
open Segment (Alternating)

namespace Route

/-- What the route asks for at once is something. -/
def Proper : Route → Prop
  | .here => True
  | .nowhere => True
  | .probe path next => path ≠ [] ∧ Proper next
  | .choose _ next => Proper next

theorem proper_closeRun (plain : List Text) {next : Route} (h : next.Proper) :
    (closeRun plain next).Proper := by
  rcases closeRun_cases plain next with hrun | hrun | ⟨⟨-, hjoin⟩, hrun⟩ <;> rw [hrun]
  · exact h
  · trivial
  · exact ⟨hjoin, h⟩

theorem proper_gather (plain parts : List Text) : (gather plain parts).Proper := by
  induction parts generalizing plain with
  | nil => exact proper_closeRun plain trivial
  | cons part rest ih =>
    rw [gather]
    split
    · exact ih (plain ++ [part])
    · exact proper_closeRun plain (ih [])

theorem proper_ofText (text : Text) : (ofText text).Proper := proper_gather [] _

variable {tree : Tree}

theorem under_reached (hnamed : tree.Named) {route : Route} (h : route.Proper) (place : Place) :
    ∀ path ∈ route.reached tree place, Under place.path path := by
  induction route generalizing place with
  | here =>
    intro path hpath
    obtain rfl := List.mem_singleton.1 hpath
    exact .refl place.path
  | nowhere => simp [reached]
  | probe path next ih =>
    intro other hother
    rw [reached] at hother
    split at hother
    · exact (Text.under_joinName place.path h.1).trans (ih h.2 _ other hother)
    · simp at hother
  | choose mask next ih =>
    intro other hother
    obtain ⟨name, hname, hother⟩ := List.mem_flatMap.1 hother
    split at hother
    · exact (Text.under_joinName place.path (hnamed _ name hname).1).trans (ih h _ other hother)
    · simp at hother

end Route

namespace Expansion

variable {tree : Tree}

theorem under_place (hnamed : tree.Named) {place : Place} {names : List Text}
    (h : tree.Reaches place names) : Under place.path (place.down names).path := by
  rw [Place.path_down]
  exact Text.under_down place.path fun name hname => (hnamed.of_reaches h name hname).1

theorem mem_endAt {place : Place} {m : Text} (h : m ∈ endAt tree place) :
    tree.list place.dir = .ok [] ∧ m = place.path := by
  rw [endAt] at h
  split at h
  · rename_i hlist
    split at h
    · simp at h
    · exact ⟨hlist, List.mem_singleton.1 h⟩
  · simp at h

theorem mem_told_wild {stars m : Text} {place : Place} :
    m ∈ told tree [.wild stars] place ↔
      ∃ names ∈ [] :: tree.visits place, m ∈ endAt tree (place.down names) := by
  rw [told]
  exact List.mem_flatMap

theorem mem_told_literal {stars text m : Text} {width : Nat} {rest : List Segment} {place : Place} :
    m ∈ told tree (.wild stars :: .literal text width :: rest) place ↔
      ∃ names ∈ tree.visits place, FitsLast (Text.trimmed text) (max width 1) names ∧
        m ∈ after tree rest (place.down names) := by
  rw [told_literal, List.mem_flatMap]
  refine exists_congr fun names => and_congr_right fun _ => ?_
  by_cases hfits : FitsLast (Text.trimmed text) (max width 1) names <;> simp [hfits]

theorem after_alternating {rest : List Segment} (h : Alternating rest) (place : Place) :
    after tree rest place = told tree rest place := by
  obtain ⟨stars, others, rfl⟩ := h.head
  rfl

/-- Whatever a hit tells is under its place, so all that is told is under the
place of the sweep. -/
theorem under_told_literal (hnamed : tree.Named) {stars text : Text} {width : Nat}
    {rest : List Segment} (place : Place)
    (h : ∀ target, ∀ m ∈ after tree rest target, Under target.path m) :
    ∀ m ∈ told tree (.wild stars :: .literal text width :: rest) place, Under place.path m := by
  intro m hm
  obtain ⟨names, hnames, -, hm⟩ := mem_told_literal.1 hm
  exact (under_place hnamed (Tree.reaches_of_mem_visitsWithin hnames)).trans (h _ m hm)

/-- **What the last segments tell** is under the place. -/
theorem under_told (hnamed : tree.Named) {segments : List Segment} (h : Alternating segments)
    (place : Place) : ∀ m ∈ told tree segments place, Under place.path m := by
  induction h generalizing place with
  | wild stars =>
    intro m hm
    obtain ⟨names, hnames, hm⟩ := mem_told_wild.1 hm
    obtain ⟨-, rfl⟩ := mem_endAt hm
    rcases List.mem_cons.1 hnames with rfl | hnames
    · exact .refl place.path
    · exact under_place hnamed (Tree.reaches_of_mem_visitsWithin hnames)
  | literal stars text width =>
    apply under_told_literal hnamed
    intro target m hm
    obtain rfl := List.mem_singleton.1 hm
    exact .refl target.path
  | more stars text width hrest ih =>
    apply under_told_literal hnamed
    intro target m hm
    rw [after_alternating hrest] at hm
    exact ih target m hm

theorem under_after (hnamed : tree.Named) {rest : List Segment} (h : rest = [] ∨ Alternating rest)
    (place : Place) : ∀ m ∈ after tree rest place, Under place.path m := by
  intro m hm
  rcases h with rfl | h
  · obtain rfl := List.mem_singleton.1 hm
    exact .refl place.path
  · rw [after_alternating h] at hm
    exact under_told hnamed h place m hm

/-! ## Further down -/

/-- Names in front of enough others do not matter. -/
theorem fitsLast_append {literal : Text} {width : Nat} (more : List Text) {names : List Text}
    (h : width ≤ names.length) :
    FitsLast literal width (more ++ names) ↔ FitsLast literal width names := by
  induction more with
  | nil => exact Iff.rfl
  | cons first more ih =>
    rw [List.cons_append, fitsLast_cons, ih]
    rw [List.length_append]
    omega

/-- **Going on from further down finds nothing new.** -/
theorem told_below (hfinite : tree.Finite) {segments : List Segment} (h : Alternating segments)
    {place : Place} {more : List Text} (hreach : tree.Reaches place more) :
    ∀ m ∈ told tree segments (place.down more), m ∈ told tree segments place := by
  have hvisits : ∀ names ∈ tree.visits (place.down more), more ++ names ∈ tree.visits place := by
    intro names hnames
    obtain ⟨hne, hnames⟩ := hfinite.mem_visits.1 hnames
    exact hfinite.mem_visits.2
      ⟨List.append_ne_nil_of_right_ne_nil more hne, Tree.reaches_append.2 ⟨hreach, hnames⟩⟩
  have hliteral : ∀ {stars text : Text} {width : Nat} {rest : List Segment},
      ∀ m ∈ told tree (.wild stars :: .literal text width :: rest) (place.down more),
        m ∈ told tree (.wild stars :: .literal text width :: rest) place := by
    intro stars text width rest m hm
    obtain ⟨names, hnames, hfits, hm⟩ := mem_told_literal.1 hm
    refine mem_told_literal.2 ⟨more ++ names, hvisits names hnames, ?_, ?_⟩
    · exact (fitsLast_append more hfits.1).2 hfits
    · rwa [Place.down_append]
  cases h with
  | wild stars =>
    intro m hm
    obtain ⟨names, hnames, hm⟩ := mem_told_wild.1 hm
    refine mem_told_wild.2 ⟨more ++ names, ?_, by rwa [Place.down_append]⟩
    rcases List.mem_cons.1 hnames with rfl | hnames
    · rw [List.append_nil]
      by_cases hne : more = []
      · rw [hne]
        exact List.mem_cons_self
      · exact List.mem_cons_of_mem _ (hfinite.mem_visits.2 ⟨hne, hreach⟩)
    · exact List.mem_cons_of_mem _ (hvisits names hnames)
  | literal stars text width => exact hliteral
  | more stars text width hrest => exact hliteral

end Expansion

end PathGlob
