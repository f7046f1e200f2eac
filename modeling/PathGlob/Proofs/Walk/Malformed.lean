/-
A text that is no mask is met before any match is told.

The literals of a pattern are read before the walk begins, but a walk reads pieces of
them again, and a piece of a mask need not be one: a class or an escape can be cut at
a separator. When such a piece is met depends on the tree. That it is met before
anything is told does not, since nothing is told that has not passed every piece on
its way.

So the pattern alone decides. Either all texts it makes a walk read are masks
(`Expansion.Walkable`), and no run meets one that is none, or some are not, and no run
tells a match. `Expansion.heeds_advance` says this of a walk in any tree: it tells a
match only if `sure`, and meets a text that is no mask only if not.
-/
import Mathlib
import PathGlob.Proofs.Walk.Candid
import PathGlob.Proofs.Walk.Keeps
import PathGlob.Proofs.Walk.Told

set_option autoImplicit false

namespace PathGlob

variable {tree : Tree} {sure : Prop}

/-- A match may be requested only if it is sure; anything else may. -/
def Request.Heeds (sure : Prop) : Request → Prop
  | .tell (.found _) => sure
  | _ => True

open Walk (Keeps)

theorem Place.heeds_list (place : Place) : place.MayList (Request.Heeds sure) :=
  ⟨trivial, fun _ => trivial⟩

theorem Place.heeds_probe (place : Place) : place.MayProbe (Request.Heeds sure) :=
  ⟨trivial, fun _ => trivial⟩

/-- A route comes to its end only if all its masks are masks. -/
theorem Route.heeds_follow {reach : Text → Walk (List Text)} {whole : Route}
    (hsure : sure → whole.Readable)
    (hreach : whole.Readable → ∀ path, Keeps tree (Request.Heeds sure) (¬ sure)
      (fun paths => ∀ path ∈ paths, whole.Readable) (reach path)) (place : Place) :
    Keeps tree (Request.Heeds sure) (¬ sure) (fun paths => ∀ path ∈ paths, whole.Readable)
      (whole.follow reach place) := by
  -- On the way, all masks have been masks so far.
  refine keeps_follow (fun route _ => whole.Readable ↔ route.Readable) ?_ ?_ ?_ Iff.rfl
  · intro place h
    exact hreach (h.2 trivial) place.path
  · intro path next place h
    exact ⟨Place.heeds_probe _, h⟩
  · intro mask next place h
    refine ⟨Place.heeds_list place, ?_, fun hmask name _ => h.trans (and_iff_right hmask)⟩
    by_cases hs : sure
    · exact .inr (h.1 (hsure hs)).1
    · exact .inl hs

namespace Expansion

/-- **A walk of segments** tells a match only if all texts that it reads as masks are
masks, and meets one that is none only if some are not. -/
theorem heeds_advance (once : Bool) (depth : Nat) (segments : List Segment) (place : Place)
    (hsure : sure ↔ Walkable segments) :
    Keeps tree (Request.Heeds sure) (¬ sure) (fun _ => True)
      (advance once depth segments place) := by
  fun_induction advance once depth segments place with
  | case1 place => trivial
  | case2 text width place =>
    refine (Route.heeds_follow hsure.1 ?_ place).bind fun _ _ => trivial
    intro hreadable path
    exact (keeps_report once (hsure.2 hreadable)).bind fun _ _ => Walk.keeps_done (by simp)
  | case3 text width rest place hne ih =>
    have hparts : Walkable (.literal text width :: rest) ↔
        (Route.ofText (Text.trimmed text)).Readable ∧ Walkable rest := by
      rw [Walkable]
      exact hne
    rw [hparts] at hsure
    refine (Route.heeds_follow (fun h => (hsure.1 h).1) ?_ place).bind fun paths hpaths => ?_
    · exact fun hreadable path => Walk.keeps_done fun _ _ => hreadable
    · refine Walk.keeps_each fun path hpath => ih path ?_
      rw [hsure]
      exact and_iff_right (hpaths path hpath)
  | case4 stars place =>
    have hs : sure := hsure.2 trivial
    exact keeps_ends (fun _ => True) once
      (fun place _ => ⟨Place.heeds_list place, hs, fun _ _ => trivial⟩) depth trivial
  | case5 stars text width rest place hit ih =>
    have hparts : sure ↔
        (∃ mask, Mask.parse (Text.trimmed text) = .ok mask) ∧ Walkable rest := hsure
    refine keeps_sweep (fun _ => True) ?_ (fun place _ => ⟨Place.heeds_list place, ?_⟩)
      depth trivial [] 0
    · by_cases hs : sure
      · exact .inr (hparts.1 hs).1
      · exact .inl hs
    · intro name _
      refine ⟨trivial, fun hmask => ?_⟩
      have hrest : sure ↔ Walkable rest := hparts.trans (and_iff_right hmask)
      show Keeps _ _ _ _ (if rest.isEmpty = true then report once (place.child name).path
        else advance once depth rest (place.child name))
      split
      · rename_i hempty
        rw [List.isEmpty_iff.1 hempty] at hrest
        exact keeps_report once (hrest.2 trivial)
      · exact ih (place.child name) hrest
  | case6 stars rest place hne hliteral ih =>
    apply ih
    rw [hsure, Walkable]
    all_goals assumption

end Expansion

/-! ## The whole walk -/

/-- Whether a run may tell a match is decided by the pattern and the root alone. -/
theorem Walk.exists_heeds (pattern root : Text) : ∃ sure, ∀ tree : Tree,
    Keeps tree (Request.Heeds sure) (¬ sure) (fun _ => True)
      (Walk.glob tree.depth pattern root) := by
  cases hread : Segment.read (Anchored.of pattern root).pattern with
  | error e =>
    refine ⟨False, fun tree => ?_⟩
    rw [Walk.glob, hread]
    exact (Walk.keeps_tell trivial).bind fun _ _ => id
  | ok segments =>
    refine ⟨Expansion.Walkable segments, fun tree => ?_⟩
    rw [Walk.glob, hread]
    exact (Walk.keeps_tell trivial).bind fun _ _ => Expansion.heeds_advance _ _ segments _ Iff.rfl

/-- **A text that is no mask is met before any match is told.** If some run of a
pattern and a root ends at a text that is no mask, no run of them tells a match: not
this one, and none in another tree or before another listener. -/
theorem glob_malformed {tree : Tree} {listener : Listener} {pattern root : Text} {e : MalformedMask}
    (h : (tree.glob listener pattern root).ending = .malformed e) (otherTree : Tree)
    (otherListener : Listener) (path : Text) :
    .tell (.found path) ∉ (otherTree.glob otherListener pattern root).trace := by
  obtain ⟨sure, hkeeps⟩ := Walk.exists_heeds pattern root
  have hnot : ¬ sure := ((hkeeps tree).run listener []).2 e h
  intro hmem
  exact hnot (((hkeeps otherTree).run otherListener []).1 _ hmem)

/-- The literal is a mask, but a walk cuts it at its separators, also at the escaped
one. It comes to the piece in front of that behind `x`. -/
theorem glob_malformed_piece :
    ((ListingTable.tree ⟨[("./".toList, ["x".toList]), ("./x".toList, ["b".toList])], []⟩).glob
        .lenient "*/?\\/c".toList []).ending = .malformed ⟨"?\\".toList, .danglingEscape⟩ ∧
      ∀ path, .tell (.found path) ∉ ((ListingTable.tree ⟨[("./".toList, ["x".toList]),
        ("./x".toList, ["b".toList])], []⟩).glob .lenient "*/?\\/c".toList []).trace := by
  have hending : ((ListingTable.tree ⟨[("./".toList, ["x".toList]),
      ("./x".toList, ["b".toList])], []⟩).glob .lenient "*/?\\/c".toList []).ending =
        .malformed ⟨"?\\".toList, .danglingEscape⟩ := by cbv
  exact ⟨hending, glob_malformed hending _ _⟩

end PathGlob
