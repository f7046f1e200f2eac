/-
A separator in front of a pattern is in front of all that is found, and does nothing else.

The separator is a piece of its own. It joins the first segment, literal or wildcard, and
counts for no component of a literal (`Segment.ofPattern_separator`). The root is left
open, since the pattern brings the separator between the two. And where the walk starts a
separator has been told already. So to the path of every other place one separator is
added, while the tree is asked for the same: the places are twins
(`Place.twins_separator`), and from the start on everything echoes.

Unlike names in front, the separator needs no condition on the ends of the tree: the start
is a root in both walks, and neither is told.
-/
import PathGlob.Proofs.Walk.Moved

set_option autoImplicit false

namespace PathGlob

open Segment (Alternating)
open Walk (Echoes)

variable {pattern : Text}

/-! ## The pattern and its root -/

/-- What a name is joined to is closed. -/
theorem Text.joinName_nil {base : Text} (hne : base ≠ []) :
    joinName base [] = if closed base then base else base ++ ['/'] := by
  rw [joinName, List.isEmpty_eq_false_iff.2 hne, Bool.false_or]
  split <;> exact List.append_nil _

theorem Text.closed_joinName_nil {base : Text} (hne : base ≠ []) :
    closed (joinName base []) = true := by
  rw [joinName_nil hne]
  split
  · assumption
  · rw [closed_append (List.cons_ne_nil '/' [])]
    rfl

namespace Lexical

/-- A pattern that hands no dots over, and begins with no separator, begins with a name. -/
theorem exists_body (hne : pattern ≠ []) (hopened : Text.opened pattern = false)
    (hdots : dotPart pattern = []) :
    ∃ dots c rest, pattern = dots ++ c :: rest ∧ IsDots dots ∧ c ≠ '.' ∧ c ≠ '/' := by
  have hwithout : withoutDots pattern = pattern := by
    rw [withoutDots, hdots]
    rfl
  have hcases := withoutDots_cases pattern
  rw [hwithout] at hcases
  rcases hcases with hnil | rfl | ⟨lead, dots, c, rest, hpattern, hall, hc⟩
  · exact absurd hnil hne
  · exact absurd hopened (by decide)
  · cases lead with
    | true =>
      rw [hpattern] at hopened
      exact absurd hopened (by simp [Text.opened])
    | false => exact ⟨dots, c, rest, hpattern, hall, hc⟩

/-- Nor does it hand any over with a separator in front. -/
theorem dotPart_separator (hne : pattern ≠ []) (hopened : Text.opened pattern = false)
    (hdots : dotPart pattern = []) : dotPart ('/' :: pattern) = [] := by
  obtain ⟨dots, c, rest, rfl, hall, hdot, hsep⟩ := exists_body hne hopened hdots
  have hrun : ∀ d ∈ '/' :: dots, isDotOrSeparator d = true :=
    List.forall_mem_cons.2 ⟨by decide, hall.all_run⟩
  have htake := @takeWhile_run _ (c :: rest) hrun (by simp [isDotOrSeparator, hdot, hsep])
  have hlen : (('/' :: dots).length == ('/' :: dots ++ c :: rest).length) = false := by simp
  have hparent := Text.parent_append [] hall.notMem
  rw [← List.cons_append, dotPart, htake, hlen, Bool.false_and, if_neg Bool.false_ne_true]
  exact hparent

end Lexical

namespace Anchored

variable (hne : pattern ≠ []) (hopened : Text.opened pattern = false)
  (hdots : Lexical.dotPart pattern = [])

include hne hopened hdots

theorem of_alone (root : Text) : Anchored.of pattern root =
    ⟨withEverythingBelow pattern, Text.joinName (Lexical.clean root) []⟩ := by
  have hnil := withEverythingBelow_ne_nil hne
  rw [Anchored.of, Lexical.withoutDots, dotPart_withEverythingBelow, hdots,
    List.isEmpty_nil, if_pos rfl, List.length_nil, List.drop_zero, closeRoot,
    opened_withEverythingBelow hne hopened, List.isEmpty_eq_false_iff.2 hnil, Bool.false_or,
    Bool.false_or, Text.joinName_nil (Lexical.clean_ne_nil root)]

theorem of_separator (root : Text) : Anchored.of ('/' :: pattern) root =
    ⟨'/' :: withEverythingBelow pattern, Lexical.clean root⟩ := by
  have hbelow : withEverythingBelow ('/' :: pattern) = '/' :: withEverythingBelow pattern :=
    withEverythingBelow_append ['/'] hne
  have hdot := Lexical.dotPart_separator (withEverythingBelow_ne_nil hne)
    (opened_withEverythingBelow hne hopened) ((dotPart_withEverythingBelow _).trans hdots)
  rw [Anchored.of, hbelow, Lexical.withoutDots, hdot, List.isEmpty_nil, if_pos rfl,
    List.length_nil, List.drop_zero, closeRoot]
  rfl

end Anchored

/-! ## The segments -/

namespace Segment

/-- The segment with a separator in front. -/
def withSeparator : Segment → Segment
  | .literal text width => .literal ('/' :: text) width
  | .wild text => .wild ('/' :: text)

theorem pieces_separator (pattern : Text) : pieces ('/' :: pattern) = ['/'] :: pieces pattern :=
  pieces_behind [] pattern

/-- **The separator joins the first segment** and counts for no component. -/
theorem ofPattern_separator (hne : pattern ≠ []) (hopened : Text.opened pattern = false) :
    ofPattern ('/' :: pattern) = (ofPattern pattern).modifyHead withSeparator := by
  have hhead := head_pieces hopened
  obtain ⟨first, rest, hpieces⟩ := List.exists_cons_of_ne_nil (pieces_ne_nil hne)
  have hbare : (first == ['/']) = false := by simpa [hpieces] using hhead
  -- The separator and the first piece have one mark, so they begin one run.
  have hmarks : ∀ before, markWild before (first :: rest) =
      (isStars first, first) :: markWild (isStars first) rest := by
    intro before
    rw [markWild, hbare, Bool.and_false, Bool.false_and, Bool.or_false]
  have hfront : markWild true (['/'] :: first :: rest) = (isStars first, ['/']) ::
      (isStars first, first) :: markWild (isStars first) rest := by
    rw [markWild, hmarks]
    rfl
  obtain ⟨right, post, hruns⟩ := exists_runs_first (isStars first) (markWild (isStars first) rest)
  have htwo := hruns (List.cons_ne_nil ['/'] [first])
  have hone := hruns (List.cons_ne_nil first [])
  rw [List.map_cons, List.map_cons, List.map_nil] at htwo
  rw [List.map_cons, List.map_nil] at hone
  simp only [List.cons_append, List.nil_append] at htwo hone
  rw [ofPattern, ofPattern, pieces_separator, hpieces, hfront, hmarks, htwo, hone]
  dsimp only
  rw [List.modifyHead_cons]
  cases isStars first with
  | true => rfl
  | false =>
    have hspan : span true (['/'] :: first :: right) = span true (first :: right) := by
      simp [span, hbare]
    rw [ofRun, ofRun, hspan]
    rfl

theorem check_separator {segments : List Segment} (h : check segments = .ok ()) :
    check (segments.modifyHead withSeparator) = .ok () := by
  cases segments with
  | nil => rfl
  | cons first rest =>
    cases first with
    | wild stars => exact h
    | literal text width =>
      rw [check] at h
      rw [List.modifyHead_cons, withSeparator, check, Mask.parse_separator]
      cases hparse : Mask.parse text with
      | error fault => simp [hparse] at h
      | ok mask =>
        rw [hparse] at h
        exact h

end Segment

/-! ## The places -/

namespace Place

variable {root path next : Text}

/-- Where a path below a root is if it is told with a separator in front. -/
def led (root path : Text) : Place :=
  if path.isEmpty then ⟨root, ['/']⟩ else ⟨Text.joinName root path, '/' :: path⟩

/-- Where it is if it is told alone. -/
def unled (root path : Text) : Place := ⟨Text.joinName root path, path⟩

theorem led_nil : led root [] = ⟨root, ['/']⟩ := rfl

theorem led_of_ne_nil (hpath : path ≠ []) : led root path =
    ⟨Text.joinName root path, '/' :: path⟩ := by
  rw [led, if_neg (by simpa using hpath)]

theorem joinName_joinName (hroot : root ≠ []) (path next : Text) :
    Text.joinName (Text.joinName root path) next =
      Text.joinName root (Text.joinName path next) := by
  rw [Text.joinName_eq root path, Text.joinName_front (Text.closed_joinName_nil hroot),
    ← Text.joinName_eq]

theorem child_unled (hroot : root ≠ []) (path next : Text) :
    (unled root path).child next = unled root (Text.joinName path next) := by
  rw [child, unled, unled, joinName_joinName hroot]

theorem child_led (hroot : root ≠ []) (hnext : next ≠ []) :
    (led root path).child next = led root (Text.joinName path next) := by
  rw [led_of_ne_nil (Text.joinName_ne_nil path hnext)]
  by_cases hpath : path = []
  · subst hpath
    rfl
  · rw [led_of_ne_nil hpath, child]
    dsimp only
    rw [joinName_joinName hroot]
    exact congrArg (Place.mk _) (@Text.joinName_front ['/'] path (by decide) next)

/-- The same is asked at both places of a path. -/
theorem key_led (hroot : root ≠ []) (path : Text) :
    PathTree.key (led root path).dir = PathTree.key (unled root path).dir := by
  by_cases hpath : path = []
  · subst hpath
    have hspelled : PathTree.spelled (Text.joinName root []) = PathTree.spelled root := by
      rw [Text.joinName_nil hroot]
      split
      · rfl
      · exact PathTree.spelled_close root
    rw [led_nil, unled, PathTree.key, PathTree.key, hspelled]
  · rw [led_of_ne_nil hpath, unled]

/-- **Paths with a separator in front and without** are twins. -/
theorem twins_separator (hroot : root ≠ []) : Twins ['/'] (led root) (unled root) where
  front_ne_nil := List.cons_ne_nil '/' []
  child_outer := child_led hroot
  child_inner := child_unled hroot
  key := key_led hroot
  outer_path hpath := congrArg Place.path (led_of_ne_nil hpath)
  inner_path _ := rfl
  start := .inl rfl

theorem descend_led (hpath : path ≠ []) (hopened : Text.opened path = false) :
    (led root []).descend ('/' :: path) = led root path := by
  rw [led_of_ne_nil hpath, led_nil, descend]
  dsimp only
  rw [List.length_singleton, List.drop_one, List.tail_cons, Text.joinPath,
    if_neg (by simpa using hpath), hopened, if_neg Bool.false_ne_true]

theorem descend_unled (hroot : root ≠ []) (hpath : path ≠ []) (hopened : Text.opened path = false) :
    (unled root []).descend path = unled root path := by
  have hjoin := joinName_joinName hroot [] path
  rw [descend, unled, unled]
  dsimp only
  rw [List.length_nil, List.drop_zero, Text.joinPath, if_neg (by simpa using hpath), hopened,
    if_neg Bool.false_ne_true, hjoin]
  rfl

end Place

/-! ## The walks -/

/-- A route that has anything to ask for goes somewhere. -/
theorem Route.gather_ne_here {plain parts : List Text} (h : plain ++ parts ≠ []) :
    gather plain parts ≠ .here := by
  induction parts generalizing plain with
  | nil =>
    rw [List.append_nil] at h
    rw [gather, closeRun, if_neg (by simpa using h)]
    dsimp only
    split <;> simp
  | cons part rest ih =>
    rw [gather]
    split
    · exact ih (by simp)
    · rcases closeRun_cases plain (.choose part (gather [] rest)) with hrun | hrun | ⟨-, hrun⟩ <;>
        simp [hrun]

theorem Route.ofText_ne_here (text : Text) : ofText text ≠ .here := by
  refine gather_ne_here ?_
  rw [List.nil_append]
  exact List.splitOn_ne_nil '/' _

namespace Expansion

variable {t : PathTree} {root text : Text} (ht : t.Sound) (hroot : root ≠ [])

/-- The text of a wildcard does not matter to a walk. -/
theorem advance_wild (once : Bool) (depth : Nat) (stars stars' : Text) (rest : List Segment)
    (place : Place) :
    advance once depth (.wild stars :: rest) place =
      advance once depth (.wild stars' :: rest) place := by
  match rest with
  | [] => rfl
  | .literal _ _ :: _ => rfl
  | .wild _ :: _ => rfl

include ht hroot

/-- **The first route** is the same with a separator in front of its text. -/
theorem echoes_route {rel : Text → Text → Prop} {reach reach' : Text → Walk (List Text)}
    (hreach : ∀ path, path ≠ [] → Text.opened path = false →
      Echoes t.tree (['/'] ++ ·) (List.Forall₂ rel) (reach ('/' :: path)) (reach' path))
    (hopened : Text.opened text = false) :
    Echoes t.tree (['/'] ++ ·) (List.Forall₂ rel)
      ((Route.ofText text).follow reach (.led root []))
      ((Route.ofText text).follow reach' (.unled root [])) := by
  have hbegins : (Route.ofText text).Begins := by
    apply Route.begins_ofText
    rwa [Text.dropOpening_eq_self hopened]
  exact Route.echoes_follow ht (Place.twins_separator hroot) hreach (Route.proper_ofText text) rfl
    fun _ => ⟨hbegins, Route.ofText_ne_here text⟩

/-- A literal that is the whole pattern. -/
theorem echoes_led_whole (once : Bool) (depth width : Nat) {text : Text}
    (hopened : Text.opened text = false) :
    Echoes t.tree (['/'] ++ ·) (fun _ _ => True)
      (advance once depth [.literal ('/' :: text) width] (.led root []))
      (advance once depth [.literal text width] (.unled root [])) := by
  have hreach : ∀ path, path ≠ [] → Text.opened path = false →
      Echoes t.tree (['/'] ++ ·) (List.Forall₂ fun _ _ : Text => True)
        ((report once ('/' :: path)).bind fun _ => Walk.done [])
        ((report once path).bind fun _ => Walk.done []) :=
    fun path _ _ => (Walk.echoes_report once path).bind fun _ _ _ => .done .nil
  have hdrop : Route.ofText ('/' :: text) = Route.ofText text := by
    rw [Route.ofText, Route.ofText, Text.dropOpening_eq_self hopened]
    rfl
  rw [advance, advance, hdrop]
  exact (echoes_route ht hroot hreach hopened).bind fun _ _ _ => .done trivial

/-- A literal with a wildcard behind it. -/
theorem echoes_led_head (once : Bool) (depth width : Nat) {text : Text} {rest : List Segment}
    (hrest : Alternating rest) (hne : text ≠ []) (hopened : Text.opened text = false) :
    Echoes t.tree (['/'] ++ ·) (fun _ _ => True)
      (advance once depth (.literal ('/' :: text) width :: rest) (.led root []))
      (advance once depth (.literal text width :: rest) (.unled root [])) := by
  have hreach : ∀ path, path ≠ [] → Text.opened path = false →
      Echoes t.tree (['/'] ++ ·)
        (List.Forall₂ fun told path =>
          told = '/' :: path ∧ path ≠ [] ∧ Text.opened path = false)
        (Walk.done ['/' :: path]) (Walk.done [path]) :=
    fun path hpath hpathOpened => .done (.cons ⟨rfl, hpath, hpathOpened⟩ .nil)
  have htrimmed : Text.trimmed ('/' :: text) = Text.trimmed text := by
    rw [Text.trimmed, Text.trimmed, Text.dropOpening_eq_self hopened]
    rfl
  have htrimmedOpened := (trimmed_of_not_opened hne hopened).2.1
  rw [advance_literal hrest.ne_nil, advance_literal hrest.ne_nil, htrimmed]
  refine (echoes_route ht hroot hreach htrimmedOpened).bind fun told paths hpaths => ?_
  refine Walk.echoes_each (hpaths.imp ?_)
  rintro _ path ⟨rfl, hpath, hpathOpened⟩
  rw [Place.descend_led hpath hpathOpened, Place.descend_unled hroot hpath hpathOpened]
  exact echoes_advance ht (Place.twins_separator hroot) once depth hrest hpathOpened fun hnil =>
    absurd hnil hpath

/-- **The segments of a pattern**, the first with a separator in front. -/
theorem echoes_separator (once : Bool) (depth : Nat) {pattern : Text}
    (hopened : Text.opened pattern = false) :
    Echoes t.tree (['/'] ++ ·) (fun _ _ => True)
      (advance once depth ((Segment.ofPattern pattern).modifyHead Segment.withSeparator)
        (.led root []))
      (advance once depth (Segment.ofPattern pattern) (.unled root [])) := by
  rcases Segment.ofPattern_cases pattern with hnil | hfrom | ⟨text, width, rest, hliteral, hrest⟩
  · rw [hnil]
    exact .done trivial
  · obtain ⟨stars, rest, hsegments⟩ := hfrom.head
    rw [hsegments, List.modifyHead_cons, Segment.withSeparator, advance_wild _ _ _ stars]
    rw [hsegments] at hfrom
    exact echoes_advance ht (Place.twins_separator hroot) once depth hfrom rfl fun _ _ => .inl rfl
  · have htext : Text.opened text = false := Segment.opened_first hliteral hopened
    have hne : (Segment.literal text width).text ≠ [] :=
      @Segment.text_ne_nil pattern _ (hliteral ▸ List.mem_cons_self)
    rw [hliteral, List.modifyHead_cons, Segment.withSeparator]
    rcases hrest with rfl | hrest
    · exact echoes_led_whole ht hroot once depth width htext
    · exact echoes_led_head ht hroot once depth width hrest hne htext

end Expansion

theorem Expansion.repeats_separator (segments : List Segment) :
    repeats (segments.modifyHead Segment.withSeparator) = repeats segments := by
  cases segments with
  | nil => rfl
  | cons first rest => cases first <;> simp [Segment.withSeparator, repeats, Segment.isWild]

theorem Expansion.start_separator (root : Text) {segments : List Segment} (hne : segments ≠ []) :
    start root (segments.modifyHead Segment.withSeparator) = ⟨root, ['/']⟩ := by
  obtain ⟨first, rest, rfl⟩ := List.exists_cons_of_ne_nil hne
  cases first <;> rfl

/-- **A separator in front of a pattern** is put in front of what is found, and does nothing
else. In the tree of some paths and below any root, before listeners that answer alike, the
walk with the separator ends as the walk without it does, and it finds the same paths in the
same order, each with a separator in front. The pattern must not be empty, begin with a
separator or with dots for its root, and it has to be one that can be read. -/
theorem glob_separated (paths : List Text) (root : Text) {pattern : Text} {segments : List Segment}
    (hne : pattern ≠ []) (hopened : Text.opened pattern = false)
    (hdots : Lexical.dotPart pattern = []) (hread : Segment.read pattern = .ok segments)
    {listener other : Listener}
    (hfollows : listener.Follows other (Anchored.of ('/' :: pattern) root).root
      (Anchored.of pattern root).root ('/' :: ·)) :
    ((PathTree.ofPaths paths).tree.glob listener ('/' :: pattern) root).ending =
        ((PathTree.ofPaths paths).tree.glob other pattern root).ending ∧
      ((PathTree.ofPaths paths).tree.glob listener ('/' :: pattern) root).found =
        ((PathTree.ofPaths paths).tree.glob other pattern root).found.map ('/' :: ·) := by
  have hroot := Lexical.clean_ne_nil root
  have hbelow := Anchored.withEverythingBelow_ne_nil hne
  have hbelowOpened := Anchored.opened_withEverythingBelow hne hopened
  obtain ⟨others, hothers⟩ := Segment.read_withEverythingBelow hread
  obtain ⟨rfl, hcheck⟩ := Segment.read_eq_ok.1 hothers
  have hseparated : Segment.read ('/' :: Anchored.withEverythingBelow pattern) = .ok
      ((Segment.ofPattern (Anchored.withEverythingBelow pattern)).modifyHead
        Segment.withSeparator) := by
    rw [Segment.read_eq_ok, Segment.ofPattern_separator hbelow hbelowOpened]
    exact ⟨rfl, Segment.check_separator hcheck⟩
  have hled := Anchored.of_separator hne hopened hdots root
  have hunled := Anchored.of_alone hne hopened hdots root
  rw [hled, hunled] at hfollows
  have hnil : Segment.ofPattern (Anchored.withEverythingBelow pattern) ≠ [] := by
    intro hempty
    refine hbelow ?_
    rw [← Segment.flat_ofPattern (Anchored.withEverythingBelow pattern), hempty]
    rfl
  rw [Tree.glob, Tree.glob, Walk.glob_of_read _ hled hseparated,
    Walk.glob_eq _ hunled hbelowOpened hothers, Expansion.repeats_separator,
    Expansion.start_separator _ hnil]
  have hechoes := Expansion.echoes_separator (PathTree.sound_ofPaths paths) hroot
    (Expansion.repeats (Segment.ofPattern (Anchored.withEverythingBelow pattern)))
    (PathTree.ofPaths paths).tree.depth hbelowOpened
  obtain ⟨hending, hfound⟩ := Walk.Echoes.run_root hechoes (List.append_right_injective ['/']) hfollows
  exact ⟨hending.eq, hfound⟩

/-- Both runs are stopped at the first of two matches. -/
theorem glob_separated_stopped :
    (((PathTree.ofPaths ["d/b".toList, "b".toList]).tree.glob
          (ListenerPolicy.mk none (some 1) true).listener "/**/b".toList "..".toList).ending =
        ((PathTree.ofPaths ["d/b".toList, "b".toList]).tree.glob
          (ListenerPolicy.mk none (some 1) true).listener "**/b".toList "..".toList).ending ∧
      ((PathTree.ofPaths ["d/b".toList, "b".toList]).tree.glob
          (ListenerPolicy.mk none (some 1) true).listener "/**/b".toList "..".toList).found =
        ((PathTree.ofPaths ["d/b".toList, "b".toList]).tree.glob
          (ListenerPolicy.mk none (some 1) true).listener "**/b".toList "..".toList).found.map
            ('/' :: ·)) ∧
      ((PathTree.ofPaths ["d/b".toList, "b".toList]).tree.glob
          (ListenerPolicy.mk none (some 1) true).listener "**/b".toList "..".toList).found =
        ["b".toList] := by
  have hread : Segment.read "**/b".toList = .ok
      [.wild "**/".toList, .literal "b".toList 1] := by decide +kernel
  exact ⟨glob_separated _ _ (by decide) (by decide) (by decide) hread
    (ListenerPolicy.follows _ _ _ _), by cbv⟩

end PathGlob
