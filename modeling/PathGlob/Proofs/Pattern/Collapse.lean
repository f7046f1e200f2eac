/-
Wildcards in a row are one, and all that matters of a wildcard is its ends.

Where components of stars follow one another they fall into the same run, however
many they are, and so into the same segment; the segments in front of it and behind
it do not depend on them (`exists_ofPattern_around`). Matching asks of a wildcard
only whether a separator opens it and whether one closes it. So every wildcard can
be made as short as these two allow (`shorten`) before the segments are used, and
patterns that are the same after that match the same names (`test_of_shorten`).
-/
import PathGlob.Proofs.Pattern.PlainFront

set_option autoImplicit false

namespace PathGlob

namespace Segment

variable {before after : Text}

/-! ## Wildcards in a row -/

/-- Some components of a pattern are pieces, and what stands around them is cut as if
they were others. -/
theorem exists_pieces_around (hbefore : before = [] ∨ Text.closed before = true)
    (hafter : after = [] ∨ Text.opened after = true) :
    ∃ front closed back, ∀ {parts : List Text}, parts ≠ [] → (∀ part ∈ parts, Text.IsName part) →
      pieces (before ++ (spell '/' false parts ++ after)) =
        front ++ (closings closed parts ++ back) := by
  obtain ⟨front, hfront⟩ : ∃ front, ∀ rest, pieces (before ++ rest) = front ++ pieces rest := by
    rcases hbefore with rfl | hclosed
    · exact ⟨[], fun _ => rfl⟩
    · obtain ⟨init, rfl⟩ := Text.exists_of_closed hclosed
      exact ⟨closings true (Text.components init), fun rest => by
        rw [List.append_assoc, List.singleton_append, pieces_behind]⟩
  rcases hafter with rfl | hopened
  · refine ⟨front, false, [], fun {parts} hne hparts => ?_⟩
    have hpieces := @pieces_written false false parts hne hparts
    rw [Text.written_false] at hpieces
    rw [List.append_nil, List.append_nil, hfront, hpieces]
    rfl
  · obtain ⟨tail, rfl⟩ := Text.exists_of_opened hopened
    refine ⟨front, true, pieces tail, fun {parts} hne hparts => ?_⟩
    have hspell : spell '/' false parts ++ '/' :: tail = spell '/' true parts ++ tail := by
      rw [spell_true hne, List.append_assoc, List.singleton_append]
    rw [hfront, hspell, pieces_front hparts]

theorem isStars_closings {stars : List Text} (hstars : ∀ part ∈ stars, Stars part) (closed : Bool) :
    ∀ piece ∈ closings closed stars, isStars piece = true := by
  induction stars with
  | nil => simp [closings]
  | cons part rest ih =>
    obtain ⟨hpart, hrest⟩ := List.forall_mem_cons.1 hstars
    exact List.forall_mem_cons.2 ⟨isStars_of_stars hpart _, ih hrest⟩

theorem markWild_stars {stars : List Text} (hstars : ∀ piece ∈ stars, isStars piece = true)
    (back : List Text) :
    markWild true (stars ++ back) = stars.map (true, ·) ++ markWild true back := by
  induction stars with
  | nil => rfl
  | cons piece rest ih =>
    obtain ⟨hpiece, hrest⟩ := List.forall_mem_cons.1 hstars
    rw [List.cons_append, markWild, hpiece, Bool.true_or, ih hrest]
    rfl

/-- The pieces in front of stars are marked alike whichever stars these are: a bare
separator there only asks whether stars come next. -/
theorem exists_marks_around (before : Bool) (front back : List Text) :
    ∃ marks, ∀ {stars : List Text}, stars ≠ [] → (∀ piece ∈ stars, isStars piece = true) →
      markWild before (front ++ (stars ++ back)) =
        marks ++ (stars.map (true, ·) ++ markWild true back) := by
  induction front generalizing before with
  | nil =>
    refine ⟨[], fun {stars} hne hstars => ?_⟩
    obtain ⟨piece, rest, rfl⟩ := List.exists_cons_of_ne_nil hne
    obtain ⟨hpiece, hrest⟩ := List.forall_mem_cons.1 hstars
    rw [List.nil_append, List.cons_append, markWild, hpiece, Bool.true_or, markWild_stars hrest]
    rfl
  | cons piece front ih =>
    -- Behind the last piece of the front come the stars.
    let mark := isStars piece || before && piece == ['/'] && front.head?.elim true isStars
    obtain ⟨marks, hmarks⟩ := ih mark
    refine ⟨(mark, piece) :: marks, fun {stars} hne hstars => ?_⟩
    have hnext : (front ++ (stars ++ back)).head?.any isStars = front.head?.elim true isStars := by
      cases front with
      | cons other front => rfl
      | nil =>
        obtain ⟨first, rest, rfl⟩ := List.exists_cons_of_ne_nil hne
        exact hstars first List.mem_cons_self
    rw [List.cons_append, markWild, hnext, hmarks hne hstars, List.cons_append]

/-- **However many wildcards follow one another**, they are in one segment, and the
segments around it are the same. -/
theorem exists_ofPattern_around (hbefore : before = [] ∨ Text.closed before = true)
    (hafter : after = [] ∨ Text.opened after = true) :
    ∃ pre left right post, ∀ {stars : List Text}, stars ≠ [] → (∀ part ∈ stars, Stars part) →
      ofPattern (before ++ (spell '/' false stars ++ after)) =
        pre ++ .wild (left ++ (spell '/' false stars ++ right)) :: post := by
  obtain ⟨front, closed, back, hpieces⟩ := exists_pieces_around hbefore hafter
  obtain ⟨marks, hmarks⟩ := exists_marks_around true front back
  obtain ⟨pre, left, right, post, hruns⟩ := exists_runs_around true marks (markWild true back)
  let close : Text := if closed then ['/'] else []
  refine ⟨pre.mapIdx fun i => ofRun (i == 0), left.flatten, close ++ right.flatten,
    post.mapIdx fun i => ofRun (i + 1 + pre.length == 0), fun {stars} hne hstars => ?_⟩
  have hparts : ∀ part ∈ stars, Text.IsName part := fun part hpart =>
    isName_of_stars (hstars part hpart)
  have hclosings : closings closed stars ≠ [] := by
    rw [← List.length_pos_iff, length_closings, List.length_pos_iff]
    exact hne
  have hspell : spell '/' closed stars = spell '/' false stars ++ close := by
    cases closed with
    | true => exact spell_true hne
    | false => exact (List.append_nil _).symm
  rw [ofPattern_eq, groups, hpieces hne hparts, hmarks hclosings (isStars_closings hstars closed),
    hruns hclosings, List.mapIdx_append, List.mapIdx_cons, ofRun, List.flatten_append,
    List.flatten_append, flatten_closings, hspell, List.append_assoc]

/-! ## Shortened wildcards -/

/-- Two stars, with a separator on each side where the wildcard has one. -/
def shortWild (text : Text) : Text :=
  (if Text.opened text then ['/'] else []) ++ ['*', '*'] ++ if Text.closed text then ['/'] else []

/-- The segment, a wildcard as short as its ends allow. -/
def shorten : Segment → Segment
  | .literal text width => .literal text width
  | .wild text => .wild (shortWild text)

@[simp] theorem opened_shortWild (text : Text) :
    Text.opened (shortWild text) = Text.opened text := by
  rw [shortWild]
  cases Text.opened text <;> rfl

@[simp] theorem closed_shortWild (text : Text) :
    Text.closed (shortWild text) = Text.closed text := by
  rw [shortWild]
  cases Text.closed text <;> simp [Text.closed]

theorem opened_shorten (segment : Segment) :
    Text.opened segment.shorten.text = Text.opened segment.text := by
  cases segment with
  | literal text width => rfl
  | wild text => exact opened_shortWild text

theorem isWild_shorten (segment : Segment) : segment.shorten.isWild = segment.isWild := by
  cases segment <;> rfl

/-- What stands around a text covers its ends. -/
theorem shortWild_around {text other : Text} (left right : Text) (hne : text ≠ [])
    (hother : other ≠ []) (hopened : Text.opened text = Text.opened other)
    (hclosed : Text.closed text = Text.closed other) :
    shortWild (left ++ (text ++ right)) = shortWild (left ++ (other ++ right)) := by
  have hopen : Text.opened (left ++ (text ++ right)) = Text.opened (left ++ (other ++ right)) := by
    cases left with
    | cons c left => rfl
    | nil =>
      obtain ⟨c, text, rfl⟩ := List.exists_cons_of_ne_nil hne
      obtain ⟨d, other, rfl⟩ := List.exists_cons_of_ne_nil hother
      exact hopened
  have hclose : Text.closed (left ++ (text ++ right)) = Text.closed (left ++ (other ++ right)) := by
    by_cases hright : right = []
    · rw [hright, List.append_nil, List.append_nil, Text.closed_append hne,
        Text.closed_append hother, hclosed]
    · rw [← List.append_assoc, ← List.append_assoc, Text.closed_append hright,
        Text.closed_append hright]
  rw [shortWild, shortWild, hopen, hclose]

/-- **However many wildcards follow one another**, shortened they leave the same segments. -/
theorem shorten_ofPattern_around (hbefore : before = [] ∨ Text.closed before = true)
    (hafter : after = [] ∨ Text.opened after = true) {stars others : List Text}
    (hne : stars ≠ []) (hstars : ∀ part ∈ stars, Stars part) (hne' : others ≠ [])
    (hothers : ∀ part ∈ others, Stars part) :
    (ofPattern (before ++ (spell '/' false stars ++ after))).map shorten =
      (ofPattern (before ++ (spell '/' false others ++ after))).map shorten := by
  obtain ⟨pre, left, right, post, hsegments⟩ := exists_ofPattern_around hbefore hafter
  have hnames : ∀ part ∈ stars, Text.IsName part := fun part hpart =>
    isName_of_stars (hstars part hpart)
  have hnames' : ∀ part ∈ others, Text.IsName part := fun part hpart =>
    isName_of_stars (hothers part hpart)
  have hwild : shortWild (left ++ (spell '/' false stars ++ right)) =
      shortWild (left ++ (spell '/' false others ++ right)) := by
    refine shortWild_around left right (Text.spell_ne_nil hne hnames)
      (Text.spell_ne_nil hne' hnames') ?_ ?_
    · rw [Text.opened_spell hnames, Text.opened_spell hnames']
    · rw [Text.closed_spell hne hnames, Text.closed_spell hne' hnames']
  rw [hsegments hne hstars, hsegments hne' hothers, List.map_append, List.map_append, List.map_cons,
    List.map_cons, shorten, shorten, hwild]

/-! ## Matching with shortened wildcards -/

theorem check_shorten (segments : List Segment) :
    check (segments.map shorten) = check segments := by
  induction segments with
  | nil => rfl
  | cons segment rest ih =>
    cases segment with
    | wild text => exact ih
    | literal text width =>
      rw [List.map_cons, shorten, check, check, ih]

theorem endsOpen_shorten (segments : List Segment) :
    endsOpen (segments.map shorten) = endsOpen segments := by
  rcases segments with _ | ⟨⟨⟩ | ⟨text⟩, _ | ⟨next, rest⟩⟩
  · rfl
  · rfl
  · rfl
  · exact congrArg (!·) (closed_shortWild text)
  · rfl

theorem fitsWindow_shorten (name text : Text) (rest : List Segment) (w : Window) :
    fitsWindow name text (rest.map shorten) w = fitsWindow name text rest w := by
  rw [fitsWindow, fitsWindow]
  cases hclosing : w.closing with
  | separator => rfl
  | finish => rw [windowText, windowText, endsOpen_shorten]

theorem searchWindows_shorten (name text : Text) (rest : List Segment) (windows : List Window) :
    searchWindows name text (rest.map shorten) windows = searchWindows name text rest windows := by
  induction windows with
  | nil => rfl
  | cons w ws ih => rw [searchWindows, searchWindows, fitsWindow_shorten, ih]

theorem matchFrom_shorten (name : Text) (cursor : Nat) (segments : List Segment) :
    matchFrom name cursor (segments.map shorten) = matchFrom name cursor segments := by
  fun_induction matchFrom name cursor segments with
  | case1 cursor wildcard =>
    rw [List.map_cons, List.map_nil, shorten, matchFrom, matchTail, matchTail, opened_shortWild,
      closed_shortWild]
  | case2 cursor wildcard text width rest ih =>
    simp only [List.map_cons, shorten, matchFrom, searchWindows_shorten, List.isEmpty_map, ih]
  | case3 segments _ hlast hmore =>
    -- Nothing is matched from a literal, or from two wildcards in a row.
    match segments with
    | [] => rfl
    | .literal _ _ :: _ => rfl
    | [.wild wildcard] => exact absurd rfl (hlast wildcard)
    | .wild _ :: .wild _ :: _ => rfl
    | .wild _ :: .literal _ _ :: _ => exact absurd rfl (hmore _ _ _ _)

theorem matchMany_shorten (name : Text) (segments : List Segment) :
    matchMany name (segments.map shorten) = matchMany name segments := by
  match segments with
  | [] => rfl
  | .wild text :: rest =>
    have hfrom := matchFrom_shorten name (if Text.opened name then 1 else 0) (.wild text :: rest)
    rw [List.map_cons, shorten] at hfrom ⊢
    rw [matchMany, matchMany, hfrom, opened_shortWild]
  | .literal text width :: rest =>
    rw [List.map_cons, shorten, matchMany, matchMany]
    simp only [fitsWindow_shorten, matchFrom_shorten]

theorem check_of_shorten {segments others : List Segment}
    (h : segments.map shorten = others.map shorten) : check segments = check others := by
  rw [← check_shorten segments, h, check_shorten]

end Segment

namespace Pattern

open Segment (shorten)

theorem accepts_shorten (text : Text) (segments : List Segment) (name : Text) :
    accepts ⟨text, segments.map shorten⟩ name = accepts ⟨text, segments⟩ name := by
  match segments with
  | [] => rfl
  | [.literal _ _] => rfl
  | [.wild wildcard] =>
    show Except.ok (Segment.allowsRest (Text.opened (Segment.shortWild wildcard))
      (Text.closed (Segment.shortWild wildcard)) name) = _
    rw [Segment.opened_shortWild, Segment.closed_shortWild]
    rfl
  | first :: next :: rest =>
    have hmany := Segment.matchMany_shorten name (first :: next :: rest)
    cases first <;> exact congrArg (if name.isEmpty then Except.ok false else ·) hmany

variable {text other : Text}

/-- Patterns with the same segments, shortened, are refused alike. -/
theorem read_eq_error_iff (h : (Segment.ofPattern text).map shorten =
    (Segment.ofPattern other).map shorten) {e : MalformedMask} :
    read text = .error e ↔ read other = .error e := by
  rw [read, read, Segment.read, Segment.read, Segment.check_of_shorten h]
  cases Segment.check (Segment.ofPattern other) with
  | error fault => exact .rfl
  | ok checked => exact iff_of_false (by simp [Except.map]) (by simp [Except.map])

/-- And they match alike. -/
theorem test_of_shorten (h : (Segment.ofPattern text).map shorten =
    (Segment.ofPattern other).map shorten) (name : Text) : test text name = test other name := by
  have haccepts : accepts ⟨text, Segment.ofPattern text⟩ name =
      accepts ⟨other, Segment.ofPattern other⟩ name := by
    rw [← accepts_shorten, h]
    exact accepts_shorten other (Segment.ofPattern other) name
  rw [test, test, read, read, Segment.read, Segment.read, Segment.check_of_shorten h]
  cases Segment.check (Segment.ofPattern other) with
  | error fault => rfl
  | ok checked => exact haccepts

end Pattern

end PathGlob
