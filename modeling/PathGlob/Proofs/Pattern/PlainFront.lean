/-
The segments of a pattern with plain names written in front of it, or with a wildcard
for its closing separator.

Names in front become pieces that are no wildcards. Where the pattern begins with a
literal they join it, and where it begins with a wildcard they are a literal of their
own; nothing changes further on (`ofPattern_front`).

The wildcard at the end is a piece of stars. It can do something to the piece in front
of it: a bare separator behind another wildcard is a literal as long as it is the last
piece and belongs to the wildcards when stars follow. So a literal may be lost but none
is new (`plainRuns_concat`), and a pattern that can be read can be read with the wildcard
(`read_withEverythingBelow`).
-/
import PathGlob.Proofs.Lexical.PlainRoot
import PathGlob.Proofs.Pattern.Segmentation

set_option autoImplicit false

namespace PathGlob

open Text (SolidNames)

namespace Segment

/-! ## Names in front -/

/-- The segments with a literal in front, which joins a literal that is there. -/
def withFront (front : Text) (width : Nat) : List Segment → List Segment
  | .literal text _ :: rest => .literal (front ++ text) width :: rest
  | segments => .literal front width :: segments

/-- The same for runs of pieces. -/
def frontRuns (front : List Text) : List (Bool × List Text) → List (Bool × List Text)
  | (false, run) :: more => (false, front ++ run) :: more
  | groups => (false, front) :: groups

variable {names : List Text}

theorem withClosings_front (names : List Text) {more : List Text} (hmore : more ≠ []) :
    withClosings (names ++ more) = closings true names ++ withClosings more := by
  induction names with
  | nil => rfl
  | cons name rest ih =>
    have hne : rest ++ more ≠ [] := by simp [hmore]
    rw [List.cons_append, closings, List.cons_append, ← ih, Bool.true_or, if_pos rfl]
    obtain ⟨next, others, hcons⟩ := List.exists_cons_of_ne_nil hne
    rw [hcons, withClosings]
    simp

theorem components_front (hnames : ∀ name ∈ names, Text.IsName name) (pattern : Text) :
    Text.components (spell '/' true names ++ pattern) = names ++ Text.components pattern := by
  induction names with
  | nil => rfl
  | cons name rest ih =>
    rw [List.forall_mem_cons] at hnames
    rw [spell_true_cons, List.append_assoc, List.cons_append, Text.components,
      List.splitOn_append_cons_self_of_not_mem hnames.1.2]
    exact congrArg (name :: ·) (ih hnames.2)

/-- Each name is a piece. -/
theorem pieces_front (hnames : ∀ name ∈ names, Text.IsName name) (pattern : Text) :
    pieces (spell '/' true names ++ pattern) = closings true names ++ pieces pattern := by
  have hne : Text.components pattern ≠ [] := List.splitOn_ne_nil '/' pattern
  rw [pieces, components_front hnames, withClosings_front names hne]
  rfl

/-- What comes before matters only to a bare separator. -/
theorem markWild_before {before : Bool} {pieces : List Text} (h : pieces.head? ≠ some ['/']) :
    markWild before pieces = markWild false pieces := by
  cases pieces with
  | nil => rfl
  | cons piece rest =>
    have hbare : (piece == ['/']) = false := by simpa using h
    rw [markWild, markWild, hbare, Bool.and_false, Bool.and_false, Bool.false_and]

/-- The names are no wildcards. -/
theorem markWild_front (hnames : ∀ name ∈ names, Text.Solid name) {before : Bool}
    {pieces : List Text} (h : pieces.head? ≠ some ['/']) :
    markWild before (closings true names ++ pieces) =
      (closings true names).map (false, ·) ++ markWild false pieces := by
  induction names generalizing before with
  | nil => exact markWild_before h
  | cons name rest ih =>
    obtain ⟨hname, hrest⟩ := List.forall_mem_cons.1 hnames
    have hpiece : isStars (name ++ ['/']) = false := by
      have hclose := isStars_close hname.isName true
      rw [if_pos rfl] at hclose
      rw [hclose]
      obtain ⟨c, more, rfl⟩ := List.exists_cons_of_ne_nil hname.isName.1
      have hplain := hname.plain
      rw [Mask.isPlain, List.all_cons, Bool.and_eq_true, Bool.and_eq_true, Bool.and_eq_true,
        bne_iff_ne] at hplain
      rw [isStars, Text.dropClosing, Text.closed_name hname.isName, if_neg Bool.false_ne_true,
        List.all_cons, beq_false_of_ne hplain.1.1.1, Bool.false_and, Bool.and_false]
    have hbare : (name ++ ['/'] == ['/']) = false := by simpa using hname.isName.1
    rw [closings, Bool.true_or, if_pos rfl, List.cons_append, markWild, hpiece, hbare,
      Bool.and_false, Bool.false_and, Bool.or_false, ih hrest]
    rfl

/-- So they join the first run or make one. -/
theorem runs_front {front : List Text} (hne : front ≠ []) (marks : List (Bool × Text)) :
    runs (front.map (false, ·) ++ marks) = frontRuns front (runs marks) := by
  induction front with
  | nil => exact absurd rfl hne
  | cons piece rest ih =>
    rw [List.map_cons, List.cons_append, runs]
    by_cases hrest : rest = []
    · subst hrest
      rw [List.map_nil, List.nil_append]
      rcases runs marks with _ | ⟨⟨kind, run⟩, more⟩
      · rfl
      · cases kind <;> rfl
    · rw [ih hrest]
      rcases runs marks with _ | ⟨⟨kind, run⟩, more⟩
      · rfl
      · cases kind <;> rfl

/-- A pattern that begins with no separator has no bare one for its first piece. -/
theorem head_pieces {pattern : Text} (hopened : Text.opened pattern = false) :
    (pieces pattern).head? ≠ some ['/'] := by
  intro h
  obtain ⟨rest, hpieces⟩ := List.head?_eq_some_iff.1 h
  have hflat := flatten_pieces pattern
  rw [hpieces, List.flatten_cons] at hflat
  rw [← hflat] at hopened
  exact absurd hopened (by simp [Text.opened])

/-- The first segment of such a pattern begins with no separator either. -/
theorem opened_first {pattern : Text} {first : Segment} {rest : List Segment}
    (h : ofPattern pattern = first :: rest) (hopened : Text.opened pattern = false) :
    Text.opened first.text = false := by
  rw [← flat_ofPattern pattern, h, List.flatMap_cons] at hopened
  exact Text.opened_left hopened

/-- No segment is empty. -/
theorem text_ne_nil {pattern : Text} {segment : Segment} (h : segment ∈ ofPattern pattern) :
    segment.text ≠ [] := by
  obtain ⟨pre, post, hsplit⟩ := List.append_of_mem h
  obtain ⟨front, ⟨kind, run⟩, back, hgroups, rfl, -⟩ := exists_run hsplit
  obtain ⟨piece, more, rfl⟩ := List.exists_cons_of_ne_nil (run_ne_nil hgroups)
  rw [text_ofRun, List.flatten_cons]
  exact List.append_ne_nil_of_left_ne_nil
    ((pieced_run hgroups).ne_nil piece List.mem_cons_self) _

/-- **The segments with names in front.** -/
theorem ofPattern_front (h : SolidNames names) {pattern : Text}
    (hopened : Text.opened pattern = false) :
    ∃ width, ofPattern (spell '/' true names ++ pattern) =
      withFront (spell '/' true names) width (ofPattern pattern) := by
  have hhead := head_pieces hopened
  have hne : closings true names ≠ [] := by
    rw [← List.length_pos_iff, length_closings]
    exact List.length_pos_iff.2 h.ne_nil
  rw [ofPattern, ofPattern, pieces_front h.isName, markWild_front h.solid hhead, runs_front hne,
    @markWild_before true _ hhead, ← flatten_closings]
  rcases runs (markWild false (pieces pattern)) with _ | ⟨⟨kind, run⟩, more⟩
  · exact ⟨_, rfl⟩
  · cases kind with
    | false =>
      refine ⟨span true (closings true names ++ run), ?_⟩
      simp [frontRuns, ofRun, withFront, List.flatten_append]
    | true => exact ⟨_, rfl⟩

/-- A literal behind the change is the front, alone or with a literal of the pattern, or
it is one of the pattern. -/
theorem mem_withFront {front text : Text} {width width' : Nat} {segments : List Segment}
    (h : .literal text width' ∈ withFront front width segments) :
    text = front ∨ (∃ first width, .literal first width ∈ segments ∧ text = front ++ first) ∨
      .literal text width' ∈ segments := by
  have halone : ∀ {others : List Segment}, .literal text width' ∈ .literal front width :: others →
      text = front ∨ .literal text width' ∈ others := by
    intro others hmem
    rcases List.mem_cons.1 hmem with heq | hmem
    · exact .inl (Segment.literal.inj heq).1
    · exact .inr hmem
  rcases segments with _ | ⟨⟨first, width''⟩ | stars, rest⟩
  · exact (halone h).imp_right .inr
  · rcases List.mem_cons.1 h with heq | hmem
    · exact .inr (.inl ⟨first, width'', List.mem_cons_self, (Segment.literal.inj heq).1⟩)
    · exact .inr (.inr (List.mem_cons_of_mem _ hmem))
  · exact (halone h).imp_right .inr

/-- The names are read as they stand, so the pattern can be read with them. -/
theorem read_front (h : SolidNames names) {pattern : Text} {segments : List Segment}
    (hopened : Text.opened pattern = false) (hread : read pattern = .ok segments) :
    ∃ width, read (spell '/' true names ++ pattern) =
      .ok (withFront (spell '/' true names) width segments) := by
  obtain ⟨rfl, hcheck⟩ := read_eq_ok.1 hread
  obtain ⟨width, hwidth⟩ := ofPattern_front h hopened
  have hreadable : Readable names := fun name hname =>
    ⟨_, Mask.parse_plain (h.solid name hname).plain (h.solid name hname).unescaped⟩
  obtain ⟨masks, hmasks⟩ := hreadable.readAs
  have hfront := @Mask.parse_spell true _ _ hmasks
  refine ⟨width, read_eq_ok.2 ⟨hwidth.symm, check_of_exists_parse ?_⟩⟩
  intro text width' hmem
  rcases mem_withFront hmem with rfl | ⟨first, width'', hfirst, rfl⟩ | hmem
  · exact ⟨_, hfront⟩
  · obtain ⟨mask, hmask⟩ := exists_parse_of_check hcheck hfirst
    exact ⟨_, Mask.parse_append_ok hfront hmask⟩
  · exact exists_parse_of_check hcheck hmem

/-! ## Stars at the end -/

/-- The runs that are literals. -/
def plainRuns (groups : List (Bool × List Text)) : List (Bool × List Text) :=
  groups.filter fun group => !group.1

/-- The first run, if it is a literal. -/
def plainHead : List (Bool × List Text) → Option (List Text)
  | (false, run) :: _ => some run
  | _ => none

/-- A piece of a wildcard in front leaves the literals alone. -/
theorem plainRuns_wild (piece : Text) (marks : List (Bool × Text)) :
    plainRuns (runs ((true, piece) :: marks)) = plainRuns (runs marks) ∧
      plainHead (runs ((true, piece) :: marks)) = none := by
  rw [runs]
  rcases runs marks with _ | ⟨⟨kind, run⟩, more⟩
  · exact ⟨rfl, rfl⟩
  · cases kind <;> exact ⟨rfl, rfl⟩

/-- Other pieces in front change the first literal run or make one. -/
theorem plainRuns_front (front : List Text) (groups : List (Bool × List Text)) :
    plainRuns (frontRuns front groups) =
        (false, front ++ (plainHead groups).getD []) ::
          (plainRuns groups).drop (if (plainHead groups).isSome then 1 else 0) ∧
      plainHead (frontRuns front groups) = some (front ++ (plainHead groups).getD []) := by
  rcases groups with _ | ⟨⟨kind, run⟩, more⟩
  · simp [frontRuns, plainRuns, plainHead]
  · cases kind <;> simp [frontRuns, plainRuns, plainHead]

theorem runs_plain (piece : Text) (marks : List (Bool × Text)) :
    runs ((false, piece) :: marks) = frontRuns [piece] (runs marks) :=
  runs_front (List.cons_ne_nil piece []) marks

/-- **No literal is new** when stars come at the end. Behind a literal the first run stays
the same as well. -/
theorem plainRuns_concat {stars : Text} (hstars : isStars stars = true) (before : Bool)
    (pieces : List Text) :
    (plainRuns (runs (markWild before (pieces ++ [stars])))).Sublist
        (plainRuns (runs (markWild before pieces))) ∧
      (before = false → plainHead (runs (markWild before (pieces ++ [stars]))) =
        plainHead (runs (markWild before pieces))) := by
  have hlast : ∀ before, markWild before [stars] = [(true, stars)] := by
    intro before
    rw [markWild, hstars, Bool.true_or]
    rfl
  induction pieces generalizing before with
  | nil =>
    rw [List.nil_append, hlast]
    exact ⟨List.nil_sublist _, fun _ => rfl⟩
  | cons piece rest ih =>
    rw [List.cons_append, markWild, markWild]
    by_cases hrest : rest = []
    · -- The last piece. Here stars can make a wildcard of a bare separator.
      subst hrest
      rw [List.nil_append, hlast, markWild]
      simp only [List.head?_nil, List.head?_cons, Option.any_none, Option.any_some, hstars,
        Bool.and_false, Bool.and_true, Bool.or_false]
      cases isStars piece with
      | true =>
        rw [Bool.true_or, (plainRuns_wild piece _).1, (plainRuns_wild piece _).2,
          (plainRuns_wild stars _).1]
        exact ⟨List.nil_sublist _, fun _ => rfl⟩
      | false =>
        cases hbare : before && piece == ['/'] with
        | true =>
          rw [Bool.false_or, (plainRuns_wild piece _).1, (plainRuns_wild stars _).1]
          refine ⟨List.nil_sublist _, fun hbefore => ?_⟩
          rw [hbefore] at hbare
          exact absurd hbare Bool.false_ne_true
        | false => exact ⟨.refl _, fun _ => rfl⟩
    · have hhead : (rest ++ [stars]).head? = rest.head? := List.head?_append_of_ne_nil rest hrest
      rw [hhead]
      generalize (isStars piece || before && piece == ['/'] && rest.head?.any isStars) = mark
      obtain ⟨hsublist, hsame⟩ := ih mark
      cases mark with
      | true =>
        rw [(plainRuns_wild piece _).1, (plainRuns_wild piece _).1, (plainRuns_wild piece _).2,
          (plainRuns_wild piece _).2]
        exact ⟨hsublist, fun _ => rfl⟩
      | false =>
        rw [runs_plain, runs_plain, (plainRuns_front _ _).1, (plainRuns_front _ _).1,
          (plainRuns_front _ _).2, (plainRuns_front _ _).2, hsame rfl]
        exact ⟨(hsublist.drop _).cons_cons _, fun _ => rfl⟩

/-- The literals of a pattern are its runs that are no wildcards. -/
theorem exists_literal_iff {pattern text : Text} :
    (∃ width, .literal text width ∈ ofPattern pattern) ↔
      ∃ run, (false, run) ∈ groups pattern ∧ run.flatten = text := by
  rw [ofPattern_eq]
  constructor
  · rintro ⟨width, hmem⟩
    obtain ⟨i, hi, hsegment⟩ := List.mem_mapIdx.1 hmem
    generalize hgroup : (groups pattern)[i] = group at hsegment
    obtain ⟨kind, run⟩ := group
    cases kind with
    | true => cases hsegment
    | false => exact ⟨run, hgroup ▸ List.getElem_mem hi, (Segment.literal.inj hsegment).1⟩
  · rintro ⟨run, hmem, rfl⟩
    obtain ⟨i, hi, hgroup⟩ := List.getElem_of_mem hmem
    refine ⟨span (i == 0) run, List.mem_mapIdx.2 ⟨i, hi, ?_⟩⟩
    rw [hgroup]
    rfl

/-- A pattern can be cut into pieces from any of its separators on. -/
theorem pieces_behind (front rest : Text) :
    pieces (front ++ '/' :: rest) = closings true (Text.components front) ++ pieces rest := by
  have hne : Text.components rest ≠ [] := List.splitOn_ne_nil '/' rest
  have hsplit : Text.components (front ++ '/' :: rest) =
      Text.components front ++ Text.components rest := List.splitOn_append_cons_self front rest
  rw [pieces, hsplit, withClosings_front _ hne]
  rfl

/-- A wildcard behind a separator is a piece of its own. -/
theorem pieces_concat {pattern : Text} (hclosed : Text.closed pattern = true) :
    pieces (pattern ++ ['*', '*']) = pieces pattern ++ [['*', '*']] := by
  obtain ⟨front, rfl⟩ := Text.exists_of_closed hclosed
  rw [List.append_assoc, List.singleton_append, pieces_behind, pieces_behind, List.append_assoc]
  rfl

/-- **A pattern that can be read** can be read with the wildcard for its closing separator. -/
theorem read_withEverythingBelow {pattern : Text} {segments : List Segment}
    (h : read pattern = .ok segments) :
    ∃ others, read (Anchored.withEverythingBelow pattern) = .ok others := by
  rw [Anchored.withEverythingBelow]
  split
  · rename_i hclosed
    obtain ⟨rfl, hcheck⟩ := read_eq_ok.1 h
    refine ⟨_, read_eq_ok.2 ⟨rfl, check_of_exists_parse fun text width hmem => ?_⟩⟩
    obtain ⟨run, hrun, hflat⟩ := exists_literal_iff.1 ⟨width, hmem⟩
    -- The literal has been one without the wildcard.
    have hplain : (false, run) ∈ plainRuns (groups (pattern ++ ['*', '*'])) :=
      List.mem_filter.2 ⟨hrun, rfl⟩
    rw [groups, pieces_concat hclosed] at hplain
    have hold := (plainRuns_concat (by decide) true (pieces pattern)).1.mem hplain
    obtain ⟨width', hliteral⟩ := exists_literal_iff.2 ⟨run, List.mem_of_mem_filter hold, hflat⟩
    exact exists_parse_of_check hcheck hliteral
  · exact ⟨segments, h⟩

end Segment

end PathGlob
