/-
A pattern without components of stars, alone and with a wildcard in front.

Such a pattern is one literal with as many components as it has pieces
(`ofPattern_literal`), and alone it is one mask for the whole name. Behind `**/` it is
searched for in windows of that many names (`ofPattern_wildFront`). The two agree where
the whole name is such a window. A mask can take a name with more components, or with
fewer: a separator in a class is counted as the end of a component, and a class that is
negated takes the separators of the name. Then the wildcard in front can lose the match,
and `LosesEnd` says exactly when.
-/
import PathGlob.Proofs.Pattern.Exceptions
import PathGlob.Proofs.Pattern.PlainFront

set_option autoImplicit false

namespace PathGlob

namespace Segment

variable {pattern : Text}

/-! ## The segments -/

/-- Every piece is a component, closed or not. -/
theorem exists_component {piece : Text} {components : List Text}
    (h : piece ∈ withClosings components) :
    ∃ part ∈ components, ∃ closed : Bool, piece = part ++ if closed then ['/'] else [] := by
  induction components with
  | nil => simp [withClosings] at h
  | cons part rest ih =>
    cases rest with
    | nil =>
      rw [withClosings] at h
      split at h
      · simp at h
      · exact ⟨part, List.mem_cons_self, false, by simpa using h⟩
    | cons next rest =>
      rw [withClosings, List.mem_cons] at h
      · rcases h with rfl | h
        · exact ⟨part, List.mem_cons_self, true, rfl⟩
        · obtain ⟨other, hother, hpiece⟩ := ih h
          exact ⟨other, List.mem_cons_of_mem _ hother, hpiece⟩
      · simp

theorem not_isStars_of_mem_pieces (h : ∀ part ∈ Text.components pattern, ¬ Stars part) :
    ∀ piece ∈ pieces pattern, isStars piece = false := by
  intro piece hpiece
  obtain ⟨part, hpart, closed, rfl⟩ := exists_component hpiece
  rw [Bool.eq_false_iff]
  exact fun hstars =>
    h part hpart (stars_of_isStars (Text.notMem_of_mem_components hpart) closed hstars)

theorem markWild_plain {pieces : List Text} (h : ∀ piece ∈ pieces, isStars piece = false)
    (before : Bool) : markWild before pieces = pieces.map (false, ·) := by
  induction pieces generalizing before with
  | nil => rfl
  | cons piece rest ih =>
    obtain ⟨hpiece, hrest⟩ := List.forall_mem_cons.1 h
    have hnext : rest.head?.any isStars = false := by
      cases rest with
      | nil => rfl
      | cons next rest => exact hrest next List.mem_cons_self
    rw [markWild, hpiece, hnext, Bool.and_false, Bool.or_false, ih hrest]
    rfl

section Literal

variable (hne : pattern ≠ []) (hopened : Text.opened pattern = false)
  (hplain : ∀ part ∈ Text.components pattern, ¬ Stars part)

/-- A pattern that begins with a name has a component for every piece. -/
theorem span_pieces (hopened : Text.opened pattern = false) (opening : Bool) :
    span opening (pieces pattern) = (pieces pattern).length := by
  have hhead := head_pieces hopened
  have hbare : (pieces pattern == [['/']]) = false := by
    rw [beq_eq_false_iff_ne]
    intro heq
    exact hhead (by rw [heq]; rfl)
  rw [span, hbare, beq_false_of_ne hhead, Bool.and_false, if_neg Bool.false_ne_true,
    if_neg Bool.false_ne_true]

include hne hopened hplain

/-- **Without components of stars** there is one literal. -/
theorem ofPattern_literal :
    ofPattern pattern = [.literal pattern (pieces pattern).length] := by
  have hmarks := markWild_plain (not_isStars_of_mem_pieces hplain) true
  have hruns := runs_front (pieces_ne_nil hne) []
  rw [List.append_nil] at hruns
  rw [ofPattern, hmarks, hruns]
  show [ofRun true (false, pieces pattern)] = _
  rw [ofRun, span_pieces hopened, flatten_pieces]

/-- With a wildcard in front it is a second segment. -/
theorem ofPattern_wildFront : ofPattern ("**/".toList ++ pattern) =
    [.wild "**/".toList, .literal pattern (pieces pattern).length] := by
  have hpieces : pieces ("**/".toList ++ pattern) = "**/".toList :: pieces pattern :=
    pieces_behind "**".toList pattern
  have hmarks := markWild_plain (not_isStars_of_mem_pieces hplain) true
  have hruns := runs_front (pieces_ne_nil hne) []
  have hstars : isStars "**/".toList = true := by decide
  rw [List.append_nil] at hruns
  rw [ofPattern, hpieces, markWild, hstars, Bool.true_or, hmarks, runs, hruns]
  show [ofRun true (true, ["**/".toList]), ofRun false (false, pieces pattern)] = _
  rw [ofRun, ofRun, span_pieces hopened, flatten_pieces]
  rfl

end Literal

/-! ## What the wildcard loses -/

theorem isWild_stars : IsWild [['*', '*']] := ⟨List.cons_ne_nil _ _, by decide⟩

/-- The literal fits the names written as one text, but has not as many components, and
no window of the last names fits it, or one that other names follow does. -/
def LosesEnd (text : Text) (width : Nat) (names : List Text) : Prop :=
  Mask.Fits text (spell '/' false names) ∧ names.length ≠ width ∧
    (EndsWith [['*', '*']] text width false names → StopsEarly [['*', '*']] text width names)

/-- A separator in a class is counted as the end of a component. -/
theorem losesEnd_class : LosesEnd "a[^/]b".toList 2 ["axb".toList] := by
  have hparse : Mask.parse "a[^/]b".toList =
      .ok [.char 'a', .oneOf true [⟨'/', '/'⟩], .char 'b'] := by decide +kernel
  have haccepts : Mask.accepts [.char 'a', .oneOf true [⟨'/', '/'⟩], .char 'b'] "axb".toList =
      true := by cbv
  refine ⟨?_, by decide, ?_⟩
  · rw [Mask.Fits, Mask.fits_of_parse hparse]
    exact congrArg Except.ok haccepts
  · rintro ⟨front, back, hnames, -, hlen, -⟩
    have hcount := congrArg List.length hnames
    rw [List.length_append, hlen, List.length_singleton] at hcount
    omega

/-- A name with as many components as the literal is the one window there is. -/
theorem endsWith_whole {text : Text} {width : Nat} {names : List Text}
    (hfits : Mask.Fits text (spell '/' false names)) (hlen : names.length = width) :
    EndsWith [['*', '*']] text width false names ∧ ¬ StopsEarly [['*', '*']] text width names := by
  refine ⟨(leads_wild isWild_stars).2 ⟨[], names, rfl, hlen, hfits⟩, ?_⟩
  rintro ⟨front, _, hnames, -, window, after, rfl, hafter, hwindow, -⟩
  have hcount := congrArg List.length hnames
  have hpos := List.length_pos_iff.2 hafter
  simp only [List.length_append] at hcount
  omega

end Segment

namespace Pattern

open Segment (Stars LosesEnd losesEnd_class EndsWith StopsEarly)

variable {pattern name : Text}

/-- **Behind a wildcard** a literal is searched for in windows. -/
theorem test_wildFront {segments : List Segment} (hread : Segment.read pattern = .ok segments)
    (hne : pattern ≠ []) (hopened : Text.opened pattern = false)
    (hplain : ∀ part ∈ Text.components pattern, ¬ Stars part) {names : List Text}
    (hnames : ∀ n ∈ names, Text.IsName n) (hnamesNe : names ≠ []) :
    Segment.Answers (test ("**/".toList ++ pattern) (spell '/' false names))
      (EndsWith [['*', '*']] pattern (Segment.pieces pattern).length false names ∧
        ¬ StopsEarly [['*', '*']] pattern (Segment.pieces pattern).length names) := by
  obtain ⟨rfl, hcheck⟩ := Segment.read_eq_ok.1 hread
  have hsegments := Segment.ofPattern_literal hne hopened hplain
  have hboth := Segment.ofPattern_wildFront hne hopened hplain
  obtain ⟨mask, hmask⟩ : ∃ mask, Mask.parse pattern = .ok mask := by
    have hmem : .literal pattern (Segment.pieces pattern).length ∈ Segment.ofPattern pattern := by
      rw [hsegments]
      exact List.mem_cons_self
    exact Segment.exists_parse_of_check hcheck hmem
  have hreadBoth : Segment.read ("**/".toList ++ pattern) = .ok
      [.wild "**/".toList, .literal pattern (Segment.pieces pattern).length] := by
    rw [Segment.read_eq_ok, hboth]
    refine ⟨rfl, ?_⟩
    rw [Segment.check, Segment.check, hmask]
    rfl
  have hwidth := List.length_pos_iff.2 (Segment.pieces_ne_nil hne)
  have hnonempty := @Text.spell_ne_nil false names hnamesNe hnames
  have hnameOpened : Text.opened (spell '/' false names) = false := Text.opened_spell hnames
  have hmany : Segment.matchMany (spell '/' false names)
      [.wild "**/".toList, .literal pattern (Segment.pieces pattern).length] =
      Segment.matchFrom (spell '/' false names) (Text.byteSize [])
        [.wild "**/".toList, .literal pattern (Segment.pieces pattern).length] := by
    rw [Segment.matchMany, hnameOpened]
    rfl
  rw [test_of_read hreadBoth, accepts_of_many (by simp) hnonempty, hmany]
  have hwhole : spell '/' false names = [] ++ spell '/' false names := rfl
  refine Segment.matchFrom_parsed Segment.isWild_stars hmask hwidth hwhole hnames ?_
  exact fun hclosed => absurd hclosed Bool.false_ne_true

/-- **A wildcard in front of a pattern** matches zero components, so what the pattern
matches is matched with `**/` in front, unless the literal loses the end of the name. -/
theorem test_wildFront_iff {segments : List Segment} (hread : Segment.read pattern = .ok segments)
    (hne : pattern ≠ []) (hopened : Text.opened pattern = false)
    (hplain : ∀ part ∈ Text.components pattern, ¬ Stars part) (hname : name ≠ [])
    (hnameOpened : Text.opened name = false) (hnameClosed : Text.closed name = false)
    (hnameDouble : Text.Undoubled name) :
    (test pattern name = .ok true → test ("**/".toList ++ pattern) name = .ok true) ↔
      ¬ LosesEnd pattern (Segment.pieces pattern).length (Text.names name) := by
  have hnames := @Segment.isName_of_names name
  have hnamesNe : Text.names name ≠ [] :=
    fun hnil => hname (Text.eq_nil_of_names hnameDouble hnameClosed hnil)
  have hwritten : spell '/' false (Text.names name) = name := by
    have h := Text.written_names hnameDouble
    rwa [hnameOpened, hnameClosed, Text.written_false] at h
  have hboth := (test_wildFront hread hne hopened hplain hnames hnamesNe).eq_true_iff
  have halone : test pattern name = .ok true ↔ Mask.Fits pattern name := by
    rw [test_of_read hread, (Segment.read_eq_ok.1 hread).1,
      Segment.ofPattern_literal hne hopened hplain, accepts_literal]
  rw [hwritten] at hboth
  rw [halone, hboth, LosesEnd, hwritten]
  constructor
  · rintro h ⟨hfits, -, hends⟩
    exact (h hfits).2 (hends (h hfits).1)
  · intro h hfits
    by_cases hlen : (Text.names name).length = (Segment.pieces pattern).length
    · exact Segment.endsWith_whole (hwritten.symm ▸ hfits) hlen
    · -- The lengths differ, so it is the windows that keep the end from being lost.
      have hends : ¬ (EndsWith _ _ _ _ _ → StopsEarly _ _ _ _) :=
        fun hends => h ⟨hfits, hlen, hends⟩
      exact Classical.not_imp.1 hends

/-- The match is lost in the end of a name that is too short. -/
theorem test_wildFront_iff_class :
    ¬ (test "a[^/]b".toList "axb".toList = .ok true →
      test ("**/".toList ++ "a[^/]b".toList) "axb".toList = .ok true) := by
  have hread : Segment.read "a[^/]b".toList = .ok [.literal "a[^/]b".toList 2] := by
    decide +kernel
  have hiff := @test_wildFront_iff "a[^/]b".toList "axb".toList _ hread (by decide) (by decide)
    (by decide) (by decide) (by decide) (by decide) (by decide)
  exact mt hiff.1 (not_not_intro losesEnd_class)

/-- One name is one too few for the window. -/
theorem test_wildFront_loses :
    test "a[^/]b".toList "axb".toList = .ok true ∧
      test "**/a[^/]b".toList "axb".toList = .ok false := by
  have hread : Segment.read "a[^/]b".toList = .ok [.literal "a[^/]b".toList 2] := by
    decide +kernel
  constructor
  · rw [test_of_read hread]
    exact accepts_literal.2 losesEnd_class.1
  · obtain ⟨answer, hanswer, hiff⟩ := @test_wildFront "a[^/]b".toList _ hread (by decide)
      (by decide) (by decide) ["axb".toList] (by decide) (by decide)
    have hfalse : answer = false :=
      Bool.eq_false_iff.2 fun htrue => (hiff.1 htrue).2 (losesEnd_class.2.2 (hiff.1 htrue).1)
    rw [hfalse] at hanswer
    exact hanswer

/-- Where no class takes a separator or has one written in it nothing is lost. -/
theorem not_losesEnd_of_bars {segments : List Segment} {names : List Text}
    (hread : Segment.read pattern = .ok segments) (hne : pattern ≠ [])
    (hopened : Text.opened pattern = false) (hclosed : Text.closed pattern = false)
    (hplain : ∀ part ∈ Text.components pattern, ¬ Stars part) (hdouble : Text.Undoubled pattern)
    (hstand : Mask.SeparatorsStand pattern)
    (hbars : ∀ mask, Mask.parse pattern = .ok mask → Mask.BarsSeparator mask)
    (hnames : ∀ n ∈ names, Text.IsName n) (hnamesNe : names ≠ []) :
    ¬ LosesEnd pattern (Segment.pieces pattern).length names := by
  rintro ⟨hfits, hlen, -⟩
  have hover := not_overruns_of_bars hread hclosed hdouble hstand hbars hnames hnamesNe
  rw [hopened, (Segment.read_eq_ok.1 hread).1, Segment.ofPattern_literal hne hopened hplain] at hover
  exact hover ⟨_, _, rfl, hfits, hlen⟩

end Pattern

end PathGlob
