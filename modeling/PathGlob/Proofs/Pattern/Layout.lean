/-
The segments of a pattern that doubles no separator.

Written as names with separators between them, such a pattern has a simple
segmentation: the names fall into runs of components that are all stars and runs
of components that are not, and each run with its separators is a segment
(`laid_ofPattern`). A separator in front of the pattern belongs to the first
run, whatever its kind, and all runs but the last are closed.

`Laid` says this in the form in which segments are used, a wildcard together
with the literal after it. `Runs` is the same thing before the runs are made
segments, and follows the recursion that groups the pieces.
-/
import PathGlob.Proofs.Pattern.Split

set_option autoImplicit false

namespace PathGlob

namespace Segment

/-- The segments from a wildcard on, and the names they are written from.
`closed` says whether the last one ends with a separator, `front` whether the
first one begins with one. -/
inductive FromWild (closed : Bool) : Bool → List Segment → List Text → Prop
  | wild {front : Bool} {stars : List Text} : IsWild stars →
    FromWild closed front [.wild (Text.written front closed stars)] stars
  | literal {front : Bool} {stars plain : List Text} : IsWild stars → IsPlain plain →
    FromWild closed front
      [.wild (Text.written front true stars), .literal (spell '/' closed plain) plain.length]
      (stars ++ plain)
  | more {front : Bool} {stars plain names : List Text} {segments : List Segment} :
    IsWild stars → IsPlain plain → FromWild closed false segments names →
    FromWild closed front
      (.wild (Text.written front true stars) :: .literal (spell '/' true plain) plain.length ::
        segments)
      (stars ++ (plain ++ names))

/-- The segments of a pattern, and the names they are written from. -/
inductive Laid (closed front : Bool) : List Segment → List Text → Prop
  | literal {plain : List Text} : IsPlain plain →
    Laid closed front [.literal (Text.written front closed plain) plain.length] plain
  | head {plain names : List Text} {segments : List Segment} : IsPlain plain →
    FromWild closed false segments names →
    Laid closed front (.literal (Text.written front true plain) plain.length :: segments)
      (plain ++ names)
  | tail {names : List Text} {segments : List Segment} :
    FromWild closed front segments names → Laid closed front segments names

section FromWild

variable {closed front : Bool} {segments : List Segment} {names : List Text}

theorem FromWild.ne_nil (h : FromWild closed front segments names) : segments ≠ [] := by
  cases h <;> simp

theorem FromWild.exists_wild (h : FromWild closed front segments names) :
    ∃ stars parts, IsWild stars ∧ names = stars ++ parts := by
  cases h with
  | wild hstars => exact ⟨_, [], hstars, (List.append_nil _).symm⟩
  | literal hstars hplain => exact ⟨_, _, hstars, rfl⟩
  | more hstars hplain h => exact ⟨_, _, hstars, rfl⟩

theorem FromWild.names_ne_nil (h : FromWild closed front segments names) : names ≠ [] := by
  obtain ⟨stars, parts, hstars, rfl⟩ := h.exists_wild
  exact List.append_ne_nil_of_left_ne_nil hstars.1 parts

end FromWild

/-! ## Pieces -/

/-- Every name with the separator that closes it. -/
def closings (closed : Bool) : List Text → List Text
  | [] => []
  | name :: rest => (name ++ if closed || !rest.isEmpty then ['/'] else []) :: closings closed rest

theorem closings_cons {closed : Bool} {rest : List Text} (name : Text) (hrest : rest ≠ []) :
    closings closed (name :: rest) = (name ++ ['/']) :: closings closed rest := by
  simp [closings, List.isEmpty_eq_false_iff.2 hrest]

theorem flatten_closings (closed : Bool) (names : List Text) :
    (closings closed names).flatten = spell '/' closed names := by
  induction names with
  | nil => rfl
  | cons name rest ih => rw [closings, List.flatten_cons, ih, spell, List.append_assoc]

theorem length_closings (closed : Bool) (names : List Text) :
    (closings closed names).length = names.length := by
  induction names with
  | nil => rfl
  | cons name rest ih => rw [closings, List.length_cons, ih, List.length_cons]

/-- An empty piece at the end says that the last name is closed. -/
theorem withClosings_append {closed : Bool} {names : List Text} (hne : names ≠ [])
    (hnames : ∀ name ∈ names, Text.IsName name) :
    withClosings (names ++ if closed then [[]] else []) = closings closed names := by
  induction names with
  | nil => exact absurd rfl hne
  | cons name rest ih =>
    rw [List.forall_mem_cons] at hnames
    by_cases hrest : rest = []
    · subst hrest
      cases closed <;> simp [withClosings, closings, hnames.1.1]
    · rw [closings_cons name hrest, List.cons_append, withClosings, ih hrest hnames.2]
      simp [hrest]

theorem pieces_written {front closed : Bool} {names : List Text} (hne : names ≠ [])
    (hnames : ∀ name ∈ names, Text.IsName name) :
    pieces (Text.written front closed names) =
      (if front then [['/']] else []) ++ closings closed names := by
  rw [pieces, Text.components_written hne hnames]
  cases front with
  | false => simpa using withClosings_append hne hnames
  | true =>
    rw [if_pos rfl, if_pos rfl, List.singleton_append, List.cons_append, withClosings,
      withClosings_append hne hnames]
    · rfl
    · simp [hne]

theorem isStars_close {name : Text} (hname : Text.IsName name) (closed : Bool) :
    isStars (name ++ if closed then ['/'] else []) = isStars name := by
  cases closed with
  | false => simp
  | true =>
    have hopen : Text.dropClosing name = name := by
      rw [Text.dropClosing, Text.closed_name hname]
      rfl
    have hclose : Text.dropClosing (name ++ ['/']) = name := by
      rw [Text.dropClosing, Text.closed_append (by simp)]
      simp [Text.closed]
    rw [if_pos rfl, isStars, isStars, hopen, hclose]

/-! ## Runs -/

/-- The runs of some pieces, and the names the pieces are made from. -/
inductive Runs (closed : Bool) : List (Bool × List Text) → List Text → Prop
  | last {kind : Bool} {names : List Text} : names ≠ [] →
    (∀ name ∈ names, isStars name = kind) → Runs closed [(kind, closings closed names)] names
  | more {kind : Bool} {run : List Text} {rest : List (Bool × List Text)}
    {names others : List Text} : names ≠ [] → (∀ name ∈ names, isStars name = kind) →
    Runs closed ((!kind, run) :: rest) others →
    Runs closed ((kind, closings true names) :: (!kind, run) :: rest) (names ++ others)

/-- Grouping the pieces of some names groups the names. -/
theorem runs_closings {closed : Bool} {names : List Text} (hne : names ≠ [])
    (hnames : ∀ name ∈ names, Text.IsName name) :
    Runs closed (runs ((closings closed names).map fun piece => (isStars piece, piece))) names := by
  induction names with
  | nil => exact absurd rfl hne
  | cons name rest ih =>
    rw [List.forall_mem_cons] at hnames
    have hone : ∀ other ∈ [name], isStars other = isStars name := by simp
    rw [closings, List.map_cons, isStars_close hnames.1]
    by_cases hrest : rest = []
    · subst hrest
      exact .last (by simp) hone
    · have hruns := ih hrest hnames.2
      rw [if_pos (by simp [hrest]), runs]
      generalize runs _ = groups at hruns ⊢
      -- The piece joins the first run behind it or begins one of its own.
      cases hruns with
      | @last kind _ _ hkind =>
        dsimp only
        by_cases hsame : isStars name = kind
        · subst hsame
          have hclosings := @closings_cons closed rest name hrest
          rw [if_pos (beq_self_eq_true _), ← hclosings]
          exact .last (by simp) (List.forall_mem_cons.2 ⟨rfl, hkind⟩)
        · obtain rfl : kind = !isStars name := Bool.eq_not.2 (Ne.symm hsame)
          rw [if_neg (by simp)]
          exact .more (by simp) hone (.last hrest hkind)
      | @more kind _ _ first others hfirst hkind hmore =>
        dsimp only
        by_cases hsame : isStars name = kind
        · subst hsame
          have hclosings := @closings_cons true _ name hfirst
          rw [if_pos (beq_self_eq_true _), ← hclosings]
          exact .more (by simp) (List.forall_mem_cons.2 ⟨rfl, hkind⟩) hmore
        · obtain rfl : kind = !isStars name := Bool.eq_not.2 (Ne.symm hsame)
          rw [if_neg (by simp)]
          exact .more (by simp) hone (.more hfirst hkind hmore)

/-- A closed name is no bare separator, so its mark is its own. -/
theorem markWild_closings {closed : Bool} {names : List Text} (before : Bool)
    (hnames : ∀ name ∈ names, Text.IsName name) :
    markWild before (closings closed names) =
      (closings closed names).map fun piece => (isStars piece, piece) := by
  induction names generalizing before with
  | nil => rfl
  | cons name rest ih =>
    rw [List.forall_mem_cons] at hnames
    have hbare : ((name ++ if closed || !rest.isEmpty then ['/'] else []) == ['/']) = false := by
      have hhead := Text.opened_append hnames.1 (if closed || !rest.isEmpty then ['/'] else [])
      rw [beq_eq_false_iff_ne]
      intro heq
      rw [heq] at hhead
      simp [Text.opened] at hhead
    rw [closings, markWild, hbare, List.map_cons]
    simp only [Bool.and_false, Bool.false_and, Bool.or_false]
    rw [ih _ hnames.2]

/-! ## Segments -/

/-- The segment of a run of names. -/
def ofNames (front closed kind : Bool) (names : List Text) : Segment :=
  if kind then .wild (Text.written front closed names)
  else .literal (Text.written front closed names) names.length

theorem ofRun_closings {closed kind : Bool} {names : List Text} (opening : Bool)
    (hne : names ≠ []) (hnames : ∀ name ∈ names, Text.IsName name) :
    ofRun opening (kind, closings closed names) = ofNames false closed kind names := by
  cases kind with
  | true =>
    rw [ofRun, flatten_closings]
    rfl
  | false =>
    obtain ⟨name, rest, rfl⟩ := List.exists_cons_of_ne_nil hne
    have hname := (List.forall_mem_cons.1 hnames).1
    have hbare : (name ++ if closed || !rest.isEmpty then ['/'] else []) ≠ ['/'] := by
      intro heq
      have hhead := Text.opened_append hname (if closed || !rest.isEmpty then ['/'] else [])
      rw [heq] at hhead
      simp [Text.opened] at hhead
    -- The first piece is a name with its separator, and never a bare one.
    have hspan : span opening (closings closed (name :: rest)) = (name :: rest).length := by
      have hlen := length_closings closed (name :: rest)
      rw [span, hlen, closings]
      generalize (name ++ if closed || !rest.isEmpty then ['/'] else []) = piece at hbare
      simp [hbare]
    rw [ofRun, hspan, flatten_closings]
    rfl

/-- A separator in front of the first run opens its text and counts for no
component. -/
theorem ofRun_front {closed kind : Bool} {names : List Text} (hne : names ≠ []) :
    ofRun true (kind, ['/'] :: closings closed names) = ofNames true closed kind names := by
  cases kind with
  | true =>
    rw [ofRun, List.flatten_cons, flatten_closings]
    rfl
  | false =>
    have hspan : span true (['/'] :: closings closed names) = names.length := by
      have hlen := length_closings closed names
      have hclosings : closings closed names ≠ [] := by
        rw [← List.length_pos_iff, hlen]
        exact List.length_pos_iff.2 hne
      rw [span]
      simp [hclosings, hlen]
    rw [ofRun, hspan, List.flatten_cons, flatten_closings]
    rfl

/-- Runs as segments. Behind a first run of literal components there is nothing,
or a wildcard follows. -/
theorem segments_of_runs {closed : Bool} {groups : List (Bool × List Text)} {names : List Text}
    (h : Runs closed groups names) (hnames : ∀ name ∈ names, Text.IsName name) :
    ∃ (kind closed' : Bool) (first others : List Text) (rest : List (Bool × List Text)),
      groups = (kind, closings closed' first) :: rest ∧ names = first ++ others ∧ first ≠ [] ∧
      (∀ name ∈ first, isStars name = kind) ∧
      (kind = true → ∀ front, FromWild closed front
        (ofNames front closed' true first :: rest.map (ofRun false)) names) ∧
      (kind = false → (rest = [] ∧ others = [] ∧ closed' = closed) ∨
        (closed' = true ∧ FromWild closed false (rest.map (ofRun false)) others)) := by
  induction h with
  | @last kind names hne hkind =>
    refine ⟨kind, closed, names, [], [], rfl, by simp, hne, hkind, ?_, ?_⟩
    · rintro rfl front
      exact .wild ⟨hne, hkind⟩
    · rintro rfl
      exact .inl ⟨rfl, rfl, rfl⟩
  | @more kind run rest first others hne hkind hmore ih =>
    rw [List.forall_mem_append] at hnames
    obtain ⟨kind', closed', second, more, rest', hgroups, rfl, hsecond, hsecondKind, hwild, hplain⟩ :=
      ih hnames.2
    obtain ⟨hpair, rfl⟩ := List.cons.inj hgroups
    obtain ⟨rfl, rfl⟩ := Prod.mk.inj hpair
    have hsecondNames := (List.forall_mem_append.1 hnames.2).1
    refine ⟨kind, true, first, second ++ more, _, rfl, rfl, hne, hkind, ?_, ?_⟩
    · rintro rfl front
      rw [List.map_cons, ofRun_closings false hsecond hsecondNames]
      rcases hplain rfl with ⟨rfl, rfl, rfl⟩ | ⟨rfl, hrest⟩
      · rw [List.append_nil]
        exact .literal ⟨hne, hkind⟩ ⟨hsecond, hsecondKind⟩
      · exact .more ⟨hne, hkind⟩ ⟨hsecond, hsecondKind⟩ hrest
    · rintro rfl
      rw [List.map_cons, ofRun_closings false hsecond hsecondNames]
      exact .inr ⟨rfl, hwild rfl false⟩

/-- The runs of a pattern: a separator in front of it joins the first run. -/
theorem runs_pieces {front closed : Bool} {names : List Text} (hne : names ≠ [])
    (hnames : ∀ name ∈ names, Text.IsName name) {kind closed' : Bool} {first others : List Text}
    {rest : List (Bool × List Text)} (hfirst : first ≠ []) (hsplit : names = first ++ others)
    (hkind : ∀ name ∈ first, isStars name = kind)
    (hruns : runs ((closings closed names).map fun piece => (isStars piece, piece)) =
      (kind, closings closed' first) :: rest) :
    runs (markWild true (pieces (Text.written front closed names))) =
      (kind, (if front then [['/']] else []) ++ closings closed' first) :: rest := by
  rw [pieces_written hne hnames]
  cases front with
  | false =>
    rw [if_neg (by simp), List.nil_append, List.nil_append,
      markWild_closings true hnames, hruns]
  | true =>
    obtain ⟨name, tail, rfl⟩ := List.exists_cons_of_ne_nil hfirst
    -- In front of stars the bare piece is marked as they are, elsewhere it is not.
    have hname : isStars name = kind := hkind name (by simp)
    have hmark : (closings closed names).head?.any isStars = kind := by
      rw [hsplit, List.cons_append, closings, List.head?_cons, Option.any_some,
        isStars_close (hnames name (by simp [hsplit])), hname]
    have hbare : isStars ['/'] = false := by decide
    rw [if_pos rfl, List.singleton_append, List.singleton_append, markWild, hmark,
      hbare, markWild_closings _ hnames]
    simp [runs, hruns]

/-- **The segmentation.** A pattern written from names is segmented into runs of
the names, and the text of every segment is written from its names. -/
theorem laid_ofPattern {front closed : Bool} {names : List Text} (hne : names ≠ [])
    (hnames : ∀ name ∈ names, Text.IsName name) :
    Laid closed front (ofPattern (Text.written front closed names)) names := by
  obtain ⟨kind, closed', first, others, rest, hgroups, hsplit, hfirst, hkind, hwild, hplain⟩ :=
    segments_of_runs (@runs_closings closed names hne hnames) hnames
  have hfirstNames : ∀ name ∈ first, Text.IsName name := by
    intro name hname
    exact hnames name (by rw [hsplit]; exact List.mem_append_left _ hname)
  have hhead : ofRun true (kind, (if front then [['/']] else []) ++ closings closed' first) =
      ofNames front closed' kind first := by
    cases front with
    | false => exact ofRun_closings true hfirst hfirstNames
    | true => exact ofRun_front hfirst
  rw [ofPattern, runs_pieces hne hnames hfirst hsplit hkind hgroups]
  dsimp only
  rw [hhead]
  cases kind with
  | true => exact .tail (hwild rfl front)
  | false =>
    rcases hplain rfl with ⟨rfl, rfl, rfl⟩ | ⟨rfl, hrest⟩
    · rw [hsplit, List.append_nil]
      exact .literal ⟨hfirst, hkind⟩
    · rw [hsplit]
      exact .head ⟨hfirst, hkind⟩ hrest

end Segment

end PathGlob
