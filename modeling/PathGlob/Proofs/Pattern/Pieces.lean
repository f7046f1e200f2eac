/-
The pieces of any pattern, their marks, and runs of one mark.

A pattern is cut behind its separators, and what comes of it is `Pieced`: texts
without separators, each closed by one, the last one perhaps not. So whoever
looks for a component of the pattern finds a piece (`Pieced.exists_piece`).
Which pieces are marked shows in what stands next to them (`mark_eq`): those of
stars, and a bare separator in front of stars where no literal comes before.
Grouping loses nothing (`unrun_runs`) and makes neighbours different
(`isChain_runs`).

Nothing is assumed of the pattern, so all of this holds with separators doubled.
-/
import Mathlib.Data.List.Chain
import PathGlob.Proofs.Pattern.Reading

set_option autoImplicit false

namespace PathGlob

/-- Between these two texts the part is a whole component: it holds no separator,
and on either side the text ends or a separator stands. -/
structure Text.Bounded (before part after : Text) : Prop where
  notMem : '/' ∉ part
  before : before = [] ∨ Text.closed before = true
  after : after = [] ∨ Text.opened after = true

namespace Segment

/-- Two or more stars and nothing else. -/
def Stars (part : Text) : Prop := 2 ≤ part.length ∧ ∀ c ∈ part, c = '*'

instance (part : Text) : Decidable (Stars part) :=
  @instDecidableAnd _ _ _ (List.decidableBAll (· = '*') part)

/-! ## Pieces -/

/-- Texts without separators, each closed by one, the last one perhaps not. -/
inductive Pieced : List Text → Prop
  | nil : Pieced []
  | last {name : Text} : name ≠ [] → '/' ∉ name → Pieced [name]
  | cons {name : Text} {rest : List Text} : '/' ∉ name → Pieced rest →
    Pieced ((name ++ ['/']) :: rest)

theorem pieced_withClosings {components : List Text} (h : ∀ part ∈ components, '/' ∉ part) :
    Pieced (withClosings components) := by
  induction components with
  | nil => exact .nil
  | cons part rest ih =>
    obtain ⟨hpart, hrest⟩ := List.forall_mem_cons.1 h
    cases rest with
    | nil =>
      rw [withClosings]
      by_cases hne : part = []
      · rw [if_pos (by simpa using hne)]
        exact .nil
      · rw [if_neg (by simpa using hne)]
        exact .last hne hpart
    | cons next rest => exact .cons hpart (ih hrest)

theorem flatten_withClosings (components : List Text) :
    (withClosings components).flatten = Text.join components := by
  induction components with
  | nil => rfl
  | cons part rest ih =>
    cases rest with
    | nil =>
      rw [withClosings]
      by_cases hne : part = []
      · subst hne
        rfl
      · rw [if_neg (by simpa using hne)]
        simp [Text.join]
    | cons next rest =>
      rw [withClosings, List.flatten_cons, ih, Text.join, Text.join, List.intercalate_cons_cons]
      simp

theorem pieced_pieces (pattern : Text) : Pieced (pieces pattern) :=
  pieced_withClosings fun _ => Text.notMem_of_mem_components

/-- No part of a pattern is lost by cutting it into pieces. -/
theorem flatten_pieces (pattern : Text) : (pieces pattern).flatten = pattern := by
  rw [pieces, flatten_withClosings, Text.join_components]

theorem pieces_ne_nil {pattern : Text} (hne : pattern ≠ []) : pieces pattern ≠ [] := by
  intro hnil
  refine hne ?_
  rw [← flatten_pieces pattern, hnil]
  rfl

namespace Pieced

variable {front back : List Text}

theorem right (h : Pieced (front ++ back)) : Pieced back := by
  induction front with
  | nil => exact h
  | cons piece front ih =>
    apply ih
    rw [List.cons_append] at h
    generalize front ++ back = rest at h
    cases h with
    | last _ _ => exact .nil
    | cons _ hrest => exact hrest

theorem left (h : Pieced (front ++ back)) : Pieced front := by
  induction front with
  | nil => exact .nil
  | cons piece front ih =>
    rw [List.cons_append] at h
    generalize hrest : front ++ back = rest at h
    cases h with
    | last hne hpiece =>
      obtain ⟨rfl, -⟩ := List.append_eq_nil_iff.1 hrest
      exact .last hne hpiece
    | cons hname h =>
      rw [← hrest] at h
      exact .cons hname (ih h)

theorem ne_nil (h : Pieced front) : ∀ piece ∈ front, piece ≠ [] := by
  induction h with
  | nil => simp
  | last hne _ => simpa using hne
  | cons _ _ ih => exact List.forall_mem_cons.2 ⟨by simp, ih⟩

/-- Where something follows the pieces are closed. -/
theorem closed_flatten (h : Pieced (front ++ back)) (hfront : front ≠ []) (hback : back ≠ []) :
    Text.closed front.flatten = true := by
  induction front with
  | nil => exact absurd rfl hfront
  | cons piece front ih =>
    rw [List.cons_append] at h
    generalize hrest : front ++ back = rest at h
    cases h with
    | last _ _ => exact absurd (List.append_eq_nil_iff.1 hrest).2 hback
    | @cons name _ hname h =>
      rw [← hrest] at h
      by_cases hnil : front = []
      · subst hnil
        simp [Text.closed]
      · have hflat : front.flatten ≠ [] := by
          obtain ⟨first, others, rfl⟩ := List.exists_cons_of_ne_nil hnil
          have hfirst := h.left.ne_nil first List.mem_cons_self
          simp [hfirst]
        rw [List.flatten_cons, Text.closed_append hflat]
        exact ih h hnil

/-- A component that is not empty makes a piece, with the separator behind it if
there is one. -/
theorem exists_piece {pieces : List Text} {before part after : Text} (h : Pieced pieces)
    (hsplit : pieces.flatten = before ++ part ++ after) (hpart : Text.Bounded before part after)
    (hne : part ≠ []) :
    ∃ (front back : List Text) (closed : Bool),
      pieces = front ++ (part ++ if closed then ['/'] else []) :: back ∧ before = front.flatten ∧
        after = (if closed then ['/'] else []) ++ back.flatten := by
  induction h generalizing before with
  | nil => simp [hne] at hsplit
  | @last name _ hname =>
    -- With no separator there is nothing on either side of the part.
    rw [List.flatten_singleton] at hsplit
    have hbefore : before = [] := by
      refine hpart.before.resolve_right fun hclosed => hname ?_
      rw [Text.closed, beq_iff_eq] at hclosed
      rw [hsplit]
      simp [List.mem_of_getLast? hclosed]
    have hafter : after = [] := by
      refine hpart.after.resolve_right fun hopened => hname ?_
      rw [Text.opened, beq_iff_eq] at hopened
      rw [hsplit]
      simp [List.mem_of_head? hopened]
    subst hbefore hafter
    rw [List.nil_append, List.append_nil] at hsplit
    exact ⟨[], [], false, by simp [hsplit], rfl, rfl⟩
  | @cons name rest hname hrest ih =>
    rw [List.flatten_cons, List.append_assoc, List.singleton_append] at hsplit
    rcases hpart.before with rfl | hclosed
    · -- The part and the first name both go up to the first separator.
      rw [List.nil_append] at hsplit
      have hopened : Text.opened after = true := by
        refine hpart.after.resolve_left fun hnil => hpart.notMem ?_
        rw [hnil, List.append_nil] at hsplit
        rw [← hsplit]
        simp
      obtain ⟨tail, rfl⟩ := Text.exists_of_opened hopened
      obtain ⟨rfl, rfl⟩ := Mask.append_sep_inj hname hpart.notMem hsplit
      exact ⟨[], rest, true, rfl, rfl, rfl⟩
    · -- What stands before begins with the first piece.
      obtain ⟨others, rfl, hothers⟩ : ∃ others, before = name ++ '/' :: others ∧
          (others = [] ∨ Text.closed others = true) := by
        obtain ⟨init, rfl⟩ := Text.exists_of_closed hclosed
        obtain ⟨first, others, hinit, hfirst⟩ :=
          List.eq_append_cons_of_mem (show '/' ∈ init ++ ['/'] by simp)
        rw [hinit] at hsplit hclosed ⊢
        simp only [List.append_assoc, List.cons_append] at hsplit
        obtain ⟨rfl, -⟩ := Mask.append_sep_inj hname hfirst hsplit
        refine ⟨others, rfl, ?_⟩
        by_cases hnil : others = []
        · exact .inl hnil
        · right
          rwa [← List.singleton_append, ← List.append_assoc, Text.closed_append hnil] at hclosed
      simp only [List.append_assoc, List.cons_append] at hsplit
      have hrestSplit := (Mask.append_sep_inj hname hname hsplit).2
      rw [← List.append_assoc] at hrestSplit
      obtain ⟨front, back, closed, rfl, rfl, hafter⟩ :=
        ih hrestSplit ⟨hpart.notMem, hothers, hpart.after⟩
      exact ⟨(name ++ ['/']) :: front, back, closed, rfl, by simp, hafter⟩

/-- The other way round, a piece is a component with the separator behind it. -/
theorem exists_part {piece : Text} (h : Pieced (front ++ piece :: back)) :
    ∃ (part : Text) (closed : Bool), piece = part ++ (if closed then ['/'] else []) ∧
      Text.Bounded front.flatten part ((if closed then ['/'] else []) ++ back.flatten) := by
  have hfront : front.flatten = [] ∨ Text.closed front.flatten = true := by
    by_cases hne : front = []
    · subst hne
      exact .inl rfl
    · exact .inr (h.closed_flatten hne (by simp))
  have hpiece := h.right
  generalize hpieces : piece :: back = pieces at hpiece
  cases hpiece with
  | nil => cases hpieces
  | last _ hname =>
    obtain ⟨rfl, rfl⟩ := List.cons.inj hpieces
    exact ⟨piece, false, by simp, hname, hfront, .inl rfl⟩
  | @cons name _ hname _ =>
    obtain ⟨rfl, rfl⟩ := List.cons.inj hpieces
    exact ⟨name, true, rfl, hname, hfront, .inr rfl⟩

end Pieced

/-! ## Marks -/

theorem stars_of_isStars {part : Text} (hpart : '/' ∉ part) (closed : Bool)
    (h : isStars (part ++ if closed then ['/'] else []) = true) : Stars part := by
  by_cases hne : part = []
  · subst hne
    cases closed <;> simp [isStars, Text.dropClosing, Text.closed] at h
  · rw [isStars_close ⟨hne, hpart⟩, isStars, Text.dropClosing, Text.closed_name ⟨hne, hpart⟩,
      if_neg (by simp), Bool.and_eq_true, List.all_eq_true] at h
    exact ⟨by simpa using h.1, fun c hc => by simpa using h.2 c hc⟩

theorem isName_of_stars {part : Text} (h : Stars part) : Text.IsName part := by
  refine ⟨?_, fun hmem => absurd (h.2 _ hmem) (by decide)⟩
  rintro rfl
  simp [Stars] at h

theorem isStars_of_stars {part : Text} (h : Stars part) (closed : Bool) :
    isStars (part ++ if closed then ['/'] else []) = true := by
  have hname := isName_of_stars h
  rw [isStars_close hname, isStars, Text.dropClosing, Text.closed_name hname,
    if_neg (by simp), Bool.and_eq_true, List.all_eq_true]
  exact ⟨by simpa using h.1, fun c hc => by simpa using h.2 c hc⟩

theorem map_snd_markWild (before : Bool) (pieces : List Text) :
    (markWild before pieces).map Prod.snd = pieces := by
  induction pieces generalizing before with
  | nil => rfl
  | cons piece rest ih => rw [markWild, List.map_cons, ih]

/-- The mark of one piece, given what stands around it. -/
theorem mark_eq {before mark : Bool} {pieces : List Text} {piece : Text}
    {front back : List (Bool × Text)} (h : markWild before pieces = front ++ (mark, piece) :: back) :
    mark = (isStars piece || ((front.getLast?.map Prod.fst).getD before && piece == ['/'] &&
      (back.head?.map Prod.snd).any isStars)) := by
  induction front generalizing before pieces with
  | nil =>
    cases pieces with
    | nil => cases h
    | cons first rest =>
      have hrest := map_snd_markWild (isStars first || before && first == ['/'] &&
        rest.head?.any isStars) rest
      rw [markWild, List.nil_append, List.cons.injEq, Prod.mk.injEq] at h
      obtain ⟨⟨rfl, rfl⟩, rfl⟩ := h
      rw [← List.head?_map, hrest]
      rfl
  | cons other front ih =>
    cases pieces with
    | nil => cases h
    | cons first rest =>
      rw [markWild, List.cons_append, List.cons.injEq] at h
      obtain ⟨rfl, h⟩ := h
      rw [ih h]
      cases front with
      | nil => rfl
      | cons next front => rfl

/-! ## Runs -/

/-- The marked pieces of some runs. -/
def unrun (groups : List (Bool × List Text)) : List (Bool × Text) :=
  groups.flatMap fun group => group.2.map (group.1, ·)

theorem unrun_cons (kind : Bool) (run : List Text) (more : List (Bool × List Text)) :
    unrun ((kind, run) :: more) = run.map (kind, ·) ++ unrun more := rfl

theorem unrun_append (front back : List (Bool × List Text)) :
    unrun (front ++ back) = unrun front ++ unrun back := List.flatMap_append

theorem map_snd_marked (mark : Bool) (run : List Text) :
    (run.map (mark, ·)).map Prod.snd = run := by
  rw [List.map_map]
  exact List.map_id run

/-- Grouping is undone by writing the runs one after another. -/
theorem unrun_runs (marks : List (Bool × Text)) : unrun (runs marks) = marks := by
  induction marks with
  | nil => rfl
  | cons first rest ih =>
    obtain ⟨mark, piece⟩ := first
    rw [runs]
    generalize runs rest = groups at ih
    subst ih
    cases groups with
    | nil => rfl
    | cons group more =>
      obtain ⟨kind, run⟩ := group
      dsimp only
      by_cases hsame : mark = kind
      · subst hsame
        rw [if_pos (by simp)]
        rfl
      · rw [if_neg (by simpa using hsame)]
        rfl

theorem runs_ne_nil (marks : List (Bool × Text)) : ∀ group ∈ runs marks, group.2 ≠ [] := by
  induction marks with
  | nil => simp [runs]
  | cons first rest ih =>
    obtain ⟨mark, piece⟩ := first
    rw [runs]
    generalize runs rest = groups at ih
    cases groups with
    | nil => simp
    | cons group more =>
      obtain ⟨kind, run⟩ := group
      dsimp only
      split
      · exact List.forall_mem_cons.2 ⟨by simp, (List.forall_mem_cons.1 ih).2⟩
      · exact List.forall_mem_cons.2 ⟨by simp, ih⟩

/-- Neighbouring runs have different marks. -/
theorem isChain_runs (marks : List (Bool × Text)) :
    (runs marks).IsChain fun group next => group.1 ≠ next.1 := by
  induction marks with
  | nil => exact .nil
  | cons first rest ih =>
    obtain ⟨mark, piece⟩ := first
    rw [runs]
    generalize runs rest = groups at ih
    cases groups with
    | nil => exact .singleton _
    | cons group more =>
      obtain ⟨kind, run⟩ := group
      dsimp only
      by_cases hsame : mark = kind
      · rw [if_pos (by simpa using hsame)]
        cases more with
        | nil => exact .singleton _
        | cons next more =>
          rw [List.isChain_cons_cons] at ih ⊢
          exact ih
      · rw [if_neg (by simpa using hsame)]
        exact List.isChain_cons_cons.2 ⟨hsame, ih⟩

/-- A piece belongs to one run. -/
theorem exists_group {groups : List (Bool × List Text)} {front back : List (Bool × Text)}
    {mark : Bool} {piece : Text} (h : unrun groups = front ++ (mark, piece) :: back) :
    ∃ before after first last, groups = before ++ (mark, first ++ piece :: last) :: after ∧
      front = unrun before ++ first.map (mark, ·) ∧ back = last.map (mark, ·) ++ unrun after := by
  induction groups generalizing front with
  | nil => simp [unrun] at h
  | cons group more ih =>
    obtain ⟨kind, run⟩ := group
    rw [unrun_cons, List.append_eq_append_iff] at h
    rcases h with ⟨rest, rfl, hmore⟩ | ⟨rest, hrun, hrest⟩
    · obtain ⟨before, after, first, last, rfl, rfl, hback⟩ := ih hmore
      refine ⟨(kind, run) :: before, after, first, last, rfl, ?_, hback⟩
      rw [unrun_cons, List.append_assoc]
    · cases rest with
      | nil =>
        -- The piece begins the next run.
        rw [List.append_nil] at hrun
        subst hrun
        obtain ⟨before, after, first, last, rfl, hnil, hback⟩ := @ih [] hrest.symm
        obtain ⟨hbefore, hfirst⟩ := List.append_eq_nil_iff.1 hnil.symm
        refine ⟨(kind, run) :: before, after, first, last, rfl, ?_, hback⟩
        rw [unrun_cons, hbefore, hfirst, List.append_nil, List.append_nil]
      | cons entry rest =>
        obtain ⟨rfl, rfl⟩ := List.cons.inj hrest
        obtain ⟨first, last, rfl, rfl, hlast⟩ := List.map_eq_append_iff.1 hrun
        obtain ⟨other, last, rfl, hpair, rfl⟩ := List.map_eq_cons_iff.1 hlast
        obtain ⟨rfl, rfl⟩ := Prod.mk.inj hpair
        exact ⟨[], more, first, last, rfl, rfl, rfl⟩

/-- Pieces of one mark begin one run, whatever comes behind them. -/
theorem exists_runs_first (mark : Bool) (marks : List (Bool × Text)) :
    ∃ right post, ∀ {pieces : List Text}, pieces ≠ [] →
      runs (pieces.map (mark, ·) ++ marks) = (mark, pieces ++ right) :: post := by
  obtain ⟨right, post, hright⟩ : ∃ right post, ∀ piece,
      runs ((mark, piece) :: marks) = (mark, piece :: right) :: post := by
    rcases hruns : runs marks with _ | ⟨⟨kind, run⟩, more⟩
    · exact ⟨[], [], fun piece => by rw [runs, hruns]⟩
    · by_cases hsame : mark = kind
      · exact ⟨run, more, fun piece => by rw [runs, hruns, hsame]; simp⟩
      · exact ⟨[], (kind, run) :: more, fun piece => by rw [runs, hruns]; simp [hsame]⟩
  refine ⟨right, post, fun {pieces} hne => ?_⟩
  induction pieces with
  | nil => exact absurd rfl hne
  | cons piece rest ih =>
    by_cases hrest : rest = []
    · subst hrest
      exact hright piece
    · rw [List.map_cons, List.cons_append, runs, ih hrest]
      simp

/-- Pieces of one mark are part of one run, and the other runs do not depend on them. -/
theorem exists_runs_around (mark : Bool) (front back : List (Bool × Text)) :
    ∃ pre left right post, ∀ {pieces : List Text}, pieces ≠ [] →
      runs (front ++ (pieces.map (mark, ·) ++ back)) =
        pre ++ (mark, left ++ (pieces ++ right)) :: post := by
  induction front with
  | nil =>
    obtain ⟨right, post, hruns⟩ := exists_runs_first mark back
    exact ⟨[], [], right, post, hruns⟩
  | cons first front ih =>
    obtain ⟨kind, piece⟩ := first
    obtain ⟨pre, left, right, post, hruns⟩ := ih
    rcases pre with _ | ⟨⟨other, run⟩, pre⟩
    · by_cases hsame : kind = mark
      · exact ⟨[], piece :: left, right, post, fun hne => by
          rw [List.cons_append, runs, hruns hne]; simp [hsame]⟩
      · exact ⟨[(kind, [piece])], left, right, post, fun hne => by
          rw [List.cons_append, runs, hruns hne]; simp [hsame]⟩
    · by_cases hsame : kind = other
      · exact ⟨(other, piece :: run) :: pre, left, right, post, fun hne => by
          rw [List.cons_append, runs, hruns hne]; simp [hsame]⟩
      · exact ⟨(kind, [piece]) :: (other, run) :: pre, left, right, post, fun hne => by
          rw [List.cons_append, runs, hruns hne]; simp [hsame]⟩

end Segment

end PathGlob
