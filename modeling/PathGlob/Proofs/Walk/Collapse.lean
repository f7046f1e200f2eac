/-
Wildcards in a row are one in every use of a pattern.

Before a walk begins the dots in front of the pattern go to the root, and a wildcard is
written behind a closing separator. Neither reaches the components of stars that stand
in between, so around them both patterns become the same (`Anchored.exists_of_around`)
and their segments are the same once they are shortened. The walk asks of a wildcard
even less than matching does: whether one that begins the pattern is opened by a
separator. So it is the same walk (`Walk.glob_around`), and nothing has to be said of
the tree or the listener.
-/
import PathGlob.Proofs.Pattern.Collapse
import PathGlob.Walk.Run

set_option autoImplicit false

namespace PathGlob

open Segment (shorten Stars)

variable {before after : Text}

/-! ## Dots and closing separators around a part -/

namespace Anchored

theorem bounded_withEverythingBelow (hafter : after = [] ∨ Text.opened after = true) :
    withEverythingBelow after = [] ∨ Text.opened (withEverythingBelow after) = true := by
  rcases hafter with rfl | hopened
  · exact .inl rfl
  · obtain ⟨tail, rfl⟩ := Text.exists_of_opened hopened
    rw [withEverythingBelow]
    split <;> exact .inr hopened

/-- Only the end of a pattern says whether everything below is meant. -/
theorem withEverythingBelow_behind {middle : Text} (hne : middle ≠ [])
    (hclosed : Text.closed middle = false) (before after : Text) :
    withEverythingBelow (before ++ (middle ++ after)) =
      before ++ (middle ++ withEverythingBelow after) := by
  rw [← List.append_assoc, ← List.append_assoc]
  by_cases hnil : after = []
  · subst hnil
    rw [List.append_nil, withEverythingBelow, Text.closed_append hne, hclosed,
      if_neg Bool.false_ne_true]
    exact (List.append_nil _).symm
  · exact withEverythingBelow_append _ hnil

/-- Only the beginning of a pattern says whether the root is closed. -/
theorem closeRoot_front {c : Char} (hc : c ≠ '/') (front rest base : Text) :
    closeRoot (front ++ c :: rest) base = closeRoot (front ++ ['*']) base := by
  cases front with
  | nil => simp [closeRoot, Text.opened, hc]
  | cons d front => rfl

/-- Around a part that begins with no dot and no separator, and ends with none, a pattern
becomes the same whatever the part is. -/
theorem exists_of_around (hbefore : before = [] ∨ Text.closed before = true)
    (hafter : after = [] ∨ Text.opened after = true) (root : Text) :
    ∃ front back dir, (front = [] ∨ Text.closed front = true) ∧
      (back = [] ∨ Text.opened back = true) ∧
        ∀ {c : Char} {rest : Text}, Lexical.isDotOrSeparator c = false →
          Text.closed (c :: rest) = false →
            Anchored.of (before ++ (c :: rest ++ after)) root = ⟨front ++ (c :: rest ++ back), dir⟩ := by
  obtain ⟨dots, front, hsplit, hdots⟩ := Lexical.exists_dotPart before
  let base := Lexical.clean (if dots.isEmpty then root else extendRoot root dots)
  refine ⟨front, withEverythingBelow after, closeRoot (front ++ ['*']) base, ?_, ?_, ?_⟩
  · by_cases hnil : front = []
    · exact .inl hnil
    · refine .inr ?_
      rcases hbefore with rfl | hclosed
      · exact absurd (List.append_eq_nil_iff.1 hsplit.symm).2 hnil
      · rwa [hsplit, Text.closed_append hnil] at hclosed
  · exact bounded_withEverythingBelow hafter
  intro c rest hc hclosed
  have hbelow := withEverythingBelow_behind (List.cons_ne_nil c rest) hclosed before after
  have hsep : c ≠ '/' := by
    rintro rfl
    exact absurd hc (by decide)
  obtain ⟨hdot, hwithout⟩ := hdots (rest ++ withEverythingBelow after) hc
  rw [← List.cons_append] at hdot hwithout
  rw [Anchored.of, hbelow, hdot, hwithout, List.cons_append, closeRoot_front hsep]

end Anchored

/-! ## Walking with shortened wildcards -/

namespace Expansion

theorem start_shorten (root : Text) (segments : List Segment) :
    start root (segments.map shorten) = start root segments := by
  cases segments with
  | nil => rfl
  | cons first rest =>
    rw [start, start, List.map_cons, List.head?_cons, List.head?_cons, Option.any_some,
      Option.any_some, Segment.opened_shorten]

theorem repeats_shorten (segments : List Segment) :
    repeats (segments.map shorten) = repeats segments := by
  have hkinds : (fun segment : Segment => segment.isWild) ∘ shorten = fun segment => segment.isWild :=
    funext Segment.isWild_shorten
  rw [repeats, repeats, List.countP_map, hkinds]

theorem advance_shorten (once : Bool) (depth : Nat) : ∀ (segments : List Segment) (place : Place),
    advance once depth (segments.map shorten) place = advance once depth segments place
  | [], _ => rfl
  | [.literal _ _], _ => rfl
  | .literal text width :: next :: rest, place => by
    have ih := advance_shorten once depth (next :: rest)
    show Walk.bind _ (Walk.each fun path =>
      advance once depth ((next :: rest).map shorten) (place.descend path)) = _
    simp only [ih]
    rfl
  | [.wild _], _ => rfl
  | .wild _ :: .literal text width :: rest, place => by
    have ih := advance_shorten once depth rest
    show sweep _ width (fun child => if (rest.map shorten).isEmpty then report once child.path
      else advance once depth (rest.map shorten) child) depth place [] 0 = _
    simp only [ih, List.isEmpty_map]
    rfl
  | .wild _ :: .wild stars :: rest, place => advance_shorten once depth (.wild stars :: rest) place

end Expansion

theorem Walk.glob_of_shorten {pattern other root : Text} (depth : Nat)
    (hroot : (Anchored.of pattern root).root = (Anchored.of other root).root)
    (h : (Segment.ofPattern (Anchored.of pattern root).pattern).map shorten =
      (Segment.ofPattern (Anchored.of other root).pattern).map shorten) :
    Walk.glob depth pattern root = Walk.glob depth other root := by
  rw [Walk.glob, Walk.glob, hroot, Segment.read, Segment.read, Segment.check_of_shorten h]
  cases Segment.check (Segment.ofPattern (Anchored.of other root).pattern) with
  | error fault => rfl
  | ok checked =>
    refine congrArg (Walk.bind _) (funext fun _ => ?_)
    show Expansion.advance _ depth _ _ = Expansion.advance _ depth _ _
    rw [← Expansion.advance_shorten, ← Expansion.repeats_shorten, ← Expansion.start_shorten, h,
      Expansion.advance_shorten, Expansion.repeats_shorten, Expansion.start_shorten]

/-! ## One component of stars or two -/

/-- **However many wildcards follow one another**, the walk is the same. -/
theorem Walk.glob_around {stars others : List Text} (hbefore : before = [] ∨ Text.closed before = true)
    (hafter : after = [] ∨ Text.opened after = true) (hne : stars ≠ [])
    (hstars : ∀ part ∈ stars, Stars part) (hne' : others ≠ [])
    (hothers : ∀ part ∈ others, Stars part) (depth : Nat) (root : Text) :
    Walk.glob depth (before ++ (spell '/' false stars ++ after)) root =
      Walk.glob depth (before ++ (spell '/' false others ++ after)) root := by
  obtain ⟨front, back, dir, hfront, hback, hof⟩ :=
    Anchored.exists_of_around hbefore hafter root
  have hanchored : ∀ {parts : List Text}, parts ≠ [] → (∀ part ∈ parts, Stars part) →
      Anchored.of (before ++ (spell '/' false parts ++ after)) root =
        ⟨front ++ (spell '/' false parts ++ back), dir⟩ := by
    intro parts hparts hall
    have hnames : ∀ part ∈ parts, Text.IsName part := fun part hpart =>
      Segment.isName_of_stars (hall part hpart)
    have hclosed := @Text.closed_spell false parts hparts hnames
    obtain ⟨part, rest, rfl⟩ := List.exists_cons_of_ne_nil hparts
    obtain ⟨c, body, rfl⟩ := List.exists_cons_of_ne_nil (hnames part List.mem_cons_self).1
    obtain rfl : c = '*' := (hall _ List.mem_cons_self).2 c List.mem_cons_self
    exact hof (by decide) hclosed
  refine Walk.glob_of_shorten depth ?_ ?_
  · rw [hanchored hne hstars, hanchored hne' hothers]
  · rw [hanchored hne hstars, hanchored hne' hothers]
    exact Segment.shorten_ofPattern_around hfront hback hne hstars hne' hothers

/-- **Two wildcards with a separator between them are one.** Where a component of stars
is replaced by two of them, whatever the numbers of stars, the pattern is refused with the
same fault or read as before, it has the same answer for every name, and the walk asks for
the same, tells the same and ends alike in every tree and before every listener. -/
theorem stars_in_a_row {stars first second : Text} (hstars : Stars stars)
    (hbounded : Text.Bounded before stars after) (hfirst : Stars first) (hsecond : Stars second) :
    (∀ e, Pattern.read (before ++ first ++ ['/'] ++ second ++ after) = .error e ↔
      Pattern.read (before ++ stars ++ after) = .error e) ∧
    (∀ name, Pattern.test (before ++ first ++ ['/'] ++ second ++ after) name =
      Pattern.test (before ++ stars ++ after) name) ∧
    ∀ (tree : Tree) (listener : Listener) (root : Text),
      tree.glob listener (before ++ first ++ ['/'] ++ second ++ after) root =
        tree.glob listener (before ++ stars ++ after) root := by
  have hpair : before ++ first ++ ['/'] ++ second ++ after =
      before ++ (spell '/' false [first, second] ++ after) := by simp [spell]
  have hone : before ++ stars ++ after = before ++ (spell '/' false [stars] ++ after) := by
    simp [spell]
  have hstars : ∀ part ∈ [stars], Stars part := by simpa using hstars
  have hboth : ∀ part ∈ [first, second], Stars part := by simpa using ⟨hfirst, hsecond⟩
  have hshort := Segment.shorten_ofPattern_around hbounded.before hbounded.after
    (List.cons_ne_nil first [second]) hboth (List.cons_ne_nil stars []) hstars
  rw [hpair, hone]
  refine ⟨fun e => Pattern.read_eq_error_iff hshort, Pattern.test_of_shorten hshort, ?_⟩
  intro tree listener root
  rw [Tree.glob, Tree.glob, Walk.glob_around hbounded.before hbounded.after
    (List.cons_ne_nil first [second]) hboth (List.cons_ne_nil stars []) hstars]

/-- Between two literals. -/
theorem stars_in_a_row_between :
    (Stars "**".toList ∧ Text.Bounded "a/".toList "**".toList "/b".toList ∧
      Stars "***".toList ∧ Stars "**".toList) ∧
    (∀ name, Pattern.test "a/***/**/b".toList name = Pattern.test "a/**/b".toList name) ∧
    (∀ (tree : Tree) (listener : Listener) (root : Text),
      tree.glob listener "a/***/**/b".toList root = tree.glob listener "a/**/b".toList root) ∧
    Segment.read "a/**/b".toList =
      .ok [.literal "a/".toList 1, .wild "**/".toList, .literal "b".toList 1] := by
  have hstars : Stars "**".toList := by decide
  have hmore : Stars "***".toList := by decide
  have hbounded : Text.Bounded "a/".toList "**".toList "/b".toList :=
    ⟨by decide, .inr (by decide), .inr (by decide)⟩
  obtain ⟨-, htest, hglob⟩ := stars_in_a_row hstars hbounded hmore hstars
  exact ⟨⟨hstars, hbounded, hmore, hstars⟩, htest, hglob, by decide +kernel⟩

end PathGlob
