/-
What a pattern means, component by component.

A path matches when its names can be split over the components of the pattern in
order. A component of two or more stars takes any number of names, every other
component takes one that it fits. This says nothing about searching, and both
ways of using a pattern, the search in a name and the walk through a tree, are
held against it.
-/
import PathGlob.Pattern.Segment
import PathGlob.Proofs.Mask.Components

set_option autoImplicit false

namespace PathGlob

open Segment (isStars)

/-- The names, split in order over the components of a pattern. -/
inductive Splits : List Text → List Text → Prop
  | done : Splits [] []
  /-- A component of stars takes no further name. -/
  | skip {stars : Text} {parts names : List Text} :
    isStars stars = true → Splits parts names → Splits (stars :: parts) names
  /-- A component of stars takes one name more. -/
  | span {stars : Text} {parts : List Text} {name : Text} {names : List Text} :
    isStars stars = true → Splits (stars :: parts) names → Splits (stars :: parts) (name :: names)
  /-- Any other component takes one name. -/
  | one {part : Text} {parts : List Text} {name : Text} {names : List Text} :
    isStars part = false → Mask.Fits part name → Splits parts names →
    Splits (part :: parts) (name :: names)

/-- Some components, none of them stars. -/
def IsPlain (parts : List Text) : Prop := parts ≠ [] ∧ ∀ part ∈ parts, isStars part = false

/-- Some components, all of them stars. -/
def IsWild (parts : List Text) : Prop := parts ≠ [] ∧ ∀ part ∈ parts, isStars part = true

theorem IsPlain.last_isStars {plain : List Text} (h : IsPlain plain) (front : List Text) :
    (front ++ plain).getLast?.any isStars = false := by
  rw [List.getLast?_append_of_ne_nil _ h.1, List.getLast?_eq_some_getLast h.1, Option.any_some]
  exact h.2 _ (List.getLast_mem h.1)

theorem IsWild.last_isStars {stars : List Text} (h : IsWild stars) :
    stars.getLast?.any isStars = true := by
  rw [List.getLast?_eq_some_getLast h.1, Option.any_some]
  exact h.2 _ (List.getLast_mem h.1)

namespace Splits

variable {parts names : List Text}

theorem nil_iff : Splits [] names ↔ names = [] := by
  constructor
  · intro h
    cases h
    rfl
  · rintro rfl
    exact .done

theorem stars_cons_iff {stars : Text} (hstars : isStars stars = true) :
    Splits (stars :: parts) names ↔ ∃ taken more, names = taken ++ more ∧ Splits parts more := by
  constructor
  · -- The induction needs a variable for the components, which `span` leaves as
    -- they are.
    generalize hall : stars :: parts = all
    intro h
    induction h with
    | done => simp at hall
    | @skip _ _ names _ h ih =>
      obtain ⟨rfl, rfl⟩ := List.cons.inj hall
      exact ⟨[], names, rfl, h⟩
    | @span _ _ name _ _ _ ih =>
      obtain ⟨taken, more, rfl, h⟩ := ih hall
      obtain ⟨rfl, rfl⟩ := List.cons.inj hall
      exact ⟨name :: taken, more, rfl, h⟩
    | one hpart _ _ _ =>
      obtain ⟨rfl, rfl⟩ := List.cons.inj hall
      rw [hstars] at hpart
      simp at hpart
  · rintro ⟨taken, more, rfl, h⟩
    induction taken with
    | nil => exact .skip hstars h
    | cons name taken ih => exact .span hstars ih

theorem part_cons_iff {part : Text} (hpart : isStars part = false) :
    Splits (part :: parts) names ↔
      ∃ name more, names = name :: more ∧ Mask.Fits part name ∧ Splits parts more := by
  constructor
  · intro h
    cases h with
    | skip hstars _ => rw [hpart] at hstars; simp at hstars
    | span hstars _ => rw [hpart] at hstars; simp at hstars
    | one _ hfits h => exact ⟨_, _, rfl, hfits, h⟩
  · rintro ⟨name, more, rfl, hfits, h⟩
    exact .one hpart hfits h

/-- Components one after another split names one after another. -/
theorem append_iff {front : List Text} : Splits (front ++ parts) names ↔
    ∃ taken more, names = taken ++ more ∧ Splits front taken ∧ Splits parts more := by
  induction front generalizing names with
  | nil =>
    constructor
    · intro h
      exact ⟨[], names, rfl, .done, h⟩
    · rintro ⟨taken, more, rfl, htaken, h⟩
      rw [nil_iff.1 htaken]
      exact h
  | cons part front ih =>
    rw [List.cons_append]
    cases hpart : isStars part with
    | true =>
      rw [stars_cons_iff hpart]
      constructor
      · rintro ⟨run, left, rfl, hleft⟩
        obtain ⟨taken, more, rfl, hfront, hmore⟩ := ih.1 hleft
        exact ⟨run ++ taken, more, (List.append_assoc ..).symm,
          (stars_cons_iff hpart).2 ⟨run, taken, rfl, hfront⟩, hmore⟩
      · rintro ⟨taken, more, rfl, hfront, hmore⟩
        obtain ⟨run, left, rfl, hleft⟩ := (stars_cons_iff hpart).1 hfront
        exact ⟨run, left ++ more, List.append_assoc .., ih.2 ⟨left, more, rfl, hleft, hmore⟩⟩
    | false =>
      rw [part_cons_iff hpart]
      constructor
      · rintro ⟨name, left, rfl, hfits, hleft⟩
        obtain ⟨taken, more, rfl, hfront, hmore⟩ := ih.1 hleft
        exact ⟨name :: taken, more, rfl, .one hpart hfits hfront, hmore⟩
      · rintro ⟨taken, more, rfl, hfront, hmore⟩
        obtain ⟨name, left, rfl, hfits, hleft⟩ := (part_cons_iff hpart).1 hfront
        exact ⟨name, left ++ more, rfl, hfits, ih.2 ⟨left, more, rfl, hleft, hmore⟩⟩

/-- Components without stars take names one to one. -/
theorem forall₂_iff (hparts : ∀ part ∈ parts, isStars part = false) :
    Splits parts names ↔ List.Forall₂ Mask.Fits parts names := by
  induction parts generalizing names with
  | nil => rw [nil_iff, List.forall₂_nil_left_iff]
  | cons part parts ih =>
    rw [List.forall_mem_cons] at hparts
    rw [part_cons_iff hparts.1, List.forall₂_cons_left_iff]
    constructor
    · rintro ⟨name, more, rfl, hfits, h⟩
      exact ⟨name, more, hfits, (ih hparts.2).1 h, rfl⟩
    · rintro ⟨name, more, hfits, h, rfl⟩
      exact ⟨name, more, rfl, hfits, (ih hparts.2).2 h⟩

/-- Components of stars take everything. -/
theorem of_isWild (hparts : IsWild parts) (names : List Text) : Splits parts names := by
  obtain ⟨hne, hstars⟩ := hparts
  induction parts with
  | nil => exact absurd rfl hne
  | cons part rest ih =>
    rw [List.forall_mem_cons] at hstars
    refine (stars_cons_iff hstars.1).2 ?_
    by_cases hrest : rest = []
    · subst hrest
      exact ⟨names, [], (List.append_nil names).symm, .done⟩
    · exact ⟨[], names, rfl, ih hrest hstars.2⟩

theorem wild_append_iff {stars : List Text} (hstars : IsWild stars) :
    Splits (stars ++ parts) names ↔ ∃ taken more, names = taken ++ more ∧ Splits parts more := by
  rw [append_iff]
  constructor
  · rintro ⟨taken, more, hnames, -, h⟩
    exact ⟨taken, more, hnames, h⟩
  · rintro ⟨taken, more, hnames, h⟩
    exact ⟨taken, more, hnames, of_isWild hstars taken, h⟩

theorem plain_append_iff {plain : List Text} (hplain : IsPlain plain) :
    Splits (plain ++ parts) names ↔
      ∃ taken more, names = taken ++ more ∧ List.Forall₂ Mask.Fits plain taken ∧
        Splits parts more := by
  rw [append_iff]
  simp only [forall₂_iff hplain.2]

end Splits

end PathGlob
