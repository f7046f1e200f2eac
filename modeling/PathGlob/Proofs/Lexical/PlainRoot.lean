/-
Plain names in front of a pattern, and as its root.

The same names can be written in front of a pattern or be given as its root. When
they are more than dots and hold no character with a meaning in patterns, nothing
happens to them on the way: the root is cleaned to itself, and in front of the
pattern there are no dots to hand over. So the one walk starts from the names and
the other from the current directory, with the pattern left as it is but for the
wildcard that stands for a closing separator.
-/
import PathGlob.Mask.Grammar
import PathGlob.Proofs.Lexical.Anchor
import PathGlob.Proofs.Tree.Entries

set_option autoImplicit false

namespace PathGlob

open Lexical (IsDots isDotOrSeparator)

/-- A name that stands for itself wherever it is written: it is more than dots, and
as a part of a pattern it takes only itself. -/
structure Text.Solid (name : Text) : Prop where
  isName : IsName name
  grounded : ¬ IsDots name
  plain : Mask.isPlain name = true
  unescaped : '\\' ∉ name

instance (name : Text) : Decidable name.Solid :=
  decidable_of_iff
    (Text.IsName name ∧ ¬ IsDots name ∧ Mask.isPlain name = true ∧ '\\' ∉ name)
    ⟨fun ⟨hname, hdots, hplain, hescape⟩ => ⟨hname, hdots, hplain, hescape⟩,
      fun h => ⟨h.isName, h.grounded, h.plain, h.unescaped⟩⟩

/-- Names in a row that stand for themselves. -/
structure Text.SolidNames (names : List Text) : Prop where
  ne_nil : names ≠ []
  solid : ∀ name ∈ names, Text.Solid name

instance (names : List Text) : Decidable (Text.SolidNames names) :=
  decidable_of_iff (names ≠ [] ∧ ∀ name ∈ names, Text.Solid name)
    ⟨fun ⟨hne, hsolid⟩ => ⟨hne, hsolid⟩, fun h => ⟨h.ne_nil, h.solid⟩⟩

namespace Text.SolidNames

variable {names : List Text}

theorem isName (h : SolidNames names) : ∀ name ∈ names, IsName name :=
  fun name hname => (h.solid name hname).isName

/-- A text that begins with them begins with a character that is no dot and no
separator, behind some dots at most. -/
theorem exists_body (h : SolidNames names) (closed : Bool) (rest : Text) :
    ∃ dots c body, spell '/' closed names ++ rest = dots ++ c :: body ∧ IsDots dots ∧
      c ≠ '.' ∧ c ≠ '/' := by
  obtain ⟨name, more, rfl⟩ := List.exists_cons_of_ne_nil h.ne_nil
  have hname := h.solid name List.mem_cons_self
  obtain ⟨dots, c, body, rfl, hdots, hdot, hsep⟩ :=
    PathTree.exists_body hname.isName hname.grounded
  exact ⟨dots, c, _, by rw [spell, List.append_assoc, List.append_assoc, List.cons_append], hdots,
    hdot, hsep⟩

theorem spell_ne_nil (h : SolidNames names) (closed : Bool) : spell '/' closed names ≠ [] :=
  Text.spell_ne_nil h.ne_nil h.isName

/-- No text that begins with them begins with a separator. -/
theorem opened_append (h : SolidNames names) (closed : Bool) (rest : Text) :
    Text.opened (spell '/' closed names ++ rest) = false := by
  obtain ⟨name, more, rfl⟩ := List.exists_cons_of_ne_nil h.ne_nil
  rw [spell, List.append_assoc]
  exact Text.opened_append (h.isName name List.mem_cons_self) _

end Text.SolidNames

namespace Lexical

/-! ## Cleaning -/

/-- **Plain names are clean.** -/
theorem clean_spell {names : List Text} (h : Text.SolidNames names) :
    clean (spell '/' false names) = spell '/' false names := by
  have hnamed : ∀ name ∈ names, Text.IsName name ∧ name ≠ ['.'] ∧ name ≠ up := by
    refine fun name hname => ⟨h.isName name hname, ?_, ?_⟩ <;> rintro rfl <;>
      exact (h.solid _ hname).grounded (by decide)
  have hcourse : Course.of (spell '/' false names) = ⟨0, names⟩ := by
    rw [Course.of, Text.components_spell h.ne_nil h.isName, Course.foldl_names hnamed]
    rfl
  have hspelled : Course.spelled false ⟨0, names⟩ = spell '/' false names := rfl
  rw [clean_eq, hcourse, Text.opened_spell h.isName, Course.text, hspelled,
    if_neg (by simpa using h.spell_ne_nil false)]

/-! ## Dots in front -/

/-- A name with dots in front hands over none of them. -/
theorem dotPart_name {dots rest : Text} {c : Char} (hdots : IsDots dots) (hdot : c ≠ '.')
    (hsep : c ≠ '/') : dotPart (dots ++ c :: rest) = [] := by
  have htake := @takeWhile_run _ (c :: rest) hdots.all_run
    (by simp [isDotOrSeparator, hdot, hsep])
  have hlen : (dots.length == (dots ++ c :: rest).length) = false := by simp
  rw [dotPart]
  rw [htake, hlen, Bool.false_and, if_neg (by simp)]
  exact Text.parent_of_notMem hdots.notMem

end Lexical

namespace Anchored

open Text (SolidNames)

variable {names : List Text} {pattern : Text}

theorem withEverythingBelow_append (front : Text) (hne : pattern ≠ []) :
    withEverythingBelow (front ++ pattern) = front ++ withEverythingBelow pattern := by
  rw [withEverythingBelow, withEverythingBelow, Text.closed_append hne]
  split
  · rw [List.append_assoc]
  · rfl

theorem withEverythingBelow_ne_nil (hne : pattern ≠ []) : withEverythingBelow pattern ≠ [] := by
  rw [withEverythingBelow]
  split
  · simp
  · exact hne

theorem opened_withEverythingBelow (hne : pattern ≠ []) (hopened : Text.opened pattern = false) :
    Text.opened (withEverythingBelow pattern) = false := by
  rw [withEverythingBelow]
  split
  · obtain ⟨c, rest, rfl⟩ := List.exists_cons_of_ne_nil hne
    exact hopened
  · exact hopened

/-- A pattern that begins with a name starts from the current directory. -/
theorem of_here (hne : pattern ≠ []) (hopened : Text.opened pattern = false)
    (hdots : Lexical.dotPart pattern = []) :
    Anchored.of pattern [] = ⟨withEverythingBelow pattern, ['.', '/']⟩ := by
  have hnil := withEverythingBelow_ne_nil hne
  have hclean : Lexical.clean [] = ['.'] := by cbv
  rw [Anchored.of]
  rw [Lexical.withoutDots, dotPart_withEverythingBelow, hdots, List.isEmpty_nil, if_pos rfl,
    hclean, List.length_nil, List.drop_zero, closeRoot, opened_withEverythingBelow hne hopened,
    List.isEmpty_eq_false_iff.2 hnil]
  rfl

/-- **With the names in front** the walk starts there too. -/
theorem of_front (h : SolidNames names) (hne : pattern ≠ []) :
    Anchored.of (spell '/' true names ++ pattern) [] =
      ⟨spell '/' true names ++ withEverythingBelow pattern, ['.', '/']⟩ := by
  have hdots : Lexical.dotPart (spell '/' true names ++ pattern) = [] := by
    obtain ⟨dots, c, body, heq, hdots, hdot, hsep⟩ := h.exists_body true pattern
    rw [heq]
    exact Lexical.dotPart_name hdots hdot hsep
  have hnil : spell '/' true names ++ pattern ≠ [] := by simp [h.spell_ne_nil true]
  rw [of_here hnil (h.opened_append true pattern) hdots, withEverythingBelow_append _ hne]

/-- **With the names as the root** it starts from them. -/
theorem of_root (h : SolidNames names) (hne : pattern ≠ [])
    (hopened : Text.opened pattern = false) (hdots : Lexical.dotPart pattern = []) :
    Anchored.of pattern (spell '/' false names) =
      ⟨withEverythingBelow pattern, spell '/' true names⟩ := by
  have hnil := withEverythingBelow_ne_nil hne
  have hclosed : Text.closed (spell '/' false names) = false := Text.closed_spell h.ne_nil h.isName
  rw [Anchored.of]
  rw [Lexical.withoutDots, dotPart_withEverythingBelow, hdots, List.isEmpty_nil, if_pos rfl,
    Lexical.clean_spell h, List.length_nil, List.drop_zero, closeRoot,
    opened_withEverythingBelow hne hopened, List.isEmpty_eq_false_iff.2 hnil, hclosed,
    if_neg (by simp), spell_true h.ne_nil]

end Anchored

end PathGlob
