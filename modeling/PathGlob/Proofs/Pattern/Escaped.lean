/-
Paths written as patterns for themselves.

With a backslash in front of every character that means more than itself a text is read
as its characters (`Mask.parse_escaped`). Escaping goes component by component, and no
component becomes one of stars, so the pattern is one literal. As such it matches the
path it was made from and nothing else (`Pattern.test_escaped`).
-/
import PathGlob.Proofs.Pattern.Literal

set_option autoImplicit false

namespace PathGlob

open Lexical (IsDots)

namespace Text

/-- The characters that mean more than themselves, outside a class. -/
def isSpecial (c : Char) : Bool := c == '*' || c == '?' || c == '[' || c == '\\'

/-- The text with a backslash in front of each of these. -/
def escaped (t : Text) : Text := t.flatMap fun c => if isSpecial c then ['\\', c] else [c]

variable {t : Text}

theorem escaped_cons (c : Char) (t : Text) :
    escaped (c :: t) = (if isSpecial c then ['\\', c] else [c]) ++ escaped t := rfl

theorem escaped_append (a b : Text) : escaped (a ++ b) = escaped a ++ escaped b :=
  List.flatMap_append

theorem escaped_spell (closed : Bool) (names : List Text) :
    escaped (spell '/' closed names) = spell '/' closed (names.map escaped) := by
  induction names with
  | nil => rfl
  | cons name rest ih =>
    rw [List.map_cons, spell, spell, escaped_append, escaped_append, ih, List.isEmpty_map]
    split <;> rfl

/-- Escaping adds backslashes and nothing else. -/
theorem mem_escaped {c : Char} (hc : c ≠ '\\') : c ∈ escaped t ↔ c ∈ t := by
  induction t with
  | nil => rfl
  | cons d rest ih =>
    rw [escaped_cons, List.mem_append, ih, List.mem_cons]
    refine or_congr_left ?_
    split
    · simp [hc]
    · simp

theorem isName_escaped (h : IsName t) : IsName (escaped t) := by
  refine ⟨?_, fun hmem => h.2 ((mem_escaped (by decide)).1 hmem)⟩
  obtain ⟨c, rest, rfl⟩ := List.exists_cons_of_ne_nil h.1
  rw [escaped_cons]
  split <;> simp

/-- More than dots is still more when it is escaped. -/
theorem not_isDots_escaped (h : ¬ IsDots t) : ¬ IsDots (escaped t) := by
  refine fun hdots => h fun c hc => ?_
  by_cases hescape : c = '\\'
  · subst hescape
    exact absurd (hdots '\\' (List.mem_flatMap.2 ⟨'\\', hc, by decide⟩)) (by decide)
  · exact hdots c ((mem_escaped hescape).2 hc)

/-- It adds none where there is nothing to escape. -/
theorem escaped_eq_self (hplain : Mask.isPlain t = true) (hescape : '\\' ∉ t) : escaped t = t := by
  induction t with
  | nil => rfl
  | cons c rest ih =>
    rw [Mask.isPlain, List.all_cons, Bool.and_eq_true, Bool.and_eq_true, Bool.and_eq_true,
      bne_iff_ne, bne_iff_ne, bne_iff_ne] at hplain
    obtain ⟨⟨⟨hstar, hany⟩, hclass⟩, hrest⟩ := hplain
    rw [List.mem_cons, not_or] at hescape
    have hspecial : isSpecial c = false := by
      simp [isSpecial, hstar, hany, hclass, Ne.symm hescape.1]
    rw [escaped_cons, hspecial, if_neg Bool.false_ne_true, ih hrest hescape.2]
    rfl

/-- The text gets longer where there is a backslash in it. -/
theorem length_lt_escaped (hescape : '\\' ∈ t) : t.length < (escaped t).length := by
  have hle : ∀ t : Text, t.length ≤ (escaped t).length := by
    intro t
    induction t with
    | nil => exact Nat.le_refl 0
    | cons c rest ih =>
      rw [escaped_cons, List.length_append, List.length_cons]
      split <;> simp only [List.length_cons, List.length_nil] <;> omega
  obtain ⟨front, back, rfl⟩ := List.append_of_mem hescape
  have hfront := hle front
  have hback := hle back
  rw [escaped_append, escaped_cons, if_pos (by decide)]
  simp only [List.length_append, List.length_cons, List.length_nil]
  omega

theorem isPlain_escaped (t : Text) : Mask.isPlain (escaped t) = Mask.isPlain t := by
  rw [Bool.eq_iff_iff, Mask.isPlain, Mask.isPlain, List.all_eq_true, List.all_eq_true]
  constructor
  · intro h c hc
    by_cases hescape : c = '\\'
    · subst hescape
      decide
    · exact h c ((mem_escaped hescape).2 hc)
  · intro h c hc
    by_cases hescape : c = '\\'
    · subst hescape
      decide
    · exact h c ((mem_escaped hescape).1 hc)

/-- No star stands at the front of an escaped text, so none is a component of stars. -/
theorem not_stars_escaped (t : Text) : ¬ Segment.Stars (escaped t) := by
  rintro ⟨hlen, hall⟩
  cases t with
  | nil => exact absurd hlen (by decide)
  | cons c rest =>
    rw [escaped_cons] at hall
    cases hspecial : isSpecial c with
    | true =>
      rw [hspecial, if_pos rfl] at hall
      exact absurd (hall '\\' (by simp)) (by decide)
    | false =>
      rw [hspecial, if_neg Bool.false_ne_true] at hall
      obtain rfl := hall c (by simp)
      exact absurd hspecial (by decide)

end Text

/-- **An escaped text is read as its characters.** -/
theorem Mask.parse_escaped (t : Text) : parse (Text.escaped t) = .ok (t.map .char) := by
  induction t with
  | nil => simp [Text.escaped, parse]
  | cons c rest ih =>
    rw [Text.escaped_cons]
    cases hspecial : Text.isSpecial c with
    | true =>
      rw [if_pos rfl, List.cons_append, List.singleton_append, parse, ih]
      rfl
    | false =>
      rw [Text.isSpecial, Bool.or_eq_false_iff, Bool.or_eq_false_iff, Bool.or_eq_false_iff,
        beq_eq_false_iff_ne, beq_eq_false_iff_ne, beq_eq_false_iff_ne, beq_eq_false_iff_ne] at hspecial
      obtain ⟨⟨⟨hstar, hany⟩, hclass⟩, hescape⟩ := hspecial
      rw [if_neg Bool.false_ne_true, (ItemText.plain hescape hstar hany hclass).parse_append, ih]
      rfl

section Names

variable {names : List Text} (hnames : ∀ name ∈ names, Text.IsName name)

include hnames

theorem Text.isName_of_escaped : ∀ name ∈ names.map escaped, IsName name := by
  intro name hname
  obtain ⟨name, hmem, rfl⟩ := List.mem_map.1 hname
  exact isName_escaped (hnames name hmem)

theorem Text.opened_escaped : opened (escaped (join names)) = false := by
  rw [join_eq_spell, escaped_spell]
  exact opened_spell (isName_of_escaped hnames)

theorem Text.components_escaped (hne : names ≠ []) :
    components (escaped (join names)) = names.map escaped := by
  rw [join_eq_spell, escaped_spell]
  exact components_spell (by simpa using hne) (isName_of_escaped hnames)

theorem Segment.ofPattern_escaped (hne : names ≠ []) : ∃ width,
    ofPattern (Text.escaped (Text.join names)) =
      [.literal (Text.escaped (Text.join names)) width] := by
  have hnonempty : Text.escaped (Text.join names) ≠ [] := by
    rw [Text.join_eq_spell, Text.escaped_spell]
    exact Text.spell_ne_nil (by simpa using hne) (Text.isName_of_escaped hnames)
  refine ⟨_, ofPattern_literal hnonempty (Text.opened_escaped hnames) ?_⟩
  intro part hpart
  rw [Text.components_escaped hnames hne] at hpart
  obtain ⟨name, -, rfl⟩ := List.mem_map.1 hpart
  exact Text.not_stars_escaped name

/-- **A path with its special characters escaped** is a pattern. -/
theorem Segment.read_escaped (hne : names ≠ []) : ∃ width,
    read (Text.escaped (Text.join names)) =
      .ok [.literal (Text.escaped (Text.join names)) width] := by
  obtain ⟨width, hliteral⟩ := ofPattern_escaped hnames hne
  refine ⟨width, read_eq_ok.2 ⟨hliteral.symm, ?_⟩⟩
  rw [check, Mask.parse_escaped]
  rfl

/-- It matches this path and no other name. -/
theorem Pattern.test_escaped (hne : names ≠ []) (name : Text) :
    test (Text.escaped (Text.join names)) name = .ok (decide (name = Text.join names)) := by
  obtain ⟨width, hread⟩ := Segment.read_escaped hnames hne
  have hparse := Mask.parse_escaped (Text.join names)
  have hfits := Mask.fits_of_parse hparse name
  have haccepts : Mask.accepts ((Text.join names).map .char) name = decide (name = Text.join names) := by
    rw [Bool.eq_iff_iff, decide_eq_true_iff, ← Mask.fits_chars hparse, Mask.Fits, hfits, Except.ok.injEq]
  rw [haccepts] at hfits
  rw [test_of_read hread]
  exact congrArg (Except.mapError MatchFault.malformed) hfits

end Names

end PathGlob
