/-
The width of a literal, and the components the scanner counts in it.

A literal is searched for in windows of as many components as its width says, so the
width should be the number that the scanner needs to cross the literal itself: with that
many it comes to the end of the text, with fewer it stops before (`Measured`).

A literal is made of pieces, each closed by a separator but perhaps the last, and the
scanner crosses one piece for each component it is asked for (`crossMarks_pieces`). One
piece is different. The scanner counts nothing for a separator in the place where it
starts, and neither does the width, but only where the literal begins the pattern. A
literal behind a wildcard can begin with a separator as well, the second of two in a row.
There the separator is counted, and the width is one more than the scanner finds. No other
literal is measured wrongly (`measured_iff`).
-/
import PathGlob.Proofs.Pattern.Segmentation
import PathGlob.Proofs.Window.Rescan

set_option autoImplicit false

namespace PathGlob

open Text (byteSize byteMarks)

namespace Segment

/-- Crossing `width` components is crossing the text, and crossing fewer is not. -/
structure Measured (text : Text) (width : Nat) : Prop where
  whole : ∃ b, scan text 0 (byteSize text) width = some (byteSize text, b)
  sooner : ∀ count stop b, 1 ≤ count → count < width →
    scan text 0 (byteSize text) count = some (stop, b) → stop < byteSize text

/-! ## Crossing pieces -/

section Pieces

variable {front back pieces : List Text}

/-- One component is counted for each piece. -/
theorem crossMarks_pieces (h : Pieced (front ++ back)) (hne : front ≠ []) (pos : Nat) :
    ∃ b, crossMarks pos front.length (byteMarks (front ++ back).flatten) =
      some (pos + byteSize front.flatten, b) := by
  induction front generalizing pos with
  | nil => exact absurd rfl hne
  | cons piece front ih =>
    rw [List.cons_append] at h ⊢
    generalize hrest : front ++ back = rest at h
    cases h with
    | last _ hname =>
      -- The last piece has no separator, the bytes end with it.
      obtain ⟨rfl, -⟩ := List.append_eq_nil_iff.1 hrest
      refine ⟨.finish, ?_⟩
      have hcross := Window.crossMarks_append hname pos 1 []
      rw [List.append_nil] at hcross
      rw [List.flatten_singleton, List.length_singleton, hcross]
      rfl
    | @cons name _ hname h =>
      subst hrest
      rw [List.flatten_cons, List.append_assoc, List.singleton_append, Window.byteMarks_append,
        Window.byteMarks_separator, Window.crossMarks_append hname, List.flatten_cons,
        Text.byteSize_append, Text.byteSize_append, show byteSize ['/'] = 1 from rfl]
      by_cases hfront : front = []
      · subst hfront
        exact ⟨.separator, by rw [List.length_singleton, Window.crossMarks_true_one]; rfl⟩
      · obtain ⟨b, hb⟩ := ih h hfront (pos + byteSize name + 1)
        obtain ⟨next, others, rfl⟩ := List.exists_cons_of_ne_nil hfront
        refine ⟨b, ?_⟩
        rw [List.length_cons, List.length_cons, Window.crossMarks_true_succ, ← List.length_cons, hb]
        simp only [Nat.add_assoc]

/-- A text is measured by its pieces, if what begins it in front of them is not counted. -/
theorem measured_of_pieced (lead : Text) {text : Text} (h : Pieced pieces) (hne : pieces ≠ [])
    (htext : text = lead ++ pieces.flatten)
    (hscan : ∀ count, scan text 0 (byteSize text) count =
      crossMarks (byteSize lead) count (byteMarks pieces.flatten)) :
    Measured text pieces.length := by
  constructor
  · have hsplit : pieces ++ [] = pieces := List.append_nil pieces
    obtain ⟨b, hb⟩ := crossMarks_pieces (hsplit.symm ▸ h) hne (byteSize lead)
    rw [hsplit] at hb
    exact ⟨b, by rw [hscan, hb, htext, Text.byteSize_append]⟩
  · intro count stop b hpos hlt hstop
    -- What is crossed are the first pieces, and behind them there are some more.
    have hsplit := List.take_append_drop count pieces
    have hlen : (pieces.take count).length = count := List.length_take_of_le (Nat.le_of_lt hlt)
    have hfront : pieces.take count ≠ [] := by
      rw [← List.length_pos_iff, hlen]
      exact hpos
    have hback : (pieces.drop count).flatten ≠ [] := by
      obtain ⟨next, others, hnext⟩ := List.exists_cons_of_ne_nil
        (List.drop_eq_nil_iff.not.2 (Nat.not_le_of_lt hlt))
      have hne := h.ne_nil next (List.mem_of_mem_drop (hnext ▸ List.mem_cons_self))
      simp [hnext, hne]
    obtain ⟨b', hb'⟩ := crossMarks_pieces (hsplit.symm ▸ h) hfront (byteSize lead)
    rw [hsplit, hlen] at hb'
    rw [hscan, hb', Option.some.injEq, Prod.mk.injEq] at hstop
    have hsize := Text.byteSize_pos hback
    rw [← hstop.1, htext, ← hsplit, List.flatten_append, Text.byteSize_append,
      Text.byteSize_append, hsplit]
    omega

/-- Pieces of which the first is no bare separator. -/
theorem measured_of_open (h : Pieced pieces) (hne : pieces ≠ [])
    (hopen : Text.opened pieces.flatten = false) : Measured pieces.flatten pieces.length := by
  refine measured_of_pieced [] h hne rfl fun count => ?_
  rw [scan_whole, List.drop_zero]
  cases h with
  | nil => exact absurd rfl hne
  | @last name hname hsep =>
    have hcross := Window.cross_append ⟨hname, hsep⟩ 0 count []
    rw [List.append_nil] at hcross
    rw [List.flatten_singleton, hcross]
    rfl
  | @cons name rest hsep _ =>
    have hname : name ≠ [] := by
      rintro rfl
      cases hopen
    rw [List.flatten_cons, List.append_assoc, Window.byteMarks_append,
      Window.cross_append ⟨hname, hsep⟩]
    rfl

/-- Pieces behind a separator with which the text begins. -/
theorem measured_of_opened (h : Pieced pieces) (hne : pieces ≠ []) :
    Measured ('/' :: pieces.flatten) pieces.length := by
  refine measured_of_pieced ['/'] h hne rfl fun count => ?_
  rw [scan_whole, List.drop_zero, Window.byteMarks_separator]
  rfl

end Pieces

/-- No text has two widths. -/
theorem Measured.not_succ {text : Text} {width : Nat} (h : Measured text width) (hpos : 1 ≤ width) :
    ¬ Measured text (width + 1) := by
  intro hmore
  obtain ⟨b, hb⟩ := h.whole
  exact absurd (hmore.sooner width _ b hpos (Nat.lt_succ_self width) hb) (Nat.lt_irrefl _)

/-! ## The literals of a pattern -/

/-- Pieces that begin with a separator begin with the bare one. -/
theorem Pieced.exists_opened {pieces : List Text} (h : Pieced pieces)
    (hopened : Text.opened pieces.flatten = true) : ∃ rest, pieces = ['/'] :: rest ∧ Pieced rest := by
  cases h with
  | nil => cases hopened
  | @last name hne hname =>
    rw [List.flatten_singleton, Text.opened_name ⟨hne, hname⟩] at hopened
    cases hopened
  | @cons name rest hname hrest =>
    by_cases hne : name = []
    · subst hne
      exact ⟨rest, rfl, hrest⟩
    · rw [List.flatten_cons, List.append_assoc, Text.opened_append ⟨hne, hname⟩] at hopened
      cases hopened

/-- **The width of a literal** is the number of components the scanner counts in it, exactly
if the literal begins the pattern or does not begin with a separator. -/
theorem measured_iff {pattern text : Text} {width : Nat} {segments pre post : List Segment}
    (hread : read pattern = .ok segments) (hsplit : segments = pre ++ .literal text width :: post)
    (hbare : text ≠ ['/']) : Measured text width ↔ pre = [] ∨ Text.opened text = false := by
  obtain ⟨rfl, -⟩ := read_eq_ok.1 hread
  obtain ⟨front, ⟨kind, run⟩, back, hgroups, hsegment, -, -, hlen, -⟩ := exists_run hsplit
  have hpre : pre = [] ↔ front.isEmpty = true := by
    rw [List.isEmpty_iff, ← List.length_eq_zero_iff, hlen, List.length_eq_zero_iff]
  cases kind with
  | true => cases hsegment
  | false =>
    obtain ⟨rfl, rfl⟩ := Segment.literal.inj hsegment
    have hpieced := pieced_run hgroups
    have hrun : ¬ (run == [['/']]) = true := by
      rw [beq_iff_eq]
      rintro rfl
      exact hbare rfl
    rw [hpre, span, if_neg hrun]
    by_cases hopened : Text.opened run.flatten = true
    · -- The separator in front is one piece more than the scanner counts.
      obtain ⟨rest, rfl, hrest⟩ := hpieced.exists_opened hopened
      have hne : rest ≠ [] := by
        rintro rfl
        exact hbare rfl
      have hmeasured : Measured (['/'] :: rest).flatten rest.length := measured_of_opened hrest hne
      cases front.isEmpty with
      | true => simpa using hmeasured
      | false =>
        rw [hopened, if_neg (by simp), List.length_cons]
        simpa using hmeasured.not_succ (List.length_pos_iff.2 hne)
    · rw [Bool.not_eq_true] at hopened
      have hhead : ¬ (front.isEmpty && run.head? == some ['/']) = true := by
        rw [Bool.and_eq_true, beq_iff_eq]
        rintro ⟨-, hhead⟩
        obtain ⟨rest, rfl⟩ := List.head?_eq_some_iff.1 hhead
        cases hopened
      rw [if_neg hhead]
      exact iff_of_true (measured_of_open hpieced (run_ne_nil hgroups) hopened) (.inr hopened)

/-- The literal in front begins with a separator, the one in the middle doubles one, and both
are measured as the scanner counts. The last one is not: it begins with a separator. -/
theorem measured_iff_doubled :
    read "/a/**/é//b/**//c".toList = .ok [.literal "/a/".toList 1, .wild "**/".toList,
      .literal "é//b/".toList 3, .wild "**/".toList, .literal "/c".toList 2] ∧
    (Measured "/a/".toList 1 ∧ Measured "é//b/".toList 3 ∧ ¬ Measured "/c".toList 2) := by
  have hread : read "/a/**/é//b/**//c".toList = .ok [.literal "/a/".toList 1, .wild "**/".toList,
      .literal "é//b/".toList 3, .wild "**/".toList, .literal "/c".toList 2] := by decide +kernel
  have hfirst : [Segment.literal "/a/".toList 1, .wild "**/".toList, .literal "é//b/".toList 3,
      .wild "**/".toList, .literal "/c".toList 2] = [] ++ .literal "/a/".toList 1 :: _ := rfl
  have hmiddle : [Segment.literal "/a/".toList 1, .wild "**/".toList, .literal "é//b/".toList 3,
      .wild "**/".toList, .literal "/c".toList 2] =
      [.literal "/a/".toList 1, .wild "**/".toList] ++ .literal "é//b/".toList 3 :: _ := rfl
  have hlast : [Segment.literal "/a/".toList 1, .wild "**/".toList, .literal "é//b/".toList 3,
      .wild "**/".toList, .literal "/c".toList 2] = [.literal "/a/".toList 1, .wild "**/".toList,
      .literal "é//b/".toList 3, .wild "**/".toList] ++ .literal "/c".toList 2 :: _ := rfl
  exact ⟨hread, (measured_iff hread hfirst (by decide)).2 (.inl rfl),
    (measured_iff hread hmiddle (by decide)).2 (.inr rfl),
    (measured_iff hread hlast (by decide)).not.2 (by decide)⟩

/-- Behind the wildcard the separator of `/a` is counted, and with two components to cross
the scanner does not come to the end of the text. -/
theorem not_measured_behind_wild :
    read "**//a".toList = .ok [.wild "**/".toList, .literal "/a".toList 2] ∧
      scan "/a".toList 0 (byteSize "/a".toList) 2 = none := by
  constructor
  · decide +kernel
  · rfl

end Segment

end PathGlob
