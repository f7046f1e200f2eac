/-
Cleaning as a stack of pieces.

Cleaning writes one text and takes the end of it back, with no list of pieces and with a
mark below which nothing is taken. The plain account of it is a stack: each piece of the
path goes on top, and a climb takes the top away, unless there is none to take or it is
itself a climb that had to stay. The cleaned path is that stack, bottom first, with
separators between (`clean_eq_stack`).

The stack at any time is the course that the path has taken so far, its climbs below and
its names above them (`stacked_stack`). That no name is a climb is what makes the two
agree: the top is a climb exactly when there are no names left to take back.
-/
import PathGlob.Proofs.Lexical.Course

set_option autoImplicit false

namespace PathGlob

namespace Lexical

/-- The pieces of a path that lead anywhere. -/
def pieces (path : Text) : List Text :=
  (Text.components path).filter fun piece => piece != [] && piece != ['.']

/-- A stack of pieces, the top in front, with one more piece. -/
def stacked (rooted : Bool) : List Text → Text → List Text
  | [], piece => if piece = up ∧ rooted = true then [] else [piece]
  | top :: below, piece => if piece = up ∧ top ≠ up then below else piece :: top :: below

/-- The path of a stack, from the bottom up. -/
def stackPath (rooted : Bool) (stack : List Text) : Text :=
  (if rooted then ['/'] else []) ++ Text.join stack.reverse

namespace Course

variable {rooted : Bool} {c : Course}

/-- The climbs and the names of a course, as a stack. -/
def stack (rooted : Bool) (c : Course) : List Text := (c.climbs rooted ++ c.names).reverse

theorem stackPath_stack : stackPath rooted (c.stack rooted) = c.spelled rooted := by
  rw [stackPath, stack, List.reverse_reverse, Text.join_eq_spell]
  rfl

/-- Without names a climb stays, but for the root, where it goes. -/
theorem stacked_climbs (hnames : c.names = []) :
    stacked rooted (c.stack rooted) up = (c.step up).stack rooted := by
  rw [step_up, if_pos hnames, stack, stack, hnames, List.append_nil, List.append_nil, climbs, climbs,
    List.reverse_replicate, List.reverse_replicate]
  cases rooted with
  | true => rfl
  | false =>
    show stacked false (List.replicate c.ups up) up = List.replicate (c.ups + 1) up
    cases c.ups with
    | zero => rfl
    | succ n => rfl

/-- The last name is the top of the stack, and no climb. -/
theorem stacked_names (hnamed : c.Named) (hnames : c.names ≠ []) :
    stacked rooted (c.stack rooted) up = (c.step up).stack rooted := by
  obtain ⟨front, last, hsplit⟩ := (List.eq_nil_or_concat' c.names).resolve_left hnames
  have hlast : last ≠ up := (hnamed last (by simp [hsplit])).2.2
  rw [step_up, if_neg hnames, stack, stack, hsplit, List.dropLast_concat, ← List.append_assoc,
    List.reverse_concat, stacked, if_pos ⟨rfl, hlast⟩]
  rfl

/-- **One more piece on the stack** is one more piece of the course. -/
theorem stacked_stack (hnamed : c.Named) {piece : Text} (hblank : ¬ (piece = [] ∨ piece = ['.'])) :
    stacked rooted (c.stack rooted) piece = (c.step piece).stack rooted := by
  by_cases hup : piece = up
  · rw [hup]
    by_cases hnames : c.names = []
    · exact stacked_climbs hnames
    · exact stacked_names hnamed hnames
  · have hpush : ∀ stack, stacked rooted stack piece = piece :: stack := by
      intro stack
      cases stack with
      | nil => exact if_neg fun h => hup h.1
      | cons top below => exact if_neg fun h => hup h.1
    rw [hpush, step_name c hblank hup, stack, stack]
    show _ = (c.climbs rooted ++ (c.names ++ [piece])).reverse
    rw [← List.append_assoc, List.reverse_concat]

/-- Pieces that lead nowhere are no part of either. -/
theorem foldl_stacked {components : List Text} (hcomponents : ∀ piece ∈ components, '/' ∉ piece)
    (hnamed : c.Named) :
    (components.filter fun piece => piece != [] && piece != ['.']).foldl (stacked rooted)
      (c.stack rooted) = (components.foldl step c).stack rooted := by
  induction components generalizing c with
  | nil => rfl
  | cons piece rest ih =>
    obtain ⟨hpiece, hrest⟩ := List.forall_mem_cons.1 hcomponents
    rw [List.foldl_cons, ← ih hrest (hnamed.step hpiece)]
    by_cases hblank : piece = [] ∨ piece = ['.']
    · rw [step_of_blank c hblank]
      rcases hblank with rfl | rfl
      · rw [List.filter_cons_of_neg (by decide)]
      · rw [List.filter_cons_of_neg (by decide)]
    · obtain ⟨hne, hdot⟩ := not_or.1 hblank
      rw [List.filter_cons_of_pos (by simp [hne, hdot]), List.foldl_cons, stacked_stack hnamed hblank]

end Course

/-- **A cleaned path** is the stack of its pieces, or a dot if that is nothing. -/
theorem clean_eq_stack (path : Text) : clean path =
    if stackPath (Text.opened path) ((pieces path).foldl (stacked (Text.opened path)) []) = [] then ['.']
    else stackPath (Text.opened path) ((pieces path).foldl (stacked (Text.opened path)) []) := by
  have hempty : Course.here.stack (Text.opened path) = [] := by
    cases Text.opened path <;> rfl
  have hstack : (pieces path).foldl (stacked (Text.opened path)) [] =
      (Course.of path).stack (Text.opened path) := by
    rw [pieces, ← hempty]
    exact Course.foldl_stacked (fun _ => Text.notMem_of_mem_components) Course.named_here
  rw [hstack, Course.stackPath_stack, clean_eq, Course.text]
  simp only [List.isEmpty_iff]

/-- Climbs that had to stay are not taken back by later ones. -/
example : clean "../a/.//b/../../../é/..".toList = "../..".toList := by
  decide +kernel

end Lexical

end PathGlob
