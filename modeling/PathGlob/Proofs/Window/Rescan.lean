/-
Sliding a window and scanning for it anew.

A search finds its first window by one scan over as many components as it needs. After
that it never counts them again: it moves both ends on, each by a scan of its own over one
component, and trusts that there are as many between them as before. The two ends are not
scanned alike. The near end may stand on the separator that opens the name, which the scan
passes without counting it, and the far end may run into the end of the name.

Take the names of the text from where the search begins, and let `Row.stop` say where the
scan over the first `j` of them stops. A scan from any of these places over any number of
components stops at another of them, that many further, as long as there are names, and
finds nothing otherwise (`scan_stop`). So the windows met are the pairs of places `count`
apart, in order (`all_eq_map`), and whatever is to be said of them is said of these places
(`rescans_all`).

The text must not double a separator and must not end with one. At a doubled separator the
near end can stand on one that is no opening, and behind a closing one the scanner counts a
component with nothing in it.
-/
import Mathlib.Data.List.Chain
import Mathlib.Data.List.Range
import PathGlob.Proofs.Window.Sliding

set_option autoImplicit false

namespace PathGlob

open Text (byteSize byteMarks IsName written names opened closed Undoubled)

/-- Over the whole of a text. -/
theorem scan_whole (text : Text) (start count : Nat) :
    scan text start (byteSize text) count = cross start count ((byteMarks text).drop start) := by
  rw [scan, List.take_of_length_le (Nat.le_of_eq (Text.length_byteMarks text))]

/-- At the end of a text there is no component. -/
theorem scan_end (text : Text) (count : Nat) :
    scan text (byteSize text) (byteSize text) count = none := by
  rw [scan_whole, List.drop_of_length_le (Nat.le_of_eq (Text.length_byteMarks text)), cross]

namespace Window

theorem slides_of_none {marks : List Bool} {w : Window} (h : next marks w = none) :
    slides marks w = [w] := by
  rw [slides]
  split
  · rfl
  · rename_i hsome
    rw [h] at hsome
    cases hsome

theorem slides_of_next {marks : List Bool} {w w' : Window} (h : next marks w = some w') :
    slides marks w = w :: slides marks w' := by
  rw [slides]
  split
  · rename_i hnone
    rw [h] at hnone
    cases hnone
  · rename_i hsome
    rw [Option.some.inj (h.symm.trans hsome)]

/-! ## Windows of a number of components -/

/-- A search can begin here: with the name, or behind one of its separators. -/
def Begins (name : Text) (start : Nat) : Prop :=
  start = 0 ∨ ∃ front back, name = front ++ '/' :: back ∧ start = byteSize front + 1

/-- The window holds `count` components of the name. It begins at `start`, or behind a
separator further on, and it ends behind a separator or with the name. -/
def Spans (name : Text) (start count : Nat) (w : Window) : Prop :=
  ∃ before part after, name = before ++ (part ++ after) ∧
    w.lo = byteSize before ∧ w.hi = byteSize (before ++ part) ∧
    (byteSize before = start ∨ ∃ front, before = front ++ ['/'] ∧ start < byteSize front) ∧
    (names part).length = count ∧
    (closed part = true ∧ w.closing = .separator ∨
      closed part = false ∧ after = [] ∧ w.closing = .finish)

/-- These windows are found by sliding, and scanning anew finds the same. -/
structure Rescans (name : Text) (start count : Nat) (ws : List Window) : Prop where
  /-- The first one is scanned for. -/
  first : ws.head? = (scan name start (byteSize name) count).map fun (hi, closing) =>
    ⟨start, hi, closing⟩
  /-- In every further one both ends have moved by a scan over one component. -/
  slid : ws.IsChain fun w w' => (∃ b, scan name w.lo (byteSize name) 1 = some (w'.lo, b)) ∧
    scan name w.hi (byteSize name) 1 = some (w'.hi, w'.closing)
  /-- The far end is where a scan from the near end stops. -/
  agrees : ∀ w ∈ ws, scan name w.lo (byteSize name) count = some (w.hi, w.closing)
  /-- When the far end cannot move, no window begins at the next component. -/
  ended : ∀ w ∈ ws.getLast?, scan name w.hi (byteSize name) 1 = none ∧
    ∃ lo b, scan name w.lo (byteSize name) 1 = some (lo, b) ∧
      scan name lo (byteSize name) count = none
  /-- They are the windows of that many components. -/
  mem_iff : ∀ w, w ∈ ws ↔ Spans name start count w
  /-- Each is met once, from left to right. -/
  ordered : ws.Pairwise fun w w' => w.lo < w'.lo ∧ w.hi < w'.hi

/-! ## The places where scans stop -/

/-- A text that a search goes through: some text before the place where it begins, then
perhaps a separator, and names to the end. -/
structure Row where
  before : Text
  lead : Bool
  parts : List Text
  isName : ∀ part ∈ parts, IsName part
  ne_nil : lead = true → parts ≠ []

namespace Row

variable (row : Row) {j k count : Nat}

/-- The whole text. -/
def text : Text := row.before ++ written row.lead false row.parts

/-- Where a scan stops that begins with the row and crosses `j` names. -/
def stop (j : Nat) : Nat :=
  if j = 0 then byteSize row.before
  else byteSize (row.before ++ written row.lead (decide (j < row.parts.length)) (row.parts.take j))

/-- The window of `count` names behind the first `k`. -/
def window (count k : Nat) : Window :=
  ⟨row.stop k, row.stop (k + count), closingOf (decide (k + count < row.parts.length))⟩

theorem stop_zero : row.stop 0 = byteSize row.before := rfl

theorem stop_of_pos (hj : 1 ≤ j) : row.stop j =
    byteSize (row.before ++ written row.lead (decide (j < row.parts.length)) (row.parts.take j)) :=
  if_neg (by omega)

theorem stop_length (hne : row.parts ≠ []) : row.stop row.parts.length = byteSize row.text := by
  rw [stop_of_pos _ (List.length_pos_iff.2 hne), decide_eq_false (Nat.lt_irrefl _),
    List.take_length, text]

/-- Whether names are left behind the first `count`. -/
theorem isEmpty_drop (count : Nat) :
    (!(row.parts.drop count).isEmpty) = decide (count < row.parts.length) := by
  rw [Bool.eq_iff_iff, Bool.not_eq_true', List.isEmpty_eq_false_iff, decide_eq_true_eq, ne_eq,
    List.drop_eq_nil_iff, Nat.not_le]

/-- And behind `count` more than `j`. -/
theorem decide_behind (j count : Nat) :
    decide (count < row.parts.length - j) = decide (j + count < row.parts.length) := by
  rw [decide_eq_decide]
  omega

/-- The separator in front is passed, and from there on names are counted. -/
theorem cross_written (hne : row.parts ≠ []) (start count : Nat) :
    cross start count (byteMarks (written row.lead false row.parts)) =
      crossMarks (start + byteSize (if row.lead then ['/'] else [])) count
        (byteMarks (spell '/' false row.parts)) := by
  cases row.lead with
  | true => exact congrArg (cross start count) (byteMarks_separator (spell '/' false row.parts))
  | false =>
    obtain ⟨name, rest, hparts⟩ := List.exists_cons_of_ne_nil hne
    rw [Text.written_false, hparts, byteMarks_spell_cons]
    exact cross_append (row.isName name (hparts ▸ List.mem_cons_self)) ..

/-- From the first place on. -/
theorem scan_before (hcount : 1 ≤ count) :
    scan row.text (byteSize row.before) (byteSize row.text) count =
      if count ≤ row.parts.length then
        some (row.stop count, closingOf (decide (count < row.parts.length)))
      else none := by
  rw [scan_whole, text, drop_byteMarks]
  by_cases hne : row.parts = []
  · have hlead : row.lead = false := Bool.eq_false_iff.2 fun hlead => row.ne_nil hlead hne
    rw [hne, hlead, if_neg (by rw [List.length_nil]; omega)]
    rfl
  · have hsep : ∀ part ∈ row.parts, '/' ∉ part := fun part hpart => (row.isName part hpart).2
    rw [row.cross_written hne]
    by_cases hle : count ≤ row.parts.length
    · have hsplit := List.take_append_drop count row.parts
      have hlen : (row.parts.take count).length = count := List.length_take_of_le hle
      have hfront : row.parts.take count ≠ [] := by
        rw [← List.length_pos_iff, hlen]
        exact hcount
      have hcross := @crossMarks_spell false _ (row.parts.drop count) hfront
        (fun part hpart => hsep part (List.mem_of_mem_take hpart))
        (byteSize row.before + byteSize (if row.lead then ['/'] else []))
      rw [hsplit, hlen, Bool.false_or, row.isEmpty_drop] at hcross
      rw [hcross, if_pos hle, stop_of_pos _ hcount, written, Text.byteSize_append,
        Text.byteSize_append, Nat.add_assoc]
    · obtain ⟨extra, hextra⟩ : ∃ extra, count = row.parts.length + (extra + 1) :=
        ⟨count - row.parts.length - 1, by omega⟩
      rw [if_neg hle, hextra, crossMarks_spell_beyond hne hsep]
      rfl

/-- What is left of a row behind some of its names. -/
def behind (j : Nat) : Row where
  before := row.before ++ written row.lead true (row.parts.take j)
  lead := false
  parts := row.parts.drop j
  isName part hpart := row.isName part (List.mem_of_mem_drop hpart)
  ne_nil hlead := by cases hlead

theorem text_behind (hlt : j < row.parts.length) : (row.behind j).text = row.text := by
  have hwritten := @Text.written_append row.lead false (row.parts.take j) (row.parts.drop j)
  rw [List.take_append_drop, List.isEmpty_eq_false_iff.2 (List.drop_eq_nil_iff.not.2 (by omega)),
    Bool.not_false, Bool.or_true] at hwritten
  rw [text, text, hwritten, behind, Text.written_false, List.append_assoc]

theorem before_behind (hj : 1 ≤ j) (hlt : j < row.parts.length) :
    byteSize (row.behind j).before = row.stop j := by
  rw [stop_of_pos _ hj, decide_eq_true hlt, behind]

theorem stop_behind (hcount : 1 ≤ count) (hle : j + count ≤ row.parts.length) :
    (row.behind j).stop count = row.stop (j + count) := by
  have hwritten := @Text.written_append row.lead (decide (j + count < row.parts.length))
    (row.parts.take j) ((row.parts.drop j).take count)
  have hnil : ((row.parts.drop j).take count).isEmpty = false := by
    rw [List.isEmpty_eq_false_iff, ← List.length_pos_iff, List.length_take, List.length_drop]
    omega
  rw [← List.take_add, hnil, Bool.not_false, Bool.or_true] at hwritten
  rw [stop_of_pos _ hcount, stop_of_pos _ (by omega), hwritten, behind, Text.written_false,
    List.length_drop, row.decide_behind, List.append_assoc]

/-- **Between the places.** A scan over some names goes from one place to the one that many
further, and when there are not so many it finds nothing. -/
theorem scan_stop (hj : j ≤ row.parts.length) (hcount : 1 ≤ count) :
    scan row.text (row.stop j) (byteSize row.text) count =
      if j + count ≤ row.parts.length then
        some (row.stop (j + count), closingOf (decide (j + count < row.parts.length)))
      else none := by
  by_cases hzero : j = 0
  · subst hzero
    rw [stop_zero, Nat.zero_add]
    exact row.scan_before hcount
  by_cases hlast : j = row.parts.length
  · have hne : row.parts ≠ [] := by
      rw [← List.length_pos_iff]
      omega
    rw [hlast, row.stop_length hne, scan_end, if_neg (by omega)]
  · -- The names behind the place are a row of their own.
    have hlt : j < row.parts.length := by omega
    have hscan := (row.behind j).scan_before hcount
    rw [row.text_behind hlt, row.before_behind (by omega) hlt] at hscan
    rw [hscan, behind, List.length_drop]
    by_cases hle : j + count ≤ row.parts.length
    · rw [if_pos (by omega), if_pos hle, row.decide_behind, ← row.stop_behind hcount hle, behind]
    · rw [if_neg (by omega), if_neg hle]

/-- The places lie one behind the other. -/
theorem stop_lt (hlt : j < k) (hk : k ≤ row.parts.length) : row.stop j < row.stop k := by
  have hscan := @scan_stop row j (k - j) (by omega) (by omega)
  rw [Nat.add_sub_cancel' (Nat.le_of_lt hlt), if_pos hk, scan_whole] at hscan
  exact (cross_bounds hscan).1

/-! ## The windows of a row -/

/-- Both ends go to the next place. -/
theorem next_window (hcount : 1 ≤ count) (hle : k + count ≤ row.parts.length) :
    next (byteMarks row.text) (row.window count k) =
      if k + 1 + count ≤ row.parts.length then some (row.window count (k + 1)) else none := by
  have hlo := @scan_stop row k 1 (by omega) (Nat.le_refl 1)
  have hhi := @scan_stop row (k + count) 1 hle (Nat.le_refl 1)
  rw [scan_whole, if_pos (by omega)] at hlo
  rw [scan_whole, Nat.add_right_comm] at hhi
  rw [next, window, hlo, hhi]
  by_cases hmore : k + 1 + count ≤ row.parts.length
  · rw [if_pos hmore, if_pos hmore]
    rfl
  · rw [if_neg hmore, if_neg hmore]
    rfl

theorem slides_window (hcount : 1 ≤ count) (hle : k + count ≤ row.parts.length) :
    slides (byteMarks row.text) (row.window count k) =
      (List.range' k (row.parts.length + 1 - count - k)).map (row.window count) := by
  -- By induction on the windows that are left.
  induction hleft : row.parts.length - count - k generalizing k with
  | zero =>
    have hnext := row.next_window hcount hle
    rw [if_neg (by omega)] at hnext
    rw [slides_of_none hnext, show row.parts.length + 1 - count - k = 1 by omega]
    rfl
  | succ n ih =>
    have hnext := row.next_window hcount hle
    rw [if_pos (by omega)] at hnext
    rw [show row.parts.length + 1 - count - k = row.parts.length + 1 - count - (k + 1) + 1 by omega,
      List.range'_succ, List.map_cons, ← ih (by omega) (by omega), slides_of_next hnext]

/-- **The windows met** are those between places `count` apart, in order. -/
theorem all_eq_map (hcount : 1 ≤ count) : all row.text (byteSize row.before) count =
    (List.range (row.parts.length + 1 - count)).map (row.window count) := by
  have hscan := row.scan_before hcount
  rw [scan_whole] at hscan
  rw [all, first]
  dsimp only
  rw [hscan]
  by_cases hle : count ≤ row.parts.length
  · have hslides := @slides_window row 0 count hcount (by omega)
    rw [Nat.sub_zero, ← List.range_eq_range', window, Nat.zero_add, stop_zero] at hslides
    rw [if_pos hle]
    exact hslides
  · rw [if_neg hle, show row.parts.length + 1 - count = 0 by omega]
    rfl

/-! ## The windows as parts of the text -/

/-- The first names of a row, and what is behind them. -/
theorem text_split (count : Nat) : row.text = row.before ++
    (written row.lead (decide (count < row.parts.length)) (row.parts.take count) ++
      spell '/' false (row.parts.drop count)) := by
  have hwritten := @Text.written_append row.lead false (row.parts.take count) (row.parts.drop count)
  rw [List.take_append_drop, Bool.false_or, row.isEmpty_drop] at hwritten
  rw [text, hwritten]

theorem isName_take (count : Nat) : ∀ part ∈ row.parts.take count, IsName part :=
  fun part hpart => row.isName part (List.mem_of_mem_take hpart)

theorem take_ne_nil (hcount : 1 ≤ count) (hle : count ≤ row.parts.length) :
    row.parts.take count ≠ [] := by
  rw [← List.length_pos_iff, List.length_take_of_le hle]
  exact hcount

/-- The first window holds the first names. -/
theorem spans_first {start : Nat} (hcount : 1 ≤ count) (hle : count ≤ row.parts.length)
    (hstart : byteSize row.before = start ∨
      ∃ front, row.before = front ++ ['/'] ∧ start < byteSize front) :
    Spans row.text start count (row.window count 0) := by
  refine ⟨_, _, _, row.text_split count, rfl, ?_, hstart, ?_, ?_⟩
  · rw [window, Nat.zero_add, stop_of_pos _ hcount]
  · rw [Text.names_written (row.isName_take count), List.length_take_of_le hle]
  · rw [Text.closed_written (row.take_ne_nil hcount hle) (row.isName_take count), window,
      Nat.zero_add]
    by_cases hlt : count < row.parts.length
    · rw [decide_eq_true hlt]
      exact .inl ⟨rfl, rfl⟩
    · rw [decide_eq_false hlt, List.drop_of_length_le (by omega)]
      exact .inr ⟨rfl, rfl, rfl⟩

/-- Any other is the first one of the row that is left behind some names. -/
theorem window_behind (hcount : 1 ≤ count) (hk : 1 ≤ k) (hle : k + count ≤ row.parts.length) :
    (row.behind k).window count 0 = row.window count k := by
  have hlen : (row.behind k).parts.length = row.parts.length - k := List.length_drop
  rw [window, window, stop_zero, row.before_behind hk (by omega), Nat.zero_add, hlen,
    row.decide_behind, row.stop_behind hcount hle]

theorem spans_window (hcount : 1 ≤ count) (hle : k + count ≤ row.parts.length) :
    Spans row.text (byteSize row.before) count (row.window count k) := by
  by_cases hk : k = 0
  · subst hk
    exact row.spans_first hcount (by omega) (.inl rfl)
  have hlen : (row.behind k).parts.length = row.parts.length - k := List.length_drop
  rw [← row.window_behind hcount (by omega) hle, ← @text_behind row k (by omega)]
  refine (row.behind k).spans_first hcount (by omega) (.inr
    ⟨row.before ++ written row.lead false (row.parts.take k), ?_, ?_⟩)
  · rw [behind, written, written, spell_true (@take_ne_nil row k (by omega) (by omega))]
    simp only [List.append_assoc]
  · have hne := @Text.spell_ne_nil false _ (@take_ne_nil row k (by omega) (by omega))
      (row.isName_take k)
    have hpos := Text.byteSize_pos hne
    rw [written, Text.byteSize_append, Text.byteSize_append]
    omega

end Row

/-! ## Any text -/

/-- Of two fronts of a text the one with fewer bytes is a front of the other. -/
theorem exists_front {a b c d : Text} (h : a ++ b = c ++ d) (hle : byteSize a ≤ byteSize c) :
    ∃ more, c = a ++ more ∧ b = more ++ d := by
  rcases List.append_eq_append_iff.1 h with ⟨more, rfl, rfl⟩ | ⟨more, rfl, rfl⟩
  · exact ⟨more, rfl, rfl⟩
  · have hnil : more = [] := by
      by_contra hne
      have hpos := Text.byteSize_pos hne
      rw [Text.byteSize_append] at hle
      omega
    subst hnil
    exact ⟨[], by simp, rfl⟩

namespace Row

variable (row : Row) {count : Nat}

/-- What stands between the beginning of a row and a place where a window begins. -/
theorem exists_skipped {before rest : Text} (hdouble : Undoubled row.text)
    (htext : row.text = before ++ rest)
    (hstart : byteSize before = byteSize row.before ∨
      ∃ front, before = front ++ ['/'] ∧ byteSize row.before < byteSize front) :
    ∃ skipped, before = row.before ++ skipped ∧
      written row.lead false row.parts = skipped ++ rest ∧
        (skipped = [] ∨ closed skipped = true ∧ names skipped ≠ []) := by
  have hle : byteSize row.before ≤ byteSize before := by
    rcases hstart with heq | ⟨front, rfl, hlt⟩
    · exact heq.ge
    · rw [Text.byteSize_append]
      omega
  obtain ⟨skipped, rfl, hrest⟩ := exists_front htext hle
  refine ⟨skipped, rfl, hrest, ?_⟩
  rcases hstart with heq | ⟨front, hfront, hlt⟩
  · left
    by_contra hne
    have hpos := Text.byteSize_pos hne
    rw [Text.byteSize_append] at heq
    omega
  · right
    have hne : skipped ≠ [] := by
      rintro rfl
      rw [List.append_nil] at hfront
      rw [hfront, Text.byteSize_append] at hlt
      omega
    have hclosed : closed skipped = true := by
      rw [← Text.closed_append hne, hfront, Text.closed_append (by simp)]
      rfl
    refine ⟨hclosed, fun hnames => ?_⟩
    -- One bare separator is not far enough on.
    have hskipped : Undoubled skipped := fun h => hdouble (h.trans
      ⟨row.before, rest, by rw [htext]⟩)
    rcases (Text.names_eq_nil hskipped).1 hnames with hnil | rfl
    · exact hne hnil
    · rw [List.append_cancel_right hfront] at hlt
      exact Nat.lt_irrefl _ hlt

/-- A front of a row with names in it, closed or up to the end, stops where the scan over
these names does. -/
theorem stop_front {front rest : Text} (hdouble : Undoubled row.text)
    (hopen : closed row.text = false)
    (hrest : written row.lead false row.parts = front ++ rest) (hne : names front ≠ [])
    (hend : rest = [] ∨ closed front = true) :
    (names front).length ≤ row.parts.length ∧
      closed front = decide ((names front).length < row.parts.length) ∧
      byteSize (row.before ++ front) = row.stop (names front).length := by
  have hfront : front ≠ [] := by
    rintro rfl
    exact hne rfl
  have hparts : row.parts = names front ++ names rest := by
    rw [← Text.names_append (.inr (hend.imp_right .inl)), ← hrest, Text.names_written row.isName]
  have hopened : opened front = row.lead := by
    have hhead := @Text.opened_written row.lead false row.parts row.isName
    rwa [hrest, Text.opened, List.head?_append_of_ne_nil _ hfront] at hhead
  have hwritten := @Text.written_names front fun h => hdouble (h.trans
    ⟨row.before, rest, by rw [text, hrest, List.append_assoc]⟩)
  rw [hopened] at hwritten
  -- The front is closed just when names are left behind it.
  have hlast : closed front = decide ((names front).length < row.parts.length) := by
    rw [Bool.eq_iff_iff, decide_eq_true_eq, hparts, List.length_append, Nat.lt_add_right_iff_pos,
      List.length_pos_iff]
    constructor
    · intro hclosed hnames
      by_cases hnil : rest = []
      · rw [text, hrest, hnil, List.append_nil, Text.closed_append hfront, hclosed] at hopen
        cases hopen
      · rw [text, hrest, ← List.append_assoc, Text.closed_append hnil] at hopen
        refine hnil (Text.eq_nil_of_names (fun h => hdouble (h.trans ?_)) hopen hnames)
        exact ⟨row.before ++ front, [], by rw [text, hrest]; simp⟩
    · intro hnames
      exact hend.resolve_left fun hnil => hnames (by rw [hnil]; rfl)
  refine ⟨?_, hlast, ?_⟩
  · rw [hparts, List.length_append]
    omega
  · rw [stop_of_pos _ (List.length_pos_iff.2 hne), ← hlast, hparts, List.take_left, hwritten]

/-- **A part of the row that a window holds** is a window of the row. -/
theorem exists_window {w : Window} (hdouble : Undoubled row.text) (hopen : closed row.text = false)
    (hcount : 1 ≤ count) (h : Spans row.text (byteSize row.before) count w) :
    ∃ k, k + count ≤ row.parts.length ∧ w = row.window count k := by
  obtain ⟨before, part, after, htext, hlo, hhi, hstart, hlen, hclosing⟩ := h
  obtain ⟨skipped, rfl, hrest, hskipped⟩ := row.exists_skipped hdouble htext hstart
  have hclosed : skipped = [] ∨ closed skipped = true := hskipped.imp_right And.left
  have hnames : (names (skipped ++ part)).length = (names skipped).length + count := by
    rw [Text.names_append (hclosed.imp_right fun h => .inr (.inl h)), List.length_append, hlen]
  have hpart : part ≠ [] := by
    rintro rfl
    rw [show names [] = [] from rfl, List.length_nil] at hlen
    omega
  have hclosingOf : w.closing = closingOf (closed part) := by
    rcases hclosing with ⟨hclosed, hw⟩ | ⟨hclosed, -, hw⟩
    · rw [hw, hclosed]
      rfl
    · rw [hw, hclosed]
      rfl
  -- The near end is behind what is skipped, the far end behind the part as well.
  have hloStop : w.lo = row.stop (names skipped).length := by
    rcases hskipped with rfl | ⟨hclosed, hne⟩
    · rw [hlo, List.append_nil]
      rfl
    · obtain ⟨-, -, hstop⟩ := row.stop_front hdouble hopen hrest hne (.inr hclosed)
      rw [hlo, hstop]
  obtain ⟨hle, hlast, hhiStop⟩ := @stop_front row (skipped ++ part) after hdouble hopen
    (by rw [hrest, List.append_assoc]) (by rw [← List.length_pos_iff, hnames]; omega)
    (hclosing.elim (fun h => .inr (by rw [Text.closed_append hpart, h.1])) fun h => .inl h.2.1)
  rw [hnames] at hle hlast hhiStop
  rw [Text.closed_append hpart] at hlast
  refine ⟨(names skipped).length, hle, ?_⟩
  rw [window, ← hloStop, ← hhiStop, ← hlast, ← hclosingOf, ← List.append_assoc, ← hhi]

/-- **Sliding and scanning anew**, for a row. -/
theorem rescans (hdouble : Undoubled row.text) (hopen : closed row.text = false)
    (hcount : 1 ≤ count) :
    Rescans row.text (byteSize row.before) count (all row.text (byteSize row.before) count) := by
  rw [row.all_eq_map hcount]
  constructor
  · rw [List.head?_map, List.head?_range, row.scan_before hcount]
    by_cases hle : count ≤ row.parts.length
    · rw [if_neg (by omega), if_pos hle, Option.map_some, Option.map_some, window, Nat.zero_add]
      rfl
    · rw [if_pos (by omega), if_neg hle]
      rfl
  · rw [List.isChain_map, List.isChain_range]
    intro k hk
    have hlo := @scan_stop row k 1 (by omega) (Nat.le_refl 1)
    have hhi := @scan_stop row (k + count) 1 (by omega) (Nat.le_refl 1)
    rw [if_pos (by omega)] at hlo hhi
    rw [Nat.add_right_comm] at hhi
    exact ⟨⟨_, hlo⟩, hhi⟩
  · intro w hw
    obtain ⟨k, hk, rfl⟩ := List.mem_map.1 hw
    rw [List.mem_range] at hk
    have hscan := @scan_stop row k count (by omega) hcount
    rwa [if_pos (by omega)] at hscan
  · intro w hw
    rw [List.getLast?_map, List.getLast?_range] at hw
    by_cases hle : count ≤ row.parts.length
    · rw [if_neg (by omega)] at hw
      obtain rfl : row.window count (row.parts.length + 1 - count - 1) = w := by simpa using hw
      have hlo := @scan_stop row (row.parts.length + 1 - count - 1) 1 (by omega) (Nat.le_refl 1)
      have hhi := @scan_stop row (row.parts.length + 1 - count - 1 + count) 1 (by omega)
        (Nat.le_refl 1)
      have hnone := @scan_stop row (row.parts.length + 1 - count - 1 + 1) count (by omega) hcount
      rw [if_pos (by omega)] at hlo
      rw [if_neg (by omega)] at hhi hnone
      exact ⟨hhi, _, _, hlo, hnone⟩
    · rw [if_pos (by omega)] at hw
      cases hw
  · intro w
    rw [List.mem_map]
    constructor
    · rintro ⟨k, hk, rfl⟩
      rw [List.mem_range] at hk
      exact row.spans_window hcount (by omega)
    · intro hspans
      obtain ⟨k, hk, rfl⟩ := row.exists_window hdouble hopen hcount hspans
      exact ⟨k, List.mem_range.2 (by omega), rfl⟩
  · rw [List.pairwise_map]
    refine List.pairwise_lt_range.imp_of_mem fun {j k} _ hk hlt => ?_
    rw [List.mem_range] at hk
    exact ⟨row.stop_lt hlt (by omega), row.stop_lt (by omega) (by omega)⟩

end Row

/-! ## The search -/

/-- From any place where a search can begin the text is a row. -/
theorem exists_row {name : Text} {start : Nat} (hdouble : Undoubled name)
    (hopen : closed name = false) (hstart : Begins name start) :
    ∃ row : Row, row.text = name ∧ byteSize row.before = start := by
  obtain ⟨before, rest, rfl, rfl⟩ : ∃ before rest, name = before ++ rest ∧ byteSize before = start := by
    rcases hstart with rfl | ⟨front, back, rfl, rfl⟩
    · exact ⟨[], name, rfl, rfl⟩
    · refine ⟨front ++ ['/'], back, by simp, ?_⟩
      rw [Text.byteSize_append]
      rfl
  have hrest : Undoubled rest := fun h => hdouble (h.trans (List.suffix_append before rest).isInfix)
  have hclosed : closed rest = false := by
    by_cases hne : rest = []
    · rw [hne]
      rfl
    · rwa [Text.closed_append hne] at hopen
  have hwritten := Text.written_names hrest
  rw [hclosed] at hwritten
  refine ⟨⟨before, opened rest, names rest, fun part hpart => Text.isName_of_mem_names hpart, ?_⟩,
    ?_, rfl⟩
  · intro hlead hnames
    rw [hlead, hnames] at hwritten
    rw [← hwritten] at hclosed
    cases hclosed
  · exact congrArg (before ++ ·) hwritten

/-- **Sliding both ends is scanning anew.** In a text that doubles no separator and does not
end with one, the windows a search meets are found one from the other by moving both ends
over one component, each is the one that a scan from its beginning finds, and they are all
the windows of that many components, each once and from left to right. -/
theorem rescans_all {name : Text} {start count : Nat} (hdouble : Undoubled name)
    (hopen : closed name = false) (hstart : Begins name start) (hcount : 1 ≤ count) :
    Rescans name start count (all name start count) := by
  obtain ⟨row, rfl, rfl⟩ := exists_row hdouble hopen hstart
  exact row.rescans hdouble hopen hcount

/-- The first window begins with the separator in front, the others behind one. -/
theorem rescans_all_opened :
    (Undoubled "/é/b/c".toList ∧ closed "/é/b/c".toList = false ∧ Begins "/é/b/c".toList 0 ∧ 1 ≤ 2) ∧
    Rescans "/é/b/c".toList 0 2 [⟨0, 6, .separator⟩, ⟨4, 7, .finish⟩] := by
  have hdouble : Undoubled "/é/b/c".toList := by decide
  have hopen : closed "/é/b/c".toList = false := by decide
  have hall : all "/é/b/c".toList 0 2 = [⟨0, 6, .separator⟩, ⟨4, 7, .finish⟩] := by decide +kernel
  exact ⟨⟨hdouble, hopen, .inl rfl, by decide⟩,
    hall ▸ rescans_all hdouble hopen (.inl rfl) (by decide)⟩

end Window

end PathGlob
