/-
Windows over a text written from names.

A scan counts separators in bytes. Over names with single separators between
them it counts names: it crosses as many as it is asked to, and the window it
closes is again a text written from names (`cross_spell`). Sliding moves both
ends by scans of their own, and each of them crosses one name, so the windows
met are the runs of that many names, each once and from left to right
(`slides_windowAt`, `all_spell`).

One window is not of this kind. Behind a closing separator the scanner sees one
more component, which is empty, and when just this one is missing it makes a
window that runs to the end of the text (`all_spell_beyond`).
-/
import PathGlob.Proofs.Text.Spelling
import PathGlob.Window

set_option autoImplicit false

namespace PathGlob

namespace Window

open Text (byteSize byteMarks IsName)

/-- How a window ends that is followed by a separator or not. -/
def closingOf (closed : Bool) : Closing := if closed then .separator else .finish

/-! ## Bytes of names -/

theorem byteMarks_append (a b : Text) : byteMarks (a ++ b) = byteMarks a ++ byteMarks b := by
  rw [byteMarks, List.flatMap_append]
  rfl

theorem byteMarks_separator (t : Text) : byteMarks ('/' :: t) = true :: byteMarks t := by
  rw [byteMarks, List.flatMap_cons]
  rfl

theorem drop_byteMarks (a b : Text) : (byteMarks (a ++ b)).drop (byteSize a) = byteMarks b := by
  rw [byteMarks_append, ← Text.length_byteMarks, List.drop_left]

/-- No byte of a name closes a component. -/
theorem crossMarks_append {name : Text} (hname : '/' ∉ name) (pos count : Nat)
    (marks : List Bool) :
    crossMarks pos count (byteMarks name ++ marks) =
      crossMarks (pos + byteSize name) count marks := by
  have hfalse : ∀ (n p : Nat) (marks : List Bool),
      crossMarks p count (List.replicate n false ++ marks) = crossMarks (p + n) count marks := by
    intro n p marks
    induction n generalizing p with
    | zero => rfl
    | succ n ih =>
      rw [List.replicate_succ, List.cons_append, crossMarks, ih]
      congr 1
      omega
  induction name generalizing pos with
  | nil => rfl
  | cons c name ih =>
    rw [List.mem_cons, not_or] at hname
    have hc : (c == '/') = false := by simpa using Ne.symm hname.1
    rw [byteMarks, List.flatMap_cons, hc, List.append_assoc, hfalse, Text.byteSize, ← Nat.add_assoc]
    exact ih hname.2 _

theorem crossMarks_true_one (pos : Nat) (marks : List Bool) :
    crossMarks pos 1 (true :: marks) = some (pos + 1, .separator) := rfl

theorem crossMarks_true_succ (pos count : Nat) (marks : List Bool) :
    crossMarks pos (count + 2) (true :: marks) = crossMarks (pos + 1) (count + 1) marks := by
  rw [crossMarks, if_neg (by omega)]
  rfl

/-- Where a name begins, the byte that opens the window closes nothing anyway. -/
theorem cross_append {name : Text} (hname : IsName name) (start count : Nat) (marks : List Bool) :
    cross start count (byteMarks name ++ marks) = crossMarks start count (byteMarks name ++ marks) := by
  obtain ⟨c, rest, rfl⟩ := List.exists_cons_of_ne_nil hname.1
  have hc : (c == '/') = false := by
    have := hname.2
    rw [List.mem_cons, not_or] at this
    simpa using Ne.symm this.1
  obtain ⟨n, hn⟩ : ∃ n, c.utf8Size = n + 1 := ⟨c.utf8Size - 1, by have := c.utf8Size_pos; omega⟩
  rw [byteMarks, List.flatMap_cons, hc, hn, List.replicate_succ, List.cons_append, List.cons_append]
  rfl

/-! ## Scans over names -/

section Names

variable {closed : Bool} {names : List Text}

/-- The bytes of some names and what follows them. -/
theorem byteMarks_spell_cons (name : Text) (rest : List Text) :
    byteMarks (spell '/' closed (name :: rest)) =
      byteMarks name ++ ((if closed || !rest.isEmpty then [true] else []) ++
        byteMarks (spell '/' closed rest)) := by
  rw [spell, byteMarks_append, byteMarks_append]
  congr 2
  cases closed || !rest.isEmpty with
  | true => exact byteMarks_separator []
  | false => rfl

theorem byteSize_spell_cons (name : Text) (rest : List Text) :
    byteSize (spell '/' closed (name :: rest)) =
      byteSize name + ((if closed || !rest.isEmpty then 1 else 0) +
        byteSize (spell '/' closed rest)) := by
  rw [spell, Text.byteSize_append, Text.byteSize_append]
  congr 2
  cases closed || !rest.isEmpty with
  | true => rfl
  | false => rfl

/-- Crossing some of the names. -/
theorem crossMarks_spell {front back : List Text} (hne : front ≠ [])
    (hnames : ∀ name ∈ front, '/' ∉ name) (pos : Nat) :
    crossMarks pos front.length (byteMarks (spell '/' closed (front ++ back))) =
      some (pos + byteSize (spell '/' (closed || !back.isEmpty) front),
        closingOf (closed || !back.isEmpty)) := by
  induction front generalizing pos with
  | nil => exact absurd rfl hne
  | cons name front ih =>
    rw [List.forall_mem_cons] at hnames
    rw [List.cons_append, byteMarks_spell_cons, crossMarks_append hnames.1, byteSize_spell_cons]
    cases front with
    | nil =>
      -- The last name to cross decides how the window closes.
      rw [List.nil_append, List.length_singleton]
      cases hback : back.isEmpty with
      | true =>
        rw [List.isEmpty_iff] at hback
        subst hback
        cases closed with
        | true => rfl
        | false => rfl
      | false =>
        rw [Bool.not_false, Bool.or_true, if_pos rfl, List.singleton_append, crossMarks_true_one]
        rfl
    | cons next front =>
      have hrest : (next :: front ++ back).isEmpty = false := rfl
      have hrest' : (next :: front).isEmpty = false := rfl
      rw [hrest, hrest', Bool.not_false, Bool.or_true, Bool.or_true, if_pos rfl, if_pos rfl,
        List.singleton_append, List.length_cons, List.length_cons, crossMarks_true_succ,
        ← List.length_cons (a := next), ih (by simp) hnames.2]
      simp only [Nat.add_assoc]

/-- A scan from where a name begins. -/
theorem cross_spell {front back : List Text} (hne : front ≠ [])
    (hnames : ∀ name ∈ front, IsName name) (start : Nat) :
    cross start front.length (byteMarks (spell '/' closed (front ++ back))) =
      some (start + byteSize (spell '/' (closed || !back.isEmpty) front),
        closingOf (closed || !back.isEmpty)) := by
  rw [← crossMarks_spell hne (fun name hname => (hnames name hname).2)]
  obtain ⟨name, rest, rfl⟩ := List.exists_cons_of_ne_nil hne
  rw [List.cons_append, byteMarks_spell_cons]
  exact cross_append (hnames name (by simp)) ..

/-- A scan that asks for more names than there are. Only behind a closing
separator is there one more component. -/
theorem crossMarks_spell_beyond (hne : names ≠ []) (hnames : ∀ name ∈ names, '/' ∉ name)
    (pos extra : Nat) :
    crossMarks pos (names.length + (extra + 1)) (byteMarks (spell '/' closed names)) =
      if closed && extra == 0 then some (pos + byteSize (spell '/' closed names), .finish)
      else none := by
  induction names generalizing pos with
  | nil => exact absurd rfl hne
  | cons name rest ih =>
    rw [List.forall_mem_cons] at hnames
    rw [byteMarks_spell_cons, crossMarks_append hnames.1, byteSize_spell_cons, List.length_cons]
    cases rest with
    | nil =>
      -- Behind a closing separator there is one more component, and it is empty.
      cases closed with
      | true =>
        rw [Bool.true_or, if_pos rfl, if_pos rfl, List.singleton_append,
          show [].length + 1 + (extra + 1) = extra + 2 by simp; omega, crossMarks_true_succ]
        cases extra with
        | zero => rfl
        | succ extra => rfl
      | false =>
        rw [show [].length + 1 + (extra + 1) = extra + 2 by simp; omega]
        rfl
    | cons next rest =>
      have hrest : (next :: rest).isEmpty = false := rfl
      rw [hrest, Bool.not_false, Bool.or_true, if_pos rfl, if_pos rfl, List.singleton_append,
        show (next :: rest).length + 1 + (extra + 1) = rest.length + 1 + extra + 2 by
          rw [List.length_cons]; omega,
        crossMarks_true_succ,
        show rest.length + 1 + extra + 1 = (next :: rest).length + (extra + 1) by
          rw [List.length_cons]; omega,
        ih (by simp) hnames.2]
      simp only [Nat.add_assoc]

theorem cross_spell_beyond (hne : names ≠ []) (hnames : ∀ name ∈ names, IsName name)
    (start extra : Nat) :
    cross start (names.length + (extra + 1)) (byteMarks (spell '/' closed names)) =
      if closed && extra == 0 then some (start + byteSize (spell '/' closed names), .finish)
      else none := by
  rw [← crossMarks_spell_beyond hne fun name hname => (hnames name hname).2]
  obtain ⟨name, rest, rfl⟩ := List.exists_cons_of_ne_nil hne
  rw [byteMarks_spell_cons]
  exact cross_append (hnames name (by simp)) ..

end Names

/-! ## Sliding over names -/

section Slides

variable {closed : Bool}

/-- The window of the names `front` behind a text, with the names `back` behind
it. -/
def windowAt (pre : Text) (closed : Bool) (front back : List Text) : Window :=
  ⟨byteSize pre, byteSize (pre ++ spell '/' (closed || !back.isEmpty) front),
    closingOf (closed || !back.isEmpty)⟩

/-- The windows of `width` names, from left to right. -/
def windows (closed : Bool) (width : Nat) : Text → List Text → List Window
  | _, [] => []
  | pre, name :: rest =>
    if width ≤ rest.length + 1 then
      windowAt pre closed ((name :: rest).take width) ((name :: rest).drop width) ::
        windows closed width (pre ++ name ++ ['/']) rest
    else []

theorem first_spell {front back : List Text} (hne : front ≠ [])
    (hnames : ∀ name ∈ front, IsName name) (pre : Text) :
    first (byteMarks (pre ++ spell '/' closed (front ++ back))) (byteSize pre) front.length =
      some (windowAt pre closed front back) := by
  rw [first, drop_byteMarks, cross_spell hne hnames, Option.map_some]
  dsimp only
  rw [windowAt, Text.byteSize_append]

/-- A window that runs to the end of the text is the last one. -/
theorem slides_of_end {name : Text} {w : Window} (h : w.hi = byteSize name) :
    slides (byteMarks name) w = [w] := by
  have hdrop := drop_byteMarks name []
  rw [List.append_nil] at hdrop
  have hnext : next (byteMarks name) w = none := by
    rw [next, h, hdrop]
    rfl
  unfold slides
  split
  · rfl
  · rename_i hsome
    rw [hnext] at hsome
    simp at hsome

/-- Sliding moves both ends over one name. -/
theorem next_windowAt {name next' : Text} {front back : List Text} (hname : IsName name)
    (hnext : IsName next') (pre : Text) :
    next (byteMarks (pre ++ spell '/' closed (name :: front ++ next' :: back)))
        (windowAt pre closed (name :: front) (next' :: back)) =
      some (windowAt (pre ++ name ++ ['/']) closed (front ++ [next']) back) := by
  -- Both ends move by the same scan, over one name each.
  have hcross : ∀ (start : Nat) (pre' n : Text) (rest : List Text), IsName n →
      start = byteSize pre' →
      cross start 1 ((byteMarks (pre' ++ spell '/' closed (n :: rest))).drop start) =
        some (start + byteSize (spell '/' (closed || !rest.isEmpty) [n]),
          closingOf (closed || !rest.isEmpty)) := by
    rintro _ pre' n rest hn rfl
    rw [drop_byteMarks]
    exact @cross_spell closed [n] rest (by simp) (by simpa using hn) _
  have hfar : pre ++ spell '/' closed (name :: front ++ next' :: back) =
      (pre ++ spell '/' true (name :: front)) ++ spell '/' closed (next' :: back) := by
    rw [spell_append, List.isEmpty_cons, Bool.not_false, Bool.or_true, List.append_assoc]
  have hnear : (front ++ next' :: back).isEmpty = false := by simp
  have hlo := hcross _ pre name (front ++ next' :: back) hname rfl
  rw [hnear, Bool.not_false, Bool.or_true] at hlo
  have hhi := hcross (byteSize (pre ++ spell '/' true (name :: front))) _ next' back hnext rfl
  rw [← hfar] at hhi
  rw [next, windowAt, List.isEmpty_cons, Bool.not_false, Bool.or_true, hhi, Option.map_some]
  dsimp only
  rw [← List.cons_append] at hlo
  rw [hlo, windowAt, Option.elim_some]
  -- The far end has moved over `next'`, the near end over `name`.
  have hloEq : byteSize pre + byteSize (spell '/' true [name]) = byteSize (pre ++ name ++ ['/']) := by
    rw [spell_singleton, if_pos rfl, ← Text.byteSize_append, List.append_assoc]
  have hhiEq : byteSize (pre ++ spell '/' true (name :: front)) +
      byteSize (spell '/' (closed || !back.isEmpty) [next']) =
      byteSize (pre ++ name ++ ['/'] ++ spell '/' (closed || !back.isEmpty) (front ++ [next'])) := by
    rw [← Text.byteSize_append, spell_append, List.isEmpty_cons, Bool.not_false, Bool.or_true,
      spell_true_cons]
    congr 1
    simp
  rw [hloEq, hhiEq]

theorem windows_eq_nil {width : Nat} {names : List Text} (pre : Text)
    (hlt : names.length < width) : windows closed width pre names = [] := by
  cases names with
  | nil => rfl
  | cons name rest =>
    rw [List.length_cons] at hlt
    rw [windows, if_neg (by omega)]

theorem windows_append {width : Nat} {name : Text} {front back : List Text} (pre : Text)
    (hwidth : (name :: front).length = width) :
    windows closed width pre (name :: front ++ back) =
      windowAt pre closed (name :: front) back ::
        windows closed width (pre ++ name ++ ['/']) (front ++ back) := by
  rw [List.cons_append, windows, if_pos (by simp at hwidth ⊢; omega), ← List.cons_append,
    ← hwidth, List.take_left, List.drop_left]

/-- **Sliding.** From a window of some names on, the windows met are those of as
many names, each one name further. -/
theorem slides_windowAt {front back : List Text} (hne : front ≠ [])
    (hfront : ∀ name ∈ front, IsName name) (hback : ∀ name ∈ back, IsName name) (pre : Text) :
    slides (byteMarks (pre ++ spell '/' closed (front ++ back))) (windowAt pre closed front back) =
      windows closed front.length pre (front ++ back) := by
  -- By induction on the names behind the window, of which every step takes one.
  induction back generalizing pre front with
  | nil =>
    obtain ⟨name, front, rfl⟩ := List.exists_cons_of_ne_nil hne
    rw [windows_append pre rfl, windows_eq_nil _ (by simp), List.append_nil]
    refine slides_of_end ?_
    rw [windowAt, List.isEmpty_nil, Bool.not_true, Bool.or_false]
  | cons next' back ih =>
    obtain ⟨name, front, rfl⟩ := List.exists_cons_of_ne_nil hne
    rw [List.forall_mem_cons] at hfront hback
    have hstep := @next_windowAt closed name next' front back hfront.1 hback.1 pre
    have hmoved : pre ++ spell '/' closed (name :: front ++ next' :: back) =
        pre ++ name ++ ['/'] ++ spell '/' closed (front ++ [next'] ++ back) := by
      rw [List.cons_append, spell_cons name (by simp)]
      simp
    have hlen : (front ++ [next']).length = (name :: front).length := by simp
    have hnames : ∀ n ∈ front ++ [next'], IsName n := by
      intro n hn
      rcases List.mem_append.1 hn with hn | hn
      · exact hfront.2 n hn
      · rw [List.mem_singleton.1 hn]
        exact hback.1
    have hrest := ih (by simp) hnames hback.2 (pre ++ name ++ ['/'])
    rw [windows_append pre rfl]
    unfold slides
    split
    · rename_i h
      rw [hstep] at h
      simp at h
    · rename_i w h
      obtain rfl := Option.some.inj (hstep.symm.trans h)
      have hassoc : front ++ next' :: back = front ++ [next'] ++ back := by simp
      rw [hmoved, hrest, hlen, hassoc]

/-! ## All windows of a text -/

theorem all_nil (pre : Text) (width : Nat) : all pre (byteSize pre) width = [] := by
  have hdrop := drop_byteMarks pre []
  rw [List.append_nil] at hdrop
  rw [all]
  rw [first, hdrop]
  rfl

/-- The windows found are the runs of names. -/
theorem all_spell {width : Nat} {names : List Text} (hnames : ∀ name ∈ names, IsName name)
    (hwidth : 0 < width) (hle : width ≤ names.length) (pre : Text) :
    all (pre ++ spell '/' closed names) (byteSize pre) width = windows closed width pre names := by
  have hsplit := List.take_append_drop width names
  have hlen : (names.take width).length = width := List.length_take_of_le hle
  have hne : names.take width ≠ [] := by
    rw [← List.length_pos_iff, hlen]
    exact hwidth
  have hfront : ∀ name ∈ names.take width, IsName name :=
    fun name hname => hnames name (List.mem_of_mem_take hname)
  have hback : ∀ name ∈ names.drop width, IsName name :=
    fun name hname => hnames name (List.mem_of_mem_drop hname)
  have hfirst := @first_spell closed _ (names.drop width) hne hfront pre
  have hslides := @slides_windowAt closed _ _ hne hfront hback pre
  rw [hlen] at hfirst hslides
  rw [hsplit] at hfirst hslides
  rw [all]
  rw [hfirst, Option.elim_some, hslides]

/-- When names are missing there is no window, unless just one is and the text
is closed. -/
theorem all_spell_beyond {names : List Text} (hne : names ≠ [])
    (hnames : ∀ name ∈ names, IsName name) (pre : Text) (extra : Nat) :
    all (pre ++ spell '/' closed names) (byteSize pre) (names.length + (extra + 1)) =
      if closed && extra == 0 then
        [⟨byteSize pre, byteSize (pre ++ spell '/' closed names), .finish⟩] else [] := by
  rw [all, first, drop_byteMarks, cross_spell_beyond hne hnames]
  by_cases hphantom : (closed && extra == 0) = true
  · rw [if_pos hphantom, if_pos hphantom, Option.map_some, Option.elim_some,
      ← Text.byteSize_append]
    exact slides_of_end rfl
  · rw [if_neg hphantom, if_neg hphantom]
    rfl

end Slides

end Window

end PathGlob
