/-
The search for one literal in what is left of a name.

The windows of a name are tried from left to right and the first that fits is
taken. `FirstFit` says this of the names themselves: which of them stand before
the window, which in it and which behind, and that no window further left fits.
Either there is such a window and the search ends behind it, or there is none
and the search finds nothing (`search_all`). What it means to fit is left open
here. It may depend on whether anything stands behind the window, for that
decides whether a separator closes it.
-/
import PathGlob.Proofs.Pattern.Window

set_option autoImplicit false

namespace PathGlob

namespace Segment

open Text (byteSize IsName)
open Window (windowAt windows)

/-! ## The leftmost window -/

section FirstFit

variable {takes : List Text → List Text → Prop} {width : Nat} {names : List Text}

/-- The leftmost run of `width` names that is taken, given those behind it. -/
structure FirstFit (takes : List Text → List Text → Prop) (width : Nat)
    (names before window after : List Text) : Prop where
  split : names = before ++ (window ++ after)
  length : window.length = width
  fits : takes window after
  first : ∀ before' window' after' : List Text, names = before' ++ (window' ++ after') →
    window'.length = width → takes window' after' → before.length ≤ before'.length

theorem FirstFit.mem_after {before window after : List Text}
    (h : FirstFit takes width names before window after) {name : Text} (hname : name ∈ after) :
    name ∈ names := by
  rw [h.split]
  exact List.mem_append_right _ (List.mem_append_right _ hname)

/-- No run of `width` names is taken. -/
def NoFit (takes : List Text → List Text → Prop) (width : Nat) (names : List Text) : Prop :=
  ∀ before window after : List Text, names = before ++ (window ++ after) →
    window.length = width → ¬ takes window after

theorem noFit_of_length_lt (hlt : names.length < width) : NoFit takes width names := by
  intro before window after hsplit hlen _
  rw [hsplit, List.length_append, List.length_append] at hlt
  omega

/-- The run at the front decides, if it is taken. -/
theorem firstFit_front {window after : List Text} (hlen : window.length = width)
    (hfits : takes window after) : FirstFit takes width (window ++ after) [] window after where
  split := rfl
  length := hlen
  fits := hfits
  first _ _ _ _ _ _ := Nat.zero_le _

/-- Two runs at the front are the same run. -/
theorem front_unique {window after window' after' : List Text}
    (h : window ++ after = window' ++ after') (hlen : window.length = width)
    (hlen' : window'.length = width) : window = window' ∧ after = after' :=
  List.append_inj h (hlen.trans hlen'.symm)

/-- Otherwise the runs further right do. -/
theorem FirstFit.cons {name : Text} {rest front back before window after : List Text}
    (hfront : name :: rest = front ++ back) (hlen : front.length = width)
    (hnot : ¬ takes front back) (h : FirstFit takes width rest before window after) :
    FirstFit takes width (name :: rest) (name :: before) window after where
  split := by rw [h.split, List.cons_append]
  length := h.length
  fits := h.fits
  first before' window' after' hsplit hlen' hfits := by
    cases before' with
    | nil =>
      rw [List.nil_append] at hsplit
      obtain ⟨rfl, rfl⟩ := front_unique (hfront.symm.trans hsplit) hlen hlen'
      exact absurd hfits hnot
    | cons first before' =>
      rw [List.cons_append, List.cons.injEq] at hsplit
      have := h.first before' window' after' hsplit.2 hlen' hfits
      simp only [List.length_cons]
      omega

theorem NoFit.cons {name : Text} {rest front back : List Text}
    (hfront : name :: rest = front ++ back) (hlen : front.length = width)
    (hnot : ¬ takes front back) (h : NoFit takes width rest) :
    NoFit takes width (name :: rest) := by
  intro before window after hsplit hlen' hfits
  cases before with
  | nil =>
    rw [List.nil_append] at hsplit
    obtain ⟨rfl, rfl⟩ := front_unique (hfront.symm.trans hsplit) hlen hlen'
    exact hnot hfits
  | cons first before =>
    rw [List.cons_append, List.cons.injEq] at hsplit
    exact h before window after hsplit.2 hlen' hfits

end FirstFit

/-! ## The search -/

section Search

variable {name text : Text} {rest : List Segment} {closed : Bool} {width : Nat}
  {takes : List Text → List Text → Prop}

/-- How a window is decided is what `takes` says, wherever in the name it is. -/
def Decides (name text : Text) (rest : List Segment) (closed : Bool) (width : Nat)
    (takes : List Text → List Text → Prop) : Prop :=
  ∀ (pre : Text) (front back : List Text), name = pre ++ spell '/' closed (front ++ back) →
    front.length = width → (∀ n ∈ front, IsName n) →
    Answers (fitsWindow name text rest (windowAt pre closed front back)) (takes front back)

/-- What a search comes back with: the end of the leftmost window, or nothing. -/
def Finds (takes : List Text → List Text → Prop) (width : Nat) (closed : Bool) (pre : Text)
    (names : List Text) (answer : Except MatchFault (Option Nat)) : Prop :=
  (NoFit takes width names ∧ answer = .ok none) ∨
    ∃ before window after, FirstFit takes width names before window after ∧
      answer = .ok (some (byteSize
        (pre ++ spell '/' (closed || !after.isEmpty) (before ++ window))))

theorem searchWindows_cons (w : Window) (ws : List Window) {b : Bool}
    (h : fitsWindow name text rest w = .ok b) :
    searchWindows name text rest (w :: ws) =
      if b then .ok (some w.hi) else searchWindows name text rest ws := by
  rw [searchWindows, h]
  cases b <;> rfl

/-- The windows of some names, tried in order. -/
theorem search_windows (hdecides : Decides name text rest closed width takes) (hwidth : 0 < width)
    {pre : Text} {names : List Text} (hname : names ≠ [] → name = pre ++ spell '/' closed names)
    (hnames : ∀ n ∈ names, IsName n) :
    Finds takes width closed pre names
      (searchWindows name text rest (windows closed width pre names)) := by
  induction names generalizing pre with
  | nil => exact .inl ⟨noFit_of_length_lt hwidth, rfl⟩
  | cons first others ih =>
    -- Only how the names are split matters from here on, not where.
    by_cases hle : width ≤ others.length + 1
    · have hsplit := (List.take_append_drop width (first :: others)).symm
      have hlen : ((first :: others).take width).length = width := List.length_take_of_le hle
      rw [windows, if_pos hle]
      generalize (first :: others).take width = front at hsplit hlen
      generalize (first :: others).drop width = back at hsplit hlen
      have hfront : ∀ n ∈ front, IsName n := by
        intro n hn
        exact hnames n (by rw [hsplit]; exact List.mem_append_left _ hn)
      have hspelled := hname (by simp)
      rw [hsplit] at hspelled
      obtain ⟨b, hb, htakes⟩ := hdecides pre front back hspelled hlen hfront
      rw [searchWindows_cons _ _ hb]
      cases b with
      | true =>
        rw [if_pos rfl, hsplit]
        exact .inr ⟨[], front, back, firstFit_front hlen (htakes.1 rfl), rfl⟩
      | false =>
        have hnot : ¬ takes front back := mt htakes.2 (by simp)
        have hmoved : others ≠ [] →
            name = pre ++ first ++ ['/'] ++ spell '/' closed others := by
          intro hothers
          rw [hname (by simp), spell_cons first hothers]
          simp
        rw [if_neg (by simp)]
        -- The window in front is out, so those of the other names decide.
        rcases ih hmoved (List.forall_mem_cons.1 hnames).2 with ⟨hno, hanswer⟩ |
          ⟨before, window, after, hfit, hanswer⟩
        · exact .inl ⟨hno.cons hsplit hlen hnot, hanswer⟩
        · refine .inr ⟨first :: before, window, after, hfit.cons hsplit hlen hnot, ?_⟩
          have hwindow : before ++ window ≠ [] := by
            intro hnil
            have hzero := hfit.length
            rw [(List.append_eq_nil_iff.1 hnil).2, List.length_nil] at hzero
            omega
          rw [hanswer, List.cons_append, spell_cons first hwindow]
          simp
    · rw [windows, if_neg hle]
      exact .inl ⟨noFit_of_length_lt (by rw [List.length_cons]; omega), rfl⟩

/-- **The search.** It finds the leftmost window. One window is not of names: the
one that ends behind a closing separator. It must not fit. -/
theorem search_all (hdecides : Decides name text rest closed width takes) (hwidth : 0 < width)
    {pre : Text} {names : List Text} (hname : name = pre ++ spell '/' closed names)
    (hnames : ∀ n ∈ names, IsName n)
    (hbeyond : closed = true → names ≠ [] → names.length + 1 = width →
      fitsWindow name text rest ⟨byteSize pre, byteSize name, .finish⟩ = .ok false) :
    Finds takes width closed pre names
      (searchWindows name text rest (Window.all name (byteSize pre) width)) := by
  by_cases hle : width ≤ names.length
  · have hall := @Window.all_spell closed width names hnames hwidth hle pre
    rw [← hname] at hall
    rw [hall]
    exact search_windows hdecides hwidth (fun _ => hname) hnames
  · have hno : NoFit takes width names := noFit_of_length_lt (by omega)
    refine .inl ⟨hno, ?_⟩
    by_cases hne : names = []
    · have hall := Window.all_nil pre width
      rw [hname, hne, spell_nil, List.append_nil, hall]
      rfl
    · obtain ⟨extra, rfl⟩ : ∃ extra, width = names.length + (extra + 1) :=
        ⟨width - names.length - 1, by omega⟩
      have hall := @Window.all_spell_beyond closed names hne hnames pre extra
      rw [← hname] at hall
      rw [hall]
      -- With one name missing the closing separator makes a window of its own.
      by_cases hphantom : (closed && extra == 0) = true
      · rw [if_pos hphantom]
        rw [Bool.and_eq_true, beq_iff_eq] at hphantom
        rw [searchWindows_cons _ _ (hbeyond hphantom.1 hne (by rw [hphantom.2]))]
        rfl
      · rw [if_neg hphantom]
        rfl

end Search

end Segment

end PathGlob
