/-
Texts as names with separators written between them.

Patterns and candidates that never double a separator have one form: perhaps a
separator, then names one after another with a separator between any two, then
perhaps a separator. `written` writes this form and `names` reads it; they are
inverse to each other (`names_written`, `written_names`). Everything that is
stated component by component goes through these two.

`spell` is the part after the first separator. It is stated for lists over any
type, because the mask of such a text has the same form with an item in place of
the separator.
-/
import Mathlib.Data.List.Infix
import PathGlob.Text

set_option autoImplicit false

namespace PathGlob

/-- The parts one after another, with a separator after each but the last, and
after the last if the whole is `closed`. -/
def spell {α : Type} (sep : α) (closed : Bool) : List (List α) → List α
  | [] => []
  | part :: rest => part ++ ((if closed || !rest.isEmpty then [sep] else []) ++ spell sep closed rest)

section Spell

variable {α : Type} {sep : α} {closed : Bool}

@[simp] theorem spell_nil : spell sep closed ([] : List (List α)) = [] := rfl

theorem spell_singleton (part : List α) :
    spell sep closed [part] = part ++ if closed then [sep] else [] := by
  simp [spell]

/-- A part that is not the last is closed. -/
theorem spell_cons {rest : List (List α)} (part : List α) (hrest : rest ≠ []) :
    spell sep closed (part :: rest) = part ++ sep :: spell sep closed rest := by
  simp [spell, List.isEmpty_eq_false_iff.2 hrest]

theorem spell_true_cons (part : List α) (rest : List (List α)) :
    spell sep true (part :: rest) = part ++ sep :: spell sep true rest := by
  simp [spell]

theorem spell_append (front back : List (List α)) :
    spell sep closed (front ++ back) =
      spell sep (closed || !back.isEmpty) front ++ spell sep closed back := by
  induction front with
  | nil => rfl
  | cons part front ih =>
    rw [List.cons_append, spell, ih, spell]
    cases front with
    | nil => simp
    | cons next front => simp

/-- Closing a text closes its last part. -/
theorem spell_true {parts : List (List α)} (hparts : parts ≠ []) :
    spell sep true parts = spell sep false parts ++ [sep] := by
  induction parts with
  | nil => exact absurd rfl hparts
  | cons part rest ih =>
    by_cases hrest : rest = []
    · subst hrest
      simp [spell]
    · rw [spell_cons part hrest, spell_cons part hrest, ih hrest]
      simp

/-- The text that is not closed, as it is joined. -/
theorem spell_false (parts : List (List α)) : spell sep false parts = [sep].intercalate parts := by
  induction parts with
  | nil => rfl
  | cons part rest ih =>
    cases rest with
    | nil => simp [spell]
    | cons next rest =>
      rw [spell_cons part (by simp), ih, List.intercalate_cons_cons]
      simp

theorem spell_eq_nil {parts : List (List α)} (hparts : ∀ part ∈ parts, part ≠ []) :
    spell sep closed parts = [] ↔ parts = [] := by
  cases parts with
  | nil => simp
  | cons part rest => simp [spell, hparts part (by simp)]

/-- One separator for every part but the last, and one if the text is closed. -/
theorem count_spell [DecidableEq α] {parts : List (List α)} (hparts : parts ≠ [])
    (hsep : ∀ part ∈ parts, sep ∉ part) :
    (spell sep closed parts).count sep + 1 = parts.length + if closed then 1 else 0 := by
  induction parts with
  | nil => exact absurd rfl hparts
  | cons part rest ih =>
    have hpart : part.count sep = 0 := List.count_eq_zero.2 (hsep part (by simp))
    by_cases hrest : rest = []
    · subst hrest
      rw [spell_singleton, List.count_append, hpart]
      cases closed <;> simp
    · rw [spell_cons part hrest, List.count_append, hpart, List.count_cons_self]
      have := ih hrest fun p hp => hsep p (List.mem_cons_of_mem _ hp)
      rw [List.length_cons]
      omega

end Spell

namespace Text

/-- What stands between separators: something, and no separator. -/
def IsName (t : Text) : Prop := t ≠ [] ∧ '/' ∉ t

instance (t : Text) : Decidable (IsName t) := inferInstanceAs (Decidable (_ ∧ _))

/-- The names with separators between them, and at the two ends as asked. -/
def written (opened closed : Bool) (parts : List Text) : Text :=
  (if opened then ['/'] else []) ++ spell '/' closed parts

/-- The pieces between separators that are not empty. -/
def names (t : Text) : List Text := (components t).filter (!·.isEmpty)

/-- No piece between separators holds one. -/
theorem notMem_of_mem_components {t piece : Text} (h : piece ∈ components t) : '/' ∉ piece := by
  induction t generalizing piece with
  | nil =>
    have : piece = [] := by simpa [components] using h
    simp [this]
  | cons c t ih =>
    rw [components, List.splitOn_cons_eq_if_modifyHead] at h
    by_cases hc : c = '/'
    · simp only [hc, beq_self_eq_true, if_true, List.mem_cons] at h
      rcases h with rfl | h
      · simp
      · exact ih h
    · -- The character belongs to the first piece of the rest.
      rw [if_neg (by simpa using hc)] at h
      cases hsplit : t.splitOn '/' with
      | nil => exact absurd hsplit (List.splitOn_ne_nil '/' t)
      | cons first rest =>
        rw [hsplit, List.modifyHead_cons, List.mem_cons] at h
        rcases h with rfl | h
        · have hfirst : '/' ∉ first := ih (by rw [components, hsplit]; simp)
          simpa [Ne.symm hc] using hfirst
        · exact ih (by rw [components, hsplit]; exact List.mem_cons_of_mem _ h)

/-! ## Reading what was written -/

section Written

variable {front back : Bool} {parts : List Text}

theorem written_false : written false back parts = spell '/' back parts := rfl

theorem written_true (hparts : parts ≠ []) :
    written front true parts = written front false parts ++ ['/'] := by
  rw [written, written, spell_true hparts, List.append_assoc]

theorem join_eq_spell (parts : List Text) : join parts = spell '/' false parts := (spell_false parts).symm

theorem written_append (parts more : List Text) :
    written front back (parts ++ more) =
      written front (back || !more.isEmpty) parts ++ spell '/' back more := by
  rw [written, written, spell_append, List.append_assoc]

/-- The first part of a text begins as the text does. -/
theorem opened_left {a b : Text} (h : opened (a ++ b) = false) : opened a = false := by
  cases a with
  | nil => rfl
  | cons c rest => exact h

/-- A name does not begin with a separator. -/
theorem opened_append {name : Text} (hname : IsName name) (rest : Text) :
    opened (name ++ rest) = false := by
  obtain ⟨hne, hsep⟩ := hname
  cases name with
  | nil => exact absurd rfl hne
  | cons c name =>
    simp only [List.mem_cons, not_or] at hsep
    simp [opened, Ne.symm hsep.1]

theorem opened_name {name : Text} (hname : IsName name) : opened name = false := by
  have hopened := opened_append hname []
  rwa [List.append_nil] at hopened

theorem opened_spell (hparts : ∀ part ∈ parts, IsName part) :
    opened (spell '/' back parts) = false := by
  cases parts with
  | nil => rfl
  | cons part rest => exact opened_append (hparts part (by simp)) _

theorem opened_written (hparts : ∀ part ∈ parts, IsName part) :
    opened (written front back parts) = front := by
  cases front with
  | true => rfl
  | false => exact opened_spell hparts

theorem exists_of_opened {t : Text} (h : opened t = true) : ∃ rest, t = '/' :: rest := by
  rw [opened, beq_iff_eq, List.head?_eq_some_iff] at h
  exact h

theorem exists_of_closed {t : Text} (h : closed t = true) : ∃ front, t = front ++ ['/'] := by
  rw [closed, beq_iff_eq, List.getLast?_eq_some_iff] at h
  exact h

/-- A text that begins with something else than a separator keeps it. -/
theorem dropOpening_eq_self {t : Text} (h : opened t = false) : dropOpening t = t := by
  rw [dropOpening]
  rintro rest rfl
  simp [opened] at h

theorem closed_append {a b : Text} (hb : b ≠ []) : closed (a ++ b) = closed b := by
  rw [closed, closed, List.getLast?_append_of_ne_nil _ hb]

/-- A name does not end with a separator. -/
theorem closed_name {name : Text} (hname : IsName name) : closed name = false := by
  rw [closed, List.getLast?_eq_some_getLast hname.1]
  have hmem := List.getLast_mem hname.1
  have : name.getLast hname.1 ≠ '/' := fun h => hname.2 (h ▸ hmem)
  simpa using this

theorem spell_ne_nil (hne : parts ≠ []) (hparts : ∀ part ∈ parts, IsName part) :
    spell '/' back parts ≠ [] :=
  (spell_eq_nil fun part hpart => (hparts part hpart).1).not.2 hne

theorem closed_spell (hne : parts ≠ []) (hparts : ∀ part ∈ parts, IsName part) :
    closed (spell '/' back parts) = back := by
  cases back with
  | true =>
    rw [spell_true hne, closed_append (by simp)]
    rfl
  | false =>
    induction parts with
    | nil => exact absurd rfl hne
    | cons part rest ih =>
      by_cases hrest : rest = []
      · subst hrest
        rw [spell_singleton]
        simpa using closed_name (hparts part (by simp))
      · have hrestNames : ∀ p ∈ rest, IsName p := fun p hp => hparts p (List.mem_cons_of_mem _ hp)
        rw [spell_cons part hrest, closed_append (by simp), ← List.singleton_append,
          closed_append (spell_ne_nil hrest hrestNames)]
        exact ih hrest hrestNames

theorem closed_written (hne : parts ≠ []) (hparts : ∀ part ∈ parts, IsName part) :
    closed (written front back parts) = back := by
  rw [written, closed_append (spell_ne_nil hne hparts), closed_spell hne hparts]

/-- The pieces between the separators of a written text: the names, and an empty
one where the text begins or ends with a separator. -/
theorem components_written (hne : parts ≠ []) (hparts : ∀ part ∈ parts, IsName part) :
    components (written front back parts) =
      (if front then [[]] else []) ++ parts ++ if back then [[]] else [] := by
  have hsep : ∀ part ∈ ((if front then [[]] else []) ++ parts ++ if back then [[]] else [] : List Text),
      '/' ∉ part := by
    intro part hpart
    simp only [List.mem_append] at hpart
    rcases hpart with (hpart | hpart) | hpart
    · cases front <;> simp_all
    · exact (hparts part hpart).2
    · cases back <;> simp_all
  -- With an empty piece at an end the separator there is one between pieces.
  rw [components, ← List.splitOn_intercalate '/' hsep (by simp [hne]), written]
  congr 1
  rw [← spell_false, List.append_assoc, spell_append, spell_append]
  cases front <;> cases back <;> simp [hne, spell, List.isEmpty_eq_false_iff.2 hne, spell_true]

/-- A text made of names is read back. -/
theorem names_written (hparts : ∀ part ∈ parts, IsName part) :
    names (written front back parts) = parts := by
  by_cases hne : parts = []
  · subst hne
    cases front <;> cbv
  · have hfilter : parts.filter (!·.isEmpty) = parts :=
      List.filter_eq_self.2 fun part hpart => by simpa using (hparts part hpart).1
    rw [names, components_written hne hparts]
    cases front <;> cases back <;> simp [hfilter]

theorem components_spell (hne : parts ≠ []) (hparts : ∀ part ∈ parts, IsName part) :
    components (spell '/' false parts) = parts := by
  have hcomponents := @components_written false false parts hne hparts
  rwa [written_false, if_neg Bool.false_ne_true, List.nil_append, List.append_nil] at hcomponents

theorem names_spell (hparts : ∀ part ∈ parts, IsName part) :
    names (spell '/' back parts) = parts := @names_written false back parts hparts

theorem names_name {name : Text} (h : IsName name) : names name = [name] := by
  have hnames := @names_spell false [name] (by simpa using h)
  rwa [spell_singleton, if_neg Bool.false_ne_true, List.append_nil] at hnames

/-- A separator divides the names of a text. -/
theorem names_append_separator (a b : Text) : names (a ++ '/' :: b) = names a ++ names b := by
  rw [names, components, List.splitOn_append_cons_self, List.filter_append]
  rfl

theorem names_separator (t : Text) : names ('/' :: t) = names t := names_append_separator [] t

theorem names_separators (n : Nat) (t : Text) : names (List.replicate n '/' ++ t) = names t := by
  induction n with
  | zero => rfl
  | succ n ih => rw [List.replicate_succ, List.cons_append, names_separator, ih]

theorem names_close (t : Text) : names (t ++ ['/']) = names t := by
  rw [names_append_separator]
  exact List.append_nil _

/-- The names of two parts are those of the whole, if the parts do not meet within a name. -/
theorem names_append {a b : Text}
    (h : a = [] ∨ b = [] ∨ closed a = true ∨ opened b = true) :
    names (a ++ b) = names a ++ names b := by
  rcases h with rfl | rfl | hclosed | hopened
  · rfl
  · rw [List.append_nil, show names [] = [] from rfl, List.append_nil]
  · obtain ⟨front, rfl⟩ := exists_of_closed hclosed
    rw [List.append_assoc, List.singleton_append, names_append_separator, names_close]
  · obtain ⟨rest, rfl⟩ := exists_of_opened hopened
    rw [names_append_separator, names_separator]

end Written

/-! ## Writing what was read -/

/-- Two separators are nowhere next to each other. -/
def Undoubled (t : Text) : Prop := ¬ ['/', '/'] <:+: t

instance (t : Text) : Decidable (Undoubled t) :=
  inferInstanceAs (Decidable (¬ ['/', '/'] <:+: t))

theorem Undoubled.tail {c : Char} {t : Text} (h : Undoubled (c :: t)) : Undoubled t :=
  fun hdouble => h (hdouble.trans (List.suffix_cons c t).isInfix)

/-- One character written before a text made of names: a separator opens the
text, any other character begins a name or belongs to the first one. -/
theorem exists_written_cons {front back : Bool} {parts : List Text} (c : Char)
    (hdouble : Undoubled (c :: written front back parts)) (hparts : ∀ part ∈ parts, IsName part) :
    ∃ (front' back' : Bool) (parts' : List Text),
      (∀ part ∈ parts', IsName part) ∧ c :: written front back parts = written front' back' parts' := by
  by_cases hc : c = '/'
  · subst hc
    cases front with
    | true => exact absurd ⟨[], spell '/' back parts, rfl⟩ hdouble
    | false => exact ⟨true, back, parts, hparts, rfl⟩
  · have hname : IsName [c] := ⟨by simp, by simpa using Ne.symm hc⟩
    cases front with
    | true =>
      -- The separator that opened the text closes the new name.
      by_cases hne : parts = []
      · subst hne
        exact ⟨false, true, [[c]], by simpa using hname, rfl⟩
      · refine ⟨false, back, [c] :: parts, ?_, ?_⟩
        · simpa using ⟨hname, hparts⟩
        · rw [written_false, spell_cons [c] hne]
          rfl
    | false =>
      cases parts with
      | nil => exact ⟨false, false, [[c]], by simpa using hname, rfl⟩
      | cons part rest =>
        obtain ⟨hpart, hrest⟩ := List.forall_mem_cons.1 hparts
        refine ⟨false, back, (c :: part) :: rest, ?_, rfl⟩
        refine List.forall_mem_cons.2 ⟨⟨by simp, ?_⟩, hrest⟩
        simpa [Ne.symm hc] using hpart.2

/-- A text that doubles no separator is made of names. -/
theorem exists_written {t : Text} (h : Undoubled t) :
    ∃ (front back : Bool) (parts : List Text),
      (∀ part ∈ parts, IsName part) ∧ t = written front back parts := by
  induction t with
  | nil => exact ⟨false, false, [], by simp, rfl⟩
  | cons c t ih =>
    obtain ⟨front, back, parts, hparts, rfl⟩ := ih h.tail
    exact exists_written_cons c h hparts

theorem isName_of_mem_names {t name : Text} (hname : name ∈ names t) : IsName name := by
  obtain ⟨hmem, hne⟩ := List.mem_filter.1 hname
  exact ⟨by simpa using hne, notMem_of_mem_components hmem⟩

/-- Such a text is written again from what is read off it. -/
theorem written_names {t : Text} (h : Undoubled t) :
    written (opened t) (closed t) (names t) = t := by
  obtain ⟨front, back, parts, hparts, rfl⟩ := exists_written h
  rw [opened_written hparts, names_written hparts]
  by_cases hne : parts = []
  · subst hne
    rfl
  · rw [closed_written hne hparts]

/-- With no separator at its ends, a text has an empty piece where it doubles one. -/
theorem nil_mem_components {t : Text} (hne : t ≠ []) (hopened : opened t = false)
    (hclosed : closed t = false) : [] ∈ components t ↔ ¬ Undoubled t := by
  constructor
  · intro hmem h
    -- The pieces of a text that doubles no separator are its names.
    have hwritten := written_names h
    have hparts : ∀ part ∈ names t, IsName part := fun part hpart => isName_of_mem_names hpart
    rw [hopened, hclosed, written_false] at hwritten
    have hnames : names t ≠ [] := by
      intro hnil
      rw [hnil] at hwritten
      exact hne hwritten.symm
    rw [← hwritten, components_spell hnames hparts] at hmem
    exact (hparts [] hmem).1 rfl
  · intro h
    obtain ⟨a, b, hdouble⟩ := not_not.1 h
    rw [← hdouble, List.append_assoc, List.cons_append, List.singleton_append, components,
      List.splitOn_append_cons_self, List.splitOn_cons_eq_if_modifyHead, if_pos (by simp)]
    simp

/-- It has no names only if it is empty or one separator. -/
theorem names_eq_nil {t : Text} (h : Undoubled t) : names t = [] ↔ t = [] ∨ t = ['/'] := by
  constructor
  · intro hnames
    rw [← written_names h, hnames]
    cases opened t with
    | true => exact .inr rfl
    | false => exact .inl rfl
  · rintro (rfl | rfl) <;> cbv

theorem eq_nil_of_names {t : Text} (h : Undoubled t) (hopen : closed t = false)
    (hnames : names t = []) : t = [] := by
  rcases (names_eq_nil h).1 hnames with hnil | rfl
  · exact hnil
  · exact absurd hopen (by decide)

end Text

end PathGlob
