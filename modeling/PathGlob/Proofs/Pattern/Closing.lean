/-
A pattern and the same pattern with a separator written after it.

The names of both are the same, so they are cut into runs at the same places,
and the segments differ in the last one only, which is closed (`read_close`).
That the places are the same is shown once and for all: names can be laid out as
segments in one way (`Laid.unique`).
-/
import PathGlob.Proofs.Pattern.Reading

set_option autoImplicit false

namespace PathGlob

namespace Segment

/-! ## One layout -/

/-- A list that begins with a component of one kind, or is empty. -/
def BeginsWith (kind : Bool) (parts : List Text) : Prop :=
  ∀ part ∈ parts.head?, isStars part = kind

/-- A run of one kind ends where the other kind begins. -/
theorem run_unique {kind : Bool} {run run' rest rest' : List Text}
    (h : run ++ rest = run' ++ rest') (hrun : ∀ part ∈ run, isStars part = kind)
    (hrun' : ∀ part ∈ run', isStars part = kind) (hrest : BeginsWith (!kind) rest)
    (hrest' : BeginsWith (!kind) rest') : run = run' ∧ rest = rest' := by
  induction run generalizing run' with
  | nil =>
    cases run' with
    | nil => exact ⟨rfl, h⟩
    | cons part run' =>
      rw [List.nil_append] at h
      have hkind := hrest part (by rw [h]; rfl)
      rw [hrun' part (by simp)] at hkind
      exact absurd hkind (by simp)
  | cons part run ih =>
    cases run' with
    | nil =>
      rw [List.nil_append] at h
      have hkind := hrest' part (by rw [← h]; rfl)
      rw [hrun part (by simp)] at hkind
      exact absurd hkind (by simp)
    | cons part' run' =>
      rw [List.cons_append, List.cons_append, List.cons.injEq] at h
      obtain ⟨rfl, h⟩ := h
      obtain ⟨rfl, rfl⟩ := ih h (List.forall_mem_cons.1 hrun).2 (List.forall_mem_cons.1 hrun').2
      exact ⟨rfl, rfl⟩

theorem IsPlain.beginsWith {plain : List Text} (h : IsPlain plain) (rest : List Text) :
    BeginsWith false (plain ++ rest) := by
  obtain ⟨part, others, rfl⟩ := List.exists_cons_of_ne_nil h.1
  rintro other hother
  obtain rfl : part = other := by simpa using hother
  exact h.2 part (by simp)

theorem IsWild.beginsWith {stars : List Text} (h : IsWild stars) (rest : List Text) :
    BeginsWith true (stars ++ rest) := by
  obtain ⟨part, others, rfl⟩ := List.exists_cons_of_ne_nil h.1
  rintro other hother
  obtain rfl : part = other := by simpa using hother
  exact h.2 part (by simp)

section Laid

variable {closed front : Bool} {segments segments' : List Segment} {names : List Text}

theorem FromWild.beginsWith (h : FromWild closed front segments names) : BeginsWith true names := by
  obtain ⟨stars, parts, hstars, rfl⟩ := h.exists_wild
  exact IsWild.beginsWith hstars parts

theorem FromWild.not_nil : ¬ FromWild closed front segments [] := by
  intro h
  obtain ⟨stars, parts, hstars, hnil⟩ := h.exists_wild
  exact hstars.1 (List.append_eq_nil_iff.1 hnil.symm).1

theorem beginsWith_nil {kind : Bool} : BeginsWith kind [] := by
  intro part hpart
  simp at hpart

/-- A run that is the whole list ends with it. -/
theorem run_eq {kind : Bool} {run run' rest' : List Text} (h : run = run' ++ rest')
    (hrun : ∀ part ∈ run, isStars part = kind) (hrun' : ∀ part ∈ run', isStars part = kind)
    (hrest' : BeginsWith (!kind) rest') : run = run' ∧ rest' = [] := by
  obtain ⟨hrun, hrest⟩ := run_unique ((List.append_nil run).trans h) hrun hrun' beginsWith_nil hrest'
  exact ⟨hrun, hrest.symm⟩

theorem FromWild.unique (h : FromWild closed front segments names)
    (h' : FromWild closed front segments' names) : segments = segments' := by
  induction h generalizing segments' with
  | @wild front stars hstars =>
    generalize hall : stars = names at h'
    cases h' with
    | wild hstars' => rfl
    | literal hstars' hplain' =>
      obtain ⟨-, rfl⟩ := run_eq hall hstars.2 hstars'.2 (by simpa using IsPlain.beginsWith hplain' [])
      exact absurd rfl hplain'.1
    | more hstars' hplain' h' =>
      obtain ⟨-, hnil⟩ := run_eq hall hstars.2 hstars'.2 (IsPlain.beginsWith hplain' _)
      exact absurd (List.append_eq_nil_iff.1 hnil).1 hplain'.1
  | @literal front stars plain hstars hplain =>
    have hbegin : BeginsWith (!true) plain := by simpa using IsPlain.beginsWith hplain []
    generalize hall : stars ++ plain = names at h'
    cases h' with
    | wild hstars' =>
      obtain ⟨-, rfl⟩ := run_eq hall.symm hstars'.2 hstars.2 hbegin
      exact absurd rfl hplain.1
    | literal hstars' hplain' =>
      obtain ⟨rfl, rfl⟩ := run_unique hall hstars.2 hstars'.2 hbegin
        (by simpa using IsPlain.beginsWith hplain' [])
      rfl
    | more hstars' hplain' h' =>
      obtain ⟨-, hplainEq⟩ := run_unique hall hstars.2 hstars'.2 hbegin
        (IsPlain.beginsWith hplain' _)
      obtain ⟨-, rfl⟩ := run_eq hplainEq hplain.2 hplain'.2 h'.beginsWith
      exact absurd h' FromWild.not_nil
  | @more front stars plain names segments hstars hplain h ih =>
    generalize hall : stars ++ (plain ++ names) = all at h'
    cases h' with
    | wild hstars' =>
      obtain ⟨-, hnil⟩ := run_eq hall.symm hstars'.2 hstars.2 (IsPlain.beginsWith hplain _)
      exact absurd (List.append_eq_nil_iff.1 hnil).1 hplain.1
    | literal hstars' hplain' =>
      obtain ⟨-, hplainEq⟩ := run_unique hall hstars.2 hstars'.2 (IsPlain.beginsWith hplain _)
        (by simpa using IsPlain.beginsWith hplain' [])
      obtain ⟨-, rfl⟩ := run_eq hplainEq.symm hplain'.2 hplain.2 h.beginsWith
      exact absurd h FromWild.not_nil
    | more hstars' hplain' h' =>
      obtain ⟨rfl, hrest⟩ := run_unique hall hstars.2 hstars'.2 (IsPlain.beginsWith hplain _)
        (IsPlain.beginsWith hplain' _)
      obtain ⟨rfl, rfl⟩ := run_unique hrest hplain.2 hplain'.2 h.beginsWith h'.beginsWith
      rw [ih h']

/-- **One layout.** Names are laid out as segments in one way. -/
theorem Laid.unique (h : Laid closed front segments names)
    (h' : Laid closed front segments' names) : segments = segments' := by
  -- A plain head and a wildcard head cannot begin the same names.
  have hhead : ∀ {plain rest : List Text}, IsPlain plain → ¬ BeginsWith true (plain ++ rest) := by
    intro plain rest hplain hwild
    obtain ⟨part, others, rfl⟩ := List.exists_cons_of_ne_nil hplain.1
    have htrue := hwild part rfl
    rw [hplain.2 part (by simp)] at htrue
    exact Bool.false_ne_true htrue
  cases h with
  | literal hplain =>
    generalize hall : names = all at h'
    cases h' with
    | literal hplain' => rfl
    | head hplain' h' =>
      obtain ⟨-, rfl⟩ := run_eq hall hplain.2 hplain'.2 h'.beginsWith
      exact absurd h' FromWild.not_nil
    | tail h' =>
      refine absurd h'.beginsWith ?_
      rw [← hall, ← List.append_nil names]
      exact hhead hplain
  | @head plain names segments hplain h =>
    generalize hall : plain ++ names = all at h'
    cases h' with
    | literal hplain' =>
      obtain ⟨-, rfl⟩ := run_eq hall.symm hplain'.2 hplain.2 h.beginsWith
      exact absurd h FromWild.not_nil
    | head hplain' h' =>
      obtain ⟨rfl, rfl⟩ := run_unique hall hplain.2 hplain'.2 h.beginsWith h'.beginsWith
      rw [h.unique h']
    | tail h' =>
      refine absurd h'.beginsWith ?_
      rw [← hall]
      exact hhead hplain
  | tail h =>
    cases h' with
    | literal hplain' =>
      refine absurd h.beginsWith ?_
      rw [← List.append_nil names]
      exact hhead hplain'
    | head hplain' h' => exact absurd h.beginsWith (hhead hplain')
    | tail h' => exact h.unique h'

/-! ## One more separator -/

/-- The segment with a separator after it. -/
def close : Segment → Segment
  | .literal text width => .literal (text ++ ['/']) width
  | .wild text => .wild (text ++ ['/'])

/-- The segments with a separator after the last. -/
def closeLast : List Segment → List Segment
  | [] => []
  | [segment] => [segment.close]
  | segment :: rest => segment :: closeLast rest

theorem closeLast_cons {segment : Segment} {rest : List Segment} (hrest : rest ≠ []) :
    closeLast (segment :: rest) = segment :: closeLast rest := by
  cases rest with
  | nil => exact absurd rfl hrest
  | cons next rest => rfl

theorem length_closeLast (segments : List Segment) :
    (closeLast segments).length = segments.length := by
  induction segments with
  | nil => rfl
  | cons segment rest ih =>
    by_cases hrest : rest = []
    · subst hrest
      rfl
    · rw [closeLast_cons hrest, List.length_cons, List.length_cons, ih]

theorem getLast?_closeLast (segments : List Segment) :
    (closeLast segments).getLast? = segments.getLast?.map close := by
  induction segments with
  | nil => rfl
  | cons segment rest ih =>
    by_cases hrest : rest = []
    · subst hrest
      rfl
    · have hclosed : closeLast rest ≠ [] := by
        rw [← List.length_pos_iff, length_closeLast]
        exact List.length_pos_iff.2 hrest
      rw [closeLast_cons hrest, List.getLast?_cons_of_ne_nil hclosed,
        List.getLast?_cons_of_ne_nil hrest, ih]

theorem head_closeLast (segments : List Segment) :
    (closeLast segments).head?.any isWild = segments.head?.any isWild := by
  cases segments with
  | nil => rfl
  | cons segment rest =>
    by_cases hrest : rest = []
    · subst hrest
      cases segment <;> rfl
    · rw [closeLast_cons hrest]
      rfl

theorem mem_closeLast {segment : Segment} (h : segment ∈ closeLast segments) :
    segment ∈ segments ∨ ∃ other ∈ segments, segment = other.close := by
  induction segments with
  | nil => exact absurd h (by simp [closeLast])
  | cons first rest ih =>
    by_cases hrest : rest = []
    · subst hrest
      exact .inr ⟨first, by simp, by simpa [closeLast] using h⟩
    · rw [closeLast_cons hrest, List.mem_cons] at h
      rcases h with rfl | h
      · exact .inl (by simp)
      · rcases ih h with h | ⟨other, hother, rfl⟩
        · exact .inl (List.mem_cons_of_mem _ h)
        · exact .inr ⟨other, List.mem_cons_of_mem _ hother, rfl⟩

theorem FromWild.close (h : FromWild false front segments names) :
    FromWild true front (closeLast segments) names := by
  induction h with
  | @wild front stars hstars =>
    have hclosed := @FromWild.wild true front _ hstars
    rwa [Text.written_true hstars.1] at hclosed
  | @literal front stars plain hstars hplain =>
    have hclosed := @FromWild.literal true front _ _ hstars hplain
    rwa [spell_true hplain.1] at hclosed
  | more hstars hplain h ih =>
    rw [closeLast_cons (by simp), closeLast_cons h.ne_nil]
    exact .more hstars hplain ih

theorem Laid.close (h : Laid false front segments names) :
    Laid true front (closeLast segments) names := by
  cases h with
  | literal hplain =>
    have hclosed := @Laid.literal true front _ hplain
    rwa [Text.written_true hplain.1] at hclosed
  | head hplain h =>
    rw [closeLast_cons h.ne_nil]
    exact .head hplain h.close
  | tail h => exact .tail h.close

end Laid

/-- **One more separator.** A pattern that is not closed is read with the
separator if it is read without, and only the last segment is another. -/
theorem read_close {pattern : Text} {segments : List Segment} (h : read pattern = .ok segments)
    (hdouble : Text.Undoubled pattern) (hne : Text.names pattern ≠ [])
    (hopen : Text.closed pattern = false) :
    read (pattern ++ ['/']) = .ok (closeLast segments) := by
  have hlaid := laid_of_read h hdouble hne
  rw [hopen] at hlaid
  have hwritten : pattern ++ ['/'] =
      Text.written (Text.opened pattern) true (Text.names pattern) := by
    rw [Text.written_true hne, ← hopen, Text.written_names hdouble]
  have hsegments : closeLast segments = ofPattern (pattern ++ ['/']) := by
    refine hlaid.close.unique ?_
    rw [hwritten]
    exact laid_ofPattern hne isName_of_names
  refine read_eq_ok.2 ⟨hsegments, check_of_exists_parse ?_⟩
  intro text width hmem
  have hcheck := (read_eq_ok.1 h).2
  rcases mem_closeLast hmem with hmem | ⟨other, hother, hclose⟩
  · exact exists_parse_of_check hcheck hmem
  · cases other with
    | wild stars => simp [Segment.close] at hclose
    | literal text' width' =>
      obtain ⟨rfl, rfl⟩ := Segment.literal.inj hclose
      obtain ⟨mask, hmask⟩ := exists_parse_of_check hcheck hother
      exact ⟨mask ++ [.char '/'], Mask.parse_close hmask⟩

end Segment

end PathGlob
