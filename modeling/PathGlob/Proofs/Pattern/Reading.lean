/-
What is known of a pattern once it has been read.

Reading checks the literals of a pattern one by one, each as a mask of its own.
The literals and the wildcards written one after another are the pattern, so the
pattern as a whole is a mask as well, and where its separators stand for
themselves so is each of its components (`readable_of_read`). Together with the
segmentation (`laid_of_read`) this is all that matching relies on.
-/
import PathGlob.Proofs.Pattern.Window

set_option autoImplicit false

namespace PathGlob

namespace Segment

/-! ## Checking -/

theorem exists_parse_of_check {segments : List Segment} (h : check segments = .ok ())
    {text : Text} {width : Nat} (hmem : Segment.literal text width ∈ segments) :
    ∃ mask, Mask.parse text = .ok mask := by
  induction segments with
  | nil => simp at hmem
  | cons segment rest ih =>
    cases segment with
    | wild stars =>
      rw [check] at h
      exact ih h (by simpa using hmem)
    | literal first width' =>
      rw [check] at h
      cases hparse : Mask.parse first with
      | error e => simp [hparse] at h
      | ok mask =>
        rw [hparse] at h
        rcases List.mem_cons.1 hmem with heq | hrest
        · obtain ⟨rfl, -⟩ := Segment.literal.inj heq
          exact ⟨mask, hparse⟩
        · exact ih h hrest

theorem check_of_exists_parse {segments : List Segment}
    (h : ∀ text width, Segment.literal text width ∈ segments → ∃ mask, Mask.parse text = .ok mask) :
    check segments = .ok () := by
  induction segments with
  | nil => rfl
  | cons segment rest ih =>
    have hrest := ih fun text width hmem => h text width (List.mem_cons_of_mem _ hmem)
    cases segment with
    | wild stars => exact hrest
    | literal text width =>
      obtain ⟨mask, hmask⟩ := h text width (by simp)
      rw [check, hmask]
      exact hrest

theorem read_eq_ok {pattern : Text} {segments : List Segment} :
    read pattern = .ok segments ↔ segments = ofPattern pattern ∧ check segments = .ok () := by
  rw [read]
  cases hcheck : check (ofPattern pattern) with
  | error e =>
    constructor
    · intro h
      simp [Except.map] at h
    · rintro ⟨rfl, h⟩
      rw [hcheck] at h
      simp at h
  | ok checked =>
    rw [Except.map, Except.ok.injEq]
    constructor
    · rintro rfl
      exact ⟨rfl, hcheck⟩
    · rintro ⟨rfl, -⟩
      rfl

theorem read_nil {segments : List Segment} (h : read [] = .ok segments) : segments = [] :=
  (read_eq_ok.1 h).1

/-! ## The pattern as one mask -/

theorem exists_parse_stars {text : Text} (h : ∀ c ∈ text, c = '*' ∨ c = '/') :
    ∃ mask, Mask.parse text = .ok mask := by
  induction text with
  | nil => exact ⟨[], by simp [Mask.parse]⟩
  | cons c rest ih =>
    rw [List.forall_mem_cons] at h
    obtain ⟨mask, hmask⟩ := ih h.2
    rcases h.1 with rfl | rfl
    · exact ⟨.star :: mask, by rw [Mask.parse, hmask]; rfl⟩
    · exact ⟨.char '/' :: mask, by rw [Mask.parse_separator, hmask]; rfl⟩

theorem all_stars_of_isStars {name : Text} (hname : Text.IsName name) (h : isStars name = true) :
    ∀ c ∈ name, c = '*' := by
  have hopen : Text.dropClosing name = name := by
    rw [Text.dropClosing, Text.closed_name hname]
    rfl
  rw [isStars, hopen, Bool.and_eq_true, List.all_eq_true] at h
  exact fun c hc => by simpa using h.2 c hc

theorem exists_parse_wild {front closed : Bool} {stars : List Text} (hstars : IsWild stars)
    (hnames : ∀ name ∈ stars, Text.IsName name) :
    ∃ mask, Mask.parse (Text.written front closed stars) = .ok mask := by
  have hread : Readable stars := by
    intro name hname
    refine exists_parse_stars fun c hc => .inl ?_
    exact all_stars_of_isStars (hnames name hname) (hstars.2 name hname) c hc
  obtain ⟨masks, hmasks⟩ := hread.readAs
  exact ⟨_, Mask.parse_written hmasks⟩

section Laid

variable {closed front : Bool} {segments : List Segment} {names : List Text}

theorem FromWild.exists_parse (h : FromWild closed front segments names)
    (hnames : ∀ name ∈ names, Text.IsName name)
    (hcheck : ∀ text width, Segment.literal text width ∈ segments →
      ∃ mask, Mask.parse text = .ok mask) :
    ∃ mask, Mask.parse (Text.written front closed names) = .ok mask := by
  -- By induction on the segments: stars are always a mask, literals by `hcheck`,
  -- and masks one after another are a mask.
  induction h with
  | wild hstars => exact exists_parse_wild hstars hnames
  | @literal front stars plain hstars hplain =>
    obtain ⟨wild, hwild⟩ :=
      @exists_parse_wild front true _ hstars (List.forall_mem_append.1 hnames).1
    obtain ⟨mask, hmask⟩ := hcheck _ _ (List.mem_cons_of_mem _ List.mem_cons_self)
    refine ⟨wild ++ mask, ?_⟩
    have hcut : Text.written front closed (stars ++ plain) =
        Text.written front true stars ++ spell '/' closed plain := by
      rw [Text.written_append, List.isEmpty_eq_false_iff.2 hplain.1, Bool.not_false, Bool.or_true]
    rw [hcut]
    exact Mask.parse_append_ok hwild hmask
  | @more front stars plain names segments hstars hplain h ih =>
    obtain ⟨hnamesStars, hrest⟩ := List.forall_mem_append.1 hnames
    obtain ⟨hnamesPlain, hnamesRest⟩ := List.forall_mem_append.1 hrest
    obtain ⟨wild, hwild⟩ := @exists_parse_wild front true _ hstars hnamesStars
    obtain ⟨mask, hmask⟩ := hcheck _ _ (List.mem_cons_of_mem _ List.mem_cons_self)
    obtain ⟨others, hothers⟩ := ih hnamesRest fun text width hmem =>
      hcheck text width (List.mem_cons_of_mem _ (List.mem_cons_of_mem _ hmem))
    refine ⟨wild ++ (mask ++ others), ?_⟩
    have hcut : Text.written front closed (stars ++ (plain ++ names)) =
        Text.written front true stars ++ (spell '/' true plain ++
          Text.written false closed names) := by
      have hplainNe : (plain ++ names).isEmpty = false := by simp [hplain.1]
      have hnamesNe : names.isEmpty = false := List.isEmpty_eq_false_iff.2 h.names_ne_nil
      rw [Text.written_append, spell_append, hplainNe, hnamesNe, Bool.not_false, Bool.or_true,
        Text.written_false]
    rw [hcut]
    exact Mask.parse_append_ok hwild (Mask.parse_append_ok hmask hothers)

theorem Laid.exists_parse (h : Laid closed front segments names)
    (hnames : ∀ name ∈ names, Text.IsName name)
    (hcheck : ∀ text width, Segment.literal text width ∈ segments →
      ∃ mask, Mask.parse text = .ok mask) :
    ∃ mask, Mask.parse (Text.written front closed names) = .ok mask := by
  cases h with
  | literal hplain => exact hcheck _ _ List.mem_cons_self
  | @head plain names segments hplain h =>
    obtain ⟨mask, hmask⟩ := hcheck _ _ List.mem_cons_self
    obtain ⟨others, hothers⟩ := h.exists_parse (List.forall_mem_append.1 hnames).2
      fun text width hmem => hcheck text width (List.mem_cons_of_mem _ hmem)
    have hne : names.isEmpty = false := List.isEmpty_eq_false_iff.2 h.names_ne_nil
    refine ⟨mask ++ others, ?_⟩
    rw [Text.written_append, hne, Bool.not_false, Bool.or_true, ← Text.written_false]
    exact Mask.parse_append_ok hmask hothers
  | tail h => exact h.exists_parse hnames hcheck

end Laid

/-! ## A pattern that was read -/

section Read

variable {pattern : Text} {segments : List Segment}

theorem isName_of_names : ∀ name ∈ Text.names pattern, Text.IsName name :=
  fun _ hname => Text.isName_of_mem_names hname

theorem laid_of_read (h : read pattern = .ok segments) (hdouble : Text.Undoubled pattern)
    (hne : Text.names pattern ≠ []) :
    Laid (Text.closed pattern) (Text.opened pattern) segments (Text.names pattern) := by
  obtain ⟨rfl, -⟩ := read_eq_ok.1 h
  have hlaid := @laid_ofPattern (Text.opened pattern) (Text.closed pattern) _ hne isName_of_names
  rwa [Text.written_names hdouble] at hlaid

/-- A pattern with literals that are masks is one mask. -/
theorem exists_parse_of_read (h : read pattern = .ok segments) (hdouble : Text.Undoubled pattern)
    (hne : Text.names pattern ≠ []) : ∃ mask, Mask.parse pattern = .ok mask := by
  have hmask := (laid_of_read h hdouble hne).exists_parse isName_of_names fun text width hmem =>
    exists_parse_of_check (read_eq_ok.1 h).2 hmem
  rwa [Text.written_names hdouble] at hmask

/-- So where separators stand for themselves, its components are masks. -/
theorem readable_of_read (h : read pattern = .ok segments) (hdouble : Text.Undoubled pattern)
    (hstand : Mask.SeparatorsStand pattern) : Readable (Text.names pattern) := by
  by_cases hne : Text.names pattern = []
  · rw [hne]
    simp [Readable]
  · obtain ⟨mask, hmask⟩ := exists_parse_of_read h hdouble hne
    rw [← Text.written_names hdouble] at hmask hstand
    obtain ⟨masks, hmasks⟩ := Mask.readAs_of_parse_written hmask hstand
    exact .of_readAs hmasks

end Read

end Segment

end PathGlob
