/-
What is left of a path without the dots in front.

The run of dots and separators ends inside a name or at the end of the path. The
cut is made before the last separator of the run, so what is left is nothing, a
lone separator, or begins with a name that is more than dots, perhaps with a
separator before it (`withoutDots_cases`). This is why asking a tree for a path
never cuts off a name: the names that a tree or a pattern begins with are more
than dots.
-/
import Mathlib.Data.List.TakeWhile
import PathGlob.Lexical.Dots
import PathGlob.Proofs.Text.Spelling

set_option autoImplicit false

namespace PathGlob

namespace Text

/-- What stands before the last separator. -/
theorem parent_append (a : Text) {b : Text} (hb : '/' ∉ b) : parent (a ++ '/' :: b) = a := by
  rw [parent, components, List.splitOn_append_cons_self, List.splitOn_eq_singleton hb,
    List.dropLast_concat]
  exact join_components a

theorem parent_of_notMem {t : Text} (ht : '/' ∉ t) : parent t = [] := by
  rw [parent, components, List.splitOn_eq_singleton ht]
  rfl

/-- A text with a separator has a last one. -/
theorem exists_last_separator {t : Text} (h : '/' ∈ t) : ∃ a b, t = a ++ '/' :: b ∧ '/' ∉ b := by
  obtain ⟨b, a, hsplit, hb⟩ := List.eq_append_cons_of_mem (List.mem_reverse.2 h)
  refine ⟨a.reverse, b.reverse, ?_, by simpa using hb⟩
  rw [← List.reverse_reverse t, hsplit]
  simp

theorem parent_prefix (t : Text) : parent t <+: t := by
  by_cases hsep : '/' ∈ t
  · obtain ⟨a, b, rfl, hb⟩ := exists_last_separator hsep
    rw [parent_append a hb]
    exact List.prefix_append a _
  · rw [parent_of_notMem hsep]
    exact List.nil_prefix

theorem parent_ne_nil {a : Text} (hne : a ≠ []) (b : Text) : parent (a ++ '/' :: b) ≠ [] := by
  by_cases hsep : '/' ∈ b
  · obtain ⟨c, d, rfl, hd⟩ := exists_last_separator hsep
    have hsplit : a ++ '/' :: (c ++ '/' :: d) = (a ++ '/' :: c) ++ '/' :: d := by simp
    rw [hsplit, parent_append _ hd]
    simp
  · rwa [parent_append a hsep]

/-- What has no separator in it stays in front of the first component. -/
theorem components_append {a : Text} (ha : '/' ∉ a) (t : Text) :
    components (a ++ t) = (components t).modifyHead (a ++ ·) := by
  induction a with
  | nil =>
    cases hsplit : components t with
    | nil => exact hsplit
    | cons first rest => rw [List.nil_append, hsplit]; rfl
  | cons c a ih =>
    rw [List.mem_cons, not_or] at ha
    rw [components] at ih
    rw [List.cons_append, components, List.splitOn_cons_eq_if_modifyHead,
      if_neg (by simpa using Ne.symm ha.1), ih ha.2, List.modifyHead_modifyHead]
    rfl

end Text

namespace Lexical

/-! ## The run in front -/

/-- A name that is nothing but dots. -/
def IsDots (name : Text) : Prop := ∀ c ∈ name, c = '.'

instance (name : Text) : Decidable (IsDots name) :=
  List.decidableBAll (· = '.') name

theorem IsDots.notMem {dots : Text} (h : IsDots dots) : '/' ∉ dots :=
  fun hmem => absurd (h _ hmem) (by decide)

theorem IsDots.all_run {dots : Text} (h : IsDots dots) : ∀ d ∈ dots, isDotOrSeparator d = true := by
  intro d hd
  rw [h d hd]
  decide

theorem takeWhile_run {run tail : Text} (hrun : ∀ d ∈ run, isDotOrSeparator d = true)
    (htail : ∀ c ∈ tail.head?, isDotOrSeparator c = false) :
    (run ++ tail).takeWhile isDotOrSeparator = run := by
  rw [List.takeWhile_append_of_pos hrun]
  cases tail with
  | nil => simp
  | cons c rest => simp [htail c rfl]

/-- The run reaches into a name behind a separator: that separator stays. -/
theorem withoutDots_reach {a dots rest : Text} {c : Char}
    (hrun : ∀ d ∈ a ++ '/' :: dots, isDotOrSeparator d = true) (hdots : '/' ∉ dots)
    (hc : isDotOrSeparator c = false) :
    withoutDots (a ++ '/' :: dots ++ c :: rest) = '/' :: (dots ++ c :: rest) := by
  have htake := @takeWhile_run _ (c :: rest) hrun (by simpa using hc)
  have hlen : ((a ++ '/' :: dots).length == (a ++ '/' :: dots ++ c :: rest).length) = false := by
    simp
  rw [withoutDots, dotPart]
  rw [htake, hlen, Bool.false_and, if_neg (by simp), Text.parent_append a hdots, List.append_assoc,
    List.drop_left]
  rfl

/-- A path that begins with a name, however many dots it has in front, is left
as it is. -/
theorem withoutDots_name {dots rest : Text} {c : Char}
    (hrun : ∀ d ∈ dots, isDotOrSeparator d = true) (hdots : '/' ∉ dots)
    (hc : isDotOrSeparator c = false) : withoutDots (dots ++ c :: rest) = dots ++ c :: rest := by
  have htake := @takeWhile_run _ (c :: rest) hrun (by simpa using hc)
  have hlen : (dots.length == (dots ++ c :: rest).length) = false := by simp
  rw [withoutDots, dotPart]
  rw [htake, hlen, Bool.false_and, if_neg (by simp), Text.parent_of_notMem hdots]
  rfl

/-- A path that is all run goes, but for a separator at its end. -/
theorem withoutDots_all {run : Text} (hrun : ∀ d ∈ run, isDotOrSeparator d = true) :
    withoutDots run = if Text.closed run then ['/'] else [] := by
  have htake := @takeWhile_run run [] hrun (by simp)
  rw [List.append_nil] at htake
  rw [withoutDots, dotPart]
  rw [htake, beq_self_eq_true, Bool.true_and]
  cases hclosed : Text.closed run with
  | false =>
    rw [Bool.not_false, if_pos rfl, List.drop_length]
    rfl
  | true =>
    obtain ⟨a, rfl⟩ := Text.exists_of_closed hclosed
    rw [Bool.not_true, if_neg (by simp), Text.parent_append a (by simp), List.drop_left]
    rfl

/-- Where the cut is made does not depend on what follows the first character that is
neither a dot nor a separator. -/
theorem exists_dotPart (before : Text) :
    ∃ dots front, before = dots ++ front ∧ ∀ {c : Char} (rest : Text), isDotOrSeparator c = false →
      dotPart (before ++ c :: rest) = dots ∧ withoutDots (before ++ c :: rest) = front ++ c :: rest := by
  obtain ⟨front, hsplit⟩ : Text.parent (before.takeWhile isDotOrSeparator) <+: before :=
    (Text.parent_prefix _).trans (List.takeWhile_prefix _)
  refine ⟨_, front, hsplit.symm, fun {c} rest hc => ?_⟩
  have htake : (before ++ c :: rest).takeWhile isDotOrSeparator =
      before.takeWhile isDotOrSeparator := by
    rw [List.takeWhile_append, List.takeWhile_cons_of_neg (by simp [hc])]
    split
    · rename_i hall
      rw [(List.takeWhile_prefix isDotOrSeparator).eq_of_length hall, List.append_nil]
    · rfl
  have hshort : ((before.takeWhile isDotOrSeparator).length ==
      (before ++ c :: rest).length) = false := by
    have hle := (List.takeWhile_prefix (l := before) isDotOrSeparator).length_le
    rw [beq_eq_false_iff_ne, List.length_append, List.length_cons]
    omega
  have hdots : dotPart (before ++ c :: rest) =
      Text.parent (before.takeWhile isDotOrSeparator) := by
    rw [dotPart, htake, hshort, Bool.false_and, if_neg Bool.false_ne_true]
  refine ⟨hdots, ?_⟩
  rw [withoutDots, hdots]
  nth_rewrite 2 [← hsplit]
  rw [List.append_assoc, List.drop_left]

/-! ## What is left -/

/-- The text begins with a name that is more than dots. A separator may come
before it. -/
def Grounded (t : Text) : Prop :=
  ∃ (lead : Bool) (dots : Text) (c : Char) (rest : Text),
    t = (if lead then ['/'] else []) ++ (dots ++ c :: rest) ∧ IsDots dots ∧ c ≠ '.' ∧ c ≠ '/'

theorem isDots_of_run {dots : Text} (hrun : ∀ d ∈ dots, isDotOrSeparator d = true)
    (hdots : '/' ∉ dots) : IsDots dots := by
  intro d hd
  have hkind := hrun d hd
  rw [isDotOrSeparator, Bool.or_eq_true, beq_iff_eq, beq_iff_eq] at hkind
  rcases hkind with rfl | rfl
  · rfl
  · exact absurd hd hdots

theorem withoutDots_cases (t : Text) :
    withoutDots t = [] ∨ withoutDots t = ['/'] ∨ Grounded (withoutDots t) := by
  have hsplit := (List.takeWhile_append_dropWhile (p := isDotOrSeparator) (l := t)).symm
  have hrun : ∀ d ∈ t.takeWhile isDotOrSeparator, isDotOrSeparator d = true :=
    fun d hd => List.mem_takeWhile_imp hd
  have htail := List.head?_dropWhile_not isDotOrSeparator t
  generalize t.takeWhile isDotOrSeparator = run at hsplit hrun
  generalize t.dropWhile isDotOrSeparator = tail at hsplit htail
  subst hsplit
  cases tail with
  | nil =>
    rw [List.append_nil, withoutDots_all hrun]
    cases Text.closed run with
    | true => exact .inr (.inl rfl)
    | false => exact .inl rfl
  | cons c rest =>
    have hc : isDotOrSeparator c = false := by simpa using htail
    have hchar := hc
    rw [isDotOrSeparator, Bool.or_eq_false_iff, beq_eq_false_iff_ne, beq_eq_false_iff_ne] at hchar
    refine .inr (.inr ?_)
    -- A separator in the run belongs to what is left, whatever comes before it.
    by_cases hsep : '/' ∈ run
    · obtain ⟨a, dots, rfl, hdots⟩ := Text.exists_last_separator hsep
      rw [withoutDots_reach hrun hdots hc]
      refine ⟨true, dots, c, rest, rfl, isDots_of_run (fun d hd => hrun d ?_) hdots, hchar⟩
      exact List.mem_append_right _ (List.mem_cons_of_mem _ hd)
    · rw [withoutDots_name hrun hsep hc]
      exact ⟨false, run, c, rest, rfl, isDots_of_run hrun hsep, hchar⟩

/-- Such a text has no dots to hand over. -/
theorem withoutDots_eq_self {t : Text} (h : Grounded t) : withoutDots t = t := by
  obtain ⟨lead, dots, c, rest, rfl, hdots, hdot, hsep⟩ := h
  have hc : isDotOrSeparator c = false := by simp [isDotOrSeparator, hdot, hsep]
  cases lead with
  | false => exact withoutDots_name hdots.all_run hdots.notMem hc
  | true =>
    have hrun : ∀ d ∈ [] ++ '/' :: dots, isDotOrSeparator d = true :=
      List.forall_mem_cons.2 ⟨rfl, hdots.all_run⟩
    exact withoutDots_reach hrun hdots.notMem hc

/-- Dots and one more character are a name, or the front of one. -/
theorem isName_dots {dots : Text} {c : Char} (hdots : IsDots dots) (hc : c ≠ '/') :
    Text.IsName (dots ++ [c]) := by
  refine ⟨by simp, fun hmem => ?_⟩
  rcases List.mem_append.1 hmem with hmem | hmem
  · exact absurd (hdots _ hmem) (by decide)
  · exact hc (List.mem_singleton.1 hmem).symm

/-- The first name is more than dots. -/
theorem Grounded.exists_name {t : Text} (h : Grounded t) :
    ∃ name more, Text.names t = name :: more ∧ ¬ IsDots name := by
  obtain ⟨lead, dots, c, rest, rfl, hdots, hdot, hsep⟩ := h
  -- Up to `c` there is no separator, so the dots and `c` share a component.
  have hname := isName_dots hdots hsep
  have hcomponents : ∃ first others, Text.components (dots ++ c :: rest) =
      (dots ++ [c] ++ first) :: others := by
    have hcut := Text.components_append hname.2 rest
    rw [List.append_assoc, List.singleton_append] at hcut
    obtain ⟨first, others, hrest⟩ := List.exists_cons_of_ne_nil (List.splitOn_ne_nil '/' rest)
    refine ⟨first, others, ?_⟩
    rw [hcut, Text.components, hrest]
    rfl
  obtain ⟨first, others, hcomponents⟩ := hcomponents
  refine ⟨dots ++ [c] ++ first, others.filter (!·.isEmpty), ?_, ?_⟩
  · cases lead with
    | false =>
      rw [if_neg (by simp), List.nil_append, Text.names, hcomponents]
      simp
    | true =>
      rw [Text.components] at hcomponents
      rw [if_pos rfl, List.singleton_append, Text.names, Text.components,
        List.splitOn_cons_eq_if_modifyHead, if_pos (by simp), hcomponents]
      simp
  · intro hall
    exact hdot (hall c (by simp))

/-! ## What is handed over -/

theorem mem_of_mem_parent {t : Text} {c : Char} (h : c ∈ Text.parent t) : c ∈ t := by
  by_cases hsep : '/' ∈ t
  · obtain ⟨a, b, rfl, hb⟩ := Text.exists_last_separator hsep
    rw [Text.parent_append a hb] at h
    exact List.mem_append_left _ h
  · rw [Text.parent_of_notMem hsep] at h
    exact absurd h (by simp)

theorem all_dotPart (path : Text) : ∀ c ∈ dotPart path, isDotOrSeparator c = true := by
  have hrun : ∀ c ∈ path.takeWhile isDotOrSeparator, isDotOrSeparator c = true :=
    fun c hc => List.mem_takeWhile_imp hc
  intro c hc
  rw [dotPart] at hc
  split at hc
  · rename_i hwhole
    rw [Bool.and_eq_true, beq_iff_eq] at hwhole
    have hbegins := List.takeWhile_prefix (l := path) isDotOrSeparator
    rw [hbegins.eq_of_length hwhole.1] at hrun
    exact hrun c hc
  · exact hrun c (mem_of_mem_parent hc)

theorem dotPart_prefix (t : Text) : dotPart t <+: t := by
  rw [dotPart]
  split
  · exact List.prefix_rfl
  · exact (Text.parent_prefix _).trans (List.takeWhile_prefix _)

/-- The dots and what is left of the path make the path. -/
theorem dotPart_append (t : Text) : dotPart t ++ withoutDots t = t := by
  obtain ⟨rest, hrest⟩ := dotPart_prefix t
  have hdrop : withoutDots t = rest := by
    rw [withoutDots]
    nth_rewrite 2 [← hrest]
    exact List.drop_left
  rw [hdrop, hrest]

/-- The cut is made where a run of dots and separators comes to a separator, or at the
end of a path that is a run without a separator there. -/
theorem dotPart_cut (t : Text) : dotPart t = [] ∨ Text.opened (withoutDots t) = true ∨
    withoutDots t = [] ∧ Text.closed t = false := by
  have happend := dotPart_append t
  rw [dotPart] at happend ⊢
  split at happend
  · rename_i hwhole
    rw [Bool.and_eq_true, Bool.not_eq_true'] at hwhole
    exact .inr (.inr ⟨List.append_right_eq_self.1 happend, hwhole.2⟩)
  · rename_i hpart
    rw [if_neg hpart]
    by_cases hsep : '/' ∈ t.takeWhile isDotOrSeparator
    · obtain ⟨a, b, hrun, hb⟩ := Text.exists_last_separator hsep
      rw [hrun, Text.parent_append a hb] at happend
      obtain ⟨tail, htail⟩ := List.takeWhile_prefix (l := t) isDotOrSeparator
      rw [hrun, ← happend, List.append_assoc, List.append_cancel_left_eq] at htail
      refine .inr (.inl ?_)
      rw [← htail]
      rfl
    · exact .inl (Text.parent_of_notMem hsep)

/-- **Dots are handed over** exactly when a run that is not empty comes to a separator,
or to the end with no separator. -/
theorem dotPart_ne_nil_iff {t : Text} : dotPart t ≠ [] ↔ ∃ run rest, t = run ++ rest ∧ run ≠ [] ∧
    (∀ d ∈ run, isDotOrSeparator d = true) ∧
      (Text.opened rest = true ∨ rest = [] ∧ Text.closed t = false) := by
  constructor
  · intro hne
    refine ⟨dotPart t, withoutDots t, (dotPart_append t).symm, hne, all_dotPart t, ?_⟩
    exact (dotPart_cut t).resolve_left hne
  · rintro ⟨run, rest, rfl, hne, hall, hend⟩
    rw [dotPart]
    split
    · exact fun h => hne (List.append_eq_nil_iff.1 h).1
    · rename_i hpart
      rcases hend with hopened | ⟨rfl, hclosed⟩
      · obtain ⟨rest, rfl⟩ := Text.exists_of_opened hopened
        rw [List.takeWhile_append_of_pos hall, List.takeWhile_cons_of_pos (by decide)]
        exact Text.parent_ne_nil hne _
      · rw [List.append_nil] at hpart hclosed
        have hwhole : run.takeWhile isDotOrSeparator = run := List.takeWhile_eq_self_iff.2 hall
        rw [hwhole, beq_self_eq_true, hclosed] at hpart
        exact absurd rfl hpart

end Lexical

end PathGlob
