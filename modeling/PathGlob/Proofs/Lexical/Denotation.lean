/-
What a pattern and its root denote, before and after they are anchored.

The root and the pattern of a walk are made to be written one after the other. The path
that this gives leads where the given pattern leads from the given root, with the
wildcard for its closing separator. To see this, paths are followed as courses: whatever
is done to the separators between a root, the dots and the rest of a pattern, the
courses come one after the other in the same order (`of_joined`, `of_parted`,
`of_extendRoot`).

One root is joined otherwise. Behind a root that ends with a colon the dots of the
pattern are written with no separator between, and become part of the last name. What
they said is lost then, unless the pattern climbs above that name again without them:
`Glued` says exactly when the two paths differ.
-/
import PathGlob.Proofs.Lexical.Anchor

set_option autoImplicit false

namespace PathGlob

namespace Lexical

namespace Course

open Text (IsName)

/-! ## Separators between paths -/

/-- A separator at the end leads nowhere. -/
theorem of_close (path : Text) : of (path ++ ['/']) = of path := by
  rw [of_append, of_nil, append_here]

/-- Two paths with one separator or more between them, or the second of them empty. -/
theorem of_joined {front back : Text}
    (h : back = [] ∨ Text.opened back = true ∨ Text.closed front = true) :
    of (front ++ back) = of front ++ of back := by
  rcases h with rfl | hopened | hclosed
  · rw [List.append_nil, of_nil, append_here]
  · obtain ⟨rest, rfl⟩ := Text.exists_of_opened hopened
    rw [of_append, of_separator]
  · obtain ⟨path, rfl⟩ := Text.exists_of_closed hclosed
    rw [of_close, List.append_assoc, List.singleton_append, of_append]

/-- Behind a root a path leads by its dots first and then by what is left of it, unless
it has no dots and nothing divides it from the root. -/
theorem of_parted {root path : Text} (h : dotPart path ≠ [] ∨ Text.closed root = true) :
    of (root ++ path) = of (root ++ dotPart path) ++ of (withoutDots path) := by
  nth_rewrite 1 [← dotPart_append path]
  rw [← List.append_assoc]
  refine of_joined ?_
  rcases dotPart_cut path with hnone | hopened | ⟨hnil, -⟩
  · rw [hnone, List.append_nil]
    exact .inr (.inr (h.resolve_left (not_not.2 hnone)))
  · exact .inr (.inl hopened)
  · exact .inl hnil

theorem of_name {name : Text} (hname : IsName name) (hdot : name ≠ ['.']) (hup : name ≠ up) :
    of name = ⟨0, [name]⟩ := by
  rw [of, Text.components, List.splitOn_eq_singleton hname.2]
  show step here name = _
  rw [step_name here (not_or.2 ⟨hname.1, hdot⟩) hup]
  rfl

/-- Dots between separators are one step. -/
theorem of_dots (path : Text) {dots : Text} (hdots : '/' ∉ dots) :
    of (path ++ '/' :: dots) = (of path).step dots := by
  rw [of_append]
  nth_rewrite 2 [of]
  rw [Text.components, List.splitOn_eq_singleton hdots]
  show of path ++ step here dots = _
  rw [append_step, append_here]

/-- What is written behind a colon is written at the end of a name. -/
theorem exists_of_colon {root : Text} (h : root.getLast? = some ':') :
    ∃ (above : Course) (name : Text), of root = ⟨above.ups, above.names ++ [name]⟩ ∧
      ∀ dots, IsDots dots → of (root ++ dots) = ⟨above.ups, above.names ++ [name ++ dots]⟩ := by
  obtain ⟨front, rfl⟩ := List.getLast?_eq_some_iff.1 h
  -- With a colon in it no piece is blank or a climb.
  have hname : ∀ {last dots : Text}, '/' ∉ last → IsDots dots →
      of (last ++ [':'] ++ dots) = ⟨0, [last ++ [':'] ++ dots]⟩ := by
    intro last dots hlast hdots
    have hcolon : ':' ∈ last ++ [':'] ++ dots := by simp
    refine of_name ⟨List.ne_nil_of_mem hcolon, ?_⟩ ?_ ?_
    · simp [hlast, hdots.notMem]
    · intro heq
      rw [heq] at hcolon
      exact absurd hcolon (by decide)
    · intro heq
      rw [heq] at hcolon
      exact absurd hcolon (by decide)
  have hnil : IsDots [] := by simp [IsDots]
  by_cases hsep : '/' ∈ front
  · obtain ⟨path, last, rfl, hlast⟩ := Text.exists_last_separator hsep
    have hbehind : ∀ dots, IsDots dots → of (path ++ '/' :: last ++ [':'] ++ dots) =
        ⟨(of path).ups, (of path).names ++ [last ++ [':'] ++ dots]⟩ := by
      intro dots hdots
      have hassoc : path ++ '/' :: last ++ [':'] ++ dots = path ++ '/' :: (last ++ [':'] ++ dots) := by
        simp
      rw [hassoc, of_append, hname hlast hdots]
      show (⟨(of path).ups + (0 - (of path).names.length),
        (of path).names.take ((of path).names.length - 0) ++ _⟩ : Course) = _
      simp
    refine ⟨of path, last ++ [':'], ?_, hbehind⟩
    have hself := hbehind [] hnil
    rwa [List.append_nil, List.append_nil] at hself
  · refine ⟨here, front ++ [':'], ?_, fun dots hdots => hname hsep hdots⟩
    have hself := hname hsep hnil
    rwa [List.append_nil] at hself

/-! ## Courses that part -/

/-- Two courses that go down unlike far lead to different places, whatever comes after
them, unless it climbs above both and there is a root above. -/
theorem kept_append_eq_iff {a b : Course} (hups : a.ups = b.ups)
    (hlength : a.names.length ≠ b.names.length) (c : Course) (rooted : Bool) :
    (a ++ c).kept rooted = (b ++ c).kept rooted ↔
      rooted = true ∧ a.names.length ≤ c.ups ∧ b.names.length ≤ c.ups := by
  rw [kept, kept, mk.injEq, names_append, names_append, List.append_cancel_right_eq, ups_append,
    ups_append]
  constructor
  · rintro ⟨hclimb, hnames⟩
    have hcount := congrArg List.length hnames
    rw [List.length_take, List.length_take] at hcount
    have habove : a.names.length ≤ c.ups ∧ b.names.length ≤ c.ups := by omega
    refine ⟨?_, habove⟩
    by_contra hrooted
    rw [if_neg hrooted, if_neg hrooted] at hclimb
    omega
  · rintro ⟨rfl, ha, hb⟩
    rw [Nat.sub_eq_zero_of_le ha, Nat.sub_eq_zero_of_le hb]
    exact ⟨rfl, rfl⟩

/-- Two courses that differ in their last name lead to the same place as soon as what
comes after them climbs. -/
theorem kept_append_last_iff {ups : Nat} {names : List Text} {a b : Text} (hne : a ≠ b)
    (c : Course) (rooted : Bool) :
    ((⟨ups, names ++ [a]⟩ : Course) ++ c).kept rooted =
      ((⟨ups, names ++ [b]⟩ : Course) ++ c).kept rooted ↔ c.ups ≠ 0 := by
  rw [kept, kept, mk.injEq, names_append, names_append, List.append_cancel_right_eq, ups_append,
    ups_append, List.length_append, List.length_append, List.length_singleton, List.length_singleton]
  constructor
  · rintro ⟨-, hnames⟩ hzero
    rw [hzero, Nat.sub_zero, List.take_of_length_le (by simp), List.take_of_length_le (by simp),
      List.append_cancel_left_eq, List.singleton_inj] at hnames
    exact hne hnames
  · intro hclimb
    have hshort : names.length + 1 - c.ups ≤ names.length := by omega
    rw [List.take_append_of_le_length hshort, List.take_append_of_le_length hshort]
    exact ⟨rfl, rfl⟩

end Course

/-! ## Dots behind a colon -/

/-- The dots in front of a run, with the separator that ends them. -/
theorem exists_dots {run : Text} (hrun : ∀ d ∈ run, isDotOrSeparator d = true) :
    ∃ dots rest, run = dots ++ rest ∧ IsDots dots ∧ (rest = [] ∨ Text.opened rest = true) := by
  induction run with
  | nil => exact ⟨[], [], rfl, by simp [IsDots], .inl rfl⟩
  | cons c run ih =>
    obtain ⟨hc, hrest⟩ := List.forall_mem_cons.1 hrun
    obtain ⟨dots, rest, rfl, hdots, hends⟩ := ih hrest
    rw [isDotOrSeparator, Bool.or_eq_true, beq_iff_eq, beq_iff_eq] at hc
    rcases hc with rfl | rfl
    · exact ⟨'.' :: dots, rest, rfl, List.forall_mem_cons.2 ⟨rfl, hdots⟩, hends⟩
    · exact ⟨[], '/' :: (dots ++ rest), rfl, by simp [IsDots], .inr rfl⟩

/-- A path hands over dots with no separator before them when it begins with them. -/
theorem dots_first_iff {path : Text} : dotPart path ≠ [] ∧ Text.opened (dotPart path) = false ↔
    ∃ dots rest, path = dots ++ rest ∧ dots ≠ [] ∧ IsDots dots ∧
      (rest = [] ∨ Text.opened rest = true) := by
  constructor
  · rintro ⟨hne, hopened⟩
    obtain ⟨dots, more, hsplit, hdots, hends⟩ := exists_dots (all_dotPart path)
    have hcut := (dotPart_cut path).resolve_left hne
    have hpath : path = dots ++ (more ++ withoutDots path) := by
      rw [← List.append_assoc, ← hsplit, dotPart_append]
    refine ⟨dots, _, hpath, ?_, hdots, ?_⟩
    · rintro rfl
      rw [hsplit, List.nil_append] at hne hopened
      rw [hends.resolve_left hne] at hopened
      exact absurd hopened (by decide)
    · rcases hends with rfl | hsep
      · exact hcut.symm.imp And.left id
      · obtain ⟨rest, rfl⟩ := Text.exists_of_opened hsep
        exact .inr rfl
  · rintro ⟨dots, rest, rfl, hne, hdots, hends⟩
    have hname : Text.IsName dots := ⟨hne, hdots.notMem⟩
    refine ⟨?_, ?_⟩
    · refine dotPart_ne_nil_iff.2
        ⟨dots, rest, rfl, hne, hdots.all_run, hends.symm.imp_right fun hnil => ⟨hnil, ?_⟩⟩
      rw [hnil, List.append_nil]
      exact Text.closed_name hname
    · have hopened := Text.opened_append hname rest
      rw [← dotPart_append (dots ++ rest)] at hopened
      exact Text.opened_left hopened

/-- The dots in front of a path are lost behind a root: the root ends with a colon, and
what follows the dots does not climb as far as they made a difference. One dot makes a
difference to the last name of the root, two dots take that name back, and more are a
name of their own. -/
structure Glued (root dots rest : Text) : Prop where
  colon : root.getLast? = some ':'
  ne_nil : dots ≠ []
  isDots : IsDots dots
  ends : rest = [] ∨ Text.opened rest = true
  stays : dots = ['.'] → (Course.of rest).ups = 0
  within : Text.opened root = true →
    (Course.of rest).ups < (Course.of root).names.length + if dots = up then 0 else 1

section Glue

variable {root dots rest : Text} (hcolon : root.getLast? = some ':') (hne : dots ≠ [])
  (hdots : IsDots dots) (hends : rest = [] ∨ Text.opened rest = true)

include hcolon hne hdots hends

/-- **Behind a colon** the dots of a path are read as they should be exactly when they
are not lost. -/
theorem clean_behind_colon :
    clean (root ++ (dots ++ rest)) = clean (root ++ '/' :: (dots ++ rest)) ↔
      ¬ Glued root dots rest := by
  have hroot : root ≠ [] := by
    rintro rfl
    exact absurd hcolon (by simp)
  obtain ⟨above, name, hof, hbehind⟩ := Course.exists_of_colon hcolon
  have hbefore : Course.of (root ++ (dots ++ rest)) =
      (⟨above.ups, above.names ++ [name ++ dots]⟩ : Course) ++ Course.of rest := by
    rw [← List.append_assoc, Course.of_joined (hends.imp_right .inl), hbehind dots hdots]
  have hafter : Course.of (root ++ '/' :: (dots ++ rest)) =
      (⟨above.ups, above.names ++ [name]⟩ : Course).step dots ++ Course.of rest := by
    have hassoc : root ++ '/' :: (dots ++ rest) = root ++ '/' :: dots ++ rest := by simp
    rw [hassoc, Course.of_joined (hends.imp_right .inl), Course.of_dots root hdots.notMem, hof]
  have hglued : Glued root dots rest ↔ (dots = ['.'] → (Course.of rest).ups = 0) ∧
      (Text.opened root = true →
        (Course.of rest).ups < above.names.length + 1 + if dots = up then 0 else 1) := by
    have hlength : (Course.of root).names.length = above.names.length + 1 := by
      rw [hof]
      simp
    rw [← hlength]
    exact ⟨fun h => ⟨h.stays, h.within⟩, fun ⟨hstays, hwithin⟩ =>
      ⟨hcolon, hne, hdots, hends, hstays, hwithin⟩⟩
  rw [hglued, clean_eq_clean_iff, opened_append_of_ne_nil hroot, opened_append_of_ne_nil hroot,
    hbefore, hafter, eq_self, true_and]
  generalize Text.opened root = rooted
  generalize Course.of rest = course
  -- The name that took the dots in comes to where one dot leaves the name, two dots take it
  -- back, and more dots put another name behind it.
  by_cases hone : dots = ['.']
  · subst hone
    have hother : name ++ ['.'] ≠ name := by simp
    rw [Course.step_of_blank _ (.inr rfl), Course.kept_append_last_iff hother, if_neg (by decide)]
    exact not_congr ⟨fun hstays => ⟨fun _ => hstays, fun _ => by omega⟩, fun h => h.1 rfl⟩
  · by_cases hup : dots = up
    · subst hup
      have hback : (⟨above.ups, above.names ++ [name]⟩ : Course).step up = above := by
        rw [Course.step_up, if_neg (by simp), List.dropLast_concat]
      have hparts := @Course.kept_append_eq_iff ⟨above.ups, above.names ++ [name ++ up]⟩ above rfl
        (by simp) course rooted
      rw [hback, hparts, if_pos rfl]
      simp only [hone, false_imp_iff, true_and, Classical.not_imp, List.length_append,
        List.length_singleton]
      refine and_congr_right fun _ => ?_
      omega
    · have hparts := @Course.kept_append_eq_iff ⟨above.ups, above.names ++ [name ++ dots]⟩
        ⟨above.ups, above.names ++ [name] ++ [dots]⟩ rfl (by simp) course rooted
      rw [Course.step_name _ (not_or.2 ⟨hne, hone⟩) hup, hparts, if_neg hup]
      simp only [hone, false_imp_iff, true_and, Classical.not_imp, List.length_append,
        List.length_singleton]
      refine and_congr_right fun _ => ?_
      omega

end Glue

end Lexical

namespace Anchored

open Lexical (Course Glued clean dotPart withoutDots)

/-! ## The root with the dots -/

/-- The pattern may be written behind its root. -/
theorem clean_joined (pattern : Text) {base : Text} (hne : base ≠ []) :
    clean (closeRoot pattern base ++ pattern) = clean (base ++ '/' :: pattern) := by
  rw [closeRoot]
  split
  · rename_i hjoined
    rw [Bool.or_eq_true, Bool.or_eq_true, List.isEmpty_iff, or_assoc] at hjoined
    rw [Lexical.clean_eq_clean_iff, Lexical.opened_append_of_ne_nil hne,
      Lexical.opened_append_of_ne_nil hne, Course.of_joined hjoined, Course.of_append]
    exact ⟨rfl, rfl⟩
  · rw [List.append_assoc, List.singleton_append]

/-- The root as the pattern extends it, before it is cleaned. -/
def extended (root path : Text) : Text :=
  if (dotPart path).isEmpty then root else extendRoot root (dotPart path)

theorem exists_extended (root path : Text) : ∃ more, extended root path = root ++ more := by
  rw [extended, extendRoot]
  split
  · exact ⟨[], (List.append_nil root).symm⟩
  · split
    · exact ⟨_, rfl⟩
    · split
      · exact ⟨_, rfl⟩
      · exact ⟨_, List.append_assoc _ _ _⟩

/-- **An anchored pattern** behind its root is what is left of the pattern behind the
extended root. -/
theorem clean_of (pattern : Text) {root : Text} (hne : root ≠ []) :
    clean ((of pattern root).root ++ (of pattern root).pattern) =
      clean (extended root (withEverythingBelow pattern) ++
        '/' :: withoutDots (withEverythingBelow pattern)) := by
  obtain ⟨more, hmore⟩ := exists_extended root (withEverythingBelow pattern)
  have hextended : extended root (withEverythingBelow pattern) ≠ [] := by
    rw [hmore]
    exact fun h => hne (List.append_eq_nil_iff.1 h).1
  have hjoined := clean_joined (withoutDots (withEverythingBelow pattern))
    (Lexical.clean_ne_nil (extended root (withEverythingBelow pattern)))
  rw [Lexical.clean_append hextended] at hjoined
  exact hjoined

/-- Unless dots come behind a colon, the root is extended with a separator between. -/
theorem of_extendRoot {root dots : Text} (hne : root ≠ [])
    (h : Text.opened dots = true ∨ root.getLast? ≠ some ':') :
    Course.of (extendRoot root dots) = Course.of (root ++ '/' :: dots) := by
  rw [extendRoot]
  split
  · rename_i hopened
    obtain ⟨rest, rfl⟩ := Text.exists_of_opened hopened
    rw [Course.of_append root, Course.of_separator]
    split
    · rename_i hclosed
      exact Course.of_joined (.inr (.inr hclosed))
    · exact Course.of_append root rest
  · rename_i hopened
    have hcolon := h.resolve_left hopened
    split
    · rename_i hjoined
      have hclosed : Text.closed root = true := by simpa [hne, hcolon] using hjoined
      rw [Course.of_joined (.inr (.inr hclosed)), Course.of_append]
    · rw [List.append_assoc, List.singleton_append]

variable (pattern : Text) {root : Text}

/-- **A pattern without dots to lose** denotes under its root what it denoted before. -/
theorem clean_of_eq (hne : root ≠ [])
    (h : dotPart (withEverythingBelow pattern) = [] ∨
      Text.opened (dotPart (withEverythingBelow pattern)) = true ∨ root.getLast? ≠ some ':') :
    clean ((of pattern root).root ++ (of pattern root).pattern) =
      clean (root ++ '/' :: withEverythingBelow pattern) := by
  obtain ⟨more, hmore⟩ := exists_extended root (withEverythingBelow pattern)
  have hcourse : Course.of (extended root (withEverythingBelow pattern)) =
      Course.of (root ++ '/' :: dotPart (withEverythingBelow pattern)) := by
    rw [extended]
    split
    · rename_i hnone
      rw [List.isEmpty_iff.1 hnone, Course.of_close]
    · rename_i hsome
      exact of_extendRoot hne (h.resolve_left (by simpa using hsome))
  have hparted := @Course.of_parted (root ++ ['/']) (withEverythingBelow pattern)
    (.inr (by rw [Text.closed_append (by simp)]; rfl))
  rw [List.append_assoc, List.append_assoc, List.singleton_append, List.singleton_append,
    ← hcourse] at hparted
  rw [clean_of pattern hne, Lexical.clean_eq_clean_iff, hparted, Course.of_append, hmore,
    List.append_assoc, Lexical.opened_append_of_ne_nil hne, Lexical.opened_append_of_ne_nil hne]
  exact ⟨rfl, rfl⟩

/-- Behind a colon a pattern that begins with dots is joined as it stands. -/
theorem clean_of_glued (hcolon : root.getLast? = some ':')
    (hdots : dotPart (withEverythingBelow pattern) ≠ [])
    (hopened : Text.opened (dotPart (withEverythingBelow pattern)) = false) :
    clean ((of pattern root).root ++ (of pattern root).pattern) =
      clean (root ++ withEverythingBelow pattern) := by
  have hne : root ≠ [] := by
    rintro rfl
    exact absurd hcolon (by simp)
  have hextended : extended root (withEverythingBelow pattern) =
      root ++ dotPart (withEverythingBelow pattern) := by
    rw [extended, if_neg (by simpa using hdots), extendRoot, hopened, if_neg Bool.false_ne_true,
      hcolon, if_pos (by simp)]
  -- The dots part from the rest as they do behind a separator.
  rw [clean_of pattern hne, hextended, Lexical.clean_eq_clean_iff, Course.of_append,
    Course.of_parted (.inl hdots), List.append_assoc, Lexical.opened_append_of_ne_nil hne, Lexical.opened_append_of_ne_nil hne]
  exact ⟨rfl, rfl⟩

/-- **Anchoring a pattern** does not change what it denotes, unless its dots are lost
behind a colon. -/
theorem clean_of_iff (hne : root ≠ []) :
    clean ((of pattern root).root ++ (of pattern root).pattern) =
        clean (root ++ '/' :: (pattern ++ if Text.closed pattern then ['*', '*'] else [])) ↔
      ¬ ∃ dots rest, pattern ++ (if Text.closed pattern then ['*', '*'] else []) = dots ++ rest ∧
        Glued root dots rest := by
  have hbelow : pattern ++ (if Text.closed pattern then ['*', '*'] else []) =
      withEverythingBelow pattern := by
    rw [withEverythingBelow]
    split
    · rfl
    · exact List.append_nil pattern
  rw [hbelow]
  by_cases hfirst : dotPart (withEverythingBelow pattern) ≠ [] ∧
      Text.opened (dotPart (withEverythingBelow pattern)) = false
  · by_cases hcolon : root.getLast? = some ':'
    · rw [clean_of_glued pattern hcolon hfirst.1 hfirst.2]
      obtain ⟨dots, rest, hsplit, hdots, hall, hends⟩ := Lexical.dots_first_iff.1 hfirst
      -- Wherever the pattern is cut behind its dots, the two paths agree or differ alike.
      constructor
      · rintro hdenotes ⟨dots', rest', hsplit', hglued⟩
        rw [hsplit', Lexical.clean_behind_colon hcolon hglued.ne_nil hglued.isDots
          hglued.ends] at hdenotes
        exact hdenotes hglued
      · intro hkept
        rw [hsplit, Lexical.clean_behind_colon hcolon hdots hall hends]
        exact fun hglued => hkept ⟨dots, rest, hsplit, hglued⟩
    · refine iff_of_true (clean_of_eq pattern hne (.inr (.inr hcolon))) ?_
      rintro ⟨_, _, _, hglued⟩
      exact hcolon hglued.colon
  · have hkept : dotPart (withEverythingBelow pattern) = [] ∨
        Text.opened (dotPart (withEverythingBelow pattern)) = true := by
      rwa [not_and_or, not_not, Bool.not_eq_false] at hfirst
    refine iff_of_true (clean_of_eq pattern hne (hkept.imp_right .inl)) ?_
    rintro ⟨dots, rest, hsplit, hglued⟩
    exact hfirst (Lexical.dots_first_iff.2
      ⟨dots, rest, hsplit, hglued.ne_nil, hglued.isDots, hglued.ends⟩)

/-- The dots of a pattern lead up from a root that ends with a name. -/
theorem clean_of_iff_name : "d/e".toList ≠ [] ∧
    clean ((of "../x".toList "d/e".toList).root ++ (of "../x".toList "d/e".toList).pattern) =
      clean ("d/e".toList ++ '/' ::
        ("../x".toList ++ if Text.closed "../x".toList then ['*', '*'] else [])) :=
  ⟨by decide, (clean_of_iff "../x".toList (by decide)).2 (by
    rintro ⟨_, _, _, hglued⟩
    exact absurd hglued.colon (by decide))⟩

/-- Behind a colon the same dots are the end of a name. -/
theorem clean_of_colon : "d/e:".toList ≠ [] ∧
    clean ((of "../x".toList "d/e:".toList).root ++ (of "../x".toList "d/e:".toList).pattern) ≠
      clean ("d/e:".toList ++ '/' ::
        ("../x".toList ++ if Text.closed "../x".toList then ['*', '*'] else [])) := by
  decide +kernel

end Anchored

end PathGlob
