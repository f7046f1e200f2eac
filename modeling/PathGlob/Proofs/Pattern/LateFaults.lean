/-
What a match can still find wrong with a pattern that has been read.

Reading a pattern reads each of its literals as a mask. A match reads a text that
nobody has read before in one place only: in front of a last wildcard, where the
window ends the name, the literal is held against it without the separator that
closes it. Mostly what is left is the mask without its last item. But the separator
can be a part of that item, and then a backslash is left with nothing behind it
(`parse_front`). No class can be cut open in this way, since a class ends with its
bracket.

Which windows a literal is held against is said apart from what comes of it (`Tries`).
A match is malformed where one of them is, and the first such window is the one that
counts, since no window is tried behind it.
-/
import Mathlib
import PathGlob.Proofs.Pattern.Cuts

set_option autoImplicit false

namespace PathGlob

/-! ## Masks without their last character -/

namespace Mask

variable {item : MaskItem} {used front : Text} {mask : Mask}

/-- An item ends with a separator only if it is the separator, escaped or not. -/
theorem ItemText.eq_of_closed (h : ItemText used item) (hclosed : Text.closed used = true) :
    used = ['/'] ∨ used = ['\\', '/'] := by
  have hlast : ∀ (front : Text) (c : Char), Text.closed (front ++ [c]) = true → c = '/' := by
    intro front c hend
    rw [Text.closed_append (by simp)] at hend
    simpa [Text.closed] using hend
  -- A class ends with its bracket, and a wildcard is one character.
  cases h with
  | star => exact absurd (hlast [] _ hclosed) (by decide)
  | any => exact absurd (hlast [] _ hclosed) (by decide)
  | @plain c => exact .inl (by rw [hlast [] _ hclosed])
  | escaped c => exact .inr (by rw [hlast ['\\'] _ hclosed])
  | @oneOf texts => exact absurd (hlast ('[' :: texts.flatten) _ hclosed) (by decide)
  | @noneOf texts => exact absurd (hlast ('[' :: '^' :: texts.flatten) _ hclosed) (by decide)

/-- **What is left of a mask without the separator at its end** is a mask, or it
ends with the backslash that had escaped the separator. -/
theorem parse_front (h : parse (front ++ ['/']) = .ok mask) :
    (∃ mask', parse front = .ok mask') ∧ (itemTexts (front ++ ['/'])).getLast? = some ['/'] ∨
      parse front = .error .danglingEscape ∧
        (itemTexts (front ++ ['/'])).getLast? = some ['\\', '/'] := by
  induction hlen : front.length using Nat.strongRecOn generalizing front mask with
  | ind n ih =>
    obtain ⟨item, used, rest, mask', hused, htext, rfl, hrest⟩ := exists_itemText h (by simp)
    have hread := hused.readFrom
    rcases List.eq_nil_or_concat' rest with rfl | ⟨rest, last, rfl⟩
    · -- The last item goes with the separator.
      have hclosed : Text.closed used = true := by
        rw [← List.append_nil used, ← htext]
        simp [Text.closed]
      rw [List.append_nil] at htext
      rcases hused.eq_of_closed hclosed with rfl | rfl
      · obtain rfl : front = [] := by simpa using htext
        exact .inl ⟨⟨[], by rw [parse]⟩, by simp [itemTexts]⟩
      · obtain ⟨rfl, -⟩ := List.append_inj' (show front ++ ['/'] = ['\\'] ++ ['/'] from htext) rfl
        exact .inr ⟨by rw [parse], by simp [itemTexts]⟩
    · obtain ⟨rfl, hlast⟩ := List.append_inj' (htext.trans (List.append_assoc _ _ _).symm) rfl
      obtain rfl := List.singleton_inj.1 hlast.symm
      have hpos := List.length_pos_iff.2 hread.ne_nil
      have hpieces : ∀ {piece}, (itemTexts (rest ++ ['/'])).getLast? = some piece →
          (used :: itemTexts (rest ++ ['/'])).getLast? = some piece := by
        intro piece hpiece
        rw [List.getLast?_cons, hpiece]
        rfl
      rw [List.length_append] at hlen
      rw [hread.parse_append, List.append_assoc, hread.itemTexts_append]
      rcases ih rest.length (by omega) hrest rfl with ⟨⟨left, hleft⟩, hpiece⟩ | ⟨hfault, hpiece⟩
      · exact .inl ⟨⟨item :: left, by rw [hleft]; rfl⟩, hpieces hpiece⟩
      · exact .inr ⟨by rw [hfault]; rfl, hpieces hpiece⟩

end Mask

namespace Segment

open Text (byteSize byteMarks)

variable {name text : Text} {segments rest : List Segment} {cursor : Nat} {w : Window}
  {e : MalformedMask}

/-! ## Windows that are tried -/

/-- The match of the name against the segments holds this literal, which the rest
follows, against this window. -/
inductive Tries (name : Text) (segments : List Segment) (text : Text) (rest : List Segment)
    (w : Window) : Prop
  /-- A literal in front is held against the first window. -/
  | head {width : Nat} (hsegments : segments = .literal text width :: rest)
      (hfront : Text.opened text = Text.opened name)
      (hfirst : Window.first (byteMarks name) 0 width = some w)
  /-- A search holds a literal against a window if it fits none in front of it. -/
  | search {cursor width : Nat} {stars : Text} {before after : List Window}
      (harrives : Arrives name segments cursor (.wild stars :: .literal text width :: rest))
      (hwindows : Window.all name cursor width = before ++ w :: after)
      (hbefore : ∀ v ∈ before, fitsWindow name text rest v = .ok false)

/-- The literal is a segment in front of the others. -/
theorem Tries.suffix (h : Tries name segments text rest w) :
    ∃ width, .literal text width :: rest <:+ segments := by
  cases h with
  | @head width hsegments _ _ => exact ⟨width, by rw [hsegments]⟩
  | @search cursor width stars _ _ harrives _ _ =>
    exact ⟨width, (List.suffix_cons (Segment.wild stars) _).trans harrives.suffix⟩

/-- There is no window in an empty name. -/
theorem Tries.ne_nil (h : Tries name segments text rest w) : name ≠ [] := by
  rintro rfl
  cases h with
  | head _ _ hfirst => simp [Window.first, byteMarks, cross] at hfirst
  | search _ hwindows _ => simp [Window.all, Window.first, byteMarks, cross] at hwindows

theorem Tries.windowCuts (h : Tries name segments text rest w) (hcuts : CutsHold name segments) :
    WindowCuts name text rest w := by
  cases h with
  | head hsegments _ hfirst => exact hcuts.head hsegments hfirst
  | search harrives hwindows _ => exact hcuts.search harrives (by rw [hwindows]; simp)

theorem searchWindows_cons_error {fault : MatchFault} {ws : List Window} :
    searchWindows name text rest (w :: ws) = .error fault ↔
      fitsWindow name text rest w = .error fault ∨
        fitsWindow name text rest w = .ok false ∧
          searchWindows name text rest ws = .error fault := by
  cases hfits : fitsWindow name text rest w with
  | error other =>
    rw [searchWindows, hfits]
    simp [bind, Except.bind]
  | ok b =>
    rw [searchWindows_cons w ws hfits]
    cases b <;> simp

/-- A search has the fault of the first window that does not let it go on. -/
theorem searchWindows_eq_error {fault : MatchFault} {ws : List Window} :
    searchWindows name text rest ws = .error fault ↔ ∃ before w after, ws = before ++ w :: after ∧
      (∀ v ∈ before, fitsWindow name text rest v = .ok false) ∧
      fitsWindow name text rest w = .error fault := by
  induction ws with
  | nil => simp [searchWindows]
  | cons first ws ih =>
    rw [searchWindows_cons_error, ih]
    constructor
    · rintro (hfault | ⟨hfirst, before, w, after, rfl, hbefore, hfault⟩)
      · exact ⟨[], first, ws, rfl, by simp, hfault⟩
      · exact ⟨first :: before, w, after, rfl, List.forall_mem_cons.2 ⟨hfirst, hbefore⟩, hfault⟩
    · rintro ⟨before, w, after, hws, hbefore, hfault⟩
      cases before with
      | nil =>
        obtain ⟨rfl, -⟩ := List.cons.inj hws
        exact .inl hfault
      | cons v before =>
        obtain ⟨rfl, rfl⟩ := List.cons.inj hws
        rw [List.forall_mem_cons] at hbefore
        exact .inr ⟨hbefore.1, before, w, after, rfl, hbefore.2, hfault⟩

/-! ## Where a match is malformed -/

/-- A window with a fault is where the match ends. -/
theorem Tries.matchMany_eq (h : Tries name segments text rest w) {fault : MatchFault}
    (hfault : fitsWindow name text rest w = .error fault) :
    matchMany name segments = .error fault := by
  cases h with
  | head hsegments hfront hfirst =>
    rw [hsegments, matchMany, if_neg (by simpa using hfront), hfirst]
    dsimp only
    rw [hfault]
    rfl
  | search harrives hwindows hbefore =>
    rw [harrives.matchMany_eq (by simp), matchFrom,
      searchWindows_eq_error.2 ⟨_, w, _, hwindows, hbefore, hfault⟩]
    rfl

/-- One step after another has a fault only if one of them has. -/
theorem bind_ne_error {ε α β : Type} {fault : ε} {x : Except ε α} {f : α → Except ε β}
    (hx : x ≠ .error fault) (hf : ∀ a, f a ≠ .error fault) : (x >>= f) ≠ .error fault := by
  cases x with
  | error other =>
    intro h
    exact hx (congrArg Except.error (Except.error.inj h))
  | ok a => exact hf a

/-- The last wildcard reads no mask. -/
theorem matchTail_ne_malformed {stars : Text} :
    matchTail name stars cursor ≠ .error (.malformed e) := by
  have hback : ∀ pos, stepBack pos ≠ .error (.malformed e) := by
    intro pos
    cases pos <;> simp [stepBack]
  have hcut : ∀ lo hi, cutOut name lo hi ≠ .error (.malformed e) := by
    intro lo hi
    rw [cutOut]
    cases Text.slice name lo hi <;> simp
  have hrest : ∀ pos, (cutOut name pos (byteSize name) >>= fun part => (pure
      (allowsRest (Text.opened stars) (Text.closed stars) part) : Except MatchFault Bool)) ≠
        .error (.malformed e) :=
    fun pos => bind_ne_error (hcut pos _) (by simp [pure, Except.pure])
  rw [matchTail]
  dsimp only
  split
  · exact bind_ne_error (hback cursor) hrest
  · exact hrest cursor

/-- **From a wildcard on** a match is malformed where a window is that it tries. -/
theorem matchFrom_malformed (hrest : Alternating rest)
    (harrives : Arrives name segments cursor rest)
    (hbad : matchFrom name cursor rest = .error (.malformed e)) :
    ∃ text rest w, Tries name segments text rest w ∧
      fitsWindow name text rest w = .error (.malformed e) := by
  -- A search with a fault has it from a window. One that finds a window leads on
  -- to the segments behind.
  have hsearch : ∀ {cursor : Nat} {stars text : Text} {width : Nat} {rest : List Segment},
      Arrives name segments cursor (.wild stars :: .literal text width :: rest) →
      searchWindows name text rest (Window.all name cursor width) = .error (.malformed e) →
      ∃ text rest w, Tries name segments text rest w ∧
        fitsWindow name text rest w = .error (.malformed e) := by
    intro cursor stars text width rest harrives hfault
    obtain ⟨before, w, after, hwindows, hbefore, hw⟩ := searchWindows_eq_error.1 hfault
    exact ⟨text, rest, w, .search harrives hwindows hbefore, hw⟩
  induction hrest generalizing cursor with
  | wild stars => exact absurd hbad matchTail_ne_malformed
  | literal stars text width =>
    cases hfound : searchWindows name text [] (Window.all name cursor width) with
    | error fault =>
      rw [matchFrom, hfound] at hbad
      obtain rfl := Except.error.inj hbad
      exact hsearch harrives hfound
    | ok found =>
      cases found with
      | none =>
        rw [matchFrom_of_none hfound] at hbad
        cases hbad
      | some stop =>
        rw [matchFrom_of_last hfound] at hbad
        cases hbad
  | @more stars text width rest hrest ih =>
    cases hfound : searchWindows name text rest (Window.all name cursor width) with
    | error fault =>
      rw [matchFrom, hfound] at hbad
      obtain rfl := Except.error.inj hbad
      exact hsearch harrives hfound
    | ok found =>
      cases found with
      | none =>
        rw [matchFrom_of_none hfound] at hbad
        cases hbad
      | some stop =>
        rw [matchFrom_of_some hrest.ne_nil hfound] at hbad
        exact ih (harrives.literal hfound) hbad

/-- **A match is malformed** exactly where a window is that it tries. -/
theorem matchMany_malformed_iff (hcases : Alternating segments ∨ ∃ text width rest,
      segments = .literal text width :: rest ∧ Alternating rest) :
    matchMany name segments = .error (.malformed e) ↔ ∃ text rest w,
      Tries name segments text rest w ∧ fitsWindow name text rest w = .error (.malformed e) := by
  refine ⟨fun hbad => ?_, fun ⟨text, rest, w, htries, hfault⟩ => htries.matchMany_eq hfault⟩
  rcases hcases with hwild | ⟨text, width, rest, rfl, hrest⟩
  · obtain ⟨stars, rest, rfl⟩ := hwild.head
    rw [matchMany] at hbad
    split at hbad
    · cases hbad
    · rename_i hfront
      refine matchFrom_malformed hwild (.wild fun hopened => ?_) hbad
      simpa [hopened] using hfront
  · rw [matchMany] at hbad
    split at hbad
    · cases hbad
    · rename_i hfront
      have hfront : Text.opened text = Text.opened name := by simpa using hfront
      cases hfirst : Window.first (byteMarks name) 0 width with
      | none =>
        rw [hfirst] at hbad
        cases hbad
      | some w =>
        rw [hfirst] at hbad
        dsimp only at hbad
        cases hfits : fitsWindow name text rest w with
        | error fault =>
          rw [hfits] at hbad
          obtain rfl := Except.error.inj hbad
          exact ⟨text, rest, w, .head rfl hfront hfirst, hfits⟩
        | ok b =>
          rw [hfits] at hbad
          cases b with
          | false => cases hbad
          | true => exact matchFrom_malformed hrest (.head hfront hfirst hfits) hbad

/-! ## The fault of a window -/

/-- The last two segments are the literal, whose last item is an escaped separator,
and a wildcard with no separator at its end. -/
def EndsEscaped (segments : List Segment) (literal : Text) : Prop :=
  (Mask.itemTexts literal).getLast? = some ['\\', '/'] ∧ ∃ before width stars,
    segments = before ++ [.literal literal width, .wild stars] ∧ Text.closed stars = false

/-- The match holds the literal against a window that ends the name, with a wildcard
left. -/
def TriesEnd (name : Text) (segments : List Segment) (literal : Text) : Prop :=
  ∃ stars w, Tries name segments literal [.wild stars] w ∧ w.closing = .finish

theorem exists_of_endsOpen (h : endsOpen rest = true) :
    ∃ stars, rest = [.wild stars] ∧ Text.closed stars = false := by
  unfold endsOpen at h
  split at h
  · exact ⟨_, rfl, by simpa using h⟩
  · cases h

theorem fits_eq_error {mask part : Text} :
    (Mask.fits mask part).mapError MatchFault.malformed = .error (.malformed e) ↔
      ∃ fault, Mask.parse mask = .error fault ∧ e = ⟨mask, fault⟩ := by
  rw [Mask.fits]
  cases Mask.parse mask with
  | ok items => simp [Except.mapError]
  | error fault => simp [Except.mapError, eq_comm]

/-- **A window is malformed** where a literal of a pattern that has been read drops
the separator that an escape had made its own. -/
theorem fitsWindow_malformed_iff {pattern : Text} (hread : read pattern = .ok segments)
    (htries : Tries name segments text rest w) (hcuts : WindowCuts name text rest w) :
    fitsWindow name text rest w = .error (.malformed e) ↔
      w.closing = .finish ∧ endsOpen rest = true ∧
        (Mask.itemTexts text).getLast? = some ['\\', '/'] ∧
          e = ⟨text.dropLast, .danglingEscape⟩ := by
  obtain ⟨hsegments, hcheck⟩ := read_eq_ok.1 hread
  obtain ⟨width, pre, hsuffix⟩ := htries.suffix
  have hmem : .literal text width ∈ segments := by
    rw [← hsuffix]
    simp
  obtain ⟨items, hitems⟩ := exists_parse_of_check hcheck hmem
  obtain ⟨mask, hmask⟩ := hcuts.literal
  obtain ⟨part, hpart⟩ := hcuts.window
  rw [fitsWindow_of_cut hmask hpart, fits_eq_error]
  by_cases hdrops : w.closing = .finish ∧ endsOpen rest = true
  · obtain ⟨stars, rfl, -⟩ := exists_of_endsOpen hdrops.2
    have hclosed : Text.closed text = true := closed_text (hsegments.symm.trans hsuffix.symm)
    obtain ⟨front, rfl⟩ := Text.exists_of_closed hclosed
    rw [hdrops.1, windowText_dropped hdrops.2] at hmask
    obtain rfl := Except.ok.inj hmask
    rw [List.dropLast_concat]
    rcases Mask.parse_front hitems with ⟨⟨left, hleft⟩, hpiece⟩ | ⟨hfault, hpiece⟩
    · refine iff_of_false ?_ fun h => by simp [hpiece] at h
      rintro ⟨fault, hfault, -⟩
      rw [hleft] at hfault
      cases hfault
    · constructor
      · rintro ⟨fault, hother, rfl⟩
        rw [hfault] at hother
        obtain rfl := Except.error.inj hother
        exact ⟨hdrops.1, hdrops.2, hpiece, rfl⟩
      · rintro ⟨-, -, -, rfl⟩
        exact ⟨_, hfault, rfl⟩
  · have hwhole : windowText text rest w.closing = .ok text := by
      cases hclosing : w.closing with
      | separator => rfl
      | finish => exact windowText_whole (by simpa [hclosing] using hdrops) text .finish
    rw [hwhole] at hmask
    obtain rfl := Except.ok.inj hmask
    refine iff_of_false ?_ fun h => hdrops ⟨h.1, h.2.1⟩
    rintro ⟨fault, hfault, -⟩
    rw [hitems] at hfault
    cases hfault

end Segment

namespace Pattern

open Segment (EndsEscaped TriesEnd Tries)

variable {text name : Text} {pattern : Pattern} {e : MalformedMask}

/-- A match that is malformed has two segments or more and a name. -/
theorem many_of_malformed (hread : read text = .ok pattern)
    (h : pattern.accepts name = .error (.malformed e)) :
    2 ≤ pattern.segments.length ∧ name ≠ [] := by
  have hmasks := fun literal width => @Segment.exists_parse_of_check _
    (Segment.read_eq_ok.1 (segments_of_read hread)).2 literal width
  obtain ⟨text, segments⟩ := pattern
  match segments with
  | [] =>
    obtain ⟨fault, hfault, -⟩ := Segment.fits_eq_error.1 h
    rw [Mask.parse] at hfault
    cases hfault
  | [.literal literal width] =>
    obtain ⟨mask, hmask⟩ := hmasks literal width (by simp)
    rw [accepts_of_literal hmask] at h
    cases h
  | [.wild _] => cases h
  | first :: second :: rest =>
    refine ⟨Nat.le_add_left _ _, ?_⟩
    rintro rfl
    cases first <;> cases h

/-- Two segments or more have a wildcard in front or behind the first. -/
theorem many_cases (hread : read text = .ok pattern) (hmany : 2 ≤ pattern.segments.length) :
    Segment.Alternating pattern.segments ∨ ∃ literal width rest,
      pattern.segments = .literal literal width :: rest ∧ Segment.Alternating rest := by
  rw [(Segment.read_eq_ok.1 (segments_of_read hread)).1] at hmany ⊢
  rcases Segment.ofPattern_cases text with h | h | ⟨literal, width, rest, h, hrest⟩
  · simp [h] at hmany
  · exact .inl h
  · refine .inr ⟨literal, width, rest, h, hrest.resolve_left ?_⟩
    rintro rfl
    simp [h] at hmany

/-- The window of a try holds its cuts. -/
theorem windowCuts_of_tries (hread : read text = .ok pattern) {literal : Text}
    {rest : List Segment} {w : Window} (htries : Tries name pattern.segments literal rest w) :
    Segment.WindowCuts name literal rest w := by
  refine htries.windowCuts ?_
  rw [(Segment.read_eq_ok.1 (segments_of_read hread)).1]
  exact Segment.cutsHold text htries.ne_nil

/-- A match is malformed only where an escaped separator had to be dropped. -/
theorem exists_triesEnd (hread : read text = .ok pattern)
    (hbad : pattern.accepts name = .error (.malformed e)) :
    ∃ literal, EndsEscaped pattern.segments literal ∧ TriesEnd name pattern.segments literal ∧
      e = ⟨literal.dropLast, .danglingEscape⟩ := by
  obtain ⟨hmany, hname⟩ := many_of_malformed hread hbad
  rw [accepts_of_many hmany hname,
    Segment.matchMany_malformed_iff (many_cases hread hmany)] at hbad
  obtain ⟨literal, rest, w, htries, hfault⟩ := hbad
  obtain ⟨hfinish, hopen, hescaped, rfl⟩ := (Segment.fitsWindow_malformed_iff
    (segments_of_read hread) htries (windowCuts_of_tries hread htries)).1 hfault
  obtain ⟨stars, rfl, hstars⟩ := Segment.exists_of_endsOpen hopen
  obtain ⟨width, before, hsuffix⟩ := htries.suffix
  exact ⟨literal, ⟨hescaped, before, width, stars, hsuffix.symm, hstars⟩,
    ⟨stars, w, htries, hfinish⟩, rfl⟩

/-- And there it is. -/
theorem malformed_of_triesEnd (hread : read text = .ok pattern) {literal : Text}
    (hescaped : EndsEscaped pattern.segments literal)
    (hend : TriesEnd name pattern.segments literal) :
    pattern.accepts name = .error (.malformed ⟨literal.dropLast, .danglingEscape⟩) := by
  obtain ⟨hlastItem, before, width, stars, hlast, hstars⟩ := hescaped
  obtain ⟨stars', w, htries, hfinish⟩ := hend
  -- The wildcard that is left is the last segment.
  obtain ⟨width', before', hsuffix⟩ := htries.suffix
  obtain ⟨-, hsame⟩ := List.append_inj' (hlast.symm.trans hsuffix.symm) rfl
  obtain rfl : stars = stars' := by simp_all
  have hmany : 2 ≤ pattern.segments.length := by simp [hlast]
  have hopen : Segment.endsOpen [.wild stars] = true := by simp [Segment.endsOpen, hstars]
  rw [accepts_of_many hmany htries.ne_nil]
  exact htries.matchMany_eq ((Segment.fitsWindow_malformed_iff (segments_of_read hread) htries
    (windowCuts_of_tries hread htries)).2 ⟨hfinish, hopen, hlastItem, rfl⟩)

/-- **What a match finds wrong** with a pattern that has been read. It is malformed
exactly when it holds the literal in front of a last wildcard without separator at
its end against a window that ends the name, and the separator at the end of this
literal is escaped. Then the fault is the backslash at the end of what is left of
the literal. Any other pattern has an answer for every name, unless the match finds
no place to cut. -/
theorem accepts_malformed_iff (hread : read text = .ok pattern) (name : Text) :
    (∀ e, pattern.accepts name = .error (.malformed e) ↔ ∃ literal,
      EndsEscaped pattern.segments literal ∧ TriesEnd name pattern.segments literal ∧
        e = ⟨literal.dropLast, .danglingEscape⟩) ∧
    ((∀ literal, ¬ EndsEscaped pattern.segments literal) →
      (∃ answer, pattern.accepts name = .ok answer) ∨ pattern.accepts name = .error .badCut) := by
  constructor
  · refine fun e => ⟨exists_triesEnd hread, ?_⟩
    rintro ⟨literal, hescaped, hend, rfl⟩
    exact malformed_of_triesEnd hread hescaped hend
  · intro hnone
    cases hanswer : pattern.accepts name with
    | ok answer => exact .inl ⟨answer, rfl⟩
    | error fault =>
      cases fault with
      | badCut => exact .inr rfl
      | malformed e =>
        obtain ⟨literal, hescaped, -⟩ := exists_triesEnd hread hanswer
        exact absurd hescaped (hnone literal)

/-- The search passes by `b/` and ends at `a`, where the literal `a\/` has to do
without its separator. -/
theorem accepts_malformed_iff_escape :
    accepts ⟨"**/a\\/**".toList,
        [.wild "**/".toList, .literal "a\\/".toList 1, .wild "**".toList]⟩ "b/a".toList =
      .error (.malformed ⟨"a\\".toList, .danglingEscape⟩) := by
  have hread : read "**/a\\/**".toList = .ok ⟨"**/a\\/**".toList,
      [.wild "**/".toList, .literal "a\\/".toList 1, .wild "**".toList]⟩ := by cbv
  have hescaped : EndsEscaped [.wild "**/".toList, .literal "a\\/".toList 1, .wild "**".toList]
      "a\\/".toList := ⟨by cbv, [.wild "**/".toList], 1, "**".toList, rfl, by decide⟩
  have hwindows : Window.all "b/a".toList 0 1 =
      [⟨0, 2, .separator⟩] ++ ⟨2, 3, .finish⟩ :: [] := by cbv
  have hpasses : Segment.fitsWindow "b/a".toList "a\\/".toList [.wild "**".toList]
      ⟨0, 2, .separator⟩ = .ok false := by cbv
  have hfront : Segment.Arrives "b/a".toList
      [.wild "**/".toList, .literal "a\\/".toList 1, .wild "**".toList] 0
      [.wild "**/".toList, .literal "a\\/".toList 1, .wild "**".toList] :=
    Segment.Arrives.wild (by decide)
  have htries : TriesEnd "b/a".toList
      [.wild "**/".toList, .literal "a\\/".toList 1, .wild "**".toList] "a\\/".toList :=
    ⟨"**".toList, ⟨2, 3, .finish⟩, .search hfront hwindows (by simpa using hpasses), rfl⟩
  exact ((accepts_malformed_iff hread "b/a".toList).1 _).2 ⟨_, hescaped, htries, rfl⟩

end Pattern

end PathGlob
