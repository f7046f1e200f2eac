/-
Where a match can find no place to cut.

A match holds a cursor in the name and moves it forward: past the head of the
pattern, then past each literal that a search finds (`Arrives`). The cursor always
lies between two characters, and so do the ends of every window a literal is held
against, so these cuts hold for every name (`cutsHold`). A literal that drops its
closing separator has one to drop, since only the last segment of a pattern can be
without.

One cut is left. With nothing in front of it the last wildcard looks one byte back,
and only there can a match fail to cut: when the name ends in a character of more
than one byte (`accepts_badCut_iff`).
-/
import Mathlib
import PathGlob.Proofs.Pattern.Acceptance
import PathGlob.Proofs.Pattern.Segmentation
import PathGlob.Proofs.Window.Between

set_option autoImplicit false

namespace PathGlob

namespace Segment

open Text (Between byteSize byteMarks)

variable {name text : Text} {segments rest : List Segment} {cursor : Nat} {w : Window}

/-! ## How far a match comes -/

/-- The match of the name against the segments goes on at the cursor with the
segments that are left. -/
inductive Arrives (name : Text) : List Segment → Nat → List Segment → Prop
  /-- A wildcard in front leaves the name as it is, but for a separator that opens
  it. -/
  | wild {stars : Text} {rest : List Segment}
      (hfront : Text.opened stars = true → Text.opened name = true) :
      Arrives name (.wild stars :: rest) (if Text.opened name then 1 else 0) (.wild stars :: rest)
  /-- A literal in front takes the first window. -/
  | head {text : Text} {width : Nat} {rest : List Segment} {w : Window}
      (hfront : Text.opened text = Text.opened name)
      (hfirst : Window.first (byteMarks name) 0 width = some w)
      (hfits : fitsWindow name text rest w = .ok true) :
      Arrives name (.literal text width :: rest) w.hi rest
  /-- A literal behind a wildcard takes the window that a search finds. -/
  | literal {segments : List Segment} {cursor : Nat} {stars text : Text} {width : Nat}
      {rest : List Segment} {stop : Nat}
      (harrives : Arrives name segments cursor (.wild stars :: .literal text width :: rest))
      (hsearch : searchWindows name text rest (Window.all name cursor width) = .ok (some stop)) :
      Arrives name segments stop rest

/-- What is left is an end of the pattern. -/
theorem Arrives.suffix (h : Arrives name segments cursor rest) : rest <:+ segments := by
  induction h with
  | wild _ => exact List.suffix_refl _
  | @head text width rest w _ _ _ => exact ⟨[.literal text width], rfl⟩
  | @literal segments cursor stars text width rest stop _ _ ih =>
    obtain ⟨pre, hpre⟩ := ih
    refine ⟨pre ++ [.wild stars, .literal text width], ?_⟩
    rw [← hpre, List.append_assoc]
    rfl

/-- From there on the match is the whole match. -/
theorem Arrives.matchMany_eq (h : Arrives name segments cursor rest) (hrest : rest ≠ []) :
    matchMany name segments = matchFrom name cursor rest := by
  induction h with
  | @wild stars rest hfront =>
    rw [matchMany, if_neg]
    rw [Bool.and_eq_true, Bool.not_eq_true', not_and, Bool.not_eq_false]
    exact hfront
  | @head text width rest w hfront hfirst hfits =>
    rw [matchMany, if_neg (by simpa using hfront), hfirst]
    dsimp only
    rw [hfits]
    rfl
  | @literal segments cursor stars text width rest stop _ hsearch ih =>
    rw [ih (by simp)]
    exact matchFrom_of_some hrest hsearch

/-- A search ends with a window. -/
theorem mem_of_searchWindows {ws : List Window} {stop : Nat}
    (h : searchWindows name text rest ws = .ok (some stop)) : ∃ w ∈ ws, w.hi = stop := by
  induction ws with
  | nil => cases h
  | cons w ws ih =>
    cases hfits : fitsWindow name text rest w with
    | error fault =>
      unfold searchWindows at h
      rw [hfits] at h
      cases h
    | ok b =>
      rw [searchWindows_cons w ws hfits] at h
      cases b with
      | true =>
        simp only [if_true, Except.ok.injEq, Option.some.injEq] at h
        exact ⟨w, List.mem_cons_self, h⟩
      | false =>
        obtain ⟨w', hw', hstop⟩ := ih h
        exact ⟨w', List.mem_cons_of_mem _ hw', hstop⟩

/-- **The cursor** always lies between two characters. -/
theorem Arrives.between (h : Arrives name segments cursor rest) : Between name cursor := by
  induction h with
  | wild _ =>
    split
    · rename_i hopened
      obtain ⟨tail, rfl⟩ := Text.exists_of_opened hopened
      exact (Text.between_zero tail).cons '/'
    · exact Text.between_zero name
  | head _ hfirst _ => exact (Window.sits_first (Text.between_zero name) hfirst).hi
  | literal _ hsearch ih =>
    obtain ⟨w, hw, rfl⟩ := mem_of_searchWindows hsearch
    exact (Window.sits_of_mem_all ih hw).hi

/-! ## Cuts for a window -/

/-- Between two places between characters, in order, there is a part of the name. -/
theorem cutOut_of_between {lo hi : Nat} (hlo : Between name lo) (hhi : Between name hi)
    (hle : lo ≤ hi) : ∃ part, cutOut name lo hi = .ok part := by
  obtain ⟨before, others, rfl, rfl⟩ := hlo
  obtain ⟨front, after, hname, rfl⟩ := hhi
  rcases List.append_eq_append_iff.1 hname with ⟨part, rfl, rfl⟩ | ⟨part, rfl, -⟩
  · rw [← List.append_assoc]
    exact ⟨part, cutOut_between before part after⟩
  · -- What begins the other and is not shorter is the other.
    obtain rfl : part = [] := by
      by_contra hpart
      have hpos := Text.byteSize_pos hpart
      rw [Text.byteSize_append] at hle
      omega
    rw [List.append_nil]
    have hcut := cutOut_between front [] others
    rw [List.append_nil] at hcut
    exact ⟨[], hcut⟩

theorem takeBytes_ne_nil (t : Text) (n : Nat) : Text.takeBytes t (n + 1) ≠ some [] := by
  cases t with
  | nil => simp [Text.takeBytes]
  | cons c t =>
    rw [Text.takeBytes]
    split <;> simp

/-- A part with bytes in it is not empty. -/
theorem ne_nil_of_cutOut {lo hi : Nat} {part : Text} (hlt : lo < hi)
    (h : cutOut name lo hi = .ok part) : part ≠ [] := by
  rintro rfl
  obtain ⟨n, hn⟩ : ∃ n, hi - lo = n + 1 := ⟨hi - lo - 1, by omega⟩
  rw [cutOut, Text.slice, if_pos (Nat.le_of_lt hlt), hn] at h
  cases hdrop : Text.dropBytes name lo with
  | none =>
    rw [hdrop] at h
    cases h
  | some left =>
    rw [hdrop, Option.bind_some] at h
    cases htake : Text.takeBytes left (n + 1) with
    | none =>
      rw [htake] at h
      cases h
    | some part =>
      rw [htake] at h
      obtain rfl := Except.ok.inj h
      exact takeBytes_ne_nil left n htake

/-- The cuts made to hold a literal against a window of the name. -/
structure WindowCuts (name text : Text) (rest : List Segment) (w : Window) : Prop where
  /-- The literal, without its closing separator where the window ends the name. -/
  literal : ∃ mask, windowText text rest w.closing = .ok mask
  /-- The part of the name between the ends of the window. -/
  window : ∃ part, cutOut name w.lo w.hi = .ok part

theorem WindowCuts.ne_badCut (h : WindowCuts name text rest w) :
    fitsWindow name text rest w ≠ .error .badCut := by
  obtain ⟨mask, hmask⟩ := h.literal
  obtain ⟨part, hpart⟩ := h.window
  rw [fitsWindow_of_cut hmask hpart]
  cases Mask.fits mask part <;> simp [Except.mapError]

/-- A search among windows with good cuts makes no bad one. -/
theorem searchWindows_ne_badCut {ws : List Window} (h : ∀ w ∈ ws, WindowCuts name text rest w) :
    searchWindows name text rest ws ≠ .error .badCut := by
  induction ws with
  | nil => simp [searchWindows]
  | cons w ws ih =>
    obtain ⟨hw, hws⟩ := List.forall_mem_cons.1 h
    cases hfits : fitsWindow name text rest w with
    | error fault =>
      have hsearch : searchWindows name text rest (w :: ws) = .error fault := by
        rw [searchWindows, hfits]
        rfl
      rw [hsearch]
      rintro ⟨⟩
      exact hw.ne_badCut hfits
    | ok b =>
      rw [searchWindows_cons w ws hfits]
      cases b with
      | true => simp
      | false => simpa using ih hws

/-- A literal in front of a last wildcard has a separator to drop. -/
theorem exists_windowText {pattern : Text} {width : Nat} (closing : Closing)
    (h : .literal text width :: rest <:+ ofPattern pattern) :
    ∃ mask, windowText text rest closing = .ok mask := by
  obtain ⟨pre, hpre⟩ := h
  cases closing with
  | separator => exact ⟨text, rfl⟩
  | finish =>
    cases hopen : endsOpen rest with
    | false => exact ⟨text, windowText_whole hopen text .finish⟩
    | true =>
      cases rest with
      | nil => cases hopen
      | cons next rest =>
        obtain ⟨front, rfl⟩ := Text.exists_of_closed (closed_text hpre.symm)
        exact ⟨front, windowText_dropped hopen front⟩

/-! ## The cut behind the last literal -/

/-- There is a last byte to look at unless nothing is left. -/
theorem exists_stepBack {part : Text} (hne : part ≠ []) :
    ∃ pos, stepBack (byteSize part) = .ok pos := by
  have hpos := Text.byteSize_pos hne
  cases hsize : byteSize part with
  | zero => omega
  | succ n => exact ⟨n, rfl⟩

/-- The last wildcard finds no cut when it looks one byte back into a character. -/
theorem matchTail_badCut_iff {stars : Text} (hname : name ≠ []) (hcursor : Between name cursor) :
    matchTail name stars cursor = .error .badCut ↔
      cursor = byteSize name ∧ ∃ c, name.getLast? = some c ∧ 1 < c.utf8Size := by
  by_cases hlt : cursor < byteSize name
  · obtain ⟨part, hpart⟩ := cutOut_of_between hcursor (Text.between_byteSize name) hcursor.le
    have htail : matchTail name stars cursor =
        .ok (allowsRest (Text.opened stars) (Text.closed stars) part) := by
      rw [matchTail]
      dsimp only
      rw [if_neg (by omega)]
      change (cutOut _ _ _).bind _ = _
      rw [hpart]
      rfl
    rw [htail]
    refine iff_of_false (by simp) ?_
    rintro ⟨hend, -⟩
    omega
  · have hend : cursor = byteSize name := Nat.le_antisymm hcursor.le (Nat.le_of_not_lt hlt)
    obtain ⟨init, c, rfl⟩ := (List.eq_nil_or_concat' name).resolve_left hname
    -- One byte in front of the end there is a cut if the last character is one byte.
    rw [hend, matchTail_last]
    have hpos := c.utf8Size_pos
    by_cases hone : c.utf8Size = 1
    · rw [if_pos hone]
      refine iff_of_false (by simp) ?_
      rintro ⟨-, c', hlast, hsize⟩
      rw [List.getLast?_concat, Option.some.injEq] at hlast
      subst hlast
      omega
    · rw [if_neg hone]
      exact iff_of_true rfl ⟨rfl, c, List.getLast?_concat, by omega⟩

/-! ## All cuts of a match -/

/-- Where the cuts of a match hold. The one not listed is the cut one byte in front
of the end, which a last wildcard makes when nothing is left. -/
structure CutsHold (name : Text) (segments : List Segment) : Prop where
  /-- For the window of a literal in front. -/
  head : ∀ {text : Text} {width : Nat} {rest : List Segment} {w : Window},
    segments = .literal text width :: rest → Window.first (byteMarks name) 0 width = some w →
    WindowCuts name text rest w
  /-- For every window that a search the match comes to can try. -/
  search : ∀ {cursor : Nat} {stars text : Text} {width : Nat} {rest : List Segment} {w : Window},
    Arrives name segments cursor (.wild stars :: .literal text width :: rest) →
    w ∈ Window.all name cursor width → WindowCuts name text rest w
  /-- For what is left to the last wildcard, which looks at both ends of it. -/
  remainder : ∀ {cursor : Nat} {stars : Text}, Arrives name segments cursor [.wild stars] →
    cursor < byteSize name → ∃ part, cutOut name cursor (byteSize name) = .ok part ∧
      ∃ pos, stepBack (byteSize part) = .ok pos
  /-- With nothing left there is a byte to go back. -/
  back : ∀ {cursor : Nat} {stars : Text}, Arrives name segments cursor [.wild stars] →
    byteSize name ≤ cursor → ∃ pos, stepBack cursor = .ok pos ∧
      ∀ part, cutOut name pos (byteSize name) = .ok part → ∃ last, stepBack (byteSize part) = .ok last
  /-- A wildcard alone looks at both ends of the name. -/
  whole : ∀ {stars : Text}, segments = [.wild stars] → ∃ pos, stepBack (byteSize name) = .ok pos

theorem cutsHold (pattern : Text) (hname : name ≠ []) : CutsHold name (ofPattern pattern) where
  head := by
    intro text width rest w hsegments hfirst
    have hw := Window.sits_first (Text.between_zero name) hfirst
    refine ⟨@exists_windowText text rest pattern width w.closing ?_,
      cutOut_of_between hw.lo hw.hi hw.le⟩
    rw [hsegments]
  search := by
    intro cursor stars text width rest w harrives hmem
    have hw := Window.sits_of_mem_all harrives.between hmem
    have hsuffix := (List.suffix_cons (Segment.wild stars) _).trans harrives.suffix
    exact ⟨exists_windowText w.closing hsuffix, cutOut_of_between hw.lo hw.hi hw.le⟩
  remainder := by
    intro cursor stars harrives hlt
    obtain ⟨part, hpart⟩ :=
      cutOut_of_between harrives.between (Text.between_byteSize name) (Nat.le_of_lt hlt)
    exact ⟨part, hpart, exists_stepBack (ne_nil_of_cutOut hlt hpart)⟩
  back := by
    intro cursor stars harrives hend
    have hcursor : cursor = byteSize name := Nat.le_antisymm harrives.between.le hend
    obtain ⟨pos, hpos⟩ := exists_stepBack hname
    rw [hcursor]
    refine ⟨pos, hpos, fun part hpart => exists_stepBack (ne_nil_of_cutOut ?_ hpart)⟩
    cases hsize : byteSize name with
    | zero =>
      rw [hsize] at hpos
      cases hpos
    | succ n =>
      rw [hsize] at hpos
      cases hpos
      exact Nat.lt_succ_self _
  whole := fun _ => exists_stepBack hname

/-- When a match fails to cut behind a search, the search has found a window. -/
theorem exists_found {stars : Text} {width : Nat} (hcuts : CutsHold name segments)
    (harrives : Arrives name segments cursor (.wild stars :: .literal text width :: rest))
    (hbad : matchFrom name cursor (.wild stars :: .literal text width :: rest) = .error .badCut) :
    ∃ stop, searchWindows name text rest (Window.all name cursor width) = .ok (some stop) := by
  have hne := searchWindows_ne_badCut fun w hw => hcuts.search harrives hw
  cases hsearch : searchWindows name text rest (Window.all name cursor width) with
  | error fault =>
    rw [matchFrom, hsearch] at hbad
    obtain rfl := Except.error.inj hbad
    exact absurd hsearch hne
  | ok found =>
    cases found with
    | none =>
      rw [matchFrom_of_none hsearch] at hbad
      cases hbad
    | some stop => exact ⟨stop, rfl⟩

/-- **From a wildcard on** a match fails to cut only at the end of the name. -/
theorem matchFrom_badCut (hcuts : CutsHold name segments) (hname : name ≠ [])
    (hrest : Alternating rest) (harrives : Arrives name segments cursor rest)
    (hbad : matchFrom name cursor rest = .error .badCut) :
    (∃ stars, Arrives name segments (byteSize name) [.wild stars]) ∧
      ∃ c, name.getLast? = some c ∧ 1 < c.utf8Size := by
  -- By induction on the segments left. A search has an answer or a fault of its
  -- own, and what it finds is where the match goes on.
  induction hrest generalizing cursor with
  | wild stars =>
    obtain ⟨rfl, hlast⟩ := (matchTail_badCut_iff hname harrives.between).1 hbad
    exact ⟨⟨stars, harrives⟩, hlast⟩
  | literal stars text width =>
    obtain ⟨stop, hsearch⟩ := exists_found hcuts harrives hbad
    rw [matchFrom_of_last hsearch] at hbad
    cases hbad
  | more stars text width hrest ih =>
    obtain ⟨stop, hsearch⟩ := exists_found hcuts harrives hbad
    rw [matchFrom_of_some hrest.ne_nil hsearch] at hbad
    exact ih (harrives.literal hsearch) hbad

/-- When a whole match fails to cut, it has come past the head. -/
theorem exists_arrives (hcuts : CutsHold name segments) (hmany : 2 ≤ segments.length)
    (hcases : Alternating segments ∨ ∃ text width rest, segments = .literal text width :: rest ∧
      (rest = [] ∨ Alternating rest))
    (hbad : matchMany name segments = .error .badCut) :
    ∃ cursor rest, Alternating rest ∧ Arrives name segments cursor rest := by
  rcases hcases with hwild | ⟨text, width, rest, rfl, hrest⟩
  · obtain ⟨stars, rest, rfl⟩ := hwild.head
    refine ⟨_, _, hwild, .wild fun hopened => ?_⟩
    by_contra hname
    rw [matchMany, if_pos (by simp [hopened, hname])] at hbad
    cases hbad
  · have halternating : Alternating rest := by
      refine hrest.resolve_left ?_
      rintro rfl
      simp at hmany
    -- The head says no, or it fits a window that has been cut out.
    by_cases hfront : Text.opened text = Text.opened name
    · rw [matchMany, if_neg (by simpa using hfront)] at hbad
      cases hfirst : Window.first (byteMarks name) 0 width with
      | none =>
        rw [hfirst] at hbad
        cases hbad
      | some w =>
        rw [hfirst] at hbad
        dsimp only at hbad
        cases hfits : fitsWindow name text rest w with
        | error fault =>
          rw [hfits] at hbad
          obtain rfl := Except.error.inj hbad
          exact absurd hfits (hcuts.head rfl hfirst).ne_badCut
        | ok b =>
          cases b with
          | false =>
            rw [hfits] at hbad
            cases hbad
          | true => exact ⟨w.hi, rest, halternating, .head hfront hfirst hfits⟩
    · rw [matchMany, if_pos (by simpa using hfront)] at hbad
      cases hbad

end Segment

namespace Pattern

open Segment (Arrives CutsHold)
open Text (byteSize)

variable {text name : Text} {pattern : Pattern}

/-- A match that fails to cut has two segments or more and a name to cut. -/
theorem many_of_badCut (h : pattern.accepts name = .error .badCut) :
    2 ≤ pattern.segments.length ∧ name ≠ [] := by
  obtain ⟨text, segments⟩ := pattern
  have hfits : ∀ text, (Mask.fits text name).mapError MatchFault.malformed ≠ .error .badCut := by
    intro text
    cases Mask.fits text name <;> simp [Except.mapError]
  match segments with
  | [] => exact absurd h (hfits [])
  | [.literal text _] => exact absurd h (hfits text)
  | [.wild _] => cases h
  | first :: second :: rest =>
    refine ⟨Nat.le_add_left _ _, ?_⟩
    rintro rfl
    cases first <;> cases h

/-- **Where a match fails to cut.** It does so when the last of two or more segments
is a wildcard, the match comes to it with nothing left of the name, and the name
ends in a character of more than one byte. All other cuts hold. -/
theorem accepts_badCut_iff (hread : read text = .ok pattern) (name : Text) :
    (pattern.accepts name = .error .badCut ↔
      2 ≤ pattern.segments.length ∧
      (∃ stars, pattern.segments.getLast? = some (.wild stars) ∧
        Arrives name pattern.segments (byteSize name) [.wild stars]) ∧
      ∃ c, name.getLast? = some c ∧ 1 < c.utf8Size) ∧
    (name ≠ [] → CutsHold name pattern.segments) := by
  have hpattern : pattern.segments = Segment.ofPattern text :=
    (Segment.read_eq_ok.1 (segments_of_read hread)).1
  have hcuts : name ≠ [] → CutsHold name pattern.segments := by
    intro hname
    rw [hpattern]
    exact Segment.cutsHold text hname
  refine ⟨⟨?_, ?_⟩, hcuts⟩
  · intro hbad
    obtain ⟨hmany, hname⟩ := many_of_badCut hbad
    rw [accepts_of_many hmany hname] at hbad
    have hcases := Segment.ofPattern_cases text
    rw [← hpattern] at hcases
    have hsegments : pattern.segments ≠ [] := List.ne_nil_of_length_pos (by omega)
    obtain ⟨cursor, rest, hrest, harrives⟩ :=
      Segment.exists_arrives (hcuts hname) hmany (hcases.resolve_left hsegments) hbad
    rw [harrives.matchMany_eq hrest.ne_nil] at hbad
    obtain ⟨⟨stars, hend⟩, hlast⟩ :=
      Segment.matchFrom_badCut (hcuts hname) hname hrest harrives hbad
    refine ⟨hmany, ⟨stars, ?_, hend⟩, hlast⟩
    obtain ⟨pre, hpre⟩ := hend.suffix
    rw [← hpre, List.getLast?_concat]
  · rintro ⟨hmany, ⟨stars, -, hend⟩, c, hlast, hsize⟩
    have hname : name ≠ [] := by
      rintro rfl
      cases hlast
    rw [accepts_of_many hmany hname, hend.matchMany_eq (by simp)]
    exact (Segment.matchTail_badCut_iff hname hend.between).2 ⟨rfl, c, hlast, hsize⟩

/-- The search passes by `a/` and takes `éé`, and the byte in front of the end lies
inside `é`. -/
theorem accepts_badCut_iff_accents :
    accepts ⟨"**/é*/**".toList,
        [.wild "**/".toList, .literal "é*/".toList 1, .wild "**".toList]⟩ "a/éé".toList =
      .error .badCut ∧
    CutsHold "a/éé".toList [.wild "**/".toList, .literal "é*/".toList 1, .wild "**".toList] := by
  have hread : read "**/é*/**".toList = .ok ⟨"**/é*/**".toList,
      [.wild "**/".toList, .literal "é*/".toList 1, .wild "**".toList]⟩ := by cbv
  have hfound : Segment.searchWindows "a/éé".toList "é*/".toList [.wild "**".toList]
      (Window.all "a/éé".toList 0 1) = .ok (some (byteSize "a/éé".toList)) := by cbv
  have hfront : Arrives "a/éé".toList
      [.wild "**/".toList, .literal "é*/".toList 1, .wild "**".toList] 0
      [.wild "**/".toList, .literal "é*/".toList 1, .wild "**".toList] :=
    Arrives.wild (by decide)
  obtain ⟨hiff, hcuts⟩ := accepts_badCut_iff hread "a/éé".toList
  refine ⟨hiff.2 ⟨by decide, ⟨"**".toList, rfl, hfront.literal hfound⟩, 'é', rfl, by decide⟩, ?_⟩
  exact hcuts (by decide)

end Pattern

end PathGlob
