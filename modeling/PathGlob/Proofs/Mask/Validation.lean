/-
The checker accepts the masks.

The checker goes by byte positions and the reader by characters, and each of them has its
own functions for endpoints, ranges and classes. They are compared function by function:
from a position where the text goes on with some rest, the checker's function stops where
the reader's function, given that rest, leaves off, and it finds the same fault if there is
one (`Agrees`). Then the same holds of the next larger function.

Only the checker comes to positions inside a character, behind an escape and on the way
over a character that takes more than one byte. There it sees neither a backslash nor a
bracket, and it comes to the end of the character byte by byte (`check_inside`). So it
finds what the reader finds (`check_eq_parse`).
-/
import PathGlob.Mask.Validation
import PathGlob.Proofs.Mask.Written
import PathGlob.Proofs.Text.Positions

set_option autoImplicit false

namespace PathGlob

open Text (byteSize charAt hasByte dropBytes)

namespace Mask

/-- A reader that goes by characters and one that goes by positions give the same answer
about a text: the same fault, or what is left of the text is what is behind the position. -/
inductive Agrees {α : Type} (t : Text) : Except MaskFault (α × Text) → Except MaskFault Nat → Prop
  | fault (e : MaskFault) : Agrees t (.error e) (.error e)
  | behind {a : α} {rest : Text} {stop : Nat} :
    dropBytes t stop = some rest → Agrees t (.ok (a, rest)) (.ok stop)

variable {t rest : Text} {pos : Nat}

section Agrees

variable {α : Type} {stopped : Except MaskFault Nat}

theorem Agrees.eq_error {e : MaskFault}
    (h : Agrees t (.error e : Except MaskFault (α × Text)) stopped) : stopped = .error e := by
  cases h
  rfl

theorem Agrees.exists_stop {a : α} (h : Agrees t (.ok (a, rest)) stopped) :
    ∃ stop, stopped = .ok stop ∧ dropBytes t stop = some rest := by
  cases h with
  | behind hstop => exact ⟨_, rfl, hstop⟩

end Agrees

/-! ## Over a class -/

theorem continued_agrees {c : Char} (h : dropBytes t pos = some (c :: rest)) :
    Agrees t (continued c rest) (characterEnd t pos) := by
  have hnext := Text.dropBytes_next h
  rw [characterEnd, Text.charAt_eq h, List.head?_cons, Option.elim_some]
  cases rest with
  | nil =>
    rw [if_pos ((Text.le_iff_of_dropBytes hnext).2 rfl)]
    exact .fault _
  | cons d rest =>
    rw [if_neg ((Text.le_iff_of_dropBytes hnext).not.2 (List.cons_ne_nil d rest))]
    exact .behind hnext

theorem endpoint_agrees (h : dropBytes t pos = some rest) :
    Agrees t (endpoint rest) (endpointEnd t pos) := by
  have hend := Text.le_iff_of_dropBytes h
  rw [endpointEnd, Text.hasByte_eq h rfl, Text.hasByte_eq h rfl, Text.hasByte_eq h rfl]
  unfold endpoint
  split
  · rw [if_pos (hend.2 rfl)]
    exact .fault _
  · rw [if_neg (hend.not.2 (List.cons_ne_nil _ _)), if_pos (by simp)]
    exact .fault _
  · rw [if_neg (hend.not.2 (List.cons_ne_nil _ _)), if_pos (by simp)]
    exact .fault _
  · have hnext : dropBytes t (pos + 1) = some [] := Text.dropBytes_next h
    rw [if_neg (hend.not.2 (List.cons_ne_nil _ _)), if_neg (by decide), if_pos (by simp),
      if_pos ((Text.le_iff_of_dropBytes hnext).2 rfl)]
    exact .fault _
  · rename_i c rest
    have hnext : dropBytes t (pos + 1) = some (c :: rest) := Text.dropBytes_next h
    rw [if_neg (hend.not.2 (List.cons_ne_nil _ _)), if_neg (by simp), if_pos (by simp),
      if_neg ((Text.le_iff_of_dropBytes hnext).not.2 (List.cons_ne_nil c rest))]
    exact continued_agrees hnext
  · rename_i c rest hdash hclose hlone hescape
    rw [if_neg (hend.not.2 (List.cons_ne_nil _ _)), if_neg (by simp_all)]
    by_cases hc : c = '\\'
    · subst hc
      cases rest with
      | nil => exact absurd rfl (hlone rfl)
      | cons d rest => exact absurd rfl (hescape d rest rfl)
    · rw [if_neg (by simpa using hc)]
      exact continued_agrees h

/-- The last case of a match on the first character. -/
theorem head_ne {c : Char} (h : ∀ tail, rest = c :: tail → False) : rest.head? ≠ some c := by
  intro hhead
  obtain ⟨tail, htail⟩ := List.head?_eq_some_iff.1 hhead
  exact h tail htail

theorem range_agrees (h : dropBytes t pos = some rest) :
    Agrees t (range rest) (rangeEnd t pos) := by
  have hlo := endpoint_agrees h
  rw [range, rangeEnd]
  cases hread : endpoint rest with
  | error e =>
    rw [hread] at hlo
    rw [hlo.eq_error]
    exact .fault e
  | ok found =>
    obtain ⟨lo, after⟩ := found
    rw [hread] at hlo
    obtain ⟨mid, hmid, hafter⟩ := hlo.exists_stop
    rw [hmid]
    simp only [bind, Except.bind]
    rw [Text.hasByte_eq hafter rfl]
    split
    · rename_i tail
      have hhi : Agrees t (endpoint tail) (endpointEnd t (mid + 1)) :=
        endpoint_agrees (Text.dropBytes_next hafter)
      rw [if_pos (by simp)]
      cases hread' : endpoint tail with
      | error e =>
        rw [hread'] at hhi
        rw [hhi.eq_error]
        exact .fault e
      | ok found' =>
        rw [hread'] at hhi
        obtain ⟨stop, hstop, hrest⟩ := hhi.exists_stop
        rw [hstop]
        exact .behind hrest
    · rename_i hdash
      rw [if_neg (by simpa using head_ne hdash)]
      exact .behind hafter

theorem rangesEnd_close (h : dropBytes t pos = some (']' :: rest)) :
    rangesEnd t pos false = .ok (pos + 1) := by
  rw [rangesEnd, if_neg ((Text.le_iff_of_dropBytes h).not.2 (List.cons_ne_nil _ _)), if_pos]
  rw [Text.hasByte_eq h rfl]
  rfl

/-- Where no bracket can close the class, the next is a range. -/
theorem rangesEnd_next {first : Bool} (h : dropBytes t pos = some rest)
    (hopen : first = false → rest.head? ≠ some ']') :
    rangesEnd t pos first =
      match rangeEnd t pos with
      | .error e => .error e
      | .ok stop => rangesEnd t stop false := by
  rw [rangesEnd]
  by_cases hend : byteSize t ≤ pos
  · rw [if_pos hend, rangeEnd, endpointEnd, if_pos hend]
  · have hclose : ¬ (hasByte t pos ']' && !first) = true := by
      rw [Text.hasByte_eq h rfl, Bool.and_eq_true, beq_iff_eq, Bool.not_eq_true']
      exact fun hhead => hopen hhead.2 hhead.1
    rw [if_neg hend, if_neg hclose]
    cases rangeEnd t pos with
    | error e => rfl
    | ok stop => rfl

theorem ranges_agrees {first : Bool} (h : dropBytes t pos = some rest)
    (hopen : first = false → rest.head? ≠ some ']') :
    Agrees t (ranges rest) (rangesEnd t pos first) := by
  fun_induction ranges rest generalizing pos first with
  | case1 rest e hread =>
    have hrange := range_agrees h
    rw [hread] at hrange
    rw [rangesEnd_next h hopen, hrange.eq_error]
    exact .fault e
  | case2 rest r after hread =>
    have hrange := range_agrees h
    rw [hread] at hrange
    obtain ⟨stop, hstop, hafter⟩ := hrange.exists_stop
    rw [rangesEnd_next h hopen, hstop]
    simp only [rangesEnd_close hafter]
    exact .behind (Text.dropBytes_next hafter)
  | case3 rest r after hclose hread e hmore ih =>
    have hrange := range_agrees h
    rw [hread] at hrange
    obtain ⟨stop, hstop, hafter⟩ := hrange.exists_stop
    have hranges := @ih stop false hafter fun _ => head_ne hclose
    rw [hmore] at hranges
    rw [rangesEnd_next h hopen, hstop]
    simp only [hranges.eq_error]
    exact .fault e
  | case4 rest r after hclose hread rs left hmore ih =>
    have hrange := range_agrees h
    rw [hread] at hrange
    obtain ⟨stop, hstop, hafter⟩ := hrange.exists_stop
    have hranges := @ih stop false hafter fun _ => head_ne hclose
    rw [hmore] at hranges
    obtain ⟨stop', hstop', hleft⟩ := hranges.exists_stop
    rw [rangesEnd_next h hopen, hstop]
    simp only [hstop']
    exact .behind hleft

theorem class_agrees (h : dropBytes t pos = some rest) :
    Agrees t (ranges (negation rest).2) (classEnd t pos) := by
  rw [classEnd, Text.hasByte_eq h rfl]
  unfold negation
  split
  · rw [if_pos (by simp)]
    exact ranges_agrees (Text.dropBytes_next h) (by simp)
  · rename_i hcaret
    rw [if_neg (by simpa using head_ne hcaret)]
    exact ranges_agrees h (by simp)

/-! ## Over a mask -/

/-- From inside a character the checker comes to its end. -/
theorem check_inside {c : Char} (h : dropBytes t pos = some (c :: rest)) {n : Nat} (hn : 0 < n)
    (hle : n ≤ c.utf8Size) : check t (pos + n) = check t (pos + c.utf8Size) := by
  induction hm : c.utf8Size - n generalizing n with
  | zero => rw [show n = c.utf8Size by omega]
  | succ m ih =>
    have hsize := Text.size_of_dropBytes h
    rw [byteSize] at hsize
    rw [check, if_neg (by omega), Text.hasByte_inside h rfl hn (by omega), if_neg (by simp),
      Text.hasByte_inside h rfl hn (by omega), if_neg (by simp), Nat.add_assoc]
    exact ih (by omega) (by omega) (by omega)

theorem check_escape {c : Char} (h : dropBytes t pos = some ('\\' :: c :: rest)) :
    check t pos = check t (pos + 1 + c.utf8Size) := by
  have hnext : dropBytes t (pos + 1) = some (c :: rest) := Text.dropBytes_next h
  rw [check, if_neg ((Text.le_iff_of_dropBytes h).not.2 (List.cons_ne_nil _ _)),
    if_pos (Text.hasByte_head h rfl),
    if_neg ((Text.le_iff_of_dropBytes hnext).not.2 (List.cons_ne_nil c rest))]
  exact check_inside hnext Nat.one_pos c.utf8Size_pos

theorem check_plain {c : Char} (h : dropBytes t pos = some (c :: rest)) (hescape : c ≠ '\\')
    (hclass : c ≠ '[') : check t pos = check t (pos + c.utf8Size) := by
  rw [check, if_neg ((Text.le_iff_of_dropBytes h).not.2 (List.cons_ne_nil c rest)),
    Text.hasByte_of_ne h rfl hescape, if_neg Bool.false_ne_true, Text.hasByte_of_ne h rfl hclass,
    if_neg Bool.false_ne_true]
  exact check_inside h Nat.one_pos c.utf8Size_pos

theorem check_class (h : dropBytes t pos = some ('[' :: rest)) :
    check t pos =
      match classEnd t (pos + 1) with
      | .error e => .error e
      | .ok stop => check t stop := by
  rw [check, if_neg ((Text.le_iff_of_dropBytes h).not.2 (List.cons_ne_nil _ _)),
    Text.hasByte_of_ne h rfl (by decide), if_neg Bool.false_ne_true,
    if_pos (Text.hasByte_head h rfl)]
  cases classEnd t (pos + 1) with
  | error e => rfl
  | ok stop => rfl

/-- For the checker an item more makes no difference. -/
theorem map_parse_cons (item : MaskItem) (t : Text) :
    ((parse t).map (item :: ·)).map (fun _ => ()) = (parse t).map fun _ => () := by
  cases parse t with
  | error e => rfl
  | ok mask => rfl

/-- The checker, from where the text goes on with some rest, finds what the reader finds
in it. -/
theorem check_eq_of_dropBytes (h : dropBytes t pos = some rest) :
    check t pos = (parse rest).map fun _ => () := by
  fun_induction parse rest generalizing pos with
  | case1 =>
    rw [check, if_pos ((Text.le_iff_of_dropBytes h).2 rfl)]
    rfl
  | case2 =>
    have hnext : dropBytes t (pos + 1) = some [] := Text.dropBytes_next h
    rw [check, if_neg ((Text.le_iff_of_dropBytes h).not.2 (List.cons_ne_nil _ _)),
      if_pos (Text.hasByte_head h rfl), if_pos ((Text.le_iff_of_dropBytes hnext).2 rfl)]
    rfl
  | case3 c rest ih =>
    have hnext : dropBytes t (pos + 1) = some (c :: rest) := Text.dropBytes_next h
    rw [check_escape h, ih (Text.dropBytes_next hnext), map_parse_cons]
  | case4 rest ih =>
    rw [check_plain h (by decide) (by decide), ih (Text.dropBytes_next h), map_parse_cons]
  | case5 rest ih =>
    rw [check_plain h (by decide) (by decide), ih (Text.dropBytes_next h), map_parse_cons]
  | case6 body e hread =>
    have hbody : dropBytes t (pos + 1) = some body := Text.dropBytes_next h
    have hclass := class_agrees hbody
    rw [hread] at hclass
    rw [check_class h, hclass.eq_error]
    rfl
  | case7 body rs rest hread ih =>
    have hbody : dropBytes t (pos + 1) = some body := Text.dropBytes_next h
    have hclass := class_agrees hbody
    rw [hread] at hclass
    obtain ⟨stop, hstop, hafter⟩ := hclass.exists_stop
    rw [check_class h, hstop]
    simp only []
    rw [ih hafter, map_parse_cons]
  | case8 c rest hlone hescape hstar hany hclass ih =>
    have hbackslash : c ≠ '\\' := by
      rintro rfl
      cases rest with
      | nil => exact hlone rfl rfl
      | cons d rest => exact hescape d rest rfl rfl
    rw [check_plain h hbackslash hclass, ih (Text.dropBytes_next h), map_parse_cons]

/-- **The checker finds what the reader finds.** -/
theorem check_eq_parse (t : Text) : check t 0 = (parse t).map fun _ => () :=
  check_eq_of_dropBytes (Text.dropBytes_eq_some.2 ⟨[], rfl, rfl⟩)

/-- The checker accepts a text just when it is a mask. -/
theorem check_eq_ok_iff (t : Text) : check t 0 = .ok () ↔ ∃ mask, Spells t mask := by
  rw [check_eq_parse]
  simp only [← parse_eq_ok_iff]
  cases parse t with
  | error e => simp [Except.map]
  | ok mask => simp [Except.map]

end Mask

end PathGlob
