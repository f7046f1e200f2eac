/-
The matcher by positions reads the items of the mask.

Take a text that is a mask, cut into the pieces its items are written in. At the start of
a piece the matcher reads the item of this piece and stops behind it (`readItem_eq`). It
misses no character, because a piece is read from what is in it alone: a class has its
bracket, and a backslash the character behind it.

So a turn of this matcher is a step of the run over the items that are left (`turn_goes`):
both its positions stand where an item or a character begins, and so do the two that it
keeps for its return. A run comes to an end (`exists_done`), and since every cursor it comes
to stands for a run with the same answer, this is the only one it can give.
-/
import PathGlob.Mask.Cursor
import PathGlob.Proofs.Mask.Validation

set_option autoImplicit false

namespace PathGlob

open Text (byteSize charAt hasByte dropBytes)

namespace Mask

variable {t rest used : Text} {pos : Nat}

/-! ## Characters and ranges -/

theorem readChar_plain {c : Char} (h : dropBytes t pos = some (c :: rest)) (hescape : c ≠ '\\') :
    readChar t pos = ⟨c, pos + c.utf8Size, false⟩ := by
  rw [readChar, Text.hasByte_of_ne h rfl hescape]
  simp only [Bool.false_eq_true, if_false, Text.charAt_eq h, List.head?_cons]

theorem readChar_escape {c : Char} (h : dropBytes t pos = some ('\\' :: c :: rest)) :
    readChar t pos = ⟨c, pos + 1 + c.utf8Size, false⟩ := by
  have hnext : dropBytes t (pos + 1) = some (c :: rest) := Text.dropBytes_next h
  rw [readChar, Text.hasByte_head h rfl]
  simp only [if_true, Text.charAt_eq hnext, List.head?_cons]

theorem readChar_endpoint {c : Char} (hused : EndpointText used c)
    (h : dropBytes t pos = some (used ++ rest)) :
    readChar t pos = ⟨c, pos + byteSize used, false⟩ := by
  cases hused with
  | plain _ _ hescape => exact readChar_plain h hescape
  | escaped =>
    rw [readChar_escape h, byteSize, byteSize, Nat.add_assoc]
    rfl

theorem readRange_eq {r : CharRange} (hused : RangeText used r) (hdash : rest.head? ≠ some '-')
    (h : dropBytes t pos = some (used ++ rest)) :
    readRange t pos = ⟨r, pos + byteSize used, false⟩ := by
  cases hused with
  | single hc =>
    have hlone : hasByte t (pos + byteSize used) '-' = false := by
      rw [Text.hasByte_eq (Text.dropBytes_add h) rfl, beq_eq_false_iff_ne]
      exact hdash
    rw [readRange, readChar_endpoint hc h]
    simp only [hlone, Bool.false_eq_true, if_false]
  | @span lows highs lo hi hlo hhi =>
    rw [List.append_assoc] at h
    have hmid : dropBytes t (pos + byteSize lows) = some ('-' :: (highs ++ rest)) := Text.dropBytes_add h
    have hhigh : dropBytes t (pos + byteSize lows + 1) = some (highs ++ rest) := Text.dropBytes_next hmid
    rw [readRange, readChar_endpoint hlo h]
    simp only [Text.hasByte_head hmid rfl, if_true, readChar_endpoint hhi hhigh]
    rw [Text.byteSize_append, byteSize, show Char.utf8Size '-' = 1 from rfl]
    simp only [Bool.or_false, Nat.add_assoc]

/-! ## Classes and items -/

/-- The ranges of a class are read as they are written, up to its bracket. -/
theorem readRanges_eq {texts : List Text} {rs : List CharRange}
    (htexts : List.Forall₂ RangeText texts rs) {first : Bool} (hne : first = true → rs ≠ [])
    (h : dropBytes t pos = some (texts.flatten ++ ']' :: rest)) :
    readRanges t pos first = .closed ⟨rs, pos + byteSize texts.flatten + 1, false⟩ := by
  induction htexts generalizing pos first with
  | nil =>
    have hfirst : first = false := Bool.eq_false_iff.2 fun hfirst => hne hfirst rfl
    rw [readRanges, if_neg ((Text.le_iff_of_dropBytes h).not.2 (by simp)), Text.hasByte_head h rfl, hfirst]
    rfl
  | @cons piece r texts rs hpiece htexts ih =>
    rw [List.flatten_cons, List.append_assoc] at h
    -- Behind the range comes the next one or the bracket.
    have hdash : (texts.flatten ++ ']' :: rest).head? ≠ some '-' := by
      cases htexts with
      | nil => simp
      | cons hnext _ =>
        obtain ⟨d, more, rfl, hdash, -⟩ := hnext.exists_cons
        simpa using hdash
    have hrange := readRange_eq hpiece hdash h
    have hmore := @ih (pos + byteSize piece) false (by simp) (Text.dropBytes_add h)
    obtain ⟨d, more, rfl, -, hclose⟩ := hpiece.exists_cons
    have hsize := Text.byteSize_pos (List.cons_ne_nil d more)
    rw [readRanges, if_neg ((Text.le_iff_of_dropBytes h).not.2 (by simp)),
      Text.hasByte_of_ne h rfl hclose, Bool.false_and, if_neg Bool.false_ne_true, hrange]
    simp only []
    rw [if_neg (by omega), hmore, List.flatten_cons, Text.byteSize_append]
    simp only [Bool.or_false, Nat.add_assoc]

/-- A class is read from behind its bracket, or behind the `^` if that comes first. -/
theorem readItem_class {texts : List Text} {rs : List CharRange} {negated : Bool}
    (hopen : charAt t pos = some '[') (hcaret : hasByte t (pos + 1) '^' = negated)
    (hne : rs ≠ []) (htexts : List.Forall₂ RangeText texts rs)
    (h : dropBytes t (if negated then pos + 2 else pos + 1) =
      some (texts.flatten ++ ']' :: rest)) :
    readItem t pos = .item ⟨.oneOf negated rs,
      (if negated then pos + 2 else pos + 1) + byteSize texts.flatten + 1, false⟩ := by
  rw [readItem, hopen]
  simp only [hcaret, readRanges_eq htexts (fun _ => hne) h]

/-- **An item is read** from the start of its piece up to the end of it, and no character
is missing. -/
theorem readItem_eq {item : MaskItem} (hused : ItemText used item)
    (h : dropBytes t pos = some (used ++ rest)) :
    readItem t pos = .item ⟨item, pos + byteSize used, false⟩ := by
  have hchar := Text.charAt_eq h
  cases hused with
  | star =>
    rw [readItem, hchar]
    rfl
  | any =>
    rw [readItem, hchar]
    rfl
  | @plain c hescape hstar hany hclass =>
    rw [readItem, hchar, List.singleton_append, List.head?_cons, readChar_plain h hescape]
    split
    · rename_i heq
      cases heq
    · rename_i heq
      exact absurd (Option.some.inj heq) hstar
    · rename_i heq
      exact absurd (Option.some.inj heq) hany
    · rename_i heq
      exact absurd (Option.some.inj heq) hclass
    · rfl
  | @escaped c =>
    rw [readItem, hchar, List.cons_append, List.head?_cons, readChar_escape h, byteSize, byteSize,
      Nat.add_assoc]
    rfl
  | @oneOf texts rs hne htexts hcaret =>
    have hbody : dropBytes t (pos + 1) = some (texts.flatten ++ ']' :: rest) := by
      rw [← List.singleton_append, ← List.append_assoc]
      exact Text.dropBytes_next h
    have hplain : hasByte t (pos + 1) '^' = false := by
      rw [Text.hasByte_eq hbody rfl, beq_eq_false_iff_ne]
      cases hflat : texts.flatten with
      | nil => simp
      | cons c cs => simpa [hflat] using hcaret
    rw [readItem_class hchar hplain hne htexts hbody, byteSize, Text.byteSize_append]
    simp only [Bool.false_eq_true, if_false, Nat.add_assoc]
    rfl
  | @noneOf texts rs hne htexts =>
    have hnext : dropBytes t (pos + 1) = some ('^' :: (texts.flatten ++ [']'] ++ rest)) :=
      Text.dropBytes_next h
    have hbody : dropBytes t (pos + 2) = some (texts.flatten ++ ']' :: rest) := by
      rw [← List.singleton_append, ← List.append_assoc]
      exact Text.dropBytes_next hnext
    have hsize : byteSize ('[' :: '^' :: (texts.flatten ++ [']'])) = 2 + byteSize texts.flatten + 1 := by
      rw [byteSize, byteSize, Text.byteSize_append, ← Nat.add_assoc, ← Nat.add_assoc]
      rfl
    rw [readItem_class hchar (Text.hasByte_head hnext rfl) hne htexts hbody, hsize]
    simp only [if_true, Nat.add_assoc]

/-- In a text that is no mask a character can be missing. -/
example : readItem "a\\".toList 1 = .item ⟨.char '\\', 2, true⟩ := by decide

/-! ## The cursor and the run -/

variable {pieces : List Text} {mask items : Mask} {name left : Text} {ret : Return}

/-- The position is where a piece begins, or the end, and these items are left. -/
def Faces (pieces : List Text) (mask : Mask) (pos : Nat) (items : Mask) : Prop :=
  ∃ k, k ≤ pieces.length ∧ pos = byteSize (pieces.take k).flatten ∧ items = mask.drop k

/-- The spot stands for items that are left and a part of the name that is left. -/
structure Stands (pieces : List Text) (mask : Mask) (name : Text) (spot : Spot) (items : Mask)
    (left : Text) : Prop where
  faces : Faces pieces mask spot.pattern items
  name : dropBytes name spot.name = some left

/-- The spot to return to stands for what the run returns to. -/
inductive Noted (pieces : List Text) (mask : Mask) (name : Text) : Option Spot → Return → Prop
  | none : Noted pieces mask name none none
  | some {spot : Spot} {items : Mask} {left : Text} :
    Stands pieces mask name spot items left → Noted pieces mask name (some spot) (some (items, left))

/-- The cursor stands for the run from here. -/
structure Tracks (pieces : List Text) (mask : Mask) (name : Text) (m : Cursor) (items : Mask)
    (left : Text) (ret : Return) : Prop where
  stands : Stands pieces mask name m.spot items left
  noted : Noted pieces mask name m.star ret

/-- A turn gives the answer, or leads to a cursor whose run has this answer and has less to
go through than `size`. -/
inductive Goes (pieces : List Text) (mask : Mask) (name : Text) (answer : Bool) (size : Nat × Nat) :
    Turn → Prop
  | done : Goes pieces mask name answer size (.done answer)
  | next {m : Cursor} {items : Mask} {left : Text} {ret : Return} :
    Tracks pieces mask name m items left ret → run items left ret = answer →
      Prod.Lex (· < ·) (· < ·) (reach left ret, items.length) size →
      Goes pieces mask name answer size (.next m)

/-- At the position a piece begins, the one of this item, which is read there. -/
structure PieceAt (pieces : List Text) (mask : Mask) (pos k : Nat) (used : Text) (item : MaskItem) :
    Prop where
  piece : pieces[k]? = some used
  listed : mask[k]? = some item
  starts : pos = byteSize (pieces.take k).flatten
  stops : byteSize (pieces.take (k + 1)).flatten = pos + byteSize used
  inside : ¬ byteSize pieces.flatten ≤ pos
  reads : readItem pieces.flatten pos = .item ⟨item, pos + byteSize used, false⟩

/-- In front of an item its piece begins, and behind the piece the other items are left. -/
theorem Faces.exists_piece {item : MaskItem} (h : Faces pieces mask pos (item :: items))
    (hspells : List.Forall₂ ItemText pieces mask) :
    ∃ k used, PieceAt pieces mask pos k used item ∧
      Faces pieces mask (pos + byteSize used) items := by
  obtain ⟨k, hk, rfl, hitems⟩ := h
  have hback : List.Forall₂ ItemText (pieces.drop k) (item :: items) := by
    rw [hitems]
    exact List.forall₂_drop k hspells
  cases hdrop : pieces.drop k with
  | nil =>
    rw [hdrop] at hback
    cases hback
  | cons used back =>
    rw [hdrop] at hback
    cases hback with
    | cons hwritten _ =>
      have hused : pieces[k]? = some used := by rw [← List.head?_drop, hdrop, List.head?_cons]
      have hpattern : dropBytes pieces.flatten (byteSize (pieces.take k).flatten) =
          some (used ++ back.flatten) := by
        refine Text.dropBytes_eq_some.2 ⟨_, ?_, rfl⟩
        rw [← List.flatten_cons, ← List.flatten_append, ← hdrop, List.take_append_drop]
      have hstops : byteSize (pieces.take (k + 1)).flatten =
          byteSize (pieces.take k).flatten + byteSize used := by
        rw [List.take_add_one, hused, Option.toList_some, List.flatten_append,
          List.flatten_singleton, Text.byteSize_append]
      refine ⟨k, used, ⟨hused, ?_, rfl, hstops, ?_, readItem_eq hwritten hpattern⟩,
        k + 1, ?_, hstops.symm, ?_⟩
      · rw [← List.head?_drop, ← hitems, List.head?_cons]
      · rw [Text.le_iff_of_dropBytes hpattern, List.append_eq_nil_iff]
        exact fun hnil => hwritten.ne_nil hnil.1
      · exact (List.getElem?_eq_some_iff.1 hused).1
      · rw [← List.tail_drop, ← hitems, List.tail_cons]

/-- Where no item is left the pattern ends. -/
theorem Faces.eq_end (h : Faces pieces mask pos []) (hspells : List.Forall₂ ItemText pieces mask) :
    pos = byteSize pieces.flatten := by
  obtain ⟨k, hk, rfl, hitems⟩ := h
  have hlen := hspells.length_eq
  have hle := List.drop_eq_nil_iff.1 hitems.symm
  rw [List.take_of_length_le (by omega)]

theorem readItem_end (t : Text) : readItem t (byteSize t) = .finished := by
  have hend : dropBytes t (byteSize t) = some [] :=
    Text.dropBytes_eq_some.2 ⟨t, (List.append_nil t).symm, rfl⟩
  rw [readItem, Text.charAt_eq hend]
  rfl

/-! ## One turn -/

/-- What is left to the run when the items and the name do not go on together. -/
def runBack (ret : Return) : Bool :=
  match widened ret with
  | none => false
  | some (items, left) => run items left (some (items, left))

theorem run_nil_cons (c : Char) (left : Text) (ret : Return) :
    run [] (c :: left) ret = runBack ret := by
  rw [run, runBack]
  · cases widened ret <;> rfl
  all_goals simp

theorem run_cons_nil {item : MaskItem} (hitem : item ≠ .star) (items : Mask) (ret : Return) :
    run (item :: items) [] ret = runBack ret := by
  rw [run, runBack]
  · cases widened ret <;> rfl
  all_goals simp [hitem]

theorem run_mismatch {item : MaskItem} {c : Char} (hitem : item ≠ .star)
    (htakes : ¬ item.takes c = true) (items : Mask) (left : Text) (ret : Return) :
    run (item :: items) (c :: left) ret = runBack ret := by
  rw [run, if_neg htakes, runBack]
  · cases widened ret <;> rfl
  · exact hitem

/-- Going back leads to where the run goes back to. -/
theorem backtrack_goes {star : Option Spot} (h : Noted pieces mask name star ret) (left : Text)
    (n : Nat) : Goes pieces mask name (runBack ret) (reach left ret, n) (backtrack name star) := by
  cases h with
  | none => exact .done
  | @some spot items taken hstands =>
    rw [backtrack, Text.charAt_eq hstands.name]
    cases taken with
    | nil => exact .done
    | cons c taken =>
      simp only [List.head?_cons]
      by_cases hc : (c == '/') = true
      · have hnone : widened (some (items, c :: taken)) = none := by rw [widened, if_pos hc]
        rw [if_pos hc, runBack, hnone]
        exact .done
      · have hsome : widened (some (items, c :: taken)) = some (items, taken) := by
          rw [widened, if_neg hc]
        have hwider : Stands pieces mask name ⟨spot.pattern, spot.name + c.utf8Size⟩ items taken :=
          ⟨hstands.faces, Text.dropBytes_next hstands.name⟩
        rw [if_neg hc, runBack, hsome]
        exact .next ⟨hwider, .some hwider⟩ rfl (.left _ _ (reach_widened hsome))

/-- What a turn does with an item that is no star. -/
theorem turn_item {pattern : Text} {m : Cursor} {item : MaskItem} {stop : Nat} {missing : Bool}
    (hgoes : ¬ byteSize pattern ≤ m.spot.pattern)
    (hread : readItem pattern m.spot.pattern = .item ⟨item, stop, missing⟩)
    (hitem : item ≠ .star) :
    turn pattern name m =
      match charAt name m.spot.name with
      | none => backtrack name m.star
      | some c =>
        if item.takes c then .next ⟨⟨stop, m.spot.name + c.utf8Size⟩, m.star⟩
        else backtrack name m.star := by
  rw [turn, if_neg fun hboth => hgoes hboth.1, hread]
  cases item with
  | star => exact absurd rfl hitem
  | any => rfl
  | char c => rfl
  | oneOf negated ranges => rfl

/-- **One turn** is one step of the run. -/
theorem turn_goes {m : Cursor} (hspells : List.Forall₂ ItemText pieces mask)
    (h : Tracks pieces mask name m items left ret) :
    Goes pieces mask name (run items left ret) (reach left ret, items.length)
      (turn pieces.flatten name m) := by
  obtain ⟨⟨hfaces, hname⟩, hnoted⟩ := h
  have hleft := Text.charAt_eq hname
  have hsize := Text.le_iff_of_dropBytes hname
  cases items with
  | nil =>
    have hend := hfaces.eq_end hspells
    cases left with
    | nil =>
      rw [turn, if_pos ⟨Nat.le_of_eq hend.symm, hsize.2 rfl⟩, run]
      exact .done
    | cons c left =>
      rw [turn, if_neg fun hboth => List.cons_ne_nil c left (hsize.1 hboth.2), hend, readItem_end,
        hleft, run_nil_cons]
      exact backtrack_goes hnoted _ _
  | cons item items =>
    obtain ⟨k, used, hpiece, hbehind⟩ := hfaces.exists_piece hspells
    by_cases hitem : item = .star
    · subst hitem
      have hstands : Stands pieces mask name ⟨m.spot.pattern + byteSize used, m.spot.name⟩ items left :=
        ⟨hbehind, hname⟩
      rw [turn, if_neg fun hboth => hpiece.inside hboth.1, hpiece.reads, run]
      exact .next ⟨hstands, .some hstands⟩ rfl (lex_of_le (reach_restart items left ret)
        (Nat.lt_succ_self _))
    · rw [turn_item hpiece.inside hpiece.reads hitem, hleft]
      cases left with
      | nil =>
        rw [run_cons_nil hitem]
        exact backtrack_goes hnoted _ _
      | cons c left =>
        simp only [List.head?_cons]
        by_cases htakes : item.takes c = true
        · rw [if_pos htakes, run, if_pos htakes]
          · exact .next ⟨⟨hbehind, Text.dropBytes_next hname⟩, hnoted⟩ rfl
              (lex_of_le (reach_tail c left ret) (Nat.lt_succ_self _))
          · exact hitem
        · rw [if_neg htakes, run_mismatch hitem htakes]
          exact backtrack_goes hnoted _ _

/-! ## The whole run -/

theorem tracks_start (name : Text) : Tracks pieces mask name ⟨⟨0, 0⟩, none⟩ mask name none where
  stands :=
    { faces := ⟨0, Nat.zero_le _, rfl, rfl⟩
      name := Text.dropBytes_eq_some.2 ⟨[], rfl, rfl⟩ }
  noted := .none

/-- Every cursor the matcher comes to stands for a run with the answer of the whole. -/
theorem Reached.exists_tracks {m : Cursor} (h : Reached pieces.flatten name m)
    (hspells : List.Forall₂ ItemText pieces mask) :
    ∃ items left ret, Tracks pieces mask name m items left ret ∧
      run items left ret = accepts mask name := by
  induction h with
  | start => exact ⟨mask, name, none, tracks_start name, rfl⟩
  | @next m m' _ hturn ih =>
    obtain ⟨items, left, ret, htracks, hrun⟩ := ih
    have hgoes := turn_goes hspells htracks
    rw [hturn] at hgoes
    cases hgoes with
    | next htracks' hrun' _ => exact ⟨_, _, _, htracks', hrun'.trans hrun⟩

/-- From every cursor the matcher comes to an end. -/
theorem exists_done {m : Cursor} {items : Mask} {left : Text} {ret : Return}
    (hspells : List.Forall₂ ItemText pieces mask) (htracks : Tracks pieces mask name m items left ret)
    (h : Reached pieces.flatten name m) :
    ∃ m', Reached pieces.flatten name m' ∧
      turn pieces.flatten name m' = .done (run items left ret) := by
  have hgoes := turn_goes hspells htracks
  generalize hturn : turn pieces.flatten name m = next at hgoes
  cases hgoes with
  | done => exact ⟨m, h, hturn⟩
  | next htracks' hrun hless =>
    rw [← hrun]
    exact exists_done hspells htracks' (.next h hturn)
termination_by (reach left ret, items.length)
decreasing_by exact hless

/-- **The answer** of the matcher by positions, for a text that is a mask. -/
theorem reached_done_iff (hspells : List.Forall₂ ItemText pieces mask) (name : Text) (b : Bool) :
    (∃ m, Reached pieces.flatten name m ∧ turn pieces.flatten name m = .done b) ↔
      fits pieces.flatten name = .ok b := by
  rw [fits, parse_eq_ok_iff.2 ⟨pieces, hspells, rfl⟩]
  simp only [Except.ok.injEq]
  constructor
  · rintro ⟨m, hm, hturn⟩
    obtain ⟨items, left, ret, htracks, hrun⟩ := hm.exists_tracks hspells
    have hgoes := turn_goes hspells htracks
    rw [hturn, hrun] at hgoes
    cases hgoes
    rfl
  · rintro rfl
    exact exists_done hspells (tracks_start name) .start

/-- The position is where a piece begins, and the item of this piece is read there, up to
where the next begins, with no character missing. Or it is the end, and nothing is read. -/
inductive InStep (pieces : List Text) (mask : Mask) (pos : Nat) : Prop
  | item {k : Nat} {used : Text} {item : MaskItem} :
    pieces[k]? = some used → mask[k]? = some item → pos = byteSize (pieces.take k).flatten →
      readItem pieces.flatten pos = .item ⟨item, byteSize (pieces.take (k + 1)).flatten, false⟩ →
      InStep pieces mask pos
  | finished : pos = byteSize pieces.flatten → readItem pieces.flatten pos = .finished →
    InStep pieces mask pos

theorem Faces.inStep (h : Faces pieces mask pos items) (hspells : List.Forall₂ ItemText pieces mask) :
    InStep pieces mask pos := by
  cases items with
  | nil =>
    have hend := h.eq_end hspells
    exact .finished hend (hend ▸ readItem_end pieces.flatten)
  | cons item items =>
    obtain ⟨k, used, hpiece, -⟩ := h.exists_piece hspells
    exact .item hpiece.piece hpiece.listed hpiece.starts (hpiece.stops ▸ hpiece.reads)

/-- **The checker and the matcher go by one grammar.** The checker accepts the texts that
are items written one after another. In such a text, whatever the name, the matcher only
comes to where an item begins or to the end; it reads the item as it is written, and nothing
that is missing; and it ends with the answer that the mask gives. -/
theorem checked_reads_items :
    (∀ text, check text 0 = .ok () ↔ ∃ mask, Spells text mask) ∧
    ∀ pieces mask, List.Forall₂ ItemText pieces mask → ∀ name,
      (∀ m, Reached pieces.flatten name m → InStep pieces mask m.spot.pattern) ∧
      ∀ b, (∃ m, Reached pieces.flatten name m ∧ turn pieces.flatten name m = .done b) ↔
        fits pieces.flatten name = .ok b := by
  refine ⟨check_eq_ok_iff, fun pieces mask hspells name => ⟨fun m hm => ?_, reached_done_iff hspells name⟩⟩
  obtain ⟨items, left, ret, htracks, -⟩ := hm.exists_tracks hspells
  exact htracks.stands.faces.inStep hspells

/-- A negated class with an escaped dash and a character of two bytes, an escaped one of two
bytes, and a star that has to take more. -/
theorem checked_reads_items_escaped :
    List.Forall₂ ItemText ["[^\\--9é]".toList, "\\ß".toList, "*".toList, "x".toList]
      [.oneOf true [⟨'-', '9'⟩, ⟨'é', 'é'⟩], .char 'ß', .star, .char 'x'] ∧
    check "[^\\--9é]\\ß*x".toList 0 = .ok () ∧
    (∀ m, Reached "[^\\--9é]\\ß*x".toList "aßxx".toList m →
      InStep ["[^\\--9é]".toList, "\\ß".toList, "*".toList, "x".toList]
        [.oneOf true [⟨'-', '9'⟩, ⟨'é', 'é'⟩], .char 'ß', .star, .char 'x'] m.spot.pattern) ∧
    ∃ m, Reached "[^\\--9é]\\ß*x".toList "aßxx".toList m ∧
      turn "[^\\--9é]\\ß*x".toList "aßxx".toList m = .done true := by
  have hclass : ItemText "[^\\--9é]".toList (.oneOf true [⟨'-', '9'⟩, ⟨'é', 'é'⟩]) :=
    @ItemText.noneOf ["\\--9".toList, "é".toList] _ (by decide)
      (.cons (.span (.escaped '-') (.plain (by decide) (by decide) (by decide)))
        (.cons (.single (.plain (by decide) (by decide) (by decide))) .nil))
  have hspells : List.Forall₂ ItemText ["[^\\--9é]".toList, "\\ß".toList, "*".toList, "x".toList]
      [.oneOf true [⟨'-', '9'⟩, ⟨'é', 'é'⟩], .char 'ß', .star, .char 'x'] :=
    .cons hclass (.cons (.escaped 'ß') (.cons .star
      (.cons (.plain (by decide) (by decide) (by decide) (by decide)) .nil)))
  have hflat : ["[^\\--9é]".toList, "\\ß".toList, "*".toList, "x".toList].flatten =
      "[^\\--9é]\\ß*x".toList := by decide
  obtain ⟨haccepts, hreads⟩ := checked_reads_items
  obtain ⟨hsteps, hdone⟩ := hreads _ _ hspells "aßxx".toList
  rw [hflat] at hsteps hdone
  have hparse : parse "[^\\--9é]\\ß*x".toList =
      .ok [.oneOf true [⟨'-', '9'⟩, ⟨'é', 'é'⟩], .char 'ß', .star, .char 'x'] := by decide +kernel
  have hfits : fits "[^\\--9é]\\ß*x".toList "aßxx".toList = .ok true := by
    rw [fits, hparse]
    cbv
  exact ⟨hspells, (haccepts _).2 ⟨_, _, hspells, hflat.symm⟩, hsteps, (hdone true).2 hfits⟩

end Mask

end PathGlob
