/-
Masks of several components against names of several components.

A literal of a pattern is one mask for a window of components. When mask and
window have equally many separators, every separator of the window is taken by a
separator of the mask, and the whole fits exactly when each component fits its
name (`fits_written`). This holds also for classes that take a separator: there
is none left over for them. When the window has fewer separators than the mask
spells out, nothing fits (`not_fits_of_count_lt`).

A window with more separators than the mask is the case that is not component by
component. A class that takes a separator can make it fit, and it is excluded
only where no class does (`accepts_close`).
-/
import PathGlob.Proofs.Mask.Language
import PathGlob.Proofs.Mask.Reading
import PathGlob.Proofs.Text.Spelling

set_option autoImplicit false

namespace PathGlob

namespace Mask

/-- The text is a mask that takes the name. -/
def Fits (text name : Text) : Prop := fits text name = .ok true

instance (text name : Text) : Decidable (Fits text name) :=
  inferInstanceAs (Decidable (_ = _))

/-- Each of these texts is a mask. -/
def ReadAs (parts : List Text) (masks : List Mask) : Prop :=
  List.Forall₂ (fun part mask => parse part = .ok mask) parts masks

theorem fits_of_parse {text : Text} {mask : Mask} (h : parse text = .ok mask) (name : Text) :
    fits text name = .ok (accepts mask name) := by
  rw [fits, h]

/-! ## The mask of a written text -/

/-- A mask has no separator item without a separator in its text. -/
theorem sep_notMem_of_parse {text : Text} {mask : Mask} (h : parse text = .ok mask)
    (htext : '/' ∉ text) : MaskItem.char '/' ∉ mask := by
  induction hlen : text.length using Nat.strongRecOn generalizing text mask with
  | ind n ih =>
    by_cases hne : text = []
    · subst hne
      obtain rfl : mask = [] := by simpa [parse] using h.symm
      simp
    · obtain ⟨item, used, rest, mask', hread, rfl, rfl, hrest⟩ := exists_item h hne
      rw [List.mem_append, not_or] at htext
      have hpos := List.length_pos_iff.2 hread.ne_nil
      rw [List.length_append] at hlen
      rw [List.mem_cons, not_or]
      exact ⟨fun hitem => htext.1 (hread.mem_of_sep hitem.symm),
        ih rest.length (by omega) hrest htext.2 rfl⟩

theorem parse_spell {closed : Bool} {parts : List Text} {masks : List Mask}
    (h : ReadAs parts masks) :
    parse (spell '/' closed parts) = .ok (spell (.char '/') closed masks) := by
  induction h with
  | nil => simp [parse]
  | @cons part mask parts masks hpart hparts ih =>
    -- Text and mask have a separator here or neither has.
    have hempty : parts.isEmpty = masks.isEmpty := by
      rw [Bool.eq_iff_iff, List.isEmpty_iff, List.isEmpty_iff, ← List.length_eq_zero_iff,
        ← List.length_eq_zero_iff, hparts.length_eq]
    rw [spell, spell, hempty]
    refine parse_append_ok hpart ?_
    cases closed || !masks.isEmpty with
    | false => exact ih
    | true =>
      rw [if_pos rfl, if_pos rfl, List.singleton_append, parse_separator, ih]
      rfl

theorem parse_written {front back : Bool} {parts : List Text} {masks : List Mask}
    (h : ReadAs parts masks) :
    parse (Text.written front back parts) =
      .ok ((if front then [.char '/'] else []) ++ spell (.char '/') back masks) := by
  cases front with
  | false => exact parse_spell h
  | true =>
    rw [Text.written, if_pos rfl, if_pos rfl, List.singleton_append, parse_separator,
      parse_spell h]
    rfl

/-- Where separators stand, the parts of a mask are masks. -/
theorem readAs_of_parse_spell {closed : Bool} {parts : List Text} {mask : Mask}
    (h : parse (spell '/' closed parts) = .ok mask)
    (hstand : SeparatorsStand (spell '/' closed parts)) : ∃ masks, ReadAs parts masks := by
  induction parts generalizing mask with
  | nil => exact ⟨[], .nil⟩
  | cons part rest ih =>
    by_cases hclosing : closed || !rest.isEmpty
    · rw [spell, if_pos hclosing, List.singleton_append] at h hstand
      obtain ⟨left, right, hleft, hright, -, hback⟩ := exists_parse_of_append h hstand
      obtain ⟨masks, hmasks⟩ := ih hright hback
      exact ⟨left :: masks, .cons hleft hmasks⟩
    · -- The last part, and no separator behind it.
      simp only [Bool.or_eq_true, Bool.not_eq_true', not_or, Bool.not_eq_true,
        Bool.not_eq_false, List.isEmpty_iff] at hclosing
      obtain ⟨rfl, rfl⟩ := hclosing
      rw [spell_singleton, if_neg (by simp), List.append_nil] at h
      exact ⟨[mask], .cons h .nil⟩

theorem readAs_of_parse_written {front back : Bool} {parts : List Text} {mask : Mask}
    (h : parse (Text.written front back parts) = .ok mask)
    (hstand : SeparatorsStand (Text.written front back parts)) :
    ∃ masks, ReadAs parts masks := by
  cases front with
  | false => exact readAs_of_parse_spell h hstand
  | true =>
    have hcut : Text.written true back parts = [] ++ '/' :: spell '/' back parts := rfl
    rw [hcut] at h hstand
    obtain ⟨-, mask', -, hmask', -, hstand'⟩ := exists_parse_of_append h hstand
    exact readAs_of_parse_spell hmask' hstand'

/-! ## Derivations of a written text -/

theorem append_sep_inj {a b c d : Text} (ha : '/' ∉ a) (hc : '/' ∉ c)
    (h : a ++ '/' :: b = c ++ '/' :: d) : a = c ∧ b = d := by
  have hsplit := congrArg (List.splitOn '/') h
  rw [List.splitOn_append_cons_self_of_not_mem ha, List.splitOn_append_cons_self_of_not_mem hc,
    List.cons.injEq] at hsplit
  obtain ⟨rfl, -⟩ := hsplit
  exact ⟨rfl, by simpa using h⟩

/-- A separator that no class takes cuts a derivation in two. -/
theorem derives_cut {left right : Mask} {a b : Text} (hleft : MaskItem.char '/' ∉ left)
    (ha : '/' ∉ a) :
    Derives true (left ++ .char '/' :: right) (a ++ '/' :: b) ↔
      Derives true left a ∧ Derives true right b := by
  constructor
  · intro h
    obtain ⟨taken, more, hname, htaken, hmore⟩ := Derives.append_iff.1 h
    obtain ⟨c, rest, rfl, htakes, -, hrest⟩ := (Derives.item_iff (by simp)).1 hmore
    have hc : c = '/' := by simpa [MaskItem.takes] using htakes
    -- The left mask has taken no separator, so it stops at the first one.
    have htakenSep : '/' ∉ taken := by
      intro hmem
      have hcount := htaken.count_eq
      rw [List.count_eq_zero.2 hleft] at hcount
      exact List.count_eq_zero.1 hcount hmem
    subst hc
    obtain ⟨rfl, rfl⟩ := append_sep_inj ha htakenSep hname
    exact ⟨htaken, hrest⟩
  · rintro ⟨ha', hb⟩
    exact Derives.append_iff.2 ⟨a, '/' :: b, rfl, ha', .take (by simp [MaskItem.takes]) (by simp) hb⟩

/-- Component by component, when there are equally many. -/
theorem derives_spell {closed : Bool} {masks : List Mask} {words : List Text}
    (hlen : masks.length = words.length) (hmasks : ∀ mask ∈ masks, MaskItem.char '/' ∉ mask)
    (hwords : ∀ word ∈ words, '/' ∉ word) :
    Derives true (spell (.char '/') closed masks) (spell '/' closed words) ↔
      List.Forall₂ (Derives true) masks words := by
  induction masks generalizing words with
  | nil =>
    obtain rfl := List.length_eq_zero_iff.1 hlen.symm
    exact ⟨fun _ => .nil, fun _ => .done⟩
  | cons mask masks ih =>
    obtain ⟨word, words, rfl⟩ := List.exists_cons_of_length_eq_add_one hlen.symm
    obtain ⟨hmask, hmasks⟩ := List.forall_mem_cons.1 hmasks
    obtain ⟨hword, hwords⟩ := List.forall_mem_cons.1 hwords
    have hlen' : masks.length = words.length := by simpa using hlen
    have hempty : words.isEmpty = masks.isEmpty := by
      rw [Bool.eq_iff_iff, List.isEmpty_iff, List.isEmpty_iff, ← List.length_eq_zero_iff,
        ← List.length_eq_zero_iff, hlen']
    rw [List.forall₂_cons, ← ih hlen' hmasks hwords, spell, spell, hempty]
    by_cases hclosing : closed || !masks.isEmpty
    · rw [if_pos hclosing, if_pos hclosing, List.singleton_append, List.singleton_append]
      exact derives_cut hmask hword
    · -- Nothing follows, neither a separator nor another component.
      simp only [Bool.or_eq_true, Bool.not_eq_true', not_or, Bool.not_eq_true,
        Bool.not_eq_false, List.isEmpty_iff] at hclosing
      obtain ⟨rfl, rfl⟩ := hclosing
      obtain rfl := List.length_eq_zero_iff.1 hlen'.symm
      simp [Derives.nil_iff]

theorem derives_written {front back : Bool} {masks : List Mask} {words : List Text}
    (hlen : masks.length = words.length) (hmasks : ∀ mask ∈ masks, MaskItem.char '/' ∉ mask)
    (hwords : ∀ word ∈ words, '/' ∉ word) :
    Derives true ((if front then [.char '/'] else []) ++ spell (.char '/') back masks)
        (Text.written front back words) ↔ List.Forall₂ (Derives true) masks words := by
  rw [← derives_spell hlen hmasks hwords]
  cases front with
  | false => exact Iff.rfl
  | true =>
    have hcut := @derives_cut [] (spell (.char '/') back masks) [] (spell '/' back words)
      (by simp) (by simp)
    rw [Derives.nil_iff] at hcut
    exact hcut.trans (and_iff_right rfl)

/-! ## Windows of as many components as the mask -/

theorem count_written {front back : Bool} {parts : List Text} (hparts : parts ≠ [])
    (hsep : ∀ part ∈ parts, '/' ∉ part) :
    (Text.written front back parts).count '/' + 1 =
      (if front then 1 else 0) + (parts.length + if back then 1 else 0) := by
  have hspell := @count_spell _ '/' back _ parts hparts hsep
  rw [Text.written, List.count_append]
  cases front with
  | false =>
    rw [if_neg (by simp), if_neg (by simp), List.count_nil]
    omega
  | true =>
    rw [if_pos rfl, if_pos rfl, List.count_cons_self, List.count_nil]
    omega

theorem sep_notMem_of_readAs {parts : List Text} {masks : List Mask} (h : ReadAs parts masks)
    (hsep : ∀ part ∈ parts, '/' ∉ part) : ∀ mask ∈ masks, MaskItem.char '/' ∉ mask := by
  induction h with
  | nil => simp
  | cons hpart hparts ih =>
    rw [List.forall_mem_cons] at hsep ⊢
    exact ⟨sep_notMem_of_parse hpart hsep.1, ih hsep.2⟩

/-- The mask of a written text spells out the separators of the text. -/
theorem count_mask_written {front back : Bool} {parts : List Text} {masks : List Mask}
    (h : ReadAs parts masks) (hparts : parts ≠ []) (hsep : ∀ part ∈ parts, '/' ∉ part) :
    ((if front then [MaskItem.char '/'] else []) ++ spell (.char '/') back masks).count (.char '/') =
      (Text.written front back parts).count '/' := by
  have hmasks : masks ≠ [] := by
    intro hnil
    rw [hnil] at h
    exact hparts (List.forall₂_nil_right_iff.1 h)
  have hcount := @count_spell _ (MaskItem.char '/') back _ masks hmasks (sep_notMem_of_readAs h hsep)
  have htext := @count_written front back parts hparts hsep
  have hlen := h.length_eq
  rw [List.count_append]
  cases front with
  | false =>
    rw [if_neg (by simp)] at htext ⊢
    rw [List.count_nil]
    omega
  | true =>
    rw [if_pos rfl] at htext ⊢
    rw [List.count_cons_self, List.count_nil]
    omega

/-- The parts fit the words one by one. -/
theorem forall₂_fits {parts words : List Text} {masks : List Mask} (h : ReadAs parts masks)
    (hwords : ∀ word ∈ words, '/' ∉ word) :
    List.Forall₂ Fits parts words ↔ List.Forall₂ (Derives true) masks words := by
  induction h generalizing words with
  | nil => simp
  | @cons part mask parts masks hpart hparts ih =>
    cases words with
    | nil => simp
    | cons word words =>
      rw [List.forall_mem_cons] at hwords
      rw [List.forall₂_cons, List.forall₂_cons, ih hwords.2, Fits, fits_of_parse hpart,
        Except.ok.injEq, accepts_iff_derives hwords.1]

/-- **Component by component.** A written mask fits a window of as many
components with the same bounding separators exactly when each component fits. -/
theorem fits_written {front back : Bool} {parts words : List Text} {masks : List Mask}
    (h : ReadAs parts masks) (hsep : ∀ part ∈ parts, '/' ∉ part)
    (hwords : ∀ word ∈ words, '/' ∉ word) (hlen : parts.length = words.length) :
    Fits (Text.written front back parts) (Text.written front back words) ↔
      List.Forall₂ Fits parts words := by
  have hmasks := sep_notMem_of_readAs h hsep
  have hlenMasks : masks.length = words.length := by rw [← h.length_eq, hlen]
  rw [forall₂_fits h hwords, ← @derives_written front back _ _ hlenMasks hmasks hwords, Fits,
    fits_of_parse (parse_written h), Except.ok.injEq]
  constructor
  · intro haccepts
    by_cases hparts : parts = []
    · subst hparts
      obtain rfl := List.length_eq_zero_iff.1 hlen.symm
      obtain rfl := List.forall₂_nil_left_iff.1 h
      refine (derives_written (by simp) (by simp) (by simp)).2 .nil
    · -- Equal counts leave no separator for a class.
      have hwordsNe : words ≠ [] := by
        intro hnil
        rw [hnil] at hlen
        exact hparts (List.length_eq_zero_iff.1 hlen)
      refine (derives_of_accepts haccepts).barred_of_count ?_
      have htext := @count_written front back parts hparts hsep
      have hname := @count_written front back words hwordsNe hwords
      rw [count_mask_written h hparts hsep]
      omega
  · exact accepts_of_derives

/-- A window with fewer separators than the mask spells out does not fit. -/
theorem not_fits_of_count_lt {front back : Bool} {parts : List Text} {masks : List Mask}
    (h : ReadAs parts masks) (hparts : parts ≠ []) (hsep : ∀ part ∈ parts, '/' ∉ part)
    {name : Text} (hcount : name.count '/' < (Text.written front back parts).count '/') :
    ¬ Fits (Text.written front back parts) name := by
  intro hfits
  rw [Fits, fits_of_parse (parse_written h), Except.ok.injEq] at hfits
  have hle := (derives_of_accepts hfits).count_le
  rw [count_mask_written h hparts hsep] at hle
  omega

/-- A plain component without a backslash is read as it stands. -/
theorem parse_plain {text : Text} (hplain : isPlain text = true) (hescape : '\\' ∉ text) :
    parse text = .ok (text.map .char) := by
  induction text with
  | nil => simp [parse]
  | cons c rest ih =>
    rw [isPlain, List.all_cons, Bool.and_eq_true, Bool.and_eq_true, Bool.and_eq_true, bne_iff_ne,
      bne_iff_ne, bne_iff_ne] at hplain
    obtain ⟨⟨⟨hstar, hany⟩, hclass⟩, hrest⟩ := hplain
    rw [List.mem_cons, not_or] at hescape
    have hread := ItemText.plain (Ne.symm hescape.1) hstar hany hclass
    have hparse := hread.parse_append rest
    rw [List.singleton_append, ih hrest hescape.2] at hparse
    exact hparse

theorem derives_chars {text name : Text} : Derives true (text.map .char) name ↔ name = text := by
  induction text generalizing name with
  | nil => exact Derives.nil_iff
  | cons c rest ih =>
    rw [List.map_cons, Derives.item_iff (by simp)]
    constructor
    · rintro ⟨d, more, rfl, htakes, -, h⟩
      rw [ih.1 h]
      simpa [MaskItem.takes] using htakes
    · rintro rfl
      exact ⟨c, rest, rfl, by simp [MaskItem.takes], by simp, ih.2 rfl⟩

/-- A text that is read as the characters of a word takes that word alone. -/
theorem fits_chars {text word name : Text} (h : parse text = .ok (word.map .char)) :
    Fits text name ↔ name = word := by
  have hbars : BarsSeparator (word.map MaskItem.char) := by
    intro item hitem htakes
    obtain ⟨c, -, rfl⟩ := List.mem_map.1 hitem
    have hc : '/' = c := by simpa [MaskItem.takes] using htakes
    rw [hc]
  rw [Fits, fits_of_parse h, Except.ok.injEq, accepts_iff_derives_of_barsSeparator hbars,
    derives_chars]

/-- Such a component fits itself alone. -/
theorem fits_plain {text name : Text} (hplain : isPlain text = true) (hescape : '\\' ∉ text) :
    Fits text name ↔ name = text :=
  fits_chars (parse_plain hplain hescape)

/-- A text is read as one mask at most. -/
theorem barsSeparator_of_parse {text : Text} {mask : Mask} (hparse : parse text = .ok mask)
    (hbars : BarsSeparator mask) : ∀ other, parse text = .ok other → BarsSeparator other := by
  intro other hother
  obtain rfl := Except.ok.inj (hparse.symm.trans hother)
  exact hbars

/-- When no class takes a separator, one more at the end of both changes
nothing. -/
theorem accepts_close {mask : Mask} (hmask : BarsSeparator mask) (name : Text) :
    accepts (mask ++ [.char '/']) (name ++ ['/']) = accepts mask name := by
  have hclosed : BarsSeparator (mask ++ [.char '/']) := by
    intro item hitem htakes
    rcases List.mem_append.1 hitem with hitem | hitem
    · exact hmask item hitem htakes
    · exact List.mem_singleton.1 hitem
  rw [Bool.eq_iff_iff, accepts_iff_derives_of_barsSeparator hclosed,
    accepts_iff_derives_of_barsSeparator hmask, Derives.append_iff]
  constructor
  · -- The last item takes one character, which is the separator of the name.
    rintro ⟨taken, more, hname, htaken, hmore⟩
    obtain ⟨c, rest, rfl, -, -, hrest⟩ := (Derives.item_iff (by simp)).1 hmore
    rw [Derives.nil_iff.1 hrest] at hname
    obtain ⟨rfl, -⟩ := List.append_inj' hname rfl
    exact htaken
  · intro h
    exact ⟨name, ['/'], rfl, h, .take (by simp [MaskItem.takes]) (by simp) .done⟩

end Mask

end PathGlob
