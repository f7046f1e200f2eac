/-
The language of a mask, and that the matcher decides it.

Here a mask is taken as what it is meant to be. Its text is items written one after
another (`Spells`), each item stands for some words (`Means`), and a name is in the
language when it is a word of the first item, then a word of the second, and so on to
its end (`Denotes`). There is no order of trying in this and no point of return.

The matcher never accepts a name outside the language, and it accepts every name that is
in it without the help of a class that takes a separator (`fits_language`). Nothing has
to be assumed of the text: one that spells no items has an empty language, and no name
is accepted for it.
-/
import PathGlob.Proofs.Mask.Language
import PathGlob.Proofs.Mask.Written

set_option autoImplicit false

namespace PathGlob

namespace MaskItem

/-- The words an item stands for. -/
def Means : MaskItem → Text → Prop
  | .star, word => '/' ∉ word
  | .any, word => ∃ c, word = [c] ∧ c ≠ '/'
  | .char d, word => word = [d]
  | .oneOf negated ranges, word =>
    ∃ c, word = [c] ∧ ((∃ r ∈ ranges, r.lo ≤ c ∧ c ≤ r.hi) ↔ negated = false)

/-- The item is a class of characters. -/
def IsClass (item : MaskItem) : Prop := ∃ negated ranges, item = .oneOf negated ranges

theorem oneOf_takes {negated : Bool} {ranges : List CharRange} {c : Char} :
    (MaskItem.oneOf negated ranges).takes c = true ↔
      ((∃ r ∈ ranges, r.lo ≤ c ∧ c ≤ r.hi) ↔ negated = false) := by
  have hany : ranges.any (·.contains c) = true ↔ ∃ r ∈ ranges, r.lo ≤ c ∧ c ≤ r.hi := by
    simp [CharRange.contains]
  rw [takes, ← hany]
  cases negated <;> cases ranges.any (·.contains c) <;> decide

/-- An item that is no star stands for the characters it takes, one at a time. -/
theorem means_iff_takes {item : MaskItem} (hitem : item ≠ .star) {word : Text} :
    item.Means word ↔ ∃ c, word = [c] ∧ item.takes c = true := by
  cases item with
  | star => exact absurd rfl hitem
  | any => simp [Means, takes]
  | char d => simp [Means, takes]
  | oneOf negated ranges => simp only [Means, oneOf_takes]

/-- The only items that take a separator are the separator and some classes. -/
theorem isClass_of_takes {item : MaskItem} (htakes : item.takes '/' = true)
    (hsep : item ≠ .char '/') : item.IsClass := by
  cases item with
  | star => simp [takes] at htakes
  | any => simp [takes] at htakes
  | char d =>
    rw [takes, beq_iff_eq] at htakes
    exact absurd (htakes ▸ rfl) hsep
  | oneOf negated ranges => exact ⟨negated, ranges, rfl⟩

end MaskItem

namespace Mask

/-! ## The language -/

/-- The name is a word of each item, one after another. With `barred` no class has the
separator as its word. -/
def Denotes (barred : Bool) (mask : Mask) (name : Text) : Prop :=
  ∃ words, List.Forall₂ (fun (item : MaskItem) word => item.Means word ∧
    (barred = true → item.IsClass → word ≠ ['/'])) mask words ∧ name = words.flatten

/-- The text spells items that the name is made of. -/
def InLanguage (barred : Bool) (text name : Text) : Prop :=
  ∃ mask, Spells text mask ∧ Denotes barred mask name

section Denotes

variable {barred : Bool} {mask : Mask} {name : Text}

theorem denotes_nil_iff : Denotes barred [] name ↔ name = [] := by
  constructor
  · rintro ⟨words, hwords, rfl⟩
    rw [List.forall₂_nil_left_iff.1 hwords, List.flatten_nil]
  · rintro rfl
    exact ⟨[], .nil, rfl⟩

theorem denotes_cons_iff {item : MaskItem} : Denotes barred (item :: mask) name ↔
    ∃ word more, name = word ++ more ∧ item.Means word ∧
      (barred = true → item.IsClass → word ≠ ['/']) ∧ Denotes barred mask more := by
  constructor
  · rintro ⟨words, hwords, rfl⟩
    obtain ⟨word, words, hword, hrest, rfl⟩ := List.forall₂_cons_left_iff.1 hwords
    exact ⟨word, words.flatten, rfl, hword.1, hword.2, words, hrest, rfl⟩
  · rintro ⟨word, more, rfl, hmeans, hbar, words, hwords, rfl⟩
    exact ⟨word :: words, .cons ⟨hmeans, hbar⟩ hwords, rfl⟩

/-- A name is taken apart as it is put together. The one thing to see is that a class is
kept from the separator alike on both sides: no other item but the separator takes one. -/
theorem derives_iff_denotes : Derives barred mask name ↔ Denotes barred mask name := by
  induction mask generalizing name with
  | nil => rw [Derives.nil_iff, denotes_nil_iff]
  | cons item mask ih =>
    rw [denotes_cons_iff]
    by_cases hitem : item = .star
    · subst hitem
      rw [Derives.star_iff]
      constructor
      · rintro ⟨taken, more, htaken, rfl, hmore⟩
        exact ⟨taken, more, rfl, htaken, by rintro - ⟨negated, ranges, hclass⟩; simp at hclass,
          ih.1 hmore⟩
      · rintro ⟨word, more, rfl, hmeans, -, hmore⟩
        exact ⟨word, more, hmeans, rfl, ih.2 hmore⟩
    · rw [Derives.item_iff hitem]
      constructor
      · rintro ⟨c, more, rfl, htakes, hbar, hmore⟩
        refine ⟨[c], more, rfl, (MaskItem.means_iff_takes hitem).2 ⟨c, rfl, htakes⟩, ?_, ih.1 hmore⟩
        rintro hbarred ⟨negated, ranges, rfl⟩ hsep
        simpa using hbar hbarred (by simpa using hsep)
      · rintro ⟨word, more, rfl, hmeans, hbar, hmore⟩
        obtain ⟨c, rfl, htakes⟩ := (MaskItem.means_iff_takes hitem).1 hmeans
        refine ⟨c, more, rfl, htakes, ?_, ih.2 hmore⟩
        rintro hbarred rfl
        by_contra hsep
        exact hbar hbarred (MaskItem.isClass_of_takes htakes hsep) rfl

end Denotes

/-! ## The matcher -/

/-- **The matcher decides the language of a mask**, as far as no class takes a separator:
a name that fits is in the language, and a name fits that is in the language with every
separator spelled out. -/
theorem fits_language (text name : Text) :
    (fits text name = .ok true → InLanguage false text name) ∧
      (InLanguage true text name → fits text name = .ok true) := by
  constructor
  · intro hfits
    rw [fits] at hfits
    split at hfits
    · rename_i mask hparse
      have hderives := derives_of_accepts (Except.ok.inj hfits)
      exact ⟨mask, parse_eq_ok_iff.1 hparse, derives_iff_denotes.1 hderives⟩
    · simp at hfits
  · rintro ⟨mask, hspells, hdenotes⟩
    rw [fits, parse_eq_ok_iff.2 hspells]
    exact congrArg Except.ok (accepts_of_derives (derives_iff_denotes.2 hdenotes))

/-- The first star has to grow behind its first `b`, the last one over an `é`. -/
theorem fits_language_stars :
    (fits "*b?/[^a-c]*\\*☺".toList "abbd/x*é*☺".toList = .ok true ∧
      InLanguage false "*b?/[^a-c]*\\*☺".toList "abbd/x*é*☺".toList) ∧
    (InLanguage true "*b?/[^a-c]*\\*☺".toList "abbd/x*é*☺".toList ∧
      fits "*b?/[^a-c]*\\*☺".toList "abbd/x*é*☺".toList = .ok true) := by
  have hparse : parse "*b?/[^a-c]*\\*☺".toList = .ok [.star, .char 'b', .any, .char '/',
      .oneOf true [⟨'a', 'c'⟩], .star, .char '*', .char '☺'] := by decide +kernel
  have hfits : fits "*b?/[^a-c]*\\*☺".toList "abbd/x*é*☺".toList = .ok true := by
    rw [fits, hparse]
    cbv
  have hin : InLanguage true "*b?/[^a-c]*\\*☺".toList "abbd/x*é*☺".toList := by
    refine ⟨_, parse_eq_ok_iff.1 hparse,
      ["ab".toList, ['b'], ['d'], ['/'], ['x'], "*é".toList, ['*'], ['☺']], ?_, rfl⟩
    simp [MaskItem.Means, MaskItem.IsClass]
  exact ⟨⟨hfits, (fits_language _ _).1 hfits⟩, hin, (fits_language _ _).2 hin⟩

end Mask

end PathGlob
