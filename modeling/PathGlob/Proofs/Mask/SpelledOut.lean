/-
How many separators are in a name that a mask takes.

`*` and `?` never take a separator, so one might expect that a mask spells out every
separator of the names it takes. A class is in the way: nothing keeps it from a
separator, and with `[^a]` in it a mask takes names that have one more than it spells
out. Fewer are never taken (`Derives.count_le`), and as many exactly in the names that
can be taken apart with every class kept from the separator.

For a whole mask there are two ways to be safe (`count_separators_iff`): no class of it
has the separator among its characters, or some class has no characters at all, and then
no name is taken. In any other mask every item has some character to take. Give the
separator to all that can take it (`exists_name_taking`), and the name is taken at the
first attempt, without any star growing.
-/
import PathGlob.Proofs.Mask.Meaning

set_option autoImplicit false

namespace PathGlob

namespace MaskItem

/-- The separator is a word of the item just when the item takes it. -/
theorem means_separator_iff {item : MaskItem} : item.Means ['/'] ↔ item.takes '/' = true := by
  by_cases hitem : item = .star
  · subst hitem
    simp [Means, takes]
  · rw [means_iff_takes hitem]
    constructor
    · rintro ⟨c, hword, htakes⟩
      rw [List.singleton_inj.1 hword]
      exact htakes
    · exact fun htakes => ⟨'/', rfl, htakes⟩

/-- An item that has words and is no star takes some character, and the separator if it
takes that. -/
theorem exists_takes {item : MaskItem} (hitem : item ≠ .star) (h : ∃ word, item.Means word) :
    ∃ c, item.takes c = true ∧ (item.takes '/' = true → c = '/') := by
  by_cases hsep : item.takes '/' = true
  · exact ⟨'/', hsep, fun _ => rfl⟩
  · obtain ⟨word, hword⟩ := h
    obtain ⟨c, -, htakes⟩ := (means_iff_takes hitem).1 hword
    exact ⟨c, htakes, fun h => absurd h hsep⟩

end MaskItem

namespace Mask

variable {text name : Text} {mask : Mask}

/-- No class of the mask has the separator among its characters. -/
theorem barsSeparator_iff :
    BarsSeparator mask ↔ ∀ item ∈ mask, item.IsClass → ¬ item.Means ['/'] := by
  constructor
  · rintro hbars item hitem ⟨negated, ranges, rfl⟩ hmeans
    have hsep := hbars _ hitem (MaskItem.means_separator_iff.1 hmeans)
    cases hsep
  · intro h item hitem htakes
    by_contra hsep
    exact h item hitem (MaskItem.isClass_of_takes htakes hsep)
      (MaskItem.means_separator_iff.2 htakes)

/-- A name that is taken has a word for every item. -/
theorem Denotes.exists_means {barred : Bool} (h : Denotes barred mask name) {item : MaskItem}
    (hitem : item ∈ mask) : ∃ word, item.Means word := by
  induction mask generalizing name with
  | nil => cases hitem
  | cons first mask ih =>
    obtain ⟨word, more, -, hmeans, -, hmore⟩ := denotes_cons_iff.1 h
    rcases List.mem_cons.1 hitem with rfl | hitem
    · exact ⟨word, hmeans⟩
    · exact ih hmore hitem

/-- **A name with all the separators** that the items can take. No star takes anything in
it, so the matcher goes through without returning, whatever star came before. -/
theorem exists_name_taking (h : ∀ item ∈ mask, ∃ word, item.Means word) :
    ∃ name : Text, (∀ ret, run mask name ret = true) ∧
      name.count '/' = mask.countP (·.takes '/') := by
  induction mask with
  | nil => exact ⟨[], fun ret => by rw [run], rfl⟩
  | cons item mask ih =>
    rw [List.forall_mem_cons] at h
    obtain ⟨name, hrun, hcount⟩ := ih h.2
    by_cases hitem : item = .star
    · subst hitem
      refine ⟨name, fun ret => ?_, ?_⟩
      · rw [run]
        exact hrun _
      · rw [hcount, List.countP_cons_of_neg (by simp [MaskItem.takes])]
    · obtain ⟨c, htakes, hsep⟩ := MaskItem.exists_takes hitem h.1
      refine ⟨c :: name, fun ret => ?_, ?_⟩
      · rw [run, if_pos htakes]
        · exact hrun ret
        · exact hitem
      · rw [List.count_cons, List.countP_cons, hcount]
        congr 1
        by_cases hc : c = '/'
        · rw [if_pos (by simpa using hc), if_pos (hc ▸ htakes)]
        · rw [if_neg (by simpa using hc), if_neg fun h => hc (hsep h)]

/-- A class that takes a separator is one item more that does than the mask spells out. -/
theorem count_lt_countP (h : ¬ BarsSeparator mask) :
    mask.count (.char '/') < mask.countP (·.takes '/') := by
  have hle : ∀ items : Mask, items.count (.char '/') ≤ items.countP (·.takes '/') := by
    intro items
    refine List.countP_mono_left fun item _ hsep => ?_
    rw [eq_of_beq hsep]
    rfl
  obtain ⟨item, hitem, htakes, hsep⟩ : ∃ item ∈ mask, item.takes '/' = true ∧ item ≠ .char '/' := by
    unfold BarsSeparator at h
    push Not at h
    exact h
  obtain ⟨front, back, rfl⟩ := List.append_of_mem hitem
  rw [List.count_append, List.countP_append, List.count_cons_of_ne hsep,
    List.countP_cons_of_pos (p := fun x : MaskItem => x.takes '/') htakes]
  have hfront := hle front
  have hback := hle back
  omega

/-- As many separators as the mask spells out are in a name that it takes just when the
name can be taken with every class kept from the separator. -/
theorem count_eq_iff (h : Spells text mask) (hfits : fits text name = .ok true) :
    name.count '/' = mask.count (.char '/') ↔ Denotes true mask name := by
  rw [fits, parse_eq_ok_iff.2 h] at hfits
  have hderives := derives_of_accepts (Except.ok.inj hfits)
  rw [← derives_iff_denotes]
  exact ⟨hderives.barred_of_count, Derives.count_eq⟩

/-- **The separators of a name and of its mask.** A name that fits has as many separators as
the mask spells out exactly when it can be taken without a class taking one. This holds of
all the names that fit exactly when some item stands for nothing, so that no name fits, or
no class has the separator among its characters. -/
theorem count_separators_iff (h : Spells text mask) :
    (∀ name, fits text name = .ok true →
      (name.count '/' = mask.count (.char '/') ↔ Denotes true mask name)) ∧
    ((∀ name, fits text name = .ok true → name.count '/' = mask.count (.char '/')) ↔
      (∃ item ∈ mask, ∀ word, ¬ item.Means word) ∨
        ∀ item ∈ mask, item.IsClass → ¬ item.Means ['/']) := by
  refine ⟨fun name => count_eq_iff h, ?_⟩
  rw [← barsSeparator_iff]
  constructor
  · intro hcount
    by_contra hnot
    push Not at hnot
    obtain ⟨hmeans, hbars⟩ := hnot
    obtain ⟨name, hrun, htaken⟩ := exists_name_taking hmeans
    have hlt := count_lt_countP hbars
    have hfits : fits text name = .ok true := by
      rw [fits, parse_eq_ok_iff.2 h]
      exact congrArg Except.ok (hrun none)
    have heq := hcount name hfits
    omega
  · intro hsafe name hfits
    rw [count_eq_iff h hfits, ← derives_iff_denotes]
    rw [fits, parse_eq_ok_iff.2 h] at hfits
    have hderives := derives_of_accepts (Except.ok.inj hfits)
    rcases hsafe with ⟨item, hitem, hnone⟩ | hbars
    · obtain ⟨word, hword⟩ := (derives_iff_denotes.1 hderives).exists_means hitem
      exact absurd hword (hnone word)
    · exact hderives.barred_of_barsSeparator hbars

/-- The class of `[^a]\\/*` could take the separator but the escaped one does, so the name
`b/c` has no more than that one. Other names that fit have. -/
theorem count_separators_iff_escaped :
    (Spells "[^a]\\/*".toList [.oneOf true [⟨'a', 'a'⟩], .char '/', .star] ∧
      fits "[^a]\\/*".toList "b/c".toList = .ok true) ∧
    Denotes true [.oneOf true [⟨'a', 'a'⟩], .char '/', .star] "b/c".toList ∧
    ¬ ∀ name, fits "[^a]\\/*".toList name = .ok true →
      name.count '/' = [MaskItem.oneOf true [⟨'a', 'a'⟩], .char '/', .star].count (.char '/') := by
  have hparse : parse "[^a]\\/*".toList = .ok [.oneOf true [⟨'a', 'a'⟩], .char '/', .star] := by
    decide +kernel
  have hspells := parse_eq_ok_iff.1 hparse
  have hfits : fits "[^a]\\/*".toList "b/c".toList = .ok true := by
    rw [fits, hparse]
    cbv
  obtain ⟨hname, hall⟩ := count_separators_iff hspells
  refine ⟨⟨hspells, hfits⟩, (hname _ hfits).1 (by decide), hall.not.2 ?_⟩
  rintro (⟨item, hitem, hnone⟩ | hbars)
  · obtain ⟨word, hword⟩ : ∃ word, item.Means word := by
      simp only [List.mem_cons, List.not_mem_nil, or_false] at hitem
      rcases hitem with rfl | rfl | rfl
      · exact ⟨['/'], MaskItem.means_separator_iff.2 (by decide)⟩
      · exact ⟨['/'], rfl⟩
      · exact ⟨[], by simp [MaskItem.Means]⟩
    exact hnone word hword
  · exact hbars _ List.mem_cons_self ⟨_, _, rfl⟩ (MaskItem.means_separator_iff.2 (by decide))

/-- The class of `a[^b]c` takes the separator of a name although the mask spells out none. -/
theorem count_separators_class :
    Spells "a[^b]c".toList [.char 'a', .oneOf true [⟨'b', 'b'⟩], .char 'c'] ∧
      fits "a[^b]c".toList "a/c".toList = .ok true ∧ "a/c".toList.count '/' = 1 ∧
      [MaskItem.char 'a', .oneOf true [⟨'b', 'b'⟩], .char 'c'].count (.char '/') = 0 := by
  have hparse : parse "a[^b]c".toList =
      .ok [.char 'a', .oneOf true [⟨'b', 'b'⟩], .char 'c'] := by decide +kernel
  refine ⟨parse_eq_ok_iff.1 hparse, ?_, by decide, by decide⟩
  rw [fits, hparse]
  cbv

end Mask

end PathGlob
