/-
Reading a mask piece by piece.

What an item is read from does not depend on the text behind it. The grammar says so
for one item (`ItemText.readFrom`), and everything about longer texts follows by going
through the items. A mask followed by another text is read as the mask followed
by the reading of that text (`parse_append`).

The other direction needs a condition. A text cut at a separator is two masks
only if the separator is read on its own, and not as the character behind a
backslash or as a part of a class. `itemTexts` gives the pieces that the items
are read from, and `SeparatorsStand` says that none of them holds a separator
unless it is the separator (`exists_parse_of_append`).
-/
import PathGlob.Proofs.Mask.Written

set_option autoImplicit false

namespace PathGlob

namespace Mask

/-- The pieces of a text that its items are read from, in order. -/
def itemTexts : Text → List Text
  | [] => []
  | '\\' :: c :: rest => ['\\', c] :: itemTexts rest
  | '[' :: body =>
    match _h : ranges (negation body).2 with
    | .error _ => ['[' :: body]
    | .ok (_, rest) => ('[' :: body.take (body.length - rest.length)) :: itemTexts rest
  | c :: rest => [c] :: itemTexts rest
termination_by t => t.length
decreasing_by
  · simp only [List.length_cons]
    omega
  · have := length_of_ranges ‹_›
    have := length_negation body
    simp only [List.length_cons]
    omega
  · simp

/-- No separator is escaped and none is inside a class. -/
def SeparatorsStand (t : Text) : Prop := ∀ piece ∈ itemTexts t, '/' ∈ piece → piece = ['/']

instance (t : Text) : Decidable (SeparatorsStand t) :=
  inferInstanceAs (Decidable (∀ piece ∈ itemTexts t, '/' ∈ piece → piece = ['/']))

/-! ## One item -/

/-- What an item is read from, whatever follows it. -/
structure ReadFrom (item : MaskItem) (used : Text) : Prop where
  ne_nil : used ≠ []
  parse_append (more : Text) : parse (used ++ more) = (parse more).map (item :: ·)
  itemTexts_append (more : Text) : itemTexts (used ++ more) = used :: itemTexts more
  /-- A separator item comes from a separator. -/
  mem_of_sep : item = .char '/' → '/' ∈ used

theorem itemTexts_class {body rest : Text} {rs : List CharRange}
    (h : ranges (negation body).2 = .ok (rs, rest)) :
    itemTexts ('[' :: body) = ('[' :: body.take (body.length - rest.length)) :: itemTexts rest := by
  rw [itemTexts]
  split
  · rename_i heq
    rw [h] at heq
    simp at heq
  · rename_i heq
    obtain ⟨rfl, rfl⟩ := Prod.mk.inj (Except.ok.inj (h.symm.trans heq))
    rfl

theorem ItemText.readFrom {used : Text} {item : MaskItem} (h : ItemText used item) :
    ReadFrom item used where
  ne_nil := h.ne_nil
  parse_append := h.parse_append
  itemTexts_append more := by
    cases item with
    | star => cases h; simp [itemTexts]
    | any => cases h; simp [itemTexts]
    | char c =>
      cases h with
      | plain hescape hstar hany hclass => rw [List.singleton_append, itemTexts] <;> simp_all
      | escaped => simp [itemTexts]
    | oneOf negated rs =>
      obtain ⟨body, rfl, hclass⟩ := h.exists_class
      rw [List.cons_append, itemTexts_class (hclass more).2]
      simp
  mem_of_sep hsep := by
    subst hsep
    cases h <;> simp

/-- A mask that is not empty begins with an item. -/
theorem exists_item {t : Text} {mask : Mask} (h : parse t = .ok mask) (ht : t ≠ []) :
    ∃ item used rest mask', ReadFrom item used ∧ t = used ++ rest ∧ mask = item :: mask' ∧
      parse rest = .ok mask' := by
  obtain ⟨item, used, rest, mask', hused, hrest⟩ := exists_itemText h ht
  exact ⟨item, used, rest, mask', hused.readFrom, hrest⟩

/-! ## Masks one after another -/

/-- A mask followed by a text reads as the mask followed by the text. -/
theorem parse_append {front : Text} {mask : Mask} (h : parse front = .ok mask) (back : Text) :
    parse (front ++ back) = (parse back).map (mask ++ ·) := (parse_eq_ok_iff.1 h).parse_append back

theorem parse_append_ok {front back : Text} {mask mask' : Mask} (h : parse front = .ok mask)
    (h' : parse back = .ok mask') : parse (front ++ back) = .ok (mask ++ mask') := by
  rw [parse_append h, h']
  rfl

theorem parse_separator (t : Text) : parse ('/' :: t) = (parse t).map (.char '/' :: ·) :=
  (ItemText.plain (by decide) (by decide) (by decide) (by decide)).parse_append t

theorem parse_close {t : Text} {mask : Mask} (h : parse t = .ok mask) :
    parse (t ++ ['/']) = .ok (mask ++ [.char '/']) := by
  refine parse_append_ok h ?_
  rw [parse_separator]
  simp [parse, Except.map]

/-- A piece that holds a separator is the separator, and so is its item. -/
theorem ReadFrom.eq_of_mem {item : MaskItem} {used rest : Text} (hread : ReadFrom item used)
    (hstand : SeparatorsStand (used ++ rest)) (hmem : '/' ∈ used) :
    used = ['/'] ∧ item = .char '/' := by
  have hused : used = ['/'] :=
    hstand used (by rw [hread.itemTexts_append]; exact List.mem_cons_self) hmem
  refine ⟨hused, ?_⟩
  have hparse := hread.parse_append []
  subst hused
  rw [List.singleton_append, parse_separator] at hparse
  simpa [parse, Except.map] using hparse.symm

theorem ReadFrom.stand_rest {item : MaskItem} {used rest : Text} (hread : ReadFrom item used)
    (hstand : SeparatorsStand (used ++ rest)) : SeparatorsStand rest := by
  intro piece hpiece
  refine hstand piece ?_
  rw [hread.itemTexts_append]
  exact List.mem_cons_of_mem _ hpiece

/-- Where separators stand, a mask cut at one is two masks. -/
theorem exists_parse_of_append {front back : Text} {mask : Mask}
    (h : parse (front ++ '/' :: back) = .ok mask)
    (hstand : SeparatorsStand (front ++ '/' :: back)) :
    ∃ left right, parse front = .ok left ∧ parse back = .ok right ∧
      mask = left ++ .char '/' :: right ∧ SeparatorsStand back := by
  induction hlen : front.length using Nat.strongRecOn generalizing front mask with
  | ind n ih =>
    obtain ⟨item, used, rest, mask', hread, htext, rfl, hrest⟩ := exists_item h (by simp)
    rw [htext] at hstand
    have hstandRest := hread.stand_rest hstand
    -- Where the first item ends before the cut, the cut is in what is left.
    have hpast : ∀ tail : Text, front = used ++ tail → rest = tail ++ '/' :: back →
        ∃ left right, parse front = .ok left ∧ parse back = .ok right ∧
          item :: mask' = left ++ .char '/' :: right ∧ SeparatorsStand back := by
      rintro tail rfl rfl
      have hpos := List.length_pos_iff.2 hread.ne_nil
      rw [List.length_append] at hlen
      obtain ⟨left, right, hleft, hright, rfl, hback⟩ :=
        ih tail.length (by omega) hrest hstandRest rfl
      refine ⟨item :: left, right, ?_, hright, rfl, hback⟩
      rw [hread.parse_append, hleft]
      rfl
    rcases List.append_eq_append_iff.1 htext with ⟨tail, hused, hback⟩ | ⟨tail, hfront, hback⟩
    · cases tail with
      | nil =>
        rw [List.append_nil] at hused
        exact hpast [] (by rw [hused, List.append_nil]) hback.symm
      | cons c tail =>
        -- The item is read from the separator of the cut, so nothing is in front of it.
        obtain ⟨rfl, hrestEq⟩ := List.cons.inj hback
        obtain ⟨hsep, hitem⟩ := hread.eq_of_mem hstand (by rw [hused]; simp)
        rw [hused] at hsep
        obtain ⟨rfl, htail⟩ : front = [] ∧ tail = [] := by
          cases front with
          | nil => exact ⟨rfl, by simpa using hsep⟩
          | cons d front => simp at hsep
        subst htail hrestEq hitem
        exact ⟨[], mask', by simp [parse], hrest, rfl, hstandRest⟩
    · exact hpast tail hfront hback

end Mask

end PathGlob
