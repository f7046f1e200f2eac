/-
How masks are written.

This is the grammar of masks, said without the reader. A text is a mask when it is made
of pieces one after another, and each piece is an item written down: one of the two
wildcards, a character as it stands or behind a backslash, or a class, which is one
range or more between brackets, behind a `^` if it is negated.

The reader goes by this grammar (`parse_eq_ok_iff`): it finds items in a text exactly
when the text is such pieces, and then these items. Each of its functions is taken in
both directions. What it reads is written so, and what is written so it reads off the
front of any text that goes on behind. A range needs the most care: whether it ends
after its first endpoint is seen from what follows, and nothing that can follow a range
in a class begins with the `-` that would make it longer.
-/
import PathGlob.Mask.Grammar
import Mathlib.Data.List.Forall2

set_option autoImplicit false

namespace PathGlob

namespace Mask

/-! ## The grammar -/

/-- An endpoint of a range: a character as it stands, unless it has a meaning in a class,
or any character behind a backslash. -/
inductive EndpointText : Text → Char → Prop
  | plain {c : Char} : c ≠ '-' → c ≠ ']' → c ≠ '\\' → EndpointText [c] c
  | escaped (c : Char) : EndpointText ['\\', c] c

/-- A range: one endpoint, or two with a `-` between them. -/
inductive RangeText : Text → CharRange → Prop
  | single {t : Text} {c : Char} : EndpointText t c → RangeText t ⟨c, c⟩
  | span {t u : Text} {lo hi : Char} :
    EndpointText t lo → EndpointText u hi → RangeText (t ++ '-' :: u) ⟨lo, hi⟩

/-- An item. A `^` behind the bracket negates the class, so one that is not negated does
not begin with it. -/
inductive ItemText : Text → MaskItem → Prop
  | star : ItemText ['*'] .star
  | any : ItemText ['?'] .any
  | plain {c : Char} : c ≠ '\\' → c ≠ '*' → c ≠ '?' → c ≠ '[' → ItemText [c] (.char c)
  | escaped (c : Char) : ItemText ['\\', c] (.char c)
  | oneOf {texts : List Text} {ranges : List CharRange} :
    ranges ≠ [] → List.Forall₂ RangeText texts ranges → texts.flatten.head? ≠ some '^' →
      ItemText ('[' :: (texts.flatten ++ [']'])) (.oneOf false ranges)
  | noneOf {texts : List Text} {ranges : List CharRange} :
    ranges ≠ [] → List.Forall₂ RangeText texts ranges →
      ItemText ('[' :: '^' :: (texts.flatten ++ [']'])) (.oneOf true ranges)

/-- The text is these items, written one after another. -/
def Spells (t : Text) (mask : Mask) : Prop :=
  ∃ pieces, List.Forall₂ ItemText pieces mask ∧ t = pieces.flatten

/-! ## Endpoints and ranges -/

section Class

variable {t used rest : Text}

theorem eq_of_continued {c d : Char} {t rest : Text} (h : continued c t = .ok (d, rest)) :
    c = d ∧ t = rest ∧ rest ≠ [] := by
  cases t with
  | nil => simp [continued] at h
  | cons x xs =>
    simp only [continued, Except.ok.injEq, Prod.mk.injEq] at h
    obtain ⟨rfl, rfl⟩ := h
    exact ⟨rfl, rfl, by simp⟩

theorem continued_of_ne_nil (c : Char) {t : Text} (ht : t ≠ []) : continued c t = .ok (c, t) := by
  cases t with
  | nil => exact absurd rfl ht
  | cons x xs => rfl

theorem endpoint_eq_ok_iff {c : Char} : endpoint t = .ok (c, rest) ↔
    ∃ used, EndpointText used c ∧ rest ≠ [] ∧ t = used ++ rest := by
  constructor
  · intro h
    unfold endpoint at h
    split at h
    · simp at h
    · simp at h
    · simp at h
    · simp at h
    · rename_i d _
      obtain ⟨rfl, rfl, hrest⟩ := eq_of_continued h
      exact ⟨['\\', d], .escaped d, hrest, rfl⟩
    · rename_i d rest' hdash hclose hlone hescape
      obtain ⟨rfl, rfl, hrest⟩ := eq_of_continued h
      -- A backslash would have been read with the character behind it.
      have hbackslash : d ≠ '\\' := by
        rintro rfl
        obtain ⟨x, xs, rfl⟩ := List.exists_cons_of_ne_nil hrest
        exact hescape x xs rfl rfl
      exact ⟨[d], .plain hdash hclose hbackslash, hrest, rfl⟩
  · rintro ⟨used, hused, hrest, rfl⟩
    cases hused with
    | plain hdash hclose hbackslash =>
      rw [List.singleton_append, endpoint]
      · exact continued_of_ne_nil c hrest
      · exact hdash
      · exact hclose
      · exact fun hc => absurd hc hbackslash
      · exact fun _ _ hc => absurd hc hbackslash
    | escaped =>
      rw [List.cons_append, List.singleton_append, endpoint]
      exact continued_of_ne_nil c hrest

theorem EndpointText.exists_cons {c : Char} (h : EndpointText t c) :
    ∃ d more, t = d :: more ∧ d ≠ '-' ∧ d ≠ ']' := by
  cases h with
  | plain hdash hclose hbackslash => exact ⟨c, [], rfl, hdash, hclose⟩
  | escaped => exact ⟨'\\', [c], rfl, by decide, by decide⟩

/-- A range begins neither with a `-` nor with the bracket that would close the class. -/
theorem RangeText.exists_cons {r : CharRange} (h : RangeText t r) :
    ∃ d more, t = d :: more ∧ d ≠ '-' ∧ d ≠ ']' := by
  cases h with
  | single hc => exact hc.exists_cons
  | span hlo hhi =>
    obtain ⟨d, more, rfl, hd⟩ := hlo.exists_cons
    exact ⟨d, _, rfl, hd⟩

theorem exists_rangeText {r : CharRange} (h : range t = .ok (r, rest)) :
    ∃ used, RangeText used r ∧ rest ≠ [] ∧ t = used ++ rest := by
  unfold range at h
  cases hlo : endpoint t with
  | error e => rw [hlo] at h; simp [bind, Except.bind] at h
  | ok found =>
    obtain ⟨lo, after⟩ := found
    obtain ⟨used, hused, hafter, rfl⟩ := endpoint_eq_ok_iff.1 hlo
    rw [hlo] at h
    simp only [bind, Except.bind] at h
    split at h
    · rename_i tail
      cases hhi : endpoint tail with
      | error e => rw [hhi] at h; simp at h
      | ok found' =>
        obtain ⟨hi, rest'⟩ := found'
        obtain ⟨used', hused', hrest, rfl⟩ := endpoint_eq_ok_iff.1 hhi
        rw [hhi] at h
        simp only [pure, Except.pure, Except.ok.injEq, Prod.mk.injEq] at h
        obtain ⟨rfl, rfl⟩ := h
        exact ⟨used ++ '-' :: used', .span hused hused', hrest, by simp⟩
    · simp only [pure, Except.pure, Except.ok.injEq, Prod.mk.injEq] at h
      obtain ⟨rfl, rfl⟩ := h
      exact ⟨used, .single hused, hafter, rfl⟩

/-- A range is read as far as it is written when no `-` comes behind it. -/
theorem RangeText.range_append {r : CharRange} (h : RangeText used r) (hrest : rest ≠ [])
    (hdash : rest.head? ≠ some '-') : range (used ++ rest) = .ok (r, rest) := by
  cases h with
  | single hc =>
    rw [range, endpoint_eq_ok_iff.2 ⟨_, hc, hrest, rfl⟩]
    simp only [bind, Except.bind]
    split
    · exact absurd rfl hdash
    · rfl
  | span hlo hhi =>
    rw [range, List.append_assoc, endpoint_eq_ok_iff.2 ⟨_, hlo, by simp, rfl⟩]
    simp only [bind, Except.bind, List.cons_append]
    rw [endpoint_eq_ok_iff.2 ⟨_, hhi, hrest, rfl⟩]
    rfl

/-! ## Classes -/

theorem exists_rangeTexts {rs : List CharRange} (h : ranges t = .ok (rs, rest)) :
    ∃ texts, rs ≠ [] ∧ List.Forall₂ RangeText texts rs ∧ t = texts.flatten ++ ']' :: rest := by
  fun_induction ranges t generalizing rs rest with
  | case1 => simp at h
  | case2 t r rest' hr =>
    obtain ⟨used, hused, -, rfl⟩ := exists_rangeText hr
    simp only [Except.ok.injEq, Prod.mk.injEq] at h
    obtain ⟨rfl, rfl⟩ := h
    exact ⟨[used], by simp, .cons hused .nil, by simp⟩
  | case3 => simp at h
  | case4 t r rest' _ hr rs' rest'' hrs ih =>
    obtain ⟨used, hused, -, rfl⟩ := exists_rangeText hr
    obtain ⟨texts, -, htexts, rfl⟩ := ih hrs
    simp only [Except.ok.injEq, Prod.mk.injEq] at h
    obtain ⟨rfl, rfl⟩ := h
    exact ⟨used :: texts, by simp, .cons hused htexts, by simp⟩

/-- A bracket behind a range ends the class. -/
theorem ranges_last {r : CharRange} (h : range t = .ok (r, ']' :: rest)) :
    ranges t = .ok ([r], rest) := by
  rw [ranges]
  split
  · rename_i heq
    rw [h] at heq
    simp at heq
  · rename_i heq
    rw [h] at heq
    simp only [Except.ok.injEq, Prod.mk.injEq, List.cons.injEq, true_and] at heq
    obtain ⟨rfl, rfl⟩ := heq
    rfl
  · rename_i hclose heq
    rw [h] at heq
    simp only [Except.ok.injEq, Prod.mk.injEq] at heq
    exact absurd heq.2.symm (hclose rest)

/-- Anything else behind it is more of the class. -/
theorem ranges_next {r : CharRange} {more : Text} (h : range t = .ok (r, more))
    (hclose : more.head? ≠ some ']') {rs : List CharRange} (hmore : ranges more = .ok (rs, rest)) :
    ranges t = .ok (r :: rs, rest) := by
  rw [ranges]
  split
  · rename_i heq
    rw [h] at heq
    simp at heq
  · rename_i heq
    rw [h] at heq
    simp only [Except.ok.injEq, Prod.mk.injEq] at heq
    rw [heq.2] at hclose
    exact absurd rfl hclose
  · rename_i heq
    rw [h] at heq
    simp only [Except.ok.injEq, Prod.mk.injEq] at heq
    obtain ⟨rfl, rfl⟩ := heq
    rw [hmore]

/-- The ranges of a class are read up to the bracket that closes it. -/
theorem ranges_append {texts : List Text} {rs : List CharRange} (hne : rs ≠ [])
    (h : List.Forall₂ RangeText texts rs) (rest : Text) :
    ranges (texts.flatten ++ ']' :: rest) = .ok (rs, rest) := by
  induction h with
  | nil => exact absurd rfl hne
  | @cons used r texts rs hused htexts ih =>
    rw [List.flatten_cons, List.append_assoc]
    cases htexts with
    | nil => exact ranges_last (hused.range_append (by simp) (by simp))
    | cons hnext htexts =>
      -- The next range begins behind this one, so neither a `-` nor a bracket does.
      obtain ⟨d, more, rfl, hdash, hclose⟩ := hnext.exists_cons
      exact ranges_next (hused.range_append (by simp) (by simpa using hdash))
        (by simpa using hclose) (ih (by simp))

end Class

/-! ## Items -/

theorem parse_class {body rest : Text} {rs : List CharRange}
    (h : ranges (negation body).2 = .ok (rs, rest)) :
    parse ('[' :: body) = (parse rest).map (.oneOf (negation body).1 rs :: ·) := by
  rw [parse]
  split
  · rename_i heq
    rw [h] at heq
    simp at heq
  · rename_i heq
    obtain ⟨rfl, rfl⟩ := Prod.mk.inj (Except.ok.inj (h.symm.trans heq))
    rfl

/-- What is written of a class is read as this class, whatever follows. -/
theorem ItemText.exists_class {used : Text} {negated : Bool} {rs : List CharRange}
    (h : ItemText used (.oneOf negated rs)) : ∃ body, used = '[' :: body ∧ ∀ more : Text,
      (negation (body ++ more)).1 = negated ∧ ranges (negation (body ++ more)).2 = .ok (rs, more) := by
  cases h with
  | @oneOf texts _ hne htexts hcaret =>
    refine ⟨texts.flatten ++ [']'], rfl, fun more => ?_⟩
    have hranges := ranges_append hne htexts more
    have hplain : negation (texts.flatten ++ ']' :: more) = (false, texts.flatten ++ ']' :: more) := by
      rw [negation]
      intro tail heq
      cases hflat : texts.flatten with
      | nil => rw [hflat] at heq; simp at heq
      | cons c cs =>
        rw [hflat] at heq hcaret
        exact hcaret (by simpa using (List.cons.inj heq).1)
    rw [List.append_assoc, List.singleton_append, hplain]
    exact ⟨rfl, hranges⟩
  | @noneOf texts _ hne htexts =>
    refine ⟨'^' :: (texts.flatten ++ [']']), rfl, fun more => ?_⟩
    rw [List.cons_append, List.append_assoc, List.singleton_append]
    exact ⟨rfl, ranges_append hne htexts more⟩

/-- And what is written of any item. -/
theorem ItemText.parse_append {used : Text} {item : MaskItem} (h : ItemText used item)
    (more : Text) : parse (used ++ more) = (parse more).map (item :: ·) := by
  cases item with
  | star => cases h; rw [List.singleton_append, parse]
  | any => cases h; rw [List.singleton_append, parse]
  | char c =>
    cases h with
    | plain hescape hstar hany hclass => rw [List.singleton_append, parse] <;> simp_all
    | escaped => rw [List.cons_append, List.singleton_append, parse]
  | oneOf negated rs =>
    obtain ⟨body, rfl, hclass⟩ := h.exists_class
    obtain ⟨hnegated, hranges⟩ := hclass more
    rw [List.cons_append, parse_class hranges, hnegated]

/-- A class that was read is written so. -/
theorem itemText_class {body rest : Text} {rs : List CharRange}
    (h : ranges (negation body).2 = .ok (rs, rest)) :
    ∃ used, ItemText used (.oneOf (negation body).1 rs) ∧ '[' :: body = used ++ rest := by
  obtain ⟨texts, hne, htexts, hbody⟩ := exists_rangeTexts h
  unfold negation at hbody ⊢
  split at hbody
  · rename_i tail
    refine ⟨_, .noneOf hne htexts, ?_⟩
    rw [show tail = texts.flatten ++ ']' :: rest from hbody]
    simp
  · rename_i hplain
    subst hbody
    refine ⟨_, .oneOf hne htexts fun hcaret => ?_, by simp⟩
    obtain ⟨tail, htail⟩ := List.head?_eq_some_iff.1 hcaret
    exact hplain (tail ++ ']' :: rest) (by rw [htail]; rfl)

/-- The cases of `exists_itemText` but the first are one item and the rest. -/
theorem exists_of_map {item : MaskItem} {rest : Text} {mask : Mask}
    (h : (parse rest).map (item :: ·) = .ok mask) :
    ∃ mask', mask = item :: mask' ∧ parse rest = .ok mask' := by
  cases hrest : parse rest with
  | error e => rw [hrest] at h; simp [Except.map] at h
  | ok mask' =>
    rw [hrest] at h
    simp only [Except.map, Except.ok.injEq] at h
    exact ⟨mask', h.symm, rfl⟩

/-- A mask that is not empty begins with an item written down. -/
theorem exists_itemText {t : Text} {mask : Mask} (h : parse t = .ok mask) (ht : t ≠ []) :
    ∃ item used rest mask', ItemText used item ∧ t = used ++ rest ∧ mask = item :: mask' ∧
      parse rest = .ok mask' := by
  unfold parse at h
  split at h
  · exact absurd rfl ht
  · simp at h
  · rename_i c rest
    obtain ⟨mask', rfl, hrest⟩ := exists_of_map h
    exact ⟨.char c, ['\\', c], rest, mask', .escaped c, rfl, rfl, hrest⟩
  · rename_i rest
    obtain ⟨mask', rfl, hrest⟩ := exists_of_map h
    exact ⟨.star, ['*'], rest, mask', .star, rfl, rfl, hrest⟩
  · rename_i rest
    obtain ⟨mask', rfl, hrest⟩ := exists_of_map h
    exact ⟨.any, ['?'], rest, mask', .any, rfl, rfl, hrest⟩
  · rename_i body
    split at h
    · simp at h
    · rename_i rs rest hranges
      obtain ⟨mask', rfl, hrest⟩ := exists_of_map h
      obtain ⟨used, hused, hbody⟩ := itemText_class hranges
      exact ⟨_, used, rest, mask', hused, hbody, rfl, hrest⟩
  · rename_i c rest hlone hescape hstar hany hclass
    obtain ⟨mask', rfl, hrest⟩ := exists_of_map h
    have hbackslash : c ≠ '\\' := by
      rintro rfl
      cases rest with
      | nil => exact hlone rfl rfl
      | cons d rest => exact hescape d rest rfl rfl
    exact ⟨.char c, [c], rest, mask', .plain hbackslash hstar hany hclass, rfl, rfl, hrest⟩

theorem ItemText.ne_nil {used : Text} {item : MaskItem} (h : ItemText used item) : used ≠ [] := by
  cases h <;> simp

/-! ## Masks -/

theorem Spells.parse_append {t : Text} {mask : Mask} (h : Spells t mask) (back : Text) :
    parse (t ++ back) = (parse back).map (mask ++ ·) := by
  obtain ⟨pieces, hpieces, rfl⟩ := h
  induction hpieces with
  | nil => cases hback : parse back <;> simp [hback, Except.map]
  | cons hused _ ih =>
    rw [List.flatten_cons, List.append_assoc, hused.parse_append, ih]
    cases parse back <;> rfl

/-- **The reader goes by the grammar.** -/
theorem parse_eq_ok_iff {t : Text} {mask : Mask} : parse t = .ok mask ↔ Spells t mask := by
  constructor
  · intro h
    induction hlen : t.length using Nat.strongRecOn generalizing t mask with
    | ind n ih =>
      by_cases ht : t = []
      · subst ht
        obtain rfl : mask = [] := by simpa [parse] using h.symm
        exact ⟨[], .nil, rfl⟩
      · obtain ⟨item, used, rest, mask', hused, rfl, rfl, hrest⟩ := exists_itemText h ht
        have hpos := List.length_pos_iff.2 hused.ne_nil
        rw [List.length_append] at hlen
        obtain ⟨pieces, hpieces, rfl⟩ := ih rest.length (by omega) hrest rfl
        exact ⟨used :: pieces, .cons hused hpieces, rfl⟩
  · intro h
    rw [← List.append_nil t, h.parse_append, parse]
    simp [Except.map]

end Mask

end PathGlob
