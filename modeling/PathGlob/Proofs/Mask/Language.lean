/-
The names a mask stands for, and that the matcher finds exactly these.

A derivation takes a name apart item by item: a star takes a run of characters
other than the separator, every other item takes one character. The matcher
does not search for derivations. It widens the last star only, and the question
is which derivations it can miss.

It never reports a name that has no derivation (`derives_of_accepts`). In the
other direction one thing stands in the way: a class may take a separator, and
then a star noted behind it has gone past a place where an earlier star has to
stop. So the converse (`accepts_of_derives`) is about derivations in which no
class takes a separator, and `Derives` has a flag that says so. This is enough
for everything that is matched component by component, where the separators of
a name are used up by the separators of the mask.

The invariant behind the converse is `Viable`: a derivation starts where the run
stands, or where the last star noted stands after taking more. A new star makes
the matcher forget the old one. `Derives.star_of_shift` is the reason why
nothing is lost: what the items between the two stars take further right, they
have just taken further left, so no separator is in between and the new star can
grow to the same place.
-/
import Mathlib.Data.List.Forall2
import PathGlob.Mask.Matching

set_option autoImplicit false

namespace PathGlob

namespace Mask

/-- How a name is taken apart by the items of a mask. With `barred` no class
takes a separator. -/
inductive Derives (barred : Bool) : Mask → Text → Prop
  | done : Derives barred [] []
  | skip {rest : Mask} {name : Text} :
    Derives barred rest name → Derives barred (.star :: rest) name
  | widen {rest : Mask} {c : Char} {name : Text} :
    c ≠ '/' → Derives barred (.star :: rest) name → Derives barred (.star :: rest) (c :: name)
  | take {item : MaskItem} {rest : Mask} {c : Char} {name : Text} :
    item.takes c = true → (barred = true → c = '/' → item = .char '/') →
    Derives barred rest name → Derives barred (item :: rest) (c :: name)

/-- A separator is taken by the separator item alone. -/
def BarsSeparator (mask : Mask) : Prop :=
  ∀ item ∈ mask, item.takes '/' = true → item = .char '/'

instance (mask : Mask) : Decidable (BarsSeparator mask) :=
  inferInstanceAs (Decidable (∀ item ∈ mask, item.takes '/' = true → item = .char '/'))

namespace Derives

variable {barred : Bool} {mask rest : Mask} {name : Text}

/-! ## Taking derivations apart -/

theorem nil_iff : Derives barred [] name ↔ name = [] := by
  constructor
  · intro h
    cases h
    rfl
  · rintro rfl
    exact .done

/-- A star takes some run without separators. -/
theorem star_iff : Derives barred (.star :: rest) name ↔
    ∃ taken more, '/' ∉ taken ∧ name = taken ++ more ∧ Derives barred rest more := by
  constructor
  · -- The index has to be a variable, or the induction loses the rest of the mask.
    generalize hmask : MaskItem.star :: rest = mask
    intro h
    induction h with
    | done => simp at hmask
    | skip h ih =>
      obtain ⟨-, rfl⟩ := List.cons.inj hmask
      exact ⟨[], _, by simp, rfl, h⟩
    | @widen rest' c name' hc h ih =>
      obtain ⟨taken, more, htaken, rfl, hmore⟩ := ih hmask
      exact ⟨c :: taken, more, by simp [Ne.symm hc, htaken], rfl, hmore⟩
    | take htakes hbar h ih =>
      obtain ⟨rfl, -⟩ := List.cons.inj hmask
      simp [MaskItem.takes] at htakes
  · rintro ⟨taken, more, htaken, rfl, h⟩
    induction taken with
    | nil => exact .skip h
    | cons c taken ih =>
      simp only [List.mem_cons, not_or] at htaken
      exact .widen (Ne.symm htaken.1) (ih htaken.2)

/-- An item that is no star takes one character. -/
theorem item_iff {item : MaskItem} (hitem : item ≠ .star) :
    Derives barred (item :: rest) name ↔
      ∃ c more, name = c :: more ∧ item.takes c = true ∧
        (barred = true → c = '/' → item = .char '/') ∧ Derives barred rest more := by
  constructor
  · intro h
    cases h with
    | skip h => exact absurd rfl hitem
    | widen hc h => exact absurd rfl hitem
    | take htakes hbar h => exact ⟨_, _, rfl, htakes, hbar, h⟩
  · rintro ⟨c, more, rfl, htakes, hbar, h⟩
    exact .take htakes hbar h

/-- A derivation of two masks in a row is a derivation of each. -/
theorem append_iff {front : Mask} : Derives barred (front ++ rest) name ↔
    ∃ taken more, name = taken ++ more ∧ Derives barred front taken ∧ Derives barred rest more := by
  induction front generalizing name with
  | nil =>
    constructor
    · intro h
      exact ⟨[], name, rfl, .done, h⟩
    · rintro ⟨taken, more, rfl, htaken, h⟩
      rw [nil_iff.1 htaken]
      exact h
  | cons item front ih =>
    rw [List.cons_append]
    by_cases hitem : item = .star
    · subst hitem
      constructor
      · intro h
        obtain ⟨run, left, hrun, rfl, hleft⟩ := star_iff.1 h
        obtain ⟨taken, more, rfl, hfront, hrest⟩ := ih.1 hleft
        exact ⟨run ++ taken, more, (List.append_assoc ..).symm,
          star_iff.2 ⟨run, taken, hrun, rfl, hfront⟩, hrest⟩
      · rintro ⟨taken, more, rfl, hfront, hrest⟩
        obtain ⟨run, left, hrun, rfl, hleft⟩ := star_iff.1 hfront
        exact star_iff.2 ⟨run, left ++ more, hrun, List.append_assoc ..,
          ih.2 ⟨left, more, rfl, hleft, hrest⟩⟩
    · constructor
      · intro h
        obtain ⟨c, more, rfl, htakes, hbar, h⟩ := (item_iff hitem).1 h
        obtain ⟨taken, more, rfl, hfront, hrest⟩ := ih.1 h
        exact ⟨c :: taken, more, rfl, .take htakes hbar hfront, hrest⟩
      · rintro ⟨taken, more, rfl, hfront, hrest⟩
        obtain ⟨c, taken, rfl, htakes, hbar, hfront⟩ := (item_iff hitem).1 hfront
        exact .take htakes hbar (ih.2 ⟨taken, more, rfl, hfront, hrest⟩)

/-! ## Separators in a derivation -/

/-- Without separators in the name there is nothing to bar. -/
theorem barred_of_notMem (h : Derives barred mask name) (hname : '/' ∉ name) :
    Derives true mask name := by
  induction h with
  | done => exact .done
  | skip h ih => exact .skip (ih hname)
  | widen hc h ih => exact .widen hc (ih (fun hmem => hname (List.mem_cons_of_mem _ hmem)))
  | @take item rest c name htakes hbar h ih =>
    refine .take htakes (fun _ hc => ?_) (ih fun hmem => hname (List.mem_cons_of_mem _ hmem))
    exact absurd (hc ▸ List.mem_cons_self) hname

/-- Nor when no class would take one. -/
theorem barred_of_barsSeparator (h : Derives barred mask name) (hmask : BarsSeparator mask) :
    Derives true mask name := by
  induction h with
  | done => exact .done
  | skip h ih => exact .skip (ih fun item hitem => hmask item (List.mem_cons_of_mem _ hitem))
  | widen hc h ih => exact .widen hc (ih hmask)
  | @take item rest c name htakes hbar h ih =>
    refine .take htakes (fun _ hc => ?_) (ih fun item hitem => hmask item (List.mem_cons_of_mem _ hitem))
    exact hmask item List.mem_cons_self (hc ▸ htakes)

/-- The separators of a mask are spelled out in the name. -/
theorem count_le (h : Derives barred mask name) :
    mask.count (.char '/') ≤ name.count '/' := by
  induction h with
  | done => simp
  | skip h ih => simpa using ih
  | widen hc h ih => simpa [hc] using ih
  | @take item rest c name htakes hbar h ih =>
    rw [List.count_cons, List.count_cons]
    by_cases hitem : item = .char '/'
    · subst hitem
      have hc : c = '/' := by simpa [MaskItem.takes] using htakes
      simp [hc, ih]
    · have : (item == MaskItem.char '/') = false := by simpa using hitem
      rw [this]
      simp only [Bool.false_eq_true, if_false]
      omega

/-- With the bar they are all the separators of the name. -/
theorem count_eq (h : Derives true mask name) : name.count '/' = mask.count (.char '/') := by
  induction h with
  | done => simp
  | skip h ih => simpa using ih
  | widen hc h ih => simpa [hc] using ih
  | @take item rest c name htakes hbar h ih =>
    rw [List.count_cons, List.count_cons, ih]
    by_cases hc : c = '/'
    · simp [hc, hbar rfl hc]
    · have hitem : item ≠ .char '/' := by
        rintro rfl
        exact hc (by simpa [MaskItem.takes] using htakes)
      simp [hc, hitem]

/-- When the mask spells out all separators of the name, no class takes one. -/
theorem barred_of_count (h : Derives barred mask name)
    (hcount : name.count '/' = mask.count (.char '/')) : Derives true mask name := by
  induction h with
  | done => exact .done
  | skip h ih => exact .skip (ih (by simpa using hcount))
  | widen hc h ih => exact .widen hc (ih (by simpa [hc] using hcount))
  | @take item rest c name htakes hbar h ih =>
    have hle := h.count_le
    rw [List.count_cons, List.count_cons] at hcount
    by_cases hitem : item = .char '/'
    · subst hitem
      have hc : c = '/' := by simpa [MaskItem.takes] using htakes
      exact .take htakes (fun _ _ => rfl) (ih (by simpa [hc] using hcount))
    · -- A separator here would be one more than the rest of the mask has.
      have hc : c ≠ '/' := by
        rintro rfl
        simp [hitem] at hcount
        omega
      refine .take htakes (fun _ hsep => absurd hsep hc) (ih ?_)
      simpa [hitem, hc] using hcount

/-! ## Two stars -/

/-- Items that have just taken some characters take no separator further right.
The characters they take there lie behind a run without separators; a separator
among them would be one that the same item took before, further left, and so on
down to the run. -/
theorem notMem_of_shift {items : List MaskItem} {used taken shifted left more : Text}
    (hused : List.Forall₂ (fun item c => item.takes c = true) items used)
    (hshifted : List.Forall₂ (fun (item : MaskItem) c => c = '/' → item = .char '/') items shifted)
    (htaken : '/' ∉ taken) (hne : taken ≠ [])
    (hname : used ++ left = taken ++ (shifted ++ more)) : '/' ∉ shifted := by
  suffices h : ∀ k : Nat, shifted[k]? ≠ some '/' by
    intro hmem
    obtain ⟨k, hk⟩ := List.mem_iff_getElem?.1 hmem
    exact h k hk
  intro k
  induction k using Nat.strongRecOn with
  | ind k ih =>
    intro hk
    obtain ⟨hlt, hget⟩ := List.getElem?_eq_some_iff.1 hk
    -- The same item took a separator further left, where the run of the first
    -- star ends or where another shifted character lies.
    have hltItems : k < items.length := by rw [hshifted.length_eq]; exact hlt
    have hltUsed : k < used.length := by rw [← hused.length_eq]; exact hltItems
    have hitem : items[k] = .char '/' := hshifted.get hltItems hlt hget
    have hchar : used[k] = '/' := by
      have htakes := hused.get hltItems hltUsed
      simpa [List.get_eq_getElem, hitem, MaskItem.takes] using htakes
    have hat : (taken ++ (shifted ++ more))[k]? = some '/' := by
      rw [← hname, List.getElem?_append_left hltUsed, List.getElem?_eq_getElem hltUsed, hchar]
    have hpos := List.length_pos_iff.2 hne
    by_cases hin : k < taken.length
    · rw [List.getElem?_append_left hin] at hat
      exact htaken (List.mem_of_getElem? hat)
    · rw [List.getElem?_append_right (by omega),
        List.getElem?_append_left (by omega)] at hat
      exact ih (k - taken.length) (by omega) hat

/-- No item that takes a character is a star, so in a derivation each takes one,
and a separator only if it is one. -/
theorem barred_of_taken {items : List MaskItem} {used shifted : Text}
    (hused : List.Forall₂ (fun item c => item.takes c = true) items used)
    (h : Derives true items shifted) :
    List.Forall₂ (fun (item : MaskItem) c => c = '/' → item = .char '/') items shifted := by
  induction hused generalizing shifted with
  | nil =>
    rw [nil_iff.1 h]
    exact .nil
  | @cons item c items used htakes hused ih =>
    have hitem : item ≠ .star := by
      rintro rfl
      simp [MaskItem.takes] at htakes
    obtain ⟨d, shifted, rfl, -, hbar, hrest⟩ := (item_iff hitem).1 h
    exact .cons (hbar rfl) (ih hrest)

/-- A star noted behind some items can grow to where it would stand if the
earlier star took more. -/
theorem star_of_shift {items : List MaskItem} {used taken name more : Text}
    (hused : List.Forall₂ (fun item c => item.takes c = true) items used)
    (htaken : '/' ∉ taken) (hne : taken ≠ []) (hname : used ++ name = taken ++ more)
    (h : Derives true (items ++ .star :: rest) more) : Derives true (.star :: rest) name := by
  obtain ⟨shifted, stop, rfl, hitems, hstar⟩ := append_iff.1 h
  have hshifted := barred_of_taken hused hitems
  have hclear := notMem_of_shift hused hshifted htaken hne hname
  have hlen : used.length = shifted.length := by rw [← hused.length_eq, hshifted.length_eq]
  -- What the new star has to take more is the end of `taken ++ shifted`.
  obtain ⟨run, stop', hmore, rfl, hstop⟩ := star_iff.1 hstar
  have hgap : name = name.take taken.length ++ (run ++ stop') := by
    have hdrop := congrArg (List.drop (used.length + taken.length)) hname
    rw [← List.drop_drop, List.drop_left, ← List.append_assoc, hlen, Nat.add_comm,
      ← List.length_append, List.drop_left] at hdrop
    rw [← hdrop, List.take_append_drop]
  have hgapClear : '/' ∉ name.take taken.length := by
    have htake := congrArg (List.take (used.length + taken.length)) hname
    rw [List.take_append, List.take_of_length_le (by omega), Nat.add_sub_cancel_left,
      ← List.append_assoc, hlen, Nat.add_comm, ← List.length_append, List.take_left] at htake
    intro hmem
    have : '/' ∈ taken ++ shifted := by
      rw [← htake]
      exact List.mem_append_right _ hmem
    rcases List.mem_append.1 this with hmem | hmem
    · exact htaken hmem
    · exact hclear hmem
  rw [hgap, ← List.append_assoc]
  refine star_iff.2 ⟨_, stop', ?_, rfl, hstop⟩
  rw [List.mem_append, not_or]
  exact ⟨hgapClear, hmore⟩

end Derives

/-! ## The matcher reports names of the mask -/

/-- Widening takes one more character, which is no separator. -/
theorem widened_eq_some {ret : Return} {items : Mask} {left : Text} :
    widened ret = some (items, left) ↔ ∃ c, c ≠ '/' ∧ ret = some (items, c :: left) := by
  unfold widened
  split
  · rename_i noted c rest
    by_cases hc : c = '/'
    · simp [hc]
    · simp [hc, and_comm]
  · rename_i h
    simp only [reduceCtorEq, false_iff, not_exists, not_and]
    rintro c - rfl
    exact h items c left rfl

/-- What succeeds from where a star was noted after taking more. -/
def Resumes (barred : Bool) (ret : Return) : Prop :=
  ∃ noted taken more, ret = some (noted, taken ++ more) ∧ '/' ∉ taken ∧ Derives barred noted more

theorem resumes_of_widened {barred : Bool} {ret : Return} {items : Mask} {left : Text}
    (hw : widened ret = some (items, left))
    (h : Derives barred items left ∨ Resumes barred (some (items, left))) :
    Resumes barred ret := by
  obtain ⟨c, hc, rfl⟩ := widened_eq_some.1 hw
  rcases h with h | ⟨noted, taken, more, heq, htaken, h⟩
  · exact ⟨items, [c], left, rfl, by simp [Ne.symm hc], h⟩
  · simp only [Option.some.injEq, Prod.mk.injEq] at heq
    obtain ⟨rfl, rfl⟩ := heq
    exact ⟨items, c :: taken, more, rfl, by simp [Ne.symm hc, htaken], h⟩

/-- A run that succeeds has found a derivation from where it stands or from
where the last star stands after taking more. -/
theorem derives_of_run {items : Mask} {name : Text} {ret : Return} (h : run items name ret = true) :
    Derives false items name ∨ Resumes false ret := by
  fun_induction run items name ret with
  | case1 ret => exact .inl .done
  | case2 ret rest name ih =>
    rcases ih h with hd | ⟨noted, taken, more, heq, htaken, hd⟩
    · exact .inl (.skip hd)
    · simp only [Option.some.injEq, Prod.mk.injEq] at heq
      obtain ⟨rfl, rfl⟩ := heq
      exact .inl (Derives.star_iff.2 ⟨taken, more, htaken, rfl, hd⟩)
  | case3 ret item rest c left _ htakes ih =>
    rcases ih h with h | h
    · exact .inl (.take htakes (by simp) h)
    · exact .inr h
  | case4 => simp at h
  | case5 ret item rest c left _ _ items' left' hw ih => exact .inr (resumes_of_widened hw (ih h))
  | case6 => simp at h
  | case7 items name ret items' left' hw _ _ _ ih => exact .inr (resumes_of_widened hw (ih h))

/-- Every name the matcher accepts has a derivation. -/
theorem derives_of_accepts {mask : Mask} {name : Text} (h : accepts mask name = true) :
    Derives false mask name := by
  rcases derives_of_run h with h | ⟨noted, taken, more, heq, -⟩
  · exact h
  · simp at heq

/-! ## The matcher finds the names of the mask -/

/-- Behind the last star noted come items that have just taken what lies between
it and the current place. -/
def Follows (items : Mask) (name : Text) : Return → Prop
  | none => True
  | some (noted, left) => ∃ front used, noted = front ++ items ∧ left = used ++ name ∧
      List.Forall₂ (fun item c => MaskItem.takes item c = true) front used

/-- The invariant of a run that has to succeed: a derivation from here, or from
the last star after it has taken at least one more character. -/
def Viable (items : Mask) (name : Text) (ret : Return) : Prop :=
  Derives true items name ∨ ∃ noted taken more, ret = some (noted, taken ++ more) ∧
    taken ≠ [] ∧ '/' ∉ taken ∧ Derives true noted more

theorem follows_restart (items : Mask) (name : Text) : Follows items name (some (items, name)) :=
  ⟨[], [], rfl, rfl, .nil⟩

/-- An item that does not take the next character starts no derivation. -/
theorem not_derives_of_not_takes {item : MaskItem} {rest : Mask} {c : Char} {left : Text}
    (hitem : item ≠ .star) (htakes : ¬ item.takes c = true) :
    ¬ Derives true (item :: rest) (c :: left) := by
  intro h
  obtain ⟨d, more, heq, htakes', -⟩ := (Derives.item_iff hitem).1 h
  obtain ⟨rfl, -⟩ := List.cons.inj heq
  exact htakes htakes'

/-- Nor do items without characters, or characters without items. -/
theorem not_derives_of_one_left {items : Mask} {name : Text}
    (hstar : ∀ rest, items = .star :: rest → False) (hnil : items = [] → name = [] → False)
    (hcons : ∀ item rest c left, items = item :: rest → name = c :: left → False) :
    ¬ Derives true items name := by
  intro h
  cases h with
  | done => exact hnil rfl rfl
  | skip h => exact hstar _ rfl
  | widen hc h => exact hstar _ rfl
  | take htakes hbar h => exact hcons _ _ _ _ rfl rfl

/-- When nothing starts here, the last star can be widened, and the invariant
holds where it then stands. -/
theorem viable_of_not_derives {items : Mask} {name : Text} {ret : Return}
    (h : Viable items name ret) (hnot : ¬ Derives true items name) :
    ∃ noted left, widened ret = some (noted, left) ∧ Viable noted left (some (noted, left)) := by
  obtain ⟨noted, taken, more, rfl, hne, htaken, hd⟩ := h.resolve_left hnot
  cases taken with
  | nil => exact absurd rfl hne
  | cons c taken =>
    simp only [List.mem_cons, not_or] at htaken
    refine ⟨noted, taken ++ more, widened_eq_some.2 ⟨c, Ne.symm htaken.1, rfl⟩, ?_⟩
    by_cases htail : taken = []
    · subst htail
      exact .inl hd
    · exact .inr ⟨noted, taken, more, rfl, htail, htaken.2, hd⟩

theorem widened_ne_none {items : Mask} {name : Text} {ret : Return} (h : Viable items name ret)
    (hnot : ¬ Derives true items name) : widened ret ≠ none := by
  obtain ⟨noted, left, hw, -⟩ := viable_of_not_derives h hnot
  rw [hw]
  simp

theorem viable_widened {items noted : Mask} {name left : Text} {ret : Return}
    (h : Viable items name ret) (hnot : ¬ Derives true items name)
    (hw : widened ret = some (noted, left)) : Viable noted left (some (noted, left)) := by
  obtain ⟨noted', left', hw', hviable⟩ := viable_of_not_derives h hnot
  obtain ⟨rfl, rfl⟩ := Prod.mk.inj (Option.some.inj (hw.symm.trans hw'))
  exact hviable

/-- A new star keeps the invariant although the old one is forgotten. -/
theorem viable_star {rest : Mask} {name : Text} {ret : Return}
    (hfollows : Follows (.star :: rest) name ret) (h : Viable (.star :: rest) name ret) :
    Viable rest name (some (rest, name)) := by
  have hstar : Derives true (.star :: rest) name := by
    rcases h with h | ⟨noted, taken, more, rfl, hne, htaken, h⟩
    · exact h
    · obtain ⟨front, used, rfl, hname, hused⟩ := hfollows
      exact Derives.star_of_shift hused htaken hne hname.symm h
  obtain ⟨taken, more, htaken, rfl, hd⟩ := Derives.star_iff.1 hstar
  by_cases hne : taken = []
  · subst hne
    exact .inl hd
  · exact .inr ⟨rest, taken, more, rfl, hne, htaken, hd⟩

theorem follows_take {item : MaskItem} {rest : Mask} {c : Char} {left : Text} {ret : Return}
    (htakes : item.takes c = true) (h : Follows (item :: rest) (c :: left) ret) :
    Follows rest left ret := by
  cases ret with
  | none => trivial
  | some found =>
    obtain ⟨front, used, hnoted, hleft, hused⟩ := h
    refine ⟨front ++ [item], used ++ [c], ?_, ?_, ?_⟩
    · rw [hnoted, List.append_assoc]
      rfl
    · rw [hleft, List.append_assoc]
      rfl
    · exact List.rel_append hused (.cons htakes .nil)

/-- A run under the invariant succeeds. -/
theorem run_of_viable {items : Mask} {name : Text} {ret : Return}
    (hfollows : Follows items name ret) (h : Viable items name ret) : run items name ret = true := by
  fun_induction run items name ret with
  | case1 ret => rfl
  | case2 ret rest name ih => exact ih (follows_restart rest name) (viable_star hfollows h)
  | case3 ret item rest c left hitem htakes ih =>
    refine ih (follows_take htakes hfollows) ?_
    rcases h with hd | hret
    · obtain ⟨d, more, heq, -, -, hd⟩ := (Derives.item_iff hitem).1 hd
      obtain ⟨-, rfl⟩ := List.cons.inj heq
      exact .inl hd
    · exact .inr hret
  -- Nothing starts here in what follows, so the last star is widened.
  | case4 ret item rest c left hitem htakes hw =>
    exact absurd hw (widened_ne_none h (not_derives_of_not_takes hitem htakes))
  | case5 ret item rest c left hitem htakes noted more hw ih =>
    exact ih (follows_restart noted more)
      (viable_widened h (not_derives_of_not_takes hitem htakes) hw)
  | case6 items name ret hw hstar hnil hcons =>
    exact absurd hw (widened_ne_none h (not_derives_of_one_left hstar hnil hcons))
  | case7 items name ret noted more hw hstar hnil hcons ih =>
    exact ih (follows_restart noted more)
      (viable_widened h (not_derives_of_one_left hstar hnil hcons) hw)

/-- A derivation in which no class takes a separator is found. -/
theorem accepts_of_derives {mask : Mask} {name : Text} (h : Derives true mask name) :
    accepts mask name = true :=
  run_of_viable trivial (.inl h)

/-- Without separators in the name the matcher decides the language. -/
theorem accepts_iff_derives {mask : Mask} {name : Text} (hname : '/' ∉ name) :
    accepts mask name = true ↔ Derives true mask name :=
  ⟨fun h => (derives_of_accepts h).barred_of_notMem hname, accepts_of_derives⟩

/-- So it does when no class takes a separator. -/
theorem accepts_iff_derives_of_barsSeparator {mask : Mask} {name : Text}
    (hmask : BarsSeparator mask) : accepts mask name = true ↔ Derives true mask name :=
  ⟨fun h => (derives_of_accepts h).barred_of_barsSeparator hmask, accepts_of_derives⟩

end Mask

end PathGlob
