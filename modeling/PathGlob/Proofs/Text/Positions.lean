/-
Reading a text at a byte position.

What is found at a position depends on what the text goes on with there. Where it goes on
with some rest (`dropBytes t pos = some rest`), the character at the position is the first
of the rest, and so is the byte, if it is one that takes up a single byte
(`hasByte_eq`). Inside a character there is no such byte at all (`hasByte_inside`): what
an encoding of two bytes and more is made of is 128 and above.
-/
import Mathlib.Data.List.Basic
import PathGlob.Text

set_option autoImplicit false

namespace PathGlob

namespace Text

variable {t rest used : Text} {pos : Nat} {c d : Char}

/-! ## The rest at a position -/

theorem dropBytes_eq_some : dropBytes t pos = some rest ↔
    ∃ front, t = front ++ rest ∧ pos = byteSize front := by
  constructor
  · intro h
    fun_induction dropBytes t pos with
    | case1 t => exact ⟨[], Option.some.inj h, rfl⟩
    | case2 => cases h
    | case3 c t n hle ih =>
      obtain ⟨front, rfl, hpos⟩ := ih h
      exact ⟨c :: front, rfl, by rw [byteSize]; omega⟩
    | case4 => cases h
  · rintro ⟨front, rfl, rfl⟩
    exact dropBytes_append front rest

/-- A part that is read moves the position by its size. -/
theorem dropBytes_add (h : dropBytes t pos = some (used ++ rest)) :
    dropBytes t (pos + byteSize used) = some rest := by
  obtain ⟨front, rfl, rfl⟩ := dropBytes_eq_some.1 h
  exact dropBytes_eq_some.2 ⟨front ++ used, (List.append_assoc ..).symm, (byteSize_append ..).symm⟩

theorem dropBytes_next (h : dropBytes t pos = some (c :: rest)) :
    dropBytes t (pos + c.utf8Size) = some rest := by
  rw [← List.singleton_append] at h
  exact dropBytes_add h

theorem size_of_dropBytes (h : dropBytes t pos = some rest) : pos + byteSize rest = byteSize t := by
  obtain ⟨front, rfl, rfl⟩ := dropBytes_eq_some.1 h
  exact (byteSize_append front rest).symm

/-- Only the end of the text has nothing behind it. -/
theorem le_iff_of_dropBytes (h : dropBytes t pos = some rest) : byteSize t ≤ pos ↔ rest = [] := by
  have hsize := size_of_dropBytes h
  constructor
  · intro hle
    by_contra hne
    have hpos := byteSize_pos hne
    omega
  · rintro rfl
    rw [byteSize] at hsize
    omega

theorem charAt_eq (h : dropBytes t pos = some rest) : charAt t pos = rest.head? := by
  rw [charAt, h, Option.bind_some]

/-! ## Single bytes -/

theorem length_utf8 (t : Text) : (utf8 t).length = byteSize t := by
  induction t with
  | nil => rfl
  | cons c t ih =>
    rw [utf8] at ih ⊢
    rw [List.flatMap_cons, List.length_append, String.length_utf8EncodeChar, ih, byteSize]

/-- A byte below 128 is all there is of its character. -/
theorem eq_of_mem_encode (hd : d.utf8Size = 1) (h : d.toUInt8 ∈ String.utf8EncodeChar c) :
    c = d := by
  have hascii : d.val.toNat ≤ 127 := Char.utf8Size_eq_one_iff.1 hd
  have hbyte : d.toUInt8.toNat = d.val.toNat := by
    rw [Char.toUInt8, UInt32.toNat_toUInt8]
    omega
  -- All the bytes of a longer encoding are 128 and above.
  have hlone : c.val.toNat ≤ 127 := by
    by_contra hlong
    rw [String.utf8EncodeChar, if_neg hlong] at h
    split at h
    · simp only [List.mem_cons, List.not_mem_nil, or_false, ← UInt8.toNat_inj, hbyte,
        UInt8.toNat_ofNat'] at h
      omega
    · split at h
      · simp only [List.mem_cons, List.not_mem_nil, or_false, ← UInt8.toNat_inj, hbyte,
          UInt8.toNat_ofNat'] at h
        omega
      · simp only [List.mem_cons, List.not_mem_nil, or_false, ← UInt8.toNat_inj, hbyte,
          UInt8.toNat_ofNat'] at h
        omega
  rw [String.utf8EncodeChar, if_pos hlone, List.mem_singleton, ← UInt8.toNat_inj, hbyte,
    UInt8.toNat_ofNat'] at h
  refine Char.ext (UInt32.toNat_inj.1 ?_)
  omega

/-- The bytes at and behind a position are those of the rest. -/
theorem hasByte_add (h : dropBytes t pos = some rest) (n : Nat) (d : Char) :
    hasByte t (pos + n) d = hasByte rest n d := by
  obtain ⟨front, rfl, rfl⟩ := dropBytes_eq_some.1 h
  rw [hasByte, utf8, List.flatMap_append, ← utf8, ← utf8,
    List.getElem?_append_right (by rw [length_utf8]; omega), length_utf8, Nat.add_sub_cancel_left,
    hasByte]

/-- The byte at a position is the character that begins there. -/
theorem hasByte_eq (h : dropBytes t pos = some rest) (hd : d.utf8Size = 1) :
    hasByte t pos d = (rest.head? == some d) := by
  have hat := hasByte_add h 0 d
  rw [Nat.add_zero] at hat
  rw [hat]
  cases rest with
  | nil => rfl
  | cons c rest =>
    obtain ⟨byte, bytes, hbytes⟩ := List.exists_cons_of_ne_nil (@String.utf8EncodeChar_ne_nil c)
    rw [hasByte, utf8, List.flatMap_cons, hbytes, List.cons_append, List.getElem?_cons_zero,
      List.head?_cons, Bool.eq_iff_iff, beq_iff_eq, beq_iff_eq, Option.some_inj, Option.some_inj]
    constructor
    · rintro rfl
      exact eq_of_mem_encode hd (hbytes ▸ List.mem_cons_self)
    · rintro rfl
      rw [String.utf8EncodeChar_eq_singleton hd] at hbytes
      exact (List.cons.inj hbytes).1.symm

theorem hasByte_head (h : dropBytes t pos = some (d :: rest)) (hd : d.utf8Size = 1) :
    hasByte t pos d = true := by
  rw [hasByte_eq h hd, List.head?_cons]
  exact BEq.rfl

theorem hasByte_of_ne (h : dropBytes t pos = some (c :: rest)) (hd : d.utf8Size = 1)
    (hne : c ≠ d) : hasByte t pos d = false := by
  rw [hasByte_eq h hd, List.head?_cons, beq_eq_false_iff_ne]
  exact fun heq => hne (Option.some.inj heq)

/-- Inside a character there is no byte that is a character by itself. -/
theorem hasByte_inside (h : dropBytes t pos = some (c :: rest)) (hd : d.utf8Size = 1) {n : Nat}
    (hpos : 0 < n) (hlt : n < c.utf8Size) : hasByte t (pos + n) d = false := by
  rw [hasByte_add h, hasByte, utf8, List.flatMap_cons,
    List.getElem?_append_left (by rwa [String.length_utf8EncodeChar]), beq_eq_false_iff_ne]
  intro hbyte
  have hc := eq_of_mem_encode hd (List.mem_of_getElem? hbyte)
  rw [hc, hd] at hlt
  omega

end Text

end PathGlob
