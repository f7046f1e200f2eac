/-
The order of texts and the order of their bytes.

Texts are ordered by the code points of their characters. In UTF-8 this is the order of
the bytes as well: of two characters the one with the smaller code point has the smaller
encoding, at the first byte in which they differ, and no encoding is the front of another
(`utf8EncodeChar_lt`). So a listing in the one order is in the other (`utf8_lt_of_lt`).
-/
import Mathlib.Data.List.Basic
import PathGlob.Text

set_option autoImplicit false

namespace PathGlob

namespace Text

/-- Of two lists of bytes the first byte decides, and what follows only if it is the same. -/
theorem byte_cons_lt {m n : Nat} {a b : List UInt8} (hn : n < 256) (hle : m ≤ n)
    (h : m = n → a < b) : UInt8.ofNat m :: a < UInt8.ofNat n :: b := by
  rw [List.cons_lt_cons_iff]
  rcases Nat.lt_or_eq_of_le hle with hlt | heq
  · left
    rw [UInt8.lt_iff_toNat_lt, UInt8.toNat_ofNat', UInt8.toNat_ofNat']
    omega
  · exact .inr ⟨congrArg UInt8.ofNat heq, h heq⟩

/-- Two encodings are told apart by the first byte that is not the same in both. If one is
longer, that is the first byte of all. -/
theorem utf8EncodeChar_lt {c d : Char} (h : c < d) (a b : List UInt8) :
    String.utf8EncodeChar c ++ a < String.utf8EncodeChar d ++ b := by
  have hlt : c.val.toNat < d.val.toNat := h
  have hmax : d.val.toNat < 0x110000 := by
    have hvalid := d.valid
    simp only [UInt32.isValidChar, Nat.isValidChar] at hvalid
    omega
  rw [String.utf8EncodeChar, String.utf8EncodeChar]
  generalize c.val.toNat = m at hlt
  generalize d.val.toNat = n at hlt hmax
  by_cases hm : m ≤ 127
  · rw [if_pos hm]
    split
    · exact byte_cons_lt (by omega) (by omega) (by omega)
    · split
      · exact byte_cons_lt (by omega) (by omega) (by omega)
      · split
        · exact byte_cons_lt (by omega) (by omega) (by omega)
        · exact byte_cons_lt (by omega) (by omega) (by omega)
  · rw [if_neg hm, if_neg (by omega : ¬ n ≤ 127)]
    by_cases hm : m ≤ 2047
    · rw [if_pos hm]
      split
      · exact byte_cons_lt (by omega) (by omega) fun _ => byte_cons_lt (by omega) (by omega) (by omega)
      · split
        · exact byte_cons_lt (by omega) (by omega) (by omega)
        · exact byte_cons_lt (by omega) (by omega) (by omega)
    · rw [if_neg hm, if_neg (by omega : ¬ n ≤ 2047)]
      by_cases hm : m ≤ 65535
      · rw [if_pos hm]
        split
        · exact byte_cons_lt (by omega) (by omega) fun _ => byte_cons_lt (by omega) (by omega)
            fun _ => byte_cons_lt (by omega) (by omega) (by omega)
        · exact byte_cons_lt (by omega) (by omega) (by omega)
      · rw [if_neg hm, if_neg (by omega : ¬ n ≤ 65535)]
        exact byte_cons_lt (by omega) (by omega) fun _ => byte_cons_lt (by omega) (by omega)
          fun _ => byte_cons_lt (by omega) (by omega) fun _ =>
            byte_cons_lt (by omega) (by omega) (by omega)

/-- **Texts in order** have their bytes in order. -/
theorem utf8_lt_of_lt {a b : Text} (h : a < b) : utf8 a < utf8 b := by
  induction a generalizing b with
  | nil =>
    cases b with
    | nil => exact absurd h (List.lt_irrefl _)
    | cons d b =>
      obtain ⟨byte, bytes, hbytes⟩ := List.exists_cons_of_ne_nil (@String.utf8EncodeChar_ne_nil d)
      rw [utf8, utf8, List.flatMap_cons, hbytes]
      exact List.nil_lt_cons _ _
  | cons c a ih =>
    cases b with
    | nil => exact absurd h (List.not_lt_nil _)
    | cons d b =>
      rw [utf8, utf8, List.flatMap_cons, List.flatMap_cons]
      rcases List.cons_lt_cons_iff.1 h with hlt | ⟨rfl, hlt⟩
      · exact utf8EncodeChar_lt hlt _ _
      · exact List.append_left_lt (ih hlt)

end Text

end PathGlob
