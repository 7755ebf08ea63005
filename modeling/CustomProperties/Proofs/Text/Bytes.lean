import CustomProperties.Text.Newline
import CustomProperties.Text.Utf8

/-!
Texts, and the bytes that they are written in. Decoding loses nothing, while making line ends one loses
which of them a text had, and nothing else.
-/

namespace CustomProperties

namespace Utf8

theorem encode_of_decode {bytes : ByteArray} {text : Text} (decoded : decode bytes = .ok text) :
    encode text = bytes := by
  rw [decode, String.fromUTF8?] at decoded
  split at decoded
  · rename_i s read
    split at read
    · obtain rfl := Option.some.inj read
      obtain rfl := Except.ok.inj decoded
      rw [encode, String.ofList_toList]
      rfl
    · simp at read
  · simp at decoded

theorem encode_injective {a b : Text} (same : encode a = encode b) : a = b :=
  String.ofList_injective (String.toByteArray_inj.1 same)

end Utf8

namespace Text

def isLineEnd (c : Char) : Bool := c == '\r' || c == '\n'

theorem return_unifyLineEnds (text : Text) : '\r' ∉ unifyLineEnds text := by
  fun_induction unifyLineEnds text with
  | case1 => exact List.not_mem_nil
  | case2 rest ih => exact List.not_mem_cons_of_ne_of_not_mem (by decide) ih
  | case3 c rest _ ih =>
      refine List.not_mem_cons_of_ne_of_not_mem (fun same => ?_) ih
      split at same
      · exact absurd same (by decide)
      · rename_i other
        exact other same.symm

/-- A text in which no carriage return stands is the same with its line ends made one, and only such a
text. -/
theorem unifyLineEnds_eq_self_iff {text : Text} : unifyLineEnds text = text ↔ '\r' ∉ text := by
  constructor
  · intro same
    exact same ▸ return_unifyLineEnds text
  · intro free
    fun_induction unifyLineEnds text with
    | case1 => rfl
    | case2 rest ih => exact absurd (List.mem_cons_self ..) free
    | case3 c rest _ ih =>
        have other : c ≠ '\r' := (List.ne_of_not_mem_cons free).symm
        rw [ih (List.not_mem_of_not_mem_cons free), if_neg other]

theorem filter_unifyLineEnds (text : Text) :
    (unifyLineEnds text).filter (!isLineEnd ·) = text.filter (!isLineEnd ·) := by
  fun_induction unifyLineEnds text with
  | case1 => rfl
  | case2 rest ih => simpa [isLineEnd] using ih
  | case3 c rest _ ih =>
      split
      · rename_i same
        simpa [isLineEnd, same] using ih
      · rw [List.filter_cons, List.filter_cons, ih]

end Text

end CustomProperties
