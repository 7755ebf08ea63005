import CustomProperties.Text.Control

/-!
What is left of a text when its control sequences are taken out. It is the text itself when none stands
in it, and only then. No control sequence goes over the end of a line, so that each line can be told by
itself.
-/

namespace CustomProperties

theorem dropWhile_append_stop {p : Char → Bool} {c : Char} (stops : p c = false) (front rest : Text) :
    (front ++ c :: rest).dropWhile p = front.dropWhile p ++ c :: rest := by
  rw [List.dropWhile_append]
  split
  · rename_i all
    rw [List.isEmpty_iff.1 all, List.dropWhile_cons_of_neg (by simp [stops]), List.nil_append]
  · rfl

theorem closeControl_newline (front rest : Text) :
    closeControl (front ++ '\n' :: rest) = (closeControl front).map (· ++ '\n' :: rest) := by
  rw [closeControl, closeControl, dropWhile_append_stop (by decide), dropWhile_append_stop (by decide)]
  cases (front.dropWhile isParameter).dropWhile isIntermediate with
  | nil => rfl
  | cons c behind =>
      rw [List.cons_append]
      dsimp only
      split <;> rfl

theorem control?_eq_none {c : Char} (other : isEscape c = false) (rest : Text) :
    control? (c :: rest) = none := by
  unfold control?
  split
  · rename_i start
    obtain ⟨rfl, -⟩ := List.cons.inj start
    rw [other]
    rfl
  · rfl

theorem control?_newline (front rest : Text) :
    control? (front ++ '\n' :: rest) = (control? front).map (· ++ '\n' :: rest) := by
  match front with
  | [] => exact control?_eq_none (by decide) rest
  | [c] => rfl
  | c :: d :: front =>
      by_cases bracket : d = '['
      · subst bracket
        simp only [List.cons_append, control?]
        split
        · exact closeControl_newline front rest
        · rfl
      · simp [control?, bracket]

namespace Text

theorem withoutControls_of_control? {c : Char} {t behind : Text}
    (h : control? (c :: t) = some behind) : withoutControls (c :: t) = withoutControls behind := by
  rw [withoutControls]
  split
  · rename_i found
    rw [Option.some.inj (h.symm.trans found)]
  · rename_i found
    simp [h] at found

theorem withoutControls_cons {c : Char} {t : Text} (h : control? (c :: t) = none) :
    withoutControls (c :: t) = c :: withoutControls t := by
  rw [withoutControls]
  split
  · rename_i found
    simp [h] at found
  · rfl

/-- No control sequence stands in the text. -/
def Uncontrolled (t : Text) : Prop := ∀ rest, rest <:+ t → control? rest = none

theorem Uncontrolled.tail {c : Char} {t : Text} (h : Uncontrolled (c :: t)) : Uncontrolled t :=
  fun rest behind => h rest (behind.trans (List.suffix_cons c t))

theorem length_withoutControls_le (t : Text) : t.withoutControls.length ≤ t.length := by
  fun_induction withoutControls t with
  | case1 => exact Nat.le_refl _
  | case2 c rest behind h ih => exact Nat.le_of_lt (Nat.lt_of_le_of_lt ih (length_of_control? h))
  | case3 c rest _ ih => exact Nat.succ_le_succ ih

theorem withoutControls_eq_self_iff (t : Text) : t.withoutControls = t ↔ t.Uncontrolled := by
  fun_induction withoutControls t with
  | case1 =>
      refine iff_of_true rfl fun rest behind => ?_
      rw [List.suffix_nil.1 behind]
      rfl
  | case2 c rest behind h ih =>
      refine iff_of_false (fun same => ?_) fun free => ?_
      · have shorter := length_of_control? h
        have least := length_withoutControls_le behind
        rw [same] at least
        omega
      · rw [free _ List.suffix_rfl] at h
        simp at h
  | case3 c rest h ih =>
      rw [List.cons.injEq, ih]
      constructor
      · rintro ⟨-, free⟩ text behind
        rcases List.suffix_cons_iff.1 behind with rfl | behind
        · exact h
        · exact free text behind
      · exact fun free => ⟨rfl, free.tail⟩

instance (t : Text) : Decidable t.Uncontrolled :=
  decidable_of_iff _ (withoutControls_eq_self_iff t)

/-- What stands before the end of a line is told without what stands behind it. -/
theorem withoutControls_newline (front rest : Text) :
    (front ++ '\n' :: rest).withoutControls =
      front.withoutControls ++ '\n' :: rest.withoutControls := by
  fun_induction withoutControls front with
  | case1 => exact withoutControls_cons (control?_eq_none (c := '\n') (by decide) rest)
  | case2 c front behind h ih =>
      have whole := control?_newline (c :: front) rest
      rw [h, Option.map_some] at whole
      exact (withoutControls_of_control? whole).trans ih
  | case3 c front h ih =>
      have whole := control?_newline (c :: front) rest
      rw [h, Option.map_none] at whole
      exact (withoutControls_cons whole).trans (congrArg (c :: ·) ih)

theorem withoutControls_lines (lines : List Text) (rest : Text) :
    withoutControls (lines.flatMap (· ++ ['\n']) ++ rest) =
      lines.flatMap (fun line => line.withoutControls ++ ['\n']) ++ rest.withoutControls := by
  induction lines with
  | nil => rfl
  | cons line lines ih =>
      simp only [List.flatMap_cons, List.append_assoc, List.cons_append, List.nil_append]
      rw [withoutControls_newline, ih]

end Text

end CustomProperties
