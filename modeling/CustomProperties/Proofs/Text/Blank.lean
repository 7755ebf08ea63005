import Mathlib.Data.List.DropRight
import CustomProperties.Text.Blank

/-!
Trimming cuts blanks off both ends of a text, and nothing off a text that was trimmed.
-/

namespace CustomProperties.Text

/-- A text stands between the blanks that trimming cuts off. -/
theorem indent_append_trim (t : Text) :
    ∃ front back, t = front ++ trim t ++ back ∧ front.length = indent t ∧
      (∀ b ∈ front, isBlank b) ∧ ∀ b ∈ back, isBlank b := by
  refine ⟨t.takeWhile isBlank, ((trimLeft t).reverse.takeWhile isBlank).reverse, ?_, rfl, ?_, ?_⟩
  · rw [trim, List.append_assoc, trimRight_append, trimLeft, List.takeWhile_append_dropWhile]
  · exact fun b hb => List.mem_takeWhile_imp hb
  · exact fun b hb => List.mem_takeWhile_imp (List.mem_reverse.1 hb)

theorem trimLeft_cons {c : Char} (h : isBlank c = false) (t : Text) :
    trimLeft (c :: t) = c :: t := by
  simp [trimLeft, h]

theorem trimRight_cons {c : Char} (h : isBlank c = false) (t : Text) :
    trimRight (c :: t) = c :: trimRight t := by
  rw [trimRight, List.reverse_cons, List.dropWhile_append, trimRight]
  split
  · rename_i blank
    simp [h, List.isEmpty_iff.1 blank]
  · simp

theorem trimLeft_trimLeft (t : Text) : trimLeft (trimLeft t) = trimLeft t :=
  List.dropWhile_idempotent ..

theorem trimRight_trimRight (t : Text) : trimRight (trimRight t) = trimRight t := by
  rw [trimRight, trimRight, List.reverse_reverse]
  exact congrArg List.reverse (List.dropWhile_idempotent ..)

theorem trimLeft_trim (t : Text) : trimLeft (trim t) = trim t := by
  rw [trim]
  cases h : trimLeft t with
  | nil => rfl
  | cons c rest =>
      have shows := List.head?_dropWhile_not isBlank t
      rw [← trimLeft, h] at shows
      rw [trimRight_cons shows, trimLeft_cons shows]

theorem trimRight_append_blanks {blanks : Text} (h : ∀ b ∈ blanks, isBlank b) (t : Text) :
    trimRight (t ++ blanks) = trimRight t := by
  have reversed : ∀ b ∈ blanks.reverse, isBlank b := fun b hb => h b (List.mem_reverse.1 hb)
  rw [trimRight, List.reverse_append, List.dropWhile_append_of_pos reversed, trimRight]

theorem trimLeft_blanks_append {blanks : Text} (h : ∀ b ∈ blanks, isBlank b) (t : Text) :
    trimLeft (blanks ++ t) = trimLeft t :=
  List.dropWhile_append_of_pos h

theorem trim_trim (t : Text) : trim (trim t) = trim t := by
  rw [trim, trimLeft_trim, trim, trimRight_trimRight]

theorem trim_framed {front back : Text} (hf : ∀ b ∈ front, isBlank b) (hb : ∀ b ∈ back, isBlank b)
    (t : Text) : trim (front ++ t ++ back) = trim t := by
  rw [List.append_assoc, trim, trimLeft_blanks_append hf, trimLeft, List.dropWhile_append]
  split
  · rename_i blank
    have empty : trimLeft t = [] := List.isEmpty_iff.1 blank
    rw [trim, empty, List.dropWhile_eq_nil_iff.2 hb]
  · rw [trimRight_append_blanks hb]
    rfl

theorem trimLeft_eq_self_iff {t : Text} :
    trimLeft t = t ↔ ∀ c, t.head? = some c → isBlank c = false := by
  cases t with
  | nil => simp [trimLeft]
  | cons c t =>
      constructor
      · rintro same d first
        obtain rfl := Option.some.inj first
        have shows := List.head?_dropWhile_not isBlank (c :: t)
        rw [← trimLeft, same] at shows
        exact shows
      · exact fun shows => trimLeft_cons (shows c rfl) t

theorem trimRight_eq_self_iff {t : Text} :
    trimRight t = t ↔ ∀ c, t.getLast? = some c → isBlank c = false := by
  rw [← List.head?_reverse, ← trimLeft_eq_self_iff, trimRight, ← trimLeft]
  exact List.reverse_eq_iff

theorem trim_eq_self_iff {t : Text} : trim t = t ↔ trimLeft t = t ∧ trimRight t = t := by
  constructor
  · intro same
    have left : trimLeft t = t := by rw [← same, trimLeft_trim]
    rw [trim, left] at same
    exact ⟨left, same⟩
  · rintro ⟨left, right⟩
    rw [trim, left, right]

end CustomProperties.Text
