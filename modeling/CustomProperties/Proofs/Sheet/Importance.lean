import Mathlib.Data.List.Forall2
import CustomProperties.Proofs.Text.Blank
import CustomProperties.Sheet.Declaration

/-!
The mark of importance. A text ends in a mark exactly when it is split, and it is split before the
last mark and before the blanks in front of that.
-/

namespace CustomProperties

/-- An exclamation mark and the word, with blanks before either. -/
def IsMark (mark : Text) : Prop :=
  ∃ front back word, mark = front ++ '!' :: (back ++ word) ∧ (∀ b ∈ front, isBlank b) ∧
    (∀ b ∈ back, isBlank b) ∧
    List.Forall₂ (fun letter c => Declaration.sameLetter letter c) "important".toList word

theorem star_of_mark {mark : Text} (h : IsMark mark) : mark.head? ≠ some '*' := by
  obtain ⟨front, back, word, rfl, blank, -⟩ := h
  cases front with
  | nil => simp
  | cons b front =>
      intro star
      obtain rfl : b = '*' := Option.some.inj star
      exact absurd (blank '*' (List.mem_cons_self ..)) (by decide)

namespace Declaration

theorem dropWord_eq_some_iff {letters t rest : Text} :
    dropWord letters t = some rest ↔
      ∃ word, t = word ++ rest ∧ List.Forall₂ (fun letter c => sameLetter letter c) letters word := by
  fun_induction dropWord letters t with
  | case1 t =>
      constructor
      · intro h
        exact ⟨[], by simpa using h, .nil⟩
      · rintro ⟨word, rfl, same⟩
        rw [List.forall₂_nil_left_iff.1 same, List.nil_append]
  | case2 letter letters =>
      constructor
      · intro h
        simp at h
      · rintro ⟨word, whole, same⟩
        obtain ⟨rfl, -⟩ := List.append_eq_nil_iff.1 whole.symm
        cases same
  | case3 letter letters c t same ih =>
      rw [ih]
      constructor
      · rintro ⟨word, rfl, later⟩
        exact ⟨c :: word, rfl, .cons same later⟩
      · rintro ⟨word, whole, all⟩
        obtain ⟨d, word, -, later, rfl⟩ := List.forall₂_cons_left_iff.1 all
        exact ⟨word, (List.cons.inj whole).2, later⟩
  | case4 letter letters c t other =>
      constructor
      · intro h
        simp at h
      · rintro ⟨word, whole, all⟩
        obtain ⟨d, word, same, -, rfl⟩ := List.forall₂_cons_left_iff.1 all
        rw [(List.cons.inj whole).1] at other
        exact absurd same other

theorem dropWhile_blanks {blanks : Text} (h : ∀ b ∈ blanks, isBlank b) (t : Text) :
    (blanks ++ t).dropWhile isBlank = t.dropWhile isBlank :=
  List.dropWhile_append_of_pos h

theorem splitImportant_of_mark {mark : Text} (h : IsMark mark) (value : Text) :
    splitImportant (value ++ mark) = (Text.trimRight value, true) := by
  obtain ⟨front, back, word, rfl, blank_front, blank_back, letters⟩ := h
  have word_last : dropWord "important".toList.reverse
      (value ++ (front ++ '!' :: (back ++ word))).reverse =
        some (back.reverse ++ '!' :: (front.reverse ++ value.reverse)) :=
    dropWord_eq_some_iff.2 ⟨word.reverse, by simp, List.rel_reverse letters⟩
  have shows : isBlank '!' = false := by decide
  rw [splitImportant, word_last]
  simp only
  rw [dropWhile_blanks fun b hb => blank_back b (List.mem_reverse.1 hb),
    List.dropWhile_cons_of_neg (by simp [shows])]
  simp only
  rw [dropWhile_blanks fun b hb => blank_front b (List.mem_reverse.1 hb), Text.trimRight]

theorem splitImportant_cases (body : Text) :
    (∃ mark, IsMark mark ∧ body = (splitImportant body).1 ++ mark ∧ (splitImportant body).2 = true) ∨
      splitImportant body = (body, false) := by
  rw [splitImportant]
  split
  · exact .inr rfl
  · rename_i rest found
    obtain ⟨word, whole, letters⟩ := dropWord_eq_some_iff.1 found
    split
    · rename_i behind at_mark
      obtain ⟨back, blank_back, rest_eq⟩ : ∃ back, (∀ b ∈ back, isBlank b) ∧
          rest = back ++ '!' :: behind :=
        ⟨_, fun b hb => List.mem_takeWhile_imp hb, by
          rw [← at_mark, List.takeWhile_append_dropWhile]⟩
      obtain ⟨front, blank_front, behind_eq⟩ : ∃ front, (∀ b ∈ front, isBlank b) ∧
          behind = front ++ behind.dropWhile isBlank :=
        ⟨_, fun b hb => List.mem_takeWhile_imp hb, by rw [List.takeWhile_append_dropWhile]⟩
      refine .inl ⟨front.reverse ++ '!' :: (back.reverse ++ word.reverse), ⟨_, _, _, rfl, ?_, ?_, ?_⟩,
        ?_, rfl⟩
      · exact fun b hb => blank_front b (List.mem_reverse.1 hb)
      · exact fun b hb => blank_back b (List.mem_reverse.1 hb)
      · simpa using List.rel_reverse letters
      · calc body = (word ++ (back ++ '!' :: (front ++ behind.dropWhile isBlank))).reverse := by
              rw [← behind_eq, ← rest_eq, ← whole, List.reverse_reverse]
          _ = _ := by simp
    · exact .inr rfl

theorem trim_splitImportant {body : Text} (trimmed : Text.trim body = body) :
    Text.trim (splitImportant body).1 = (splitImportant body).1 := by
  rcases splitImportant_cases body with ⟨mark, marked, whole, -⟩ | same
  · have split := congrArg Prod.fst (splitImportant_of_mark marked (splitImportant body).1)
    rw [← whole] at split
    obtain ⟨left, -⟩ := Text.trim_eq_self_iff.1 trimmed
    refine Text.trim_eq_self_iff.2 ⟨Text.trimLeft_eq_self_iff.2 fun c first => ?_, split.symm⟩
    refine Text.trimLeft_eq_self_iff.1 left c ?_
    rw [whole, List.head?_append, first, Option.some_or]
  · rw [same, trimmed]

section Letters

variable {letter c : Char}

/-- What counts as a letter of a word is the letter itself, a capital, or an i with its dot kept or
left out. -/
theorem cases_sameLetter (h : sameLetter letter c) :
    c = letter ∨ (65 ≤ c.toNat ∧ c.toNat ≤ 90) ∨ c = 'İ' ∨ c = 'ı' := by
  simp only [sameLetter, Bool.or_eq_true, Bool.and_eq_true, beq_iff_eq] at h
  rcases h with lower | ⟨-, dotted⟩
  · by_cases upper : c.val ≥ 'A'.val ∧ c.val ≤ 'Z'.val
    · exact .inr (.inl ⟨upper.1, upper.2⟩)
    · have same : c.toLower = c := dif_neg upper
      exact .inl (same.symm.trans lower)
  · exact .inr (.inr dotted)

theorem shows_of_sameLetter (h : sameLetter letter c) (mem : letter ∈ "important".toList) :
    isBlank c = false := by
  have letters : "important".toList.all fun l => !isBlank l := by decide
  rcases cases_sameLetter h with rfl | capital | rfl | rfl
  · simpa using List.all_eq_true.1 letters c mem
  · simp only [isBlank, Bool.or_eq_false_iff, Bool.and_eq_false_iff, decide_eq_false_iff_not,
      beq_eq_false_iff_ne]
    omega
  · decide
  · decide

end Letters

section Framed

variable {front value mark back : Text}

/-- Nothing is cut off a mark at its end, and nothing but blanks at its start. -/
theorem trim_append_mark (h : IsMark mark) (trimmed : Text.trim value = value) :
    ∃ mark', IsMark mark' ∧ Text.trim (value ++ mark) = value ++ mark' := by
  obtain ⟨front, back, word, rfl, blank_front, blank_back, letters⟩ := h
  have ends (t : Text) : Text.trimRight (t ++ '!' :: (back ++ word)) = t ++ '!' :: (back ++ word) := by
    obtain ⟨c, rest, same, -, word_eq⟩ := List.forall₂_cons_left_iff.1 (List.rel_reverse letters)
    have last : word.getLast? = some c := by rw [← List.head?_reverse, word_eq, List.head?_cons]
    refine Text.trimRight_eq_self_iff.2 fun d hd => ?_
    rw [List.getLast?_append, List.getLast?_cons, List.getLast?_append, last] at hd
    obtain rfl : c = d := by simpa using hd
    exact shows_of_sameLetter same (by decide)
  cases value with
  | nil =>
      refine ⟨'!' :: (back ++ word), ⟨[], back, word, rfl, by simp, blank_back, letters⟩, ?_⟩
      rw [List.nil_append, Text.trim, Text.trimLeft_blanks_append blank_front,
        Text.trimLeft_cons (by decide)]
      exact ends []
  | cons c value =>
      refine ⟨_, ⟨front, back, word, rfl, blank_front, blank_back, letters⟩, ?_⟩
      have shows := Text.trimLeft_eq_self_iff.1 (Text.trim_eq_self_iff.1 trimmed).1 c rfl
      rw [List.cons_append, Text.trim, Text.trimLeft_cons shows, ← List.cons_append,
        ← List.append_assoc, ends]

theorem splitImportant_framed (blank_front : ∀ b ∈ front, isBlank b)
    (blank_back : ∀ b ∈ back, isBlank b) (trimmed : Text.trim value = value) (marked : IsMark mark) :
    splitImportant (Text.trim (front ++ (value ++ mark) ++ back)) = (value, true) := by
  obtain ⟨mark', marked', whole⟩ := trim_append_mark marked trimmed
  rw [Text.trim_framed blank_front blank_back, whole, splitImportant_of_mark marked',
    (Text.trim_eq_self_iff.1 trimmed).2]

theorem splitImportant_unmarked (blank_front : ∀ b ∈ front, isBlank b)
    (blank_back : ∀ b ∈ back, isBlank b) (trimmed : Text.trim value = value)
    (unmarked : ∀ value' mark, IsMark mark → value ≠ value' ++ mark) :
    splitImportant (Text.trim (front ++ value ++ back)) = (value, false) := by
  rw [Text.trim_framed blank_front blank_back, trimmed]
  rcases splitImportant_cases value with ⟨mark, marked, whole, -⟩ | same
  · exact absurd whole (unmarked _ mark marked)
  · exact same

end Framed

end Declaration

end CustomProperties
