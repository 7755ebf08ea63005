import CustomProperties.Proofs.Text.Blank
import CustomProperties.Proofs.Text.Literal
import CustomProperties.Proofs.Value.Dissection

/-!
How deep a text leads. Within a call a text may open parentheses, close those that it opened, and
hold complete strings and comments. A text that does no more and ends as deep as it began is closed:
it may stand in an argument, and what comes behind is read as if the text were not there.
-/

namespace CustomProperties

/-- How deep a text ends that begins with `depth` parentheses open, or nothing if it closes more
than these or leaves a string or a comment open. -/
def depthAfter (depth : Nat) : Text → Option Nat
  | [] => some depth
  | c :: rest =>
      match _h : literal? (c :: rest) with
      | some inner => depthAfter depth inner.rest
      | none =>
          if startsLiteral (c :: rest) then none
          else if c = ')' ∧ depth = 0 then none
          else depthAfter (depthBehind depth c) rest
termination_by t => t.length
decreasing_by
  · exact rest_of_literal? _h
  · simp

/-- A closed text ends as deep as it begins and never gets above that. -/
def Text.Closed (t : Text) : Prop := depthAfter 0 t = some 0

instance (t : Text) : Decidable t.Closed := inferInstanceAs (Decidable (_ = _))

@[simp] theorem depthAfter_nil (depth : Nat) : depthAfter depth [] = some depth := by
  rw [depthAfter]

section Steps

variable {depth : Nat} {c : Char} {t : Text} {l : Cut}

theorem literal?_eq_none (h : startsLiteral t = false) : literal? t = none := by
  cases hl : literal? t with
  | none => rfl
  | some l => simp [startsLiteral_of_literal? hl] at h

theorem depthAfter_literal (h : literal? t = some l) :
    depthAfter depth t = depthAfter depth l.rest := by
  cases t with
  | nil => simp [literal?, quoted?, comment?] at h
  | cons c t =>
      rw [depthAfter]
      split
      · rename_i inner hi
        rw [Option.some.inj (hi.symm.trans h)]
      · rename_i hi
        simp [h] at hi

theorem depthAfter_cons (plain : startsLiteral (c :: t) = false) :
    depthAfter depth (c :: t) =
      if c = ')' ∧ depth = 0 then none else depthAfter (depthBehind depth c) t := by
  rw [depthAfter]
  split
  · rename_i inner hi
    simp [literal?_eq_none plain] at hi
  · simp [plain]

theorem of_depthAfter_cons {e : Nat} (hl : literal? (c :: t) = none)
    (h : depthAfter depth (c :: t) = some e) :
    startsLiteral (c :: t) = false ∧ ¬(c = ')' ∧ depth = 0) ∧
      depthAfter (depthBehind depth c) t = some e := by
  rw [depthAfter] at h
  split at h
  · rename_i inner hi
    simp [hl] at hi
  · split at h
    · simp at h
    · rename_i plain
      split at h
      · simp at h
      · rename_i inside
        exact ⟨by simpa using plain, inside, h⟩

theorem closeCall_literal (h : literal? t = some l) :
    closeCall depth t = (closeCall depth l.rest).map (Cut.extend l.taken) := by
  cases t with
  | nil => simp [literal?, quoted?, comment?] at h
  | cons c t =>
      rw [closeCall.eq_def]
      dsimp only
      split
      · rename_i inner hi
        rw [Option.some.inj (hi.symm.trans h)]
      · rename_i hi
        simp [h] at hi

theorem closeCall_cons (plain : startsLiteral (c :: t) = false) (inside : ¬(c = ')' ∧ depth = 0)) :
    closeCall depth (c :: t) = (closeCall (depthBehind depth c) t).map (Cut.extend [c]) := by
  rw [closeCall.eq_def]
  dsimp only
  split
  · rename_i inner hi
    simp [literal?_eq_none plain] at hi
  · rw [plain]
    by_cases opens : c = '('
    · simp [depthBehind, opens]
    · by_cases closes : c = ')'
      · obtain ⟨d, rfl⟩ := Nat.exists_eq_succ_of_ne_zero fun zero => inside ⟨closes, zero⟩
        simp [depthBehind, closes]
      · simp [depthBehind, opens, closes]

theorem closeCall_close : closeCall 0 (')' :: t) = some ⟨[], t⟩ := by
  have plain : startsLiteral (')' :: t) = false := by simp [startsLiteral_cons, isQuote]
  rw [closeCall.eq_def]
  dsimp only
  split
  · rename_i inner hi
    simp [literal?_eq_none plain] at hi
  · simp [plain]

theorem splitArgument_literal (h : literal? t = some l) :
    splitArgument depth t =
      (l.taken ++ (splitArgument depth l.rest).1, (splitArgument depth l.rest).2) := by
  cases t with
  | nil => simp [literal?, quoted?, comment?] at h
  | cons c t =>
      rw [splitArgument]
      split
      · rename_i inner hi
        rw [Option.some.inj (hi.symm.trans h)]
      · rename_i hi
        simp [h] at hi

theorem splitArgument_cons (plain : startsLiteral (c :: t) = false)
    (inside : ¬(c = ',' ∧ depth = 0)) :
    splitArgument depth (c :: t) =
      (c :: (splitArgument (depthBehind depth c) t).1,
        (splitArgument (depthBehind depth c) t).2) := by
  rw [splitArgument]
  split
  · rename_i inner hi
    simp [literal?_eq_none plain] at hi
  · rw [if_neg inside]

theorem splitArgument_comma : splitArgument 0 (',' :: t) = ([], some t) := by
  have plain : startsLiteral (',' :: t) = false := by simp [startsLiteral_cons, isQuote]
  rw [splitArgument]
  split
  · rename_i inner hi
    simp [literal?_eq_none plain] at hi
  · simp

end Steps

section Append

variable {depth e : Nat} {t u : Text}

/-- Behind a text that ends within no literal, only a star may make one of its last character. -/
theorem startsLiteral_append {c : Char} (plain : startsLiteral (c :: t) = false)
    (sep : u.head? ≠ some '*') : startsLiteral (c :: (t ++ u)) = false := by
  rw [startsLiteral_cons] at plain ⊢
  cases t with
  | nil =>
      simp only [Bool.or_eq_false_iff] at plain
      simp [plain.1, sep]
  | cons d t => exact plain

theorem literal?_append_of_literal? {l : Cut} (h : literal? t = some l) (u : Text) :
    literal? (t ++ u) = some ⟨l.taken, l.rest ++ u⟩ :=
  Cut.append_rest (whole_of_literal? h) (literal?_append h) u

theorem depthAfter_append (h : depthAfter depth t = some e) (sep : u.head? ≠ some '*') :
    depthAfter depth (t ++ u) = depthAfter e u := by
  fun_induction depthAfter depth t with
  | case1 depth => rw [Option.some.inj h, List.nil_append]
  | case2 depth c rest inner hi ih =>
      rw [depthAfter_literal (literal?_append_of_literal? hi u)]
      exact ih h
  | case3 => simp at h
  | case4 => simp at h
  | case5 depth c rest hl plain inside ih =>
      have plain' := startsLiteral_append (by simpa using plain) sep
      rw [List.cons_append, depthAfter_cons plain', if_neg inside]
      exact ih h

/-- A call is closed behind a text as if the text were not there. -/
theorem closeCall_append (h : depthAfter depth t = some e) (sep : u.head? ≠ some '*') :
    closeCall depth (t ++ u) = (closeCall e u).map (Cut.extend t) := by
  fun_induction depthAfter depth t with
  | case1 depth =>
      rw [Option.some.inj h, List.nil_append]
      cases closeCall e u <;> rfl
  | case2 depth c rest inner hi ih =>
      have whole : inner.taken ++ inner.rest = c :: rest := whole_of_literal? hi
      rw [closeCall_literal (literal?_append_of_literal? hi u), ih h, ← whole, Option.map_map]
      congr
      funext cut
      simp [Cut.extend]
  | case3 => simp at h
  | case4 => simp at h
  | case5 depth c rest hl plain inside ih =>
      have plain' := startsLiteral_append (by simpa using plain) sep
      rw [List.cons_append, closeCall_cons plain' inside, ih h, Option.map_map]
      congr

theorem splitArgument_append (h : depthAfter depth t = some e) (sep : u.head? ≠ some '*') :
    splitArgument depth (t ++ u) =
      match (splitArgument depth t).2 with
      | none => (t ++ (splitArgument e u).1, (splitArgument e u).2)
      | some behind => ((splitArgument depth t).1, some (behind ++ u)) := by
  fun_induction depthAfter depth t with
  | case1 depth =>
      rw [Option.some.inj h, List.nil_append, splitArgument]
      rfl
  | case2 depth c rest inner hi ih =>
      have whole : inner.taken ++ inner.rest = c :: rest := whole_of_literal? hi
      rw [splitArgument_literal (literal?_append_of_literal? hi u), ih h,
        splitArgument_literal hi]
      dsimp only
      cases (splitArgument depth inner.rest).2 with
      | none => simp [← whole]
      | some behind => rfl
  | case3 => simp at h
  | case4 => simp at h
  | case5 depth c rest hl plain inside ih =>
      have plain' := startsLiteral_append (by simpa using plain) sep
      by_cases comma : c = ',' ∧ depth = 0
      · obtain ⟨rfl, rfl⟩ := comma
        rw [List.cons_append, splitArgument_comma, splitArgument_comma]
      · rw [List.cons_append, splitArgument_cons plain' comma, ih h,
          splitArgument_cons (by simpa using plain) comma]
        dsimp only
        cases (splitArgument (depthBehind depth c) rest).2 <;> rfl

theorem depthAfter_add (h : depthAfter depth t = some e) (k : Nat) :
    depthAfter (depth + k) t = some (e + k) := by
  fun_induction depthAfter depth t with
  | case1 depth =>
      rw [depthAfter]
      exact congrArg _ (congrArg (· + k) (Option.some.inj h))
  | case2 depth c rest inner hi ih =>
      rw [depthAfter_literal hi]
      exact ih h
  | case3 => simp at h
  | case4 => simp at h
  | case5 depth c rest hl plain inside ih =>
      have above : depthBehind (depth + k) c = depthBehind depth c + k := by
        unfold depthBehind
        split
        · omega
        · split
          · rename_i closes
            have : depth ≠ 0 := fun zero => inside ⟨closes, zero⟩
            omega
          · rfl
      rw [depthAfter_cons (by simpa using plain),
        if_neg fun both => inside ⟨both.1, Nat.eq_zero_of_add_eq_zero_right both.2⟩, above]
      exact ih h

theorem startsLiteral_of_append {c : Char} (plain : startsLiteral (c :: (t ++ u)) = false) :
    startsLiteral (c :: t) = false := by
  rw [startsLiteral_cons] at plain ⊢
  cases t with
  | nil =>
      simp only [Bool.or_eq_false_iff] at plain
      simp [plain.1]
  | cons d t => exact plain

theorem depthAfter_cons_of_closeCall {c : Char} {cut : Cut} (plain : ¬startsLiteral (c :: t))
    (inside : ¬(c = ')' ∧ depth = 0)) (h : closeCall (depthBehind depth c) t = some cut)
    (ih : depthAfter (depthBehind depth c) cut.taken = some 0) :
    depthAfter depth (Cut.extend [c] cut).taken = some 0 := by
  rw [← of_closeCall h, Bool.not_eq_true] at plain
  have plain' := startsLiteral_of_append plain
  rw [Cut.taken_extend, List.singleton_append, depthAfter_cons plain', if_neg inside, ih]

theorem depthAfter_of_closeCall {c : Cut} (h : closeCall depth t = some c) :
    depthAfter depth c.taken = some 0 := by
  fun_induction closeCall depth t generalizing c with
  | case1 => simp at h
  | case2 depth d rest inner hi ih =>
      obtain ⟨cut, hc, rfl⟩ := Option.map_eq_some_iff.1 h
      rw [Cut.taken_extend, depthAfter_literal (literal?_append hi _)]
      exact ih hc
  | case3 => simp at h
  | case4 depth rest hl plain ih =>
      obtain ⟨cut, hc, rfl⟩ := Option.map_eq_some_iff.1 h
      exact depthAfter_cons_of_closeCall plain (by simp) hc (ih hc)
  | case5 rest hl plain =>
      obtain rfl := Option.some.inj h
      exact depthAfter_nil 0
  | case6 rest depth hl plain other ih =>
      obtain ⟨cut, hc, rfl⟩ := Option.map_eq_some_iff.1 h
      exact depthAfter_cons_of_closeCall plain (by simp) hc (ih hc)
  | case7 depth d rest hl plain opens closes ih =>
      obtain ⟨cut, hc, rfl⟩ := Option.map_eq_some_iff.1 h
      have same : depthBehind depth d = depth := by simp [depthBehind, opens, closes]
      rw [← same] at hc
      exact depthAfter_cons_of_closeCall plain (by simp [closes]) hc (same.symm ▸ ih (same ▸ hc))

/-- The part of a closed text before its first comma is closed, and holds no comma itself. -/
theorem depthAfter_splitArgument (h : depthAfter depth t = some 0) :
    depthAfter depth (splitArgument depth t).1 = some 0 ∧
      (splitArgument depth (splitArgument depth t).1).2 = none := by
  fun_induction splitArgument depth t with
  | case1 depth =>
      rw [splitArgument]
      exact ⟨h, rfl⟩
  | case2 depth c rest inner hi before behind hs ih =>
      rw [depthAfter_literal hi] at h
      rw [hs] at ih
      rw [depthAfter_literal (literal?_append hi _), splitArgument_literal (literal?_append hi _)]
      exact ih h
  | case3 depth c rest hl comma =>
      obtain ⟨-, rfl⟩ := comma
      rw [splitArgument]
      exact ⟨depthAfter_nil 0, rfl⟩
  | case4 depth c rest hl comma before behind hs ih =>
      obtain ⟨plain, inside, later⟩ := of_depthAfter_cons hl h
      rw [hs] at ih
      obtain ⟨closed, whole⟩ := ih later
      have split : joinArgument before behind = rest := by
        rw [← joinArgument_splitArgument (depthBehind depth c) rest, hs]
      have plain' : startsLiteral (c :: before) = false := by
        cases behind with
        | none => rwa [← split] at plain
        | some behind =>
            rw [← split] at plain
            exact startsLiteral_of_append plain
      rw [depthAfter_cons plain', if_neg inside, splitArgument_cons plain' comma]
      exact ⟨closed, whole⟩

end Append

section Blanks

variable {depth : Nat} {t blanks : Text}

theorem blank_plain {b : Char} (h : isBlank b) (t : Text) :
    startsLiteral (b :: t) = false ∧ b ≠ '(' ∧ b ≠ ')' ∧ b ≠ ',' ∧ b ≠ '*' := by
  have other : ∀ {c : Char}, isBlank c = false → b ≠ c := by
    rintro c shows rfl
    simp [shows] at h
  have quote : b ≠ '"' := other (by decide)
  have apostrophe : b ≠ '\'' := other (by decide)
  have slash : b ≠ '/' := other (by decide)
  refine ⟨?_, other (by decide), other (by decide), other (by decide), other (by decide)⟩
  simp [startsLiteral_cons, isQuote, quote, apostrophe, slash]

theorem depthAfter_blanks (h : ∀ b ∈ blanks, isBlank b) :
    depthAfter depth (blanks ++ t) = depthAfter depth t ∧
      (splitArgument depth (blanks ++ t)).2 = (splitArgument depth t).2 := by
  induction blanks with
  | nil => exact ⟨rfl, rfl⟩
  | cons b blanks ih =>
      obtain ⟨first, later⟩ := List.forall_mem_cons.1 h
      obtain ⟨plain, opening, closing, comma, -⟩ := blank_plain first (blanks ++ t)
      have same : depthBehind depth b = depth := by simp [depthBehind, opening, closing]
      rw [List.cons_append, depthAfter_cons plain, if_neg (by simp [closing]), same,
        splitArgument_cons plain (by simp [comma]), same]
      exact ih later

theorem literal?_append_blanks (h : ∀ b ∈ blanks, isBlank b) (hl : literal? t = none) :
    literal? (t ++ blanks) = none :=
  Cut.none_append_blanks whole_of_literal? literal?_append last_of_literal? h hl

theorem depthAfter_append_blanks (h : ∀ b ∈ blanks, isBlank b) :
    depthAfter depth (t ++ blanks) = depthAfter depth t := by
  have sep : blanks.head? ≠ some '*' := fun star =>
    (blank_plain (h _ (List.mem_of_mem_head? star)) []).2.2.2.2 rfl
  fun_induction depthAfter depth t with
  | case1 depth =>
      have alone : depthAfter depth (blanks ++ []) = depthAfter depth [] := (depthAfter_blanks h).1
      simpa using alone
  | case2 depth c rest inner hi ih =>
      rw [depthAfter_literal (literal?_append_of_literal? hi blanks)]
      exact ih
  | case3 depth c rest hl starts =>
      -- Blanks do not complete a literal that was left open, for its last character would show.
      have starts' : startsLiteral (c :: (rest ++ blanks)) := by
        rw [startsLiteral_cons] at starts ⊢
        cases rest with
        | nil => simp_all
        | cons d rest => exact starts
      have unread := literal?_append_blanks h hl
      rw [List.cons_append] at unread ⊢
      cases hd : depthAfter depth (c :: (rest ++ blanks)) with
      | none => rfl
      | some e => simp [(of_depthAfter_cons unread hd).1] at starts'
  | case4 depth c rest hl plain closes =>
      rw [List.cons_append, depthAfter_cons (startsLiteral_append (by simpa using plain) sep),
        if_pos closes]
  | case5 depth c rest hl plain inside ih =>
      rw [List.cons_append, depthAfter_cons (startsLiteral_append (by simpa using plain) sep),
        if_neg inside, ih]

theorem depthAfter_trim {e : Nat} (h : depthAfter depth t = some e)
    (whole : (splitArgument depth t).2 = none) :
    depthAfter depth (Text.trim t) = some e ∧ (splitArgument depth (Text.trim t)).2 = none := by
  obtain ⟨front, back, around, -, hf, hb⟩ := Text.indent_append_trim t
  rw [around, List.append_assoc, (depthAfter_blanks hf).1, depthAfter_append_blanks hb] at h
  rw [around, List.append_assoc, (depthAfter_blanks hf).2] at whole
  have sep : back.head? ≠ some '*' := fun star =>
    (blank_plain (hb _ (List.mem_of_mem_head? star)) []).2.2.2.2 rfl
  rw [splitArgument_append h sep] at whole
  refine ⟨h, ?_⟩
  cases hs : (splitArgument depth (Text.trim t)).2 with
  | none => rfl
  | some behind => simp [hs] at whole

end Blanks

end CustomProperties
