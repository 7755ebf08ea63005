import Mathlib.Data.List.Basic
import CustomProperties.Text.Blank
import CustomProperties.Text.Lexeme

/-!
Strings and comments depend on nothing behind them: what a recogniser took, it takes again whatever
text comes next. Both end in a character that is not blank.
-/

namespace CustomProperties

@[simp] theorem Cut.map_extend_nil (cut : Option Cut) : cut.map (Cut.extend []) = cut := by
  cases cut <;> rfl

/-- A recogniser that goes on behind each character of a text goes on behind the text. -/
theorem Cut.passes {f : Text → Option Cut} {t u : Text}
    (step : ∀ c back, c :: back <:+ t →
      f (c :: (back ++ u)) = (f (back ++ u)).map (Cut.extend [c])) :
    f (t ++ u) = (f u).map (Cut.extend t) := by
  induction t with
  | nil => rw [List.nil_append, Cut.map_extend_nil]
  | cons c t ih =>
      have later := ih fun d back within => step d back (within.trans (List.suffix_cons c t))
      rw [List.cons_append, step c t List.suffix_rfl, later, Option.map_map]
      congr

/-- What is taken again whatever comes behind it is taken before any longer rest. -/
theorem Cut.append_rest {f : Text → Option Cut} {t : Text} {c : Cut} (whole : c.whole = t)
    (again : ∀ u, f (c.taken ++ u) = some ⟨c.taken, u⟩) (u : Text) :
    f (t ++ u) = some ⟨c.taken, c.rest ++ u⟩ := by
  rw [← whole, Cut.whole, List.append_assoc]
  exact again _

/-- Blanks behind a text complete nothing for a recogniser whose cuts end in characters that show.
-/
theorem Cut.none_append_blanks {f : Text → Option Cut} {t blanks : Text}
    (whole : ∀ {c}, f (t ++ blanks) = some c → c.whole = t ++ blanks)
    (again : ∀ {c}, f (t ++ blanks) = some c → ∀ u, f (c.taken ++ u) = some ⟨c.taken, u⟩)
    (last : ∀ {c}, f (t ++ blanks) = some c →
      ∃ last, c.taken.getLast? = some last ∧ isBlank last = false)
    (h : ∀ b ∈ blanks, isBlank b) (missed : f t = none) : f (t ++ blanks) = none := by
  cases found : f (t ++ blanks) with
  | none => rfl
  | some l =>
      exfalso
      have split : l.taken ++ l.rest = t ++ blanks := whole found
      obtain ⟨last, ends, shows⟩ := last found
      rcases List.append_eq_append_iff.1 split with ⟨more, rfl, -⟩ | ⟨more, taken, within⟩
      · rw [again found] at missed
        simp at missed
      -- A cut that reaches into the blanks would end in one of them.
      · rcases List.eq_nil_or_concat' more with rfl | ⟨front, b, rfl⟩
        · rw [List.append_nil] at taken
          rw [← taken, ← List.append_nil l.taken, again found] at missed
          simp at missed
        · rw [taken, ← List.append_assoc, List.getLast?_concat] at ends
          obtain rfl := Option.some.inj ends
          have blank := h b (by simp [within])
          simp [shows] at blank

theorem unpaired_append {a b c : Char} {t u : Text} (unpaired : ¬[a, b] <+: c :: t)
    (sep : u.head? ≠ some b) : ¬[a, b] <+: c :: (t ++ u) := by
  rintro ⟨inside, same⟩
  obtain ⟨rfl, later⟩ := List.cons.inj same
  cases t with
  | nil =>
      rw [List.nil_append] at later
      exact sep (later ▸ rfl)
  | cons d t =>
      obtain ⟨rfl, -⟩ := List.cons.inj later
      exact unpaired ⟨t, rfl⟩

/-- Behind a text without a pair of characters only the second one may complete a pair. -/
theorem bare_append {a b c : Char} {t u : Text} (bare : ¬[a, b] <:+: c :: t)
    (sep : u.head? ≠ some b) : ¬[a, b] <+: c :: (t ++ u) :=
  unpaired_append (fun pair => bare pair.isInfix) sep

theorem closeQuote_cons {quote c : Char} (straight : c ≠ '\\') (t : Text) :
    closeQuote quote (c :: t) =
      if c = quote then some ⟨[c], t⟩ else (closeQuote quote t).map (Cut.extend [c]) := by
  rw [closeQuote]
  exact fun _ _ slash => absurd slash straight

theorem closeQuote_append {quote : Char} (hq : quote ≠ '\\') {t : Text} {c : Cut}
    (h : closeQuote quote t = some c) (u : Text) :
    closeQuote quote (c.taken ++ u) = some ⟨c.taken, u⟩ := by
  fun_induction closeQuote quote t generalizing c with
  | case1 => simp at h
  | case2 d rest ih =>
      obtain ⟨e, he, rfl⟩ := Option.map_eq_some_iff.1 h
      simp [closeQuote, ih he, Cut.extend]
  | case3 rest plain =>
      obtain rfl := Option.some.inj h
      simp [closeQuote, hq]
  | case4 d rest plain other ih =>
      obtain ⟨e, he, rfl⟩ := Option.map_eq_some_iff.1 h
      have straight : d ≠ '\\' := by
        rintro rfl
        cases rest with
        | nil => simp [closeQuote] at he
        | cons a rest => exact plain a rest rfl rfl
      simp [closeQuote, straight, other, ih he, Cut.extend]

theorem taken_of_closeComment {t : Text} {c : Cut} (h : closeComment t = some c) :
    c.taken ≠ [] := by
  fun_cases closeComment t with
  | case1 => simp [closeComment] at h
  | case2 rest =>
      rw [closeComment] at h
      obtain rfl := Option.some.inj h
      simp
  | case3 d rest other =>
      rw [closeComment] at h
      · obtain ⟨e, -, rfl⟩ := Option.map_eq_some_iff.1 h
        simp
      · exact other

theorem closeComment_append {t : Text} {c : Cut} (h : closeComment t = some c) (u : Text) :
    closeComment (c.taken ++ u) = some ⟨c.taken, u⟩ := by
  fun_induction closeComment t generalizing c with
  | case1 => simp at h
  | case2 rest =>
      obtain rfl := Option.some.inj h
      rfl
  | case3 d rest other ih =>
      obtain ⟨e, he, rfl⟩ := Option.map_eq_some_iff.1 h
      -- The star and the slash that end a comment may not come together at the joint.
      obtain ⟨a, taken, ht⟩ := List.exists_cons_of_ne_nil (taken_of_closeComment he)
      have whole := whole_of_closeComment he
      rw [Cut.whole, ht, List.cons_append] at whole
      have next := ih he
      rw [Cut.taken_extend, ht]
      rw [ht] at next
      show closeComment (d :: a :: (taken ++ u)) = _
      rw [closeComment]
      · rw [show a :: (taken ++ u) = a :: taken ++ u from rfl, next]
        rfl
      · rintro rest' rfl same
        obtain ⟨rfl, -⟩ := List.cons.inj same
        exact other _ rfl whole.symm

theorem straight_of_isQuote {c : Char} (mark : isQuote c) : c ≠ '\\' := by
  rintro rfl
  simp [isQuote] at mark

theorem of_quoted? {t : Text} {c : Cut} (h : quoted? t = some c) :
    ∃ quote rest e, t = quote :: rest ∧ isQuote quote ∧ closeQuote quote rest = some e ∧
      c = e.extend [quote] := by
  cases t with
  | nil => simp [quoted?] at h
  | cons quote rest =>
      rw [quoted?] at h
      split at h
      · rename_i mark
        obtain ⟨e, he, rfl⟩ := Option.map_eq_some_iff.1 h
        exact ⟨quote, rest, e, rfl, mark, he, rfl⟩
      · simp at h

theorem of_comment? {t : Text} {c : Cut} (h : comment? t = some c) :
    ∃ rest e, t = '/' :: '*' :: rest ∧ closeComment rest = some e ∧ c = e.extend ['/', '*'] := by
  unfold comment? at h
  split at h
  · rename_i rest
    obtain ⟨e, he, rfl⟩ := Option.map_eq_some_iff.1 h
    exact ⟨rest, e, rfl, he, rfl⟩
  · simp at h

theorem quoted?_append {t : Text} {c : Cut} (h : quoted? t = some c) (u : Text) :
    quoted? (c.taken ++ u) = some ⟨c.taken, u⟩ := by
  obtain ⟨quote, rest, e, rfl, mark, he, rfl⟩ := of_quoted? h
  simp [quoted?, mark, closeQuote_append (straight_of_isQuote mark) he, Cut.extend]

theorem comment?_append {t : Text} {c : Cut} (h : comment? t = some c) (u : Text) :
    comment? (c.taken ++ u) = some ⟨c.taken, u⟩ := by
  obtain ⟨rest, e, rfl, he, rfl⟩ := of_comment? h
  simp [comment?, closeComment_append he, Cut.extend]

theorem quoted?_append_of_quoted? {t : Text} {c : Cut} (h : quoted? t = some c) (u : Text) :
    quoted? (t ++ u) = some ⟨c.taken, c.rest ++ u⟩ :=
  Cut.append_rest (whole_of_quoted? h) (quoted?_append h) u

theorem comment?_append_of_comment? {t : Text} {c : Cut} (h : comment? t = some c) (u : Text) :
    comment? (t ++ u) = some ⟨c.taken, c.rest ++ u⟩ :=
  Cut.append_rest (whole_of_comment? h) (comment?_append h) u

theorem quoted?_cons {c : Char} (h : isQuote c = false) (t : Text) : quoted? (c :: t) = none := by
  rw [quoted?, h]
  rfl

theorem comment?_cons {c : Char} (h : c ≠ '/') (t : Text) : comment? (c :: t) = none := by
  cases hc : comment? (c :: t) with
  | none => rfl
  | some cut =>
      obtain ⟨rest, e, same, -⟩ := of_comment? hc
      exact absurd (List.cons.inj same).1 h

theorem literal?_append {t : Text} {c : Cut} (h : literal? t = some c) (u : Text) :
    literal? (c.taken ++ u) = some ⟨c.taken, u⟩ := by
  rcases Option.or_eq_some_iff.1 h with hq | ⟨-, hc⟩
  · rw [literal?, quoted?_append hq u]
    rfl
  · obtain ⟨rest, e, rfl, he, rfl⟩ := of_comment? hc
    have slash : quoted? ((e.extend ['/', '*']).taken ++ u) = none :=
      quoted?_cons (by decide) _
    rw [literal?, slash, comment?_append hc u]
    rfl

theorem startsLiteral_cons (c : Char) (t : Text) :
    startsLiteral (c :: t) = (isQuote c || (c == '/' && t.head? == some '*')) := by
  cases t with
  | nil => simp [startsLiteral, List.isPrefixOf]
  | cons d t =>
      simp only [startsLiteral, List.isPrefixOf, List.head?_cons, Option.any_some, Bool.and_true]
      rw [Bool.beq_comm (a := '/'), Bool.beq_comm (a := '*')]
      rfl

theorem startsLiteral_of_literal? {t : Text} {c : Cut} (h : literal? t = some c) :
    startsLiteral t := by
  rcases Option.or_eq_some_iff.1 h with hq | ⟨-, hc⟩
  · obtain ⟨quote, rest, e, rfl, mark, -, -⟩ := of_quoted? hq
    simp [startsLiteral_cons, mark]
  · obtain ⟨rest, e, rfl, -, -⟩ := of_comment? hc
    rfl

theorem last_of_closeQuote {quote : Char} {t : Text} {c : Cut}
    (h : closeQuote quote t = some c) : c.taken.getLast? = some quote := by
  fun_induction closeQuote quote t generalizing c with
  | case1 => simp at h
  | case2 d rest ih =>
      obtain ⟨e, he, rfl⟩ := Option.map_eq_some_iff.1 h
      rw [Cut.taken_extend, List.getLast?_append, ih he, Option.some_or]
  | case3 rest plain =>
      obtain rfl := Option.some.inj h
      rfl
  | case4 d rest plain other ih =>
      obtain ⟨e, he, rfl⟩ := Option.map_eq_some_iff.1 h
      rw [Cut.taken_extend, List.getLast?_append, ih he, Option.some_or]

theorem last_of_closeComment {t : Text} {c : Cut} (h : closeComment t = some c) :
    c.taken.getLast? = some '/' := by
  fun_induction closeComment t generalizing c with
  | case1 => simp at h
  | case2 rest =>
      obtain rfl := Option.some.inj h
      rfl
  | case3 d rest other ih =>
      obtain ⟨e, he, rfl⟩ := Option.map_eq_some_iff.1 h
      rw [Cut.taken_extend, List.getLast?_append, ih he, Option.some_or]

theorem closeComment_cons {c : Char} {t : Text} (inside : ¬['*', '/'] <+: c :: t) :
    closeComment (c :: t) = (closeComment t).map (Cut.extend [c]) := by
  rw [closeComment]
  rintro rest rfl rfl
  exact inside ⟨rest, rfl⟩

theorem exists_closeComment {t : Text} (h : ['*', '/'] <:+: t) : ∃ l, closeComment t = some l := by
  induction t with
  | nil => simp at h
  | cons c t ih =>
      by_cases ends : ['*', '/'] <+: c :: t
      · obtain ⟨rest, same⟩ := ends
        exact ⟨⟨['*', '/'], rest⟩, by rw [← same]; rfl⟩
      · obtain ⟨l, found⟩ := ih ((List.infix_cons_iff.1 h).resolve_left ends)
        exact ⟨l.extend [c], by rw [closeComment_cons ends, found]; rfl⟩

def Text.comment (body : Text) : Text := '/' :: '*' :: (body ++ ['*', '/'])

theorem Text.comment_append (body post : Text) :
    Text.comment body ++ post = '/' :: '*' :: body ++ '*' :: '/' :: post := by
  simp [Text.comment]

/-- Without an end in it, a text is held by its comment to the end of the comment. -/
theorem comment?_comment {body : Text} (bare : ¬['*', '/'] <:+: body) (post : Text) :
    comment? (Text.comment body ++ post) = some ⟨Text.comment body, post⟩ := by
  have inner : closeComment (body ++ '*' :: '/' :: post) =
      (closeComment ('*' :: '/' :: post)).map (Cut.extend body) :=
    Cut.passes fun c back within =>
      closeComment_cons (bare_append (fun inside => bare (inside.trans within.isInfix)) (by simp))
  rw [Text.comment_append]
  show (closeComment (body ++ '*' :: '/' :: post)).map _ = _
  rw [inner]
  rfl

theorem of_closeComment {t : Text} {c : Cut} (h : closeComment t = some c) :
    ∃ body, c.taken = body ++ ['*', '/'] ∧ ¬['*', '/'] <:+: body := by
  fun_induction closeComment t generalizing c with
  | case1 => simp at h
  | case2 rest =>
      obtain rfl := Option.some.inj h
      exact ⟨[], rfl, by simp⟩
  | case3 d rest other ih =>
      obtain ⟨e, he, rfl⟩ := Option.map_eq_some_iff.1 h
      obtain ⟨body, taken, bare⟩ := ih he
      refine ⟨d :: body, by rw [Cut.taken_extend, taken]; rfl, ?_⟩
      rw [List.infix_cons_iff, not_or]
      refine ⟨?_, bare⟩
      rintro ⟨back, same⟩
      obtain ⟨rfl, rfl⟩ := List.cons.inj same
      have whole : e.taken ++ e.rest = rest := whole_of_closeComment he
      rw [taken] at whole
      exact other _ rfl whole.symm

theorem comment?_eq_some_iff {t : Text} {c : Cut} :
    comment? t = some c ↔
      (∃ body, ¬['*', '/'] <:+: body ∧ c.taken = Text.comment body) ∧ c.whole = t := by
  constructor
  · intro h
    refine ⟨?_, whole_of_comment? h⟩
    obtain ⟨rest, e, rfl, he, rfl⟩ := of_comment? h
    obtain ⟨body, taken, bare⟩ := of_closeComment he
    exact ⟨body, bare, by rw [Cut.taken_extend, taken]; rfl⟩
  · obtain ⟨taken, rest⟩ := c
    rintro ⟨⟨body, bare, rfl⟩, rfl⟩
    exact comment?_comment bare rest

theorem last_of_literal? {t : Text} {c : Cut} (h : literal? t = some c) :
    ∃ last, c.taken.getLast? = some last ∧ isBlank last = false := by
  rcases Option.or_eq_some_iff.1 h with hq | ⟨-, hc⟩
  · obtain ⟨quote, rest, e, rfl, mark, he, rfl⟩ := of_quoted? hq
    refine ⟨quote, ?_, ?_⟩
    · rw [Cut.taken_extend, List.getLast?_append, last_of_closeQuote he, Option.some_or]
    · have marks : quote = '"' ∨ quote = '\'' := by simpa [isQuote] using mark
      rcases marks with rfl | rfl <;> decide
  · obtain ⟨rest, e, rfl, he, rfl⟩ := of_comment? hc
    refine ⟨'/', ?_, by decide⟩
    rw [Cut.taken_extend, List.getLast?_append, last_of_closeComment he, Option.some_or]

end CustomProperties
