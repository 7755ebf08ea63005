import CustomProperties.Proofs.Value.Depth

/-!
The grammar of arguments. A word is a row of items: complete strings, complete comments, words
between parentheses, and all other characters one by one. The reader of a call counts parentheses
and knows no grammar, yet what it takes up to the parenthesis that closes the call is a word, and
every word with such a parenthesis behind it is taken. A word divides at the first comma that is
an item of its own.
-/

namespace CustomProperties

/-- What may stand between two quotes: no other such quote, unless a backslash takes it along. -/
inductive Quotable (quote : Char) : Text → Prop
  | nil : Quotable quote []
  | escape {t : Text} (c : Char) : Quotable quote t → Quotable quote ('\\' :: c :: t)
  | char {c : Char} {t : Text} : c ≠ quote → c ≠ '\\' → Quotable quote t → Quotable quote (c :: t)

def Text.IsString (t : Text) : Prop :=
  ∃ quote body, isQuote quote ∧ Quotable quote body ∧ t = quote :: (body ++ [quote])

def Text.IsComment (t : Text) : Prop := ∃ body, ¬['*', '/'] <:+: body ∧ t = Text.comment body

/-- The items of a word. -/
inductive Word : List Text → Prop
  | nil : Word []
  | string {s : Text} {items : List Text} : s.IsString → Word items → Word (s :: items)
  | comment {s : Text} {items : List Text} : s.IsComment → Word items → Word (s :: items)
  | group {inner items : List Text} :
      Word inner → Word items → Word (('(' :: (inner.flatten ++ [')'])) :: items)
  | char {c : Char} {items : List Text} :
      isQuote c = false → c ≠ '(' → c ≠ ')' → ¬(c = '/' ∧ items.flatten.head? = some '*') →
      Word items → Word ([c] :: items)

def Text.IsWord (t : Text) : Prop := ∃ items, Word items ∧ items.flatten = t

section Literals

variable {quote : Char} {t : Text} {l : Cut}

theorem closeQuote_eq_some_iff (straight : quote ≠ '\\') :
    closeQuote quote t = some l ↔
      (∃ body, Quotable quote body ∧ l.taken = body ++ [quote]) ∧ l.whole = t := by
  constructor
  · intro h
    refine ⟨?_, whole_of_closeQuote h⟩
    fun_induction closeQuote quote t generalizing l with
    | case1 => simp at h
    | case2 c rest ih =>
        obtain ⟨e, he, rfl⟩ := Option.map_eq_some_iff.1 h
        obtain ⟨body, quotable, taken⟩ := ih he
        exact ⟨'\\' :: c :: body, .escape c quotable, by rw [Cut.taken_extend, taken]; rfl⟩
    | case3 rest plain =>
        obtain rfl := Option.some.inj h
        exact ⟨[], .nil, rfl⟩
    | case4 c rest plain other ih =>
        obtain ⟨e, he, rfl⟩ := Option.map_eq_some_iff.1 h
        obtain ⟨body, quotable, taken⟩ := ih he
        have slash : c ≠ '\\' := by
          rintro rfl
          cases rest with
          | nil => simp [closeQuote] at he
          | cons d rest => exact plain d rest rfl rfl
        exact ⟨c :: body, .char other slash quotable, by rw [Cut.taken_extend, taken]; rfl⟩
  · obtain ⟨taken, rest⟩ := l
    rintro ⟨⟨body, quotable, rfl⟩, rfl⟩
    rw [Cut.whole_mk, List.append_assoc, List.singleton_append]
    induction quotable with
    | nil => rw [List.nil_append, closeQuote_cons straight, if_pos rfl]; rfl
    | escape c _ ih => simp [closeQuote, ih, Cut.extend]
    | char other slash _ ih =>
        rw [List.cons_append, closeQuote_cons slash, if_neg other, ih]
        rfl

theorem quoted?_eq_some_iff : quoted? t = some l ↔ l.taken.IsString ∧ l.whole = t := by
  constructor
  · intro h
    refine ⟨?_, whole_of_quoted? h⟩
    obtain ⟨quote, rest, e, rfl, mark, he, rfl⟩ := of_quoted? h
    obtain ⟨⟨body, quotable, taken⟩, -⟩ := (closeQuote_eq_some_iff (straight_of_isQuote mark)).1 he
    exact ⟨quote, body, mark, quotable, by rw [Cut.taken_extend, taken]; rfl⟩
  · obtain ⟨taken, rest⟩ := l
    rintro ⟨⟨quote, body, mark, quotable, rfl⟩, rfl⟩
    have closes : closeQuote quote (body ++ [quote] ++ rest) = some ⟨body ++ [quote], rest⟩ :=
      (closeQuote_eq_some_iff (straight_of_isQuote mark)).2 ⟨⟨body, quotable, rfl⟩, rfl⟩
    show (if isQuote quote then (closeQuote quote (body ++ [quote] ++ rest)).map _ else none) = _
    rw [if_pos mark, closes]
    rfl

theorem literal?_eq_some_iff :
    literal? t = some l ↔ (l.taken.IsString ∨ l.taken.IsComment) ∧ l.whole = t := by
  rw [literal?, Option.or_eq_some_iff, quoted?_eq_some_iff, comment?_eq_some_iff]
  constructor
  · rintro (⟨string, whole⟩ | ⟨-, comment, whole⟩)
    · exact ⟨.inl string, whole⟩
    · exact ⟨.inr comment, whole⟩
  · rintro ⟨string | ⟨body, bare, taken⟩, whole⟩
    · exact .inl ⟨string, whole⟩
    · refine .inr ⟨?_, ⟨body, bare, taken⟩, whole⟩
      rw [← whole, Cut.whole, taken]
      exact quoted?_cons (by decide) _

end Literals

namespace Word

variable {depth : Nat} {items : List Text} {t u : Text}

theorem literal_cons {s : Text} (h : s.IsString ∨ s.IsComment) (items : List Text) (u : Text) :
    literal? ((s :: items).flatten ++ u) = some ⟨s, items.flatten ++ u⟩ :=
  literal?_eq_some_iff.2 ⟨h, by simp⟩

theorem startsLiteral_char {c : Char} (quote : isQuote c = false)
    (comment : ¬(c = '/' ∧ items.flatten.head? = some '*')) :
    startsLiteral (c :: items.flatten) = false := by
  simpa [startsLiteral_cons, quote] using comment

theorem depthAfter_flatten_append (h : Word items) (sep : u.head? ≠ some '*') :
    depthAfter depth (items.flatten ++ u) = depthAfter depth u := by
  induction h generalizing depth u with
  | nil => rfl
  | string s _ ih => rw [depthAfter_literal (literal_cons (.inl s) _ u), ih sep]
  | comment s _ ih => rw [depthAfter_literal (literal_cons (.inr s) _ u), ih sep]
  | @group inner items _ _ ih_inner ih =>
      have text : (('(' :: (inner.flatten ++ [')'])) :: items).flatten ++ u =
          '(' :: (inner.flatten ++ ')' :: (items.flatten ++ u)) := by simp
      have opening :
          startsLiteral ('(' :: (inner.flatten ++ ')' :: (items.flatten ++ u))) = false := by
        simp [startsLiteral_cons, isQuote]
      have closing : startsLiteral (')' :: (items.flatten ++ u)) = false := by
        simp [startsLiteral_cons, isQuote]
      rw [text, depthAfter_cons opening, if_neg (by simp), ih_inner (by simp),
        depthAfter_cons closing, if_neg (by simp [depthBehind]), ih sep]
      simp [depthBehind]
  | @char c items quote opening closing comment _ ih =>
      have plain := startsLiteral_append (startsLiteral_char quote comment) sep
      have text : ([c] :: items).flatten ++ u = c :: (items.flatten ++ u) := by simp
      have same : depthBehind depth c = depth := by simp [depthBehind, opening, closing]
      rw [text, depthAfter_cons plain, if_neg (by simp [closing]), same, ih sep]

theorem depthAfter_flatten (h : Word items) : depthAfter depth items.flatten = some depth := by
  have alone : depthAfter depth (items.flatten ++ []) = _ :=
    h.depthAfter_flatten_append (by simp)
  rwa [List.append_nil, depthAfter_nil] at alone

end Word

/-- What a text is that leads out of all its parentheses: a word, up to the end or up to the first
parenthesis that closes one opened before. -/
theorem exists_word {depth : Nat} {t : Text} (h : depthAfter depth t = some 0) :
    ∃ items, Word items ∧ (depth = 0 ∧ t = items.flatten ∨
      ∃ outer rest, depth = outer + 1 ∧ t = items.flatten ++ ')' :: rest ∧
        depthAfter outer rest = some 0) := by
  induction n : t.length using Nat.strong_induction_on generalizing depth t with
  | _ n ih =>
      subst n
      cases t with
      | nil =>
          rw [depthAfter_nil] at h
          exact ⟨[], .nil, .inl ⟨Option.some.inj h, rfl⟩⟩
      | cons c rest =>
          cases hl : literal? (c :: rest) with
          | some l =>
              rw [depthAfter_literal hl] at h
              obtain ⟨items, word, ends⟩ := ih _ (rest_of_literal? hl) h rfl
              obtain ⟨literal, whole⟩ := literal?_eq_some_iff.1 hl
              refine ⟨l.taken :: items, literal.elim (.string · word) (.comment · word), ?_⟩
              rw [← whole, Cut.whole]
              refine ends.imp ?_ ?_
              · rintro ⟨zero, text⟩
                exact ⟨zero, by rw [text]; rfl⟩
              · rintro ⟨outer, rest, above, text, later⟩
                exact ⟨outer, rest, above, by rw [text]; simp, later⟩
          | none =>
              obtain ⟨plain, inside, later⟩ := of_depthAfter_cons hl h
              by_cases opening : c = '('
              · subst opening
                -- The parentheses hold a word, and another one begins behind them.
                obtain ⟨inner, inner_word, ⟨zero, -⟩ | ⟨outer, behind, above, rfl, later'⟩⟩ :=
                  ih _ (Nat.lt_succ_self _) later rfl
                · simp [depthBehind] at zero
                obtain rfl : depth = outer := by simpa [depthBehind] using above
                have shorter :
                    behind.length < ('(' :: (inner.flatten ++ ')' :: behind)).length := by
                  simp only [List.length_cons, List.length_append]
                  omega
                obtain ⟨items, word, ends⟩ := ih _ shorter later' rfl
                refine ⟨_, .group inner_word word, ends.imp ?_ ?_⟩
                · rintro ⟨zero, rfl⟩
                  exact ⟨zero, by simp⟩
                · rintro ⟨outer, rest, above, rfl, last⟩
                  exact ⟨outer, rest, above, by simp, last⟩
              · by_cases closing : c = ')'
                · subst closing
                  obtain ⟨outer, rfl⟩ :=
                    Nat.exists_eq_succ_of_ne_zero fun zero => inside ⟨rfl, zero⟩
                  exact ⟨[], .nil, .inr ⟨outer, rest, rfl, rfl, by simpa [depthBehind] using later⟩⟩
                · have same : depthBehind depth c = depth := by simp [depthBehind, opening, closing]
                  rw [same] at later
                  obtain ⟨items, word, ends⟩ := ih _ (Nat.lt_succ_self _) later rfl
                  have plain' : startsLiteral (c :: items.flatten) = false := by
                    rcases ends with ⟨-, rfl⟩ | ⟨outer, rest, -, rfl, -⟩
                    · exact plain
                    · exact startsLiteral_of_append plain
                  rw [startsLiteral_cons, Bool.or_eq_false_iff] at plain'
                  refine ⟨[c] :: items, .char plain'.1 opening closing ?_ word, ends.imp ?_ ?_⟩
                  · simpa using plain'.2
                  · rintro ⟨zero, rfl⟩
                    exact ⟨zero, rfl⟩
                  · rintro ⟨outer, rest, above, rfl, last⟩
                    exact ⟨outer, rest, above, rfl, last⟩

/-- The closed texts are the words. -/
theorem closed_iff_isWord {t : Text} : t.Closed ↔ t.IsWord := by
  constructor
  · intro closed
    obtain ⟨items, word, ⟨-, rfl⟩ | ⟨outer, rest, above, -⟩⟩ := exists_word closed
    · exact ⟨items, word, rfl⟩
    · simp at above
  · rintro ⟨items, word, rfl⟩
    exact word.depthAfter_flatten

theorem closeCall_eq_some_iff {t inner rest : Text} :
    closeCall 0 t = some ⟨inner, rest⟩ ↔ t = inner ++ ')' :: rest ∧ inner.Closed := by
  constructor
  · intro h
    exact ⟨(of_closeCall h).symm, depthAfter_of_closeCall h⟩
  · rintro ⟨rfl, closed⟩
    rw [closeCall_append closed (by simp), closeCall_close]
    simp [Cut.extend]

theorem splitArgument_within {depth e : Nat} {t : Text} (h : depthAfter depth t = some e) :
    (splitArgument (depth + 1) t).2 = none := by
  fun_induction depthAfter depth t with
  | case1 => rw [splitArgument]
  | case2 depth c rest inner hi ih =>
      rw [splitArgument_literal hi]
      exact ih h
  | case3 => simp at h
  | case4 => simp at h
  | case5 depth c rest hl plain inside ih =>
      have above : depthBehind (depth + 1) c = depthBehind depth c + 1 := by
        unfold depthBehind
        grind
      rw [splitArgument_cons (by simpa using plain) (by simp), above]
      exact ih h

theorem Word.splitArgument_flatten {items : List Text} (h : Word items) :
    splitArgument 0 items.flatten =
      ((items.takeWhile (· ≠ [','])).flatten,
        (items.dropWhile (· ≠ [','])).tail?.map List.flatten) := by
  have literal {s : Text} {items : List Text} (hs : s.IsString ∨ s.IsComment)
      (ih : splitArgument 0 items.flatten =
        ((items.takeWhile (· ≠ [','])).flatten,
          (items.dropWhile (· ≠ [','])).tail?.map List.flatten)) :
      splitArgument 0 (s :: items).flatten =
        (((s :: items).takeWhile (· ≠ [','])).flatten,
          ((s :: items).dropWhile (· ≠ [','])).tail?.map List.flatten) := by
    have other : s ≠ [','] := by
      rintro rfl
      rcases hs with ⟨quote, body, -, -, text⟩ | ⟨body, -, text⟩
      · simpa using congrArg List.length text
      · simp [Text.comment] at text
    have read := literal_cons hs items []
    rw [List.append_nil, List.append_nil] at read
    rw [splitArgument_literal read, ih]
    simp [other]
  induction h with
  | nil => rw [List.flatten_nil, splitArgument]; rfl
  | string s _ ih => exact literal (.inl s) ih
  | comment s _ ih => exact literal (.inr s) ih
  | @group inner items word _ _ ih =>
      have text : (('(' :: (inner.flatten ++ [')'])) :: items).flatten =
          '(' :: (inner.flatten ++ ')' :: items.flatten) := by simp
      have opening : startsLiteral ('(' :: (inner.flatten ++ ')' :: items.flatten)) = false := by
        simp [startsLiteral_cons, isQuote]
      have closing : startsLiteral (')' :: items.flatten) = false := by
        simp [startsLiteral_cons, isQuote]
      have other : '(' :: (inner.flatten ++ [')']) ≠ [','] := by simp
      have undivided : (splitArgument 1 inner.flatten).2 = none :=
        splitArgument_within word.depthAfter_flatten
      have inside : splitArgument 1 (inner.flatten ++ ')' :: items.flatten) =
          (inner.flatten ++ ')' :: (splitArgument 0 items.flatten).1,
            (splitArgument 0 items.flatten).2) := by
        rw [splitArgument_append word.depthAfter_flatten (by simp), undivided,
          splitArgument_cons closing (by simp)]
        simp [depthBehind]
      rw [text, splitArgument_cons opening (by simp)]
      simp only [depthBehind, if_true, Nat.zero_add, inside, ih]
      simp [other]
  | @char c items quote opening closing comment _ ih =>
      have plain := startsLiteral_char quote comment
      have same : depthBehind 0 c = 0 := by simp [depthBehind, opening, closing]
      by_cases comma : c = ','
      · subst comma
        show splitArgument 0 (',' :: items.flatten) = _
        rw [splitArgument_comma]
        simp
      · show splitArgument 0 (c :: items.flatten) = _
        rw [splitArgument_cons plain (by simp [comma]), same, ih]
        simp [comma]

/-- Reading a call is the grammar. What stands behind the opening parenthesis of a call is taken
up to a closing parenthesis exactly if a word stands between the two; there is at most one such
parenthesis; the argument divides at the first comma that is an item of the word, however the word
is derived; and nothing is taken exactly if no word has a parenthesis behind it. -/
theorem closeCall_grammar (t : Text) :
    (∀ inner rest, closeCall 0 t = some ⟨inner, rest⟩ ↔ t = inner ++ ')' :: rest ∧ inner.IsWord) ∧
    (∀ inner rest inner' rest', t = inner ++ ')' :: rest → inner.IsWord →
      t = inner' ++ ')' :: rest' → inner'.IsWord → inner = inner') ∧
    (∀ inner rest items, closeCall 0 t = some ⟨inner, rest⟩ → Word items → items.flatten = inner →
      splitArgument 0 inner =
        ((items.takeWhile (· ≠ [','])).flatten,
          (items.dropWhile (· ≠ [','])).tail?.map List.flatten)) ∧
    (closeCall 0 t = none ↔ ∀ inner rest, t = inner ++ ')' :: rest → ¬inner.IsWord) := by
  have taken (inner rest : Text) :
      closeCall 0 t = some ⟨inner, rest⟩ ↔ t = inner ++ ')' :: rest ∧ inner.IsWord := by
    rw [closeCall_eq_some_iff, closed_iff_isWord]
  refine ⟨taken, ?_, ?_, ?_⟩
  · intro inner rest inner' rest' text word text' word'
    have first := (taken inner rest).2 ⟨text, word⟩
    have second := (taken inner' rest').2 ⟨text', word'⟩
    exact congrArg Cut.taken (Option.some.inj (first.symm.trans second))
  · rintro inner rest items - word rfl
    exact word.splitArgument_flatten
  · constructor
    · intro missed inner rest text word
      rw [(taken inner rest).2 ⟨text, word⟩] at missed
      simp at missed
    · intro none_there
      cases found : closeCall 0 t with
      | none => rfl
      | some call =>
          obtain ⟨text, word⟩ := (taken call.taken call.rest).1 found
          exact absurd word (none_there _ _ text)

/-- Commas and parentheses in inner parentheses, in a string and in a comment do not count. -/
theorem closeCall_grammar_nested :
    let t : Text := "f(1,')')/*,)*/,\\ y) z".toList
    let items := [['f'], "(1,')')".toList, "/*,)*/".toList, [','], ['\\'], [' '], ['y']]
    closeCall 0 t = some ⟨items.flatten, " z".toList⟩ ∧ Word items ∧
      splitArgument 0 items.flatten = ("f(1,')')/*,)*/".toList, some "\\ y".toList) ∧
      ∀ inner rest, t = inner ++ ')' :: rest → Text.IsWord inner → inner = items.flatten := by
  intro t items
  have inner : Word [['1'], [','], "')'".toList] :=
    .char (by decide) (by decide) (by decide) (by decide) <|
      .char (by decide) (by decide) (by decide) (by decide) <|
        .string ⟨'\'', [')'], by decide, .char (by decide) (by decide) .nil, rfl⟩ .nil
  have behind : Word [[','], ['\\'], [' '], ['y']] :=
    .char (by decide) (by decide) (by decide) (by decide) <|
      .char (by decide) (by decide) (by decide) (by decide) <|
        .char (by decide) (by decide) (by decide) (by decide) <|
          .char (by decide) (by decide) (by decide) (by decide) .nil
  have word : Word items :=
    .char (by decide) (by decide) (by decide) (by decide) <|
      .group inner (.comment ⟨[',', ')'], by decide, rfl⟩ behind)
  obtain ⟨taken, unique, divided, -⟩ := closeCall_grammar t
  have found : closeCall 0 t = some ⟨items.flatten, " z".toList⟩ :=
    (taken _ _).2 ⟨by decide, items, word, rfl⟩
  refine ⟨found, word, (divided _ _ items found word rfl).trans (by decide), ?_⟩
  exact fun inner rest text inner_word =>
    unique inner rest _ _ text inner_word ((taken _ _).1 found).1 ⟨items, word, rfl⟩

end CustomProperties
