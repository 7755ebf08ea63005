import CustomProperties.Proofs.Text.Blank
import CustomProperties.Proofs.Text.Literal
import CustomProperties.Sheet.Lexeme

/-!
What the recognisers of tokens depend on. White space, property names, preludes and marks are read
again whatever comes behind, as long as the character behind them stays the same.
-/

namespace CustomProperties

section Layout

variable {t u : Text} {c : Char}

theorem blank_of_layout {c : Char} (h : isLayout c) : isBlank c := by
  simp only [isLayout, Bool.or_eq_true, beq_iff_eq] at h
  rcases h with (((rfl | rfl) | rfl) | rfl) | rfl <;> decide

theorem layout_cons (h : isLayout c) (t : Text) : layout (c :: t) = (layout t).extend [c] := by
  rw [layout, if_pos h]

theorem layout_comment {comment : Cut} (plain : isLayout '/' = false)
    (h : comment? t = some comment) : layout t = (layout comment.rest).extend comment.taken := by
  obtain ⟨rest, e, rfl, -, -⟩ := of_comment? h
  rw [layout, if_neg (by simp [plain])]
  split
  · rename_i other found
    rw [Option.some.inj (found.symm.trans h)]
  · rename_i missed
    simp [h] at missed

theorem layout_stop (plain : isLayout c = false) (h : comment? (c :: t) = none) :
    layout (c :: t) = ⟨[], c :: t⟩ := by
  rw [layout, if_neg (by simp [plain])]
  split
  · rename_i found
    simp [h] at found
  · rfl

/-- White space is read again before another text that starts with the same character. -/
theorem layout_append (t u : Text) (stops : ∀ c, u.head? = some c → isLayout c = false ∧ c ≠ '/') :
    layout ((layout t).taken ++ u) = ⟨(layout t).taken, u⟩ := by
  have bare : layout u = ⟨[], u⟩ := by
    cases u with
    | nil => rw [layout]
    | cons c u =>
        obtain ⟨plain, slash⟩ := stops c rfl
        exact layout_stop plain (comment?_cons slash u)
  fun_induction layout t with
  | case1 => exact bare
  | case2 c rest space ih =>
      rw [Cut.taken_extend, List.append_assoc, List.singleton_append, layout_cons space, ih]
      rfl
  | case3 c rest _ comment h ih =>
      rw [Cut.taken_extend, List.append_assoc, layout_comment (by decide) (comment?_append h _), ih]
      rfl
  | case4 => exact bare

theorem layout_blanks {blanks : Text} (h : ∀ b ∈ blanks, isBlank b) (t : Text) :
    ∃ front back, blanks = front ++ back ∧
      layout (blanks ++ ':' :: t) = ⟨front, back ++ ':' :: t⟩ := by
  induction blanks with
  | nil => exact ⟨[], [], rfl, layout_stop (by decide) (comment?_cons (by decide) t)⟩
  | cons b blanks ih =>
      obtain ⟨blank, later⟩ := List.forall_mem_cons.1 h
      cases space : isLayout b with
      | true =>
          obtain ⟨front, back, rfl, read⟩ := ih later
          refine ⟨b :: front, back, rfl, ?_⟩
          rw [List.cons_append, layout_cons space, read]
          rfl
      | false =>
          have slash : b ≠ '/' := by
            rintro rfl
            simp [isBlank] at blank
          exact ⟨[], b :: blanks, rfl, layout_stop space (comment?_cons slash _)⟩

/-- White space that holds blanks only holds no comment. -/
theorem layout_of_blank (t : Text) (blank : ∀ b ∈ (layout t).taken, isBlank b) :
    ∀ b ∈ (layout t).taken, isLayout b := by
  fun_induction layout t with
  | case1 => simp
  | case2 c rest space ih =>
      obtain ⟨-, later⟩ := List.forall_mem_cons.1 blank
      exact List.forall_mem_cons.2 ⟨space, ih later⟩
  | case3 c rest _ comment found _ =>
      obtain ⟨inside, e, -, -, rfl⟩ := of_comment? found
      have slash := blank '/' (by simp)
      simp [isBlank] at slash
  | case4 => simp

end Layout

theorem mark?_eq_some_iff {mark : Char} {t : Text} {cut : Cut} :
    mark? mark t = some cut ↔ cut.taken = [mark] ∧ t = mark :: cut.rest := by
  cases t with
  | nil => simp [mark?]
  | cons c t =>
      obtain ⟨taken, rest⟩ := cut
      by_cases same : c = mark
      · subst same
        simp [mark?, eq_comm]
      · simp [mark?, same]

section Group

variable {t u : Text} {c : Char} {l : Cut}

theorem closeGroup_quoted (h : quoted? t = some l) :
    closeGroup t = (closeGroup l.rest).map (Cut.extend l.taken) := by
  obtain ⟨quote, rest, e, rfl, mark, -⟩ := of_quoted? h
  have other : quote ≠ ')' := by
    rintro rfl
    simp [isQuote] at mark
  rw [closeGroup, if_neg other]
  split
  · rename_i string found
    rw [Option.some.inj (found.symm.trans h)]
  · rename_i missed
    simp [h] at missed

theorem closeGroup_close (t : Text) : closeGroup (')' :: t) = some ⟨[')'], t⟩ := by
  rw [closeGroup, if_pos rfl]

theorem closeGroup_open (t : Text) : closeGroup ('(' :: t) = none := by
  rw [closeGroup, if_neg (by decide)]
  split
  · rename_i string found
    simp [quoted?_cons (show isQuote '(' = false by decide)] at found
  · simp

theorem closeGroup_cons (quote : isQuote c = false) (opening : c ≠ '(') (closing : c ≠ ')')
    (t : Text) : closeGroup (c :: t) = (closeGroup t).map (Cut.extend [c]) := by
  rw [closeGroup, if_neg closing]
  split
  · rename_i string found
    simp [quoted?_cons quote] at found
  · rw [if_neg (by simp [quote, opening])]

theorem group?_cons (h : c ≠ '(') (t : Text) : group? (c :: t) = none := by
  unfold group?
  split
  · rename_i same
    exact absurd (List.cons.inj same).1 h
  · rfl

theorem closeGroup_append (h : closeGroup t = some l) (u : Text) :
    closeGroup (l.taken ++ u) = some ⟨l.taken, u⟩ := by
  fun_induction closeGroup t generalizing l with
  | case1 => simp at h
  | case2 rest =>
      obtain rfl := Option.some.inj h
      exact closeGroup_close u
  | case3 d rest closing string hs ih =>
      obtain ⟨e, he, rfl⟩ := Option.map_eq_some_iff.1 h
      rw [Cut.taken_extend, List.append_assoc, closeGroup_quoted (quoted?_append hs _), ih he]
      rfl
  | case4 => simp at h
  | case5 d rest closing _ plain ih =>
      obtain ⟨e, he, rfl⟩ := Option.map_eq_some_iff.1 h
      simp only [Bool.or_eq_true, decide_eq_true_eq, not_or, Bool.not_eq_true] at plain
      rw [Cut.taken_extend, List.append_assoc, List.singleton_append,
        closeGroup_cons plain.2 plain.1 closing, ih he]
      rfl

theorem stringOrGroup?_append (h : stringOrGroup? t = some l) (u : Text) :
    stringOrGroup? (l.taken ++ u) = some ⟨l.taken, u⟩ := by
  rcases Option.or_eq_some_iff.1 h with string | ⟨none_there, group⟩
  · rw [stringOrGroup?, quoted?_append string, Option.some_or]
  · unfold group? at group
    split at group
    · obtain ⟨e, he, rfl⟩ := Option.map_eq_some_iff.1 group
      have string : quoted? ((e.extend ['(']).taken ++ u) = none := quoted?_cons (by decide) _
      rw [stringOrGroup?, string, Option.none_or]
      show (closeGroup (e.taken ++ u)).map _ = _
      rw [closeGroup_append he]
      rfl
    · simp at group

theorem last_of_closeGroup (h : closeGroup t = some l) : l.taken.getLast? = some ')' := by
  fun_induction closeGroup t generalizing l with
  | case1 => simp at h
  | case2 rest =>
      obtain rfl := Option.some.inj h
      rfl
  | case3 d rest _ string hs ih =>
      obtain ⟨e, he, rfl⟩ := Option.map_eq_some_iff.1 h
      rw [Cut.taken_extend, List.getLast?_append, ih he, Option.some_or]
  | case4 => simp at h
  | case5 d rest _ _ _ ih =>
      obtain ⟨e, he, rfl⟩ := Option.map_eq_some_iff.1 h
      rw [Cut.taken_extend, List.getLast?_append, ih he, Option.some_or]

theorem last_of_enclosed? (h : enclosed? t = some l) :
    ∃ last, l.taken.getLast? = some last ∧ isBlank last = false := by
  rcases Option.or_eq_some_iff.1 h with inner | ⟨-, comment⟩
  · rcases Option.or_eq_some_iff.1 inner with string | ⟨-, group⟩
    · exact last_of_literal? (Option.or_eq_some_iff.2 (.inl string))
    · unfold group? at group
      split at group
      · obtain ⟨e, he, rfl⟩ := Option.map_eq_some_iff.1 group
        refine ⟨')', ?_, by decide⟩
        rw [Cut.taken_extend, List.getLast?_append, last_of_closeGroup he, Option.some_or]
      · simp at group
  · obtain ⟨rest, -, rfl, -⟩ := of_comment? comment
    have literal : literal? ('/' :: '*' :: rest) = some l :=
      Option.or_eq_some_iff.2 (.inr ⟨quoted?_cons (by decide) _, comment⟩)
    exact last_of_literal? literal

end Group

section Prelude

variable {t u : Text} {c : Char} {l : Cut}

theorem preludeTail_quoted (h : quoted? t = some l) :
    preludeTail t = (preludeTail l.rest).map (Cut.extend l.taken) := by
  obtain ⟨quote, rest, e, rfl, mark, -⟩ := of_quoted? h
  have other : quote ≠ '\x7b' := by
    rintro rfl
    simp [isQuote] at mark
  rw [preludeTail, if_neg other]
  split
  · rename_i string found
    rw [Option.some.inj (found.symm.trans h)]
  · rename_i missed
    simp [h] at missed

theorem preludeTail_cons (quote : isQuote c = false) (brace : isBrace c = false) (t : Text) :
    preludeTail (c :: t) =
      if c = ';' then none else (preludeTail t).map (Cut.extend [c]) := by
  have opening : c ≠ '\x7b' := by
    rintro rfl
    simp [isBrace] at brace
  rw [preludeTail, if_neg opening]
  split
  · rename_i string found
    simp [quoted?_cons quote] at found
  · simp [endsValue, quote, brace]

theorem preludeTail_stop (quote : isQuote c = false) (opening : c ≠ '\x7b') (ends : endsValue c) :
    preludeTail (c :: t) = none := by
  rw [preludeTail, if_neg opening]
  split
  · rename_i string found
    simp [quoted?_cons quote] at found
  · rw [if_pos ends]

/-- A prelude is read again before every brace. -/
theorem preludeTail_append (h : preludeTail t = some l) :
    (∃ behind, l.rest = '\x7b' :: behind) ∧
      ∀ u, preludeTail (l.taken ++ '\x7b' :: u) = some ⟨l.taken, '\x7b' :: u⟩ := by
  fun_induction preludeTail t generalizing l with
  | case1 => simp at h
  | case2 rest =>
      obtain rfl := Option.some.inj h
      exact ⟨⟨rest, rfl⟩, fun u => by rw [List.nil_append, preludeTail, if_pos rfl]⟩
  | case3 d rest opening string hs ih =>
      obtain ⟨e, he, rfl⟩ := Option.map_eq_some_iff.1 h
      obtain ⟨brace, again⟩ := ih he
      refine ⟨brace, fun u => ?_⟩
      rw [Cut.taken_extend, List.append_assoc, preludeTail_quoted (quoted?_append hs _), again]
      rfl
  | case4 => simp at h
  | case5 d rest opening _ plain ih =>
      obtain ⟨e, he, rfl⟩ := Option.map_eq_some_iff.1 h
      obtain ⟨brace, again⟩ := ih he
      refine ⟨brace, fun u => ?_⟩
      simp only [endsValue, Bool.or_eq_true, beq_iff_eq, not_or, Bool.not_eq_true] at plain
      rw [Cut.taken_extend, List.append_assoc, List.singleton_append,
        preludeTail_cons plain.2 plain.1.2, if_neg plain.1.1, again]
      rfl

theorem of_prelude? {t : Text} {cut : Cut} (h : prelude? t = some cut) : ∃ c rest,
    cut.taken = c :: rest ∧ isBlank c = false ∧ endsValue c = false ∧ c ≠ '/' := by
  unfold prelude? at h
  split at h
  · simp at h
  · split at h
    · simp at h
    · rename_i c rest first
      obtain ⟨e, -, rfl⟩ := Option.map_eq_some_iff.1 h
      simp only [Bool.or_eq_true, decide_eq_true_eq, not_or, Bool.not_eq_true] at first
      exact ⟨c, e.taken, rfl, first.1.1, first.1.2, first.2⟩

theorem prelude?_append {x r r' : Text} (h : prelude? (x ++ r) = some ⟨x, r⟩)
    (head : r'.head? = r.head?) : prelude? (x ++ r') = some ⟨x, r'⟩ ∧ ∃ behind, r' = '\x7b' :: behind := by
  cases x with
  | nil => exact absurd rfl (taken_of_prelude? h)
  | cons c x =>
      rw [List.cons_append, prelude?] at h
      split at h
      · simp at h
      · rename_i first
        obtain ⟨e, he, same⟩ := Option.map_eq_some_iff.1 h
        obtain ⟨taken, rest⟩ := e
        obtain ⟨rfl, rfl⟩ : taken = x ∧ rest = r := by simpa [Cut.extend] using same
        obtain ⟨⟨behind, rfl⟩, again⟩ := preludeTail_append he
        obtain ⟨behind', rfl⟩ := List.head?_eq_some_iff.1 head
        refine ⟨?_, behind', rfl⟩
        rw [List.cons_append, prelude?, if_neg first, again]
        rfl

end Prelude

section Statement

variable {t u : Text} {c : Char} {l : Cut}

theorem stringOrGroup?_cons (quote : isQuote c = false) (opening : c ≠ '(') (t : Text) :
    stringOrGroup? (c :: t) = none := by
  rw [stringOrGroup?, quoted?_cons quote, group?_cons opening, Option.none_or]

theorem enclosed?_of_comment? (h : comment? t = some l) : enclosed? t = some l := by
  obtain ⟨rest, -, rfl, -⟩ := of_comment? h
  rw [enclosed?, stringOrGroup?_cons (by decide) (by decide), Option.none_or, h]

theorem enclosed?_append (h : enclosed? t = some l) (u : Text) :
    enclosed? (l.taken ++ u) = some ⟨l.taken, u⟩ := by
  rcases Option.or_eq_some_iff.1 h with inner | ⟨-, comment⟩
  · rw [enclosed?, stringOrGroup?_append inner, Option.some_or]
  · exact enclosed?_of_comment? (comment?_append comment u)

theorem enclosed?_append_of_enclosed? (h : enclosed? t = some l) (u : Text) :
    enclosed? (t ++ u) = some ⟨l.taken, l.rest ++ u⟩ :=
  Cut.append_rest (whole_of_enclosed? h) (enclosed?_append h) u

theorem head_of_stringOrGroup? (h : stringOrGroup? t = some l) :
    ∃ c rest, t = c :: rest ∧ c ≠ '/' ∧ c ≠ ';' := by
  cases t with
  | nil => simp [stringOrGroup?, quoted?, group?] at h
  | cons c t =>
      refine ⟨c, t, rfl, ?_, ?_⟩
      · rintro rfl
        simp [stringOrGroup?_cons (show isQuote '/' = false by decide) (by decide)] at h
      · rintro rfl
        simp [stringOrGroup?_cons (show isQuote ';' = false by decide) (by decide)] at h

theorem statementTail_inner (h : stringOrGroup? t = some l) :
    statementTail t = (statementTail l.rest).map (Cut.extend l.taken) := by
  obtain ⟨c, t, rfl, slash, semicolon⟩ := head_of_stringOrGroup? h
  rw [statementTail, if_neg semicolon]
  · split
    · rename_i inner found
      rw [Option.some.inj (found.symm.trans h)]
    · rename_i missed
      simp [h] at missed
  · exact fun _ first => absurd first slash

theorem statementTail_cons (comment : ¬['/', '*'] <+: c :: t) (plain : stringOrGroup? (c :: t) = none)
    (semicolon : c ≠ ';') :
    statementTail (c :: t) =
      if endsValue c || c = '(' then none else (statementTail t).map (Cut.extend [c]) := by
  rw [statementTail, if_neg semicolon]
  · split
    · rename_i found
      simp [plain] at found
    · rfl
  · rintro inside rfl rfl
    exact comment ⟨inside, rfl⟩

theorem statementTail_semicolon (t : Text) : statementTail (';' :: t) = some ⟨[], ';' :: t⟩ := by
  rw [statementTail, if_pos rfl]
  exact fun _ first => by simp at first

theorem bare_append_blanks {t blanks : Text} (bare : ¬['/', '*'] <:+: t)
    (blank : ∀ b ∈ blanks, isBlank b) : ¬['/', '*'] <:+: t ++ blanks := by
  induction blanks using List.reverseRecOn with
  | nil => rwa [List.append_nil]
  | append_singleton blanks b ih =>
      rw [← List.append_assoc, List.infix_concat_iff, not_or]
      refine ⟨?_, ih fun b hb => blank b (List.mem_append_left _ hb)⟩
      rintro ⟨front, same⟩
      have last := congrArg List.getLast? same
      obtain rfl : '*' = b := by simpa [List.getLast?_append] using last
      exact absurd (blank '*' (by simp)) (by decide)

/-- How the tail of a statement without comments goes on from its first character. -/
theorem of_statementTail (h : statementTail t = some l) (bare : ¬['/', '*'] <:+: l.taken) :
    (∃ behind, t = ';' :: behind ∧ l = ⟨[], t⟩) ∨
      (∃ inner e, stringOrGroup? t = some inner ∧ statementTail inner.rest = some e ∧
        l = e.extend inner.taken) ∨
      ∃ c rest e, t = c :: rest ∧ c ≠ ';' ∧ endsValue c = false ∧ c ≠ '(' ∧
        statementTail rest = some e ∧ l = e.extend [c] := by
  cases t with
  | nil => simp [statementTail] at h
  | cons c t =>
      have comment : ¬['/', '*'] <+: c :: t := by
        rintro ⟨inside, same⟩
        rw [← same] at h
        change statementTail ('/' :: '*' :: inside) = some l at h
        rw [statementTail] at h
        obtain ⟨e, -, rfl⟩ := Option.map_eq_some_iff.1 h
        exact bare ⟨[], e.taken, rfl⟩
      by_cases semicolon : c = ';'
      · subst semicolon
        rw [statementTail_semicolon] at h
        exact .inl ⟨t, rfl, (Option.some.inj h).symm⟩
      · cases hi : stringOrGroup? (c :: t) with
        | some inner =>
            rw [statementTail_inner hi] at h
            obtain ⟨e, he, rfl⟩ := Option.map_eq_some_iff.1 h
            exact .inr (.inl ⟨inner, e, rfl, he, rfl⟩)
        | none =>
            rw [statementTail_cons comment hi semicolon] at h
            split at h
            · simp at h
            · rename_i plain
              obtain ⟨e, he, rfl⟩ := Option.map_eq_some_iff.1 h
              simp only [Bool.or_eq_true, decide_eq_true_eq, not_or, Bool.not_eq_true] at plain
              exact .inr (.inr ⟨c, t, e, rfl, semicolon, plain.1, plain.2, he, rfl⟩)

theorem statementTail_append (h : statementTail t = some l) (bare : ¬['/', '*'] <:+: l.taken) :
    (∃ behind, l.rest = ';' :: behind) ∧
      ∀ u, statementTail (l.taken ++ ';' :: u) = some ⟨l.taken, ';' :: u⟩ := by
  induction n : t.length using Nat.strong_induction_on generalizing t l with
  | _ n ih =>
      subst n
      rcases of_statementTail h bare with ⟨behind, rfl, rfl⟩ | ⟨inner, e, hi, he, rfl⟩ |
        ⟨c, rest, e, rfl, semicolon, inside, opening, he, rfl⟩
      · exact ⟨⟨behind, rfl⟩, statementTail_semicolon⟩
      · have shorter := Cut.rest_length_lt (whole_of_stringOrGroup? hi) (taken_of_stringOrGroup? hi)
        obtain ⟨ends, again⟩ := ih _ shorter he
          (fun within => bare (within.trans (List.suffix_append _ _).isInfix)) rfl
        refine ⟨ends, fun u => ?_⟩
        rw [Cut.taken_extend, List.append_assoc,
          statementTail_inner (stringOrGroup?_append hi _), again]
        rfl
      · obtain ⟨ends, again⟩ := ih _ (Nat.lt_succ_self _) he
          (fun within => bare (within.trans (List.suffix_append _ _).isInfix)) rfl
        refine ⟨ends, fun u => ?_⟩
        have comment : ¬['/', '*'] <+: c :: (e.taken ++ ';' :: u) := bare_append bare (by simp)
        have quote : isQuote c = false := (Bool.or_eq_false_iff.1 inside).2
        rw [Cut.taken_extend, List.append_assoc, List.singleton_append, statementTail_cons comment
          (stringOrGroup?_cons quote opening _) semicolon, inside, again]
        simp [opening, Cut.extend]

theorem of_statement? {t : Text} {cut : Cut} (h : statement? t = some cut) :
    ∃ text, cut.taken = '@' :: text := by
  unfold statement? at h
  split at h
  · obtain ⟨e, -, rfl⟩ := Option.map_eq_some_iff.1 h
    exact ⟨e.taken, rfl⟩
  · simp at h

theorem statement?_cons {c : Char} (h : c ≠ '@') (t : Text) : statement? (c :: t) = none := by
  cases hs : statement? (c :: t) with
  | none => rfl
  | some cut =>
      obtain ⟨text, taken⟩ := of_statement? hs
      have whole : cut.taken ++ cut.rest = c :: t := whole_of_statement? hs
      rw [taken] at whole
      exact absurd (List.cons.inj whole).1.symm h

theorem statement?_append {x r r' : Text} (h : statement? (x ++ r) = some ⟨x, r⟩)
    (bare : ¬['/', '*'] <:+: x) (head : r'.head? = r.head?) : statement? (x ++ r') = some ⟨x, r'⟩ := by
  cases x with
  | nil => exact absurd rfl (taken_of_statement? h)
  | cons c x =>
      unfold statement? at h
      split at h
      · rename_i inside same
        obtain ⟨rfl, rfl⟩ := List.cons.inj same
        obtain ⟨⟨taken, rest⟩, he, same⟩ := Option.map_eq_some_iff.1 h
        obtain ⟨rfl, rfl⟩ : taken = x ∧ rest = r := by simpa [Cut.extend] using same
        obtain ⟨⟨behind, rfl⟩, again⟩ := statementTail_append he fun within =>
          bare (within.trans (List.suffix_cons _ _).isInfix)
        obtain ⟨behind', rfl⟩ := List.head?_eq_some_iff.1 head
        show (statementTail (taken ++ ';' :: behind')).map _ = _
        rw [again]
        rfl
      · simp at h

end Statement

section Value

/-- A text ends behind a value where the value could not go on. -/
theorem endsValue_of_valueText (t : Text) :
    ∀ c, (valueText t).rest.head? = some c → endsValue c := by
  fun_induction valueText t with
  | case1 => simp
  | case2 c rest inner hi ih => exact ih
  | case3 c rest _ ends =>
      rintro d hd
      obtain rfl : c = d := Option.some.inj hd
      exact ends
  | case4 c rest _ _ ih => exact ih

theorem endsValue_of_value? {t : Text} {cut : Cut} (h : value? t = some cut) :
    ∀ c, cut.rest.head? = some c → endsValue c := by
  unfold value? at h
  split at h
  · obtain rfl := Option.some.inj h
    exact endsValue_of_valueText _
  · simp at h

theorem layout_of_endsValue {char : Char} {rest : Text} (mark : endsValue char = true) :
    layout (char :: rest) = ⟨[], char :: rest⟩ := by
  refine layout_stop ?_ (comment?_cons (fun slash => absurd mark (by rw [slash]; decide)) rest)
  cases space : isLayout char with
  | false => rfl
  | true =>
      simp only [isLayout, Bool.or_eq_true, beq_iff_eq] at space
      rcases space with (((rfl | rfl) | rfl) | rfl) | rfl <;> exact absurd mark (by decide)

end Value

section Property

/-- What a property name looks like. -/
def IsPropertyName (name : Text) : Prop :=
  ∃ c rest, name = c :: rest ∧ isBlank c = false ∧ c ≠ '/' ∧
    (∀ d ∈ name, endsProperty d = false) ∧ Text.trimRight rest = rest

theorem endsProperty_of_blank {b : Char} (h : isBlank b) : endsProperty b = false := by
  have other : ∀ {c : Char}, isBlank c = false → b ≠ c := by
    rintro c shows rfl
    simp [shows] at h
  have semicolon : b ≠ ';' := other (by decide)
  have colon : b ≠ ':' := other (by decide)
  have opening : b ≠ '{' := other (by decide)
  have closing : b ≠ '}' := other (by decide)
  simp [endsProperty, isBrace, semicolon, colon, opening, closing]

theorem takeWhile_property {run : Text} (inside : ∀ x ∈ run, endsProperty x = false)
    (rest : Text) :
    (run ++ ':' :: rest).takeWhile (fun d => !endsProperty d) = run ∧
      (run ++ ':' :: rest).dropWhile (fun d => !endsProperty d) = ':' :: rest := by
  have all : ∀ x ∈ run, (!endsProperty x) = true := fun x hx => by simp [inside x hx]
  constructor
  · rw [List.takeWhile_append_of_pos all]
    simp [endsProperty]
  · rw [List.dropWhile_append_of_pos all]
    simp [endsProperty]

theorem propertyTail_append {name blanks : Text} (inside : ∀ x ∈ name, endsProperty x = false)
    (blank : ∀ b ∈ blanks, isBlank b) (trimmed : Text.trimRight name = name) (rest : Text) :
    propertyTail (name ++ (blanks ++ ':' :: rest)) = ⟨name, blanks ++ ':' :: rest⟩ := by
  have run : ∀ x ∈ name ++ blanks, endsProperty x = false := fun x hx =>
    (List.mem_append.1 hx).elim (inside x) fun hb => endsProperty_of_blank (blank x hb)
  rw [propertyTail, ← List.append_assoc, (takeWhile_property run rest).1,
    Text.trimRight_append_blanks blank, trimmed, List.append_assoc, List.drop_left]

theorem of_colon {t : Text} (colon : (t.dropWhile fun d => !endsProperty d).head? = some ':') :
    ∃ name blanks rest, t = name ++ (blanks ++ ':' :: rest) ∧
      (∀ x ∈ name, endsProperty x = false) ∧ (∀ b ∈ blanks, isBlank b) ∧
      Text.trimRight name = name := by
  obtain ⟨rest, behind⟩ := List.head?_eq_some_iff.1 colon
  obtain ⟨run, inside, rfl⟩ : ∃ run : Text, (∀ x ∈ run, endsProperty x = false) ∧
      t = run ++ ':' :: rest :=
    ⟨t.takeWhile fun d => !endsProperty d,
      fun x hx => by simpa using List.mem_takeWhile_imp (p := fun d => !endsProperty d) hx, by
      rw [← behind, List.takeWhile_append_dropWhile]⟩
  have trimmed := Text.trimRight_append run
  refine ⟨Text.trimRight run, (run.reverse.takeWhile isBlank).reverse, rest, ?_, fun x hx => ?_,
    fun b hb => ?_, Text.trimRight_trimRight run⟩
  · rw [← List.append_assoc, trimmed]
  · exact inside x (trimmed ▸ List.mem_append_left _ hx)
  · exact List.mem_takeWhile_imp (List.mem_reverse.1 hb)

/-- Blanks and a colon stand behind a property name, and nothing else about the text behind it
matters. -/
theorem property?_eq_some_iff {t : Text} {c : Cut} :
    property? t = some c ↔ c.whole = t ∧ IsPropertyName c.taken ∧
      ∃ blanks rest, c.rest = blanks ++ ':' :: rest ∧ ∀ b ∈ blanks, isBlank b := by
  constructor
  · intro h
    refine ⟨whole_of_property? h, ?_⟩
    cases t with
    | nil => simp [property?] at h
    | cons d t =>
        rw [property?] at h
        split at h
        · simp at h
        · rename_i first
          split at h
          · rename_i colon
            obtain rfl := Option.some.inj h
            obtain ⟨name, blanks, rest, rfl, inside, blank, trimmed⟩ := of_colon colon
            simp only [Bool.or_eq_true, decide_eq_true_eq, not_or, Bool.not_eq_true] at first
            rw [propertyTail_append inside blank trimmed]
            exact ⟨⟨d, name, rfl, first.1.1, first.2,
              List.forall_mem_cons.2 ⟨first.1.2, inside⟩, trimmed⟩, blanks, rest, rfl, blank⟩
          · simp at h
  · obtain ⟨taken, behind⟩ := c
    rintro ⟨rfl, ⟨d, name, rfl, shows, slash, inside, trimmed⟩, blanks, rest, rfl, blank⟩
    obtain ⟨first, inside⟩ := List.forall_mem_cons.1 inside
    have run : ∀ x ∈ name ++ blanks, endsProperty x = false := fun x hx =>
      (List.mem_append.1 hx).elim (inside x) fun hb => endsProperty_of_blank (blank x hb)
    have colon : ((name ++ (blanks ++ ':' :: rest)).dropWhile fun d => !endsProperty d).head? =
        some ':' := by
      rw [← List.append_assoc, (takeWhile_property run rest).2]
      rfl
    show property? (d :: (name ++ (blanks ++ ':' :: rest))) = _
    rw [property?, if_neg (by simp [shows, first, slash]), if_pos colon,
      propertyTail_append inside blank trimmed]
    rfl

theorem property?_again {x r r' blanks rest : Text} (h : property? (x ++ r) = some ⟨x, r⟩)
    (colon : r' = blanks ++ ':' :: rest) (blank : ∀ b ∈ blanks, isBlank b) :
    property? (x ++ r') = some ⟨x, r'⟩ := by
  obtain ⟨-, name, -⟩ := property?_eq_some_iff.1 h
  exact property?_eq_some_iff.2 ⟨rfl, name, blanks, rest, colon, blank⟩

end Property

end CustomProperties
