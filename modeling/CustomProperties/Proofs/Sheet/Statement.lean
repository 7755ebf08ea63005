import CustomProperties.Proofs.Sheet.Place
import CustomProperties.Proofs.Sheet.Weave

/-!
Statements without a block. Read straight, with every comment up to its first end, a statement goes
to the first semicolon that nothing encloses, and no brace is left outside its strings, groups and
comments. The reader of statements turns back where this fails, and then it may take a comment on to
a later end, with braces and semicolons in between. A statement that can be read straight is never
read in another way.
-/

namespace CustomProperties

/-- The characters of a text that stand outside its strings, flat groups and comments. -/
def exposed : Text → Text
  | [] => []
  | c :: rest =>
      match _h : enclosed? (c :: rest) with
      | some inner => exposed inner.rest
      | none => c :: exposed rest
termination_by t => t.length
decreasing_by
  · exact Cut.rest_length_lt (whole_of_enclosed? _h) (taken_of_enclosed? _h)
  · simp

/-- The rest of a statement up to its semicolon, if it is read straight: every comment ends where it
first can. -/
def straightTail : Text → Option Cut
  | [] => none
  | c :: rest =>
      match _h : enclosed? (c :: rest) with
      | some inner => (straightTail inner.rest).map (Cut.extend inner.taken)
      | none =>
          if c = ';' then some ⟨[], c :: rest⟩
          else if isBrace c || c = '(' || startsLiteral (c :: rest) then none
          else (straightTail rest).map (Cut.extend [c])
termination_by t => t.length
decreasing_by
  · exact Cut.rest_length_lt (whole_of_enclosed? _h) (taken_of_enclosed? _h)
  · simp

theorem unpaired_cons {a b c : Char} {t : Text}
    (other : ∀ rest, c = a → t = b :: rest → False) : ¬[a, b] <+: c :: t := by
  rintro ⟨rest, same⟩
  obtain ⟨rfl, rfl⟩ := List.cons.inj same
  exact other rest rfl rfl

theorem startsLiteral_eq_false_iff {c : Char} {t : Text} :
    startsLiteral (c :: t) = false ↔ isQuote c = false ∧ ¬['/', '*'] <+: c :: t := by
  rw [startsLiteral, Bool.or_eq_false_iff, ← Bool.not_eq_true (List.isPrefixOf ..),
    List.isPrefixOf_iff_prefix]
  rfl

theorem enclosed?_eq_none {c : Char} {t : Text} (quote : isQuote c = false) (opening : c ≠ '(')
    (comment : ¬['/', '*'] <+: c :: t) : enclosed? (c :: t) = none := by
  rw [enclosed?, stringOrGroup?_cons quote opening, comment?_eq_none comment, Option.none_or]

/-- A text with a comment that reaches over an end of a comment. -/
def Text.Stretched (t : Text) : Prop :=
  ∃ front body back, t = front ++ Text.comment body ++ back ∧ ['*', '/'] <:+: body

theorem Text.Stretched.append {t : Text} (h : t.Stretched) (front : Text) :
    Text.Stretched (front ++ t) := by
  obtain ⟨before, body, back, rfl, ends⟩ := h
  exact ⟨front ++ before, body, back, by simp, ends⟩

section Exposed

variable {t blanks : Text} {c : Char} {l : Cut}

theorem exposed_enclosed (h : enclosed? t = some l) : exposed t = exposed l.rest := by
  cases t with
  | nil => simp [enclosed?, stringOrGroup?, quoted?, group?, comment?] at h
  | cons c t =>
      rw [exposed]
      split
      · rename_i inner found
        rw [Option.some.inj (found.symm.trans h)]
      · rename_i missed
        simp [h] at missed

theorem exposed_cons (h : enclosed? (c :: t) = none) : exposed (c :: t) = c :: exposed t := by
  rw [exposed]
  split
  · rename_i found
    simp [h] at found
  · rfl

theorem mem_exposed_append_blanks (blank : ∀ b ∈ blanks, isBlank b) (h : c ∈ exposed t) :
    c ∈ exposed (t ++ blanks) := by
  fun_induction exposed t with
  | case1 => simp at h
  | case2 d rest inner hi ih =>
      rw [exposed_enclosed (enclosed?_append_of_enclosed? hi blanks)]
      exact ih h
  | case3 d rest hi ih =>
      have missed : enclosed? (d :: rest ++ blanks) = none :=
        Cut.none_append_blanks whole_of_enclosed? enclosed?_append last_of_enclosed? blank hi
      rw [List.cons_append] at missed ⊢
      rw [exposed_cons missed]
      rcases List.mem_cons.1 h with rfl | later
      · exact List.mem_cons_self ..
      · exact List.mem_cons_of_mem _ (ih later)

end Exposed

section Straight

variable {t : Text} {c : Char} {l : Cut}

theorem straightTail_enclosed {inner : Cut} (h : enclosed? t = some inner) :
    straightTail t = (straightTail inner.rest).map (Cut.extend inner.taken) := by
  cases t with
  | nil => simp [enclosed?, stringOrGroup?, quoted?, group?, comment?] at h
  | cons c t =>
      rw [straightTail]
      split
      · rename_i found
        rw [Option.some.inj (found.symm.trans h)]
      · rename_i missed
        simp [h] at missed

theorem straightTail_cons (h : enclosed? (c :: t) = none) :
    straightTail (c :: t) =
      if c = ';' then some ⟨[], c :: t⟩
      else if isBrace c || c = '(' || startsLiteral (c :: t) then none
      else (straightTail t).map (Cut.extend [c]) := by
  rw [straightTail]
  split
  · rename_i found
    simp [h] at found
  · rfl

theorem whole_of_straightTail (h : straightTail t = some l) : l.whole = t := by
  fun_induction straightTail t generalizing l with
  | case1 => simp at h
  | case2 d rest inner hi ih =>
      obtain ⟨e, he, rfl⟩ := Option.map_eq_some_iff.1 h
      rw [Cut.whole_extend_taken (ih he), whole_of_enclosed? hi]
  | case3 rest =>
      obtain rfl := Option.some.inj h
      rfl
  | case4 => simp at h
  | case5 d rest _ _ _ ih =>
      obtain ⟨e, he, rfl⟩ := Option.map_eq_some_iff.1 h
      simp [ih he]

theorem exposed_of_straightTail (h : straightTail t = some l) :
    ∀ c ∈ exposed l.taken, isMark c = false := by
  fun_induction straightTail t generalizing l with
  | case1 => simp at h
  | case2 d rest inner hi ih =>
      obtain ⟨e, he, rfl⟩ := Option.map_eq_some_iff.1 h
      rw [Cut.taken_extend, exposed_enclosed (enclosed?_append hi _)]
      exact ih he
  | case3 rest =>
      obtain rfl := Option.some.inj h
      simp [exposed]
  | case4 => simp at h
  | case5 d rest hi semicolon inside ih =>
      obtain ⟨e, he, rfl⟩ := Option.map_eq_some_iff.1 h
      have whole : e.taken ++ e.rest = rest := whole_of_straightTail he
      have missed : enclosed? (d :: e.taken) = none := by
        cases found : enclosed? (d :: e.taken) with
        | none => rfl
        | some inner =>
            have longer := enclosed?_append_of_enclosed? found e.rest
            rw [List.cons_append, whole, hi] at longer
            simp at longer
      simp only [Bool.or_eq_true, not_or, Bool.not_eq_true] at inside
      rw [Cut.taken_extend, List.singleton_append, exposed_cons missed]
      exact List.forall_mem_cons.2 ⟨by simp [isMark, semicolon, inside.1.1], ih he⟩

theorem commentTail_of_closeComment {e : Cut} (closes : closeComment t = some e)
    (tail : statementTail e.rest = some l) : commentTail t = some (l.extend e.taken) := by
  fun_induction closeComment t generalizing e with
  | case1 => simp at closes
  | case2 rest =>
      obtain rfl := Option.some.inj closes
      rw [commentTail, show statementTail rest = some l from tail]
  | case3 d rest other ih =>
      obtain ⟨e', he, rfl⟩ := Option.map_eq_some_iff.1 closes
      rw [commentTail_cons (unpaired_cons other), ih he tail]
      simp [Cut.extend]

theorem statementTail_of_straightTail (h : straightTail t = some l) : statementTail t = some l := by
  fun_induction straightTail t generalizing l with
  | case1 => simp at h
  | case2 d rest inner hi ih =>
      obtain ⟨e, he, rfl⟩ := Option.map_eq_some_iff.1 h
      rcases Option.or_eq_some_iff.1 hi with simple | ⟨-, comment⟩
      · rw [statementTail_inner simple, ih he]
        rfl
      · obtain ⟨inside, c, text, closes, rfl⟩ := of_comment? comment
        rw [text, statementTail_comment, commentTail_of_closeComment closes (ih he)]
        simp [Cut.extend]
  | case3 rest =>
      rw [statementTail_semicolon]
      exact h
  | case4 => simp at h
  | case5 d rest hi semicolon inside ih =>
      obtain ⟨e, he, rfl⟩ := Option.map_eq_some_iff.1 h
      simp only [Bool.or_eq_true, not_or, Bool.not_eq_true, decide_eq_true_eq] at inside
      obtain ⟨⟨brace, opening⟩, plain⟩ := inside
      obtain ⟨quote, comment⟩ := startsLiteral_eq_false_iff.1 plain
      rw [statementTail_cons comment (stringOrGroup?_cons quote opening _) semicolon, ih he]
      simp [endsValue, semicolon, brace, quote, opening]

end Straight

section Stretched

variable {t : Text} {c : Char} {l : Cut}

theorem end_of_commentTail (h : commentTail t = some l) : ['*', '/'] <:+: l.taken := by
  induction t generalizing l with
  | nil => simp [commentTail] at h
  | cons c t ih =>
      by_cases ends : ['*', '/'] <+: c :: t
      · obtain ⟨rest, same⟩ := ends
        obtain ⟨rfl, rfl⟩ := List.cons.inj same
        change commentTail ('*' :: '/' :: rest) = some l at h
        rw [commentTail] at h
        split at h
        · rename_i tail _
          obtain rfl := Option.some.inj h
          exact ⟨[], tail.taken, rfl⟩
        · obtain ⟨e, he, rfl⟩ := Option.map_eq_some_iff.1 h
          exact (ih he).trans (List.suffix_append _ _).isInfix
      · rw [commentTail_cons ends] at h
        obtain ⟨e, he, rfl⟩ := Option.map_eq_some_iff.1 h
        exact (ih he).trans (List.suffix_append _ _).isInfix

/-- A text that ends twice what it may be the comment of. -/
def Text.Overruns (t : Text) : Prop :=
  ∃ body back, t = body ++ '*' :: '/' :: back ∧ ['*', '/'] <:+: body

theorem Text.Overruns.append {t : Text} (h : t.Overruns) (front : Text) :
    Text.Overruns (front ++ t) := by
  obtain ⟨body, back, rfl, ends⟩ := h
  exact ⟨front ++ body, back, by simp, ends.trans (List.suffix_append _ _).isInfix⟩

theorem Text.Overruns.stretched {t : Text} (h : t.Overruns) : Text.Stretched ('/' :: '*' :: t) := by
  obtain ⟨body, back, rfl, ends⟩ := h
  exact ⟨[], body, back, by simp [Text.comment], ends⟩

/-- The rest of a comment up to its first end, with a statement behind that is read straight. -/
def StraightComment (t : Text) (l : Cut) : Prop :=
  ∃ e tail, closeComment t = some e ∧ straightTail e.rest = some tail ∧ l = tail.extend e.taken

/-- What is read of a statement or from within a comment is read straight, or else a comment reaches
over an end of it. -/
theorem tails_cases :
    (∀ t l, statementTail t = some l → straightTail t = some l ∨ l.taken.Stretched) ∧
      ∀ t l, commentTail t = some l →
        StraightComment t l ∨ l.taken.Stretched ∨ l.taken.Overruns := by
  apply statementTail.mutual_induct
    (fun t => ∀ l, statementTail t = some l → straightTail t = some l ∨ l.taken.Stretched)
    (fun t => ∀ l, commentTail t = some l →
      StraightComment t l ∨ l.taken.Stretched ∨ l.taken.Overruns)
  case case1 =>
    intro l h
    simp [statementTail] at h
  case case2 =>
    intro inside ih l h
    rw [statementTail_comment] at h
    obtain ⟨e, he, rfl⟩ := Option.map_eq_some_iff.1 h
    rcases ih e he with ⟨c, tail, closes, straight, rfl⟩ | stretched | overruns
    · have comment : comment? ('/' :: '*' :: inside) = some (c.extend ['/', '*']) := by
        rw [comment?, closes]
        rfl
      left
      rw [straightTail_enclosed (enclosed?_of_comment? comment), Cut.rest_extend, straight]
      simp [Cut.extend]
    · exact .inr (stretched.append _)
    · exact .inr overruns.stretched
  case case3 =>
    intro rest _ l h
    rw [statementTail_semicolon] at h
    left
    rw [straightTail_cons (enclosed?_eq_none (by decide) (by decide) (by simp)), if_pos rfl, h]
  case case4 =>
    intro c rest other semicolon inner hi ih l h
    rw [statementTail_inner hi] at h
    obtain ⟨e, he, rfl⟩ := Option.map_eq_some_iff.1 h
    have enclosed : enclosed? (c :: rest) = some inner := by rw [enclosed?, hi, Option.some_or]
    rcases ih e he with straight | stretched
    · left
      rw [straightTail_enclosed enclosed, straight]
      rfl
    · exact .inr (stretched.append _)
  case case5 =>
    intro c rest other semicolon hi ends l h
    rw [statementTail_cons (unpaired_cons other) hi semicolon, if_pos ends] at h
    simp at h
  case case6 =>
    intro c rest other semicolon hi inside ih l h
    rw [statementTail_cons (unpaired_cons other) hi semicolon, if_neg inside] at h
    obtain ⟨e, he, rfl⟩ := Option.map_eq_some_iff.1 h
    rcases ih e he with straight | stretched
    · left
      simp only [Bool.or_eq_true, decide_eq_true_eq, not_or, Bool.not_eq_true, endsValue] at inside
      obtain ⟨⟨⟨-, brace⟩, quote⟩, opening⟩ := inside
      have plain : startsLiteral (c :: rest) = false :=
        startsLiteral_eq_false_iff.2 ⟨quote, unpaired_cons other⟩
      rw [straightTail_cons (enclosed?_eq_none quote opening (unpaired_cons other)), straight]
      simp [semicolon, brace, opening, plain]
    · exact .inr (stretched.append [c])
  case case7 =>
    intro l h
    simp [commentTail] at h
  case case8 =>
    intro rest tail read ih l h
    rw [commentTail, read] at h
    obtain rfl := Option.some.inj h
    rcases ih tail read with straight | stretched
    · exact .inl ⟨⟨['*', '/'], rest⟩, tail, rfl, straight, rfl⟩
    · exact .inr (.inl (stretched.append _))
  case case9 =>
    intro rest stuck _ _ l h
    -- Nothing can be read behind the end that comes first, so the comment overruns it.
    rw [commentTail, stuck, commentTail_cons (by simp), Option.map_map] at h
    obtain ⟨e, he, rfl⟩ := Option.map_eq_some_iff.1 h
    obtain ⟨body, back, taken⟩ := end_of_commentTail he
    exact .inr (.inr ⟨['*', '/'] ++ body, back, by simp [Cut.extend, ← taken], [], body, rfl⟩)
  case case10 =>
    intro c rest other ih l h
    rw [commentTail_cons (unpaired_cons other)] at h
    obtain ⟨e, he, rfl⟩ := Option.map_eq_some_iff.1 h
    rcases ih e he with ⟨closed, tail, closes, straight, rfl⟩ | stretched | overruns
    · refine .inl ⟨closed.extend [c], tail, ?_, straight, by simp [Cut.extend]⟩
      rw [closeComment_cons (unpaired_cons other), closes]
      rfl
    · exact .inr (.inl (stretched.append [c]))
    · exact .inr (.inr (overruns.append [c]))

theorem semicolon_of_tails :
    (∀ t l, statementTail t = some l → ∃ behind, l.rest = ';' :: behind) ∧
      ∀ t l, commentTail t = some l → ∃ behind, l.rest = ';' :: behind := by
  apply statementTail.mutual_induct
    (fun t => ∀ l, statementTail t = some l → ∃ behind, l.rest = ';' :: behind)
    (fun t => ∀ l, commentTail t = some l → ∃ behind, l.rest = ';' :: behind)
  case case1 =>
    intro l h
    simp [statementTail] at h
  case case2 =>
    intro inside ih l h
    rw [statementTail_comment] at h
    obtain ⟨e, he, rfl⟩ := Option.map_eq_some_iff.1 h
    exact ih e he
  case case3 =>
    intro rest _ l h
    rw [statementTail_semicolon] at h
    obtain rfl := Option.some.inj h
    exact ⟨rest, rfl⟩
  case case4 =>
    intro c rest _ _ inner hi ih l h
    rw [statementTail_inner hi] at h
    obtain ⟨e, he, rfl⟩ := Option.map_eq_some_iff.1 h
    exact ih e he
  case case5 =>
    intro c rest other semicolon hi ends l h
    rw [statementTail_cons (unpaired_cons other) hi semicolon, if_pos ends] at h
    simp at h
  case case6 =>
    intro c rest other semicolon hi inside ih l h
    rw [statementTail_cons (unpaired_cons other) hi semicolon, if_neg inside] at h
    obtain ⟨e, he, rfl⟩ := Option.map_eq_some_iff.1 h
    exact ih e he
  case case7 =>
    intro l h
    simp [commentTail] at h
  case case8 =>
    intro rest tail read ih l h
    rw [commentTail, read] at h
    obtain rfl := Option.some.inj h
    exact ih tail read
  case case9 =>
    intro rest stuck _ ih l h
    rw [commentTail, stuck] at h
    obtain ⟨e, he, rfl⟩ := Option.map_eq_some_iff.1 h
    exact ih e he
  case case10 =>
    intro c rest other ih l h
    rw [commentTail_cons (unpaired_cons other)] at h
    obtain ⟨e, he, rfl⟩ := Option.map_eq_some_iff.1 h
    exact ih e he

theorem semicolon_of_statement? (h : statement? t = some l) : ∃ behind, l.rest = ';' :: behind := by
  unfold statement? at h
  split at h
  · obtain ⟨e, he, rfl⟩ := Option.map_eq_some_iff.1 h
    exact semicolon_of_tails.1 _ e he
  · simp at h

theorem statement?_cases {x rest : Text}
    (taken : statement? ('@' :: (x ++ rest)) = some ⟨'@' :: x, rest⟩) :
    straightTail (x ++ rest) = some ⟨x, rest⟩ ∧
        (∀ c ∈ exposed (Text.trimRight ('@' :: x)), isMark c = false) ∨
      straightTail (x ++ rest) = none ∧ Text.Stretched x := by
  obtain ⟨l, read, same⟩ := Option.map_eq_some_iff.1 taken
  obtain rfl : l = ⟨x, rest⟩ := by
    cases l
    simpa [Cut.extend] using same
  cases straight : straightTail (x ++ rest) with
  | none => exact .inr ⟨rfl, (tails_cases.1 _ _ read).resolve_left (by simp [straight])⟩
  | some l =>
      obtain rfl := Option.some.inj ((statementTail_of_straightTail straight).symm.trans read)
      refine .inl ⟨rfl, fun c hc => ?_⟩
      have blank : ∀ b ∈ (('@' :: x).reverse.takeWhile isBlank).reverse, isBlank b :=
        fun b hb => List.mem_takeWhile_imp (List.mem_reverse.1 hb)
      have shown := mem_exposed_append_blanks blank hc
      rw [Text.trimRight_append, exposed_cons (enclosed?_eq_none (by decide) (by decide) (by simp))]
        at shown
      rcases List.mem_cons.1 shown with rfl | inside
      · decide
      · exact exposed_of_straightTail straight c inside

end Stretched

namespace Stylesheet

variable {source : Text} {s : Stylesheet}

/-- A statement at any depth of a stylesheet stands in its text, and it is read straight there if
that is possible. Then no semicolon and no brace is left outside its strings, groups and comments.
It is read in another way only if it cannot be read straight, and then it holds a comment with an
end of a comment in it. -/
theorem statements_of_parse (parsed : parse source = .ok s) (text : Text) (position : Position)
    (inside : .statement text position ∈ Node.preorderAll s.nodes) :
    ∃ x rest, source.drop position.offset = '@' :: (x ++ rest) ∧
      text = Text.trimRight ('@' :: x) ∧
      (straightTail (x ++ rest) = some ⟨x, rest⟩ ∧ (∀ c ∈ exposed text, isMark c = false) ∨
        straightTail (x ++ rest) = none ∧ Text.Stretched x) := by
  obtain ⟨ts, -, reads, rfl, -⟩ := tokens_of_parse parsed
  have made : .statement text position ∈ Token.nodes ts := by
    rw [← Forests.preorder_ofTokens]
    exact List.mem_map.2 ⟨_, List.mem_append_left _ inside, rfl⟩
  obtain ⟨t, ht, next, starts⟩ := Token.exists_of_mem_nodes made
  obtain ⟨kind, rfl, rfl⟩ := Token.of_node?_statement starts
  obtain ⟨rest, place, taken⟩ := reads.taken (Cursor.located_start source) t ht
  rw [kind] at taken
  obtain ⟨x, first⟩ : ∃ x, t.text = '@' :: x := of_statement? taken
  rw [first] at place taken ⊢
  exact ⟨x, rest, place, rfl, statement?_cases taken⟩

theorem statements_of_parse_enclosed :
    let sheet : Text := "@media x\x7b@import url(a;b) /*;\x7b*/ '\x7d' ;\x7d".toList
    let text : Text := "@import url(a;b) /*;\x7b*/ '\x7d'".toList
    ∃ s, parse sheet = .ok s ∧ .statement text ⟨9, 1, 10⟩ ∈ Node.preorderAll s.nodes ∧
      straightTail (sheet.drop 10) = some ⟨(text ++ [' ']).tail, [';', '\x7d']⟩ ∧
      ∀ c ∈ exposed text, isMark c = false := by
  intro sheet text
  let tokens : List Token :=
    [⟨.prelude, "@media x".toList, .start⟩, ⟨.openBrace, ['\x7b'], ⟨8, 1, 9⟩⟩,
      ⟨.statement, text ++ [' '], ⟨9, 1, 10⟩⟩, ⟨.semicolon, [';'], ⟨37, 1, 38⟩⟩,
      ⟨.closeBrace, ['\x7d'], ⟨38, 1, 39⟩⟩]
  have read : (Token.all sheet).toOption = some tokens := by decide +kernel
  have parsed := parse_of_tokens (ok_of_toOption read)
  have inside : .statement text ⟨9, 1, 10⟩ ∈
      Node.preorderAll (Stylesheet.mk sheet (Forests.ofTokens tokens).front).nodes :=
    List.mem_cons_of_mem _ (List.mem_cons_self ..)
  have tail : straightTail (sheet.drop 10) = some ⟨(text ++ [' ']).tail, [';', '\x7d']⟩ := by
    decide +kernel
  refine ⟨_, parsed, inside, tail, ?_⟩
  obtain ⟨x, rest, place, -, ⟨-, clean⟩ | ⟨bent, -⟩⟩ := statements_of_parse parsed text _ inside
  · exact clean
  · have behind : x ++ rest = sheet.drop 10 := (List.cons.inj place).2.symm
    rw [behind, tail] at bent
    simp at bent

/-- A comment in front of a block may be taken on to the end of one behind the block, and then the
block is part of the statement. -/
theorem statements_swallow :
    let sheet : Text := "@media print /*x*/ \x7ba\x7bb:c\x7d\x7d /*y*/ @import \"z\";".toList
    ∃ s, parse sheet = .ok s ∧ s.nodes = [.statement sheet.dropLast .start] ∧
      '\x7b' ∈ exposed sheet.dropLast := by
  intro sheet
  let tokens : List Token :=
    [⟨.statement, sheet.dropLast, .start⟩, ⟨.semicolon, [';'], ⟨45, 1, 46⟩⟩]
  have read : (Token.all sheet).toOption = some tokens := by decide +kernel
  exact ⟨_, parse_of_tokens (ok_of_toOption read), rfl, by decide +kernel⟩

end Stylesheet

end CustomProperties
