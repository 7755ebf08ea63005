import CustomProperties.Proofs.Sheet.Place

/-!
Where a text is refused. The tokens before the fault are read as those of any stylesheet, so that the
cursor knows the last of them and how many blocks are open; there either the text is at its end, or some
token stands where it cannot, or none starts with the character there. In each case the fault has an
offset in the text, and a line and a column.
-/

namespace CustomProperties

theorem shows_of_layout (t : Text) : ∀ c, (layout t).rest.head? = some c → isLayout c = false := by
  fun_induction layout t with
  | case1 => simp
  | case2 c rest space ih => exact ih
  | case3 c rest _ comment found ih => exact ih
  | case4 c rest plain => simpa using plain

/-- What an error tells of the text at an offset, behind the tokens that were read: the last of these
stands there and more blocks were opened than closed, or the token at fault does, or the character that
starts no token. -/
def ParseError.Tells (source : Text) (read : List Token) (offset : Nat) : ParseError → Prop
  | .unclosed last => read.getLast? = some last ∧ last.start.offset = offset ∧
      (read.map Token.kind).count .closeBrace < (read.map Token.kind).count .openBrace
  | .unexpected found _ _ => found.text ≠ [] ∧ found.text <+: source.drop offset
  | .unreadable char _ _ _ => source[offset]? = some char ∧ isLayout char = false

theorem ParseError.told {e : ParseError} {source : Text} {offset : Nat}
    (h : e.position = source.positionAt offset) :
    e.line? = some (source.lineAt offset) ∧ e.column? = some (source.columnAt offset) := by
  rw [line?, column?, h, Text.positionAt_line, Text.positionAt_column]
  simp [Option.guard, Text.lineAt, Text.columnAt]

namespace Cursor

variable {c d : Cursor} {ts : List Token} {e : ParseError}

theorem leads_of_error (h : c.tokens = .error e) : ∃ ts d, c.Leads ts d ∧ d.next = .error e := by
  fun_induction tokens c with
  | case1 c e' hn =>
      obtain rfl : e' = e := by simpa using h
      exact ⟨[], c, .here, hn⟩
  | case2 => simp at h
  | case3 c t d hn ih =>
      cases later : d.tokens with
      | ok ts => simp [later, Except.map] at h
      | error e' =>
          obtain rfl : e' = e := by simpa [later, Except.map] using h
          obtain ⟨ts, f, leads, fails⟩ := ih later
          exact ⟨t :: ts, f, .token hn leads, fails⟩

theorem Leads.last_eq (h : c.Leads ts d) : d.last = ts.getLast?.or c.last := by
  induction h with
  | here => rfl
  | @token c d f t ts hn _ ih =>
      obtain ⟨-, -, -, -, -, -, -, last⟩ := of_next hn
      rw [ih, last, List.getLast?_cons]
      cases ts.getLast? <;> rfl

theorem Leads.depth_eq (h : c.Leads ts d) :
    d.depth + (ts.map Token.kind).count .closeBrace =
      c.depth + (ts.map Token.kind).count .openBrace := by
  induction h with
  | here => rfl
  | @token c d f t ts hn _ ih =>
      obtain ⟨-, -, -, inside, -, -, depth, -⟩ := of_next hn
      rw [depth] at ih
      rw [List.map_cons]
      cases hk : t.kind with
      | closeBrace =>
          have some_open : c.depth ≠ 0 := fun none => inside ⟨hk, none⟩
          simp only [hk, depthAfter] at ih
          simp only [List.count_cons, beq_self_eq_true, if_true, beq_iff_eq, reduceCtorEq, if_false]
          omega
      | openBrace =>
          simp only [hk, depthAfter] at ih
          simp only [List.count_cons, beq_self_eq_true, if_true, beq_iff_eq, reduceCtorEq, if_false]
          omega
      | prelude | semicolon | property | value | statement =>
          simpa [hk, depthAfter, List.count_cons] using ih

theorem Located.skip (h : c.Located) : c.skip.Located := by
  obtain ⟨read, whole, here⟩ := h
  have split : (layout c.rest).taken ++ (layout c.rest).rest = c.rest := whole_layout c.rest
  refine ⟨read ++ (layout c.rest).taken, ?_, ?_⟩
  · show c.source = _ ++ (layout c.rest).rest
    rw [List.append_assoc, split, whole]
  · show c.here.advance _ = _
    rw [here, Position.advance_append]

theorem text_token {kind : Kind} {cut : Cut} (h : kind.match? c.rest = some cut) :
    (c.token kind cut).1.text ≠ [] ∧ (c.token kind cut).1.text <+: c.rest :=
  ⟨Kind.taken_of_match? h, cut.rest, Kind.whole_of_match? h⟩

/-- Why no token is read: the text ends within a block, a token stands at the cursor that cannot stand
there, or no token starts with the character at the cursor. -/
theorem of_read_error (h : c.read = .error e) :
    (∃ last, c.last = some last ∧ c.depth ≠ 0 ∧ e = .unclosed last) ∨
      (∃ found depth last, e = .unexpected found depth last ∧ found.start = c.here ∧
        found.text ≠ [] ∧ found.text <+: c.rest) ∨
      ∃ char rest excerpt last, e = .unreadable char c.here excerpt last ∧ c.rest = char :: rest := by
  unfold read at h
  split at h
  · simp at h
  · rename_i last _ known
    split at h
    · simp at h
    · rename_i inside
      exact .inl ⟨last, known, inside, (Except.error.inj h).symm⟩
  · rename_i char rest text
    split at h
    · obtain rfl := Except.error.inj h
      unfold refuse
      split
      · exact .inr (.inr ⟨char, rest, _, _, rfl, text⟩)
      · split
        · rename_i kind cut found
          obtain ⟨shows, stands⟩ := text_token (Kind.match?_of_first? found).2
          exact .inr (.inl ⟨_, _, _, rfl, rfl, shows, stands⟩)
        · exact .inr (.inr ⟨char, rest, _, _, rfl, text⟩)
    · rename_i kind cut found
      split at h
      · obtain rfl := Except.error.inj h
        obtain ⟨shows, stands⟩ := text_token (Kind.match?_of_first? found).2
        exact .inr (.inl ⟨_, _, _, rfl, rfl, shows, stands⟩)
      · simp at h

theorem Leads.tells {source : Text} (h : (start source).Leads ts d) (fails : d.next = .error e) :
    ∃ offset < source.length, e.position = source.positionAt offset ∧ e.Tells source ts offset := by
  obtain ⟨located, same, placed⟩ := h.placed (located_start source)
  replace same : d.source = source := same
  obtain ⟨position, at_cursor⟩ := located.skip.at_offset
  rw [show d.skip.source = source from same] at position at_cursor
  have inside {char : Char} {rest : Text} (text : d.skip.rest = char :: rest) :
      source[d.skip.here.offset]? = some char := by
    rw [← List.head?_drop, at_cursor, text, List.head?_cons]
  rcases of_read_error fails with
    ⟨last, known, open_blocks, rfl⟩ | ⟨found, depth, last, rfl, start, shows, stands⟩ |
      ⟨char, rest, excerpt, last, rfl, text⟩
  · have final : ts.getLast? = some last := by
      have last_eq := h.last_eq
      rw [show d.last = some last from known] at last_eq
      simpa [Cursor.start] using last_eq.symm
    obtain ⟨place, -, stop, shows⟩ := placed last (List.mem_of_getLast? final)
    have depth := h.depth_eq
    have opened : d.depth ≠ 0 := open_blocks
    have within := located.offset_le
    rw [same] at within
    refine ⟨last.start.offset, by omega, place, final, rfl, ?_⟩
    change d.depth + _ = 0 + _ at depth
    omega
  · obtain ⟨char, more, text⟩ := List.exists_cons_of_ne_nil (shows : found.text ≠ [])
    obtain ⟨rest, whole⟩ := stands
    rw [text] at whole
    obtain ⟨bound, -⟩ := List.getElem?_eq_some_iff.1 (inside whole.symm)
    refine ⟨d.skip.here.offset, bound, ?_, shows, ?_⟩
    · exact start.trans position
    · rw [at_cursor, text]
      exact ⟨rest, whole⟩
  · obtain ⟨bound, -⟩ := List.getElem?_eq_some_iff.1 (inside text)
    refine ⟨d.skip.here.offset, bound, position, inside text, shows_of_layout d.rest char ?_⟩
    exact congrArg List.head? text

end Cursor

/-- Where a text is refused: behind tokens that are read from its start, at an offset in it whose line
and column are told. -/
def ParseError.Located (source : Text) (e : ParseError) : Prop :=
  ∃ read c offset, (Cursor.start source).Leads read c ∧ c.next = .error e ∧
    offset < source.length ∧ e.line? = some (source.lineAt offset) ∧
    e.column? = some (source.columnAt offset) ∧ e.Tells source read offset

namespace Stylesheet

variable {source : Text} {e : ParseError}

theorem parse_eq_error_iff : parse source = .error e ↔ Token.all source = .error e := by
  unfold parse
  cases Token.all source <;> simp [Except.map]

/-- A text that is no stylesheet is refused at a place in it, and the error tells what is there. -/
theorem error_of_parse (refused : parse source = .error e) : e.Located source := by
  obtain ⟨read, c, leads, fails⟩ := Cursor.leads_of_error (parse_eq_error_iff.1 refused)
  obtain ⟨offset, inside, position, tells⟩ := leads.tells fails
  obtain ⟨line, column⟩ := ParseError.told position
  exact ⟨read, c, offset, leads, fails, inside, line, column, tells⟩

/-- A block whose brace is in a comment, a value without a name, and a space that is not skipped. -/
theorem error_of_parse_torn :
    let unclosed : Text := "@m \x7b\n a:b; /* \x7d */\n".toList
    let unnamed : Text := "a\x7bb:c\x7d\n :d".toList
    let spaced : Text := "a \x7b\n\t\u00a0c:d\x7d".toList
    (∃ last, parse unclosed = .error (.unclosed last) ∧
      (ParseError.unclosed last).Located unclosed) ∧
    (∃ found depth last, parse unnamed = .error (.unexpected found depth last) ∧
      (ParseError.unexpected found depth last).Located unnamed) ∧
    ∃ char start excerpt last, parse spaced = .error (.unreadable char start excerpt last) ∧
      (ParseError.unreadable char start excerpt last).Located spaced := by
  intro unclosed unnamed spaced
  have ends : parse unclosed = .error (.unclosed ⟨.semicolon, [';'], ⟨9, 2, 5⟩⟩) :=
    parse_eq_error_iff.2 (by decide +kernel)
  have stray : parse unnamed = .error (.unexpected ⟨.value, ":d".toList, ⟨8, 2, 2⟩⟩ 0
      (some ⟨.closeBrace, ['\x7d'], ⟨5, 1, 6⟩⟩)) :=
    parse_eq_error_iff.2 (by decide +kernel)
  have space : parse spaced = .error (.unreadable '\u00a0' ⟨5, 2, 2⟩
      ⟨['\t'], "\u00a0c:d\x7d".toList⟩ (some ⟨.openBrace, ['\x7b'], ⟨2, 1, 3⟩⟩)) :=
    parse_eq_error_iff.2 (by decide +kernel)
  exact ⟨⟨_, ends, error_of_parse ends⟩, ⟨_, _, _, stray, error_of_parse stray⟩,
    _, _, _, _, space, error_of_parse space⟩

end Stylesheet

end CustomProperties
