import CustomProperties.Sheet.Lexeme
import CustomProperties.Sheet.ParseError

/-!
Reading the tokens of a text. A cursor stands between two tokens; it knows how many blocks are
open and which token was the last, which decides what may come next: behind a property only a
value, behind a prelude only its brace, and otherwise the start of an item or the end of a block.
-/

namespace CustomProperties

structure Cursor where
  source : Text
  rest : Text
  here : Position
  depth : Nat
  last : Option Token
deriving Repr

namespace Cursor

def start (source : Text) : Cursor := ⟨source, source, .start, 0, none⟩

def skip (c : Cursor) : Cursor :=
  let cut := layout c.rest
  { c with rest := cut.rest, here := c.here.advance cut.taken }

def depthAfter (depth : Nat) : Kind → Nat
  | .openBrace => depth + 1
  | .closeBrace => depth - 1
  | _ => depth

def token (c : Cursor) (kind : Kind) (cut : Cut) : Token × Cursor :=
  let token : Token := ⟨kind, cut.taken, c.here⟩
  (token, ⟨c.source, cut.rest, token.stop, depthAfter c.depth kind, some token⟩)

end Cursor

/-- The kinds that can follow the last token, in the order in which they are tried. -/
def Kind.following : Option Kind → List Kind
  | some .property => [.value]
  | some .prelude => [.openBrace]
  | _ => [.statement, .prelude, .property, .semicolon, .closeBrace]

def Kind.match? : Kind → Text → Option Cut
  | .prelude => prelude?
  | .openBrace => mark? '{'
  | .closeBrace => mark? '}'
  | .semicolon => mark? ';'
  | .property => property?
  | .value => value?
  | .statement => statement?

def Kind.first? (kinds : List Kind) (t : Text) : Option (Kind × Cut) :=
  kinds.findSome? fun kind => (kind.match? t).map (kind, ·)

namespace Cursor

def following (c : Cursor) : List Kind := Kind.following (c.last.map Token.kind)

/-- Why nothing that may come next starts with the character `char` at the cursor: some other
token does, or none at all. -/
def refuse (c : Cursor) (char : Char) : ParseError :=
  let unreadable := ParseError.unreadable char c.here (.around c.source c.here.offset) c.last
  if c.last.map Token.kind = some .property then unreadable
  else
    match Kind.first? [.openBrace, .value] c.rest with
    | some (kind, cut) => .unexpected (c.token kind cut).1 c.depth c.last
    | none => unreadable

/-- The token at the cursor and the cursor behind it, or nothing at the end of the text. -/
def read (c : Cursor) : Except ParseError (Option (Token × Cursor)) :=
  match c.rest, c.last with
  | [], none => .ok none
  | [], some last => if c.depth = 0 then .ok none else .error (.unclosed last)
  | char :: _, last =>
      match Kind.first? c.following c.rest with
      | none => .error (c.refuse char)
      | some (kind, cut) =>
          if kind = .closeBrace ∧ c.depth = 0 then
            .error (.unexpected (c.token kind cut).1 c.depth last)
          else .ok (some (c.token kind cut))

/-- The next token, behind white space and comments. -/
def next (c : Cursor) : Except ParseError (Option (Token × Cursor)) := c.skip.read

end Cursor

theorem Kind.whole_of_match? {kind : Kind} {t : Text} {c : Cut} (h : kind.match? t = some c) :
    c.whole = t := by
  cases kind
  · exact whole_of_prelude? h
  · exact whole_of_mark? h
  · exact whole_of_mark? h
  · exact whole_of_mark? h
  · exact whole_of_property? h
  · exact whole_of_value? h
  · exact whole_of_statement? h

theorem Kind.taken_of_match? {kind : Kind} {t : Text} {c : Cut} (h : kind.match? t = some c) :
    c.taken ≠ [] := by
  cases kind
  · exact taken_of_prelude? h
  · exact taken_of_mark? h
  · exact taken_of_mark? h
  · exact taken_of_mark? h
  · exact taken_of_property? h
  · exact taken_of_value? h
  · exact taken_of_statement? h

theorem Kind.match?_of_first? {kinds : List Kind} {t : Text} {kind : Kind} {c : Cut}
    (h : Kind.first? kinds t = some (kind, c)) : kind ∈ kinds ∧ kind.match? t = some c := by
  obtain ⟨_, _, _, rfl, found, _⟩ := List.findSome?_eq_some_iff.1 h
  obtain ⟨_, hm, same⟩ := Option.map_eq_some_iff.1 found
  obtain ⟨rfl, rfl⟩ := Prod.mk.inj same
  exact ⟨by simp, hm⟩

namespace Cursor

/-- What reading a token amounts to: a kind that may follow, and its cut. -/
theorem of_read {c d : Cursor} {token : Token} (h : c.read = .ok (some (token, d))) :
    ∃ kind cut, kind ∈ c.following ∧ kind.match? c.rest = some cut ∧
      ¬(kind = .closeBrace ∧ c.depth = 0) ∧ c.token kind cut = (token, d) := by
  unfold read at h
  split at h
  · simp at h
  · split at h <;> simp at h
  · split at h
    · simp at h
    · rename_i kind cut found
      split at h
      · simp at h
      · have := Kind.match?_of_first? found
        exact ⟨kind, cut, this.1, this.2, by assumption, by simpa using h⟩

theorem rest_length_of_next {c d : Cursor} {token : Token} (h : c.next = .ok (some (token, d))) :
    d.rest.length < c.rest.length := by
  obtain ⟨kind, cut, _, hm, _, read⟩ := of_read h
  have skipped : c.skip.rest.length ≤ c.rest.length := Cut.rest_length_le (whole_layout c.rest)
  have shorter := Cut.rest_length_lt (Kind.whole_of_match? hm) (Kind.taken_of_match? hm)
  obtain ⟨_, rfl⟩ := Prod.mk.inj read
  exact Nat.lt_of_lt_of_le shorter skipped

def tokens (c : Cursor) : Except ParseError (List Token) :=
  match _h : c.next with
  | .error e => .error e
  | .ok none => .ok []
  | .ok (some (token, d)) => d.tokens.map (token :: ·)
termination_by c.rest.length
decreasing_by exact rest_length_of_next _h

end Cursor

def Token.all (source : Text) : Except ParseError (List Token) := (Cursor.start source).tokens

end CustomProperties
