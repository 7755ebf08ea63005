import CustomProperties.Text.Blank
import CustomProperties.Text.Lexeme
import CustomProperties.Sheet.Token

/-!
The texts of the tokens. Strings are read whole wherever a token may hold them, comments and
flat groups in values and in statements without a block, so that the braces and semicolons
inside them do not count. The recogniser of each kind answers with the cut behind the token.
-/

namespace CustomProperties

/-- White space between tokens: five characters, fewer than the blanks. -/
def isLayout (c : Char) : Bool :=
  c == ' ' || c == '\t' || c == '\x0c' || c == '\r' || c == '\n'

def isBrace (c : Char) : Bool := c == '{' || c == '}'

def layout : Text → Cut
  | [] => ⟨[], []⟩
  | c :: rest =>
      if isLayout c then (layout rest).extend [c]
      else
        match _h : comment? (c :: rest) with
        | some comment => (layout comment.rest).extend comment.taken
        | none => ⟨[], c :: rest⟩
termination_by t => t.length
decreasing_by
  · simp
  · exact Cut.rest_length_lt (whole_of_comment? _h) (taken_of_comment? _h)

def stringOrGroup? (t : Text) : Option Cut :=
  (quoted? t).or (group? t)

def enclosed? (t : Text) : Option Cut :=
  (stringOrGroup? t).or (comment? t)

theorem whole_of_stringOrGroup? {t : Text} {c : Cut} (h : stringOrGroup? t = some c) :
    c.whole = t := by
  rcases Option.or_eq_some_iff.1 h with h | ⟨_, h⟩
  · exact whole_of_quoted? h
  · exact whole_of_group? h

theorem taken_of_stringOrGroup? {t : Text} {c : Cut} (h : stringOrGroup? t = some c) :
    c.taken ≠ [] := by
  rcases Option.or_eq_some_iff.1 h with h | ⟨_, h⟩
  · exact taken_of_quoted? h
  · exact taken_of_group? h

theorem whole_of_enclosed? {t : Text} {c : Cut} (h : enclosed? t = some c) : c.whole = t := by
  rcases Option.or_eq_some_iff.1 h with h | ⟨_, h⟩
  · exact whole_of_stringOrGroup? h
  · exact whole_of_comment? h

theorem taken_of_enclosed? {t : Text} {c : Cut} (h : enclosed? t = some c) : c.taken ≠ [] := by
  rcases Option.or_eq_some_iff.1 h with h | ⟨_, h⟩
  · exact taken_of_stringOrGroup? h
  · exact taken_of_comment? h

/-- Characters that end a value unless something encloses them. A quote that starts no complete
string ends it too. -/
def endsValue (c : Char) : Bool := c == ';' || isBrace c || isQuote c

def valueText : Text → Cut
  | [] => ⟨[], []⟩
  | c :: rest =>
      match _h : enclosed? (c :: rest) with
      | some inner => (valueText inner.rest).extend inner.taken
      | none => if endsValue c then ⟨[], c :: rest⟩ else (valueText rest).extend [c]
termination_by t => t.length
decreasing_by
  · exact Cut.rest_length_lt (whole_of_enclosed? _h) (taken_of_enclosed? _h)
  · simp

def value? : Text → Option Cut
  | ':' :: rest => some ((valueText rest).extend [':'])
  | _ => none

/-- The rest of a prelude: up to the opening brace, with no other brace or semicolon before it
outside strings. -/
def preludeTail : Text → Option Cut
  | [] => none
  | c :: rest =>
      if c = '{' then some ⟨[], c :: rest⟩
      else
        match _h : quoted? (c :: rest) with
        | some string => (preludeTail string.rest).map (Cut.extend string.taken)
        | none => if endsValue c then none else (preludeTail rest).map (Cut.extend [c])
termination_by t => t.length
decreasing_by
  · exact Cut.rest_length_lt (whole_of_quoted? _h) (taken_of_quoted? _h)
  · simp

def prelude? : Text → Option Cut
  | [] => none
  | c :: rest =>
      if isBlank c || endsValue c || c = '/' then none
      else (preludeTail rest).map (Cut.extend [c])

mutual

/-- The rest of a statement without a block: up to its semicolon, with no brace or other
semicolon before it that nothing encloses. -/
def statementTail : Text → Option Cut
  | [] => none
  | '/' :: '*' :: inside => (commentTail inside).map (Cut.extend ['/', '*'])
  | c :: rest =>
      if c = ';' then some ⟨[], c :: rest⟩
      else
        match _h : stringOrGroup? (c :: rest) with
        | some inner => (statementTail inner.rest).map (Cut.extend inner.taken)
        | none =>
            if endsValue c || c = '(' then none
            else (statementTail rest).map (Cut.extend [c])
termination_by t => t.length
decreasing_by
  · simp only [List.length_cons]
    omega
  · exact Cut.rest_length_lt (whole_of_stringOrGroup? _h) (taken_of_stringOrGroup? _h)
  · simp

/-- The rest of a statement from within a comment. The comment ends where it first can; only if
the statement cannot be read on from there does it reach to a later end. -/
def commentTail : Text → Option Cut
  | [] => none
  | '*' :: '/' :: rest =>
      match statementTail rest with
      | some tail => some (tail.extend ['*', '/'])
      | none => (commentTail ('/' :: rest)).map (Cut.extend ['*'])
  | c :: rest => (commentTail rest).map (Cut.extend [c])
termination_by t => t.length

end

def statement? : Text → Option Cut
  | '@' :: rest => (statementTail rest).map (Cut.extend ['@'])
  | _ => none

def endsProperty (c : Char) : Bool := c == ';' || c == ':' || isBrace c

/-- The rest of a property name: up to the next character that cannot belong to it, without the
blanks before that one. -/
def propertyTail (t : Text) : Cut :=
  let name := Text.trimRight (t.takeWhile fun c => !endsProperty c)
  ⟨name, t.drop name.length⟩

/-- A property name, if a colon is what ends it. -/
def property? : Text → Option Cut
  | [] => none
  | c :: rest =>
      if isBlank c || endsProperty c || c = '/' then none
      else if (rest.dropWhile fun d => !endsProperty d).head? = some ':' then
        some ((propertyTail rest).extend [c])
      else none

def mark? (mark : Char) : Text → Option Cut
  | [] => none
  | c :: rest => if c = mark then some ⟨[c], rest⟩ else none

theorem whole_layout (t : Text) : (layout t).whole = t := by
  fun_induction layout t with
  | case1 => rfl
  | case2 c rest _ ih => simp [ih]
  | case3 c rest _ comment h ih => rw [Cut.whole_extend_taken ih, whole_of_comment? h]
  | case4 => rfl

theorem whole_valueText (t : Text) : (valueText t).whole = t := by
  fun_induction valueText t with
  | case1 => rfl
  | case2 c rest inner h ih => rw [Cut.whole_extend_taken ih, whole_of_enclosed? h]
  | case3 => rfl
  | case4 c rest _ _ ih => simp [ih]

theorem whole_of_value? {t : Text} {c : Cut} (h : value? t = some c) : c.whole = t := by
  unfold value? at h
  split at h
  · obtain rfl := Option.some.inj h
    simp [whole_valueText]
  · simp at h

theorem whole_of_preludeTail {t : Text} {c : Cut} (h : preludeTail t = some c) :
    c.whole = t := by
  fun_induction preludeTail t generalizing c with
  | case1 => simp at h
  | case2 => obtain rfl := Option.some.inj h; rfl
  | case3 d rest _ string hs ih =>
      obtain ⟨e, he, rfl⟩ := Option.map_eq_some_iff.1 h
      rw [Cut.whole_extend_taken (ih he), whole_of_quoted? hs]
  | case4 => simp at h
  | case5 d rest _ _ _ ih =>
      obtain ⟨e, he, rfl⟩ := Option.map_eq_some_iff.1 h
      simp [ih he]

theorem whole_of_prelude? {t : Text} {c : Cut} (h : prelude? t = some c) : c.whole = t := by
  unfold prelude? at h
  split at h
  · simp at h
  · split at h
    · simp at h
    · obtain ⟨e, he, rfl⟩ := Option.map_eq_some_iff.1 h
      simp [whole_of_preludeTail he]

theorem whole_of_tails :
    (∀ t c, statementTail t = some c → c.whole = t) ∧
      (∀ t c, commentTail t = some c → c.whole = t) := by
  apply statementTail.mutual_induct
    (fun t => ∀ c, statementTail t = some c → c.whole = t)
    (fun t => ∀ c, commentTail t = some c → c.whole = t)
  · simp [statementTail]
  · intro inside ih c h
    rw [statementTail] at h
    obtain ⟨e, he, rfl⟩ := Option.map_eq_some_iff.1 h
    simp [ih e he]
  · intro rest hne c h
    rw [statementTail, if_pos rfl] at h
    · obtain rfl := Option.some.inj h
      rfl
    · exact hne
  · intro d rest hne hd inner hi ih c h
    rw [statementTail, if_neg hd] at h
    · split at h
      · rename_i other ho
        obtain rfl : inner = other := Option.some.inj (hi.symm.trans ho)
        obtain ⟨e, he, rfl⟩ := Option.map_eq_some_iff.1 h
        rw [Cut.whole_extend_taken (ih e he), whole_of_stringOrGroup? hi]
      · simp_all
    · exact hne
  · intro d rest hne hd hi hends c h
    rw [statementTail, if_neg hd] at h
    · split at h <;> simp_all
    · exact hne
  · intro d rest hne hd hi hends ih c h
    rw [statementTail, if_neg hd] at h
    · split at h
      · simp_all
      · rw [if_neg hends] at h
        obtain ⟨e, he, rfl⟩ := Option.map_eq_some_iff.1 h
        simp [ih e he]
    · exact hne
  · simp [commentTail]
  · intro rest tail ht ih c h
    rw [commentTail, ht] at h
    obtain rfl := Option.some.inj h
    simp [ih tail ht]
  · intro rest ht _ ih c h
    rw [commentTail, ht] at h
    obtain ⟨e, he, rfl⟩ := Option.map_eq_some_iff.1 h
    simp [ih e he]
  · intro d rest hne ih c h
    rw [commentTail] at h
    · obtain ⟨e, he, rfl⟩ := Option.map_eq_some_iff.1 h
      simp [ih e he]
    · exact hne

theorem whole_of_statement? {t : Text} {c : Cut} (h : statement? t = some c) : c.whole = t := by
  unfold statement? at h
  split at h
  · obtain ⟨e, he, rfl⟩ := Option.map_eq_some_iff.1 h
    simp [whole_of_tails.1 _ e he]
  · simp at h

theorem whole_propertyTail (t : Text) : (propertyTail t).whole = t := by
  have cut : ∃ rest, t = Text.trimRight (t.takeWhile fun c => !endsProperty c) ++ rest := by
    refine ⟨((t.takeWhile fun c => !endsProperty c).reverse.takeWhile isBlank).reverse ++
      t.dropWhile fun c => !endsProperty c, ?_⟩
    rw [← List.append_assoc, Text.trimRight_append, List.takeWhile_append_dropWhile]
  obtain ⟨rest, h⟩ := cut
  unfold propertyTail
  generalize Text.trimRight (t.takeWhile fun c => !endsProperty c) = name at h
  simp [h]

theorem whole_of_property? {t : Text} {c : Cut} (h : property? t = some c) : c.whole = t := by
  unfold property? at h
  split at h
  · simp at h
  · split at h
    · simp at h
    · split at h
      · obtain rfl := Option.some.inj h
        simp [whole_propertyTail]
      · simp at h

theorem whole_of_mark? {mark : Char} {t : Text} {c : Cut} (h : mark? mark t = some c) :
    c.whole = t := by
  unfold mark? at h
  split at h
  · simp at h
  · split at h
    · obtain rfl := Option.some.inj h
      rfl
    · simp at h

theorem taken_of_value? {t : Text} {c : Cut} (h : value? t = some c) : c.taken ≠ [] := by
  unfold value? at h
  split at h
  · obtain rfl := Option.some.inj h
    simp
  · simp at h

theorem taken_of_prelude? {t : Text} {c : Cut} (h : prelude? t = some c) : c.taken ≠ [] := by
  unfold prelude? at h
  split at h
  · simp at h
  · split at h
    · simp at h
    · obtain ⟨e, _, rfl⟩ := Option.map_eq_some_iff.1 h
      simp

theorem taken_of_statement? {t : Text} {c : Cut} (h : statement? t = some c) :
    c.taken ≠ [] := by
  unfold statement? at h
  split at h
  · obtain ⟨e, _, rfl⟩ := Option.map_eq_some_iff.1 h
    simp
  · simp at h

theorem taken_of_property? {t : Text} {c : Cut} (h : property? t = some c) : c.taken ≠ [] := by
  unfold property? at h
  split at h
  · simp at h
  · split at h
    · simp at h
    · split at h
      · obtain rfl := Option.some.inj h
        simp
      · simp at h

theorem taken_of_mark? {mark : Char} {t : Text} {c : Cut} (h : mark? mark t = some c) :
    c.taken ≠ [] := by
  unfold mark? at h
  split at h
  · simp at h
  · split at h
    · obtain rfl := Option.some.inj h
      simp
    · simp at h

end CustomProperties
