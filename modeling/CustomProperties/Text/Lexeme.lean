import CustomProperties.Text.Basic

/-!
The lexemes that stylesheets and values share: quoted strings, comments, and groups in
parentheses. Each recogniser answers with the cut behind the lexeme, or with nothing when the
text does not start with a complete one. A cut divides the text it was given, and a lexeme has
at least one character, so that reading a lexeme gets nearer to the end of the text.
-/

namespace CustomProperties

def isQuote (c : Char) : Bool := c == '"' || c == '\''

/-- The rest of a string: up to the first `quote` that no backslash stands before. A backslash
takes the character behind it along. -/
def closeQuote (quote : Char) : Text → Option Cut
  | [] => none
  | '\\' :: c :: rest => (closeQuote quote rest).map (Cut.extend ['\\', c])
  | c :: rest =>
      if c = quote then some ⟨[c], rest⟩ else (closeQuote quote rest).map (Cut.extend [c])

/-- The rest of a comment: up to the first star with a slash behind it. -/
def closeComment : Text → Option Cut
  | [] => none
  | '*' :: '/' :: rest => some ⟨['*', '/'], rest⟩
  | c :: rest => (closeComment rest).map (Cut.extend [c])

def quoted? : Text → Option Cut
  | [] => none
  | c :: rest => if isQuote c then (closeQuote c rest).map (Cut.extend [c]) else none

def comment? : Text → Option Cut
  | '/' :: '*' :: rest => (closeComment rest).map (Cut.extend ['/', '*'])
  | _ => none

theorem whole_of_closeQuote {quote : Char} {t : Text} {c : Cut}
    (h : closeQuote quote t = some c) : c.whole = t := by
  fun_induction closeQuote quote t generalizing c with
  | case1 => simp at h
  | case2 d rest ih =>
      obtain ⟨e, he, rfl⟩ := Option.map_eq_some_iff.1 h
      simp [ih he]
  | case3 rest => simp at h; subst h; simp
  | case4 d rest _ _ ih =>
      obtain ⟨e, he, rfl⟩ := Option.map_eq_some_iff.1 h
      simp [ih he]

theorem whole_of_closeComment {t : Text} {c : Cut} (h : closeComment t = some c) :
    c.whole = t := by
  fun_induction closeComment t generalizing c with
  | case1 => simp at h
  | case2 rest => simp at h; subst h; simp
  | case3 d rest _ ih =>
      obtain ⟨e, he, rfl⟩ := Option.map_eq_some_iff.1 h
      simp [ih he]

theorem whole_of_quoted? {t : Text} {c : Cut} (h : quoted? t = some c) : c.whole = t := by
  unfold quoted? at h
  split at h
  · simp at h
  · split at h
    · obtain ⟨e, he, rfl⟩ := Option.map_eq_some_iff.1 h
      simp [whole_of_closeQuote he]
    · simp at h

theorem taken_of_quoted? {t : Text} {c : Cut} (h : quoted? t = some c) : c.taken ≠ [] := by
  unfold quoted? at h
  split at h
  · simp at h
  · split at h
    · obtain ⟨e, _, rfl⟩ := Option.map_eq_some_iff.1 h
      simp
    · simp at h

theorem whole_of_comment? {t : Text} {c : Cut} (h : comment? t = some c) : c.whole = t := by
  unfold comment? at h
  split at h
  · obtain ⟨e, he, rfl⟩ := Option.map_eq_some_iff.1 h
    simp [whole_of_closeComment he]
  · simp at h

theorem taken_of_comment? {t : Text} {c : Cut} (h : comment? t = some c) : c.taken ≠ [] := by
  unfold comment? at h
  split at h
  · obtain ⟨e, _, rfl⟩ := Option.map_eq_some_iff.1 h
    simp
  · simp at h

theorem Cut.rest_length_lt {c : Cut} {t : Text} (whole : c.whole = t) (taken : c.taken ≠ []) :
    c.rest.length < t.length := by
  subst whole
  have := List.length_pos_iff.2 taken
  simp [Cut.whole]
  omega

theorem Cut.rest_length_le {c : Cut} {t : Text} (whole : c.whole = t) :
    c.rest.length ≤ t.length := by
  subst whole
  simp [Cut.whole]

def literal? (t : Text) : Option Cut := (quoted? t).or (comment? t)

/-- True of a text that starts like a string or comment, complete or not. -/
def startsLiteral (t : Text) : Bool :=
  t.head?.any isQuote || ['/', '*'].isPrefixOf t

theorem whole_of_literal? {t : Text} {c : Cut} (h : literal? t = some c) : c.whole = t := by
  rcases Option.or_eq_some_iff.1 h with h | ⟨_, h⟩
  · exact whole_of_quoted? h
  · exact whole_of_comment? h

theorem taken_of_literal? {t : Text} {c : Cut} (h : literal? t = some c) : c.taken ≠ [] := by
  rcases Option.or_eq_some_iff.1 h with h | ⟨_, h⟩
  · exact taken_of_quoted? h
  · exact taken_of_comment? h

theorem rest_of_literal? {t : Text} {c : Cut} (h : literal? t = some c) :
    c.rest.length < t.length :=
  Cut.rest_length_lt (whole_of_literal? h) (taken_of_literal? h)

/-- The rest of a flat group, which holds strings and no other parentheses: up to its closing
parenthesis. -/
def closeGroup : Text → Option Cut
  | [] => none
  | c :: rest =>
      if c = ')' then some ⟨[c], rest⟩
      else
        match _h : quoted? (c :: rest) with
        | some string => (closeGroup string.rest).map (Cut.extend string.taken)
        | none =>
            if c = '(' || isQuote c then none
            else (closeGroup rest).map (Cut.extend [c])
termination_by t => t.length
decreasing_by
  · exact Cut.rest_length_lt (whole_of_quoted? _h) (taken_of_quoted? _h)
  · simp

def group? : Text → Option Cut
  | '(' :: rest => (closeGroup rest).map (Cut.extend ['('])
  | _ => none

theorem whole_of_closeGroup {t : Text} {c : Cut} (h : closeGroup t = some c) : c.whole = t := by
  fun_induction closeGroup t generalizing c with
  | case1 => simp at h
  | case2 rest => simp at h; subst h; simp
  | case3 d rest _ string hs ih =>
      obtain ⟨e, he, rfl⟩ := Option.map_eq_some_iff.1 h
      rw [Cut.whole_extend_taken (ih he), whole_of_quoted? hs]
  | case4 => simp at h
  | case5 d rest _ _ _ ih =>
      obtain ⟨e, he, rfl⟩ := Option.map_eq_some_iff.1 h
      simp [ih he]

theorem whole_of_group? {t : Text} {c : Cut} (h : group? t = some c) : c.whole = t := by
  unfold group? at h
  split at h
  · obtain ⟨e, he, rfl⟩ := Option.map_eq_some_iff.1 h
    simp [whole_of_closeGroup he]
  · simp at h

theorem taken_of_group? {t : Text} {c : Cut} (h : group? t = some c) : c.taken ≠ [] := by
  unfold group? at h
  split at h
  · obtain ⟨e, _, rfl⟩ := Option.map_eq_some_iff.1 h
    simp
  · simp at h

end CustomProperties
