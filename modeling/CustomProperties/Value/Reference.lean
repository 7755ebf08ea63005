import CustomProperties.Text.Blank
import CustomProperties.Value.Argument

/-!
References to custom properties in a value. A value divides into its outermost references and the
text around them. A reference is a call whose argument starts with two dashes; a call with another
argument is searched for references inside. A call that never closes, a string and a comment that
never end make the rest of the value plain text.
-/

namespace CustomProperties

/-- A reference: the name of the function as the author spelled it, the text before the first
comma of the argument, and the text behind that comma. -/
structure Reference where
  keyword : Text
  argument : Text
  fallback : Option Text
deriving DecidableEq, Repr

namespace Reference

def name (r : Reference) : Text := Text.trim r.argument

def text (r : Reference) : Text :=
  r.keyword ++ '(' :: joinArgument r.argument r.fallback ++ [')']

/-- The fallback that the author gave, unless it is blank. -/
def ownFallback? (r : Reference) : Option Text :=
  (r.fallback.map Text.trim).filter (· ≠ [])

def ofCall (keyword argument : Text) : Reference :=
  let (argument, fallback) := splitArgument 0 argument
  ⟨keyword, argument, fallback⟩

def isCustom (r : Reference) : Bool := ['-', '-'].isPrefixOf r.name

end Reference

/-- A value by its references, each with the text behind it. -/
structure Dissection where
  before : Text
  references : List (Reference × Text)
deriving DecidableEq, Repr

namespace Dissection

def extend (front : Text) (d : Dissection) : Dissection := { d with before := front ++ d.before }

def precede (r : Reference) (d : Dissection) : Dissection := ⟨[], (r, d.before) :: d.references⟩

def replace (f : Reference → Text) (d : Dissection) : Text :=
  d.before ++ d.references.flatMap fun (r, behind) => f r ++ behind

def render (d : Dissection) : Text := d.replace Reference.text

end Dissection

def continuesName (c : Char) : Bool :=
  c.isAlphanum || c == '-' || c == '_' || 0x7F < c.toNat

/-- The name of the function, in any case, with its opening parenthesis behind it. -/
def keyword? : Text → Option Cut
  | v :: a :: r :: '(' :: rest =>
      if [v, a, r].map Char.toLower = ['v', 'a', 'r'] then some ⟨[v, a, r], rest⟩ else none
  | _ => none

theorem rest_of_keyword? {t : Text} {c : Cut} (h : keyword? t = some c) :
    c.rest.length < t.length := by
  unfold keyword? at h
  split at h
  · split at h
    · obtain rfl := Option.some.inj h
      simp
      omega
    · simp at h
  · simp at h

/-- A call of the function at the front, unless the character before it makes its name longer. -/
def call? (previous : Option Char) (t : Text) : Option Cut :=
  if previous.any continuesName then none else keyword? t

theorem rest_of_call? {previous : Option Char} {t : Text} {c : Cut}
    (h : call? previous t = some c) : c.rest.length < t.length := by
  unfold call? at h
  split at h
  · simp at h
  · exact rest_of_keyword? h

def dissectFrom (previous : Option Char) : Text → Dissection
  | [] => ⟨[], []⟩
  | c :: rest =>
      match _literal : literal? (c :: rest) with
      | some inner => (dissectFrom inner.taken.getLast? inner.rest).extend inner.taken
      | none =>
          if startsLiteral (c :: rest) then ⟨c :: rest, []⟩
          else
            match _call : call? previous (c :: rest) with
            | none => (dissectFrom (some c) rest).extend [c]
            | some word =>
                match _close : closeCall 0 word.rest with
                | none => ⟨c :: rest, []⟩
                | some call =>
                    let r := Reference.ofCall word.taken call.taken
                    if r.isCustom then (dissectFrom (some ')') call.rest).precede r
                    else (dissectFrom (some '(') word.rest).extend (word.taken ++ ['('])
termination_by t => t.length
decreasing_by
  · exact rest_of_literal? _literal
  · simp
  · have := rest_of_call? _call
    have := congrArg List.length (of_closeCall _close)
    simp at *
    omega
  · exact rest_of_call? _call

def dissect (value : Text) : Dissection := dissectFrom none value

def references (value : Text) : List Reference := (dissect value).references.map Prod.fst

def locate (start : Nat) : List (Reference × Text) → List (Nat × Reference)
  | [] => []
  | (r, behind) :: rest => (start, r) :: locate (start + r.text.length + behind.length) rest

def locatedReferences (value : Text) : List (Nat × Reference) :=
  let d := dissect value
  locate d.before.length d.references

/-- The names of the outermost references of a value. Names within a fallback do not count. -/
def referencedNames (value : Text) : List Text := (references value).map Reference.name

end CustomProperties
