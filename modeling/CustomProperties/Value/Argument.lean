import CustomProperties.Text.Lexeme

/-!
The argument text of a call: everything up to the parenthesis that closes it. Strings and comments
are read whole, and every parenthesis that opens within the argument closes within it. The first
comma that no inner parentheses enclose divides the argument.
-/

namespace CustomProperties

/-- The text up to the parenthesis that closes a call, and the text behind that parenthesis. Inside
the call `depth` more parentheses are open. -/
def closeCall (depth : Nat) : Text → Option Cut
  | [] => none
  | c :: rest =>
      match _h : literal? (c :: rest) with
      | some inner => (closeCall depth inner.rest).map (Cut.extend inner.taken)
      | none =>
          if startsLiteral (c :: rest) then none
          else if c = '(' then (closeCall (depth + 1) rest).map (Cut.extend [c])
          else if c = ')' then
            match depth with
            | 0 => some ⟨[], rest⟩
            | depth + 1 => (closeCall depth rest).map (Cut.extend [c])
          else (closeCall depth rest).map (Cut.extend [c])
termination_by t => t.length
decreasing_by
  · exact rest_of_literal? _h
  all_goals simp

theorem of_closeCall {depth : Nat} {t : Text} {c : Cut} (h : closeCall depth t = some c) :
    c.taken ++ ')' :: c.rest = t := by
  fun_induction closeCall depth t generalizing c with
  | case1 => simp at h
  | case2 depth d rest inner hi ih =>
      obtain ⟨e, he, rfl⟩ := Option.map_eq_some_iff.1 h
      rw [← whole_of_literal? hi]
      simp [Cut.whole, ih he]
  | case3 => simp at h
  | case4 depth rest _ _ ih =>
      obtain ⟨e, he, rfl⟩ := Option.map_eq_some_iff.1 h
      simp [ih he]
  | case5 rest _ _ =>
      obtain rfl := Option.some.inj h
      simp
  | case6 rest _ _ _ depth ih =>
      obtain ⟨e, he, rfl⟩ := Option.map_eq_some_iff.1 h
      simp [ih he]
  | case7 depth d rest _ _ _ _ ih =>
      obtain ⟨e, he, rfl⟩ := Option.map_eq_some_iff.1 h
      simp [ih he]

def depthBehind (depth : Nat) (c : Char) : Nat :=
  if c = '(' then depth + 1 else if c = ')' then depth - 1 else depth

/-- The text before the first comma at the depth zero, and the text behind it if there is one. -/
def splitArgument (depth : Nat) : Text → Text × Option Text
  | [] => ([], none)
  | c :: rest =>
      match _h : literal? (c :: rest) with
      | some inner =>
          let (before, behind) := splitArgument depth inner.rest
          (inner.taken ++ before, behind)
      | none =>
          if c = ',' ∧ depth = 0 then ([], some rest)
          else
            let (before, behind) := splitArgument (depthBehind depth c) rest
            (c :: before, behind)
termination_by t => t.length
decreasing_by
  · exact rest_of_literal? _h
  · simp

def joinArgument (before : Text) : Option Text → Text
  | none => before
  | some behind => before ++ ',' :: behind

end CustomProperties
