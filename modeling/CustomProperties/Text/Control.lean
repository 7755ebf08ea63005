import CustomProperties.Text.Basic

/-!
Control sequences of terminals. A sequence starts with an escape character and an opening bracket;
parameters and intermediate characters may follow, and one final character ends it. A text that is
not for a terminal is written without them.
-/

namespace CustomProperties

def isEscape (c : Char) : Bool := c.toNat == 0x1B

def isParameter (c : Char) : Bool := '0' ≤ c && c ≤ '?'

def isIntermediate (c : Char) : Bool := ' ' ≤ c && c ≤ '/'

def isFinal (c : Char) : Bool := '@' ≤ c && c ≤ '~'

/-- What follows the parameters, the intermediate characters and the final one. -/
def closeControl (t : Text) : Option Text :=
  match (t.dropWhile isParameter).dropWhile isIntermediate with
  | c :: rest => if isFinal c then some rest else none
  | [] => none

def control? : Text → Option Text
  | c :: '[' :: rest => if isEscape c then closeControl rest else none
  | _ => none

theorem length_of_closeControl {t rest : Text} (h : closeControl t = some rest) :
    rest.length < t.length := by
  have shorter : ((t.dropWhile isParameter).dropWhile isIntermediate).length ≤ t.length :=
    Nat.le_trans (List.dropWhile_sublist _).length_le (List.dropWhile_sublist _).length_le
  unfold closeControl at h
  split at h
  · rename_i c behind found
    split at h
    · obtain rfl := Option.some.inj h
      rw [found] at shorter
      exact shorter
    · simp at h
  · simp at h

theorem length_of_control? {t rest : Text} (h : control? t = some rest) :
    rest.length < t.length := by
  unfold control? at h
  split at h
  · split at h
    · have := length_of_closeControl h
      simp only [List.length_cons]
      omega
    · simp at h
  · simp at h

def Text.withoutControls : Text → Text
  | [] => []
  | c :: rest =>
      match _h : control? (c :: rest) with
      | some behind => withoutControls behind
      | none => c :: withoutControls rest
termination_by t => t.length
decreasing_by
  · exact length_of_control? _h
  · simp

end CustomProperties
