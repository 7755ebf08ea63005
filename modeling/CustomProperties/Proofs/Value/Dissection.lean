import Mathlib.Data.List.Basic
import CustomProperties.Value.Reference

/-!
Dividing a value loses nothing: the references and the text around them, put together again, are
the value.
-/

namespace CustomProperties

theorem joinArgument_append (front before : Text) (behind : Option Text) :
    joinArgument (front ++ before) behind = front ++ joinArgument before behind := by
  cases behind <;> simp [joinArgument]

theorem joinArgument_splitArgument (depth : Nat) (t : Text) :
    joinArgument (splitArgument depth t).1 (splitArgument depth t).2 = t := by
  fun_induction splitArgument depth t with
  | case1 => rfl
  | case2 depth c rest inner h before behind hs ih =>
      rw [hs] at ih
      simp only at ih ⊢
      rw [joinArgument_append, ih, ← whole_of_literal? h]
      rfl
  | case3 depth c rest h hc => simp [joinArgument, hc.1]
  | case4 depth c rest h hc before behind hs ih =>
      rw [hs] at ih
      show joinArgument ([c] ++ before) behind = [c] ++ rest
      rw [joinArgument_append, ih]

def IsKeyword (word : Text) : Prop := word.map Char.toLower = ['v', 'a', 'r']

theorem IsKeyword.length {word : Text} (h : IsKeyword word) : word.length = 3 := by
  simpa using congrArg List.length h

theorem keyword?_eq_some_iff {t : Text} {word : Cut} :
    keyword? t = some word ↔ IsKeyword word.taken ∧ t = word.taken ++ '(' :: word.rest := by
  constructor
  · intro h
    unfold keyword? at h
    split at h
    · split at h
      · rename_i letters
        obtain rfl := Option.some.inj h
        exact ⟨letters, rfl⟩
      · simp at h
    · simp at h
  · rintro ⟨key, rfl⟩
    obtain ⟨v, a, r, letters⟩ := List.length_eq_three.1 key.length
    obtain ⟨taken, rest⟩ := word
    obtain rfl : taken = [v, a, r] := letters
    exact if_pos key

theorem call?_eq_some_iff {previous : Option Char} {t : Text} {word : Cut} :
    call? previous t = some word ↔ previous.any continuesName = false ∧
      IsKeyword word.taken ∧ t = word.taken ++ '(' :: word.rest := by
  rw [call?, ← keyword?_eq_some_iff]
  cases previous.any continuesName <;> simp

namespace Reference

theorem text_ofCall (keyword argument : Text) :
    (ofCall keyword argument).text = keyword ++ '(' :: argument ++ [')'] := by
  simp [ofCall, text, joinArgument_splitArgument]

end Reference

namespace Dissection

@[simp] theorem render_extend (front : Text) (d : Dissection) :
    (d.extend front).render = front ++ d.render := by
  simp [render, replace, extend]

@[simp] theorem render_precede (r : Reference) (d : Dissection) :
    (d.precede r).render = r.text ++ d.render := by
  simp [render, replace, precede]

end Dissection

theorem render_dissectFrom (previous : Option Char) (t : Text) :
    (dissectFrom previous t).render = t := by
  fun_induction dissectFrom previous t with
  | case1 => rfl
  | case2 previous c rest inner h ih =>
      rw [Dissection.render_extend, ih, ← whole_of_literal? h]
      rfl
  | case3 => simp [Dissection.render, Dissection.replace]
  | case4 previous c rest _ _ _ ih => simp [ih]
  | case5 => simp [Dissection.render, Dissection.replace]
  | case6 previous c rest _ _ word hw call hc r _ ih =>
      obtain ⟨-, -, whole⟩ := call?_eq_some_iff.1 hw
      rw [Dissection.render_precede, ih, Reference.text_ofCall, whole, ← of_closeCall hc]
      simp
  | case7 previous c rest _ _ word hw call hc r _ ih =>
      obtain ⟨-, -, whole⟩ := call?_eq_some_iff.1 hw
      rw [Dissection.render_extend, ih, whole]
      simp

theorem render_dissect (value : Text) : (dissect value).render = value :=
  render_dissectFrom none value

theorem mem_of_mem_locate {start : Nat} {refs : List (Reference × Text)} {pair : Nat × Reference}
    (h : pair ∈ locate start refs) : pair.2 ∈ refs.map Prod.fst := by
  induction refs generalizing start with
  | nil => simp [locate] at h
  | cons ref refs ih =>
      rcases List.mem_cons.1 h with rfl | h
      · exact List.mem_cons_self ..
      · exact List.mem_cons_of_mem _ (ih h)

end CustomProperties
