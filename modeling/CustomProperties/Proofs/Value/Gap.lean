import CustomProperties.Proofs.Value.Rewriting
import CustomProperties.Proofs.Value.Word

/-!
The parts of a value. Scanned by itself, a reference is that one reference, and the text before the
first, between two, or behind the last holds none. The scan looks ahead for the parenthesis that
closes a call, so a part may see another end of its call than the value does, or none at all. A call
that closes within a part closes there in the value too, and one that closes in the value only is
open in the part, where it makes the rest plain text.
-/

namespace CustomProperties

section Alone

variable {previous : Option Char} {t u : Text}

theorem closeCall_append_of_closeCall {call : Cut} (h : closeCall 0 t = some call) (u : Text) :
    closeCall 0 (t ++ u) = some ⟨call.taken, call.rest ++ u⟩ := by
  obtain ⟨text, closed⟩ := closeCall_eq_some_iff.1 h
  exact closeCall_eq_some_iff.2 ⟨by rw [text]; simp, closed⟩

theorem call?_of_append (h : call? previous (t ++ u) = none) : call? previous t = none := by
  cases found : call? previous t with
  | none => rfl
  | some word =>
      obtain ⟨free, key, text⟩ := call?_eq_some_iff.1 found
      have longer : call? previous (t ++ u) = some ⟨word.taken, word.rest ++ u⟩ :=
        call?_eq_some_iff.2 ⟨free, key, by rw [text]; simp⟩
      simp [h] at longer

/-- Of the character before a text only matters whether it makes a name longer. -/
theorem dissectFrom_congr {previous' : Option Char}
    (same : previous.any continuesName = previous'.any continuesName) (t : Text) :
    dissectFrom previous t = dissectFrom previous' t := by
  have call : call? previous = call? previous' := by
    funext t
    rw [call?, call?, same]
  cases t with
  | nil => rw [dissectFrom, dissectFrom]
  | cons c t =>
      cases hl : literal? (c :: t) with
      | some l => rw [dissectFrom_literal hl, dissectFrom_literal hl]
      | none =>
          cases plain : startsLiteral (c :: t) with
          | true => rw [dissectFrom_open hl (.inl plain), dissectFrom_open hl (.inl plain)]
          | false =>
              cases hw : call? previous (c :: t) with
              | none => rw [dissectFrom_plain plain hw, dissectFrom_plain plain (call ▸ hw)]
              | some word =>
                  cases hc : closeCall 0 word.rest with
                  | none =>
                      rw [dissectFrom_open hl (.inr ⟨word, hw, hc⟩),
                        dissectFrom_open hl (.inr ⟨word, call ▸ hw, hc⟩)]
                  | some cut =>
                      obtain ⟨free, key, text⟩ := call?_eq_some_iff.1 hw
                      rw [text, dissectFrom_call free key hc, dissectFrom_call (same ▸ free) key hc]

theorem dissectFrom_unclosed {word : Text} (free : previous.any continuesName = false)
    (key : IsKeyword word) (unclosed : closeCall 0 t = none) :
    dissectFrom previous (word ++ '(' :: t) = ⟨word ++ '(' :: t, []⟩ := by
  have call : call? previous (word ++ '(' :: t) = some ⟨word, t⟩ :=
    call?_eq_some_iff.2 ⟨free, key, rfl⟩
  obtain ⟨v, a, r, rfl, letters⟩ := key.letters
  have plain := (letter_plain (letters v (List.mem_cons_self ..))).1 (a :: r :: '(' :: t)
  exact dissectFrom_open (literal?_eq_none plain) (.inr ⟨_, call, unclosed⟩)

theorem before_prefix (previous : Option Char) (t : Text) :
    (dissectFrom previous t).before <+: t :=
  ⟨_, render_dissectFrom previous t⟩

theorem dissectFrom_before (previous : Option Char) (t : Text) :
    dissectFrom previous (dissectFrom previous t).before =
      ⟨(dissectFrom previous t).before, []⟩ := by
  fun_induction dissectFrom previous t with
  | case1 => rw [dissectFrom]
  | case2 previous c rest inner hi ih =>
      show dissectFrom previous (inner.taken ++ _) = _
      rw [dissectFrom_literal (literal?_append hi _), ih]
      rfl
  | case3 previous c rest hl starts => exact dissectFrom_open hl (.inl starts)
  | case4 previous c rest hl plain other ih =>
      show dissectFrom previous (c :: (dissectFrom (some c) rest).before) = _
      obtain ⟨more, text⟩ := before_prefix (some c) rest
      have plain' : startsLiteral (c :: (dissectFrom (some c) rest).before) = false :=
        startsLiteral_of_append (by rw [text]; simpa using plain)
      have other' : call? previous (c :: (dissectFrom (some c) rest).before) = none :=
        call?_of_append (by rw [List.cons_append, text]; exact other)
      rw [dissectFrom_plain plain' other', ih]
      rfl
  | case5 previous c rest hl plain word hw hc => exact dissectFrom_open hl (.inr ⟨word, hw, hc⟩)
  | case6 previous c rest hl plain word hw call hc r custom ih =>
      show dissectFrom previous [] = _
      rw [dissectFrom]
      rfl
  | case7 previous c rest hl plain word hw call hc r other ih =>
      obtain ⟨free, key, -⟩ := call?_eq_some_iff.1 hw
      obtain ⟨more, text⟩ := before_prefix (some '(') word.rest
      show dissectFrom previous (word.taken ++ ['('] ++ _) = ⟨word.taken ++ ['('] ++ _, []⟩
      rw [List.append_assoc, List.singleton_append]
      cases hc' : closeCall 0 (dissectFrom (some '(') word.rest).before with
      | none => exact dissectFrom_unclosed free key hc'
      | some call' =>
          -- The call closes before the first reference, so it is the call of the value.
          have same := closeCall_append_of_closeCall hc' more
          rw [text, hc] at same
          have taken : call'.taken = call.taken := (congrArg Cut.taken (Option.some.inj same)).symm
          rw [dissectFrom_call free key hc', taken, if_neg (by simpa using other), ih]
          simp [Dissection.extend]

theorem dissectFrom_behind (previous : Option Char) (t : Text) :
    ∀ pair ∈ (dissectFrom previous t).references,
      dissectFrom (some ')') pair.2 = ⟨pair.2, []⟩ := by
  fun_induction dissectFrom previous t with
  | case1 => simp
  | case2 previous c rest inner hi ih => exact ih
  | case3 => simp
  | case4 previous c rest hl plain other ih => exact ih
  | case5 => simp
  | case6 previous c rest hl plain word hw call hc r custom ih =>
      exact List.forall_mem_cons.2 ⟨dissectFrom_before (some ')') call.rest, ih⟩
  | case7 previous c rest hl plain word hw call hc r other ih => exact ih

theorem locatedReferences_of_dissectFrom {gap : Text}
    (free : previous.any continuesName = false) (h : dissectFrom previous gap = ⟨gap, []⟩) :
    locatedReferences gap = [] := by
  have alone : dissect gap = ⟨gap, []⟩ :=
    (dissectFrom_congr (by simpa using free.symm) gap).trans h
  rw [locatedReferences, alone]
  rfl

theorem Reference.Whole.locatedReferences_text {r : Reference} (h : r.Whole) :
    locatedReferences r.text = [(0, r)] := by
  have alone : dissect (r.text ++ []) = (dissectFrom (some ')') []).precede r :=
    h.dissectFrom_text rfl []
  rw [List.append_nil, dissectFrom] at alone
  rw [locatedReferences, alone]
  rfl

end Alone

/-- The stretches of a value that lie before, between and behind references. -/
def gapsBetween (value : Text) (here : Nat) : List (Nat × Reference) → List Text
  | [] => [value.drop here]
  | (start, r) :: rest => value.extract here start :: gapsBetween value (start + r.text.length) rest

section Places

variable {previous : Option Char} {t : Text}

theorem gaps_locate (front before : Text) (refs : List (Reference × Text)) :
    gapsBetween (front ++ Dissection.render ⟨before, refs⟩) front.length
        (locate (front.length + before.length) refs) =
      before :: refs.map Prod.snd := by
  induction refs generalizing front before with
  | nil => simp [locate, gapsBetween]
  | cons pair refs ih =>
      obtain ⟨r, behind⟩ := pair
      have later := ih (front ++ before ++ r.text) behind
      simp only [List.length_append, List.append_assoc] at later
      rw [Dissection.render_cons, locate, gapsBetween]
      simp only [List.map_cons, List.cons.injEq]
      refine ⟨?_, ?_⟩
      · rw [List.extract_eq_take_drop, List.drop_left, Nat.add_sub_cancel_left, List.take_left]
      · rw [← later]
        simp only [Nat.add_assoc]

theorem gaps_locatedReferences (value : Text) :
    gapsBetween value 0 (locatedReferences value) =
      (dissect value).before :: (dissect value).references.map Prod.snd := by
  have whole : [] ++ Dissection.render ⟨(dissect value).before, (dissect value).references⟩ =
      value := render_dissect value
  have texts := gaps_locate [] (dissect value).before (dissect value).references
  rwa [whole, List.length_nil, Nat.zero_add] at texts

theorem pairwise_locate (start : Nat) (refs : List (Reference × Text)) :
    (locate start refs).Pairwise (fun a b => a.1 + a.2.text.length ≤ b.1) ∧
      ∀ pair ∈ locate start refs, start ≤ pair.1 := by
  induction refs generalizing start with
  | nil => simp [locate]
  | cons pair refs ih =>
      obtain ⟨r, behind⟩ := pair
      obtain ⟨apart, later⟩ := ih (start + r.text.length + behind.length)
      refine ⟨List.pairwise_cons.2 ⟨fun b hb => ?_, apart⟩,
        List.forall_mem_cons.2 ⟨le_rfl, fun b hb => ?_⟩⟩
      · exact (Nat.le_add_right _ _).trans (later b hb)
      · have := later b hb
        omega

/-- A reference stands in a value at its offset, and no character before it makes the name of the
function longer. -/
theorem place_of_dissectFrom (value : Text) (previous : Option Char) (t : Text) :
    ∀ (front : Text) (here : Nat), front ++ t = value → previous = front.getLast? →
      front.length + (dissectFrom previous t).before.length = here →
      ∀ pair ∈ locate here (dissectFrom previous t).references,
        ∃ a b, value = a ++ (pair.2.text ++ b) ∧ pair.1 = a.length ∧
          a.getLast?.any continuesName = false := by
  fun_induction dissectFrom previous t with
  | case1 => simp [locate]
  | case2 previous c rest inner hi ih =>
      intro front here whole before width
      have text : inner.taken ++ inner.rest = c :: rest := whole_of_literal? hi
      refine ih (front ++ inner.taken) here (by rw [List.append_assoc, text, whole]) ?_ ?_
      · rw [List.getLast?_append_of_ne_nil _ (taken_of_literal? hi)]
      · simpa [Dissection.extend, Nat.add_assoc] using width
  | case3 => simp [locate]
  | case4 previous c rest hl plain other ih =>
      intro front here whole before width
      refine ih (front ++ [c]) here (by simpa using whole) (by simp) ?_
      simpa [Dissection.extend, Nat.add_assoc, Nat.add_comm] using width
  | case5 => simp [locate]
  | case6 previous c rest hl plain word hw call hc r custom ih =>
      intro front here whole before width
      obtain ⟨free, -, -⟩ := call?_eq_some_iff.1 hw
      have text := text_of_call hw hc
      obtain rfl : front.length = here := width
      refine List.forall_mem_cons.2 ⟨?_, ?_⟩
      · exact ⟨front, call.rest, by rw [← whole, text], rfl, before ▸ free⟩
      · refine ih (front ++ r.text) _ (by rw [← whole, text, List.append_assoc]) ?_ (by simp)
        rw [Reference.text, ← List.append_assoc, List.getLast?_concat]
  | case7 previous c rest hl plain word hw call hc r other ih =>
      intro front here whole before width
      obtain ⟨-, -, text⟩ := call?_eq_some_iff.1 hw
      refine ih (front ++ (word.taken ++ ['('])) here (by rw [← whole, text]; simp) (by simp) ?_
      simpa [Dissection.extend, Nat.add_assoc, Nat.add_comm] using width

end Places

/-- What a reference is to the value that holds it at the offset `start`, and what it is by
itself. -/
structure Reference.Stands (r : Reference) (value : Text) (start : Nat) : Prop where
  within : start + r.text.length ≤ value.length
  extract : value.extract start (start + r.text.length) = r.text
  free : (value.take start).getLast?.any continuesName = false
  opens : (r.text.take 4).map Char.toLower = "var(".toList
  closes : r.text.getLast? = some ')'
  stripped : Text.trim r.name = r.name
  custom : ['-', '-'] <+: r.name
  alone : locatedReferences r.text = [(0, r)]

theorem Reference.Whole.stands {r : Reference} (whole : r.Whole) {a b : Text}
    (free : a.getLast?.any continuesName = false) :
    r.Stands (a ++ (r.text ++ b)) a.length := by
  constructor
  case within => simp
  case extract =>
    rw [List.extract_eq_take_drop, List.drop_left, Nat.add_sub_cancel_left, List.take_left]
  case free => rwa [List.take_left]
  case opens =>
    have key : r.keyword.map Char.toLower = ['v', 'a', 'r'] := whole.keyword
    obtain ⟨v, a, r', letters, -⟩ := whole.keyword.letters
    rw [letters] at key
    simpa [Reference.text, letters] using key
  case closes => rw [Reference.text, List.getLast?_concat]
  case stripped => exact Text.trim_trim _
  case custom => exact List.isPrefixOf_iff_prefix.1 whole.custom
  case alone => exact whole.locatedReferences_text

/-- A value is made of its references and of gaps without references. The references stand one
behind the other at their offsets, each is a call of the function by name, and read by itself it is
the same reference; no gap, read by itself, holds a reference. -/
theorem locatedReferences_parts (value : Text) :
    (locatedReferences value).Pairwise (fun a b => a.1 + a.2.text.length ≤ b.1) ∧
      (∀ pair ∈ locatedReferences value, pair.2.Stands value pair.1) ∧
      ∀ gap ∈ gapsBetween value 0 (locatedReferences value), locatedReferences gap = [] := by
  refine ⟨(pairwise_locate _ _).1, ?_, ?_⟩
  · intro pair hp
    obtain ⟨ref, hr, same⟩ := List.mem_map.1 (mem_of_mem_locate hp)
    have whole : pair.2.Whole := same ▸ whole_of_dissectFrom none value ref hr
    obtain ⟨a, b, text, start, free⟩ :=
      place_of_dissectFrom value none value [] _ rfl rfl (Nat.zero_add _) pair hp
    rw [text, start]
    exact whole.stands free
  · intro gap hg
    rw [gaps_locatedReferences] at hg
    rcases List.mem_cons.1 hg with rfl | hg
    · exact locatedReferences_of_dissectFrom rfl (dissectFrom_before none value)
    · obtain ⟨ref, hr, rfl⟩ := List.mem_map.1 hg
      exact locatedReferences_of_dissectFrom (by decide) (dissectFrom_behind none value ref hr)

/-- A gap may hold the front of a call that encloses the next reference, and an open call behind. -/
theorem locatedReferences_parts_enclosed :
    let value := "var(x,var(--a) Var( --b,f(1,2) ')')) var(--c".toList
    let found : List (Nat × Reference) :=
      [(6, ⟨"var".toList, "--a".toList, none⟩),
        (15, ⟨"Var".toList, " --b".toList, some "f(1,2) ')'".toList⟩)]
    locatedReferences value = found ∧ (∀ pair ∈ found, pair.2.Stands value pair.1) ∧
      gapsBetween value 0 found = ["var(x,".toList, " ".toList, ") var(--c".toList] ∧
      ∀ gap ∈ gapsBetween value 0 found, locatedReferences gap = [] := by
  intro value found
  have located : locatedReferences value = found := by decide +kernel
  obtain ⟨-, stands, gaps⟩ := locatedReferences_parts value
  rw [located] at stands gaps
  exact ⟨located, stands, by decide +kernel, gaps⟩

end CustomProperties
