import CustomProperties.Proofs.Sheet.Importance
import CustomProperties.Proofs.Sheet.Lexeme
import CustomProperties.Proofs.Value.Firm

/-!
The recognisers of tokens on firm texts. A value and a prelude are read through a firm text whatever
comes behind it. Flat groups are what this turns on: within a firm text a parenthesis starts a group
that ends within the text as well, or it starts no group however the text goes on.
-/

namespace CustomProperties

theorem plain_of_mark {mark : Text} (h : IsMark mark) : ∀ c ∈ mark, isPlain c := by
  obtain ⟨front, back, word, rfl, blank_front, blank_back, letters⟩ := h
  have plain_letters : "important".toList.all isPlain := by decide
  have plain_letter {letter c : Char} (same : Declaration.sameLetter letter c)
      (mem : letter ∈ "important".toList) : isPlain c := by
    rcases Declaration.cases_sameLetter same with rfl | capital | rfl | rfl
    · exact List.all_eq_true.1 plain_letters c mem
    · exact isPlain_of_class (p := fun d => 65 ≤ d.toNat && d.toNat ≤ 90) (by simpa using capital)
        (by decide)
    · decide
    · decide
  have plain_word : ∀ c ∈ word, isPlain c := by
    intro c hc
    obtain ⟨i, hi, rfl⟩ := List.getElem_of_mem hc
    have hi' : i < "important".toList.length := letters.length_eq ▸ hi
    exact plain_letter (letters.get hi' hi) (List.getElem_mem hi')
  simp only [List.mem_append, List.mem_cons]
  rintro c (hf | rfl | hb | hw)
  · exact isPlain_of_blank (blank_front c hf)
  · decide
  · exact isPlain_of_blank (blank_back c hb)
  · exact plain_word c hw

section Groups

variable {t u : Text} {c : Char} {l : Cut}

theorem closeGroup_plain (plain : ∀ c ∈ t, isQuote c = false ∧ c ≠ '(' ∧ c ≠ ')') (u : Text) :
    closeGroup (t ++ u) = (closeGroup u).map (Cut.extend t) := by
  refine Cut.passes fun c back within => ?_
  obtain ⟨quote, opening, closing⟩ := plain c (within.mem (List.mem_cons_self ..))
  exact closeGroup_cons quote opening closing _

theorem closeGroup_quiet (quiet : ∀ c ∈ t, isQuiet c) (u : Text) :
    closeGroup (t ++ u) = (closeGroup u).map (Cut.extend t) := by
  refine closeGroup_plain (fun c hc => ?_) u
  have first := quiet c hc
  simp only [isQuiet, Bool.and_eq_true, bne_iff_ne, Bool.not_eq_true'] at first
  exact ⟨first.1.1.1, first.1.1.2, first.1.2⟩

/-- How parentheses that are open before a text are closed in it: by a group that ends within the
text, or else by no group, whatever comes behind; then no semicolon stands before the inner
parentheses that are in the way. -/
def Grouped (d : Nat) (s : Footing) (t : Text) (e : Footing) : Prop :=
  (∃ inner rest, t = inner ++ rest ∧ Passes ⟨d, .loose⟩ rest e ∧
      ∀ u, closeGroup (t ++ u) = some ⟨inner, rest ++ u⟩) ∨
    s.hold = .flat ∧ Passes ⟨d + 1, .loose⟩ t e ∧ ∀ u, closeGroup (t ++ u) = none

theorem Grouped.literal {d : Nat} {s e : Footing} (h : Grouped d s l.rest e) (whole : l.whole = t)
    (passes : ∀ {s}, Passes s l.rest e → Passes s t e)
    (read : ∀ u, closeGroup (t ++ u) = (closeGroup (l.rest ++ u)).map (Cut.extend l.taken)) :
    Grouped d s t e := by
  rcases h with ⟨inner, rest, split, later, group⟩ | ⟨flat, later, stuck⟩
  · refine .inl ⟨l.taken ++ inner, rest, ?_, later, fun u => by rw [read, group]; rfl⟩
    rw [← whole, Cut.whole, split, List.append_assoc]
  · exact .inr ⟨flat, passes later, fun u => by rw [read, stuck]; rfl⟩

/-- Flat parentheses that are open and are closed later on are closed by a group or by none. -/
theorem Passes.group {s e : Footing} {d : Nat} (h : Passes s t e) (depth : s.depth = d + 1)
    (hold : s.hold ≠ .loose) (closes : e.depth ≤ d) : Grouped d s t e := by
  induction h with
  | done => omega
  | @string s e t l hl _ ih =>
      refine (ih depth hold closes).literal (whole_of_quoted? hl) (.string hl) fun u => ?_
      exact closeGroup_quoted (quoted?_append_of_quoted? hl u)
  | @comment s e t l hl quiet _ ih =>
      refine (ih depth hold closes).literal (whole_of_comment? hl) (.comment hl quiet) fun u => ?_
      rw [← whole_of_comment? hl, Cut.whole, List.append_assoc]
      exact closeGroup_quiet quiet _
  | @char s m e c t plain step later ih =>
      obtain ⟨depth_s, hold_s⟩ := s
      dsimp only at depth hold
      subst depth
      have quote : isQuote c = false := by
        rw [startsLiteral_cons, Bool.or_eq_false_iff] at plain
        exact plain.1
      by_cases opening : c = '('
      · subst opening
        obtain ⟨flat, rfl⟩ : hold_s = .flat ∧ m = ⟨d + 2, .flat⟩ := by
          cases hold_s <;> simp_all [Footing.step]
        exact .inr ⟨flat, .char plain (by simp [Footing.step]) later, fun u => closeGroup_open _⟩
      · by_cases closing : c = ')'
        · subst closing
          obtain rfl : m = ⟨d, .loose⟩ := by simpa [Footing.step] using step.symm
          exact .inl ⟨[')'], t, rfl, later, fun u => closeGroup_close _⟩
        · have read : ∀ u, closeGroup (c :: t ++ u) = (closeGroup (t ++ u)).map (Cut.extend [c]) :=
            fun u => closeGroup_cons quote opening closing _
          have inside : m.depth = d + 1 ∧ m.hold ≠ .loose ∧
              (m.hold = .flat → hold_s = .flat ∧
                Footing.step ⟨d + 1, .loose⟩ c = some ⟨d + 1, .loose⟩) := by
            simp only [Footing.step, opening, closing, if_false] at step ⊢
            grind
          obtain ⟨depth', hold', same⟩ := inside
          rcases ih depth' hold' closes with ⟨inner, rest, rfl, behind, group⟩ | ⟨flat, behind, stuck⟩
          · exact .inl ⟨c :: inner, rest, rfl, behind, fun u => by rw [read, group]; rfl⟩
          · obtain ⟨flat', step'⟩ := same flat
            exact .inr ⟨flat', .char plain step' behind, fun u => by rw [read, stuck]; rfl⟩

/-- An opening parenthesis of a firm text starts a group that ends within the text, or else it starts
none, and the text goes on as if it had no hold. -/
theorem Passes.group_open {d : Nat} (h : Passes ⟨d + 1, .flat⟩ t .ground) :
    (∃ inner rest, t = inner ++ rest ∧ Passes ⟨d, .loose⟩ rest .ground ∧
        ∀ u, stringOrGroup? ('(' :: (t ++ u)) = some ⟨'(' :: inner, rest ++ u⟩) ∨
      Passes ⟨d + 1, .loose⟩ t .ground ∧ ∀ u, stringOrGroup? ('(' :: (t ++ u)) = none := by
  have group (u : Text) : stringOrGroup? ('(' :: (t ++ u)) =
      (closeGroup (t ++ u)).map (Cut.extend ['(']) := by
    rw [stringOrGroup?, quoted?_cons (by decide), Option.none_or]
    rfl
  rcases h.group rfl (by simp) (Nat.zero_le d) with
    ⟨inner, rest, split, behind, closes⟩ | ⟨-, behind, stuck⟩
  · exact .inl ⟨inner, rest, split, behind, fun u => by rw [group, closes]; rfl⟩
  · exact .inr ⟨behind, fun u => by rw [group, stuck]; rfl⟩

/-- The pieces of a text as they are read whatever comes behind it: strings and groups, comments, and
characters that enclose nothing. -/
inductive Pieces : Text → Prop
  | done : Pieces []
  | inner {t : Text} {l : Cut} : l.whole = t →
      (∀ u, stringOrGroup? (t ++ u) = some ⟨l.taken, l.rest ++ u⟩) → Pieces l.rest → Pieces t
  | comment {t : Text} {l : Cut} : comment? t = some l → Pieces l.rest → Pieces t
  | char {c : Char} {t : Text} : startsLiteral (c :: t) = false → endsValue c = false →
      (∀ u, stringOrGroup? (c :: (t ++ u)) = none) → Pieces t → Pieces (c :: t)

theorem Passes.pieces {d : Nat} (h : Passes ⟨d, .loose⟩ t .ground) : Pieces t := by
  induction n : t.length using Nat.strong_induction_on generalizing d t with
  | _ n ih =>
      subst n
      cases h with
      | done => exact .done
      | @string _ _ _ l hl later =>
          have shorter := Cut.rest_length_lt (whole_of_quoted? hl) (taken_of_quoted? hl)
          refine .inner (whole_of_quoted? hl) (fun u => ?_) (ih _ shorter later rfl)
          rw [stringOrGroup?, quoted?_append_of_quoted? hl u, Option.some_or]
      | @comment _ _ _ l hl _ later =>
          have shorter := Cut.rest_length_lt (whole_of_comment? hl) (taken_of_comment? hl)
          exact .comment hl (ih _ shorter later rfl)
      | @char _ m _ c rest plain step later =>
          have quote : isQuote c = false := by
            rw [startsLiteral_cons, Bool.or_eq_false_iff] at plain
            exact plain.1
          by_cases opening : c = '('
          · subst opening
            obtain rfl : m = ⟨d + 1, .flat⟩ := by simpa [Footing.step] using step.symm
            rcases later.group_open with ⟨front, rest, rfl, behind, group⟩ | ⟨behind, stuck⟩
            · have shorter : rest.length < ('(' :: (front ++ rest)).length := by
                simp only [List.length_cons, List.length_append]
                omega
              exact .inner (l := ⟨'(' :: front, rest⟩) rfl group (ih _ shorter behind rfl)
            · exact .char plain (by decide) stuck (ih _ (Nat.lt_succ_self _) behind rfl)
          · obtain ⟨loose, semicolon⟩ := Footing.loose_step step opening
            obtain ⟨depth, hold⟩ := m
            obtain rfl : hold = .loose := loose
            have inside : endsValue c = false := by
              simp [endsValue, quote, semicolon, Footing.brace_of_step step]
            exact .char plain inside (fun u => stringOrGroup?_cons quote opening _)
              (ih _ (Nat.lt_succ_self _) later rfl)

end Groups

section Values

variable {t u : Text} {c : Char} {l : Cut}

theorem valueText_enclosed (h : enclosed? t = some l) :
    valueText t = (valueText l.rest).extend l.taken := by
  cases t with
  | nil => simp [enclosed?, stringOrGroup?, quoted?, group?, comment?] at h
  | cons c t =>
      rw [valueText]
      split
      · rename_i inner found
        rw [Option.some.inj (found.symm.trans h)]
      · rename_i missed
        simp [h] at missed

theorem valueText_cons (h : enclosed? (c :: t) = none) (inside : endsValue c = false) :
    valueText (c :: t) = (valueText t).extend [c] := by
  rw [valueText]
  split
  · rename_i found
    simp [h] at found
  · rw [inside]
    rfl

theorem valueText_stop (h : enclosed? (c :: t) = none) (ends : endsValue c) :
    valueText (c :: t) = ⟨[], c :: t⟩ := by
  rw [valueText]
  split
  · rename_i found
    simp [h] at found
  · rw [if_pos ends]

theorem Pieces.valueText (h : Pieces t) (sep : u.head? ≠ some '*') :
    CustomProperties.valueText (t ++ u) = (CustomProperties.valueText u).extend t := by
  induction h with
  | done => rfl
  | @inner t l whole found _ ih =>
      have read : enclosed? (t ++ u) = some ⟨l.taken, l.rest ++ u⟩ := by
        rw [enclosed?, found, Option.some_or]
      rw [valueText_enclosed read, ih, ← whole]
      simp [Cut.extend, Cut.whole]
  | @comment t l hl _ ih =>
      have read := enclosed?_of_comment? (comment?_append_of_comment? hl u)
      rw [valueText_enclosed read, ih, ← whole_of_comment? hl]
      simp [Cut.extend, Cut.whole]
  | @char c t plain inside none_there _ ih =>
      have comment := (Option.or_eq_none_iff.1 (literal?_eq_none (startsLiteral_append plain sep))).2
      have read : enclosed? (c :: (t ++ u)) = none := by
        rw [enclosed?, none_there, comment, Option.none_or]
      rw [List.cons_append, valueText_cons read inside, ih]
      rfl

end Values

section Preludes

variable {s e : Footing} {t u : Text} {c : Char} {l : Cut}

theorem preludeTail_run (inside : ∀ c ∈ t, isQuote c = false ∧ isBrace c = false)
    (h : preludeTail u = none) : preludeTail (t ++ u) = none := by
  induction t with
  | nil => exact h
  | cons c t ih =>
      obtain ⟨⟨quote, brace⟩, later⟩ := List.forall_mem_cons.1 inside
      rw [List.cons_append, preludeTail_cons quote brace, ih later]
      exact ite_self _

/-- No prelude comes to its brace through a firm text unless it comes to one behind it. -/
theorem Passes.preludeTail (h : Passes s t e) (behind : CustomProperties.preludeTail u = none) :
    CustomProperties.preludeTail (t ++ u) = none := by
  induction h with
  | done => exact behind
  | string hl _ ih =>
      rw [preludeTail_quoted (quoted?_append_of_quoted? hl u), ih]
      rfl
  | @comment _ _ t l hl quiet _ ih =>
      rw [← whole_of_comment? hl, Cut.whole, List.append_assoc]
      refine preludeTail_run (fun c hc => ?_) ih
      have first := quiet c hc
      simp only [isQuiet, Bool.and_eq_true, Bool.not_eq_true'] at first
      exact ⟨first.1.1.1, first.2⟩
  | @char s m e c t plain step _ ih =>
      rw [startsLiteral_cons, Bool.or_eq_false_iff] at plain
      rw [List.cons_append, preludeTail_cons plain.1 (Footing.brace_of_step step), ih]
      exact ite_self _

end Preludes

section Statements

variable {t u : Text}

/-- No statement comes to its semicolon through a firm text without comments unless it comes to one
behind it. -/
theorem Pieces.statementTail (h : Pieces t) (bare : ¬['/', '*'] <:+: t) (sep : u.head? ≠ some '*')
    (behind : CustomProperties.statementTail u = none) :
    CustomProperties.statementTail (t ++ u) = none := by
  induction h with
  | done => exact behind
  | @inner t l whole found _ ih =>
      have later : ¬['/', '*'] <:+: l.rest := fun within =>
        bare (within.trans (whole ▸ (List.suffix_append l.taken l.rest).isInfix))
      rw [statementTail_inner (found u), ih later]
      rfl
  | comment hl _ _ =>
      obtain ⟨rest, e, rfl, -, -⟩ := of_comment? hl
      exact absurd ⟨[], rest, rfl⟩ bare
  | @char c t plain inside none_there _ ih =>
      have semicolon : c ≠ ';' := by
        rintro rfl
        simp [endsValue] at inside
      have later : ¬['/', '*'] <:+: t := fun within =>
        bare (within.trans (List.suffix_cons c t).isInfix)
      rw [List.cons_append, statementTail_cons (bare_append bare sep) (none_there u) semicolon,
        ih later]
      exact ite_self _

end Statements

end CustomProperties
