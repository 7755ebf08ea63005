import CustomProperties.Proofs.Value.Depth
import CustomProperties.Sheet.Lexeme

/-!
Firm texts, which may stand in the value of a declaration whatever is around them. Those who read a
value do not agree on where its strings end: comments are passed over when references are looked for,
but not within the parentheses of a value and not before the brace of a block. In a firm text there is
nothing to disagree about: its strings are complete, its comments hold neither quotes nor parentheses
nor braces, its parentheses are balanced, and no brace stands outside of strings. A semicolon that
nothing else encloses stands in parentheses that hold no others.
-/

namespace CustomProperties

/-- What the innermost open parentheses hold so far. Flat ones hold no others, divided ones hold a
semicolon besides; loose is the text behind inner parentheses, and the text outside of all. -/
inductive Hold where
  | loose
  | flat
  | divided
deriving DecidableEq

/-- Where a reader stands: within how many parentheses, and what the innermost ones hold. -/
structure Footing where
  depth : Nat
  hold : Hold
deriving DecidableEq

namespace Footing

def ground : Footing := ⟨0, .loose⟩

/-- The footing behind a character that is part of no literal, if the character may stand there. -/
def step (s : Footing) (c : Char) : Option Footing :=
  if c = '(' then if s.hold = .divided then none else some ⟨s.depth + 1, .flat⟩
  else if c = ')' then if s.depth = 0 then none else some ⟨s.depth - 1, .loose⟩
  else if c = ';' then if s.hold = .loose then none else some ⟨s.depth, .divided⟩
  else if isBrace c then none
  else some s

def raise (s : Footing) (k : Nat) : Footing := { s with depth := s.depth + k }

theorem depth_of_step {s m : Footing} {c : Char} (h : s.step c = some m) :
    m.depth = depthBehind s.depth c ∧ ¬(c = ')' ∧ s.depth = 0) := by
  unfold step at h
  unfold depthBehind
  split at h
  · rename_i opens
    split at h
    · simp at h
    · obtain rfl := Option.some.inj h
      simp [opens]
  · rename_i opens
    split at h
    · rename_i closes
      split at h
      · simp at h
      · rename_i inside
        obtain rfl := Option.some.inj h
        simp [closes, inside]
    · rename_i closes
      have same : m.depth = s.depth := by
        split at h
        · split at h
          · simp at h
          · exact Option.some.inj h ▸ rfl
        · split at h
          · simp at h
          · exact Option.some.inj h ▸ rfl
      simp [opens, closes, same]

theorem step_raise {s m : Footing} {c : Char} (h : s.step c = some m) (k : Nat) :
    (s.raise k).step c = some (m.raise k) := by
  unfold step raise at *
  grind

/-- Without a semicolon before it, a character leads from flat parentheses where it leads from loose
ones. -/
theorem step_tighten {d : Nat} {m : Footing} {c : Char} (h : step ⟨d, .loose⟩ c = some m) :
    m = ⟨d, .loose⟩ ∧ step ⟨d, .flat⟩ c = some ⟨d, .flat⟩ ∨ step ⟨d, .flat⟩ c = some m := by
  unfold step at *
  grind

theorem brace_of_step {s m : Footing} {c : Char} (h : s.step c = some m) : isBrace c = false := by
  cases brace : isBrace c with
  | false => rfl
  | true =>
      have braces : c = '\x7b' ∨ c = '\x7d' := by simpa [isBrace] using brace
      rcases braces with rfl | rfl <;> simp [step, isBrace] at h

theorem loose_step {d : Nat} {m : Footing} {c : Char} (h : step ⟨d, .loose⟩ c = some m)
    (other : c ≠ '(') : m.hold = .loose ∧ c ≠ ';' := by
  unfold step at h
  grind

theorem undivided_step {s m : Footing} {c : Char} (h : s.step c = some m) (whole : s.hold ≠ .divided)
    (other : c ≠ ';') : m.hold ≠ .divided := by
  unfold step at h
  grind

end Footing

/-- Characters that mean nothing to anybody who reads a value. -/
def isQuiet (c : Char) : Bool := !isQuote c && c != '(' && c != ')' && !isBrace c

def isPlain (c : Char) : Bool := isQuiet c && c != ';' && c != '/'

theorem isPlain_of_class {p : Char → Bool} {c : Char} (hc : p c)
    (h : ['"', '\'', '(', ')', '\x7b', '\x7d', ';', '/'].all fun d => !p d) : isPlain c := by
  have other {d : Char} (hd : p d = false) : c ≠ d := by
    rintro rfl
    simp [hc] at hd
  simp only [List.all_cons, List.all_nil, Bool.and_true, Bool.and_eq_true, Bool.not_eq_true'] at h
  obtain ⟨quote, apostrophe, opening, closing, brace, brace', semicolon, slash⟩ := h
  simp [isPlain, isQuiet, isQuote, isBrace, other quote, other apostrophe, other opening,
    other closing, other brace, other brace', other semicolon, other slash]

theorem isPlain_of_blank {b : Char} (h : isBlank b) : isPlain b :=
  isPlain_of_class h (by decide)

/-- A text leads from one footing to another. -/
inductive Passes : Footing → Text → Footing → Prop
  | done (s : Footing) : Passes s [] s
  | string {s e : Footing} {t : Text} {l : Cut} :
      quoted? t = some l → Passes s l.rest e → Passes s t e
  | comment {s e : Footing} {t : Text} {l : Cut} :
      comment? t = some l → (∀ c ∈ l.taken, isQuiet c) → Passes s l.rest e → Passes s t e
  | char {s m e : Footing} {c : Char} {t : Text} :
      startsLiteral (c :: t) = false → s.step c = some m → Passes m t e → Passes s (c :: t) e

/-- A firm text begins and ends outside of all parentheses. -/
def Text.Firm (t : Text) : Prop := Passes .ground t .ground

def footing (s : Footing) : Text → Option Footing
  | [] => some s
  | c :: rest =>
      match _h : quoted? (c :: rest) with
      | some l => footing s l.rest
      | none =>
          match _k : comment? (c :: rest) with
          | some l => if l.taken.all isQuiet then footing s l.rest else none
          | none =>
              if startsLiteral (c :: rest) then none
              else (s.step c).bind fun m => footing m rest
termination_by t => t.length
decreasing_by
  · exact Cut.rest_length_lt (whole_of_quoted? _h) (taken_of_quoted? _h)
  · exact Cut.rest_length_lt (whole_of_comment? _k) (taken_of_comment? _k)
  · simp

theorem passes_of_footing {s e : Footing} {t : Text} (h : footing s t = some e) : Passes s t e := by
  fun_induction footing s t with
  | case1 s => exact Option.some.inj h ▸ .done s
  | case2 s c rest l hl ih => exact .string hl (ih h)
  | case3 s c rest hq l hl quiet ih => exact .comment hl (List.all_eq_true.1 quiet) (ih h)
  | case4 => simp at h
  | case5 => simp at h
  | case6 s c rest hq hk plain ih =>
      obtain ⟨m, step, later⟩ := Option.bind_eq_some_iff.1 h
      exact .char (by simpa using plain) step (ih m later)

section Passing

variable {s m e : Footing} {c : Char} {t u : Text} {l : Cut}

theorem literal?_of_quoted? (h : quoted? t = some l) : literal? t = some l := by
  rw [literal?, h, Option.some_or]

theorem literal?_of_comment? (h : comment? t = some l) : literal? t = some l := by
  obtain ⟨rest, e, rfl, -, -⟩ := of_comment? h
  rw [literal?, quoted?_cons (by decide), h, Option.none_or]

theorem head_of_literal? (h : literal? t = some l) :
    quoted? t = some l ∧ l.taken.head? ≠ some '/' ∨ comment? t = some l ∧ l.taken.head? = some '/' := by
  rcases Option.or_eq_some_iff.1 h with string | ⟨-, comment⟩
  · obtain ⟨quote, rest, e, rfl, mark, -, rfl⟩ := of_quoted? string
    refine .inl ⟨string, fun first => ?_⟩
    obtain rfl : quote = '/' := Option.some.inj first
    simp [isQuote] at mark
  · obtain ⟨rest, e, rfl, -, rfl⟩ := of_comment? comment
    exact .inr ⟨comment, rfl⟩

theorem Passes.literal (hl : literal? t = some l)
    (quiet : l.taken.head? = some '/' → ∀ c ∈ l.taken, isQuiet c) (h : Passes s l.rest e) :
    Passes s t e := by
  rcases head_of_literal? hl with ⟨string, -⟩ | ⟨comment, slash⟩
  · exact .string string h
  · exact .comment comment (quiet slash) h

/-- What a text that leads anywhere looks like at its front. -/
theorem Passes.cases_literal (h : Passes s t e) :
    (t = [] ∧ e = s) ∨
      (∃ l, literal? t = some l ∧ (l.taken.head? = some '/' → ∀ c ∈ l.taken, isQuiet c) ∧
        Passes s l.rest e) ∨
      ∃ c rest m, t = c :: rest ∧ startsLiteral t = false ∧ s.step c = some m ∧ Passes m rest e := by
  cases h with
  | done => exact .inl ⟨rfl, rfl⟩
  | @string _ _ _ l hl later =>
      refine .inr (.inl ⟨l, literal?_of_quoted? hl, fun slash => ?_, later⟩)
      obtain ⟨quote, rest, e, rfl, mark, -, rfl⟩ := of_quoted? hl
      obtain rfl : quote = '/' := Option.some.inj slash
      simp [isQuote] at mark
  | comment hl quiet later => exact .inr (.inl ⟨_, literal?_of_comment? hl, fun _ => quiet, later⟩)
  | char plain step later => exact .inr (.inr ⟨_, _, _, rfl, plain, step, later⟩)

theorem Passes.of_literal (h : Passes s t e) (hl : literal? t = some l) :
    (l.taken.head? = some '/' → ∀ c ∈ l.taken, isQuiet c) ∧ Passes s l.rest e := by
  rcases h.cases_literal with ⟨rfl, -⟩ | ⟨l', hl', quiet, later⟩ | ⟨c, rest, m, rfl, plain, -, -⟩
  · simp [literal?, quoted?, comment?] at hl
  · obtain rfl := Option.some.inj (hl.symm.trans hl')
    exact ⟨quiet, later⟩
  · simp [literal?_eq_none plain] at hl

theorem Passes.of_char (h : Passes s (c :: t) e) (hl : literal? (c :: t) = none) :
    startsLiteral (c :: t) = false ∧ ∃ m, s.step c = some m ∧ Passes m t e := by
  rcases h.cases_literal with ⟨absurd, -⟩ | ⟨l', hl', -⟩ | ⟨d, rest, m, same, plain, step, later⟩
  · simp at absurd
  · simp [hl] at hl'
  · obtain ⟨rfl, rfl⟩ := List.cons.inj same
    exact ⟨plain, m, step, later⟩

theorem footing_string (h : quoted? t = some l) : footing s t = footing s l.rest := by
  obtain ⟨quote, rest, e, rfl, -⟩ := of_quoted? h
  rw [footing]
  split
  · rename_i l' hl'
    rw [Option.some.inj (hl'.symm.trans h)]
  · rename_i missed
    simp [h] at missed

theorem footing_comment (h : comment? t = some l) (quiet : ∀ c ∈ l.taken, isQuiet c) :
    footing s t = footing s l.rest := by
  obtain ⟨rest, e, rfl, -, -⟩ := of_comment? h
  rw [footing]
  split
  · rename_i l' hl'
    simp [quoted?_cons (show isQuote '/' = false by decide)] at hl'
  · split
    · rename_i l' hl'
      obtain rfl := Option.some.inj (hl'.symm.trans h)
      rw [if_pos (List.all_eq_true.2 quiet)]
    · rename_i missed
      simp [h] at missed

theorem footing_char (plain : startsLiteral (c :: t) = false) :
    footing s (c :: t) = (s.step c).bind fun m => footing m t := by
  obtain ⟨hq, hk⟩ := Option.or_eq_none_iff.1 (literal?_eq_none plain)
  rw [footing]
  split
  · rename_i hl
    simp [hq] at hl
  · split
    · rename_i hl
      simp [hk] at hl
    · rw [plain]
      rfl

theorem footing_eq_some_iff : footing s t = some e ↔ Passes s t e := by
  refine ⟨passes_of_footing, fun h => ?_⟩
  induction h with
  | done => rw [footing]
  | string hl _ ih => rw [footing_string hl, ih]
  | comment hl quiet _ ih => rw [footing_comment hl quiet, ih]
  | char plain step _ ih => rw [footing_char plain, step, Option.bind_some, ih]

instance (t : Text) : Decidable t.Firm :=
  decidable_of_iff (footing .ground t = some .ground) footing_eq_some_iff

theorem Passes.append (h : Passes s t m) (sep : u.head? ≠ some '*') (h' : Passes m u e) :
    Passes s (t ++ u) e := by
  induction h with
  | done => exact h'
  | string hl _ ih => exact .string (quoted?_append_of_quoted? hl u) (ih h')
  | comment hl quiet _ ih => exact .comment (comment?_append_of_comment? hl u) quiet (ih h')
  | char plain step _ ih => exact .char (startsLiteral_append plain sep) step (ih h')

theorem passes_cons (plain : startsLiteral (c :: t) = false) (step : s.step c = some m) :
    Passes s (c :: t) e ↔ Passes m t e := by
  constructor
  · intro h
    obtain ⟨-, m', step', later⟩ := h.of_char (literal?_eq_none plain)
    obtain rfl := Option.some.inj (step.symm.trans step')
    exact later
  · exact .char plain step

theorem passes_plain_append (plain : ∀ c ∈ t, isPlain c) : Passes s (t ++ u) e ↔ Passes s u e := by
  induction t with
  | nil => rfl
  | cons c t ih =>
      obtain ⟨first, later⟩ := List.forall_mem_cons.1 plain
      simp only [isPlain, isQuiet, Bool.and_eq_true, bne_iff_ne, Bool.not_eq_true'] at first
      obtain ⟨⟨⟨⟨⟨quote, opening⟩, closing⟩, brace⟩, semicolon⟩, slash⟩ := first
      have starts : startsLiteral (c :: (t ++ u)) = false := by
        simp [startsLiteral_cons, quote, slash]
      have step : s.step c = some s := by
        simp [Footing.step, opening, closing, semicolon, brace]
      rw [List.cons_append, passes_cons starts step, ih later]

theorem passes_plain (plain : ∀ c ∈ t, isPlain c) : Passes s t s := by
  rw [← List.append_nil t, passes_plain_append plain]
  exact .done s

/-- A text that leads somewhere and has a front with complete literals divides behind that front. -/
theorem Passes.split {d : Nat} (front : depthAfter s.depth t = some d) (h : Passes s (t ++ u) e)
    (sep : u.head? ≠ some '*') : ∃ m, Passes s t m ∧ m.depth = d ∧ Passes m u e := by
  obtain ⟨depth, hold⟩ := s
  dsimp only at front
  fun_induction CustomProperties.depthAfter depth t generalizing hold with
  | case1 depth => exact ⟨_, .done _, Option.some.inj front, h⟩
  | case2 depth c rest inner hi ih =>
      obtain ⟨quiet, later⟩ := h.of_literal (literal?_append_of_literal? hi u)
      obtain ⟨m, first, depth_eq, behind⟩ := ih hold front later
      exact ⟨m, .literal hi quiet first, depth_eq, behind⟩
  | case3 => simp at front
  | case4 => simp at front
  | case5 depth c rest hl plain inside ih =>
      have plain' : startsLiteral (c :: rest) = false := by simpa using plain
      obtain ⟨-, ⟨depth', hold'⟩, step, later⟩ :=
        h.of_char (literal?_eq_none (startsLiteral_append plain' sep))
      obtain rfl : depth' = depthBehind depth c := (Footing.depth_of_step step).1
      obtain ⟨m, first, depth_eq, behind⟩ := ih hold' front later
      exact ⟨m, .char plain' step first, depth_eq, behind⟩

theorem Passes.depthAfter (h : Passes s t e) : depthAfter s.depth t = some e.depth := by
  induction h with
  | done => rw [depthAfter_nil]
  | string hl _ ih => rw [depthAfter_literal (literal?_of_quoted? hl), ih]
  | comment hl _ _ ih => rw [depthAfter_literal (literal?_of_comment? hl), ih]
  | char plain step _ ih =>
      obtain ⟨depth, inside⟩ := Footing.depth_of_step step
      rw [depthAfter_cons plain, if_neg inside, ← depth, ih]

theorem Passes.raise (h : Passes s t e) (k : Nat) : Passes (s.raise k) t (e.raise k) := by
  induction h with
  | done => exact .done _
  | string hl _ ih => exact .string hl ih
  | comment hl quiet _ ih => exact .comment hl quiet ih
  | char plain step _ ih => exact .char plain (Footing.step_raise step k) ih

theorem Passes.tighten {d : Nat} (h : Passes ⟨d, .loose⟩ t e) :
    ∃ hold, Passes ⟨d, .flat⟩ t ⟨e.depth, hold⟩ := by
  generalize hs : Footing.mk d .loose = s at h
  induction h with
  | done =>
      subst hs
      exact ⟨.flat, .done _⟩
  | string hl _ ih =>
      obtain ⟨hold, later⟩ := ih hs
      exact ⟨hold, .string hl later⟩
  | comment hl quiet _ ih =>
      obtain ⟨hold, later⟩ := ih hs
      exact ⟨hold, .comment hl quiet later⟩
  | @char _ m e c t plain step later ih =>
      subst hs
      rcases Footing.step_tighten step with ⟨rfl, step'⟩ | step'
      · obtain ⟨hold, later'⟩ := ih rfl
        exact ⟨hold, .char plain step' later'⟩
      · exact ⟨e.hold, .char plain step' later⟩

/-- Only a semicolon divides what parentheses hold. -/
theorem Passes.undivided (h : Passes s t e) (whole : s.hold ≠ .divided) (none_there : ';' ∉ t) :
    e.hold ≠ .divided := by
  induction h with
  | done => exact whole
  | string hl _ ih =>
      rw [← whole_of_quoted? hl, Cut.whole, List.mem_append, not_or] at none_there
      exact ih whole none_there.2
  | comment hl _ _ ih =>
      rw [← whole_of_comment? hl, Cut.whole, List.mem_append, not_or] at none_there
      exact ih whole none_there.2
  | char _ step _ ih =>
      rw [List.mem_cons, not_or] at none_there
      exact ih (Footing.undivided_step step whole (Ne.symm none_there.1)) none_there.2

end Passing

theorem Text.Firm.closed {t : Text} (h : t.Firm) : t.Closed := Passes.depthAfter h

/-- A firm text may stand within parentheses as long as no semicolon divides them. -/
theorem Text.Firm.passes {t : Text} (h : t.Firm) (depth : Nat) {hold : Hold}
    (whole : hold ≠ .divided) : ∃ hold', Passes ⟨depth, hold⟩ t ⟨depth, hold'⟩ := by
  have loose : Passes ⟨depth, .loose⟩ t ⟨depth, .loose⟩ := by
    simpa [Footing.raise, Footing.ground] using Passes.raise h depth
  cases hold with
  | loose => exact ⟨.loose, loose⟩
  | flat => exact loose.tighten
  | divided => exact absurd rfl whole

end CustomProperties
