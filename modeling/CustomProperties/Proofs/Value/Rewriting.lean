import CustomProperties.Proofs.Value.Depth

/-!
Rewriting the references of a value. When each reference becomes another one that is whole and has
the same function name, the new value divides at the same places into the new references.
Two scans have to agree for that, the one for references and the one for the parenthesis that closes
a call: a call that is no reference may be left open around the references within its argument, and
has to close behind the new ones as well.
-/

namespace CustomProperties

section Keyword

variable {depth : Nat} {previous : Option Char} {word t : Text} {cut : Cut}

theorem mem_letters {c : Char} (h : c.toLower ∈ ['v', 'a', 'r']) :
    c ∈ ['v', 'a', 'r', 'V', 'A', 'R'] := by
  by_cases upper : c.val ≥ 'A'.val ∧ c.val ≤ 'Z'.val
  · have up : c.toLower.val = c.val + ('a'.val - 'A'.val) := congrArg Char.val (dif_pos upper)
    have down : c.val = c.toLower.val - ('a'.val - 'A'.val) := by rw [up, UInt32.add_sub_cancel]
    simp only [List.mem_cons, List.not_mem_nil, or_false] at h
    rcases h with h | h | h <;> rw [h] at down
    · rw [show c = 'V' from Char.ext down]
      decide
    · rw [show c = 'A' from Char.ext down]
      decide
    · rw [show c = 'R' from Char.ext down]
      decide
  · have same : c.toLower = c := dif_neg upper
    rw [same] at h
    exact List.mem_append_left ['V', 'A', 'R'] h

theorem letter_plain {c : Char} (h : c.toLower ∈ ['v', 'a', 'r']) :
    (∀ t, startsLiteral (c :: t) = false) ∧ (∀ depth, depthBehind depth c = depth) ∧ c ≠ ')' ∧
      c ≠ '-' ∧ isBlank c = false := by
  have letters : ['v', 'a', 'r', 'V', 'A', 'R'].all fun d =>
      !isQuote d && d != '/' && d != '(' && d != ')' && d != '-' && !isBlank d := by decide
  have plain := List.all_eq_true.1 letters c (mem_letters h)
  simp only [Bool.and_eq_true, Bool.not_eq_true', bne_iff_ne] at plain
  obtain ⟨⟨⟨⟨⟨quote, slash⟩, opening⟩, closing⟩, dash⟩, shows⟩ := plain
  exact ⟨fun t => by simp [startsLiteral_cons, quote, slash],
    fun depth => by simp [depthBehind, opening, closing], closing, dash, shows⟩

theorem IsKeyword.letters (h : IsKeyword word) :
    ∃ v a r, word = [v, a, r] ∧ ∀ c ∈ word, c.toLower ∈ ['v', 'a', 'r'] := by
  have members : ∀ c ∈ word, c.toLower ∈ ['v', 'a', 'r'] := fun c hc =>
    h ▸ List.mem_map_of_mem hc
  obtain ⟨v, a, r, same⟩ := List.length_eq_three.1 h.length
  exact ⟨v, a, r, same, members⟩

theorem IsKeyword.closeCall (h : IsKeyword word) :
    closeCall depth (word ++ '(' :: t) =
      (closeCall (depth + 1) t).map (Cut.extend (word ++ ['('])) := by
  obtain ⟨v, a, r, rfl, letters⟩ := h.letters
  simp only [List.forall_mem_cons] at letters
  obtain ⟨hv, ha, hr, -⟩ := letters
  have plain : startsLiteral ('(' :: t) = false := by simp [startsLiteral_cons, isQuote]
  have step : ∀ {c : Char}, c.toLower ∈ ['v', 'a', 'r'] → ∀ s,
      CustomProperties.closeCall depth (c :: s) =
        (CustomProperties.closeCall depth s).map (Cut.extend [c]) := by
    intro c hc s
    obtain ⟨plain, same, closing, -⟩ := letter_plain hc
    rw [closeCall_cons (plain s) (by simp [closing]), same]
  show CustomProperties.closeCall depth (v :: a :: r :: '(' :: t) = _
  rw [step hv, step ha, step hr, closeCall_cons plain (by simp)]
  simp only [Option.map_map, depthBehind, if_pos]
  congr

end Keyword

section Steps

variable {previous : Option Char} {word t : Text}

theorem dissectFrom_literal {l : Cut} (h : literal? t = some l) :
    dissectFrom previous t = (dissectFrom l.taken.getLast? l.rest).extend l.taken := by
  cases t with
  | nil => simp [literal?, quoted?, comment?] at h
  | cons c t =>
      rw [dissectFrom]
      split
      · rename_i inner hi
        rw [Option.some.inj (hi.symm.trans h)]
      · rename_i hi
        simp [h] at hi

theorem dissectFrom_plain {c : Char} (plain : startsLiteral (c :: t) = false)
    (other : call? previous (c :: t) = none) :
    dissectFrom previous (c :: t) = (dissectFrom (some c) t).extend [c] := by
  rw [dissectFrom]
  split
  · rename_i inner hi
    simp [literal?_eq_none plain] at hi
  · rw [if_neg (by simp [plain])]
    split
    · rfl
    · rename_i found
      simp [other] at found

theorem dissectFrom_open {c : Char} (hl : literal? (c :: t) = none)
    (isOpen : startsLiteral (c :: t) ∨
      ∃ word, call? previous (c :: t) = some word ∧ closeCall 0 word.rest = none) :
    dissectFrom previous (c :: t) = ⟨c :: t, []⟩ := by
  rw [dissectFrom]
  split
  · rename_i inner hi
    simp [hl] at hi
  · split
    · rfl
    · rename_i plain
      obtain ⟨word, hw, unclosed⟩ := isOpen.resolve_left plain
      split
      · rename_i missed
        simp [hw] at missed
      · rename_i found
        obtain rfl := Option.some.inj (found.symm.trans hw)
        split
        · rfl
        · rename_i call closes
          simp [unclosed] at closes

theorem dissectFrom_call {call : Cut} (free : previous.any continuesName = false)
    (h : IsKeyword word) (closes : closeCall 0 t = some call) :
    dissectFrom previous (word ++ '(' :: t) =
      if (Reference.ofCall word call.taken).isCustom then
        (dissectFrom (some ')') call.rest).precede (.ofCall word call.taken)
      else (dissectFrom (some '(') t).extend (word ++ ['(']) := by
  have call : call? previous (word ++ '(' :: t) = some ⟨word, t⟩ :=
    call?_eq_some_iff.2 ⟨free, h, rfl⟩
  obtain ⟨v, a, r, rfl, letters⟩ := h.letters
  have plain := (letter_plain (letters v (List.mem_cons_self ..))).1 (a :: r :: '(' :: t)
  simp only [List.cons_append, List.nil_append] at call ⊢
  rw [dissectFrom]
  split
  · rename_i inner hi
    simp [literal?_eq_none plain] at hi
  · rw [if_neg (by simp [plain])]
    split
    · rename_i missed
      simp [call] at missed
    · rename_i found
      obtain rfl := Option.some.inj (found.symm.trans call)
      split
      · rename_i unclosed
        simp [closes] at unclosed
      · rename_i cut found'
        obtain rfl := Option.some.inj (found'.symm.trans closes)
        rfl

end Steps

namespace Reference

def inner (r : Reference) : Text := joinArgument r.argument r.fallback

/-- A reference that is read back as it is from its text. -/
structure Whole (r : Reference) : Prop where
  keyword : IsKeyword r.keyword
  closed : r.inner.Closed
  split : splitArgument 0 r.inner = (r.argument, r.fallback)
  custom : r.isCustom

variable {r : Reference} {previous : Option Char} {word t u : Text}

theorem text_append (r : Reference) (u : Text) :
    r.text ++ u = r.keyword ++ '(' :: (r.inner ++ ')' :: u) := by
  simp [text, inner]

theorem Whole.closes (h : r.Whole) (u : Text) :
    closeCall 0 (r.inner ++ ')' :: u) = some ⟨r.inner, u⟩ := by
  rw [closeCall_append h.closed (by simp), closeCall_close]
  simp [Cut.extend]

theorem Whole.ofCall_inner (h : r.Whole) : ofCall r.keyword r.inner = r := by
  rw [ofCall, h.split]

/-- Behind a whole reference a text divides as if it stood alone. -/
theorem Whole.dissectFrom_text (h : r.Whole) (free : previous.any continuesName = false)
    (u : Text) : dissectFrom previous (r.text ++ u) = (dissectFrom (some ')') u).precede r := by
  rw [text_append, dissectFrom_call free h.keyword (h.closes u), h.ofCall_inner, if_pos h.custom]

theorem Whole.closeCall_text (h : r.Whole) (depth : Nat) (u : Text) :
    closeCall depth (r.text ++ u) = (closeCall depth u).map (Cut.extend r.text) := by
  have inside : depthAfter (depth + 1) r.inner = some (depth + 1) := by
    simpa [Nat.add_comm] using depthAfter_add h.closed (depth + 1)
  have plain : startsLiteral (')' :: u) = false := by simp [startsLiteral_cons, isQuote]
  rw [text_append, h.keyword.closeCall, closeCall_append inside (by simp),
    closeCall_cons plain (by simp)]
  simp only [Option.map_map, depthBehind]
  congr
  funext cut
  simp [Cut.extend, text, inner]

theorem whole_ofCall {call : Cut} (key : IsKeyword word) (closes : closeCall 0 t = some call)
    (custom : (ofCall word call.taken).isCustom) : (ofCall word call.taken).Whole := by
  have inner_eq : (ofCall word call.taken).inner = call.taken := joinArgument_splitArgument 0 _
  refine ⟨key, ?_, ?_, custom⟩
  · rw [inner_eq]
    exact depthAfter_of_closeCall closes
  · rw [inner_eq]
    rfl

end Reference

theorem whole_of_dissectFrom (previous : Option Char) (t : Text) :
    ∀ pair ∈ (dissectFrom previous t).references, pair.1.Whole := by
  fun_induction dissectFrom previous t with
  | case1 => simp
  | case2 previous c rest inner hi ih => exact ih
  | case3 => simp
  | case4 previous c rest hl plain other ih => exact ih
  | case5 => simp
  | case6 previous c rest hl plain word hw call hc r custom ih =>
      obtain ⟨-, key, -⟩ := call?_eq_some_iff.1 hw
      exact List.forall_mem_cons.2 ⟨Reference.whole_ofCall key hc custom, ih⟩
  | case7 previous c rest hl plain word hw call hc r other ih => exact ih

def startsCustom (t : Text) : Bool := ['-', '-'].isPrefixOf (Text.trimLeft t)

section Custom

variable {t u : Text}

/-- Two dashes at the start do not depend on a text behind, unless that starts with a dash itself
or with blanks and two dashes. -/
theorem startsCustom_append (t : Text) (silent : startsCustom u = false)
    (dash : u.head? ≠ some '-') : startsCustom (t ++ u) = startsCustom t := by
  induction t with
  | nil => exact silent
  | cons c t ih =>
      cases hc : isBlank c with
      | true => simpa [startsCustom, Text.trimLeft, hc] using ih
      | false =>
          rw [startsCustom, startsCustom, List.cons_append, Text.trimLeft_cons hc,
            Text.trimLeft_cons hc]
          cases t with
          | nil =>
              cases u with
              | nil => rfl
              | cons d u =>
                  have other : ('-' == d) = false := by
                    simp only [List.head?_cons, ne_eq, Option.some.injEq] at dash
                    simpa using Ne.symm dash
                  simp [List.isPrefixOf, other]
          | cons d t => simp [List.isPrefixOf]

theorem startsCustom_cons {c : Char} (shows : isBlank c = false) (dash : c ≠ '-') (t : Text) :
    startsCustom (c :: t) = false := by
  rw [startsCustom, Text.trimLeft_cons shows]
  simp [List.isPrefixOf, dash.symm]

theorem isPrefixOf_trim (t : Text) : ['-', '-'].isPrefixOf (Text.trim t) = startsCustom t := by
  have blanks : ∀ b ∈ ((Text.trimLeft t).reverse.takeWhile isBlank).reverse, isBlank b :=
    fun b hb => List.mem_takeWhile_imp (List.mem_reverse.1 hb)
  have whole : Text.trim t ++ ((Text.trimLeft t).reverse.takeWhile isBlank).reverse =
      Text.trimLeft t := Text.trimRight_append _
  generalize ((Text.trimLeft t).reverse.takeWhile isBlank).reverse = back at blanks whole
  have silent : startsCustom back = false := by
    rw [startsCustom, Text.trimLeft, List.dropWhile_eq_nil_iff.2 blanks]
    rfl
  have dash : back.head? ≠ some '-' := fun first => by
    simpa [isBlank] using blanks _ (List.mem_of_mem_head? first)
  calc ['-', '-'].isPrefixOf (Text.trim t)
      = startsCustom (Text.trim t) := by rw [startsCustom, Text.trimLeft_trim]
    _ = startsCustom (Text.trim t ++ back) := (startsCustom_append _ silent dash).symm
    _ = startsCustom t := by rw [whole, startsCustom, Text.trimLeft_trimLeft, startsCustom]

theorem isCustom_ofCall {call : Cut} (word : Text) (closes : closeCall 0 t = some call) :
    (Reference.ofCall word call.taken).isCustom = startsCustom t := by
  have name : (Reference.ofCall word call.taken).isCustom =
      startsCustom (splitArgument 0 call.taken).1 := isPrefixOf_trim _
  have argument : startsCustom (splitArgument 0 call.taken).1 = startsCustom call.taken := by
    conv => rhs; rw [← joinArgument_splitArgument 0 call.taken]
    cases (splitArgument 0 call.taken).2 with
    | none => rfl
    | some behind =>
        exact (startsCustom_append _ (startsCustom_cons (by decide) (by decide) _) (by simp)).symm
  rw [name, argument, ← of_closeCall closes,
    startsCustom_append _ (startsCustom_cons (by decide) (by decide) _) (by simp)]

end Custom

namespace Dissection

def map (f : Reference → Reference) (d : Dissection) : Dissection :=
  ⟨d.before, d.references.map fun (r, behind) => (f r, behind)⟩

variable {g : Reference → Reference}

@[simp] theorem map_extend (front : Text) (d : Dissection) :
    (d.extend front).map g = (d.map g).extend front := rfl

@[simp] theorem map_precede (r : Reference) (d : Dissection) :
    (d.precede r).map g = (d.map g).precede (g r) := rfl

@[simp] theorem map_nil (before : Text) : map g ⟨before, []⟩ = ⟨before, []⟩ := rfl

@[simp] theorem render_nil (before : Text) : render ⟨before, []⟩ = before := by
  simp [render, replace]

@[simp] theorem map_cons (before behind : Text) (r : Reference) (refs : List (Reference × Text)) :
    map g ⟨before, (r, behind) :: refs⟩ =
      ⟨before, (g r, behind) :: (map g ⟨behind, refs⟩).references⟩ := rfl

theorem render_cons (before behind : Text) (r : Reference) (refs : List (Reference × Text)) :
    render ⟨before, (r, behind) :: refs⟩ = before ++ (r.text ++ render ⟨behind, refs⟩) := by
  simp [render, replace]

/-- The other references may stand in the places of those of a value. -/
def Fits (g : Reference → Reference) (d : Dissection) : Prop :=
  ∀ pair ∈ d.references, (g pair.1).Whole ∧ (g pair.1).keyword = pair.1.keyword

/-- The texts of the two values agree up to the parenthesis of their first reference. -/
theorem Fits.alike {d : Dissection} (h : d.Fits g) :
    (d.map g).render = d.render ∨ ∃ word rest rest', IsKeyword word ∧
      d.render = d.before ++ (word ++ '(' :: rest) ∧
      (d.map g).render = d.before ++ (word ++ '(' :: rest') := by
  obtain ⟨before, references⟩ := d
  cases references with
  | nil => exact .inl rfl
  | cons pair references =>
      obtain ⟨r, behind⟩ := pair
      obtain ⟨whole, same⟩ := h (r, behind) (List.mem_cons_self ..)
      refine .inr ⟨r.keyword, r.inner ++ ')' :: render ⟨behind, references⟩,
        (g r).inner ++ ')' :: (map g ⟨behind, references⟩).render, same ▸ whole.keyword, ?_, ?_⟩
      · rw [render_cons, Reference.text_append]
      · rw [map_cons, render_cons, Reference.text_append, same]
        rfl

theorem Fits.take_render {d : Dissection} (h : d.Fits g) :
    (d.map g).render.take 3 = d.render.take 3 := by
  rcases h.alike with same | ⟨word, rest, rest', key, text, text'⟩
  · rw [same]
  · obtain ⟨v, a, r, rfl, -⟩ := key.letters
    have front : ∀ s : Text, (d.before ++ ([v, a, r] ++ '(' :: s)).take 3 =
        (d.before ++ [v, a, r]).take 3 := by
      intro s
      rw [← List.append_assoc]
      exact List.take_append_of_le_length (by simp)
    rw [text, text', front, front]

theorem Fits.startsCustom_render {d : Dissection} (h : d.Fits g) :
    startsCustom (d.map g).render = startsCustom d.render := by
  rcases h.alike with same | ⟨word, rest, rest', key, text, text'⟩
  · rw [same]
  · obtain ⟨v, a, r, rfl, letters⟩ := key.letters
    obtain ⟨-, -, -, dash, shows⟩ := letter_plain (letters v (List.mem_cons_self ..))
    have behind : ∀ s : Text, startsCustom (d.before ++ ([v, a, r] ++ '(' :: s)) =
        startsCustom d.before := fun s =>
      startsCustom_append _ (startsCustom_cons shows dash _) (by simpa using dash)
    rw [text, text', behind, behind]

end Dissection

/-- Whether a call starts at a character shows within four characters. -/
theorem call?_congr {previous : Option Char} {c : Char} {s t : Text}
    (same : s.take 3 = t.take 3) (h : call? previous (c :: t) = none) :
    call? previous (c :: s) = none := by
  cases hs : call? previous (c :: s) with
  | none => rfl
  | some word =>
      obtain ⟨free, key, text⟩ := call?_eq_some_iff.1 hs
      obtain ⟨v, a, r, letters⟩ := List.length_eq_three.1 key.length
      rw [letters] at key text
      obtain ⟨rfl, rfl⟩ := List.cons.inj text
      have again : c :: t = [c, a, r] ++ '(' :: t.drop 3 := by
        conv => lhs; rw [← List.take_append_drop 3 t, ← same]
        rfl
      have found : call? previous (c :: t) = some ⟨[c, a, r], t.drop 3⟩ :=
        call?_eq_some_iff.2 ⟨free, key, again⟩
      simp [h] at found

theorem startsLiteral_congr {c : Char} {s t : Text} (same : s.take 3 = t.take 3) :
    startsLiteral (c :: s) = startsLiteral (c :: t) := by
  have first : s.head? = t.head? := by
    simpa [List.head?_take] using congrArg List.head? same
  rw [startsLiteral_cons, startsLiteral_cons, first]

section Simulation

variable {g : Reference → Reference}

theorem text_of_call {previous : Option Char} {t : Text} {word call : Cut}
    (hw : call? previous t = some word) (hc : closeCall 0 word.rest = some call) :
    t = (Reference.ofCall word.taken call.taken).text ++ call.rest := by
  obtain ⟨-, -, whole⟩ := call?_eq_some_iff.1 hw
  rw [Reference.text_ofCall, whole, ← of_closeCall hc]
  simp

theorem take_render_map (previous : Option Char) (t : Text)
    (fits : (dissectFrom previous t).Fits g) :
    ((dissectFrom previous t).map g).render.take 3 = t.take 3 := by
  rw [fits.take_render, render_dissectFrom]

theorem closeCall_render_map (previous : Option Char) (t : Text)
    (fits : (dissectFrom previous t).Fits g) {depth : Nat} (closes : (closeCall depth t).isSome) :
    (closeCall depth ((dissectFrom previous t).map g).render).isSome := by
  fun_induction dissectFrom previous t generalizing depth with
  | case1 => exact closes
  | case2 previous c rest inner hi ih =>
      rw [closeCall_literal hi, Option.isSome_map] at closes
      rw [Dissection.map_extend, Dissection.render_extend, closeCall_literal (literal?_append hi _),
        Option.isSome_map]
      exact ih fits closes
  | case3 => simpa using closes
  | case4 previous c rest hl plain other ih =>
      have front := take_render_map (some c) rest fits
      have plain' : startsLiteral (c :: rest) = false := by simpa using plain
      rw [Dissection.map_extend, Dissection.render_extend, List.singleton_append]
      by_cases closing : c = ')' ∧ depth = 0
      · obtain ⟨rfl, rfl⟩ := closing
        rw [closeCall_close]
        rfl
      · rw [closeCall_cons plain' closing, Option.isSome_map] at closes
        rw [closeCall_cons ((startsLiteral_congr front).trans plain') closing, Option.isSome_map]
        exact ih fits closes
  | case5 => simpa using closes
  | case6 previous c rest hl plain word hw call hc r custom ih =>
      obtain ⟨-, key, -⟩ := call?_eq_some_iff.1 hw
      have whole : r.Whole := Reference.whole_ofCall key hc custom
      obtain ⟨⟨whole', -⟩, fits'⟩ := List.forall_mem_cons.1 fits
      -- Both the old reference and the new one lead back to the depth they began at.
      rw [text_of_call hw hc, whole.closeCall_text, Option.isSome_map] at closes
      rw [Dissection.map_precede, Dissection.render_precede, whole'.closeCall_text,
        Option.isSome_map]
      exact ih fits' closes
  | case7 previous c rest hl plain word hw call hc r other ih =>
      obtain ⟨-, key, whole⟩ := call?_eq_some_iff.1 hw
      -- A call that is no reference stays open, so its argument is scanned one parenthesis deeper.
      rw [whole, key.closeCall, Option.isSome_map] at closes
      rw [Dissection.map_extend, Dissection.render_extend, List.append_assoc, List.singleton_append,
        key.closeCall, Option.isSome_map]
      exact ih fits closes

/-- With other references in place, a value divides into these. -/
theorem dissectFrom_render_map (previous : Option Char) (t : Text)
    (fits : (dissectFrom previous t).Fits g) :
    dissectFrom previous ((dissectFrom previous t).map g).render =
      (dissectFrom previous t).map g := by
  fun_induction dissectFrom previous t with
  | case1 => rw [Dissection.map_nil, Dissection.render_nil, dissectFrom]
  | case2 previous c rest inner hi ih =>
      rw [Dissection.map_extend, Dissection.render_extend,
        dissectFrom_literal (literal?_append hi _), ih fits]
  | case3 previous c rest hl starts =>
      rw [Dissection.map_nil, Dissection.render_nil, dissectFrom_open hl (.inl starts)]
  | case4 previous c rest hl plain other ih =>
      have front := take_render_map (some c) rest fits
      have plain' : startsLiteral (c :: rest) = false := by simpa using plain
      rw [Dissection.map_extend, Dissection.render_extend, List.singleton_append,
        dissectFrom_plain ((startsLiteral_congr front).trans plain') (call?_congr front other),
        ih fits]
  | case5 previous c rest hl plain word hw hc =>
      rw [Dissection.map_nil, Dissection.render_nil, dissectFrom_open hl (.inr ⟨word, hw, hc⟩)]
  | case6 previous c rest hl plain word hw call hc r custom ih =>
      obtain ⟨free, -, -⟩ := call?_eq_some_iff.1 hw
      obtain ⟨⟨whole', -⟩, fits'⟩ := List.forall_mem_cons.1 fits
      rw [Dissection.map_precede, Dissection.render_precede, whole'.dissectFrom_text free, ih fits']
  | case7 previous c rest hl plain word hw call hc r other ih =>
      have fits' : (dissectFrom (some '(') word.rest).Fits g := fits
      obtain ⟨call', hc'⟩ := Option.isSome_iff_exists.1 <|
        closeCall_render_map (some '(') word.rest fits' (Option.isSome_of_eq_some hc)
      -- The call closes behind the new references too, and it is still none itself: its argument
      -- starts like the old one, and a reference never starts with a dash.
      have other' : (Reference.ofCall word.taken call'.taken).isCustom = false := by
        rw [isCustom_ofCall _ hc', fits'.startsCustom_render, render_dissectFrom,
          ← isCustom_ofCall word.taken hc]
        simpa using other
      obtain ⟨free, key, -⟩ := call?_eq_some_iff.1 hw
      rw [Dissection.map_extend, Dissection.render_extend, List.append_assoc, List.singleton_append,
        dissectFrom_call free key hc', other', if_neg (by simp), ih fits']

end Simulation

end CustomProperties
