import CustomProperties.Proofs.Resolver.Resupply
import CustomProperties.Proofs.Value.Firm

/-!
Supplying firm values keeps a value firm. The new fallback stands in parentheses that were open
before, behind a name that was there before, and leads back to where the old argument ended.
-/

namespace CustomProperties

section Call

variable {s e : Footing} {word t u : Text}

theorem IsKeyword.plain (h : IsKeyword word) : ∀ c ∈ word, isPlain c := by
  obtain ⟨-, -, -, -, letters⟩ := h.letters
  have all : ['v', 'a', 'r', 'V', 'A', 'R'].all isPlain := by decide
  exact fun c hc => List.all_eq_true.1 all c (mem_letters (letters c hc))

/-- A call opens flat parentheses, unless it stands in parentheses that a semicolon divides. -/
theorem passes_call (h : IsKeyword word) :
    Passes s (word ++ '(' :: u) e ↔ s.hold ≠ .divided ∧ Passes ⟨s.depth + 1, .flat⟩ u e := by
  have plain : startsLiteral ('(' :: u) = false := by simp [startsLiteral_cons, isQuote]
  rw [passes_plain_append h.plain]
  by_cases whole : s.hold = .divided
  · constructor
    · intro leads
      obtain ⟨-, m, step, -⟩ := leads.of_char (literal?_eq_none plain)
      simp [Footing.step, whole] at step
    · exact fun both => absurd whole both.1
  · have step : s.step '(' = some ⟨s.depth + 1, .flat⟩ := by simp [Footing.step, whole]
    rw [passes_cons plain step]
    exact ⟨fun leads => ⟨whole, leads⟩, And.right⟩

theorem passes_close {m : Footing} {d : Nat} (depth : m.depth = d + 1) :
    Passes m (')' :: u) e ↔ Passes ⟨d, .loose⟩ u e := by
  have plain : startsLiteral (')' :: u) = false := by simp [startsLiteral_cons, isQuote]
  exact passes_cons plain (by simp [Footing.step, depth])

namespace Reference

/-- The argument of a reference leads from flat parentheses to the one that closes them. -/
def Leads (depth : Nat) (r : Reference) : Prop :=
  ∃ hold, Passes ⟨depth + 1, .flat⟩ r.inner ⟨depth + 1, hold⟩

variable {ref : Reference} {depth : Nat}

theorem Whole.passes_text (h : ref.Whole) :
    Passes s (ref.text ++ u) e ↔
      s.hold ≠ .divided ∧ ref.Leads s.depth ∧ Passes ⟨s.depth, .loose⟩ u e := by
  rw [text_append, passes_call h.keyword]
  refine and_congr_right fun _ => ⟨fun inside => ?_, ?_⟩
  · have closed : depthAfter (s.depth + 1) ref.inner = some (s.depth + 1) := by
      simpa [Nat.add_comm] using depthAfter_add h.closed (s.depth + 1)
    obtain ⟨⟨depth, hold⟩, first, rfl, behind⟩ := inside.split closed (by simp)
    exact ⟨⟨hold, first⟩, (passes_close rfl).1 behind⟩
  · rintro ⟨⟨hold, first⟩, behind⟩
    exact first.append (by simp) ((passes_close rfl).2 behind)

theorem inner_eq (ref : Reference) : ∃ front tail, ref.inner = front ++ (ref.name ++ tail) ∧
    (∀ b ∈ front, isBlank b) ∧ tail.head? ≠ some '*' := by
  obtain ⟨front, back, around, -, blank_front, blank_back⟩ := Text.indent_append_trim ref.argument
  have sep : ∀ b, back.head? = some b → b ≠ '*' := fun b first =>
    (blank_plain (blank_back b (List.mem_of_mem_head? first)) []).2.2.2.2
  rw [inner, around]
  cases ref.fallback with
  | none => exact ⟨front, back, by simp [joinArgument, name], blank_front, fun star => sep _ star rfl⟩
  | some fallback =>
      refine ⟨front, back ++ ',' :: fallback, by simp [joinArgument, name], blank_front, ?_⟩
      cases back with
      | nil => simp
      | cons b back => exact fun star => sep b rfl (Option.some.inj star)

theorem Whole.leads_withAnswer {answer : Option Text} (h : ref.Whole)
    (firm : ∀ value, answer = some value → value.Firm ∧ ';' ∉ ref.name) (leads : ref.Leads depth) :
    (ref.withAnswer answer).Leads depth := by
  rcases ref.withAnswer_cases answer with ⟨c, value, rfl, same⟩ | ⟨same, -⟩
  · obtain ⟨value_firm, undivided⟩ := firm _ rfl
    obtain ⟨hold, old⟩ := leads
    obtain ⟨front, tail, split, blank, sep⟩ := ref.inner_eq
    rw [split, passes_plain_append fun b hb => isPlain_of_blank (blank b hb)] at old
    have closed : depthAfter (depth + 1) ref.name = some (depth + 1) := by
      simpa [Nat.add_comm] using depthAfter_add h.name_closed.1 (depth + 1)
    -- The name leads to the place of the new fallback.
    obtain ⟨⟨d, hold⟩, name, rfl, -⟩ := old.split closed sep
    obtain ⟨hold', fallback⟩ := value_firm.passes (depth + 1) (name.undivided (by simp) undivided)
    have comma : ∀ c ∈ [',', ' '], isPlain c := List.all_eq_true.1 (by decide)
    have arranged : (ref.withAnswer (some (c :: value))).inner =
        ref.name ++ ([',', ' '] ++ c :: value) := by
      rw [same]
      rfl
    refine ⟨hold', ?_⟩
    rw [arranged]
    exact name.append (by simp) ((passes_plain_append comma).2 fallback)
  · rwa [same]

end Reference

end Call

section Value

variable {g : Reference → Reference} {s e : Footing}

theorem Passes.render_map {previous : Option Char} {t : Text} (h : Passes s t e)
    (fits : (dissectFrom previous t).Fits g)
    (leads : ∀ pair ∈ (dissectFrom previous t).references, ∀ depth,
      pair.1.Leads depth → (g pair.1).Leads depth) :
    Passes s ((dissectFrom previous t).map g).render e := by
  fun_induction dissectFrom previous t generalizing s with
  | case1 => exact h
  | case2 previous c rest inner hi ih =>
      obtain ⟨quiet, later⟩ := h.of_literal hi
      rw [Dissection.map_extend, Dissection.render_extend]
      exact .literal (literal?_append hi _) quiet (ih later fits leads)
  | case3 => simpa using h
  | case4 previous c rest hl plain other ih =>
      have front := take_render_map (some c) rest fits
      obtain ⟨plain', m, step, later⟩ := h.of_char hl
      rw [Dissection.map_extend, Dissection.render_extend, List.singleton_append]
      exact .char ((startsLiteral_congr front).trans plain') step (ih later fits leads)
  | case5 => simpa using h
  | case6 previous c rest hl plain word hw call hc r custom =>
      rename_i ih
      obtain ⟨-, key, -⟩ := call?_eq_some_iff.1 hw
      have whole : r.Whole := Reference.whole_ofCall key hc custom
      obtain ⟨first, leads'⟩ := List.forall_mem_cons.1 leads
      obtain ⟨⟨whole', -⟩, fits'⟩ := List.forall_mem_cons.1 fits
      rw [text_of_call hw hc, whole.passes_text] at h
      rw [Dissection.map_precede, Dissection.render_precede, whole'.passes_text]
      exact ⟨h.1, first _ h.2.1, ih h.2.2 fits' leads'⟩
  | case7 previous c rest hl plain word hw call hc r other =>
      rename_i ih
      obtain ⟨-, key, whole⟩ := call?_eq_some_iff.1 hw
      rw [whole, passes_call key] at h
      rw [Dissection.map_extend, Dissection.render_extend, List.append_assoc, List.singleton_append,
        passes_call key]
      exact ⟨h.1, ih h.2 fits leads⟩

theorem firm_suppliedValue {answer : Text → Option Text} {value : Text} (h : value.Firm)
    (firm : ∀ ref ∈ references value, ∀ s, answer ref.name = some s → s.Firm ∧ ';' ∉ ref.name) :
    (suppliedValue answer value).Firm := by
  have whole := whole_of_dissectFrom none value
  have each : ∀ pair ∈ (dissect value).references, ∀ s,
      answer pair.1.name = some s → s.Firm ∧ ';' ∉ pair.1.name := fun pair hp =>
    firm pair.1 (List.mem_map_of_mem hp)
  rw [suppliedValue_eq_render]
  refine h.render_map (fun pair hp => ?_) fun pair hp depth =>
    (whole pair hp).leads_withAnswer (each pair hp)
  exact (whole pair hp).withAnswer fun s hs => (each pair hp s hs).1.closed

theorem head?_suppliedValue {answer : Text → Option Text} {value : Text}
    (closed : ∀ ref ∈ references value, ∀ s, answer ref.name = some s → s.Closed) :
    (suppliedValue answer value).head? = value.head? := by
  have fits : (dissect value).Fits fun ref => ref.withAnswer (answer ref.name) := fun pair hp =>
    (whole_of_dissectFrom none value pair hp).withAnswer (closed pair.1 (List.mem_map_of_mem hp))
  have front := congrArg List.head? fits.take_render
  rwa [← suppliedValue_eq_render, render_dissect, List.head?_take, List.head?_take,
    if_neg (by decide), if_neg (by decide)] at front

theorem Reference.text_concat (ref : Reference) : ∃ front, ref.text = front ++ [')'] :=
  ⟨ref.keyword ++ '(' :: joinArgument ref.argument ref.fallback, by simp [text]⟩

/-- A supplied value ends like the value that it was made of, from the last parenthesis on that closes
a reference. -/
theorem suppliedValue_tail (answer : Text → Option Text) (value : Text) :
    suppliedValue answer value = value ∨ ∃ front front' back,
      value = front ++ ')' :: back ∧ suppliedValue answer value = front' ++ ')' :: back := by
  have whole := render_dissect value
  rw [suppliedValue_eq_render]
  generalize dissect value = d at whole
  obtain ⟨before, refs⟩ := d
  rcases List.eq_nil_or_concat' refs with rfl | ⟨refs, ⟨ref, behind⟩, rfl⟩
  · exact .inl whole
  · obtain ⟨front, text⟩ := ref.text_concat
    obtain ⟨front', text'⟩ := (ref.withAnswer (answer ref.name)).text_concat
    refine .inr ⟨before ++ refs.flatMap (fun pair => pair.1.text ++ pair.2) ++ front,
      before ++ refs.flatMap (fun pair => (pair.1.withAnswer (answer pair.1.name)).text ++ pair.2) ++
        front', behind, ?_, ?_⟩
    · rw [← whole]
      simp [Dissection.render, Dissection.replace, text]
    · simp [Dissection.render, Dissection.replace, Dissection.map, text', List.flatMap_map]

end Value

end CustomProperties
