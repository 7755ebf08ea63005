import CustomProperties.Proofs.Sheet.Lexeme
import CustomProperties.Sheet.Cursor

/-!
Reading one token: white space is passed over, and behind it the first of the kinds that may follow
takes its text. A token is read again behind the same white space when its kind comes first again.
-/

namespace CustomProperties

theorem colon_of_value? {t : Text} {c : Cut} (h : value? t = some c) :
    ∃ text, c.taken = ':' :: text := by
  unfold value? at h
  split at h
  · obtain rfl := Option.some.inj h
    exact ⟨_, rfl⟩
  · simp at h

namespace Kind

variable {kind : Kind} {t : Text} {cut : Cut}

theorem match?_nil (kind : Kind) : kind.match? [] = none := by
  cases h : kind.match? [] with
  | none => rfl
  | some cut =>
      have whole := whole_of_match? h
      exact absurd (List.append_eq_nil_iff.1 whole).1 (taken_of_match? h)

theorem shows_of_match? (h : kind.match? t = some cut) :
    ∀ c, cut.taken.head? = some c → isLayout c = false ∧ c ≠ '/' := by
  have layout_of_shows {c : Char} (h : isBlank c = false) : isLayout c = false := by
    cases space : isLayout c with
    | false => rfl
    | true => simp [blank_of_layout space] at h
  have of_first {c : Char} (taken : cut.taken.head? = some c) (shows : isBlank c = false)
      (slash : c ≠ '/') : ∀ d, cut.taken.head? = some d → isLayout d = false ∧ d ≠ '/' := by
    rintro d hd
    obtain rfl : c = d := Option.some.inj (taken.symm.trans hd)
    exact ⟨layout_of_shows shows, slash⟩
  have of_mark {mark : Char} (h : mark? mark t = some cut) (shows : isBlank mark = false)
      (slash : mark ≠ '/') : ∀ d, cut.taken.head? = some d → isLayout d = false ∧ d ≠ '/' :=
    of_first (by rw [(mark?_eq_some_iff.1 h).1, List.head?_cons]) shows slash
  cases kind with
  | prelude =>
      obtain ⟨c, rest, taken, shows, -, slash⟩ := of_prelude? h
      exact of_first (by rw [taken, List.head?_cons]) shows slash
  | property =>
      obtain ⟨-, ⟨c, rest, name, shows, slash, -⟩, -⟩ := property?_eq_some_iff.1 h
      exact of_first (by rw [name, List.head?_cons]) shows slash
  | value =>
      obtain ⟨text, colon⟩ := colon_of_value? h
      exact of_first (by rw [colon, List.head?_cons]) (by decide) (by decide)
  | statement =>
      obtain ⟨text, at_sign⟩ := of_statement? h
      exact of_first (by rw [at_sign, List.head?_cons]) (by decide) (by decide)
  | openBrace => exact of_mark h (by decide) (by decide)
  | closeBrace => exact of_mark h (by decide) (by decide)
  | semicolon => exact of_mark h (by decide) (by decide)

/-- Which of the kinds that start an item comes first. -/
theorem first?_items_iff : first? (following none) t = some (kind, cut) ↔
    statement? t = some cut ∧ kind = .statement ∨
    statement? t = none ∧ (prelude? t = some cut ∧ kind = .prelude ∨
    prelude? t = none ∧ (property? t = some cut ∧ kind = .property ∨
    property? t = none ∧ (mark? ';' t = some cut ∧ kind = .semicolon ∨
    mark? ';' t = none ∧ mark? '\x7d' t = some cut ∧ kind = .closeBrace))) := by
  simp only [first?, following, List.findSome?, match?]
  cases statement? t <;> cases prelude? t <;> cases property? t <;> cases mark? ';' t <;>
    cases mark? '\x7d' t <;> simp [and_comm, eq_comm]

theorem following_cases (last : Option Kind) :
    last = some .property ∧ following last = [.value] ∨
      last = some .prelude ∧ following last = [.openBrace] ∨
        last ≠ some .property ∧ following last = following none := by
  rcases last with _ | _ | _ <;> simp [following]

/-- A property is taken only where neither a statement nor a prelude can be. -/
theorem of_first?_property {last : Option Kind}
    (first : first? (following last) t = some (.property, cut)) :
    following last = following none ∧ statement? t = none ∧ prelude? t = none ∧
      property? t = some cut := by
  obtain ⟨follows, taken⟩ := match?_of_first? first
  rcases following_cases last with ⟨-, only⟩ | ⟨-, only⟩ | ⟨-, items⟩
  · rw [only] at follows
    simp at follows
  · rw [only] at follows
    simp at follows
  · rw [items, first?_items_iff] at first
    rcases first with ⟨-, other⟩ | ⟨statement, ⟨-, other⟩ | ⟨prelude, -⟩⟩
    · simp at other
    · simp at other
    · exact ⟨items, statement, prelude, taken⟩

theorem first?_property {last : Option Kind} {x r r' blanks rest : Text}
    (first : first? (following last) (x ++ r) = some (.property, ⟨x, r⟩))
    (colon : r' = blanks ++ ':' :: rest) (blank : ∀ b ∈ blanks, isBlank b)
    (statement : statement? (x ++ r') = none) (prelude : prelude? (x ++ r') = none) :
    first? (following last) (x ++ r') = some (.property, ⟨x, r'⟩) := by
  obtain ⟨items, -, -, taken⟩ := of_first?_property first
  rw [items, first?_items_iff]
  exact .inr ⟨statement, .inr ⟨prelude, .inl ⟨property?_again taken colon blank, rfl⟩⟩⟩

theorem eq_value_of_following {kind : Kind} (h : kind ∈ Kind.following (some .property)) :
    kind = .value :=
  List.mem_singleton.1 h

theorem value_mem_following {last : Option Kind} (h : .value ∈ Kind.following last) :
    last = some .property := by
  rcases last with _ | last
  · simp [Kind.following] at h
  · cases last <;> simp [Kind.following] at h ⊢

theorem openBrace_mem_following {last : Option Kind} (h : .openBrace ∈ Kind.following last) :
    last = some .prelude := by
  rcases last with _ | last
  · simp [Kind.following] at h
  · cases last <;> simp [Kind.following] at h ⊢

def bounds : Kind → Bool
  | .openBrace | .closeBrace | .semicolon => true
  | _ => false

theorem first?_bound {last : Option Kind} {kind : Kind} {x r : Text} (bound : kind.bounds)
    (first : first? (following last) (x ++ r) = some (kind, ⟨x, r⟩)) (r' : Text) :
    first? (following last) (x ++ r') = some (kind, ⟨x, r'⟩) := by
  obtain ⟨follows, taken⟩ := match?_of_first? first
  rcases following_cases last with ⟨-, only⟩ | ⟨-, only⟩ | ⟨-, items⟩
  · rw [only] at follows
    obtain rfl := List.mem_singleton.1 follows
    simp [bounds] at bound
  · rw [only] at follows ⊢
    obtain rfl := List.mem_singleton.1 follows
    obtain ⟨rfl, -⟩ : x = ['\x7b'] ∧ _ := mark?_eq_some_iff.1 taken
    rfl
  · rw [items] at follows ⊢
    cases kind with
    | semicolon =>
        obtain ⟨rfl, -⟩ : x = [';'] ∧ _ := mark?_eq_some_iff.1 taken
        exact first?_items_iff.2 (.inr ⟨rfl, .inr ⟨rfl, .inr ⟨rfl, .inl ⟨rfl, rfl⟩⟩⟩⟩)
    | closeBrace =>
        obtain ⟨rfl, -⟩ : x = ['\x7d'] ∧ _ := mark?_eq_some_iff.1 taken
        exact first?_items_iff.2 (.inr ⟨rfl, .inr ⟨rfl, .inr ⟨rfl, .inr ⟨rfl, rfl, rfl⟩⟩⟩⟩)
    | openBrace => simp [following] at follows
    | prelude => simp [bounds] at bound
    | property => simp [bounds] at bound
    | value => simp [bounds] at bound
    | statement => simp [bounds] at bound

end Kind

namespace Cursor

variable {c d : Cursor} {t : Token} {front taken rest : Text} {kind : Kind}

theorem read_of_first {cut : Cut} (first : Kind.first? c.following c.rest = some (kind, cut)) :
    c.read = if kind = .closeBrace ∧ c.depth = 0 then
        .error (.unexpected (c.token kind cut).1 c.depth c.last)
      else .ok (some (c.token kind cut)) := by
  have shows : c.rest ≠ [] := by
    intro empty
    have found := (Kind.match?_of_first? first).2
    rw [empty, Kind.match?_nil] at found
    simp at found
  obtain ⟨char, rest, text⟩ := List.exists_cons_of_ne_nil shows
  obtain ⟨source, _, here, depth, last⟩ := c
  obtain rfl : _ = char :: rest := text
  simp only [read]
  rw [show Kind.first? _ _ = some (kind, cut) from first]

theorem next_eq_some_iff : c.next = .ok (some (t, d)) ↔
    ∃ front, layout c.rest = ⟨front, t.text ++ d.rest⟩ ∧
      Kind.first? c.following (t.text ++ d.rest) = some (t.kind, ⟨t.text, d.rest⟩) ∧
      ¬(t.kind = .closeBrace ∧ c.depth = 0) ∧ t.start = c.here.advance front ∧
      d = ⟨c.source, d.rest, t.stop, depthAfter c.depth t.kind, some t⟩ := by
  change c.skip.read = _ ↔ _
  constructor
  · intro h
    cases found : Kind.first? c.skip.following c.skip.rest with
    | none =>
        unfold read at h
        split at h
        · simp at h
        · split at h <;> simp at h
        · simp [found] at h
    | some pair =>
        obtain ⟨kind, cut⟩ := pair
        rw [read_of_first found] at h
        split at h
        · simp at h
        · rename_i inside
          obtain ⟨rfl, rfl⟩ := Prod.mk.inj (Option.some.inj (Except.ok.inj h))
          have whole : cut.taken ++ cut.rest = (layout c.rest).rest :=
            Kind.whole_of_match? (Kind.match?_of_first? found).2
          refine ⟨(layout c.rest).taken, ?_, ?_, inside, rfl, rfl⟩
          · show layout c.rest = ⟨_, cut.taken ++ cut.rest⟩
            rw [whole]
          · show Kind.first? c.skip.following (cut.taken ++ cut.rest) = some (kind, cut)
            rw [whole]
            exact found
  · rintro ⟨front, skipped, first, inside, start, behind⟩
    have skip : c.skip.rest = t.text ++ d.rest := congrArg Cut.rest skipped
    have here : c.skip.here = t.start := by
      rw [start]
      exact congrArg (fun cut => c.here.advance cut.taken) skipped
    have first' : Kind.first? c.skip.following c.skip.rest = some (t.kind, ⟨t.text, d.rest⟩) := by
      rw [skip]
      exact first
    have same : c.skip.token t.kind ⟨t.text, d.rest⟩ = (t, d) := by
      unfold token
      rw [here, behind]
      rfl
    rw [read_of_first first', same]
    exact if_neg inside

theorem of_next (h : c.next = .ok (some (t, d))) :
    ∃ front, layout c.rest = ⟨front, t.text ++ d.rest⟩ ∧
      Kind.first? c.following (t.text ++ d.rest) = some (t.kind, ⟨t.text, d.rest⟩) ∧
      ¬(t.kind = .closeBrace ∧ c.depth = 0) ∧
      t.start.offset = c.here.offset + front.length ∧
      d.here.offset = t.start.offset + t.text.length ∧
      d.depth = depthAfter c.depth t.kind ∧ d.last = some t := by
  obtain ⟨front, skipped, first, inside, start, behind⟩ := next_eq_some_iff.1 h
  rw [behind]
  exact ⟨front, skipped, first, inside, by rw [start, Position.advance_offset],
    Position.advance_offset .., rfl, rfl⟩

/-- White space before a token is skipped again whatever stands behind the token. -/
theorem layout_again {before behind : Text} (skipped : layout before = ⟨front, behind⟩)
    (first : Kind.first? c.following (taken ++ rest) = some (kind, ⟨taken, rest⟩)) :
    layout (front ++ (taken ++ rest)) = ⟨front, taken ++ rest⟩ := by
  have matched := (Kind.match?_of_first? first).2
  have again := layout_append before (taken ++ rest) fun d first => by
    obtain ⟨char, more, text⟩ := List.exists_cons_of_ne_nil (Kind.taken_of_match? matched)
    obtain rfl : taken = char :: more := text
    exact Kind.shows_of_match? matched d first
  rwa [skipped] at again

theorem next_again {before behind : Text} (skipped : layout before = ⟨front, behind⟩)
    (here : c.rest = front ++ (taken ++ rest))
    (first : Kind.first? c.following (taken ++ rest) = some (kind, ⟨taken, rest⟩))
    (inside : ¬(kind = .closeBrace ∧ c.depth = 0)) :
    ∃ t d, c.next = .ok (some (t, d)) ∧ t.kind = kind ∧ t.text = taken ∧ d.rest = rest ∧
      d.depth = depthAfter c.depth kind ∧ d.last = some t := by
  let t : Token := ⟨kind, taken, c.here.advance front⟩
  let d : Cursor := ⟨c.source, rest, t.stop, depthAfter c.depth kind, some t⟩
  have read : c.next = .ok (some (t, d)) :=
    next_eq_some_iff.2 ⟨front, here ▸ layout_again skipped first, first, inside, rfl, rfl⟩
  exact ⟨t, d, read, rfl, rfl, rfl, rfl, rfl⟩

theorem rest_of_layout {t behind : Text} (skipped : layout t = ⟨front, behind⟩) :
    t = front ++ behind := by
  rw [← whole_layout t, skipped]
  rfl

/-- Where reading ends, only white space is left and all blocks are closed. -/
theorem next_eq_none_iff : c.next = .ok none ↔
    (layout c.rest).rest = [] ∧ (c.last = none ∨ c.depth = 0) := by
  change c.skip.read = _ ↔ c.skip.rest = [] ∧ (c.skip.last = none ∨ c.skip.depth = 0)
  generalize c.skip = c
  unfold read
  split
  · simp_all
  · simp_all
  · rename_i rest_eq
    constructor
    · intro h
      split at h
      · simp at h
      · split at h <;> simp at h
    · intro h
      simp [rest_eq] at h

/-- Where the next token stands. -/
theorem split_of_next (h : c.next = .ok (some (t, d))) :
    ∃ front, c.rest = front ++ t.text ++ d.rest ∧
      t.start.offset = c.here.offset + front.length ∧
      d.here.offset = t.start.offset + t.text.length := by
  obtain ⟨front, skipped, -, -, start, here, -⟩ := of_next h
  exact ⟨front, by rw [rest_of_layout skipped, List.append_assoc], start, here⟩

theorem colon_of_next (h : c.next = .ok (some (t, d))) (value : t.kind = .value) :
    ∃ text, t.text = ':' :: text := by
  obtain ⟨-, -, first, -⟩ := of_next h
  rw [value] at first
  exact colon_of_value? (Kind.match?_of_first? first).2

end Cursor

end CustomProperties
