import CustomProperties.Proofs.Sheet.Place
import CustomProperties.Proofs.Sheet.Renewal
import CustomProperties.Proofs.Sheet.Weave

/-!
Putting a comment or white space in at an item boundary. The tokens before the boundary are read as
before unless one of their recognisers runs on into a comment; white space ends nothing that they leave
open. Those behind the boundary are read as before at later offsets, for what is put in is white space
to them. So the tree is the same with its positions moved.
-/

namespace CustomProperties

namespace Token

variable {t : Token} {ts : List Token}

/-- Tokens up to an item boundary: none at all, or the last one is a semicolon or a brace. -/
def Bounded (ts : List Token) : Prop := ∀ t ∈ ts.getLast?, t.kind.bounds

theorem Bounded.tail (h : Bounded (t :: ts)) : Bounded ts := by
  intro u hu
  refine h u ?_
  rw [List.getLast?_cons, hu]
  rfl

theorem Bounded.ne_nil (h : Bounded (t :: ts)) (other : t.kind.bounds = false) : ts ≠ [] := by
  rintro rfl
  have := h t rfl
  simp [other] at this

def reach (here : Nat) : List Token → Nat
  | [] => here
  | t :: ts => reach t.stop.offset ts

end Token

/-- If an item starts with the token, its head is read to the same end whatever comes behind. -/
structure Token.HeadEnds (t : Token) : Prop where
  steady : t.text.Steady
  named : t.kind = .property → t.text.head? ≠ some '@'

structure Token.DeclarationEnds (t : Token) : Prop where
  quotes : t.kind = .property → ∀ c ∈ t.text, isQuote c = false
  firm : t.kind = .value → Text.Firm (t.text.drop 1)

instance (t : Token) : Decidable t.HeadEnds :=
  decidable_of_iff (t.text.Steady ∧ (t.kind = .property → t.text.head? ≠ some '@'))
    ⟨fun h => ⟨h.1, h.2⟩, fun h => ⟨h.steady, h.named⟩⟩

instance (t : Token) : Decidable t.DeclarationEnds :=
  decidable_of_iff ((t.kind = .property → t.text.all fun c => !isQuote c) ∧
      (t.kind = .value → Text.Firm (t.text.drop 1)))
    ⟨fun h => ⟨fun property => by simpa using h.1 property, h.2⟩,
      fun h => ⟨fun property => by simpa using h.quotes property, h.firm⟩⟩

/-- The heads among some tokens are read to the same end with `k` put in before `post`: either they
end by themselves, or strings, groups and open comments go on through `k`. -/
def HeadsKept (k post : Text) (ts : List Token) : Prop :=
  (∀ t ∈ ts, t.HeadEnds) ∨
    k.Quiet ∧ commentTail (k ++ post) = (commentTail post).map (Cut.extend k)

def DeclarationsKept (k post : Text) (ts : List Token) : Prop :=
  (∀ t ∈ ts, t.DeclarationEnds) ∨
    k.Quiet ∧ ((∀ t ∈ ts, t.kind = .value → Text.Complete (t.text.drop 1)) ∨
      closeComment (k ++ post) = (closeComment post).map (Cut.extend k))

section Kept

variable {k post : Text} {t : Token} {ts : List Token}

theorem HeadsKept.tail (h : HeadsKept k post (t :: ts)) : HeadsKept k post ts :=
  h.imp_left fun kept u hu => kept u (List.mem_cons_of_mem t hu)

theorem DeclarationsKept.tail (h : DeclarationsKept k post (t :: ts)) : DeclarationsKept k post ts :=
  h.imp (fun kept u hu => kept u (List.mem_cons_of_mem t hu)) <| And.imp_right <|
    Or.imp_left fun complete u hu => complete u (List.mem_cons_of_mem t hu)

end Kept

section Heads

variable {k post x r text : Text} {last : Option Kind} {kind : Kind}

theorem Text.Marked.colon {blanks rest : Text} (marked : r.Marked)
    (h : r ++ post = blanks ++ ':' :: rest) (blank : ∀ b ∈ blanks, isBlank b) :
    ∃ more, r = blanks ++ ':' :: more := by
  have some_shows : ¬∀ b ∈ r, isBlank b := by
    intro blank
    obtain ⟨front, c, rfl, mark⟩ := marked
    have inside := endsProperty_of_blank (blank c (by simp))
    simp only [endsProperty, Bool.or_eq_false_iff] at inside
    simp [isMark, inside] at mark
  rcases List.append_eq_append_iff.1 h with ⟨more, rfl, -⟩ | ⟨more, rfl, behind⟩
  · exact absurd (fun b hb => blank b (List.mem_append_left _ hb)) some_shows
  · cases more with
    | nil => exact absurd (by simpa using blank) some_shows
    | cons c more =>
        obtain ⟨rfl, -⟩ := List.cons.inj behind
        exact ⟨more, rfl⟩

theorem Kind.first?_woven (fresh : last ≠ some .property)
    (first : first? (following last) (x ++ (r ++ post)) = some (kind, ⟨x, r ++ post⟩))
    (marked : kind.bounds = false → r.Marked)
    (head : x.Steady ∧ (kind = .property → x.head? ≠ some '@') ∨
      k.Quiet ∧ commentTail (k ++ post) = (commentTail post).map (Cut.extend k))
    (through : kind = .property → prelude? (x ++ (r ++ (k ++ post))) = none) :
    first? (following last) (x ++ (r ++ (k ++ post))) = some (kind, ⟨x, r ++ (k ++ post)⟩) := by
  by_cases bound : kind.bounds
  · exact first?_bound bound first _
  replace marked := marked (by simpa using bound)
  have same : (r ++ (k ++ post)).head? = (r ++ post).head? := by
    rw [List.head?_append_of_ne_nil _ marked.ne_nil, List.head?_append_of_ne_nil _ marked.ne_nil]
  have woven : k.Quiet ∧ commentTail (k ++ post) = (commentTail post).map (Cut.extend k) →
      Woven k post (statement? (x ++ (r ++ post))) (statement? (x ++ (r ++ (k ++ post)))) := by
    rintro ⟨quiet, comment⟩
    rw [← List.append_assoc, ← List.append_assoc]
    exact statement?_woven quiet comment (marked.append x)
  by_cases property : kind = .property
  · subst property
    obtain ⟨-, missed, -, taken⟩ := of_first?_property first
    obtain ⟨-, ⟨c, name, rfl, -⟩, blanks, rest, colon, blank⟩ := property?_eq_some_iff.1 taken
    obtain ⟨more, rfl⟩ := marked.colon colon blank
    refine first?_property first (List.append_assoc ..) blank ?_ (through rfl)
    rcases head with ⟨-, named⟩ | quiet
    · exact statement?_cons (fun at_sign => named rfl (by rw [at_sign, List.head?_cons])) _
    · exact (missed ▸ woven quiet).none_there
  rcases head with ⟨steady, -⟩ | quiet
  · exact first?_again fresh property (fun _ => steady) same first
  rcases following_cases last with ⟨before, -⟩ | ⟨-, only⟩ | ⟨-, items⟩
  · exact absurd before fresh
  · rw [only] at first
    obtain rfl := List.mem_singleton.1 (match?_of_first? first).1
    exact absurd rfl bound
  · rw [items, first?_items_iff] at first ⊢
    rcases first with ⟨taken, rfl⟩ | ⟨missed, ⟨taken, rfl⟩ | ⟨-, ⟨-, other⟩ | ⟨-, mark⟩⟩⟩
    · exact .inl ⟨(taken ▸ woven quiet).some_before marked.ne_nil, rfl⟩
    · exact .inr ⟨(missed ▸ woven quiet).none_there, .inl ⟨(prelude?_append taken same).1, rfl⟩⟩
    · exact absurd other property
    · rcases mark with ⟨-, rfl⟩ | ⟨-, -, rfl⟩
      · exact absurd rfl bound
      · exact absurd rfl bound

theorem value?_woven (h : value? (':' :: (text ++ (r ++ post))) = some ⟨':' :: text, r ++ post⟩)
    (marked : r.Marked)
    (kept : text.Firm ∧ (∀ c, r.head? = some c → c = ';' ∨ c = '\x7d') ∨
      k.Quiet ∧ (text.Complete ∨ closeComment (k ++ post) = (closeComment post).map (Cut.extend k))) :
    value? (':' :: (text ++ (r ++ (k ++ post)))) = some ⟨':' :: text, r ++ (k ++ post)⟩ := by
  rcases kept with ⟨firm, ends⟩ | ⟨quiet, comments⟩
  · refine (value?_firm firm fun c first => ends c ?_).1
    rwa [List.head?_append_of_ne_nil _ marked.ne_nil] at first
  · have ends : ∀ c, r.head? = some c → endsValue c := by
      intro c first
      refine endsValue_of_value? h c ?_
      rwa [List.head?_append_of_ne_nil _ marked.ne_nil]
    have taken : valueText (text ++ (r ++ post)) = ⟨text, r ++ post⟩ := by
      rw [value?] at h
      cases found : valueText (text ++ (r ++ post)) with
      | mk taken behind => simpa [found, Cut.extend] using h
    have again : valueText (text ++ (r ++ (k ++ post))) = ⟨text, r ++ (k ++ post)⟩ := by
      refine valueText_woven quiet (marked.append text) marked.ne_nil (fun w within => ?_) taken
      rcases comments with complete | passes
      · exact complete.comment?_woven within marked.ne_nil ends
      · rw [← List.append_assoc, ← List.append_assoc]
        exact comment?_woven passes (marked.append w)
    rw [value?, again]
    rfl

end Heads

namespace Cursor

variable {c d e : Cursor} {t v : Token} {ts : List Token} {k r : Text}

/-- What was read of the text up to a boundary. -/
theorem Leads.marked (h : c.Leads ts e) (bounded : Token.Bounded ts) :
    ∃ u, c.rest = u ++ e.rest ∧ (ts = [] → u = []) ∧ (ts ≠ [] → u.Marked) := by
  induction h with
  | here => exact ⟨[], rfl, fun _ => rfl, fun shows => absurd rfl shows⟩
  | @token c d e t ts hn later ih =>
      obtain ⟨front, split, -⟩ := split_of_next hn
      obtain ⟨u, rest, empty, marked⟩ := ih bounded.tail
      refine ⟨front ++ t.text ++ u, ?_, by simp, fun _ => ?_⟩
      · rw [split, rest]
        simp
      · by_cases last : ts = []
        · subst last
          obtain ⟨-, -, first, -⟩ := of_next hn
          rw [empty rfl, List.append_nil]
          exact (Kind.marked_of_bounds (bounded t rfl) (Kind.match?_of_first? first).2).append front
        · exact (marked last).append _

theorem Leads.behind_value (hv : c.next = .ok (some (v, d))) (value : v.kind = .value)
    (later : d.Leads ts e) (bounded : Token.Bounded (v :: ts)) (rest : d.rest = r ++ e.rest)
    (marked : r.Marked) (plain : ∀ t ∈ ts, t.kind = .property → ∀ c ∈ t.text, isQuote c = false) :
    ∀ char, r.head? = some char → char = ';' ∨ char = '\x7d' := by
  intro char first
  obtain ⟨-, -, found, -, -, -, -, last⟩ := of_next hv
  rw [value] at found
  cases later with
  | here => exact absurd rfl (bounded.ne_nil (by rw [value]; rfl))
  | token hn _ =>
      refine head_behind_value hn (by rw [last, Option.map_some, value])
        (plain _ (List.mem_cons_self ..)) (endsValue_of_value? (Kind.match?_of_first? found).2) char ?_
      rwa [rest, List.head?_append_of_ne_nil _ marked.ne_nil]

theorem Leads.prelude?_again (hn : c.next = .ok (some (t, d))) (property : t.kind = .property)
    (later : d.Leads ts e) (bounded : Token.Bounded (t :: ts))
    (declarations : DeclarationsKept k e.rest (t :: ts)) (rest : d.rest = r ++ e.rest)
    (marked : r.Marked) :
    prelude? (t.text ++ (r ++ (k ++ e.rest))) = none := by
  obtain ⟨-, -, first, -⟩ := of_next hn
  rw [property] at first
  obtain ⟨-, -, missed, taken⟩ := Kind.of_first?_property first
  rcases declarations with ends | ⟨quiet, -⟩
  · obtain ⟨-, name, -⟩ := property?_eq_some_iff.1 taken
    cases later with
    | here => exact absurd rfl (bounded.ne_nil (by rw [property]; rfl))
    | @token _ d' _ v ts hv later =>
        obtain ⟨gap, skipped, -⟩ := of_next hv
        have value := value_behind_property hn property hv
        obtain ⟨text, colon⟩ := colon_of_next hv value
        obtain ⟨ends_t, ends⟩ := List.forall_mem_cons.1 ends
        obtain ⟨ends_v, ends⟩ := List.forall_mem_cons.1 ends
        have firm : Text.Firm text := by
          have firm := ends_v.firm value
          rwa [colon] at firm
        obtain ⟨u, rest', -, marked'⟩ := later.marked bounded.tail.tail
        replace marked' := marked' (bounded.tail.ne_nil (by rw [value]; rfl))
        have next := later.behind_value hv value bounded.tail rest' marked' fun u hu =>
          (ends u hu).quotes
        have split : r = gap ++ ':' :: (text ++ u) := by
          have whole := rest_of_layout skipped
          rw [rest, rest', colon] at whole
          exact List.append_cancel_right (by simpa using whole)
        have through : preludeTail (text ++ (u ++ (k ++ e.rest))) = none := by
          refine (value?_firm firm fun char first => next char ?_).2
          rwa [List.head?_append_of_ne_nil _ marked'.ne_nil] at first
        rw [split]
        simpa using prelude?_property name (ends_t.quotes property)
          (blank_of_property hn property skipped) through
  · rw [rest, ← List.append_assoc] at missed
    rw [← List.append_assoc]
    exact (missed ▸ prelude?_woven quiet (marked.append t.text)).none_there

theorem Leads.first?_again (hn : c.next = .ok (some (t, d))) (later : d.Leads ts e)
    (bounded : Token.Bounded (t :: ts)) (heads : HeadsKept k e.rest (t :: ts))
    (declarations : DeclarationsKept k e.rest (t :: ts)) (rest : d.rest = r ++ e.rest)
    (marked : t.kind.bounds = false → r.Marked) :
    Kind.first? c.following (t.text ++ (r ++ (k ++ e.rest))) =
      some (t.kind, ⟨t.text, r ++ (k ++ e.rest)⟩) := by
  obtain ⟨-, -, first, -⟩ := of_next hn
  obtain ⟨follows, taken⟩ := Kind.match?_of_first? first
  by_cases value : t.kind = .value
  · replace marked := marked (by rw [value]; rfl)
    obtain ⟨text, colon⟩ := colon_of_next hn value
    have behind : t.text.drop 1 = text := by rw [colon]; rfl
    rw [value] at follows taken
    have following : c.following = [.value] := by
      rw [Cursor.following, Kind.value_mem_following follows]
      rfl
    have again : value? (t.text ++ (r ++ (k ++ e.rest))) = some ⟨t.text, r ++ (k ++ e.rest)⟩ := by
      rw [colon, rest] at taken
      rw [colon]
      refine value?_woven taken marked (declarations.imp (fun ends => ⟨?_, ?_⟩) <| And.imp_right <|
        Or.imp_left fun complete => ?_)
      · exact behind ▸ (ends t (List.mem_cons_self ..)).firm value
      · exact later.behind_value hn value bounded rest marked fun u hu =>
          (ends u (List.mem_cons_of_mem t hu)).quotes
      · exact behind ▸ complete t (List.mem_cons_self ..) value
    rw [following, value]
    simp only [Kind.first?, List.findSome?, Kind.match?, again, Option.map_some]
  · have fresh : c.last.map Token.kind ≠ some .property := by
      intro property
      rw [Cursor.following, property] at follows
      exact value (Kind.eq_value_of_following follows)
    rw [rest] at first
    refine Kind.first?_woven fresh first marked ?_ fun property => ?_
    · exact heads.imp_left fun ends =>
        ⟨(ends t (List.mem_cons_self ..)).steady, (ends t (List.mem_cons_self ..)).named⟩
    · replace marked := marked (by rw [property]; rfl)
      exact later.prelude?_again hn property bounded declarations rest marked

/-- With `k` put in at a boundary, the tokens before it are read as they were without it. -/
theorem Leads.insert (h : c.Leads ts e) (bounded : Token.Bounded ts) (heads : HeadsKept k e.rest ts)
    (declarations : DeclarationsKept k e.rest ts) (source : Text) {u : Text}
    (split : c.rest = u ++ e.rest) :
    Leads { c with source := source, rest := u ++ (k ++ e.rest) } ts
      { e with source := source, rest := k ++ e.rest } := by
  induction h generalizing u with
  | here =>
      obtain rfl : u = [] := by simpa using split
      exact .here
  | @token c d e t ts hn later ih =>
      obtain ⟨front, skipped, -, inside, start, behind⟩ := next_eq_some_iff.1 hn
      obtain ⟨r, rest, -, marked⟩ := later.marked bounded.tail
      obtain rfl : front ++ (t.text ++ r) = u := by
        refine List.append_cancel_right (Eq.trans ?_ split)
        rw [rest_of_layout skipped, rest]
        simp
      have found := later.first?_again hn bounded heads declarations rest fun other =>
        marked (bounded.ne_nil other)
      let c' : Cursor := { c with source := source, rest := front ++ (t.text ++ r) ++ (k ++ e.rest) }
      let d' : Cursor := { d with source := source, rest := r ++ (k ++ e.rest) }
      have here : c'.rest = front ++ (t.text ++ (r ++ (k ++ e.rest))) := by simp [c']
      have read : c'.next = .ok (some (t, d')) := by
        refine next_eq_some_iff.2 ⟨front, here ▸ layout_again skipped found, found, inside, start, ?_⟩
        simp only [d']
        rw [behind]
      exact .token read (ih bounded.tail heads.tail declarations.tail rest)

theorem Leads.reach (h : c.Leads ts e) : e.here.offset = Token.reach c.here.offset ts := by
  induction h with
  | here => rfl
  | token hn _ ih =>
      obtain ⟨-, -, -, -, -, behind⟩ := next_eq_some_iff.1 hn
      rw [ih, Token.reach]
      rw [behind]

theorem Leads.inside (h : c.Leads ts e) (bounded : Token.Bounded ts) :
    ∀ t ∈ ts, t.kind.bounds = false → t.start.offset + t.text.length < e.here.offset := by
  induction h with
  | here => simp
  | token hn later ih =>
      refine List.forall_mem_cons.2 ⟨fun other => ?_, ih bounded.tail⟩
      obtain ⟨front, -, -, stop⟩ := split_of_next hn
      exact stop ▸ later.offset_lt (bounded.ne_nil other)

end Cursor

def Text.insertAt (t : Text) (n : Nat) (k : Text) : Text := t.take n ++ (k ++ t.drop n)

theorem Text.length_insertAt (t : Text) (n : Nat) (k : Text) :
    (t.insertAt n k).length = t.length + k.length := by
  have whole := congrArg List.length (List.take_append_drop n t)
  rw [List.length_append] at whole
  rw [Text.insertAt, List.length_append, List.length_append]
  omega

theorem Text.positionAt_insertAt {t : Text} {n offset : Nat} (inside : n ≤ t.length) (h : offset ≤ n)
    (k : Text) : (t.insertAt n k).positionAt offset = t.positionAt offset := by
  have before : offset ≤ (t.take n).length := by rwa [List.length_take_of_le inside]
  rw [Text.insertAt, Text.positionAt_append_left before,
    ← Text.positionAt_append_left before (t.drop n), List.take_append_drop]

/-- The offsets from `n` on, moved by `width`. -/
def shiftFrom (n width offset : Nat) : Nat := if offset < n then offset else offset + width

/-- `k` can be put into a text behind some tokens: an item may start there, `k` is white space there,
and what was read before does not run on into it. -/
structure Insertable (source k : Text) (before behind : List Token) (n : Nat) : Prop where
  tokens : Token.all source = .ok (before ++ behind)
  bounded : Token.Bounded before
  place : Token.reach 0 before = n
  skipped : layout (k ++ source.drop n) = (layout (source.drop n)).extend k
  heads : HeadsKept k (source.drop n) before
  declarations : DeclarationsKept k (source.drop n) before

namespace Insertable

variable {source k : Text} {before behind : List Token} {n : Nat}

theorem cursor (h : Insertable source k before behind n) :
    ∃ e, (Cursor.start source).Leads before e ∧ e.Reads behind ∧ e.here.offset = n ∧
      e.rest = source.drop n ∧ e.here = Position.start.advance (source.take n) := by
  obtain ⟨e, leads, later⟩ := (Cursor.reads_of_tokens h.tokens).split
  obtain ⟨located, same, -⟩ := leads.placed (Cursor.located_start source)
  have offset : e.here.offset = n := leads.reach.trans h.place
  obtain ⟨read, whole, here⟩ := located
  replace whole : source = read ++ e.rest := same.symm.trans whole
  have width : read.length = n := by
    rw [← offset, here, Position.advance_offset]
    exact (Nat.zero_add _).symm
  subst width
  refine ⟨e, leads, later, offset, ?_, ?_⟩
  · rw [whole, List.drop_left]
  · rw [here, whole, List.take_left]

theorem all (h : Insertable source k before behind n) :
    Token.all (source.insertAt n k) =
      .ok (before ++ behind.map (Token.move (source.insertAt n k) (· + k.length))) := by
  obtain ⟨e, leads, later, offset, rest, here⟩ := h.cursor
  generalize written : source.insertAt n k = text
  rw [Text.insertAt, ← rest] at written
  let e' : Cursor := { e with source := text, rest := k ++ e.rest }
  -- Behind `k` the cursor reads what it read at the place.
  let f : Cursor := { e with source := text, here := e.here.advance k }
  have first : (Cursor.start text).Leads before e' := by
    have split : (Cursor.start source).rest = source.take n ++ e.rest := by
      rw [rest]
      exact (List.take_append_drop n source).symm
    have insert := leads.insert h.bounded (rest ▸ h.heads) (rest ▸ h.declarations) text split
    rw [written] at insert
    exact insert
  have located : f.Located := by
    refine ⟨source.take n ++ k, ?_, ?_⟩
    · rw [List.append_assoc]
      exact written.symm
    · rw [Position.advance_append, ← here]
  have behind_k : e'.next = f.next := by
    have skipped := h.skipped
    rw [← rest] at skipped
    have same : e'.skip = f.skip := by
      simp only [Cursor.skip, e', f, skipped, Cut.taken_extend, Cut.rest_extend,
        Position.advance_append]
    rw [Cursor.next, same, Cursor.next]
  have moved : f.Reads (behind.map (Token.move text (· + k.length))) :=
    later.move located rfl rfl rfl (Position.advance_offset ..)
  exact Cursor.tokens_of_reads (first.reads (moved.of_next_eq behind_k))

theorem le_length (h : Insertable source k before behind n) : n ≤ source.length := by
  obtain ⟨e, -, -, offset, -, here⟩ := h.cursor
  have zero : Position.start.offset = 0 := rfl
  rw [here, Position.advance_offset, List.length_take, zero] at offset
  omega

theorem move_before (h : Insertable source k before behind n) : ∀ t ∈ before,
    t.start.move (source.insertAt n k) (shiftFrom n k.length) = t.start ∧
      (t.kind.bounds = false → t.start.offset + t.text.length < n) := by
  obtain ⟨e, leads, -, offset, -⟩ := h.cursor
  intro t ht
  obtain ⟨placed, -, stop, shows⟩ := (leads.placed (Cursor.located_start source)).2.2 t ht
  have inside := leads.inside h.bounded t ht
  rw [offset] at stop inside
  refine ⟨?_, inside⟩
  have start : t.start.offset < n := by omega
  rw [Position.move, shiftFrom, if_pos start, Text.positionAt_insertAt h.le_length (Nat.le_of_lt start)]
  exact placed.symm

theorem move_behind (h : Insertable source k before behind n) : ∀ t ∈ behind, n ≤ t.start.offset ∧
    ∀ i ≤ t.text.length, (t.start.move (source.insertAt n k) (shiftFrom n k.length)).offset + i =
      shiftFrom n k.length (t.start.offset + i) := by
  obtain ⟨e, leads, later, offset, -⟩ := h.cursor
  obtain ⟨located, same, -⟩ := leads.placed (Cursor.located_start source)
  intro t ht
  obtain ⟨-, start, stop⟩ := later.placed located t ht
  rw [offset] at start
  rw [same] at stop
  refine ⟨start, fun i hi => ?_⟩
  have inside : t.start.offset + k.length ≤ (source.insertAt n k).length := by
    rw [Text.length_insertAt]
    exact Nat.add_le_add_right (Nat.le_trans (Nat.le_add_right ..) stop) _
  rw [Position.move, shiftFrom, shiftFrom, if_neg (by omega), if_neg (by omega),
    Text.positionAt_offset inside]
  omega

theorem all_eq_map (h : Insertable source k before behind n) :
    Token.all (source.insertAt n k) = .ok
      ((before ++ behind).map (Token.move (source.insertAt n k) (shiftFrom n k.length))) := by
  rw [h.all, List.map_append]
  congr 2
  · refine ((List.map_congr_left fun t ht => ?_).trans (List.map_id before)).symm
    rw [Token.move, (h.move_before t ht).1]
    rfl
  · refine List.map_congr_left fun t ht => ?_
    have start := (h.move_behind t ht).1
    rw [Token.move, Token.move, Position.move, Position.move, shiftFrom, if_neg (by omega)]

theorem move_values (h : Insertable source k before behind n) : ∀ v ∈ before ++ behind,
    v.kind = .value → ∀ i ≤ v.text.length,
      (v.start.move (source.insertAt n k) (shiftFrom n k.length)).offset + i =
        shiftFrom n k.length (v.start.offset + i) := by
  intro v hv value i hi
  rcases List.mem_append.1 hv with hv | hv
  · obtain ⟨same, inside⟩ := h.move_before v hv
    have stop := inside (by rw [value]; rfl)
    rw [same, shiftFrom, if_pos (by omega)]
  · exact (h.move_behind v hv).2 i hi

end Insertable

namespace Stylesheet

variable {source k body : Text} {s : Stylesheet} {before behind : List Token} {n : Nat}

/-- What is white space before the text behind an item boundary may be put in there, unless what is read
before the boundary runs on into it: the tree is the same, with its positions moved. -/
theorem parse_insertAt (parsed : parse source = .ok s) (h : Insertable source k before behind n) :
    parse (source.insertAt n k) =
      .ok ⟨source.insertAt n k, Node.moveAll (source.insertAt n k) (shiftFrom n k.length) s.nodes⟩ := by
  have reads := Cursor.reads_of_tokens h.tokens
  obtain rfl : s = ⟨source, (Forests.ofTokens (before ++ behind)).front⟩ :=
    Except.ok.inj (parsed.symm.trans (parse_of_tokens h.tokens))
  rw [parse_of_tokens h.all_eq_map, reads.ofTokens_move h.move_values]
  rfl

/-- A comment at an item boundary does nothing but move what stands behind it. What is read before the
boundary must not run on into it: either heads and values end by themselves, or the comment ends nothing
that they leave open. -/
theorem parse_comment (parsed : parse source = .ok s)
    (tokens : Token.all source = .ok (before ++ behind)) (bounded : Token.Bounded before)
    (place : Token.reach 0 before = n) (bare : ¬['*', '/'] <:+: body)
    (heads : (∀ t ∈ before, t.HeadEnds) ∨
      body.Flat ∧ ¬['*', '/'] <:+: '*' :: body ∧ statementTail (source.drop n) = none)
    (declarations : (∀ t ∈ before, t.DeclarationEnds) ∨
      body.Flat ∧ ∀ t ∈ before, t.kind = .value → Text.Complete (t.text.drop 1)) :
    parse (source.insertAt n (Text.comment body)) =
      .ok ⟨source.insertAt n (Text.comment body),
        Node.moveAll (source.insertAt n (Text.comment body)) (shiftFrom n (Text.comment body).length)
          s.nodes⟩ := by
  have insertable : Insertable source (Text.comment body) before behind n := by
    refine ⟨tokens, bounded, place, layout_comment_append bare _, ?_, ?_⟩
    · exact heads.imp_right <| And.imp Text.Flat.quiet_comment fun open_star =>
        commentTail_comment open_star.1 open_star.2
    · exact declarations.imp_right <| And.imp Text.Flat.quiet_comment .inl
  exact parse_insertAt parsed insertable

theorem parse_comment_apostrophe :
    let sheet : Text := "@media print \x7b a: \"x;y\" ; b:c \x7d".toList
    let comment := Text.comment " don't (stop; \x7d ".toList
    ∃ s, parse sheet = .ok s ∧ parse (sheet.insertAt 25 comment) =
      .ok ⟨sheet.insertAt 25 comment,
        Node.moveAll (sheet.insertAt 25 comment) (shiftFrom 25 comment.length) s.nodes⟩ := by
  intro sheet comment
  let before : List Token :=
    [⟨.prelude, "@media print ".toList, ⟨0, 1, 1⟩⟩, ⟨.openBrace, ['\x7b'], ⟨13, 1, 14⟩⟩,
      ⟨.property, ['a'], ⟨15, 1, 16⟩⟩, ⟨.value, ": \"x;y\" ".toList, ⟨16, 1, 17⟩⟩,
      ⟨.semicolon, [';'], ⟨24, 1, 25⟩⟩]
  let behind : List Token :=
    [⟨.property, ['b'], ⟨26, 1, 27⟩⟩, ⟨.value, ":c ".toList, ⟨27, 1, 28⟩⟩,
      ⟨.closeBrace, ['\x7d'], ⟨30, 1, 31⟩⟩]
  have read : (Token.all sheet).toOption = some (before ++ behind) := by decide +kernel
  have tokens : Token.all sheet = .ok (before ++ behind) := ok_of_toOption read
  have bounded : Token.Bounded before := by simp [before, Token.Bounded, Kind.bounds]
  refine ⟨_, parse_of_tokens tokens,
    parse_comment (parse_of_tokens tokens) tokens bounded rfl ?_ ?_ ?_⟩
  · decide +kernel
  · exact .inl (by decide +kernel)
  · exact .inl (by decide +kernel)

/-- A comment before the brace of a block is stretched to the end of one behind the brace, if from there
on a semicolon can be reached. -/
theorem parse_comment_stretched :
    let sheet : Text := "@media print /*x*/ \x7ba:b;\x7d".toList
    ∃ s before behind, parse sheet = .ok s ∧ Token.all sheet = .ok (before ++ behind) ∧
      Token.Bounded before ∧ Token.reach 0 before = 20 ∧
      ¬∃ again, parse (sheet.insertAt 20 (Text.comment [])) = .ok again := by
  intro sheet
  let before : List Token :=
    [⟨.prelude, "@media print /*x*/ ".toList, ⟨0, 1, 1⟩⟩, ⟨.openBrace, ['\x7b'], ⟨19, 1, 20⟩⟩]
  let behind : List Token :=
    [⟨.property, ['a'], ⟨20, 1, 21⟩⟩, ⟨.value, ":b".toList, ⟨21, 1, 22⟩⟩,
      ⟨.semicolon, [';'], ⟨23, 1, 24⟩⟩, ⟨.closeBrace, ['\x7d'], ⟨24, 1, 25⟩⟩]
  have read : (Token.all sheet).toOption = some (before ++ behind) := by decide +kernel
  have tokens : Token.all sheet = .ok (before ++ behind) := ok_of_toOption read
  have bounded : Token.Bounded before := by simp [before, Token.Bounded, Kind.bounds]
  have refused : (parse (sheet.insertAt 20 (Text.comment []))).toOption.isNone := by decide +kernel
  refine ⟨_, before, behind, parse_of_tokens tokens, tokens, bounded, rfl, ?_⟩
  rintro ⟨again, accepted⟩
  simp [accepted, Except.toOption] at refused

/-- White space at an item boundary does nothing but move what stands behind it: whatever is read before
the boundary, and however far its recognisers look behind it, is read to the same end. -/
theorem parse_layout (parsed : parse source = .ok s)
    (tokens : Token.all source = .ok (before ++ behind)) (bounded : Token.Bounded before)
    (place : Token.reach 0 before = n) (space : ∀ c ∈ k, isLayout c) :
    parse (source.insertAt n k) =
      .ok ⟨source.insertAt n k, Node.moveAll (source.insertAt n k) (shiftFrom n k.length) s.nodes⟩ := by
  have quiet := Text.quiet_of_layout space
  have insertable : Insertable source k before behind n := by
    refine ⟨tokens, bounded, place, layout_append_of_layout space _, ?_, ?_⟩
    · exact .inr ⟨quiet, commentTail_layout space _⟩
    · exact .inr ⟨quiet, .inr (closeComment_layout space _)⟩
  exact parse_insertAt parsed insertable

/-- A group and a comment that nothing ends, and white space of every kind between them. -/
theorem parse_layout_open :
    let sheet : Text := "@media print /*x*/ \x7ba:(b;c:d/*e;\x7d".toList
    let space : Text := " \t\x0c\r\n".toList
    let a : Declaration := ⟨"a".toList, "(b".toList, "(b".toList, false, ⟨20, 1, 21⟩, 22⟩
    let c : Declaration := ⟨"c".toList, "d/*e".toList, "d/*e".toList, false, ⟨25, 1, 26⟩, 27⟩
    let c' : Declaration := ⟨"c".toList, "d/*e".toList, "d/*e".toList, false, ⟨30, 2, 1⟩, 32⟩
    let block (declarations : List Declaration) : Node :=
      .block "@media print /*x*/".toList ⟨0, 1, 1⟩ (declarations.map .declaration)
    parse sheet = .ok ⟨sheet, [block [a, c]]⟩ ∧
      parse (sheet.insertAt 25 space) = .ok ⟨sheet.insertAt 25 space, [block [a, c']]⟩ := by
  intro sheet space a c c' block
  let before : List Token :=
    [⟨.prelude, "@media print /*x*/ ".toList, ⟨0, 1, 1⟩⟩, ⟨.openBrace, ['\x7b'], ⟨19, 1, 20⟩⟩,
      ⟨.property, ['a'], ⟨20, 1, 21⟩⟩, ⟨.value, ":(b".toList, ⟨21, 1, 22⟩⟩,
      ⟨.semicolon, [';'], ⟨24, 1, 25⟩⟩]
  let behind : List Token :=
    [⟨.property, ['c'], ⟨25, 1, 26⟩⟩, ⟨.value, ":d/*e".toList, ⟨26, 1, 27⟩⟩,
      ⟨.semicolon, [';'], ⟨31, 1, 32⟩⟩, ⟨.closeBrace, ['\x7d'], ⟨32, 1, 33⟩⟩]
  have read : (Token.all sheet).toOption = some (before ++ behind) := by decide +kernel
  have tokens : Token.all sheet = .ok (before ++ behind) := ok_of_toOption read
  have bounded : Token.Bounded before := by simp [before, Token.Bounded, Kind.bounds]
  have white : ∀ c ∈ space, isLayout c := List.all_eq_true.1 (by decide)
  have parsed : parse sheet = .ok ⟨sheet, [block [a, c]]⟩ := parse_of_tokens tokens
  have moved : Node.moveAll (sheet.insertAt 25 space) (shiftFrom 25 space.length) [block [a, c]] =
      [block [a, c']] := rfl
  refine ⟨parsed, ?_⟩
  rw [← moved]
  exact parse_layout parsed tokens bounded rfl white

end Stylesheet

end CustomProperties
