import CustomProperties.Proofs.Sheet.Outline
import CustomProperties.Proofs.Sheet.Span

/-!
Where tokens stand. A cursor carries the line and the column along; they are those of its offset in the
text, so that a token is placed by its offset alone. What is read again at other offsets makes the same
tree with its positions moved.
-/

namespace CustomProperties

def Text.positionAt (t : Text) (offset : Nat) : Position := Position.start.advance (t.take offset)

/-- The line of an offset: one more than the line feeds before it. -/
def Text.lineAt (t : Text) (offset : Nat) : Nat := (t.take offset).count '\n' + 1

/-- The column of an offset: one more than the characters behind the last line feed before it. -/
def Text.columnAt (t : Text) (offset : Nat) : Nat :=
  ((t.take offset).reverse.takeWhile (· != '\n')).length + 1

theorem Position.start_advance (s : Text) : Position.start.advance s =
    ⟨s.length, s.count '\n' + 1, (s.reverse.takeWhile (· != '\n')).length + 1⟩ := by
  induction s using List.reverseRecOn with
  | nil => rfl
  | append_singleton s c ih =>
      rw [Position.advance_append, ih, Position.advance_cons, Position.advance_nil, Position.step]
      by_cases feed : c = '\n'
      · subst feed
        simp
      · simp [feed]

namespace Text

variable {s t : Text} {offset : Nat}

theorem positionAt_append (s t : Text) :
    positionAt (s ++ t) s.length = Position.start.advance s := by
  rw [positionAt, List.take_left]

theorem positionAt_append_left (h : offset ≤ s.length) (t : Text) :
    positionAt (s ++ t) offset = positionAt s offset := by
  rw [positionAt, positionAt, List.take_append_of_le_length h]

theorem positionAt_offset (h : offset ≤ t.length) : (positionAt t offset).offset = offset := by
  rw [positionAt, Position.advance_offset, List.length_take_of_le h]
  exact Nat.zero_add offset

theorem positionAt_line (t : Text) (offset : Nat) : (positionAt t offset).line = t.lineAt offset := by
  rw [positionAt, Position.start_advance, lineAt]

theorem positionAt_column (t : Text) (offset : Nat) :
    (positionAt t offset).column = t.columnAt offset := by
  rw [positionAt, Position.start_advance, columnAt]

end Text

namespace Cursor

variable {c c' d e : Cursor} {t : Token} {ts before behind : List Token}

/-- A cursor stands where what was read of its text ends. -/
def Located (c : Cursor) : Prop :=
  ∃ read, c.source = read ++ c.rest ∧ c.here = Position.start.advance read

theorem located_start (source : Text) : (start source).Located := ⟨[], rfl, rfl⟩

theorem Located.offset_le (h : c.Located) : c.here.offset ≤ c.source.length := by
  obtain ⟨read, whole, here⟩ := h
  rw [whole, here, Position.advance_offset, List.length_append]
  exact Nat.le_trans (Nat.le_of_eq (Nat.zero_add _)) (Nat.le_add_right ..)

theorem Located.at_offset (h : c.Located) :
    c.here = c.source.positionAt c.here.offset ∧ c.source.drop c.here.offset = c.rest := by
  obtain ⟨read, whole, here⟩ := h
  have offset : c.here.offset = read.length := by
    rw [here, Position.advance_offset]
    exact Nat.zero_add _
  rw [offset, whole, Text.positionAt_append, List.drop_left]
  exact ⟨here, rfl⟩

theorem Located.advance {front rest : Text} (h : c.Located) (split : c.rest = front ++ rest) :
    c.here.advance front = c.source.positionAt (c.here.offset + front.length) := by
  obtain ⟨read, whole, here⟩ := h
  have offset : c.here.offset + front.length = (read ++ front).length := by
    rw [here, Position.advance_offset, List.length_append]
    exact congrArg (· + front.length) (Nat.zero_add _)
  rw [offset, whole, split, ← List.append_assoc, Text.positionAt_append, here,
    Position.advance_append]

theorem Located.next (h : c.Located) (hn : c.next = .ok (some (t, d))) :
    d.Located ∧ d.source = c.source ∧ t.start = c.source.positionAt t.start.offset := by
  obtain ⟨front, skipped, -, -, start, behind⟩ := next_eq_some_iff.1 hn
  have split := rest_of_layout skipped
  have placed := h.advance split
  obtain ⟨read, whole, here⟩ := h
  rw [behind]
  refine ⟨⟨read ++ front ++ t.text, ?_, ?_⟩, rfl, ?_⟩
  · simp [whole, split]
  · show t.stop = _
    rw [Token.stop, start, here, Position.advance_append, Position.advance_append]
  · rw [start, Position.advance_offset]
    exact placed

/-- The tokens that are read from one cursor to another. -/
inductive Leads : Cursor → List Token → Cursor → Prop
  | here {c : Cursor} : Leads c [] c
  | token {c d e : Cursor} {t : Token} {ts : List Token} :
      c.next = .ok (some (t, d)) → Leads d ts e → Leads c (t :: ts) e

theorem Reads.split (h : c.Reads (before ++ behind)) : ∃ e, c.Leads before e ∧ e.Reads behind := by
  induction before generalizing c with
  | nil => exact ⟨c, .here, h⟩
  | cons t before ih =>
      cases h with
      | token hn later =>
          obtain ⟨e, leads, reads⟩ := ih later
          exact ⟨e, .token hn leads, reads⟩

/-- What is read from a cursor depends on the next token only. -/
theorem Reads.of_next_eq (h : c.Reads ts) (same : c'.next = c.next) : c'.Reads ts := by
  cases h with
  | done hn => exact .done (same.trans hn)
  | token hn later => exact .token (same.trans hn) later

theorem Leads.reads (h : c.Leads before e) (later : e.Reads behind) : c.Reads (before ++ behind) := by
  induction h with
  | here => exact later
  | token hn _ ih => exact .token hn (ih later)

theorem length_pos_of_next (hn : c.next = .ok (some (t, d))) : 0 < t.text.length := by
  obtain ⟨-, -, first, -⟩ := of_next hn
  exact List.length_pos_iff.2 (Kind.taken_of_match? (Kind.match?_of_first? first).2)

theorem Leads.offset_le (h : c.Leads ts e) : c.here.offset ≤ e.here.offset := by
  induction h with
  | here => exact Nat.le_refl _
  | token hn _ ih =>
      obtain ⟨front, -, start, stop⟩ := split_of_next hn
      omega

theorem Leads.offset_lt (h : c.Leads ts e) (some_read : ts ≠ []) :
    c.here.offset < e.here.offset := by
  cases h with
  | here => exact absurd rfl some_read
  | token hn later =>
      obtain ⟨front, -, start, stop⟩ := split_of_next hn
      have := length_pos_of_next hn
      have := later.offset_le
      omega

/-- Tokens stand within what was read, at the positions of their offsets. -/
theorem Leads.placed (h : c.Leads ts e) (located : c.Located) :
    e.Located ∧ e.source = c.source ∧ ∀ t ∈ ts, t.start = c.source.positionAt t.start.offset ∧
      c.here.offset ≤ t.start.offset ∧ t.start.offset + t.text.length ≤ e.here.offset ∧
        0 < t.text.length := by
  induction h with
  | here => exact ⟨located, rfl, by simp⟩
  | token hn later ih =>
      obtain ⟨front, -, start, stop⟩ := split_of_next hn
      obtain ⟨located_d, source, first⟩ := located.next hn
      obtain ⟨located_e, source_e, inside⟩ := ih located_d
      rw [source] at source_e inside
      have reached := later.offset_le
      refine ⟨located_e, source_e,
        List.forall_mem_cons.2 ⟨⟨first, ?_, ?_, length_pos_of_next hn⟩, fun t ht => ?_⟩⟩
      · omega
      · omega
      · obtain ⟨placed, after, before⟩ := inside t ht
        exact ⟨placed, by omega, before⟩

theorem Reads.placed (h : c.Reads ts) (located : c.Located) : ∀ t ∈ ts,
    t.start = c.source.positionAt t.start.offset ∧ c.here.offset ≤ t.start.offset ∧
      t.start.offset + t.text.length ≤ c.source.length := by
  rw [← List.append_nil ts] at h
  obtain ⟨e, leads, -⟩ := h.split
  obtain ⟨located_e, source, inside⟩ := leads.placed located
  intro t ht
  obtain ⟨placed, after, before, -⟩ := inside t ht
  exact ⟨placed, after, Nat.le_trans before (source ▸ located_e.offset_le)⟩

/-- A token is what its kind takes of the text at its offset. -/
theorem Reads.taken (h : c.Reads ts) (located : c.Located) : ∀ t ∈ ts,
    ∃ rest, c.source.drop t.start.offset = t.text ++ rest ∧
      t.kind.match? (t.text ++ rest) = some ⟨t.text, rest⟩ := by
  induction h with
  | done => simp
  | @token c d t ts hn _ ih =>
      obtain ⟨front, skipped, first, -, start, -⟩ := of_next hn
      obtain ⟨located_d, source, -⟩ := located.next hn
      refine List.forall_mem_cons.2 ⟨⟨d.rest, ?_, (Kind.match?_of_first? first).2⟩, source ▸ ih located_d⟩
      rw [start, ← List.drop_drop, located.at_offset.2, rest_of_layout skipped, List.drop_left]

end Cursor

def Position.move (text : Text) (move : Nat → Nat) (p : Position) : Position :=
  text.positionAt (move p.offset)

def Token.move (text : Text) (move : Nat → Nat) (t : Token) : Token :=
  { t with start := t.start.move text move }

def Declaration.move (text : Text) (move : Nat → Nat) (d : Declaration) : Declaration :=
  { d with position := d.position.move text move, start := move d.start }

namespace Node

mutual

def move (text : Text) (g : Nat → Nat) : Node → Node
  | .declaration d => .declaration (d.move text g)
  | .block prelude position children => .block prelude (position.move text g) (moveAll text g children)
  | .statement head position => .statement head (position.move text g)

def moveAll (text : Text) (g : Nat → Nat) : List Node → List Node
  | [] => []
  | node :: nodes => move text g node :: moveAll text g nodes

end

end Node

def Forests.move (text : Text) (g : Nat → Nat) (f : Forests) : Forests :=
  ⟨Node.moveAll text g f.front, f.behind.map (Node.moveAll text g)⟩

namespace Cursor

variable {c c' d e : Cursor} {t : Token} {ts : List Token} {text : Text} {g : Nat → Nat} {shift : Nat}

/-- From a cursor with the same text before it and at another offset, the same tokens are read there. -/
theorem Reads.move (h : c.Reads ts) (located : c'.Located) (rest : c'.rest = c.rest)
    (depth : c'.depth = c.depth) (last : c'.last.map Token.kind = c.last.map Token.kind)
    (offset : c'.here.offset = c.here.offset + shift) :
    c'.Reads (ts.map (Token.move c'.source (· + shift))) := by
  induction h generalizing c' with
  | done hn =>
      rw [next_eq_none_iff] at hn
      refine .done (next_eq_none_iff.2 ?_)
      rw [rest, depth, ← Option.map_eq_none_iff (f := Token.kind), last, Option.map_eq_none_iff]
      exact hn
  | @token c d t ts hn _ ih =>
      obtain ⟨front, skipped, first, inside, start, behind⟩ := next_eq_some_iff.1 hn
      let t' := t.move c'.source (· + shift)
      let d' : Cursor := ⟨c'.source, d.rest, t'.stop, depthAfter c'.depth t.kind, some t'⟩
      have start' : t'.start = c'.here.advance front := by
        have moved : t.start.offset + shift = c'.here.offset + front.length := by
          rw [start, Position.advance_offset, offset]
          omega
        show c'.source.positionAt (t.start.offset + shift) = _
        rw [moved, located.advance (rest.trans (rest_of_layout skipped))]
      have following : c'.following = c.following := by rw [Cursor.following, last]; rfl
      have hn' : c'.next = .ok (some (t', d')) :=
        next_eq_some_iff.2 ⟨front, rest ▸ skipped, following ▸ first, depth ▸ inside, start', rfl⟩
      refine .token hn' (ih (located.next hn').1 rfl ?_ ?_ ?_)
      · rw [behind]
        exact congrArg (depthAfter · t.kind) depth
      · rw [behind]
        rfl
      · rw [behind]
        show (t'.start.advance t.text).offset = (t.start.advance t.text).offset + shift
        rw [Position.advance_offset, Position.advance_offset, start', start, Position.advance_offset,
          Position.advance_offset, offset]
        omega

theorem Reads.ofTokens_move (h : c.Reads ts)
    (values : ∀ v ∈ ts, v.kind = .value → ∀ i ≤ v.text.length,
      (v.start.move text g).offset + i = g (v.start.offset + i)) :
    Forests.ofTokens (ts.map (Token.move text g)) = (Forests.ofTokens ts).move text g := by
  induction h using Reads.items with
  | done => rfl
  | token c d t ts hn other _ ih =>
      have later := ih (List.forall_mem_cons.1 values).2
      have kind : (t.move text g).kind = t.kind := rfl
      rw [List.map_cons, Forests.ofTokens, Forests.ofTokens, later, kind]
      generalize Forests.ofTokens ts = f
      obtain ⟨front, behind⟩ := f
      cases hk : t.kind with
      | property => exact absurd hk other
      | prelude => cases behind <;> rfl
      | statement => rfl
      | closeBrace => rfl
      | openBrace => rfl
      | semicolon => rfl
      | value => rfl
  | declaration c d e p v ts hn property hv kind _ ih =>
      obtain ⟨value, values⟩ := List.forall_mem_cons.1 (List.forall_mem_cons.1 values).2
      obtain ⟨content, colon⟩ := colon_of_next hv kind
      have moved : Declaration.ofTokens (p.move text g) (v.move text g) =
          (Declaration.ofTokens p v).move text g := by
        have indent : 1 + Text.indent (v.text.drop 1) ≤ v.text.length := by
          rw [colon, List.drop_succ_cons, List.drop_zero, List.length_cons, Nat.add_comm]
          exact Nat.succ_le_succ (List.takeWhile_prefix isBlank).length_le
        have start := value kind _ indent
        rw [← Nat.add_assoc, ← Nat.add_assoc] at start
        simp only [Declaration.ofTokens, Declaration.move, Token.move, start]
      rw [List.map_cons, List.map_cons, Forests.ofTokens_property property kind,
        Forests.ofTokens_property (t := p.move text g) property (v := v.move text g) kind, moved,
        ih values]
      rfl

end Cursor

end CustomProperties
