import CustomProperties.Proofs.Sheet.Preorder
import CustomProperties.Proofs.Sheet.Renewal
import CustomProperties.Proofs.Sheet.Statement

/-!
Where the nodes of a stylesheet stand. Each node is started by one token, and tokens come one behind
the other; so the nodes, each before its children, stand at offsets that grow. At its offset stands what
the node is headed by, and the line and the column of the node are those of that offset.
-/

namespace CustomProperties

/-- How the value of a declaration is set apart from its name in the text: by white space, the colon
and blanks. -/
def Declaration.SetApart (source : Text) (d : Declaration) : Prop :=
  ∃ space blanks, source.extract (d.position.offset + d.name.length) d.start = space ++ ':' :: blanks ∧
    (∀ c ∈ space, isLayout c) ∧ ∀ c ∈ blanks, isBlank c

namespace Node

/-- What a node is headed by: the name of a declaration, the prelude of a block, or the text of a
statement. -/
def head : Node → Text
  | .declaration d => d.name
  | .block prelude _ _ => prelude
  | .statement text _ => text

def position : Node → Position
  | .declaration d => d.position
  | .block _ position _ => position
  | .statement _ position => position

def stop? : Node → Option Char
  | .declaration _ => none
  | .block _ _ _ => some '\x7b'
  | .statement _ _ => some ';'

/-- How a node stands in the text it was read from. -/
structure Stands (source : Text) (node : Node) : Prop where
  line : node.position.line = source.lineAt node.position.offset
  column : node.position.column = source.columnAt node.position.offset
  shows : node.head ≠ []
  head : node.head <+: source.drop node.position.offset
  apart : ∀ d, node = .declaration d → d.SetApart source
  stops : ∀ mark, node.stop? = some mark → ∃ blanks rest,
    source.drop (node.position.offset + node.head.length) = blanks ++ mark :: rest ∧
      ∀ b ∈ blanks, isBlank b

theorem head_bare (node : Node) : node.bare.head = node.head := by
  cases node <;> rfl

theorem position_bare (node : Node) : node.bare.position = node.position := by
  cases node <;> rfl

theorem stop?_bare (node : Node) : node.bare.stop? = node.stop? := by
  cases node <;> rfl

end Node

theorem brace_of_prelude? {t : Text} {l : Cut} (h : prelude? t = some l) :
    ∃ behind, l.rest = '\x7b' :: behind := by
  have whole : l.taken ++ l.rest = t := whole_of_prelude? h
  rw [← whole] at h
  exact (prelude?_append h rfl).2

namespace Token

variable {t : Token} {next : Option Token} {node : Node} {rest : Text} {mark : Char}

theorem position_of_node? (h : t.node? next = some node) : node.position = t.start := by
  rcases node?_cases h with ⟨-, value, rfl⟩ | ⟨-, rfl⟩ | ⟨-, rfl⟩
  · rfl
  · rfl
  · rfl

theorem head_of_node? (h : t.node? next = some node)
    (taken : t.kind.match? (t.text ++ rest) = some ⟨t.text, rest⟩) :
    node.head ≠ [] ∧ node.head <+: t.text := by
  have trimmed {c : Char} {more : Text} (first : t.text = c :: more) (shows : isBlank c = false) :
      Text.trimRight t.text ≠ [] ∧ Text.trimRight t.text <+: t.text := by
    refine ⟨?_, _, Text.trimRight_append t.text⟩
    rw [first, Text.trimRight_cons shows]
    exact List.cons_ne_nil _ _
  rcases node?_cases h with ⟨-, value, rfl⟩ | ⟨kind, rfl⟩ | ⟨kind, rfl⟩
  · exact ⟨Kind.taken_of_match? taken, List.prefix_rfl⟩
  · rw [kind] at taken
    obtain ⟨c, more, first, shows, -⟩ := of_prelude? taken
    exact trimmed first shows
  · rw [kind] at taken
    obtain ⟨more, first⟩ := of_statement? taken
    exact trimmed first (by decide)

/-- Behind the head of a node that is no declaration only blanks stand before its mark. -/
theorem stop_of_node? (h : t.node? next = some node) (stop : node.stop? = some mark)
    (taken : t.kind.match? (t.text ++ rest) = some ⟨t.text, rest⟩) :
    ∃ blanks behind, t.text ++ rest = node.head ++ (blanks ++ mark :: behind) ∧
      ∀ b ∈ blanks, isBlank b := by
  have trimmed {behind : Text} (first : rest = mark :: behind) : ∃ blanks behind,
      t.text ++ rest = Text.trimRight t.text ++ (blanks ++ mark :: behind) ∧
        ∀ b ∈ blanks, isBlank b := by
    refine ⟨(t.text.reverse.takeWhile isBlank).reverse, behind, ?_, fun b hb => ?_⟩
    · rw [← List.append_assoc, Text.trimRight_append, first]
    · exact List.mem_takeWhile_imp (List.mem_reverse.1 hb)
  rcases node?_cases h with ⟨-, value, rfl⟩ | ⟨kind, rfl⟩ | ⟨kind, rfl⟩
  · simp [Node.stop?] at stop
  · rw [kind] at taken
    obtain rfl : '\x7b' = mark := Option.some.inj stop
    obtain ⟨behind, first⟩ := brace_of_prelude? taken
    exact trimmed first
  · rw [kind] at taken
    obtain rfl : ';' = mark := Option.some.inj stop
    obtain ⟨behind, first⟩ := semicolon_of_statement? taken
    exact trimmed first

theorem positions_sublist (ts : List Token) :
    ((nodes ts).map Node.position).Sublist (ts.map Token.start) := by
  induction ts with
  | nil => exact .slnil
  | cons t ts ih =>
      rw [nodes, List.map_append, List.map_cons]
      cases found : t.node? ts.head? with
      | none => exact ih.cons _
      | some node =>
          rw [Option.toList_some, List.map_singleton, position_of_node? found]
          exact ih.cons_cons _

end Token

namespace Cursor

variable {c d : Cursor} {p : Token} {ts : List Token} {gap rest : Text}

theorem layout_of_property (hn : c.next = .ok (some (p, d))) (property : p.kind = .property)
    (skipped : layout d.rest = ⟨gap, rest⟩) : ∀ b ∈ gap, isLayout b := by
  have blank := blank_of_property hn property skipped
  have space := layout_of_blank d.rest
  rw [skipped] at space
  exact space blank

theorem Reads.increasing (h : c.Reads ts) (located : c.Located) :
    (ts.map Token.start).Pairwise fun p q => p.offset < q.offset := by
  induction h with
  | done => exact .nil
  | token hn later ih =>
      obtain ⟨located_d, -⟩ := located.next hn
      obtain ⟨-, -, -, stop⟩ := split_of_next hn
      have shows := length_pos_of_next hn
      refine .cons (fun q hq => ?_) (ih located_d)
      obtain ⟨u, hu, rfl⟩ := List.mem_map.1 hq
      obtain ⟨-, behind, -⟩ := later.placed located_d u hu
      omega

theorem Reads.setApart (h : c.Reads ts) (located : c.Located) :
    ∀ d ∈ Token.declared ts, d.SetApart c.source := by
  induction h using Reads.items with
  | done => simp [Token.declared]
  | token c d t ts hn ht _ ih =>
      obtain ⟨located_d, source, -⟩ := located.next hn
      rw [Token.declared_cons ht]
      exact source ▸ ih located_d
  | declaration c d e p v ts hn hp hv kind _ ih =>
      obtain ⟨located_d, source_d, -⟩ := located.next hn
      obtain ⟨located_e, source_e, -⟩ := located_d.next hv
      obtain ⟨-, -, -, stop⟩ := split_of_next hn
      obtain ⟨gap, skipped, -, -, start, -⟩ := of_next hv
      obtain ⟨text, colon⟩ := colon_of_next hv kind
      obtain ⟨front, mark, back, framed, first⟩ := Declaration.framed_ofTokens p colon
      rw [Token.declared_property hp kind]
      refine List.forall_mem_cons.2 ⟨?_, source_d ▸ source_e ▸ ih located_e⟩
      refine ⟨gap, front, ?_, layout_of_property hn hp skipped, framed.blank_front⟩
      have place : c.source.drop (p.start.offset + p.text.length) =
          gap ++ ':' :: front ++ ((Declaration.ofTokens p v).value ++ mark ++ back ++ e.rest) := by
        rw [← stop, ← source_d, located_d.at_offset.2, rest_of_layout skipped, colon, framed.whole]
        simp
      have width : (Declaration.ofTokens p v).start - (p.start.offset + p.text.length) =
          (gap ++ ':' :: front).length := by
        rw [first, start, stop, List.length_append, List.length_cons]
        omega
      show (c.source.drop (p.start.offset + p.text.length)).take
        ((Declaration.ofTokens p v).start - (p.start.offset + p.text.length)) = _
      rw [place, width, List.take_left]

end Cursor

namespace Stylesheet

variable {source : Text} {s : Stylesheet}

/-- The nodes of a stylesheet that was read, each before its children, stand in its text one behind the
other: each is headed by what stands at its offset, its line and column are those of the offset, and the
name of a declaration is followed by white space, a colon and blanks up to the value. -/
theorem positions_of_parse (parsed : parse source = .ok s) :
    (∀ node ∈ Node.preorderAll s.nodes, node.Stands source) ∧
      (Node.preorderAll s.nodes).Pairwise fun a b => a.position.offset < b.position.offset := by
  obtain ⟨ts, -, reads, rfl, declared⟩ := tokens_of_parse parsed
  have located := Cursor.located_start source
  have nodes : (Node.preorderAll (Forests.ofTokens ts).front).map Node.bare = Token.nodes ts := by
    rw [← Forests.preorder_ofTokens, reads.none_behind, List.flatMap_singleton]
  constructor
  · intro node inside
    obtain ⟨t, ht, next, starts⟩ :=
      Token.exists_of_mem_nodes (nodes ▸ List.mem_map_of_mem inside : node.bare ∈ Token.nodes ts)
    have position := Token.position_of_node? starts
    obtain ⟨placed, -⟩ := reads.placed located t ht
    obtain ⟨rest, stands, taken⟩ := reads.taken located t ht
    replace stands : source.drop t.start.offset = t.text ++ rest := stands
    obtain ⟨shows, head⟩ := Token.head_of_node? starts taken
    rw [Node.position_bare] at position
    rw [Node.head_bare] at shows head
    constructor
    case line =>
      rw [position, ← Text.positionAt_line]
      exact congrArg Position.line placed
    case column =>
      rw [position, ← Text.positionAt_column]
      exact congrArg Position.column placed
    case shows => exact shows
    case head =>
      rw [position, stands]
      exact head.trans (List.prefix_append _ _)
    case apart =>
      rintro d rfl
      refine reads.setApart located d ?_
      rw [← declared, declarations_eq_flattenAll, Node.flattenAll_eq_filterMap]
      exact List.mem_filterMap.2 ⟨_, inside, rfl⟩
    case stops =>
      intro mark stop
      rw [← Node.stop?_bare] at stop
      obtain ⟨blanks, behind, whole, blank⟩ := Token.stop_of_node? starts stop taken
      refine ⟨blanks, behind, ?_, blank⟩
      rw [position, ← List.drop_drop, stands, whole, Node.head_bare, List.drop_left]
  · have positions : (Node.preorderAll (Forests.ofTokens ts).front).map Node.position =
        (Token.nodes ts).map Node.position := by
      rw [← nodes, List.map_map]
      exact List.map_congr_left fun node _ => (Node.position_bare node).symm
    have increasing := (reads.increasing located).sublist (Token.positions_sublist ts)
    rwa [← positions, List.pairwise_map] at increasing

/-- Heads and strings that go over several lines, and separators of lines that end none. -/
def folded : Text :=
  "/*\u2028*/@media a\n, b \x7b\n\tc \x0c\n:\u00a0d;@x \"\n\"\t;--e:! important\x7d".toList

theorem positions_of_parse_folded :
    ∃ s, parse folded = .ok s ∧
      ((Node.preorderAll s.nodes).map fun node => (node.head, node.position)) =
        [("@media a\n, b".toList, ⟨5, 1, 6⟩), ("c".toList, ⟨21, 3, 2⟩),
          ("@x \"\n\"".toList, ⟨29, 4, 5⟩), ("--e".toList, ⟨37, 5, 4⟩)] ∧
      (∀ node ∈ Node.preorderAll s.nodes, node.Stands folded) ∧
      (Node.preorderAll s.nodes).Pairwise fun a b => a.position.offset < b.position.offset := by
  have read : (parse folded).toOption.map (fun s =>
      (Node.preorderAll s.nodes).map fun node => (node.head, node.position)) =
        some [("@media a\n, b".toList, ⟨5, 1, 6⟩), ("c".toList, ⟨21, 3, 2⟩),
          ("@x \"\n\"".toList, ⟨29, 4, 5⟩), ("--e".toList, ⟨37, 5, 4⟩)] := by
    decide +kernel
  obtain ⟨s, parsed, heads⟩ := Option.map_eq_some_iff.1 read
  exact ⟨s, ok_of_toOption parsed, heads, positions_of_parse (ok_of_toOption parsed)⟩

end Stylesheet

end CustomProperties
