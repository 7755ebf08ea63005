import CustomProperties.Proofs.Sheet.Importance
import CustomProperties.Proofs.Sheet.Reading

/-!
The spans of declarations: the value of each declaration stands in the text of the stylesheet at the
offset that the declaration names, and the declarations follow each other in document order. Around
the value its token holds blanks, and the mark of importance if the declaration is important.
-/

namespace CustomProperties

namespace Declaration

/-- How the value of a declaration stands in the text behind its colon: between blanks, with the mark
of importance behind it when the declaration is important. Otherwise that text ends in no mark. -/
structure Framed (d : Declaration) (text front mark back : Text) : Prop where
  whole : text = front ++ d.value ++ mark ++ back
  blank_front : ∀ b ∈ front, isBlank b
  blank_back : ∀ b ∈ back, isBlank b
  marked : d.important = true → IsMark mark
  unmarked : d.important = false →
    mark = [] ∧ ∀ value mark, IsMark mark → Text.trim text ≠ value ++ mark

/-- How a declaration stands in the text it was read from: its span lies in the text and holds its
value, which shows at both ends; and the value is framed by the token behind its property. -/
structure Placed (source : Text) (d : Declaration) : Prop where
  start_le : d.start ≤ d.stop
  stop_le : d.stop ≤ source.length
  extract : source.extract d.start d.stop = d.value
  first_shows : ∀ c, d.value.head? = some c → isBlank c = false
  last_shows : ∀ c, d.value.getLast? = some c → isBlank c = false
  token : ∃ ts property value text, Token.all source = .ok ts ∧ [property, value] <:+: ts ∧
    property.kind = .property ∧ value.kind = .value ∧ d.name = property.text ∧
    value.text = ':' :: text ∧
    (∃ before behind, source = before ++ value.text ++ behind ∧
      value.start.offset = before.length) ∧
    ∃ front mark back, d.Framed text front mark back ∧
      d.start = value.start.offset + 1 + front.length

theorem Placed.trimmed {source : Text} {d : Declaration} (h : d.Placed source) :
    Text.trim d.value = d.value :=
  Text.trim_eq_self_iff.2
    ⟨Text.trimLeft_eq_self_iff.2 h.first_shows, Text.trimRight_eq_self_iff.2 h.last_shows⟩

theorem Placed.unmarked {source : Text} {d : Declaration} (h : d.Placed source)
    (plain : d.important = false) : ∀ front mark, IsMark mark → d.value ≠ front ++ mark := by
  obtain ⟨-, -, -, text, -, -, -, -, -, -, -, front, mark, back, framed, -⟩ := h.token
  obtain ⟨none_there, unmarked⟩ := framed.unmarked plain
  have body : Text.trim text = d.value := by
    rw [framed.whole, none_there, List.append_nil,
      Text.trim_framed framed.blank_front framed.blank_back, h.trimmed]
  exact fun front mark marked => body ▸ unmarked front mark marked

theorem framed_ofTokens (property : Token) {value : Token} {text : Text}
    (colon : value.text = ':' :: text) :
    ∃ front mark back, (ofTokens property value).Framed text front mark back ∧
      (ofTokens property value).start = value.start.offset + 1 + front.length := by
  obtain ⟨front, back, around, indent, blank_front, blank_back⟩ := Text.indent_append_trim text
  have behind : value.text.drop 1 = text := by rw [colon, List.drop_succ_cons, List.drop_zero]
  have start : (ofTokens property value).start = value.start.offset + 1 + front.length := by
    simp only [ofTokens, behind, indent]
  have made : ((ofTokens property value).value, (ofTokens property value).important) =
      splitImportant (Text.trim text) := by
    simp only [ofTokens, behind]
  rcases splitImportant_cases (Text.trim text) with ⟨mark, marked, whole, split⟩ | split
  · refine ⟨front, mark, back, ⟨?_, blank_front, blank_back, fun _ => marked, fun plain => ?_⟩, start⟩
    · rw [show (ofTokens property value).value = _ from congrArg Prod.fst made,
        List.append_assoc front, ← whole, ← around]
    · rw [← made] at split
      simp [plain] at split
  · refine ⟨front, [], back, ⟨?_, blank_front, blank_back, fun important => ?_, fun _ => ⟨rfl, ?_⟩⟩,
      start⟩
    · rw [show (ofTokens property value).value = _ from congrArg Prod.fst made, split,
        List.append_nil, ← around]
    · rw [← made] at split
      simp [important] at split
    · intro value' mark marked ends
      rw [ends, splitImportant_of_mark marked] at split
      simp at split

theorem trim_ofTokens (property value : Token) :
    Text.trim (ofTokens property value).value = (ofTokens property value).value :=
  trim_splitImportant (Text.trim_trim _)

theorem span_ofTokens (property : Token) {value : Token} {text : Text}
    (colon : value.text = ':' :: text) :
    ∃ front back, value.text = ':' :: front ++ (ofTokens property value).authored ++ back ∧
      (ofTokens property value).start = value.start.offset + (':' :: front).length := by
  obtain ⟨front, mark, back, framed, start⟩ := framed_ofTokens property colon
  refine ⟨front, mark ++ back, ?_, ?_⟩
  · rw [colon, framed.whole]
    simp [ofTokens]
  · rw [start, List.length_cons]
    omega

end Declaration

namespace Token

theorem declared_cons {t : Token} (h : t.kind ≠ .property) (ts : List Token) :
    declared (t :: ts) = declared ts := by
  rw [declared]
  split
  · rename_i property _
    exact absurd property h
  · rfl

theorem declared_property {p v : Token} (hp : p.kind = .property) (hv : v.kind = .value)
    (ts : List Token) : declared (p :: v :: ts) = .ofTokens p v :: declared ts := by
  have later : declared (v :: ts) = declared ts := declared_cons (by simp [hv]) ts
  rw [declared, hp, List.head?_cons, later]

end Token

namespace Cursor

variable {c : Cursor} {ts : List Token}

theorem Reads.fit (h : c.Reads ts) :
    Edit.Fit c.rest c.here.offset ((Token.declared ts).map Declaration.edit) := by
  induction h using Reads.items with
  | done => trivial
  | token c d t ts hn ht _ ih =>
      obtain ⟨front, split, start, here⟩ := split_of_next hn
      have same : c.here.offset + (front ++ t.text).length = d.here.offset := by
        rw [here, start, List.length_append, Nat.add_assoc]
      rw [Token.declared_cons ht, split]
      exact Edit.Fit.prepend (same ▸ ih)
  | declaration c d e p v ts hn hp hv kind _ ih =>
      obtain ⟨front, split, start, here⟩ := split_of_next hn
      obtain ⟨gap, split', start', here'⟩ := split_of_next hv
      obtain ⟨text, colon⟩ := colon_of_next hv kind
      obtain ⟨before, after, within, offset⟩ := Declaration.span_ofTokens p colon
      rw [Token.declared_property hp kind]
      refine ⟨front ++ p.text ++ gap ++ ':' :: before, after ++ e.rest, ?_, ?_, ?_⟩
      · rw [split, split', within]
        simp [Declaration.edit]
      · simp only [Declaration.edit, offset, start', here, start, List.length_append]
        omega
      · have same : (Declaration.ofTokens p v).edit.stop + after.length = e.here.offset := by
          simp only [Edit.stop, Declaration.edit, offset, here', within, List.length_append]
          omega
        exact Edit.Fit.prepend (same ▸ ih)

/-- Each declaration ends before the next value begins: a colon at least stands between them. -/
theorem Reads.ordered (h : c.Reads ts) :
    (Token.declared ts).Pairwise (fun d e => d.stop < e.start) ∧
      ∀ d ∈ Token.declared ts, c.here.offset < d.start := by
  induction h using Reads.items with
  | done => exact ⟨.nil, by simp [Token.declared]⟩
  | token c d t ts hn ht _ ih =>
      obtain ⟨front, split, start, here⟩ := split_of_next hn
      rw [Token.declared_cons ht]
      refine ⟨ih.1, fun e he => ?_⟩
      have := ih.2 e he
      omega
  | declaration c d e p v ts hn hp hv kind _ ih =>
      obtain ⟨front, split, start, here⟩ := split_of_next hn
      obtain ⟨gap, split', start', here'⟩ := split_of_next hv
      obtain ⟨text, colon⟩ := colon_of_next hv kind
      obtain ⟨before, after, within, offset⟩ := Declaration.span_ofTokens p colon
      have stop : (Declaration.ofTokens p v).stop ≤ e.here.offset := by
        simp only [Declaration.stop, offset, here', within, List.length_append]
        omega
      have first : c.here.offset < (Declaration.ofTokens p v).start := by
        rw [offset, List.length_cons]
        omega
      rw [Token.declared_property hp kind]
      refine ⟨.cons (fun f hf => Nat.lt_of_le_of_lt stop (ih.2 f hf)) ih.1,
        List.forall_mem_cons.2 ⟨first, fun f hf => ?_⟩⟩
      have := ih.2 f hf
      omega

theorem Reads.origin (h : c.Reads ts) : ∀ d ∈ Token.declared ts,
    ∃ property value text, [property, value] <:+: ts ∧ property.kind = .property ∧
      value.kind = .value ∧ d = .ofTokens property value ∧ value.text = ':' :: text ∧
      ∃ before behind, c.rest = before ++ value.text ++ behind ∧
        value.start.offset = c.here.offset + before.length := by
  induction h using Reads.items with
  | done => simp [Token.declared]
  | token c d t ts hn ht _ ih =>
      obtain ⟨front, split, start, here⟩ := split_of_next hn
      rw [Token.declared_cons ht]
      intro f hf
      obtain ⟨p, v, text, adjacent, hp, hv, made, colon, before, behind, rest, offset⟩ := ih f hf
      refine ⟨p, v, text, adjacent.trans (List.suffix_cons t ts).isInfix, hp, hv, made, colon,
        front ++ t.text ++ before, behind, ?_, ?_⟩
      · rw [split, rest]
        simp
      · simp only [offset, here, start, List.length_append]
        omega
  | declaration c d e p v ts hn hp hv kind _ ih =>
      obtain ⟨front, split, start, here⟩ := split_of_next hn
      obtain ⟨gap, split', start', here'⟩ := split_of_next hv
      obtain ⟨text, colon⟩ := colon_of_next hv kind
      rw [Token.declared_property hp kind]
      refine List.forall_mem_cons.2 ⟨?_, fun f hf => ?_⟩
      · refine ⟨p, v, text, (List.prefix_append [p, v] ts).isInfix, hp, kind, rfl, colon,
          front ++ p.text ++ gap, e.rest, ?_, ?_⟩
        · rw [split, split']
          simp
        · simp only [start', here, start, List.length_append]
          omega
      · obtain ⟨p', v', text', adjacent, hp', hv', made, colon', before, behind, rest, offset⟩ :=
          ih f hf
        refine ⟨p', v', text', adjacent.trans (List.suffix_append [p, v] ts).isInfix, hp', hv', made,
          colon', front ++ p.text ++ gap ++ v.text ++ before, behind, ?_, ?_⟩
        · rw [split, split', rest]
          simp
        · simp only [offset, here', start', here, start, List.length_append]
          omega

end Cursor

theorem ok_of_toOption {ε α : Type} {e : Except ε α} {a : α} (h : e.toOption = some a) :
    e = .ok a := by
  cases e with
  | error => simp [Except.toOption] at h
  | ok b => exact congrArg Except.ok (Option.some.inj h)

namespace Stylesheet

variable {source : Text} {s : Stylesheet}

theorem declarations_eq_flattenAll (s : Stylesheet) :
    s.declarations = Node.flattenAll s.nodes := by
  rw [declarations, Node.walk_eq_flatMap, List.flatMap_singleton]

theorem parse_of_tokens {ts : List Token} (h : Token.all source = .ok ts) :
    parse source = .ok ⟨source, (Forests.ofTokens ts).front⟩ := by
  rw [parse, h]
  rfl

/-- A stylesheet that was read is made of the tokens of its text, and its declarations are theirs. -/
theorem tokens_of_parse (h : parse source = .ok s) :
    ∃ ts, Token.all source = .ok ts ∧ (Cursor.start source).Reads ts ∧
      s = ⟨source, (Forests.ofTokens ts).front⟩ ∧ s.declarations = Token.declared ts := by
  unfold parse at h
  cases ht : Token.all source with
  | error e => simp [ht, Except.map] at h
  | ok ts =>
      simp only [ht, Except.map, Except.ok.injEq] at h
      subst h
      have reads := Cursor.reads_of_tokens ht
      refine ⟨ts, rfl, reads, rfl, ?_⟩
      rw [declarations, Node.walk_eq_flatMap, ← Forests.flatten_ofTokens, reads.none_behind]

theorem of_parse (h : parse source = .ok s) :
    s.source = source ∧ (∀ d ∈ s.declarations, d.value = d.authored) ∧
      Edit.Fit source 0 (s.declarations.map Declaration.edit) := by
  obtain ⟨ts, -, reads, rfl, declared⟩ := tokens_of_parse h
  rw [declared]
  refine ⟨rfl, fun d hd => ?_, reads.fit⟩
  obtain ⟨property, value, -, -, -, -, rfl, -⟩ := reads.origin d hd
  rfl

theorem toCss_of_parse (parsed : parse source = .ok s) : s.toCss = source := by
  obtain ⟨same, fresh, -⟩ := of_parse parsed
  have unmodified : s.declarations.filter Declaration.modified = [] :=
    List.filter_eq_nil_iff.2 fun d hd => by simp [Declaration.modified, fresh d hd]
  rw [toCss, changed, unmodified, same]
  rfl

/-- The spans of a stylesheet that was read hold the values of its declarations, and they follow each
other in document order without touching. -/
theorem spans_of_parse (parsed : parse source = .ok s) :
    (∀ d ∈ s.declarations, d.Placed source) ∧
      s.declarations.Pairwise fun d e => d.stop < e.start := by
  obtain ⟨-, fresh, fit⟩ := of_parse parsed
  obtain ⟨ts, tokens, reads, -, declared⟩ := tokens_of_parse parsed
  refine ⟨fun d hd => ?_, declared ▸ reads.ordered.1⟩
  obtain ⟨-, inside, place⟩ := fit.place d.edit (List.mem_map_of_mem hd)
  obtain ⟨property, value, text, adjacent, hp, hv, made, colon, before, behind, whole, offset⟩ :=
    reads.origin d (declared ▸ hd)
  obtain ⟨front, mark, back, framed, start⟩ := Declaration.framed_ofTokens property colon
  have trimmed : Text.trim d.value = d.value := made ▸ Declaration.trim_ofTokens property value
  obtain ⟨left, right⟩ := Text.trim_eq_self_iff.1 trimmed
  constructor
  case start_le => exact Nat.le_add_right ..
  case stop_le => exact Nat.le_trans inside (Nat.le_of_eq (Nat.zero_add _))
  case extract => exact place.trans (fresh d hd).symm
  case first_shows => exact Text.trimLeft_eq_self_iff.1 left
  case last_shows => exact Text.trimRight_eq_self_iff.1 right
  case token =>
    have name : d.name = property.text := by
      rw [made]
      rfl
    have offset' : value.start.offset = before.length := by
      rw [offset]
      exact Nat.zero_add _
    exact ⟨ts, property, value, text, tokens, adjacent, hp, hv, name, colon,
      ⟨before, behind, whole, offset'⟩, front, mark, back, made ▸ framed, made ▸ start⟩

/-- Values that are marked in odd ways, and values without any character. -/
def marked : Text :=
  "a \x7b b : x !important ! IMPORTANT ;c:; @m \x7b e: ! important\t\x7d f:g(;)!i \x7d".toList

theorem spans_of_parse_marked :
    ∃ s, parse marked = .ok s ∧
      (s.declarations.map fun d => (d.name, d.value, d.important, d.start, d.stop)) =
        [("b".toList, "x !important".toList, true, 8, 20), ("c".toList, [], false, 36, 36),
          ("e".toList, [], true, 46, 46), ("f".toList, "g(;)!i".toList, false, 62, 68)] ∧
      (∀ d ∈ s.declarations, d.Placed marked) ∧
      s.declarations.Pairwise fun d e => d.stop < e.start := by
  have read : (parse marked).toOption.map (fun s =>
      s.declarations.map fun d => (d.name, d.value, d.important, d.start, d.stop)) =
        some [("b".toList, "x !important".toList, true, 8, 20), ("c".toList, [], false, 36, 36),
          ("e".toList, [], true, 46, 46), ("f".toList, "g(;)!i".toList, false, 62, 68)] := by
    decide +kernel
  obtain ⟨s, parsed, values⟩ := Option.map_eq_some_iff.1 read
  exact ⟨s, ok_of_toOption parsed, values, spans_of_parse (ok_of_toOption parsed)⟩

end Stylesheet

end CustomProperties
