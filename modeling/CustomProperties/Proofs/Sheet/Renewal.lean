import CustomProperties.Proofs.Sheet.Firm
import CustomProperties.Proofs.Sheet.Outline
import CustomProperties.Proofs.Sheet.Span

/-!
Reading a stylesheet again with new values in the places of the old ones. New values that are firm
are read as values, and nothing else about the text is read in another way: each token starts where
its old text starts, with the same kinds tried before its own. The outline changes in the values alone.
-/

namespace CustomProperties

/-- A text before a brace or a semicolon is steady if it is no statement in the making, or else firm
and without comments: then what comes behind it does not decide how far it is read. -/
def Text.Steady (t : Text) : Prop := t.head? = some '@' → t.Firm ∧ ¬['/', '*'] <:+: t

instance (t : Text) : Decidable t.Steady := inferInstanceAs (Decidable (_ → _ ∧ ¬_))

theorem Text.Steady.of_trimRight {t : Text} (h : Text.Steady (Text.trimRight t)) : t.Steady := by
  intro first
  have blank : ∀ b ∈ (t.reverse.takeWhile isBlank).reverse, isBlank b := fun b hb =>
    List.mem_takeWhile_imp (List.mem_reverse.1 hb)
  have whole := Text.trimRight_append t
  have first' : (Text.trimRight t).head? = some '@' := by
    obtain ⟨rest, rfl⟩ := List.head?_eq_some_iff.1 first
    rw [Text.trimRight_cons (by decide), List.head?_cons]
  obtain ⟨firm, bare⟩ := h first'
  generalize (t.reverse.takeWhile isBlank).reverse = blanks at blank whole
  rw [← whole]
  refine ⟨Passes.append firm (fun star => ?_) ?_, bare_append_blanks bare blank⟩
  · exact absurd (blank _ (List.mem_of_mem_head? star)) (by decide)
  · exact passes_plain fun c hc => isPlain_of_blank (blank c hc)

namespace Kind

variable {kind : Kind} {x r r' : Text}

/-- A steady prelude is no statement, whatever is in its block. -/
theorem statement?_prelude (steady : x.Steady) (h : prelude? (x ++ r) = some ⟨x, r⟩)
    (brace : ∃ behind, r = '\x7b' :: behind) : statement? (x ++ r) = none := by
  obtain ⟨behind, rfl⟩ := brace
  obtain ⟨c, rest, taken, -⟩ := of_prelude? h
  obtain rfl : x = c :: rest := taken
  by_cases at_sign : c = '@'
  · subst at_sign
    obtain ⟨firm, bare⟩ := steady rfl
    have later : Passes .ground rest .ground := (passes_cons (by simp [startsLiteral_cons, isQuote])
      (by decide)).1 firm
    have tail : statementTail (rest ++ '\x7b' :: behind) = none := by
      refine later.pieces.statementTail (fun within => bare ?_) (by simp) ?_
      · exact within.trans (List.suffix_cons '@' rest).isInfix
      · have bare_brace : ¬['/', '*'] <+: '\x7b' :: behind := by simp
        rw [statementTail_cons bare_brace (stringOrGroup?_cons (by decide) (by decide) _) (by decide)]
        rfl
    show (statementTail (rest ++ '\x7b' :: behind)).map _ = none
    rw [tail]
    rfl
  · exact statement?_cons at_sign _

theorem first?_again {last : Option Kind} (fresh : last ≠ some .property) (other : kind ≠ .property)
    (steady : kind = .prelude ∨ kind = .statement → x.Steady) (head : r'.head? = r.head?)
    (first : first? (following last) (x ++ r) = some (kind, ⟨x, r⟩)) :
    first? (following last) (x ++ r') = some (kind, ⟨x, r'⟩) := by
  by_cases bound : kind.bounds
  · exact first?_bound bound first r'
  rcases following_cases last with ⟨property, -⟩ | ⟨-, only⟩ | ⟨-, items⟩
  · exact absurd property fresh
  · rw [only] at first
    obtain rfl := List.mem_singleton.1 (match?_of_first? first).1
    exact absurd rfl bound
  · rw [items, first?_items_iff] at first ⊢
    rcases first with ⟨taken, rfl⟩ | ⟨none_there, ⟨taken, rfl⟩ | ⟨-, ⟨-, property⟩ | ⟨-, mark⟩⟩⟩
    · obtain ⟨text, at_sign⟩ : ∃ text, x = '@' :: text := of_statement? taken
      have bare := (steady (.inr rfl) (at_sign ▸ rfl)).2
      exact .inl ⟨statement?_append taken bare head, rfl⟩
    · obtain ⟨again, brace⟩ := prelude?_append taken head
      exact .inr ⟨statement?_prelude (steady (.inl rfl)) again brace, .inl ⟨again, rfl⟩⟩
    · exact absurd property other
    · rcases mark with ⟨-, rfl⟩ | ⟨-, -, rfl⟩
      · exact absurd rfl bound
      · exact absurd rfl bound

end Kind

namespace Cursor

variable {c d : Cursor} {t : Token} {ts : List Token}

theorem head_behind_value (hn : c.next = .ok (some (t, d)))
    (value : c.last.map Token.kind = some .value)
    (plain : t.kind = .property → ∀ c ∈ t.text, isQuote c = false)
    (ends : ∀ char, c.rest.head? = some char → endsValue char) :
    ∀ char, c.rest.head? = some char → char = ';' ∨ char = '\x7d' := by
  intro char first
  have mark := ends char first
  obtain ⟨rest, text⟩ := List.head?_eq_some_iff.1 first
  have other {d : Char} (hd : endsValue d = false) : char ≠ d := by
    rintro rfl
    simp [mark] at hd
  obtain ⟨front, skipped, found, -⟩ := of_next hn
  rw [text, layout_of_endsValue mark] at skipped
  have same : char :: rest = t.text ++ d.rest := congrArg Cut.rest skipped
  have items : c.following = Kind.following none := by rw [following, value]; rfl
  have starts {a : Char} {more : Text} (taken : t.text = a :: more) : char = a := by
    rw [taken] at same
    exact (List.cons.inj same).1
  rw [items, Kind.first?_items_iff] at found
  rcases found with ⟨statement, -⟩ | ⟨-, ⟨prelude, -⟩ | ⟨-, ⟨property, kind⟩ | ⟨-, found⟩⟩⟩
  · obtain ⟨more, taken⟩ := of_statement? statement
    exact absurd (starts taken) (other (by decide))
  · obtain ⟨a, more, taken, -, inside, -⟩ := of_prelude? prelude
    rw [starts taken, inside] at mark
    simp at mark
  · obtain ⟨-, ⟨a, more, taken, -, -, inside, -⟩, -⟩ := property?_eq_some_iff.1 property
    have member : a ∈ t.text := by
      rw [show t.text = a :: more from taken]
      exact List.mem_cons_self ..
    have quote : isQuote a = false := plain kind a member
    have inside' := inside a (taken ▸ List.mem_cons_self ..)
    rw [starts taken] at mark
    simp only [endsProperty, Bool.or_eq_false_iff] at inside'
    simp [endsValue, quote, inside'] at mark
  · rcases found with ⟨semicolon, -⟩ | ⟨-, brace, -⟩
    · exact .inl (starts (mark?_eq_some_iff.1 semicolon).1)
    · exact .inr (starts (mark?_eq_some_iff.1 brace).1)

theorem Reads.behind_value (h : c.Reads ts) (value : c.last.map Token.kind = some .value)
    (plain : ∀ d ∈ Token.declared ts, ∀ c ∈ d.name, isQuote c = false)
    (ends : ∀ char, c.rest.head? = some char → endsValue char) :
    ∀ char, c.rest.head? = some char → char = ';' ∨ char = '\x7d' := by
  cases h with
  | done hn =>
      intro char first
      obtain ⟨rest, text⟩ := List.head?_eq_some_iff.1 first
      have empty := (next_eq_none_iff.1 hn).1
      rw [text, layout_of_endsValue (ends char first)] at empty
      simp at empty
  | @token _ d t ts hn later =>
      refine head_behind_value hn value (fun kind => ?_) ends
      obtain ⟨v, e, ts, rfl, -, kind', -⟩ := later.value_of_property hn kind
      rw [Token.declared_property kind kind'] at plain
      exact plain _ (List.mem_cons_self ..)

end Cursor

section Taken

variable {x r text rest : Text}

/-- No prelude starts with a property without quotes unless one comes to its brace behind the colon. -/
theorem prelude?_property {name blanks : Text} (h : IsPropertyName name)
    (quotes : ∀ c ∈ name, isQuote c = false) (blank : ∀ b ∈ blanks, isBlank b)
    (through : preludeTail rest = none) : prelude? (name ++ (blanks ++ ':' :: rest)) = none := by
  obtain ⟨c, more, rfl, -, -, inside, -⟩ := h
  have run : ∀ a ∈ more ++ (blanks ++ [':']), isQuote a = false ∧ isBrace a = false := by
    simp only [List.mem_append, List.mem_singleton]
    rintro a (ha | hb | rfl)
    · have inside' := inside a (List.mem_cons_of_mem c ha)
      simp only [endsProperty, Bool.or_eq_false_iff] at inside'
      exact ⟨quotes a (List.mem_cons_of_mem c ha), inside'.2⟩
    · have plain := isPlain_of_blank (blank a hb)
      simp only [isPlain, isQuiet, Bool.and_eq_true, Bool.not_eq_true'] at plain
      exact ⟨plain.1.1.1.1.1, plain.1.1.2⟩
    · decide
  have tail := preludeTail_run run through
  rw [List.append_assoc, List.append_assoc, List.singleton_append] at tail
  rw [List.cons_append, prelude?, tail]
  exact ite_self _

theorem Kind.first?_named {last : Option Kind}
    (first : first? (following last) (x ++ r) = some (.property, ⟨x, r⟩))
    (named : x.head? ≠ some '@' ∧ ∀ c ∈ x, isQuote c = false) {blanks : Text}
    (blank : ∀ b ∈ blanks, isBlank b) (through : preludeTail (text ++ rest) = none) :
    first? (following last) (x ++ (blanks ++ ':' :: (text ++ rest))) =
      some (.property, ⟨x, blanks ++ ':' :: (text ++ rest)⟩) := by
  obtain ⟨-, -, -, property⟩ := of_first?_property first
  obtain ⟨-, name, -⟩ := property?_eq_some_iff.1 property
  refine first?_property first rfl blank ?_ (prelude?_property name named.2 blank through)
  obtain ⟨c, more, rfl, -⟩ := name
  exact statement?_cons (fun at_sign => named.1 (by rw [at_sign, List.head?_cons])) _

theorem value?_firm (firm : text.Firm)
    (ends : ∀ c, rest.head? = some c → c = ';' ∨ c = '\x7d') :
    value? (':' :: (text ++ rest)) = some ⟨':' :: text, rest⟩ ∧ preludeTail (text ++ rest) = none := by
  have stop : valueText rest = ⟨[], rest⟩ ∧ preludeTail rest = none := by
    cases rest with
    | nil => exact ⟨by rw [valueText], by rw [preludeTail]⟩
    | cons c rest =>
        have other : enclosed? (c :: rest) = none ∧ endsValue c ∧ isQuote c = false ∧ c ≠ '\x7b' := by
          rcases ends c rfl with rfl | rfl
          all_goals
            refine ⟨?_, by decide, by decide, by decide⟩
            rw [enclosed?, stringOrGroup?_cons (by decide) (by decide), comment?_cons (by decide),
              Option.none_or]
        obtain ⟨bare, stops, quote, opening⟩ := other
        exact ⟨valueText_stop bare stops, preludeTail_stop quote opening stops⟩
  have sep : rest.head? ≠ some '*' := fun star => by simpa using ends _ star
  refine ⟨?_, Passes.preludeTail firm stop.2⟩
  rw [value?, (Passes.pieces firm).valueText sep, stop.1]
  simp [Cut.extend]

end Taken

namespace Declaration

/-- What lets a value take the place of the one that a declaration was read with. -/
structure Renewable (d : Declaration) (value : Text) : Prop where
  at_sign : d.name.head? ≠ some '@'
  quotes : ∀ c ∈ d.name, isQuote c = false
  firm : value.Firm
  trimmed : Text.trim value = value
  unmarked : d.important = false → ∀ front mark, IsMark mark → value ≠ front ++ mark

variable {d : Declaration} {value text front mark back : Text}

theorem Framed.firm (framed : d.Framed text front mark back) (firm : value.Firm) :
    Text.Firm (front ++ value ++ mark ++ back) := by
  have plain_mark : ∀ c ∈ mark, isPlain c := by
    cases important : d.important with
    | false => simp [(framed.unmarked important).1]
    | true => exact plain_of_mark (framed.marked important)
  have star_mark : mark.head? ≠ some '*' := by
    cases important : d.important with
    | false => simp [(framed.unmarked important).1]
    | true => exact star_of_mark (framed.marked important)
  have plain_back : ∀ c ∈ mark ++ back, isPlain c := fun c hc =>
    (List.mem_append.1 hc).elim (plain_mark c) fun hb => isPlain_of_blank (framed.blank_back c hb)
  have sep : (mark ++ back).head? ≠ some '*' := by
    rw [List.head?_append]
    cases mark with
    | nil => exact fun star => absurd (framed.blank_back _ (List.mem_of_mem_head? star)) (by decide)
    | cons c mark => exact star_mark
  rw [List.append_assoc, List.append_assoc, Text.Firm,
    passes_plain_append fun c hc => isPlain_of_blank (framed.blank_front c hc)]
  exact Passes.append firm sep (passes_plain plain_back)

theorem Framed.read (framed : d.Framed text front mark back) (renewable : d.Renewable value)
    (p : Token) {v : Token} (behind : v.text = ':' :: (front ++ value ++ mark ++ back)) :
    (ofTokens p v).value = value ∧ (ofTokens p v).important = d.important := by
  have made : ((ofTokens p v).value, (ofTokens p v).important) =
      splitImportant (Text.trim (front ++ value ++ mark ++ back)) := by
    simp only [ofTokens, behind, List.drop_succ_cons, List.drop_zero]
  have split : splitImportant (Text.trim (front ++ value ++ mark ++ back)) = (value, d.important) := by
    cases important : d.important with
    | true =>
        rw [List.append_assoc front]
        exact splitImportant_framed framed.blank_front framed.blank_back renewable.trimmed
          (framed.marked important)
    | false =>
        rw [(framed.unmarked important).1, List.append_nil]
        exact splitImportant_unmarked framed.blank_front framed.blank_back renewable.trimmed
          (renewable.unmarked important)
  exact Prod.mk.inj (made.trans split)

end Declaration

namespace Cursor

variable {c c' d e : Cursor} {p v : Token} {value text front mark back lead gap rest : Text}

theorem blank_of_property (hn : c.next = .ok (some (p, d))) (property : p.kind = .property)
    (skipped : layout d.rest = ⟨gap, rest⟩) : ∀ b ∈ gap, isBlank b := by
  obtain ⟨-, -, first, -⟩ := of_next hn
  rw [property] at first
  obtain ⟨-, -, blanks, more, at_colon, blank⟩ :=
    property?_eq_some_iff.1 (Kind.match?_of_first? first).2
  obtain ⟨ahead, behind, rfl, read⟩ := layout_blanks blank more
  rw [show d.rest = _ from at_colon, read] at skipped
  obtain rfl : ahead = gap := congrArg Cut.taken skipped
  exact fun b hb => blank b (List.mem_append_left _ hb)

/-- A declaration is read with a new value as it was read with the old one. -/
theorem next_declaration (hn : c.next = .ok (some (p, d))) (property : p.kind = .property)
    (hv : d.next = .ok (some (v, e))) (kind : v.kind = .value)
    (framed : (Declaration.ofTokens p v).Framed text front mark back)
    (renewable : (Declaration.ofTokens p v).Renewable value)
    (ends : ∀ char, rest.head? = some char → char = ';' ∨ char = '\x7d')
    (skipped : layout c.rest = ⟨lead, p.text ++ d.rest⟩)
    (skipped' : layout d.rest = ⟨gap, v.text ++ e.rest⟩)
    (here : c'.rest = lead ++ (p.text ++ (gap ++ ':' :: (front ++ value ++ mark ++ back ++ rest))))
    (last : c'.last.map Token.kind = c.last.map Token.kind) (depth : c'.depth = c.depth) :
    ∃ p' d' v' e', c'.next = .ok (some (p', d')) ∧ d'.next = .ok (some (v', e')) ∧
      p'.kind = .property ∧ p'.text = p.text ∧ v'.kind = .value ∧
      (Declaration.ofTokens p' v').value = value ∧
      (Declaration.ofTokens p' v').important = (Declaration.ofTokens p v).important ∧
      e'.rest = rest ∧ e'.depth = e.depth ∧ e'.last.map Token.kind = e.last.map Token.kind := by
  obtain ⟨-, -, first, -, -, -, depth_d, -⟩ := of_next hn
  obtain ⟨-, -, -, -, -, -, depth_e, last_e⟩ := of_next hv
  rw [property] at first depth_d
  have blank := blank_of_property hn property skipped'
  obtain ⟨value_taken, through⟩ := value?_firm (framed.firm renewable.firm) ends
  have found := Kind.first?_named first ⟨renewable.at_sign, renewable.quotes⟩ blank through
  rw [← last] at found
  obtain ⟨p', d', hn', kind_p, text_p, rest_d, depth_d', last_d⟩ :=
    next_again skipped here found (fun both => by simp at both)
  have following : d'.following = [.value] := by rw [following, last_d, Option.map_some, kind_p]; rfl
  have found' : Kind.first? d'.following (':' :: (front ++ value ++ mark ++ back) ++ rest) =
      some (.value, ⟨':' :: (front ++ value ++ mark ++ back), rest⟩) := by
    rw [following, List.cons_append]
    simp only [Kind.first?, List.findSome?, Kind.match?, value_taken, Option.map_some]
  obtain ⟨v', e', hv', kind_v, text_v, rest_e, depth_e', last_e'⟩ :=
    next_again skipped' (by rw [rest_d]; rfl) found' (fun both => by simp at both)
  obtain ⟨value_eq, important_eq⟩ := framed.read renewable p' text_v
  refine ⟨p', d', v', e', hn', hv', kind_p, text_p, kind_v, value_eq, important_eq, rest_e, ?_, ?_⟩
  · rw [depth_e', depth_d', depth, depth_e, depth_d, kind]
  · rw [last_e', last_e, Option.map_some, Option.map_some, kind_v, kind]

theorem next_token {t : Token} (hn : c.next = .ok (some (t, d))) (other : t.kind ≠ .property)
    (fresh : c.last.map Token.kind ≠ some .property)
    (steady : t.kind = .prelude ∨ t.kind = .statement → t.text.Steady)
    (skipped : layout c.rest = ⟨lead, t.text ++ d.rest⟩) (head : rest.head? = d.rest.head?)
    (here : c'.rest = lead ++ (t.text ++ rest))
    (last : c'.last.map Token.kind = c.last.map Token.kind) (depth : c'.depth = c.depth) :
    ∃ t' d', c'.next = .ok (some (t', d')) ∧ t'.kind = t.kind ∧ t'.text = t.text ∧ d'.rest = rest ∧
      d'.depth = d.depth ∧ d'.last.map Token.kind = d.last.map Token.kind := by
  obtain ⟨-, -, first, inside, -, -, depth_d, last_d⟩ := of_next hn
  have found := Kind.first?_again fresh other steady head first
  rw [← last] at found
  obtain ⟨t', d', hn', kind, text, rest', depth', last'⟩ :=
    next_again skipped here found (depth ▸ inside)
  refine ⟨t', d', hn', kind, text, rest', ?_, ?_⟩
  · rw [depth', depth_d, depth]
  · rw [last', last_d, Option.map_some, Option.map_some, kind]

end Cursor

def Declaration.renewal (g : Text → Text) (d : Declaration) : Edit := (d.assign (g d.value)).edit

theorem Edit.head?_apply {source : Text} {here : Nat} {es : List Edit} (fit : Edit.Fit source here es)
    (later : ∀ e ∈ es, here < e.start) : (Edit.apply source here es).head? = source.head? := by
  cases es with
  | nil => rfl
  | cons e es =>
      obtain ⟨front, back, rfl, start, -⟩ := fit
      have shows : front ≠ [] := by
        rintro rfl
        have := later e (List.mem_cons_self ..)
        simp [start] at this
      obtain ⟨c, front, rfl⟩ := List.exists_cons_of_ne_nil shows
      rw [Edit.apply_cons start]
      rfl

namespace Cursor

variable {c c' : Cursor} {ts : List Token} {g : Text → Text}

theorem Reads.fit_renewal (h : c.Reads ts) (g : Text → Text) :
    Edit.Fit c.rest c.here.offset ((Token.declared ts).map (Declaration.renewal g)) :=
  Edit.Fit.renew (f := Declaration.edit) (fun _ => rfl) (fun _ => rfl) h.fit

theorem Reads.head?_renewal (h : c.Reads ts) (g : Text → Text) :
    (Edit.apply c.rest c.here.offset ((Token.declared ts).map (Declaration.renewal g))).head? =
      c.rest.head? := by
  refine Edit.head?_apply (h.fit_renewal g) fun e he => ?_
  obtain ⟨d, hd, rfl⟩ := List.mem_map.1 he
  exact h.ordered.2 d hd

theorem apply_renewal {p v : Token} {d e : Cursor} {text front mark back lead gap : Text}
    {es : List Edit} (hn : c.next = .ok (some (p, d))) (hv : d.next = .ok (some (v, e)))
    (skipped : layout c.rest = ⟨lead, p.text ++ d.rest⟩)
    (skipped' : layout d.rest = ⟨gap, v.text ++ e.rest⟩)
    (framed : (Declaration.ofTokens p v).Framed text front mark back) (colon : v.text = ':' :: text)
    (begins : (Declaration.ofTokens p v).start = v.start.offset + 1 + front.length)
    (fit : Edit.Fit e.rest e.here.offset es) :
    Edit.apply c.rest c.here.offset ((Declaration.ofTokens p v).renewal g :: es) =
      lead ++ (p.text ++ (gap ++ ':' :: (front ++ g (Declaration.ofTokens p v).value ++ mark ++ back ++
        Edit.apply e.rest e.here.offset es))) := by
  obtain ⟨lead', before_p, -, -, start, offset, -⟩ := of_next hn
  obtain ⟨gap', before_v, -, -, start', offset', -⟩ := of_next hv
  obtain rfl : lead = lead' := congrArg Cut.taken (skipped.symm.trans before_p)
  obtain rfl : gap = gap' := congrArg Cut.taken (skipped'.symm.trans before_v)
  have source : c.rest = lead ++ p.text ++ gap ++ ':' :: front ++
      (Declaration.ofTokens p v).authored ++ (mark ++ back ++ e.rest) := by
    rw [rest_of_layout skipped, rest_of_layout skipped', colon, framed.whole]
    simp [Declaration.ofTokens]
  have before : ((Declaration.ofTokens p v).renewal g).start =
      c.here.offset + (lead ++ p.text ++ gap ++ ':' :: front).length := by
    simp only [Declaration.renewal, Declaration.edit, Declaration.assign, begins, start', offset,
      start, List.length_append, List.length_cons]
    omega
  have behind : ((Declaration.ofTokens p v).renewal g).stop + (mark ++ back).length =
      e.here.offset := by
    have width : v.text.length = 1 + front.length + (Declaration.ofTokens p v).authored.length +
        (mark ++ back).length := by
      rw [colon, framed.whole, show (Declaration.ofTokens p v).authored =
        (Declaration.ofTokens p v).value from rfl]
      simp only [List.length_cons, List.length_append]
      omega
    rw [offset', width]
    simp only [Edit.stop, Declaration.renewal, Declaration.edit, Declaration.assign, begins]
    omega
  rw [source]
  refine (Edit.apply_cons before).trans ?_
  rw [Edit.apply_prepend (behind ▸ fit), behind]
  simp [Declaration.renewal, Declaration.edit, Declaration.assign]

/-- With new values in place, the tokens are read as before, and make the same outlines apart from
these values. -/
theorem Reads.renew (h : c.Reads ts)
    (steady : ∀ t ∈ ts, t.kind = .prelude ∨ t.kind = .statement → t.text.Steady)
    (renewable : ∀ d ∈ Token.declared ts, d.Renewable (g d.value))
    (fresh : c.last.map Token.kind ≠ some .property)
    (here : c'.rest =
      Edit.apply c.rest c.here.offset ((Token.declared ts).map (Declaration.renewal g)))
    (last : c'.last.map Token.kind = c.last.map Token.kind) (depth : c'.depth = c.depth) :
    ∃ ts', c'.Reads ts' ∧
      (Forests.ofTokens ts').outlines id = (Forests.ofTokens ts).outlines g := by
  induction h using Reads.items generalizing c' with
  | done c hn =>
      obtain ⟨empty, closed⟩ := next_eq_none_iff.1 hn
      have ended : c'.next = .ok none := by
        rw [next_eq_none_iff, depth, show c'.rest = c.rest from here]
        refine ⟨empty, closed.imp_left fun start => ?_⟩
        rw [start, Option.map_none, Option.map_eq_none_iff] at last
        exact last
      exact ⟨[], .done ended, rfl⟩
  | token c d t ts hn other later ih =>
      obtain ⟨lead, skipped, -, -, start, offset, -, last_d⟩ := of_next hn
      obtain ⟨steady_t, steady_ts⟩ := List.forall_mem_cons.1 steady
      rw [Token.declared_cons other] at renewable here
      have fit := later.fit_renewal g
      have split : c.rest = lead ++ t.text ++ d.rest := by
        rw [rest_of_layout skipped, List.append_assoc]
      have same : c.here.offset + (lead ++ t.text).length = d.here.offset := by
        rw [offset, start, List.length_append, Nat.add_assoc]
      rw [split, Edit.apply_prepend (same ▸ fit), same, List.append_assoc] at here
      obtain ⟨t', d', hn', kind, text, rest, depth', last'⟩ :=
        next_token hn other fresh steady_t skipped (later.head?_renewal g) here last depth
      have fresh_d : d.last.map Token.kind ≠ some .property := by simpa [last_d] using other
      obtain ⟨ts', reads, same⟩ := ih steady_ts renewable fresh_d rest last' depth'
      exact ⟨t' :: ts', .token hn' reads, Forests.outlines_cons kind text other same⟩
  | declaration c d e p v ts hn property hv kind later ih =>
      obtain ⟨lead, skipped, -⟩ := of_next hn
      obtain ⟨gap, skipped', first', -, -, -, -, last_e⟩ := of_next hv
      obtain ⟨text, colon⟩ := colon_of_next hv kind
      obtain ⟨front, mark, back, framed, begins⟩ := Declaration.framed_ofTokens p colon
      have steady_ts := (List.forall_mem_cons.1 (List.forall_mem_cons.1 steady).2).2
      rw [Token.declared_property property kind] at renewable here
      obtain ⟨renewable_d, renewable_ts⟩ := List.forall_mem_cons.1 renewable
      have fit := later.fit_renewal g
      have ends : ∀ char, e.rest.head? = some char → char = ';' ∨ char = '\x7d' := by
        refine later.behind_value (by rw [last_e, Option.map_some, kind])
          (fun d hd => (renewable_ts d hd).quotes) ?_
        have taken := (Kind.match?_of_first? first').2
        rw [kind] at taken
        exact endsValue_of_value? taken
      have rest := here.trans (apply_renewal hn hv skipped skipped' framed colon begins fit)
      obtain ⟨p', d', v', e', hn', hv', kind_p, text_p, kind_v, value, important, rest_e, depth_e,
        last_e'⟩ := next_declaration hn property hv kind framed renewable_d
          (fun char first => ends char (later.head?_renewal g ▸ first)) skipped skipped' rest last depth
      have fresh_e : e.last.map Token.kind ≠ some .property := by simp [last_e, kind]
      obtain ⟨ts', reads, same⟩ := ih steady_ts renewable_ts fresh_e rest_e last_e' depth_e
      exact ⟨p' :: v' :: ts', .token hn' (.token hv' reads),
        Forests.outlines_declaration kind_p property text_p kind_v kind value important same⟩

end Cursor

namespace Stylesheet

variable {source : Text} {s : Stylesheet} {g : Text → Text}

/-- A stylesheet with steady heads and with values that can be renewed is read with new values in
place as the same tree, but for these values. -/
theorem parse_renewal (parsed : parse source = .ok s)
    (steady : ∀ head ∈ Node.headsAll s.nodes, head.Steady)
    (renewable : ∀ d ∈ s.declarations, d.Renewable (g d.value)) :
    ∃ again, parse (Edit.apply source 0 (s.declarations.map (Declaration.renewal g))) = .ok again ∧
      again.outline = Node.outlineAll g s.nodes := by
  obtain ⟨ts, -, reads, rfl, declared⟩ := tokens_of_parse parsed
  rw [declared] at renewable ⊢
  have closed : (Forests.ofTokens ts).behind = [] :=
    List.length_eq_zero_iff.1 (Nat.le_zero.1 reads.length_behind_le)
  have steady' : ∀ t ∈ ts, t.kind = .prelude ∨ t.kind = .statement → t.text.Steady := by
    intro t ht kind
    have head := Forests.mem_heads ht kind
    rw [closed, List.flatMap_singleton] at head
    exact (steady _ head).of_trimRight
  let text := Edit.apply source 0 ((Token.declared ts).map (Declaration.renewal g))
  have here : (Cursor.start text).rest = text := rfl
  obtain ⟨ts', reads', same⟩ := reads.renew steady' renewable (by simp [Cursor.start]) here rfl rfl
  exact ⟨⟨text, (Forests.ofTokens ts').front⟩, parse_of_tokens (Cursor.tokens_of_reads reads'),
    (List.cons.inj same).1⟩

end Stylesheet

end CustomProperties
