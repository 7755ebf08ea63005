import CustomProperties.Proofs.Sheet.Cursor
import CustomProperties.Proofs.Sheet.Edit
import CustomProperties.Proofs.Sheet.Walk

/-!
Reading a stylesheet. The tokens are taken from the text one behind the other, a property always with
its value, and blocks close as they open, so that every declaration belongs to the tree.
-/

namespace CustomProperties

namespace Cursor

/-- The tokens that are read from a cursor to the end of the text. -/
inductive Reads : Cursor → List Token → Prop
  | done {c : Cursor} : c.next = .ok none → Reads c []
  | token {c d : Cursor} {t : Token} {ts : List Token} :
      c.next = .ok (some (t, d)) → Reads d ts → Reads c (t :: ts)

theorem reads_of_tokens {c : Cursor} {ts : List Token} (h : c.tokens = .ok ts) : Reads c ts := by
  fun_induction tokens c generalizing ts with
  | case1 => simp at h
  | case2 c hn =>
      obtain rfl := Except.ok.inj h
      exact .done hn
  | case3 c t d hn ih =>
      cases hd : d.tokens with
      | error e => simp [hd, Except.map] at h
      | ok rest =>
          simp only [hd, Except.map, Except.ok.injEq] at h
          subst h
          exact .token hn (ih hd)

theorem tokens_of_reads {c : Cursor} {ts : List Token} (h : c.Reads ts) : c.tokens = .ok ts := by
  induction h with
  | done hn =>
      rw [tokens]
      split
      · simp_all
      · rfl
      · simp_all
  | token hn _ ih =>
      rw [tokens]
      split
      · simp_all
      · simp_all
      · rename_i found
        obtain ⟨rfl, rfl⟩ := Prod.mk.inj (Option.some.inj (Except.ok.inj (found.symm.trans hn)))
        rw [ih]
        rfl

section Items

variable {c d e : Cursor} {p v : Token} {ts : List Token}

theorem value_behind_property (hp : c.next = .ok (some (p, d))) (property : p.kind = .property)
    (hv : d.next = .ok (some (v, e))) : v.kind = .value := by
  obtain ⟨-, -, -, -, -, -, -, last⟩ := of_next hp
  obtain ⟨-, -, first, -⟩ := of_next hv
  have follows := (Kind.match?_of_first? first).1
  rw [following, last, Option.map_some, property] at follows
  exact Kind.eq_value_of_following follows

/-- The text does not end behind a property, and what comes there is a value. -/
theorem Reads.value_of_property (hp : c.next = .ok (some (p, d))) (hk : p.kind = .property)
    (h : d.Reads ts) :
    ∃ v e rest, ts = v :: rest ∧ d.next = .ok (some (v, e)) ∧ v.kind = .value ∧ e.Reads rest := by
  cases h with
  | done ended =>
      obtain ⟨-, -, first, -⟩ := of_next hp
      rw [hk] at first
      obtain ⟨-, -, blanks, rest, colon, blank⟩ :=
        property?_eq_some_iff.1 (Kind.match?_of_first? first).2
      obtain ⟨front, back, -, skipped⟩ := layout_blanks blank rest
      have empty := (next_eq_none_iff.1 ended).1
      rw [show d.rest = _ from colon, skipped] at empty
      simp at empty
  | @token _ e v rest hn later =>
      exact ⟨v, e, rest, rfl, hn, value_behind_property hp hk hn, later⟩

/-- Induction over what is read from a cursor, with each property and its value in one step. -/
@[elab_as_elim]
theorem Reads.items {motive : (c : Cursor) → (ts : List Token) → c.Reads ts → Prop}
    (done : ∀ (c : Cursor) (hn : c.next = .ok none), motive c [] (.done hn))
    (token : ∀ (c d : Cursor) (t : Token) (ts : List Token) (hn : c.next = .ok (some (t, d))),
      t.kind ≠ .property → ∀ h : d.Reads ts, motive d ts h → motive c (t :: ts) (.token hn h))
    (declaration : ∀ (c d e : Cursor) (p v : Token) (ts : List Token)
      (hn : c.next = .ok (some (p, d))), p.kind = .property →
      ∀ hv : d.next = .ok (some (v, e)), v.kind = .value →
      ∀ h : e.Reads ts, motive e ts h → motive c (p :: v :: ts) (.token hn (.token hv h)))
    (h : c.Reads ts) : motive c ts h := by
  induction n : ts.length using Nat.strong_induction_on generalizing c ts with
  | _ n ih =>
      subst n
      cases h with
      | done hn => exact done c hn
      | @token _ d t ts hn later =>
          by_cases hk : t.kind = .property
          · obtain ⟨v, e, rest, rfl, hv, kind, later'⟩ := later.value_of_property hn hk
            have shorter : rest.length < (t :: v :: rest).length := by
              simp only [List.length_cons]
              omega
            exact declaration c d e t v rest hn hk hv kind later' (ih _ shorter later' rfl)
          · exact token c d t ts hn hk later (ih _ (Nat.lt_succ_self _) later rfl)

end Items

end Cursor

def Token.declared : List Token → List Declaration
  | [] => []
  | t :: ts =>
      match t.kind, ts.head? with
      | .property, some value => .ofTokens t value :: declared ts
      | _, _ => declared ts

theorem Forests.flatten_ofTokens (ts : List Token) :
    ((Forests.ofTokens ts).front :: (Forests.ofTokens ts).behind).flatMap Node.flattenAll =
      Token.declared ts := by
  induction ts with
  | nil => rfl
  | cons t ts ih =>
      unfold Forests.ofTokens Token.declared
      cases t.kind with
      | property =>
          cases ts.head? with
          | none => exact ih
          | some value => simp [Forests.push, Node.flattenAll, Node.flatten, ← ih]
      | prelude =>
          rw [← ih]
          generalize Forests.ofTokens ts = f
          obtain ⟨front, behind⟩ := f
          cases behind <;> simp [Forests.enclose, Node.flattenAll, Node.flatten]
      | statement => simp [Forests.push, Node.flattenAll, Node.flatten, ← ih]
      | closeBrace => simp [Node.flattenAll, ← ih]
      | openBrace => exact ih
      | semicolon => exact ih
      | value => exact ih

namespace Node

mutual

def preorder : Node → List Node
  | .declaration d => [.declaration d]
  | .block prelude position children => .block prelude position children :: preorderAll children
  | .statement text position => [.statement text position]

def preorderAll : List Node → List Node
  | [] => []
  | node :: nodes => preorder node ++ preorderAll nodes

end

def bare : Node → Node
  | .block prelude position _ => .block prelude position []
  | node => node

end Node

namespace Token

def node? (t : Token) (next : Option Token) : Option Node :=
  match t.kind, next with
  | .property, some value => some (.declaration (.ofTokens t value))
  | .prelude, _ => some (.block (Text.trimRight t.text) t.start [])
  | .statement, _ => some (.statement (Text.trimRight t.text) t.start)
  | _, _ => none

def nodes : List Token → List Node
  | [] => []
  | t :: ts => (t.node? ts.head?).toList ++ nodes ts

variable {t : Token} {ts : List Token} {node : Node}

theorem mem_nodes (h : t ∈ ts) (starts : ∀ next, t.node? next = some node) : node ∈ nodes ts := by
  induction ts with
  | nil => simp at h
  | cons u ts ih =>
      rcases List.mem_cons.1 h with rfl | h
      · simp [nodes, starts]
      · exact List.mem_append_right _ (ih h)

theorem exists_of_mem_nodes (h : node ∈ nodes ts) : ∃ t ∈ ts, ∃ next, t.node? next = some node := by
  induction ts with
  | nil => simp [nodes] at h
  | cons u ts ih =>
      rcases List.mem_append.1 h with first | later
      · exact ⟨u, List.mem_cons_self .., _, Option.mem_toList.1 first⟩
      · obtain ⟨t, ht, starts⟩ := ih later
        exact ⟨t, List.mem_cons_of_mem u ht, starts⟩

/-- What a token starts: a declaration of its text, or a block or a statement that is headed by its text
without the blanks behind it. -/
theorem node?_cases {next : Option Token} (h : t.node? next = some node) :
    t.kind = .property ∧ (∃ value, node = .declaration (.ofTokens t value)) ∨
      t.kind = .prelude ∧ node = .block (Text.trimRight t.text) t.start [] ∨
        t.kind = .statement ∧ node = .statement (Text.trimRight t.text) t.start := by
  unfold node? at h
  split at h
  · rename_i kind
    exact .inl ⟨kind, _, (Option.some.inj h).symm⟩
  · rename_i kind
    exact .inr (.inl ⟨kind, (Option.some.inj h).symm⟩)
  · rename_i kind
    exact .inr (.inr ⟨kind, (Option.some.inj h).symm⟩)
  · simp at h

theorem of_node?_statement {next : Option Token} {text : Text} {position : Position}
    (h : t.node? next = some (.statement text position)) :
    t.kind = .statement ∧ text = Text.trimRight t.text ∧ position = t.start := by
  rcases node?_cases h with ⟨-, value, other⟩ | ⟨-, other⟩ | ⟨kind, same⟩
  · cases other
  · cases other
  · obtain ⟨rfl, rfl⟩ := Node.statement.inj same
    exact ⟨kind, rfl, rfl⟩

end Token

theorem Forests.preorder_ofTokens (ts : List Token) :
    (((Forests.ofTokens ts).front :: (Forests.ofTokens ts).behind).flatMap
      Node.preorderAll).map Node.bare = Token.nodes ts := by
  induction ts with
  | nil => rfl
  | cons t ts ih =>
      unfold Forests.ofTokens Token.nodes Token.node?
      rw [← ih]
      cases t.kind with
      | property =>
          cases ts.head? with
          | none => rfl
          | some value => simp [Forests.push, Node.preorderAll, Node.preorder, Node.bare]
      | prelude =>
          generalize Forests.ofTokens ts = f
          obtain ⟨front, behind⟩ := f
          cases behind <;> simp [Forests.enclose, Node.preorderAll, Node.preorder, Node.bare]
      | statement => simp [Forests.push, Node.preorderAll, Node.preorder, Node.bare]
      | closeBrace => simp [Node.preorderAll]
      | openBrace => rfl
      | semicolon => rfl
      | value => rfl

namespace Cursor

/-- How many blocks are open, counting one whose brace comes next. -/
def opened (c : Cursor) : Nat :=
  c.depth + if c.last.map Token.kind = some .prelude then 1 else 0

theorem Reads.length_behind_le {c : Cursor} {ts : List Token} (h : c.Reads ts) :
    (Forests.ofTokens ts).behind.length ≤ c.opened := by
  induction h with
  | done => simp [Forests.ofTokens]
  | @token c d t ts hn _ ih =>
      obtain ⟨-, -, first, closes, -, -, depth, last⟩ := of_next hn
      have follows := (Kind.match?_of_first? first).1
      have here : c.depth ≤ c.opened := Nat.le_add_right ..
      have later : (Forests.ofTokens ts).behind.length ≤
          depthAfter c.depth t.kind + if t.kind = .prelude then 1 else 0 := by
        simpa [opened, depth, last] using ih
      rw [Forests.ofTokens]
      cases hk : t.kind with
      | property =>
          rw [hk] at later
          cases ts.head? <;> exact Nat.le_trans later here
      | prelude =>
          rw [hk] at later
          have one_less : (Forests.ofTokens ts).behind.length - 1 ≤ c.depth := by
            simpa [depthAfter] using later
          simp only [Forests.enclose, List.length_tail]
          omega
      | closeBrace =>
          rw [hk] at later
          -- The brace was read with a block open, so the list of what is behind it may get longer.
          have some_open : c.depth ≠ 0 := fun none => closes ⟨hk, none⟩
          simp only [depthAfter, reduceCtorEq, if_false, List.length_cons] at later ⊢
          omega
      | openBrace =>
          have before := Kind.openBrace_mem_following (hk ▸ follows)
          rw [hk] at later
          simpa [opened, before, depthAfter] using later
      | statement =>
          rw [hk] at later
          exact Nat.le_trans later here
      | semicolon =>
          rw [hk] at later
          exact Nat.le_trans later here
      | value =>
          rw [hk] at later
          exact Nat.le_trans later here

/-- From the start of a text, every brace that closes closes a block. -/
theorem Reads.none_behind {source : Text} {ts : List Token} (h : (start source).Reads ts) :
    (Forests.ofTokens ts).behind = [] :=
  List.length_eq_zero_iff.1 (Nat.le_zero.1 h.length_behind_le)

end Cursor

end CustomProperties
