import Mathlib.Data.List.Infix
import CustomProperties.Proofs.Sheet.Cursor
import CustomProperties.Proofs.Sheet.Firm

/-!
Putting a text in at an item boundary, behind a semicolon or a brace. What is read up to there may run
over the boundary before it turns back: a string or a group that something behind the boundary ends, a
comment that may reach to a later end. A text without quotes and parentheses is passed over in all of
these, so that each recogniser comes to the same place with it as without it, except for the end of a
comment that it may hold.
-/

namespace CustomProperties

def isMark (c : Char) : Bool := c == ';' || isBrace c

/-- A text up to an item boundary: its last character is a mark. -/
def Text.Marked (t : Text) : Prop := ∃ front c, t = front ++ [c] ∧ isMark c

section Marked

variable {c : Char} {t x r : Text}

theorem Text.Marked.ne_nil (h : t.Marked) : t ≠ [] := by
  obtain ⟨front, c, rfl, -⟩ := h
  simp

theorem Text.Marked.append (h : t.Marked) (x : Text) : Text.Marked (x ++ t) := by
  obtain ⟨front, c, rfl, mark⟩ := h
  exact ⟨x ++ front, c, (List.append_assoc ..).symm, mark⟩

theorem Text.Marked.right (h : Text.Marked (x ++ r)) (shows : r ≠ []) : r.Marked := by
  obtain ⟨front, c, split, mark⟩ := h
  refine ⟨r.dropLast, r.getLast shows, (List.dropLast_concat_getLast shows).symm, ?_⟩
  have last := congrArg List.getLast? split
  rw [List.getLast?_append, List.getLast?_eq_some_getLast shows, Option.some_or,
    List.getLast?_concat] at last
  exact Option.some.inj last ▸ mark

theorem Text.Marked.suffix (h : Text.Marked (x ++ r)) : r = [] ∨ r.Marked := by
  by_cases empty : r = []
  · exact .inl empty
  · exact .inr (h.right empty)

theorem Text.Marked.rest (h : Text.Marked (c :: t)) : t = [] ∨ t.Marked :=
  Text.Marked.suffix (x := [c]) h

theorem Text.Marked.tail (h : Text.Marked (c :: t)) (other : isMark c = false) : t.Marked := by
  refine Text.Marked.right (x := [c]) h fun empty => ?_
  subst empty
  obtain ⟨front, d, split, mark⟩ := h
  obtain rfl : c = d := by simpa using congrArg List.getLast? split
  simp [mark] at other

theorem Text.Marked.unpaired {a b : Char} (marked : Text.Marked (c :: t)) (other : isMark a = false)
    (bare : ¬∃ w, c = a ∧ t = b :: w) (u : Text) : ¬[a, b] <+: c :: (t ++ u) := by
  rintro ⟨rest, same⟩
  obtain ⟨rfl, later⟩ := List.cons.inj same
  obtain ⟨e, w, rfl⟩ := List.exists_cons_of_ne_nil (marked.tail other).ne_nil
  obtain ⟨rfl, -⟩ := List.cons.inj later
  exact bare ⟨w, rfl, rfl⟩

theorem Kind.marked_of_bounds {kind : Kind} {l : Cut} (bound : kind.bounds)
    (h : kind.match? t = some l) : l.taken.Marked := by
  have single {mark : Char} (h : mark? mark t = some l) (marks : isMark mark) : l.taken.Marked :=
    ⟨[], mark, (mark?_eq_some_iff.1 h).1, marks⟩
  cases kind with
  | openBrace => exact single h (by decide)
  | closeBrace => exact single h (by decide)
  | semicolon => exact single h (by decide)
  | prelude => simp [Kind.bounds] at bound
  | property => simp [Kind.bounds] at bound
  | value => simp [Kind.bounds] at bound
  | statement => simp [Kind.bounds] at bound

theorem isMark_of_isQuote (h : isQuote c) : isMark c = false := by
  have marks : c = '"' ∨ c = '\'' := by simpa [isQuote] using h
  rcases marks with rfl | rfl <;> decide

end Marked

/-- What a recogniser answers before `post`, and what it answers when `k` is put in there: nothing in
both cases, or the same cut before the place, or a cut behind it that takes `k` along. -/
inductive Woven (k post : Text) : Option Cut → Option Cut → Prop
  | missed : Woven k post none none
  | before {x r : Text} :
      r ≠ [] → Woven k post (some ⟨x, r ++ post⟩) (some ⟨x, r ++ (k ++ post)⟩)
  | behind {x y z : Text} : y ++ z = post → Woven k post (some ⟨x ++ y, z⟩) (some ⟨x ++ (k ++ y), z⟩)

namespace Woven

variable {k post t : Text} {a b : Option Cut} {l l' : Cut} {f : Text → Option Cut}

theorem extend (h : Woven k post a b) (front : Text) :
    Woven k post (a.map (Cut.extend front)) (b.map (Cut.extend front)) := by
  cases h with
  | missed => exact .missed
  | before shows => exact .before shows
  | @behind x y z split =>
      have woven : Woven k post (some ⟨front ++ x ++ y, z⟩) (some ⟨front ++ x ++ (k ++ y), z⟩) :=
        .behind split
      rw [List.append_assoc, List.append_assoc] at woven
      exact woven

theorem cases_both (h : Woven k post a b) : a = none ∧ b = none ∨
    ∃ l l', a = some l ∧ b = some l' ∧ Woven k post (some l) (some l') := by
  cases a with
  | none =>
      cases h
      exact .inl ⟨rfl, rfl⟩
  | some l =>
      cases b with
      | none => cases h
      | some l' => exact .inr ⟨l, l', rfl, rfl, h⟩

/-- A recogniser that passes over `k` comes to the same behind it. -/
theorem of_passes (whole : ∀ {c}, f post = some c → c.whole = post)
    (passes : f (k ++ post) = (f post).map (Cut.extend k)) :
    Woven k post (f post) (f (k ++ post)) := by
  rw [passes]
  cases found : f post with
  | none => exact .missed
  | some c => exact .behind (x := []) (whole found)

theorem or {a' b' : Option Cut} (h : Woven k post a b) (h' : Woven k post a' b') :
    Woven k post (a.or a') (b.or b') := by
  rcases h.cases_both with ⟨rfl, rfl⟩ | ⟨l, l', rfl, rfl, same⟩
  · rwa [Option.none_or, Option.none_or]
  · rwa [Option.some_or, Option.some_or]

theorem none_there (h : Woven k post none b) : b = none := by
  cases h
  rfl

theorem some_before {x r : Text} (h : Woven k post (some ⟨x, r ++ post⟩) b) (shows : r ≠ []) :
    b = some ⟨x, r ++ (k ++ post)⟩ := by
  generalize same : some (Cut.mk x (r ++ post)) = a at h
  cases h with
  | missed => simp at same
  | @before x' r' _ =>
      obtain ⟨rfl, rest⟩ := Cut.mk.inj (Option.some.inj same)
      rw [List.append_cancel_right rest]
  | @behind x' y z split =>
      obtain ⟨-, rest⟩ := Cut.mk.inj (Option.some.inj same)
      have longer := congrArg List.length (split ▸ rest)
      have := List.length_pos_iff.2 shows
      simp only [List.length_append] at longer
      omega

theorem bind {v : Text} (h : Woven k post (some l) (some l')) (here : l.whole = v ++ post)
    (taken : l.taken ≠ []) (marked : v.Marked) (whole : ∀ {t c}, f t = some c → c.whole = t)
    (later : ∀ r : Text, r.Marked → r.length < v.length →
      Woven k post (f (r ++ post)) (f (r ++ (k ++ post)))) :
    Woven k post ((f l.rest).map (Cut.extend l.taken)) ((f l'.rest).map (Cut.extend l'.taken)) := by
  cases h with
  | @before x r shows =>
      obtain rfl : x ++ r = v :=
        List.append_cancel_right ((List.append_assoc x r post).trans here)
      have shorter : r.length < (x ++ r).length := by
        have := List.length_pos_iff.2 (show x ≠ [] from taken)
        rw [List.length_append]
        omega
      exact (later r (marked.right shows) shorter).extend x
  | @behind x y z split =>
      cases found : f z with
      | none => exact .missed
      | some c =>
          have rest : y ++ c.taken ++ c.rest = post := by
            rw [List.append_assoc, ← split, ← whole found, Cut.whole]
          have woven : Woven k post (some ⟨x ++ (y ++ c.taken), c.rest⟩)
              (some ⟨x ++ (k ++ (y ++ c.taken)), c.rest⟩) := .behind rest
          simpa [Cut.extend] using woven

end Woven

/-- A text without quotes and parentheses. -/
def Text.Flat (t : Text) : Prop := ∀ c ∈ t, isQuote c = false ∧ c ≠ '(' ∧ c ≠ ')'

/-- A text that ends no string and no group, and starts none. -/
structure Text.Quiet (k : Text) : Prop where
  plain : k.Flat
  straight : k.getLast? ≠ some '\\'

section Literals

variable {k post t v : Text} {quote c : Char}

theorem closeQuote_quiet (mark : isQuote quote) (plain : ∀ c ∈ k, isQuote c = false)
    (straight : k.getLast? ≠ some '\\') (t : Text) :
    closeQuote quote (k ++ t) = (closeQuote quote t).map (Cut.extend k) := by
  have inner {x r : Text} (h : (x ++ r).getLast? ≠ some '\\') : r.getLast? ≠ some '\\' :=
    fun last => h (by rw [List.getLast?_append, last, Option.some_or])
  induction n : k.length using Nat.strong_induction_on generalizing k with
  | _ n ih =>
      subst n
      cases k with
      | nil =>
          rw [List.nil_append]
          cases closeQuote quote t <;> rfl
      | cons c k =>
          by_cases slash : c = '\\'
          · subst slash
            cases k with
            | nil => exact absurd rfl straight
            | cons d k =>
                have shorter : k.length < ('\\' :: d :: k).length := by
                  simp only [List.length_cons]
                  omega
                have later := ih _ shorter
                  (fun e he => plain e (List.mem_cons_of_mem _ (List.mem_cons_of_mem d he)))
                  (inner (x := ['\\', d]) straight) rfl
                rw [List.cons_append, List.cons_append, closeQuote, later, Option.map_map]
                congr
          · obtain ⟨first, plain⟩ := List.forall_mem_cons.1 plain
            have other : c ≠ quote := by
              rintro rfl
              simp [mark] at first
            have later := ih _ (Nat.lt_succ_self k.length) plain (inner (x := [c]) straight) rfl
            rw [List.cons_append, closeQuote_cons slash, if_neg other, later, Option.map_map]
            congr

theorem closeQuote_woven (quiet : k.Quiet) (mark : isQuote quote) (boundary : v = [] ∨ v.Marked) :
    Woven k post (closeQuote quote (v ++ post)) (closeQuote quote (v ++ (k ++ post))) := by
  induction n : v.length using Nat.strong_induction_on generalizing v with
  | _ n ih =>
      subst n
      cases v with
      | nil =>
          exact Woven.of_passes whole_of_closeQuote
            (closeQuote_quiet mark (fun c hc => (quiet.plain c hc).1) quiet.straight post)
      | cons c v =>
          have marked := boundary.resolve_left (by simp)
          by_cases slash : c = '\\'
          · subst slash
            obtain ⟨d, v, rfl⟩ := List.exists_cons_of_ne_nil (marked.tail (by decide)).ne_nil
            have shorter : v.length < ('\\' :: d :: v).length := by
              simp only [List.length_cons]
              omega
            have later := ih _ shorter (Text.Marked.suffix (x := ['\\', d]) marked) rfl
            rw [List.cons_append, List.cons_append, List.cons_append, List.cons_append, closeQuote,
              closeQuote]
            exact later.extend _
          · rw [List.cons_append, List.cons_append, closeQuote_cons slash, closeQuote_cons slash]
            split
            · rename_i closes
              subst closes
              exact .before (marked.tail (isMark_of_isQuote mark)).ne_nil
            · exact (ih _ (Nat.lt_succ_self v.length) marked.rest rfl).extend _

theorem quoted?_woven (quiet : k.Quiet) (marked : v.Marked) :
    Woven k post (quoted? (v ++ post)) (quoted? (v ++ (k ++ post))) := by
  obtain ⟨c, v, rfl⟩ := List.exists_cons_of_ne_nil marked.ne_nil
  rw [List.cons_append, List.cons_append, quoted?, quoted?]
  split
  · rename_i mark
    exact (closeQuote_woven quiet mark marked.rest).extend _
  · exact .missed

theorem closeGroup_bare (h : quoted? (c :: t) = none) (closing : c ≠ ')') :
    closeGroup (c :: t) =
      if c = '(' || isQuote c then none else (closeGroup t).map (Cut.extend [c]) := by
  rw [closeGroup, if_neg closing]
  split
  · rename_i found
    simp [h] at found
  · rfl

theorem closeGroup_woven (quiet : k.Quiet) (boundary : v = [] ∨ v.Marked) :
    Woven k post (closeGroup (v ++ post)) (closeGroup (v ++ (k ++ post))) := by
  induction n : v.length using Nat.strong_induction_on generalizing v with
  | _ n ih =>
      subst n
      cases v with
      | nil => exact Woven.of_passes whole_of_closeGroup (closeGroup_plain quiet.plain post)
      | cons c v =>
          have marked := boundary.resolve_left (by simp)
          by_cases closing : c = ')'
          · subst closing
            rw [List.cons_append, List.cons_append, closeGroup_close, closeGroup_close]
            exact .before (marked.tail (by decide)).ne_nil
          · rcases (quoted?_woven (v := c :: v) quiet marked).cases_both with
              ⟨missed, missed'⟩ | ⟨l, l', found, found', woven⟩
            · rw [List.cons_append] at missed missed' ⊢
              rw [closeGroup_bare missed closing, List.cons_append, closeGroup_bare missed' closing]
              split
              · exact .missed
              · exact (ih _ (Nat.lt_succ_self v.length)
                  marked.rest rfl).extend _
            · rw [closeGroup_quoted found, closeGroup_quoted found']
              exact woven.bind (whole_of_quoted? found) (taken_of_quoted? found) marked
                whole_of_closeGroup fun r rest shorter => ih _ shorter (.inr rest) rfl

theorem group?_woven (quiet : k.Quiet) (marked : v.Marked) :
    Woven k post (group? (v ++ post)) (group? (v ++ (k ++ post))) := by
  obtain ⟨c, v, rfl⟩ := List.exists_cons_of_ne_nil marked.ne_nil
  by_cases opening : c = '('
  · subst opening
    exact (closeGroup_woven quiet marked.rest).extend _
  · rw [List.cons_append, List.cons_append, group?_cons opening, group?_cons opening]
    exact .missed

theorem stringOrGroup?_woven (quiet : k.Quiet) (marked : v.Marked) :
    Woven k post (stringOrGroup? (v ++ post)) (stringOrGroup? (v ++ (k ++ post))) :=
  (quoted?_woven quiet marked).or (group?_woven quiet marked)

end Literals

section Preludes

variable {k post t v : Text} {c : Char}

theorem preludeTail_bare (h : quoted? (c :: t) = none) (opening : c ≠ '\x7b') :
    preludeTail (c :: t) =
      if endsValue c then none else (preludeTail t).map (Cut.extend [c]) := by
  rw [preludeTail, if_neg opening]
  split
  · rename_i found
    simp [h] at found
  · rfl

theorem isMark_of_inside (inside : ¬endsValue c = true) : isMark c = false := by
  simp only [endsValue, Bool.or_eq_true, not_or, Bool.not_eq_true] at inside
  simp [isMark, inside]

theorem preludeTail_woven (quiet : k.Quiet) (marked : v.Marked) :
    Woven k post (preludeTail (v ++ post)) (preludeTail (v ++ (k ++ post))) := by
  induction n : v.length using Nat.strong_induction_on generalizing v with
  | _ n ih =>
      subst n
      rcases (quoted?_woven quiet marked).cases_both with
        ⟨missed, missed'⟩ | ⟨l, l', found, found', woven⟩
      · obtain ⟨c, v, rfl⟩ := List.exists_cons_of_ne_nil marked.ne_nil
        by_cases opening : c = '\x7b'
        · subst opening
          rw [List.cons_append, List.cons_append, preludeTail, preludeTail, if_pos rfl, if_pos rfl]
          exact .before (x := []) (r := '\x7b' :: v) (by simp)
        · rw [List.cons_append] at missed missed' ⊢
          rw [preludeTail_bare missed opening, List.cons_append, preludeTail_bare missed' opening]
          split
          · exact .missed
          · rename_i inside
            exact (ih _ (Nat.lt_succ_self v.length)
              (marked.tail (isMark_of_inside inside)) rfl).extend _
      · rw [preludeTail_quoted found, preludeTail_quoted found']
        exact woven.bind (whole_of_quoted? found) (taken_of_quoted? found) marked
          whole_of_preludeTail fun r rest shorter => ih _ shorter rest rfl

theorem prelude?_woven (quiet : k.Quiet) (marked : v.Marked) :
    Woven k post (prelude? (v ++ post)) (prelude? (v ++ (k ++ post))) := by
  obtain ⟨c, v, rfl⟩ := List.exists_cons_of_ne_nil marked.ne_nil
  rw [List.cons_append, List.cons_append, prelude?, prelude?]
  split
  · exact .missed
  · rename_i first
    simp only [Bool.or_eq_true, not_or] at first
    exact (preludeTail_woven quiet (marked.tail (isMark_of_inside first.1.2))).extend _

end Preludes

section Statements

variable {k post t v : Text} {c : Char}

theorem statementTail_comment (inside : Text) :
    statementTail ('/' :: '*' :: inside) = (commentTail inside).map (Cut.extend ['/', '*']) := by
  rw [statementTail]

theorem commentTail_cons (inside : ¬['*', '/'] <+: c :: t) :
    commentTail (c :: t) = (commentTail t).map (Cut.extend [c]) := by
  rw [commentTail]
  rintro rest rfl rfl
  exact inside ⟨rest, rfl⟩

/-- A statement comes to its semicolon with `k` as without it, as long as a comment goes on through
`k`. -/
theorem tails_woven (quiet : k.Quiet)
    (comment : commentTail (k ++ post) = (commentTail post).map (Cut.extend k)) :
    (v.Marked → Woven k post (statementTail (v ++ post)) (statementTail (v ++ (k ++ post)))) ∧
      (v = [] ∨ v.Marked →
        Woven k post (commentTail (v ++ post)) (commentTail (v ++ (k ++ post)))) := by
  induction n : v.length using Nat.strong_induction_on generalizing v with
  | _ n ih =>
      subst n
      constructor
      · intro marked
        obtain ⟨c, v, rfl⟩ := List.exists_cons_of_ne_nil marked.ne_nil
        by_cases starts : ∃ w, c = '/' ∧ v = '*' :: w
        · obtain ⟨w, rfl, rfl⟩ := starts
          have shorter : w.length < ('/' :: '*' :: w).length := by
            simp only [List.length_cons]
            omega
          rw [List.cons_append, List.cons_append, List.cons_append, List.cons_append,
            statementTail_comment, statementTail_comment]
          exact ((ih _ shorter rfl).2 (Text.Marked.suffix (x := ['/', '*']) marked)).extend _
        · have bare := marked.unpaired (by decide) starts
          by_cases semicolon : c = ';'
          · subst semicolon
            rw [List.cons_append, List.cons_append, statementTail_semicolon, statementTail_semicolon]
            exact .before (x := []) (r := ';' :: v) (by simp)
          · rcases (stringOrGroup?_woven (v := c :: v) quiet marked).cases_both with
              ⟨missed, missed'⟩ | ⟨l, l', found, found', woven⟩
            · rw [List.cons_append] at missed missed' ⊢
              rw [statementTail_cons (bare _) missed semicolon, List.cons_append,
                statementTail_cons (bare _) missed' semicolon]
              split
              · exact .missed
              · rename_i inside
                simp only [Bool.or_eq_true, not_or] at inside
                exact ((ih _ (Nat.lt_succ_self v.length) rfl).1
                  (marked.tail (isMark_of_inside inside.1))).extend _
            · rw [statementTail_inner found, statementTail_inner found']
              exact woven.bind (whole_of_stringOrGroup? found) (taken_of_stringOrGroup? found) marked
                (whole_of_tails.1 _ _) fun r rest shorter => (ih _ shorter rfl).1 rest
      · intro boundary
        cases v with
        | nil => exact Woven.of_passes (whole_of_tails.2 _ _) comment
        | cons c v =>
            have marked := boundary.resolve_left (by simp)
            by_cases ends : ∃ w, c = '*' ∧ v = '/' :: w
            · obtain ⟨w, rfl, rfl⟩ := ends
              have shorter : w.length < ('*' :: '/' :: w).length := by
                simp only [List.length_cons]
                omega
              have later := marked.tail (by decide)
              rw [List.cons_append, List.cons_append, List.cons_append, List.cons_append, commentTail,
                commentTail]
              rcases ((ih _ shorter rfl).1 (later.tail (by decide))).cases_both with
                ⟨missed, missed'⟩ | ⟨l, l', found, found', woven⟩
              · rw [missed, missed']
                exact ((ih _ (Nat.lt_succ_self _) rfl).2 (.inr later)).extend _
              · rw [found, found']
                exact woven.extend _
            · have inside := marked.unpaired (by decide) ends
              rw [List.cons_append, List.cons_append, commentTail_cons (inside _),
                commentTail_cons (inside _)]
              exact ((ih _ (Nat.lt_succ_self v.length) rfl).2
                marked.rest).extend _

theorem statement?_woven (quiet : k.Quiet)
    (comment : commentTail (k ++ post) = (commentTail post).map (Cut.extend k)) (marked : v.Marked) :
    Woven k post (statement? (v ++ post)) (statement? (v ++ (k ++ post))) := by
  obtain ⟨c, v, rfl⟩ := List.exists_cons_of_ne_nil marked.ne_nil
  by_cases at_sign : c = '@'
  · subst at_sign
    exact ((tails_woven quiet comment).1 (marked.tail (by decide))).extend _
  · rw [List.cons_append, List.cons_append, statement?_cons at_sign, statement?_cons at_sign]
    exact .missed

end Statements

section Values

variable {k post t v x r w : Text} {c : Char} {l : Cut}

/-- A value is complete if each comment that starts in it ends in it. -/
def Text.Complete (x : Text) : Prop :=
  ∀ w ∈ x.tails, ['/', '*'] <+: w → ['*', '/'] <:+: w.drop 2

theorem comment?_eq_none (h : ¬['/', '*'] <+: t) : comment? t = none := by
  cases found : comment? t with
  | none => rfl
  | some cut =>
      obtain ⟨rest, -, rfl, -⟩ := of_comment? found
      exact absurd ⟨rest, rfl⟩ h

theorem closeComment_woven (passes : closeComment (k ++ post) = (closeComment post).map (Cut.extend k))
    (boundary : v = [] ∨ v.Marked) :
    Woven k post (closeComment (v ++ post)) (closeComment (v ++ (k ++ post))) := by
  induction v with
  | nil => exact Woven.of_passes whole_of_closeComment passes
  | cons c v ih =>
      have marked := boundary.resolve_left (by simp)
      by_cases ends : ∃ w, c = '*' ∧ v = '/' :: w
      · obtain ⟨w, rfl, rfl⟩ := ends
        exact .before ((marked.tail (by decide)).tail (by decide)).ne_nil
      · have inside := marked.unpaired (by decide) ends
        rw [List.cons_append, List.cons_append, closeComment_cons (inside _),
          closeComment_cons (inside _)]
        exact (ih marked.rest).extend _

theorem comment?_woven (passes : closeComment (k ++ post) = (closeComment post).map (Cut.extend k))
    (marked : v.Marked) : Woven k post (comment? (v ++ post)) (comment? (v ++ (k ++ post))) := by
  obtain ⟨c, v, rfl⟩ := List.exists_cons_of_ne_nil marked.ne_nil
  by_cases starts : ∃ w, c = '/' ∧ v = '*' :: w
  · obtain ⟨w, rfl, rfl⟩ := starts
    exact (closeComment_woven passes (Text.Marked.suffix (x := ['/', '*']) marked)).extend _
  · have bare := marked.unpaired (by decide) starts
    rw [List.cons_append, List.cons_append, comment?_eq_none (bare _), comment?_eq_none (bare _)]
    exact .missed

/-- The comments of a complete value end before the place. -/
theorem Text.Complete.comment?_woven (complete : x.Complete) (within : w <:+ x)
    (shows : r ≠ []) (ends : ∀ c, r.head? = some c → endsValue c) :
    Woven k post (comment? (w ++ (r ++ post))) (comment? (w ++ (r ++ (k ++ post)))) := by
  by_cases starts : ['/', '*'] <+: w
  · have inside := complete w ((List.mem_tails w x).2 within) starts
    obtain ⟨w, rfl⟩ := starts
    obtain ⟨e, found⟩ := exists_closeComment inside
    have comment : comment? (['/', '*'] ++ w) = some (e.extend ['/', '*']) := by
      show (closeComment w).map _ = _
      rw [show closeComment w = some e from found]
      rfl
    rw [comment?_append_of_comment? comment, comment?_append_of_comment? comment,
      ← List.append_assoc, ← List.append_assoc]
    exact .before (by simp [shows])
  · obtain ⟨c, r, rfl⟩ := List.exists_cons_of_ne_nil shows
    have mark := ends c rfl
    have bare (u : Text) : ¬['/', '*'] <+: w ++ (c :: (r ++ u)) := by
      cases w with
      | nil =>
          rintro ⟨rest, same⟩
          obtain rfl : '/' = c := (List.cons.inj same).1
          exact absurd mark (by decide)
      | cons d w =>
          refine unpaired_append starts fun star => ?_
          obtain rfl : c = '*' := Option.some.inj star
          exact absurd mark (by decide)
    rw [List.cons_append, List.cons_append, comment?_eq_none (bare _), comment?_eq_none (bare _)]
    exact .missed

/-- A value is read to the same end with `k` as without it, if that end comes before the place and if
the comments that start in the value are the same. -/
theorem valueText_woven (quiet : k.Quiet) (marked : Text.Marked (x ++ r)) (shows : r ≠ [])
    (comments : ∀ w, w <:+ x →
      Woven k post (comment? (w ++ (r ++ post))) (comment? (w ++ (r ++ (k ++ post)))))
    (h : valueText (x ++ (r ++ post)) = ⟨x, r ++ post⟩) :
    valueText (x ++ (r ++ (k ++ post))) = ⟨x, r ++ (k ++ post)⟩ := by
  induction n : x.length using Nat.strong_induction_on generalizing x with
  | _ n ih =>
      subst n
      have both : Woven k post (enclosed? (x ++ (r ++ post)))
          (enclosed? (x ++ (r ++ (k ++ post)))) := by
        have inner : Woven k post (stringOrGroup? (x ++ r ++ post))
            (stringOrGroup? (x ++ r ++ (k ++ post))) := stringOrGroup?_woven quiet marked
        rw [List.append_assoc, List.append_assoc] at inner
        exact inner.or (comments x List.suffix_rfl)
      rcases both.cases_both with ⟨missed, missed'⟩ | ⟨l, l', found, found', woven⟩
      · cases x with
        | nil =>
            obtain ⟨c, r, rfl⟩ := List.exists_cons_of_ne_nil shows
            have ends := endsValue_of_valueText ([] ++ (c :: r ++ post)) c (by rw [h]; rfl)
            exact valueText_stop missed' ends
        | cons c x =>
            have inside : endsValue c = false := by
              by_contra ends
              have stop := valueText_stop missed (by simpa using ends)
              rw [List.cons_append] at h
              simp [h] at stop
            rw [List.cons_append] at missed missed' h ⊢
            rw [valueText_cons missed inside] at h
            have later : valueText (x ++ (r ++ post)) = ⟨x, r ++ post⟩ := by
              cases rest : valueText (x ++ (r ++ post)) with
              | mk taken behind => simpa [rest, Cut.extend] using h
            have again := ih _ (Nat.lt_succ_self x.length)
              (marked.tail (isMark_of_inside (by simp [inside])))
              (fun w within => comments w (within.trans (List.suffix_cons c x))) later rfl
            rw [valueText_cons missed' inside, again]
            rfl
      · have taken := taken_of_enclosed? found
        rw [valueText_enclosed found] at h
        rw [valueText_enclosed found']
        have whole := whole_valueText l.rest
        cases rest : valueText l.rest with
        | mk z behind =>
            rw [rest] at h whole
            obtain ⟨rfl, rfl⟩ : l.taken ++ z = x ∧ behind = r ++ post := by simpa [Cut.extend] using h
            cases woven with
            | @before y q _ =>
                have split : z ++ r = q := by
                  rw [Cut.whole, ← List.append_assoc] at whole
                  exact List.append_cancel_right whole
                subst split
                have shorter : z.length < (y ++ z).length := by
                  have := List.length_pos_iff.2 (show y ≠ [] from taken)
                  rw [List.length_append]
                  omega
                rw [List.append_assoc] at rest marked
                have again := ih _ shorter (marked.right (by simp [shows]))
                  (fun w within => comments w (within.trans (List.suffix_append y z))) rest rfl
                rw [List.append_assoc, again]
                rfl
            | @behind y a b split =>
                have longer := congrArg List.length whole
                have shown := List.length_pos_iff.2 shows
                simp only [Cut.whole, ← split, List.length_append] at longer
                omega

end Values

section Comment

variable {post body t u : Text}

theorem Text.Flat.quiet_comment (plain : body.Flat) : (Text.comment body).Quiet := by
  constructor
  case plain =>
    simp only [Text.Flat, Text.comment, List.mem_cons, List.mem_append, List.not_mem_nil, or_false]
    rintro c (rfl | rfl | inside | rfl | rfl)
    · decide
    · decide
    · exact plain c inside
    · decide
    · decide
  case straight => simp [Text.comment, List.getLast?_cons, List.getLast?_append]

theorem layout_comment_append (bare : ¬['*', '/'] <:+: body) (post : Text) :
    layout (Text.comment body ++ post) = (layout post).extend (Text.comment body) :=
  layout_comment (by decide) (comment?_comment bare post)

/-- A comment that is open goes on through another one if no statement can be read behind that one. -/
theorem commentTail_comment (bare : ¬['*', '/'] <:+: '*' :: body) (stuck : statementTail post = none) :
    commentTail (Text.comment body ++ post) =
      (commentTail post).map (Cut.extend (Text.comment body)) := by
  have within_slash : ¬['*', '/'] <:+: '/' :: '*' :: body := by
    rw [List.infix_cons_iff, not_or]
    exact ⟨by simp, bare⟩
  have inner : commentTail ('/' :: '*' :: body ++ '*' :: '/' :: post) =
      (commentTail ('*' :: '/' :: post)).map (Cut.extend ('/' :: '*' :: body)) :=
    Cut.passes fun c back within => commentTail_cons
      (bare_append (fun inside => within_slash (inside.trans within.isInfix)) (by simp))
  have behind : commentTail ('*' :: '/' :: post) =
      (commentTail post).map (Cut.extend ['*', '/']) := by
    rw [commentTail, stuck, commentTail_cons (by simp), Option.map_map]
    congr
  rw [Text.comment_append, inner, behind, Option.map_map]
  cases commentTail post <;> simp [Cut.extend, Text.comment]

end Comment

section Space

variable {k : Text} {c : Char}

theorem unpaired_of_layout (space : isLayout c) (t : Text) : ¬['*', '/'] <+: c :: t := by
  rintro ⟨rest, same⟩
  obtain rfl : '*' = c := (List.cons.inj same).1
  exact absurd space (by decide)

theorem Text.quiet_of_layout (space : ∀ c ∈ k, isLayout c) : k.Quiet := by
  constructor
  case plain =>
    intro c hc
    have white := space c hc
    simp only [isLayout, Bool.or_eq_true, beq_iff_eq] at white
    rcases white with (((rfl | rfl) | rfl) | rfl) | rfl <;> decide
  case straight =>
    intro last
    exact absurd (space '\\' (List.mem_of_getLast? last)) (by decide)

theorem layout_append_of_layout (space : ∀ c ∈ k, isLayout c) (post : Text) :
    layout (k ++ post) = (layout post).extend k := by
  induction k with
  | nil => rfl
  | cons c k ih =>
      obtain ⟨white, space⟩ := List.forall_mem_cons.1 space
      rw [List.cons_append, layout_cons white, ih space]
      rfl

theorem commentTail_layout (space : ∀ c ∈ k, isLayout c) (post : Text) :
    commentTail (k ++ post) = (commentTail post).map (Cut.extend k) :=
  Cut.passes fun c _ within =>
    commentTail_cons (unpaired_of_layout (space c (within.subset (List.mem_cons_self ..))) _)

theorem closeComment_layout (space : ∀ c ∈ k, isLayout c) (post : Text) :
    closeComment (k ++ post) = (closeComment post).map (Cut.extend k) :=
  Cut.passes fun c _ within =>
    closeComment_cons (unpaired_of_layout (space c (within.subset (List.mem_cons_self ..))) _)

end Space

end CustomProperties
