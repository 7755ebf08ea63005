import Mathlib.Data.List.Nodup
import Mathlib.Logic.Relation
import Mathlib.Tactic.Tauto
import CustomProperties.Variables.Walk

/-!
What holds of a walk between two steps. The names on the stack are those whose component is not
complete: every one of them leads to an open name below it, and every open name leads to all that
lies above it. A step that was taken ends in a name that was seen; if that name is still on the
stack, then an open name knows of its number. A name that left the stack leads only to names that
left it, and it was told circular exactly if a way leads from it back to it.
-/

namespace CustomProperties

open Relation

namespace Graph

def Step (g : Graph) (a b : Text) : Prop := b ∈ g.next a ∧ b ∈ g.names

abbrev Way (g : Graph) : Text → Text → Prop := ReflTransGen g.Step

end Graph

namespace Walk

variable {g : Graph} {w : Walk}

/-- The component of the name is complete. -/
def Done (w : Walk) (x : Text) : Prop := x ∈ w.seen ∧ ∀ n, (x, n) ∉ w.stack

/-- The step from `x` to `y` is not one that is still to be taken. -/
def Taken (g : Graph) (trail : List OpenName) (x y : Text) : Prop :=
  g.Step x y ∧ ∀ o ∈ trail, o.name = x → y ∉ o.pending

structure Sound (g : Graph) (w : Walk) : Prop where
  seen_known : ∀ x ∈ w.seen, x ∈ g.names
  stack_seen : ∀ e ∈ w.stack, e.1 ∈ w.seen
  stack_lt : ∀ e ∈ w.stack, e.2 < w.seen.length
  stack_names : (w.stack.map Prod.fst).Nodup
  stack_numbers : w.stack.Pairwise fun a b => b.2 < a.2
  trail_stack : ∀ o ∈ w.trail, (o.name, o.number) ∈ w.stack
  trail_numbers : w.trail.Pairwise fun a b => b.number < a.number
  pending_next : ∀ o ∈ w.trail, ∀ y ∈ o.pending, y ∈ g.next o.name
  done_closed : ∀ x y, w.Done x → g.Step x y → w.Done y
  taken_seen : ∀ e ∈ w.stack, ∀ y, Taken g w.trail e.1 y → y ∈ w.seen
  down : ∀ o ∈ w.trail, ∀ e ∈ w.stack, o.number ≤ e.2 → g.Way o.name e.1
  up : ∀ e ∈ w.stack, ∃ o ∈ w.trail, o.number ≤ e.2 ∧ g.Way e.1 o.name
  low_le : ∀ o ∈ w.trail, o.low ≤ o.number
  low_reached : ∀ o ∈ w.trail, ∃ e ∈ w.stack, e.2 = o.low ∧ g.Way o.name e.1
  low_bound : ∀ o ∈ w.trail, ∀ e ∈ w.stack, o.number ≤ e.2 → ∀ f ∈ w.stack,
    Taken g w.trail e.1 f.1 → ∃ q ∈ w.trail, o.number ≤ q.number ∧ q.low ≤ f.2
  cyclic_iff : ∀ x, x ∈ w.cyclic ↔ w.Done x ∧ TransGen g.Step x x

theorem sound_empty (g : Graph) : Sound g .empty := by
  constructor <;> simp [empty, Done]

theorem Sound.enter (h : Sound g w) {name : Text} (fresh : name ∉ w.seen)
    (known : name ∈ g.names) (reached : ∀ o ∈ w.trail, g.Way o.name name) :
    Sound g (w.enter name (g.next name)) := by
  have off : ∀ n, (name, n) ∉ w.stack := fun n hn => fresh (h.stack_seen _ hn)
  have done_iff : ∀ x, (w.enter name (g.next name)).Done x ↔ w.Done x := by
    intro x
    by_cases hx : x = name
    · subst hx
      exact ⟨fun done => absurd (List.mem_cons_self ..) (done.2 w.seen.length),
        fun done => absurd done.1 fresh⟩
    · simp [Done, Walk.enter, hx]
  have none_taken : ∀ y, ¬Taken g (w.enter name (g.next name)).trail name y := by
    intro y taken
    exact taken.2 ⟨name, _, _, _⟩ (List.mem_cons_self ..) rfl taken.1.1
  have taken_before : ∀ x y, Taken g (w.enter name (g.next name)).trail x y →
      Taken g w.trail x y :=
    fun x y taken => ⟨taken.1, fun o ho => taken.2 o (List.mem_cons_of_mem _ ho)⟩
  constructor
  case seen_known => simpa [Walk.enter, known] using h.seen_known
  case stack_seen =>
    intro e he
    rcases List.mem_cons.1 he with rfl | he
    · exact List.mem_cons_self ..
    · exact List.mem_cons_of_mem _ (h.stack_seen e he)
  case stack_lt =>
    intro e he
    rcases List.mem_cons.1 he with rfl | he
    · simp [Walk.enter]
    · exact Nat.lt_succ_of_lt (h.stack_lt e he)
  case stack_names =>
    simp only [Walk.enter, List.map_cons, List.nodup_cons]
    refine ⟨fun hn => ?_, h.stack_names⟩
    obtain ⟨e, he, rfl⟩ := List.mem_map.1 hn
    exact fresh (h.stack_seen e he)
  case stack_numbers => exact List.pairwise_cons.2 ⟨h.stack_lt, h.stack_numbers⟩
  case trail_stack =>
    intro o ho
    rcases List.mem_cons.1 ho with rfl | ho
    · exact List.mem_cons_self ..
    · exact List.mem_cons_of_mem _ (h.trail_stack o ho)
  case trail_numbers =>
    exact List.pairwise_cons.2 ⟨fun o ho => h.stack_lt _ (h.trail_stack o ho), h.trail_numbers⟩
  case pending_next =>
    intro o ho
    rcases List.mem_cons.1 ho with rfl | ho
    · exact fun y hy => hy
    · exact h.pending_next o ho
  case done_closed =>
    intro x y hx hxy
    exact (done_iff y).2 (h.done_closed x y ((done_iff x).1 hx) hxy)
  case taken_seen =>
    intro e he y taken
    rcases List.mem_cons.1 he with rfl | he
    · exact absurd taken (none_taken y)
    · exact List.mem_cons_of_mem _ (h.taken_seen e he y (taken_before _ _ taken))
  case down =>
    intro o ho e he hle
    rcases List.mem_cons.1 ho with rfl | ho <;> rcases List.mem_cons.1 he with rfl | he
    · exact .refl
    · exact absurd (h.stack_lt e he) (Nat.not_lt.2 hle)
    · exact reached o ho
    · exact h.down o ho e he hle
  case up =>
    intro e he
    rcases List.mem_cons.1 he with rfl | he
    · exact ⟨_, List.mem_cons_self .., Nat.le_refl _, .refl⟩
    · obtain ⟨o, ho, hle, way⟩ := h.up e he
      exact ⟨o, List.mem_cons_of_mem _ ho, hle, way⟩
  case low_le =>
    intro o ho
    rcases List.mem_cons.1 ho with rfl | ho
    · exact Nat.le_refl _
    · exact h.low_le o ho
  case low_reached =>
    intro o ho
    rcases List.mem_cons.1 ho with rfl | ho
    · exact ⟨_, List.mem_cons_self .., rfl, .refl⟩
    · obtain ⟨e, he, low, way⟩ := h.low_reached o ho
      exact ⟨e, List.mem_cons_of_mem _ he, low, way⟩
  case low_bound =>
    intro o ho e he hle f hf taken
    rcases List.mem_cons.1 he with rfl | he
    · exact absurd taken (none_taken _)
    have before := taken_before _ _ taken
    rcases List.mem_cons.1 hf with rfl | hf
    · exact absurd (h.taken_seen e he _ before) fresh
    rcases List.mem_cons.1 ho with rfl | ho
    · exact absurd (h.stack_lt e he) (Nat.not_lt.2 hle)
    obtain ⟨q, hq, hqo, hqf⟩ := h.low_bound o ho e he hle f hf before
    exact ⟨q, List.mem_cons_of_mem _ hq, hqo, hqf⟩
  case cyclic_iff =>
    intro x
    rw [done_iff]
    exact h.cyclic_iff x

theorem Sound.number_eq (h : Sound g w) {o : OpenName} {e : Text × Nat} (ho : o ∈ w.trail)
    (he : e ∈ w.stack) (name : o.name = e.1) : o.number = e.2 := by
  have same := List.inj_on_of_nodup_map h.stack_names (h.trail_stack o ho) he name
  exact congrArg Prod.snd same

/-- An open name may come to know of a lower number that it leads to, and steps from it may be
taken to names that were seen, if it knows of their numbers. -/
theorem Sound.replace (front : List OpenName) {back : List OpenName} {o o' : OpenName}
    (h : Sound g { w with trail := front ++ o :: back })
    (name : o'.name = o.name) (number : o'.number = o.number) (low : o'.low ≤ o.low)
    (reached : ∃ e ∈ w.stack, e.2 = o'.low ∧ g.Way o'.name e.1)
    (pending : ∀ y ∈ o'.pending, y ∈ o.pending)
    (taken : ∀ y ∈ o.pending, y ∉ o'.pending → g.Step o.name y →
      y ∈ w.seen ∧ ∀ e ∈ w.stack, e.1 = y → o'.low ≤ e.2) :
    Sound g { w with trail := front ++ o' :: back } := by
  have here : o ∈ front ++ o :: back := by simp
  have here' : o' ∈ front ++ o' :: back := by simp
  have of_mem : ∀ p ∈ front ++ o' :: back, p = o' ∨ p ∈ front ++ o :: back := by
    intro p hp
    simp only [List.mem_append, List.mem_cons] at hp ⊢
    tauto
  -- Every open name of before is still there, and knows of no higher number than it did.
  have counterpart : ∀ p ∈ front ++ o :: back, ∃ q ∈ front ++ o' :: back,
      q.number = p.number ∧ q.low ≤ p.low ∧ q.name = p.name := by
    intro p hp
    simp only [List.mem_append, List.mem_cons] at hp
    rcases hp with hp | rfl | hp
    · exact ⟨p, by simp [hp], rfl, Nat.le_refl _, rfl⟩
    · exact ⟨o', here', number, low, name⟩
    · exact ⟨p, by simp [hp], rfl, Nat.le_refl _, rfl⟩
  have taken_before : ∀ x y, Taken g (front ++ o' :: back) x y →
      Taken g (front ++ o :: back) x y ∨ o.name = x ∧ y ∈ o.pending ∧ y ∉ o'.pending := by
    rintro x y ⟨step, clear⟩
    by_cases last : o.name = x ∧ y ∈ o.pending
    · exact .inr ⟨last.1, last.2, clear o' here' (name.trans last.1)⟩
    refine .inl ⟨step, fun p hp hpx hy => ?_⟩
    simp only [List.mem_append, List.mem_cons] at hp
    rcases hp with hp | rfl | hp
    · exact clear p (by simp [hp]) hpx hy
    · exact last ⟨hpx, hy⟩
    · exact clear p (by simp [hp]) hpx hy
  constructor
  case seen_known => exact h.seen_known
  case stack_seen => exact h.stack_seen
  case stack_lt => exact h.stack_lt
  case stack_names => exact h.stack_names
  case stack_numbers => exact h.stack_numbers
  case trail_stack =>
    intro p hp
    rcases of_mem p hp with rfl | hp
    · rw [name, number]
      exact h.trail_stack o here
    · exact h.trail_stack p hp
  case trail_numbers =>
    simpa only [List.pairwise_append, List.pairwise_cons, List.forall_mem_cons, number]
      using h.trail_numbers
  case pending_next =>
    intro p hp y hy
    rcases of_mem p hp with rfl | hp
    · rw [name]
      exact h.pending_next o here y (pending y hy)
    · exact h.pending_next p hp y hy
  case done_closed => exact h.done_closed
  case taken_seen =>
    intro e he y hy
    rcases taken_before _ _ hy with before | ⟨hx, hin, hout⟩
    · exact h.taken_seen e he y before
    · exact (taken y hin hout (hx ▸ hy.1)).1
  case down =>
    intro p hp e he hle
    rcases of_mem p hp with rfl | hp
    · rw [name]
      exact h.down o here e he (number ▸ hle)
    · exact h.down p hp e he hle
  case up =>
    intro e he
    obtain ⟨p, hp, hle, way⟩ := h.up e he
    obtain ⟨q, hq, hqn, -, hqp⟩ := counterpart p hp
    exact ⟨q, hq, hqn ▸ hle, hqp ▸ way⟩
  case low_le =>
    intro p hp
    rcases of_mem p hp with rfl | hp
    · rw [number]
      exact Nat.le_trans low (h.low_le o here)
    · exact h.low_le p hp
  case low_reached =>
    intro p hp
    rcases of_mem p hp with rfl | hp
    · exact reached
    · exact h.low_reached p hp
  case low_bound =>
    intro p hp e he hle f hf hy
    have hle' : ∃ r ∈ front ++ o :: back, r.number = p.number := by
      rcases of_mem p hp with rfl | hp
      · exact ⟨o, here, number.symm⟩
      · exact ⟨p, hp, rfl⟩
    obtain ⟨r, hr, hrp⟩ := hle'
    rcases taken_before _ _ hy with before | ⟨hx, hin, hout⟩
    · obtain ⟨q, hq, hrq, hqf⟩ := h.low_bound r hr e he (hrp ▸ hle) f hf before
      obtain ⟨q', hq', hn, hl, -⟩ := counterpart q hq
      exact ⟨q', hq', by omega, by omega⟩
    -- A step that was just taken: the changed name itself knows of the number it leads to.
    · have same : o.number = e.2 := h.number_eq here he hx
      exact ⟨o', here', by omega, (taken _ hin hout (hx ▸ hy.1)).2 f hf rfl⟩
  case cyclic_iff => exact h.cyclic_iff

end Walk

end CustomProperties
