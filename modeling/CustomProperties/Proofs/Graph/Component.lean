import CustomProperties.Proofs.Graph.Invariant

/-!
Leaving an open name. If it leads to a lower number, then what lies above it on the stack belongs to
a component that is still open. If it does not, then the stack down to it is the component: its
names lead to each other, and no name that they lead to is left on the stack below.
-/

namespace CustomProperties

open Relation

namespace Walk

variable {g : Graph} {w : Walk} {o : OpenName} {back : List OpenName}

theorem popThrough_append {name : Text} {front : List (Text × Nat)}
    (h : name ∉ front.map Prod.fst) (n : Nat) (rest : List (Text × Nat)) :
    popThrough name (front ++ (name, n) :: rest) = (front.map Prod.fst ++ [name], rest) := by
  induction front with
  | nil => simp [popThrough]
  | cons entry front ih =>
      simp only [List.map_cons, List.mem_cons, not_or] at h
      simp [popThrough, Ne.symm h.1, ih h.2]

/-- With nothing pending, the last open name has no say in which steps are taken. -/
theorem taken_cons_iff (h : o.pending = []) (x y : Text) :
    Taken g (o :: back) x y ↔ Taken g back x y := by
  simp [Taken, h]

theorem Sound.number_le (h : Sound g { w with trail := o :: back }) :
    ∀ q ∈ o :: back, q.number ≤ o.number := by
  intro q hq
  rcases List.mem_cons.1 hq with rfl | hq
  · exact Nat.le_refl _
  · exact Nat.le_of_lt ((List.pairwise_cons.1 h.trail_numbers).1 q hq)

/-- Every name from the last open one up leads to it. -/
theorem Sound.up_last (h : Sound g { w with trail := o :: back }) {e : Text × Nat}
    (he : e ∈ w.stack) : g.Way e.1 o.name := by
  obtain ⟨q, hq, -, way⟩ := h.up e he
  exact way.trans (h.down q hq _ (h.trail_stack o (List.mem_cons_self ..)) (h.number_le q hq))

/-- An open name that leads to a lower number is left without its component. -/
theorem Sound.leave_open (h : Sound g { w with trail := o :: back }) (spent : o.pending = [])
    (told : ∀ p ∈ back.head?, p.low ≤ o.low) (lower : o.low ≠ o.number) :
    Sound g { w with trail := back } := by
  have here : o ∈ o :: back := List.mem_cons_self ..
  have weaken : ∀ p ∈ back, p ∈ o :: back := fun p hp => List.mem_cons_of_mem _ hp
  have low_lt : o.low < o.number := Nat.lt_of_le_of_ne (h.low_le o here) lower
  constructor
  case seen_known => exact h.seen_known
  case stack_seen => exact h.stack_seen
  case stack_lt => exact h.stack_lt
  case stack_names => exact h.stack_names
  case stack_numbers => exact h.stack_numbers
  case trail_stack => exact fun p hp => h.trail_stack p (weaken p hp)
  case trail_numbers => exact (List.pairwise_cons.1 h.trail_numbers).2
  case pending_next => exact fun p hp => h.pending_next p (weaken p hp)
  case done_closed => exact h.done_closed
  case taken_seen =>
    exact fun e he y taken => h.taken_seen e he y ((taken_cons_iff spent _ _).2 taken)
  case down => exact fun p hp => h.down p (weaken p hp)
  case up =>
    intro e he
    obtain ⟨q, hq, hqe, way⟩ := h.up e he
    rcases List.mem_cons.1 hq with rfl | hq
    -- The name led to the one that is left; behind that there is one with a lower number.
    · obtain ⟨f, hf, hlow, onward⟩ := h.low_reached q here
      obtain ⟨r, hr, hrf, down⟩ := h.up f hf
      rcases List.mem_cons.1 hr with rfl | hr
      · omega
      · exact ⟨r, hr, by omega, (way.trans onward).trans down⟩
    · exact ⟨q, hq, hqe, way⟩
  case low_le => exact fun p hp => h.low_le p (weaken p hp)
  case low_reached => exact fun p hp => h.low_reached p (weaken p hp)
  case low_bound =>
    intro p hp e he hle f hf taken
    obtain ⟨q, hq, hpq, hqf⟩ :=
      h.low_bound p (weaken p hp) e he hle f hf ((taken_cons_iff spent _ _).2 taken)
    rcases List.mem_cons.1 hq with rfl | hq
    -- The name that knew of the number is left, but it has told the open name below it.
    · cases back with
      | nil => simp at hp
      | cons r back =>
          have := told r (by simp)
          have := (List.pairwise_cons.1 h.trail_numbers).2
          rcases List.mem_cons.1 hp with rfl | hp
          · exact ⟨p, by simp, Nat.le_refl _, by omega⟩
          · have := (List.pairwise_cons.1 this).1 p hp
            exact ⟨r, by simp, by omega, by omega⟩
    · exact ⟨q, hq, hpq, hqf⟩
  case cyclic_iff => exact h.cyclic_iff

theorem Sound.step_component (h : Sound g { w with trail := o :: back }) (spent : o.pending = [])
    (root : o.low = o.number) {e : Text × Nat} (he : e ∈ w.stack) (hle : o.number ≤ e.2)
    {y : Text} (step : g.Step e.1 y) : w.Done y ∨ ∃ f ∈ w.stack, f.1 = y ∧ o.number ≤ f.2 := by
  -- No name of the component has anything pending: those that are open below the last one have
  -- lower numbers.
  have taken : Taken g (o :: back) e.1 y := by
    refine ⟨step, fun q hq name => ?_⟩
    rcases List.mem_cons.1 hq with rfl | hback
    · simp [spent]
    · have := h.number_eq hq he name
      have := (List.pairwise_cons.1 h.trail_numbers).1 q hback
      omega
  have seen : y ∈ w.seen := h.taken_seen e he y taken
  by_cases on : ∃ n, (y, n) ∈ w.stack
  · obtain ⟨n, hn⟩ := on
    obtain ⟨q, hq, hoq, hqn⟩ :=
      h.low_bound o (List.mem_cons_self ..) e he hle (y, n) hn taken
    refine .inr ⟨_, hn, rfl, ?_⟩
    rcases List.mem_cons.1 hq with rfl | hback
    · exact root ▸ hqn
    · have := (List.pairwise_cons.1 h.trail_numbers).1 q hback
      omega
  · exact .inl ⟨seen, fun n hn => on ⟨n, hn⟩⟩

theorem Sound.way_done (h : Sound g w) {x y : Text} (done : w.Done x) (way : g.Way x y) :
    w.Done y := by
  induction way with
  | refl => exact done
  | tail _ step ih => exact h.done_closed _ _ ih step

theorem transGen_of_ne {x y : Text} (way : g.Way x y) (differ : y ≠ x) :
    TransGen g.Step x y :=
  (reflTransGen_iff_eq_or_transGen.1 way).resolve_left differ

theorem Sound.transGen_component_iff (h : Sound g { w with trail := o :: back })
    (spent : o.pending = []) (root : o.low = o.number) {front rest : List (Text × Nat)}
    (stack : w.stack = front ++ (o.name, o.number) :: rest) {e : Text × Nat}
    (he : e ∈ front ++ [(o.name, o.number)]) :
    TransGen g.Step e.1 e.1 ↔ front ≠ [] ∨ o.name ∈ g.next o.name := by
  have here : (o.name, o.number) ∈ w.stack := h.trail_stack o (List.mem_cons_self ..)
  have around : ∀ f ∈ front ++ [(o.name, o.number)], g.Way o.name f.1 ∧ g.Way f.1 o.name := by
    intro f hf
    have hfs : f ∈ w.stack := by
      rw [stack]
      simp only [List.mem_append, List.mem_cons] at hf ⊢
      tauto
    have hof : o.number ≤ f.2 := by
      have numbers := h.stack_numbers
      rw [stack, List.pairwise_append] at numbers
      rcases List.mem_append.1 hf with hf | hf
      · exact Nat.le_of_lt (numbers.2.2 f hf _ (List.mem_cons_self ..))
      · obtain rfl := List.mem_singleton.1 hf
        exact Nat.le_refl _
    exact ⟨h.down o (List.mem_cons_self ..) f hfs hof, h.up_last hfs⟩
  constructor
  · intro cycle
    by_cases alone : front = []
    · subst alone
      obtain rfl := List.mem_singleton.1 he
      -- The first step of the cycle either stays here, or it leads to a component that is complete
      -- and that no way leaves.
      obtain ⟨z, step, way⟩ := TransGen.head'_iff.1 cycle
      rcases h.step_component spent root here (Nat.le_refl _) step with done | ⟨f, hf, rfl, hof⟩
      -- A complete component would have taken the name off the stack.
      · exact absurd here ((h.way_done done way).2 _)
      · rw [stack, List.nil_append] at hf
        have numbers := h.stack_numbers
        rw [stack] at numbers
        rcases List.mem_cons.1 hf with rfl | hf
        · exact .inr step.1
        · have := (List.pairwise_cons.1 numbers).1 f hf
          omega
    · exact .inl alone
  · intro circular
    by_cases other : e.1 = o.name
    · rw [other]
      rcases circular with several | self
      · obtain ⟨f, front', rfl⟩ := List.exists_cons_of_ne_nil several
        have names := h.stack_names
        have differ : f.1 ≠ o.name := by
          simp only [stack, List.cons_append, List.map_cons, List.map_append, List.nodup_cons,
            List.mem_append, List.mem_cons, not_or] at names
          exact names.1.2.1
        have ways := around f (by simp)
        exact (transGen_of_ne ways.1 differ).trans_left ways.2
      · exact .single ⟨self, h.seen_known _ (h.stack_seen _ here)⟩
    · have ways := around e he
      exact (transGen_of_ne ways.2 (Ne.symm other)).trans_left ways.1

/-- A name that leads to no lower number is left with its component. -/
theorem Sound.leave_component (h : Sound g { w with trail := o :: back })
    (spent : o.pending = []) (root : o.low = o.number) {front rest : List (Text × Nat)}
    (stack : w.stack = front ++ (o.name, o.number) :: rest) {cyclic : List Text}
    (found : ∀ x, x ∈ cyclic ↔ x ∈ w.cyclic ∨
      (front ≠ [] ∨ o.name ∈ g.next o.name) ∧
        x ∈ (front ++ [(o.name, o.number)]).map Prod.fst) :
    Sound g ⟨w.seen, rest, back, cyclic⟩ := by
  have here : o ∈ o :: back := List.mem_cons_self ..
  have weaken : ∀ p ∈ back, p ∈ o :: back := fun p hp => List.mem_cons_of_mem _ hp
  have numbers := h.stack_numbers
  have names := h.stack_names
  have below : ∀ e ∈ rest, e ∈ w.stack := fun e he => by simp [stack, he]
  have above : ∀ e ∈ front ++ [(o.name, o.number)], e ∈ w.stack := fun e he => by
    simp only [stack, List.mem_append, List.mem_cons] at he ⊢
    tauto
  rw [stack, List.pairwise_append, List.pairwise_cons] at numbers
  have rest_lt : ∀ e ∈ rest, e.2 < o.number := numbers.2.1.1
  have front_gt : ∀ e ∈ front, o.number < e.2 := fun e he =>
    numbers.2.2 e he _ (List.mem_cons_self ..)
  have rest_of_lt : ∀ e ∈ w.stack, e.2 < o.number → e ∈ rest := by
    intro e he hlt
    rw [stack] at he
    rcases List.mem_append.1 he with he | he
    · have := front_gt e he
      omega
    · rcases List.mem_cons.1 he with rfl | he
      · omega
      · exact he
  have back_lt := (List.pairwise_cons.1 h.trail_numbers).1
  -- With the component off the stack, its names are the ones that are newly complete.
  have done_iff : ∀ x, Done ⟨w.seen, rest, back, cyclic⟩ x ↔
      w.Done x ∨ x ∈ (front ++ [(o.name, o.number)]).map Prod.fst := by
    intro x
    constructor
    · rintro ⟨seen, off⟩
      by_cases on : ∃ n, (x, n) ∈ w.stack
      · obtain ⟨n, hn⟩ := on
        refine .inr (List.mem_map.2 ⟨(x, n), ?_, rfl⟩)
        rw [stack] at hn
        simp only [List.mem_append, List.mem_cons, List.not_mem_nil, or_false] at hn ⊢
        rcases hn with hn | hn | hn
        · exact .inl hn
        · exact .inr hn
        · exact absurd hn (off n)
      · exact .inl ⟨seen, fun n hn => on ⟨n, hn⟩⟩
    · rintro (done | popped)
      · exact ⟨done.1, fun n hn => done.2 n (below _ hn)⟩
      · obtain ⟨e, he, rfl⟩ := List.mem_map.1 popped
        refine ⟨h.stack_seen e (above e he), fun n hn => ?_⟩
        have same : e = (e.1, n) :=
          List.inj_on_of_nodup_map names (above e he) (below _ hn) rfl
        have := rest_lt _ hn
        rcases List.mem_append.1 he with he | he
        · have := front_gt e he
          rw [same] at this
          omega
        · obtain rfl := List.mem_singleton.1 he
          simp only [Prod.mk.injEq] at same
          omega
  constructor
  case seen_known => exact h.seen_known
  case stack_seen => exact fun e he => h.stack_seen e (below e he)
  case stack_lt => exact fun e he => h.stack_lt e (below e he)
  case stack_names =>
    simp only [stack, List.map_append, List.map_cons, List.nodup_append, List.nodup_cons] at names
    exact names.2.1.2
  case stack_numbers => exact numbers.2.1.2
  case trail_stack =>
    exact fun p hp => rest_of_lt _ (h.trail_stack p (weaken p hp)) (back_lt p hp)
  case trail_numbers => exact (List.pairwise_cons.1 h.trail_numbers).2
  case pending_next => exact fun p hp => h.pending_next p (weaken p hp)
  case done_closed =>
    intro x y hx step
    rw [done_iff] at hx ⊢
    rcases hx with done | popped
    · exact .inl (h.done_closed x y done step)
    · obtain ⟨e, he, rfl⟩ := List.mem_map.1 popped
      have hle : o.number ≤ e.2 := by
        rcases List.mem_append.1 he with he | he
        · exact Nat.le_of_lt (front_gt e he)
        · obtain rfl := List.mem_singleton.1 he
          exact Nat.le_refl _
      rcases h.step_component spent root (above e he) hle step with done | ⟨f, hf, rfl, hof⟩
      · exact .inl done
      · refine .inr (List.mem_map_of_mem ?_)
        rw [stack] at hf
        simp only [List.mem_append, List.mem_cons, List.not_mem_nil, or_false] at hf ⊢
        rcases hf with hf | hf | hf
        · exact .inl hf
        · exact .inr hf
        · have := rest_lt f hf
          omega
  case taken_seen =>
    exact fun e he y taken => h.taken_seen e (below e he) y ((taken_cons_iff spent _ _).2 taken)
  case down => exact fun p hp e he => h.down p (weaken p hp) e (below e he)
  case up =>
    intro e he
    obtain ⟨q, hq, hqe, way⟩ := h.up e (below e he)
    have := rest_lt e he
    rcases List.mem_cons.1 hq with rfl | hq
    · omega
    · exact ⟨q, hq, hqe, way⟩
  case low_le => exact fun p hp => h.low_le p (weaken p hp)
  case low_reached =>
    intro p hp
    obtain ⟨e, he, low, way⟩ := h.low_reached p (weaken p hp)
    have := h.low_le p (weaken p hp)
    have := back_lt p hp
    exact ⟨e, rest_of_lt e he (by omega), low, way⟩
  case low_bound =>
    intro p hp e he hle f hf taken
    obtain ⟨q, hq, hpq, hqf⟩ := h.low_bound p (weaken p hp) e (below e he) hle f (below f hf)
      ((taken_cons_iff spent _ _).2 taken)
    have := rest_lt f hf
    rcases List.mem_cons.1 hq with rfl | hq
    · omega
    · exact ⟨q, hq, hpq, hqf⟩
  case cyclic_iff =>
    intro x
    rw [done_iff, or_and_right, found, h.cyclic_iff]
    refine or_congr_right ?_
    constructor
    · rintro ⟨circular, popped⟩
      refine ⟨popped, ?_⟩
      obtain ⟨e, he, rfl⟩ := List.mem_map.1 popped
      exact (h.transGen_component_iff spent root stack he).2 circular
    · rintro ⟨popped, cycle⟩
      refine ⟨?_, popped⟩
      obtain ⟨e, he, rfl⟩ := List.mem_map.1 popped
      exact (h.transGen_component_iff spent root stack he).1 cycle

end Walk

end CustomProperties
