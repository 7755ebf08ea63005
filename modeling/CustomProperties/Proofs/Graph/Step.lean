import CustomProperties.Proofs.Graph.Component

/-!
The steps of a walk. Following a step to a name that was seen, opening a name that was not, and
leaving a name each keep the walk sound.
-/

namespace CustomProperties

namespace Graph

theorem lookup_eq_none_iff {g : Graph} {name : Text} : g.lookup name = none ↔ name ∉ g.names := by
  rw [List.lookup_eq_none_iff]
  simp only [names, List.mem_map, not_exists, not_and, bne_iff_ne, ne_eq]
  exact ⟨fun h e he hn => h e he hn.symm, fun h e he hn => h e he hn.symm⟩

theorem mem_names_of_lookup {g : Graph} {name : Text} {next : List Text}
    (h : g.lookup name = some next) : name ∈ g.names := by
  by_contra unknown
  simp [lookup_eq_none_iff.2 unknown] at h

end Graph

namespace Walk

variable {g : Graph} {w : Walk} {o : OpenName} {trail : List OpenName}

theorem mem_of_lookup {stack : List (Text × Nat)} {name : Text} {number : Nat}
    (h : stack.lookup name = some number) : (name, number) ∈ stack := by
  obtain ⟨before, behind, he, _⟩ := List.lookup_eq_some_iff.1 h
  simp [he]

/-- The step to a name that was seen, with what the stack tells about it. -/
theorem Sound.follow_seen (h : Sound g { w with trail := o :: trail }) {child : Text}
    {pending : List Text} (next : o.pending = child :: pending) (seen : child ∈ w.seen) :
    Sound g (follow g { w with trail := o :: trail } o child pending trail) := by
  have step : g.Step o.name child :=
    ⟨h.pending_next o (by simp) child (by simp [next]), h.seen_known child seen⟩
  have only : ∀ y ∈ o.pending, y ∉ pending → y = child := by
    intro y hy hout
    rw [next] at hy
    exact (List.mem_cons.1 hy).resolve_right hout
  obtain ⟨e, he, hlow, way⟩ := h.low_reached o (by simp)
  rw [follow]
  rw [if_pos seen]
  split
  · rename_i number found
    have on := mem_of_lookup found
    refine h.replace [] rfl rfl (Nat.min_le_left ..) ?_
      (fun y hy => by simp [next, hy]) ?_
    · rcases Nat.le_total o.low number with hle | hle
      · exact ⟨e, he, by simpa [Nat.min_eq_left hle] using hlow, way⟩
      · exact ⟨_, on, by simp [Nat.min_eq_right hle], .single step⟩
    · intro y hy hout _
      obtain rfl := only y hy hout
      refine ⟨seen, fun f hf name => ?_⟩
      have same : f = (y, number) := List.inj_on_of_nodup_map h.stack_names hf on name
      rw [same]
      exact Nat.min_le_right ..
  -- Off the stack the component of the name is complete, and its number does not matter.
  · rename_i absent
    refine h.replace [] rfl rfl (Nat.le_refl _) ⟨e, he, hlow, way⟩
      (fun y hy => by simp [next, hy]) ?_
    intro y hy hout _
    obtain rfl := only y hy hout
    refine ⟨seen, fun f hf name => ?_⟩
    have := List.lookup_eq_none_iff.1 absent f hf
    simp [name] at this

theorem Sound.follow_fresh (h : Sound g { w with trail := o :: trail }) {child : Text}
    {pending : List Text} (next : o.pending = child :: pending) (fresh : child ∉ w.seen) :
    Sound g (follow g { w with trail := o :: trail } o child pending trail) := by
  have only : ∀ y ∈ o.pending, y ∉ pending → y = child := by
    intro y hy hout
    rw [next] at hy
    exact (List.mem_cons.1 hy).resolve_right hout
  have here : (o.name, o.number) ∈ w.stack := h.trail_stack o (by simp)
  obtain ⟨e, he, hlow, way⟩ := h.low_reached o (by simp)
  rw [follow]
  rw [if_neg fresh]
  split
  · rename_i steps found
    have known : child ∈ g.names := Graph.mem_names_of_lookup found
    have same : steps = g.next child := by simp [Graph.next, found]
    have step : g.Step o.name child := ⟨h.pending_next o (by simp) child (by simp [next]), known⟩
    have entered : Sound g { w.enter child (g.next child) with
        trail := [⟨child, w.seen.length, w.seen.length, g.next child⟩] ++ o :: trail } :=
      h.enter fresh known fun q hq => (h.down q hq _ here (h.number_le q hq)).tail step
    rw [same]
    refine entered.replace [⟨child, w.seen.length, w.seen.length, g.next child⟩] rfl rfl
      (Nat.le_refl _) ⟨e, List.mem_cons_of_mem _ he, hlow, way⟩ (fun y hy => by simp [next, hy]) ?_
    intro y hy hout _
    obtain rfl := only y hy hout
    refine ⟨List.mem_cons_self .., fun f hf name => ?_⟩
    -- The new name has the highest number of all, so that nothing has to be known of it.
    rcases List.mem_cons.1 hf with rfl | hf
    · have := h.low_le o (by simp)
      have := h.stack_lt _ here
      simp only at *
      omega
    · exact absurd (name ▸ h.stack_seen f hf) fresh
  · rename_i unknown
    refine h.replace [] rfl rfl (Nat.le_refl _) ⟨e, he, hlow, way⟩
      (fun y hy => by simp [next, hy]) ?_
    intro y hy hout step
    obtain rfl := only y hy hout
    exact absurd step.2 (Graph.lookup_eq_none_iff.1 unknown)

theorem Sound.tellFirst (h : Sound g { w with trail := o :: trail }) :
    Sound g { w with trail := o :: tellFirst o.low trail } ∧
      ∀ p ∈ (tellFirst o.low trail).head?, p.low ≤ o.low := by
  cases trail with
  | nil => exact ⟨h, by simp [Walk.tellFirst]⟩
  | cons p trail =>
      obtain ⟨e, he, hlow, way⟩ := h.low_reached o (by simp)
      obtain ⟨f, hf, hlow', way'⟩ := h.low_reached p (by simp)
      have down : g.Way p.name o.name :=
        h.down p (by simp) _ (h.trail_stack o (by simp)) (h.number_le p (by simp))
      refine ⟨?_, fun q hq => Option.some.inj hq ▸ Nat.min_le_right ..⟩
      refine h.replace [o] rfl rfl (Nat.min_le_left ..) ?_ (fun y hy => hy)
        (fun y hy hout => absurd hy hout)
      rcases Nat.le_total p.low o.low with hle | hle
      · exact ⟨f, hf, by simpa [Nat.min_eq_left hle] using hlow', way'⟩
      · exact ⟨e, he, by simpa [Nat.min_eq_right hle] using hlow, down.trans way⟩

theorem Sound.leave (h : Sound g { w with trail := o :: trail }) (spent : o.pending = []) :
    Sound g (leave g { w with trail := o :: trail } o trail) := by
  obtain ⟨told, low⟩ := h.tellFirst
  rw [Walk.leave]
  by_cases root : o.low = o.number
  · obtain ⟨front, rest, stack⟩ := List.append_of_mem (h.trail_stack o (by simp))
    have names := h.stack_names
    simp only at stack
    have off : o.name ∉ front.map Prod.fst := by
      intro on
      simp only [stack, List.map_append, List.map_cons, List.nodup_append] at names
      exact names.2.2 _ on _ (List.mem_cons_self ..) rfl
    have several : 1 < (front.map Prod.fst ++ [o.name]).length ↔ front ≠ [] := by
      cases front <;> simp
    simp only [root, if_true, stack, popThrough_append off, several]
    split
    · rename_i circular
      refine (root ▸ told).leave_component spent root stack fun x => ?_
      simp only [circular, true_and, List.map_append, List.mem_append, List.map_cons,
        List.map_nil]
      exact or_comm
    · rename_i straight
      refine (root ▸ told).leave_component spent root stack fun x => ?_
      simp [straight]
  · simp only [root, if_false]
    exact told.leave_open spent low root

theorem Sound.step (h : Sound g w) : Sound g (w.step g) := by
  rw [Walk.step]
  split
  · exact h
  · rename_i o trail ht
    obtain ⟨seen, stack, _, cyclic⟩ := w
    subst ht
    split
    · rename_i child pending next
      by_cases hs : child ∈ seen
      · exact h.follow_seen (w := ⟨seen, stack, [], cyclic⟩) next hs
      · exact h.follow_fresh (w := ⟨seen, stack, [], cyclic⟩) next hs
    · rename_i spent
      exact h.leave (w := ⟨seen, stack, [], cyclic⟩) spent

end Walk

end CustomProperties
