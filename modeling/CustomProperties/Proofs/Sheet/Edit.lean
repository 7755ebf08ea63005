import CustomProperties.Sheet.Basic

/-!
Edits put new texts into the places of old ones. A list of edits fits a text when each of them finds
its old text in its place, behind the edit before it. Then all other text is kept in its order, an
edit that changes nothing may be left out, and an edit may be replaced by smaller ones within it.
-/

namespace CustomProperties

/-- A text that takes the place of another one. -/
structure Edit where
  start : Nat
  old : Text
  new : Text
deriving DecidableEq, Repr

namespace Edit

def stop (e : Edit) : Nat := e.start + e.old.length

/-- Put the new texts in place; `source` is the text from the offset `here` on. -/
def apply (source : Text) (here : Nat) : List Edit → Text
  | [] => source
  | e :: es =>
      source.take (e.start - here) ++ e.new ++ apply (source.drop (e.stop - here)) e.stop es

/-- Each edit finds its old text in its place; `source` is the text from the offset `here` on. -/
def Fit (source : Text) (here : Nat) : List Edit → Prop
  | [] => True
  | e :: es => ∃ front back, source = front ++ e.old ++ back ∧ e.start = here + front.length ∧
      Fit back e.stop es

variable {source front back : Text} {here : Nat} {e : Edit} {es rest : List Edit}

theorem apply_cons (h : e.start = here + front.length) :
    apply (front ++ e.old ++ back) here (e :: es) = front ++ e.new ++ apply back e.stop es := by
  have ahead : e.start - here = front.length := by omega
  have behind : e.stop - here = (front ++ e.old).length := by
    simp only [stop, List.length_append]
    omega
  rw [apply, ahead, behind, List.drop_left, List.append_assoc front, List.take_left]

theorem Fit.cons (start : e.start = here) (h : Fit back e.stop es) :
    Fit (e.old ++ back) here (e :: es) :=
  ⟨[], back, by simp, by simp [start], h⟩

theorem apply_front (start : e.start = here) :
    apply (e.old ++ back) here (e :: es) = e.new ++ apply back e.stop es := by
  have ahead : e.start = here + ([] : Text).length := by simp [start]
  have behind : apply ([] ++ e.old ++ back) here (e :: es) = [] ++ e.new ++ apply back e.stop es :=
    apply_cons ahead
  simpa using behind

theorem Fit.prepend (h : Fit source (here + front.length) es) : Fit (front ++ source) here es := by
  cases es with
  | nil => trivial
  | cons e es =>
      obtain ⟨ahead, back, rfl, start, fit⟩ := h
      exact ⟨front ++ ahead, back, by simp, by simp [start, Nat.add_assoc], fit⟩

theorem apply_prepend (h : Fit source (here + front.length) es) :
    apply (front ++ source) here es = front ++ apply source (here + front.length) es := by
  cases es with
  | nil => rfl
  | cons e es =>
      obtain ⟨ahead, back, rfl, start, -⟩ := h
      have start' : e.start = here + (front ++ ahead).length := by simp [start, Nat.add_assoc]
      rw [apply_cons start, ← List.append_assoc, ← List.append_assoc, apply_cons start']
      simp

theorem Fit.append {more : Text} (h : Fit source here es)
    (h' : Fit more (here + source.length) rest) : Fit (source ++ more) here (es ++ rest) := by
  induction es generalizing source here with
  | nil => exact h'.prepend
  | cons e es ih =>
      obtain ⟨ahead, back, rfl, start, fit⟩ := h
      refine ⟨ahead, back ++ more, by simp, start, ih fit ?_⟩
      have same : e.stop + back.length = here + (ahead ++ e.old ++ back).length := by
        simp only [stop, start, List.length_append]
        omega
      rwa [same]

theorem apply_append {more : Text} (h : Fit source here es)
    (h' : Fit more (here + source.length) rest) :
    apply (source ++ more) here (es ++ rest) =
      apply source here es ++ apply more (here + source.length) rest := by
  induction es generalizing source here with
  | nil => exact apply_prepend h'
  | cons e es ih =>
      obtain ⟨ahead, back, rfl, start, fit⟩ := h
      have same : here + (ahead ++ e.old ++ back).length = e.stop + back.length := by
        simp only [stop, start, List.length_append]
        omega
      rw [same] at h'
      rw [List.cons_append, List.append_assoc, apply_cons start, apply_cons start, ih fit h', same]
      simp

theorem Fit.filter (p : Edit → Bool) (h : Fit source here es) :
    Fit source here (es.filter p) := by
  induction es generalizing source here with
  | nil => trivial
  | cons e es ih =>
      obtain ⟨ahead, back, rfl, start, fit⟩ := h
      by_cases hp : p e
      · rw [List.filter_cons_of_pos hp]
        exact ⟨ahead, back, rfl, start, ih fit⟩
      · rw [List.filter_cons_of_neg hp]
        have behind : here + (ahead ++ e.old).length = e.stop := by
          simp [stop, start, Nat.add_assoc]
        exact Fit.prepend (behind ▸ ih fit)

theorem apply_filter (p : Edit → Bool) (h : Fit source here es)
    (idle : ∀ e ∈ es, p e = false → e.new = e.old) :
    apply source here (es.filter p) = apply source here es := by
  induction es generalizing source here with
  | nil => rfl
  | cons e es ih =>
      obtain ⟨ahead, back, rfl, start, fit⟩ := h
      have later := ih fit fun f hf => idle f (List.mem_cons_of_mem _ hf)
      by_cases hp : p e
      · rw [List.filter_cons_of_pos hp, apply_cons start, apply_cons start, later]
      · rw [List.filter_cons_of_neg hp, apply_cons start]
        have behind : here + (ahead ++ e.old).length = e.stop := by
          simp [stop, start, Nat.add_assoc]
        -- The edit is left out, so its old text counts as text before the next edit.
        have fit' := fit.filter p
        rw [← behind] at fit' later ⊢
        rw [apply_prepend fit', later, idle e (List.mem_cons_self ..) (by simpa using hp)]

theorem Fit.start_le (h : Fit source here es) : ∀ e ∈ es, here ≤ e.start := by
  induction es generalizing source here with
  | nil => simp
  | cons e es ih =>
      obtain ⟨ahead, back, rfl, start, fit⟩ := h
      have first : here ≤ e.start := by omega
      refine List.forall_mem_cons.2 ⟨first, fun f hf => ?_⟩
      have later : e.start + e.old.length ≤ f.start := ih fit f hf
      omega

theorem Fit.pairwise (h : Fit source here es) : es.Pairwise fun e f => e.stop ≤ f.start := by
  induction es generalizing source here with
  | nil => exact .nil
  | cons e es ih =>
      obtain ⟨ahead, back, rfl, start, fit⟩ := h
      exact .cons fit.start_le (ih fit)

theorem Fit.place (h : Fit source here es) : ∀ e ∈ es, here ≤ e.start ∧
    e.stop ≤ here + source.length ∧ source.extract (e.start - here) (e.stop - here) = e.old := by
  induction es generalizing source here with
  | nil => simp
  | cons e es ih =>
      obtain ⟨ahead, back, rfl, start, fit⟩ := h
      have stop : e.stop = here + (ahead ++ e.old).length := by
        simp [Edit.stop, start, Nat.add_assoc]
      refine List.forall_mem_cons.2 ⟨⟨by omega, ?_, ?_⟩, fun f hf => ?_⟩
      · rw [stop]
        simp
      · have first : e.start - here = ahead.length := by omega
        have width : e.stop - here - ahead.length = e.old.length := by
          simp only [stop, List.length_append]
          omega
        rw [List.extract_eq_take_drop, first, width, List.append_assoc, List.drop_left,
          List.take_left]
      · obtain ⟨later, inside, place⟩ := ih fit f hf
        have front : e.stop - here = (ahead ++ e.old).length := by omega
        refine ⟨by omega, by simp only [List.length_append] at inside stop ⊢; omega, ?_⟩
        have shift : f.start - here = (ahead ++ e.old).length + (f.start - e.stop) := by omega
        have shift' : f.stop - here - (f.start - here) = f.stop - e.stop - (f.start - e.stop) := by
          omega
        rw [List.extract_eq_take_drop] at place ⊢
        rw [shift', shift, ← List.drop_drop, List.drop_left, place]

/-- Whether edits fit does not depend on their new texts. -/
theorem Fit.renew {ι : Type} {f g : ι → Edit} {is : List ι} (start : ∀ i, (g i).start = (f i).start)
    (old : ∀ i, (g i).old = (f i).old) (h : Fit source here (is.map f)) :
    Fit source here (is.map g) := by
  induction is generalizing source here with
  | nil => trivial
  | cons i is ih =>
      obtain ⟨ahead, back, rfl, hs, fit⟩ := h
      have stop : (g i).stop = (f i).stop := by rw [Edit.stop, Edit.stop, start, old]
      exact ⟨ahead, back, by rw [old], (start i).trans hs, stop ▸ ih fit⟩

section Refine

variable {parts : Edit → List Edit}

theorem Fit.refine (h : Fit source here es) (within : ∀ e ∈ es, Fit e.old e.start (parts e)) :
    Fit source here (es.flatMap parts) := by
  induction es generalizing source here with
  | nil => trivial
  | cons e es ih =>
      obtain ⟨ahead, back, rfl, start, fit⟩ := h
      obtain ⟨first, later⟩ := List.forall_mem_cons.1 within
      have behind : here + (ahead ++ e.old).length = e.stop := by
        simp [stop, start, Nat.add_assoc]
      exact Fit.append (Fit.prepend (start ▸ first)) (behind ▸ ih fit later)

/-- Edits within the old texts of other edits make the new texts of these. -/
theorem apply_refine (h : Fit source here es) (within : ∀ e ∈ es, Fit e.old e.start (parts e)) :
    apply source here (es.flatMap parts) =
      apply source here (es.map fun e => { e with new := apply e.old e.start (parts e) }) := by
  induction es generalizing source here with
  | nil => rfl
  | cons e es ih =>
      obtain ⟨ahead, back, rfl, start, fit⟩ := h
      obtain ⟨first, later⟩ := List.forall_mem_cons.1 within
      have behind : here + (ahead ++ e.old).length = e.stop := by
        simp [stop, start, Nat.add_assoc]
      have fit' := fit.refine later
      rw [start] at first
      rw [List.flatMap_cons, apply_append first.prepend (behind ▸ fit'), apply_prepend first,
        behind, ih fit later, List.map_cons, ← start]
      exact (apply_cons (e := { e with new := apply e.old e.start (parts e) }) start).symm

end Refine

end Edit

def Declaration.edit (d : Declaration) : Edit := ⟨d.start, d.authored, d.value⟩

theorem Stylesheet.splice_eq_apply (source : Text) (here : Nat) (ds : List Declaration) :
    splice source here ds = Edit.apply source here (ds.map Declaration.edit) := by
  induction ds generalizing source here with
  | nil => rfl
  | cons d ds ih =>
      rw [splice, ih]
      rfl

/-- Written back, a stylesheet is its text with every value in place. -/
theorem Stylesheet.toCss_eq_apply {s : Stylesheet}
    (fit : Edit.Fit s.source 0 (s.declarations.map Declaration.edit)) :
    s.toCss = Edit.apply s.source 0 (s.declarations.map Declaration.edit) := by
  have changed : (s.declarations.filter Declaration.modified).map Declaration.edit =
      (s.declarations.map Declaration.edit).filter fun e => e.new != e.old := by
    rw [List.filter_map]
    rfl
  -- The declarations stand in the order of their offsets, so that sorting leaves them as they are.
  have ordered : (s.declarations.filter Declaration.modified).Pairwise
      fun d e => decide (d.start ≤ e.start) := by
    refine List.Pairwise.filter _ ((List.pairwise_map.1 fit.pairwise).imp fun h => ?_)
    exact decide_eq_true (Nat.le_trans (Nat.le_add_right ..) h)
  rw [toCss, Stylesheet.changed, sorted_of_pairwise ordered, splice_eq_apply, changed]
  exact Edit.apply_filter _ fit fun e _ same => by simpa using same

end CustomProperties
