import Mathlib.Data.List.Forall2

/-!
# Traversals that can fail

A list is worked through element by element until one of them fails. So the whole succeeds exactly if every
element does, and then has the results of the elements, in order.

- `bind_eq_ok_iff`, `check_bind_eq_ok_iff`: one step after another
- `mapError_eq_ok_iff`: errors told otherwise
- `forM_eq_ok_iff`: checks of every element
- `mapM_eq_ok`, `exists_mapM_eq_ok_iff`, `mapM_eq_ok_iff`: results of every element
- `exists_mem_of_mapM_eq_ok`, `exists_mem_of_mapM_eq_error`: where a result or the error comes from
- `mapM_eq_error_iff`: the error is that of the first element which fails
-/

namespace JavaLint

/-- One step after another succeeds if both do. -/
theorem bind_eq_ok_iff {α β ε : Type} {x : Except ε α} {f : α → Except ε β} {b : β} :
    x >>= f = .ok b ↔ ∃ a, x = .ok a ∧ f a = .ok b := by
  cases x <;> simp [bind, Except.bind]

/-- A check and what comes after it succeed if both do. -/
theorem check_bind_eq_ok_iff {β ε : Type} {x : Except ε Unit} {y : Except ε β} {b : β} :
    (x >>= fun _ => y) = .ok b ↔ x = .ok () ∧ y = .ok b := by
  cases x <;> simp [bind, Except.bind]

/-- Another way of telling the error changes no success. -/
theorem mapError_eq_ok_iff {α ε ε' : Type} {f : ε → ε'} {x : Except ε α} {a : α} :
    x.mapError f = .ok a ↔ x = .ok a := by
  cases x <;> simp [Except.mapError]

/-- Checks of all elements succeed if each of them does. -/
theorem forM_eq_ok_iff {α ε : Type} {f : α → Except ε Unit} {xs : List α} :
    xs.forM f = .ok () ↔ ∀ x ∈ xs, f x = .ok () := by
  induction xs with
  | nil => exact ⟨fun _ x hx => absurd hx List.not_mem_nil, fun _ => rfl⟩
  | cons x rest ih =>
    show (f x >>= fun _ => rest.forM f) = .ok () ↔ _
    rw [List.forall_mem_cons, ← ih]
    cases hx : f x with
    | error e => exact ⟨nofun, nofun⟩
    | ok _ => exact ⟨fun h => ⟨rfl, h⟩, fun h => h.2⟩

/-- A list of results that all succeed. -/
theorem mapM_eq_ok {α β ε : Type} {f : α → Except ε β} {g : α → β} {l : List α}
    (h : ∀ x ∈ l, f x = .ok (g x)) : l.mapM f = .ok (l.map g) := by
  induction l with
  | nil => rfl
  | cons x rest ih =>
    rw [List.mapM_cons, h x List.mem_cons_self, ih fun y hy => h y (List.mem_cons_of_mem x hy)]
    rfl

/-- A list of results succeeds if each of them does, and then has as many values. -/
theorem exists_mapM_eq_ok_iff {α β ε : Type} {f : α → Except ε β} {l : List α} :
    (∃ values, l.mapM f = .ok values) ↔ ∀ x ∈ l, ∃ value, f x = .ok value := by
  induction l with
  | nil => exact ⟨fun _ => by simp, fun _ => ⟨[], rfl⟩⟩
  | cons x rest ih =>
    rw [List.mapM_cons, List.forall_mem_cons, ← ih]
    cases f x with
    | error e => simp [bind, Except.bind]
    | ok value => cases rest.mapM f <;> simp [bind, Except.bind, pure, Except.pure]

/-- A list of results, one by one. -/
theorem mapM_eq_ok_iff {α β ε : Type} {f : α → Except ε β} {l : List α} {values : List β} :
    l.mapM f = .ok values ↔ List.Forall₂ (fun x value => f x = .ok value) l values := by
  induction l generalizing values with
  | nil => simp [pure, Except.pure, eq_comm]
  | cons x rest ih =>
    rw [List.mapM_cons, List.forall₂_cons_left_iff]
    cases hx : f x with
    | error e => simp [bind, Except.bind]
    | ok value =>
      simp only [← ih, Except.ok.injEq]
      -- the element has its value, so all depends on the rest
      cases rest.mapM f with
      | error e => simp [bind, Except.bind]
      | ok others => simp [bind, Except.bind, pure, Except.pure, eq_comm]

/-- There are as many values as elements. -/
theorem length_of_mapM_eq_ok {α β ε : Type} {f : α → Except ε β} {l : List α} {values : List β}
    (h : l.mapM f = .ok values) : values.length = l.length :=
  (mapM_eq_ok_iff.1 h).length_eq.symm

/-- Every value comes from an element. -/
theorem exists_mem_of_mapM_eq_ok {α β ε : Type} {f : α → Except ε β} {l : List α} {values : List β}
    (h : l.mapM f = .ok values) {value : β} (hvalue : value ∈ values) : ∃ x ∈ l, f x = .ok value := by
  have hvalues := mapM_eq_ok_iff.1 h
  induction hvalues with
  | nil => cases hvalue
  | cons hx hrest ih =>
    rcases List.mem_cons.1 hvalue with rfl | hvalue
    · exact ⟨_, List.mem_cons_self, hx⟩
    · obtain ⟨x, hmem, hok⟩ := ih (mapM_eq_ok_iff.2 hrest) hvalue
      exact ⟨x, List.mem_cons_of_mem _ hmem, hok⟩

/-- The error of a list of results is that of the first element which fails. -/
theorem mapM_eq_error_iff {α β ε : Type} {f : α → Except ε β} {l : List α} {e : ε} :
    l.mapM f = .error e ↔ ∃ before x after, l = before ++ x :: after ∧
      (∀ y ∈ before, ∃ value, f y = .ok value) ∧ f x = .error e := by
  constructor
  · intro h
    -- the list is worked through from the front, so what was passed succeeded
    induction l with
    | nil => cases h
    | cons x rest ih =>
      rw [List.mapM_cons] at h
      cases hx : f x with
      | error e' =>
        rw [hx] at h
        cases h
        exact ⟨[], x, rest, rfl, by simp, hx⟩
      | ok value =>
        rw [hx] at h
        cases hrest : rest.mapM f with
        | error e' =>
          rw [hrest] at h
          cases h
          obtain ⟨before, y, after, rfl, hbefore, hy⟩ := ih hrest
          exact ⟨x :: before, y, after, rfl, List.forall_mem_cons.2 ⟨⟨value, hx⟩, hbefore⟩, hy⟩
        | ok values =>
          rw [hrest] at h
          cases h
  · rintro ⟨before, x, after, rfl, hbefore, hx⟩
    -- what comes before the element is worked through, and what comes after it is not reached
    obtain ⟨values, hvalues⟩ := exists_mapM_eq_ok_iff.2 hbefore
    rw [List.mapM_append, hvalues, List.mapM_cons, hx]
    rfl

/-- The error of a list of results is that of an element. -/
theorem exists_mem_of_mapM_eq_error {α β ε : Type} {f : α → Except ε β} {l : List α} {e : ε}
    (h : l.mapM f = .error e) : ∃ x ∈ l, f x = .error e := by
  obtain ⟨before, x, after, rfl, -, hx⟩ := mapM_eq_error_iff.1 h
  exact ⟨x, by simp, hx⟩

end JavaLint
