import Mathlib.Data.List.Basic

/-! Steps that may fail, one after the other.

A list of steps succeeds when each of them does (`mapM_eq_ok_iff`), and fails with the error of
the first that does not (`mapM_eq_error_iff`). -/
namespace KeyboardInfo

variable {ε α β : Type}

theorem exists_of_bind_eq_ok {x : Except ε α} {f : α → Except ε β} {b : β}
    (h : x >>= f = .ok b) : ∃ a, x = .ok a ∧ f a = .ok b := by
  cases x with
  | error e => cases h
  | ok a => exact ⟨a, rfl, h⟩

theorem map_eq_ok_iff {x : Except ε α} {f : α → β} {b : β} :
    x.map f = .ok b ↔ ∃ a, x = .ok a ∧ b = f a := by
  cases x with
  | error e => simp [Except.map]
  | ok a => simp [Except.map, eq_comm]

theorem map_eq_error_iff {x : Except ε α} {f : α → β} {e : ε} :
    x.map f = .error e ↔ x = .error e := by
  cases x with
  | error e => simp [Except.map]
  | ok a => simp [Except.map]

variable {f : α → Except ε β} {xs : List α}

/-- Steps give results when they all do. -/
theorem mapM_eq_ok_iff {ys : List β} : xs.mapM f = .ok ys ↔ xs.map f = ys.map .ok := by
  induction xs generalizing ys with
  | nil =>
    cases ys with
    | nil => exact iff_of_true rfl rfl
    | cons y ys => exact iff_of_false nofun nofun
  | cons x xs ih =>
    rw [List.mapM_cons, List.map_cons]
    constructor
    · intro h
      obtain ⟨y, hy, h⟩ := exists_of_bind_eq_ok h
      obtain ⟨others, hothers, h⟩ := exists_of_bind_eq_ok h
      cases h
      rw [hy, ih.mp hothers, List.map_cons]
    · intro h
      cases ys with
      | nil => cases h
      | cons y ys =>
        obtain ⟨hy, hothers⟩ := List.cons.inj h
        rw [hy, ih.mpr hothers]
        rfl

/-- Steps fail as the first of them does that fails. -/
theorem mapM_eq_error_iff {e : ε} : xs.mapM f = .error e ↔
    ∃ before x after, xs = before ++ x :: after ∧ (∀ y ∈ before, ∃ z, f y = .ok z) ∧
      f x = .error e := by
  induction xs with
  | nil => exact iff_of_false nofun (by simp)
  | cons x xs ih =>
    rw [List.mapM_cons]
    cases hx : f x with
    | error e' =>
      constructor
      · intro h
        cases h
        exact ⟨[], x, xs, rfl, nofun, hx⟩
      · intro ⟨before, x', after, hsplit, hbefore, herror⟩
        cases before with
        | nil =>
          cases hsplit
          rw [hx] at herror
          cases herror
          rfl
        | cons y before =>
          cases hsplit
          obtain ⟨z, hz⟩ := hbefore x (List.mem_cons_self ..)
          rw [hx] at hz
          cases hz
    | ok z =>
      have hrest : ((.ok z : Except ε β) >>= fun z => xs.mapM f >>= fun zs => pure (z :: zs)) =
          .error e ↔ xs.mapM f = .error e := map_eq_error_iff
      rw [hrest, ih]
      constructor
      · intro ⟨before, x', after, hsplit, hbefore, herror⟩
        refine ⟨x :: before, x', after, by rw [hsplit, List.cons_append], ?_, herror⟩
        exact List.forall_mem_cons.mpr ⟨⟨z, hx⟩, hbefore⟩
      · intro ⟨before, x', after, hsplit, hbefore, herror⟩
        cases before with
        | nil =>
          cases hsplit
          rw [hx] at herror
          cases herror
        | cons y before =>
          obtain ⟨-, hsplit⟩ := List.cons.inj hsplit
          exact ⟨before, x', after, hsplit, (List.forall_mem_cons.mp hbefore).2, herror⟩

end KeyboardInfo
