import Mathlib.Tactic.Common

/-! Computations that may fail, in `Except` and `Option`: a bind taken apart at its first
failure, and traversals whose steps all succeed. -/
namespace MarketWire.Library

section Except
variable {ε ε' α β : Type} {x : Except ε α} {e : ε}

theorem bind_eq_ok {f : α → Except ε β} {b : β} :
    (x>>=f)=.ok b ↔ ∃ a, x=.ok a ∧ f a=.ok b := by
  cases x with
  | error e => simp [bind,Except.bind]
  | ok a => simp [bind,Except.bind]

theorem bind_eq_error {f : α → Except ε β} :
    x>>=f=.error e ↔ x=.error e ∨ ∃ a, x=.ok a ∧ f a=.error e := by
  cases x <;> simp [bind,Except.bind]

theorem map_eq_ok {f : α → β} {b : β} : x.map f=.ok b ↔ ∃ a, x=.ok a ∧ f a=b := by
  cases x with
  | error e => simp [Except.map]
  | ok a => simp [Except.map]

theorem mapError_ok {f : ε → ε'} {v : α} : x.mapError f=.ok v ↔ x=.ok v := by
  cases x <;> simp [Except.mapError]

theorem exists_of_isOk (h : x.isOk) : ∃ a, x=.ok a := by
  cases x with
  | error e => cases h
  | ok a => exact ⟨a,rfl⟩

theorem toOption_eq_some {a : α} : x.toOption=some a ↔ x=.ok a := by
  cases x <;> simp [Except.toOption]

end Except

section Traversal
variable {α β τ : Type} {l : List α}

theorem mapM_eq_some_map {f : α → Option β} {g : α → β} (h : ∀ x∈l, f x=some (g x)) :
    l.mapM f=some (l.map g) := by
  induction l with
  | nil => rfl
  | cons x rest ih =>
    rw [List.mapM_cons,h x (by simp),ih fun y hy => h y (List.mem_cons_of_mem x hy)]
    rfl

theorem foldlM_eq_some_foldl {f : τ → α → Option τ} {g : τ → α → τ}
    (h : ∀ x∈l, ∀ s, f s x=some (g s x)) (s : τ) : l.foldlM f s=some (l.foldl g s) := by
  induction l generalizing s with
  | nil => rfl
  | cons x rest ih =>
    rw [List.foldlM_cons,h x (by simp)]
    exact ih (fun y hy => h y (List.mem_cons_of_mem x hy)) (g s x)

end Traversal
end MarketWire.Library
