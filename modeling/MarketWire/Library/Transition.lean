import Mathlib.Tactic.Common

/-! Systems of guarded actions: runs, what holds behind every run, and how often some of the
actions can be taken. -/
namespace MarketWire.Library
variable {S A : Type*} {step : S → A → Option S}

/-- Actions one after another, each of them enabled where it is taken. -/
def follow (step : S → A → Option S) (s : S) : List A → Option S
  | [] => some s
  | a::rest => (step s a).bind fun s => follow step s rest

section Follow
variable {s s' : S} {a : A} {l : List A}

theorem follow_cons : follow step s (a::l)=some s' ↔
    ∃ s1, step s a=some s1 ∧ follow step s1 l=some s' := Option.bind_eq_some_iff

/-- What every action preserves holds behind every run. -/
theorem follow_invariant {P : S → Prop}
    (hstep : ∀ {s a s'}, P s → step s a=some s' → P s') (hs : P s)
    (h : follow step s l=some s') : P s' := by
  induction l generalizing s with
  | nil =>
    cases h
    exact hs
  | cons a rest ih =>
    obtain ⟨s1,h1,h2⟩ := follow_cons.mp h
    exact ih (hstep hs h1) h2

/-- Actions that use up a measure, which the other actions do not raise, are bounded by it. -/
theorem follow_count {P : S → Prop} (own : A → Bool) (μ : S → Nat)
    (hstep : ∀ {s a s'}, P s → step s a=some s' → P s' ∧ μ s'+(if own a then 1 else 0)≤μ s)
    (hs : P s) (h : follow step s l=some s') : μ s'+l.countP own≤μ s := by
  induction l generalizing s with
  | nil =>
    cases h
    exact Nat.le_refl _
  | cons a rest ih =>
    obtain ⟨s1,h1,h2⟩ := follow_cons.mp h
    obtain ⟨hp,hle⟩ := hstep hs h1
    have hrest := ih hp h2
    rw [List.countP_cons]
    omega

end Follow
end MarketWire.Library
