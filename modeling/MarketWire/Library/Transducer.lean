import Mathlib.Tactic.Common

/-! Machines that read a list, write a list and may refuse. -/
namespace MarketWire.Library
variable {S α β : Type*} {step : S → α → Option (S×List β)}

/-- The state after reading a list, with everything written. -/
def transduce (step : S → α → Option (S×List β)) (s : S) : List α → Option (S×List β)
  | [] => some (s,[])
  | a::rest =>
    match step s a with
    | none => none
    | some (s,x) => (transduce step s rest).map fun y => (y.1,x++y.2)

section Append
variable {s s1 s2 : S} {l l' : List α} {x y : List β}

theorem transduce_cons {a : α} (h : step s a=some (s1,x)) :
    transduce step s (a::l)=(transduce step s1 l).map fun y => (y.1,x++y.2) := by
  rw [transduce,h]

theorem transduce_cons_none {a : α} (h : step s a=none) : transduce step s (a::l)=none := by
  rw [transduce,h]

theorem transduce_append (s : S) (l l' : List α) : transduce step s (l++l')=
    (transduce step s l).bind fun x => (transduce step x.1 l').map fun y => (y.1,x.2++y.2) := by
  induction l generalizing s with
  | nil => simp [transduce]
  | cons a rest ih =>
    cases h : step s a with
    | none => rw [List.cons_append,transduce_cons_none h,transduce_cons_none h,Option.bind_none]
    | some out =>
      obtain ⟨s1,x⟩ := out
      rw [List.cons_append,transduce_cons h,transduce_cons h,ih]
      cases transduce step s1 rest with
      | none => rfl
      | some z => simp [Function.comp_def]

theorem transduce_append_some (h : transduce step s l=some (s1,x))
    (h' : transduce step s1 l'=some (s2,y)) : transduce step s (l++l')=some (s2,x++y) := by
  rw [transduce_append,h,Option.bind_some,h',Option.map_some]

theorem transduce_append_left (h : transduce step s l=none) (l' : List α) :
    transduce step s (l++l')=none := by
  rw [transduce_append,h,Option.bind_none]

theorem transduce_append_right (h : transduce step s l=some (s1,x))
    (h' : transduce step s1 l'=none) : transduce step s (l++l')=none := by
  rw [transduce_append,h,Option.bind_some,h',Option.map_none]

end Append

section FlatMap
variable {γ : Type*} {s : S} {l : List γ} {f : γ → List α} {g : γ → List β}

/-- Pieces that each lead back to the state. -/
theorem transduce_flatMap (h : ∀ a∈l, transduce step s (f a)=some (s,g a)) :
    transduce step s (l.flatMap f)=some (s,l.flatMap g) := by
  induction l with
  | nil => rfl
  | cons a rest ih =>
    obtain ⟨ha,hrest⟩ := List.forall_mem_cons.mp h
    exact transduce_append_some ha (ih hrest)

/-- A refused piece among such pieces. -/
theorem transduce_flatMap_none
    (h : ∀ a∈l, (∃ y, transduce step s (f a)=some (s,y)) ∨ transduce step s (f a)=none)
    {a : γ} (ha : a∈l) (hnone : transduce step s (f a)=none) :
    transduce step s (l.flatMap f)=none := by
  induction l with
  | nil => cases ha
  | cons b rest ih =>
    obtain ⟨hb,hrest⟩ := List.forall_mem_cons.mp h
    rw [List.flatMap_cons]
    rcases hb with ⟨y,hb⟩ | hb
    · have hmem : a∈rest := (List.mem_cons.mp ha).resolve_left fun he => by
        rw [he,hb] at hnone
        cases hnone
      exact transduce_append_right hb (ih hrest hmem)
    · exact transduce_append_left hb _

end FlatMap
end MarketWire.Library
