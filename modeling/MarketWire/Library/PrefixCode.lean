import Mathlib.Tactic.Common

/-! Self-delimiting codes: an encoded value can be read off the front of a longer
sequence in one way only. -/
namespace MarketWire.Library
variable {α β γ : Type*}

/-- No encoding of a valid value runs into what follows it. -/
def SelfDelimiting (valid : α → Prop) (enc : α → List γ) : Prop :=
  ∀ x y r r', valid x → valid y → enc x++r=enc y++r' → x=y ∧ r=r'

namespace SelfDelimiting
variable {valid : α → Prop} {enc : α → List γ}

theorem injective (h : SelfDelimiting valid enc) {x y : α} (hx : valid x) (hy : valid y)
    (he : enc x=enc y) : x=y :=
  (h x y [] [] hx hy (by rw [he])).1

/-- Encodings of one fixed length. -/
theorem of_length {n : Nat} (hlen : ∀ x, valid x → (enc x).length=n)
    (hinj : ∀ x y, valid x → valid y → enc x=enc y → x=y) : SelfDelimiting valid enc := by
  intro x y r r' hx hy he
  obtain ⟨h1,h2⟩ := List.append_inj he ((hlen x hx).trans (hlen y hy).symm)
  exact ⟨hinj x y hx hy h1,h2⟩

/-- A value encoded part by part. -/
theorem pair {valid' : β → Prop} {enc' : β → List γ} (h : SelfDelimiting valid enc)
    (h' : SelfDelimiting valid' enc') :
    SelfDelimiting (fun p : α×β => valid p.1 ∧ valid' p.2) (fun p => enc p.1++enc' p.2) := by
  rintro ⟨x,x'⟩ ⟨y,y'⟩ r r' ⟨hx,hx'⟩ ⟨hy,hy'⟩ he
  simp only [List.append_assoc] at he
  obtain ⟨rfl,he'⟩ := h x y _ _ hx hy he
  obtain ⟨rfl,hr⟩ := h' x' y' _ _ hx' hy' he'
  exact ⟨rfl,hr⟩

/-- Sequences of one length. -/
theorem flatMap (h : SelfDelimiting valid enc) (n : Nat) :
    SelfDelimiting (fun l : List α => l.length=n ∧ ∀ x∈l, valid x) (fun l => l.flatMap enc) := by
  induction n with
  | zero =>
    rintro x y r r' ⟨hx,_⟩ ⟨hy,_⟩ he
    rw [List.eq_nil_of_length_eq_zero hx,List.eq_nil_of_length_eq_zero hy] at he ⊢
    exact ⟨rfl,he⟩
  | succ n ih =>
    rintro (_ | ⟨x,xs⟩) (_ | ⟨y,ys⟩) r r' ⟨hx,hvx⟩ ⟨hy,hvy⟩ he
    · cases hx
    · cases hx
    · cases hy
    · simp only [List.flatMap_cons,List.append_assoc] at he
      obtain ⟨rfl,he'⟩ := h x y _ _ (hvx x (by simp)) (hvy y (by simp)) he
      obtain ⟨rfl,hr⟩ := ih xs ys r r'
        ⟨Nat.succ.inj hx,fun z hz => hvx z (List.mem_cons_of_mem x hz)⟩
        ⟨Nat.succ.inj hy,fun z hz => hvy z (List.mem_cons_of_mem x hz)⟩ he'
      exact ⟨rfl,hr⟩

/-- A sequence behind its encoded length. -/
theorem counted {count : Nat → List γ} {bound : Nat} (h : SelfDelimiting valid enc)
    (hc : SelfDelimiting (fun n => n<bound) count) :
    SelfDelimiting (fun l : List α => l.length<bound ∧ ∀ x∈l, valid x)
      (fun l => count l.length++l.flatMap enc) := by
  rintro l l' r r' ⟨hl,hv⟩ ⟨hl',hv'⟩ he
  simp only [List.append_assoc] at he
  obtain ⟨hlen,he⟩ := hc _ _ _ _ hl hl' he
  exact h.flatMap l'.length l l' r r' ⟨hlen,hv⟩ ⟨rfl,hv'⟩ he

/-- The part of a code that a projection keeps. -/
theorem comap {δ : Type*} {valid' : δ → Prop} {f : δ → α} (h : SelfDelimiting valid enc)
    (hv : ∀ x, valid' x → valid (f x)) (hinj : ∀ x y, valid' x → valid' y → f x=f y → x=y) :
    SelfDelimiting valid' (fun x => enc (f x)) := by
  intro x y r r' hx hy he
  obtain ⟨h1,h2⟩ := h _ _ _ _ (hv x hx) (hv y hy) he
  exact ⟨hinj x y hx hy h1,h2⟩

end SelfDelimiting
end MarketWire.Library
