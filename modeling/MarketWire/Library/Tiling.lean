import MarketWire.Library.BigEndian
import Mathlib.Data.List.Forall2

/-! Ranges that follow one another without a gap, and lists cut along them. -/
namespace MarketWire.Library

/-- Ranges, each an offset and a width, that run from `a` to `b`. -/
inductive Tiles : Nat → List (Nat×Nat) → Nat → Prop
  | nil {a : Nat} : Tiles a [] a
  | cons {a w b : Nat} {l : List (Nat×Nat)} (h : Tiles (a+w) l b) : Tiles a ((a,w)::l) b

namespace Tiles
variable {a b : Nat} {l : List (Nat×Nat)}

theorem snoc (h : Tiles a l b) (w : Nat) : Tiles a (l++[(b,w)]) (b+w) := by
  induction h with
  | nil => exact .cons .nil
  | cons h ih => exact .cons ih

theorem le (h : Tiles a l b) : a≤b := by
  induction h with
  | nil => exact le_rfl
  | cons h ih => omega

theorem mem_le (h : Tiles a l b) {r : Nat×Nat} (hr : r∈l) : a≤r.1 ∧ r.1+r.2≤b := by
  induction h with
  | nil => cases hr
  | @cons a w b l h ih =>
    have hle := h.le
    obtain rfl | hr := List.mem_cons.mp hr
    · exact ⟨le_rfl,hle⟩
    · have := ih hr
      omega

/-- The end is the start and all the widths. -/
theorem sum (h : Tiles a l b) : b=a+(l.map Prod.snd).sum := by
  induction h with
  | nil => rfl
  | cons h ih =>
    rw [List.map_cons,List.sum_cons,ih]
    omega

/-- Each range starts after the widths of those before it. -/
theorem start (h : Tiles a l b) {i : Nat} {r : Nat×Nat} (hr : l[i]?=some r) :
    r.1=a+((l.take i).map Prod.snd).sum := by
  induction h generalizing i with
  | nil => cases hr
  | @cons a w b l h ih =>
    cases i with
    | zero =>
      cases hr
      rfl
    | succ i =>
      rw [List.getElem?_cons_succ] at hr
      rw [ih hr,List.take_succ_cons,List.map_cons,List.sum_cons]
      omega

theorem pairwise (h : Tiles a l b) : l.Pairwise fun r s => r.1+r.2 ≤ s.1 := by
  induction h with
  | nil => exact .nil
  | cons h ih => exact .cons (fun s hs => (h.mem_le hs).1) ih

theorem cover (h : Tiles a l b) (i : Nat) : a ≤ i ∧ i<b ↔ ∃ r∈l, r.1 ≤ i ∧ i<r.1+r.2 := by
  constructor
  · rintro ⟨hi,hb⟩
    induction h with
    | nil => omega
    | @cons a w b l h ih =>
      by_cases hw : i<a+w
      · exact ⟨(a,w),List.mem_cons_self,hi,hw⟩
      · obtain ⟨r,hr,h⟩ := ih (by omega) hb
        exact ⟨r,List.mem_cons_of_mem _ hr,h⟩
  · rintro ⟨r,hr,h1,h2⟩
    have := h.mem_le hr
    omega

variable {α : Type*}

/-- Lists that agree before the ranges and on each of them agree. -/
theorem ext (h : Tiles a l b) {u v : List α} (hu : u.length=b) (hv : v.length=b)
    (htake : u.take a=v.take a) (hs : ∀ r∈l, slice u r.1 r.2=slice v r.1 r.2) : u=v := by
  induction h with
  | nil => rwa [List.take_of_length_le hu.le,List.take_of_length_le hv.le] at htake
  | @cons a w b l h ih =>
    refine ih hu hv ?_ fun r hr => hs r (List.mem_cons_of_mem _ hr)
    have hw : slice u a w=slice v a w := hs (a,w) List.mem_cons_self
    rw [List.take_add,List.take_add,htake]
    exact congrArg _ hw

/-- Pieces of the right widths, put together, are found on the ranges. -/
theorem slices (h : Tiles a l b) {pieces : List (List α)}
    (hp : List.Forall₂ (fun r x => x.length=r.2) l pieces) {front : List α}
    (hf : front.length=a) : (front++pieces.flatten).length=b ∧
      List.Forall₂ (fun r x => slice (front++pieces.flatten) r.1 r.2=x) l pieces := by
  induction h generalizing pieces front with
  | nil =>
    cases hp
    exact ⟨by simpa using hf,.nil⟩
  | @cons a w b l h ih =>
    cases hp with
    | @cons _ x _ pieces hx hp =>
      have hfx : (front++x).length=a+w := by rw [List.length_append,hf,hx]
      have hjoin : front++(x::pieces).flatten=front++x++pieces.flatten := by simp
      obtain ⟨hlen,hs⟩ := ih hp hfx
      rw [hjoin]
      exact ⟨hlen,.cons (slice_middle front rfl hf hx) hs⟩

end Tiles

end MarketWire.Library
