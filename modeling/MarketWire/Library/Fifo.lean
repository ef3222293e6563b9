import Mathlib.Data.List.Basic
import Mathlib.Data.List.Nodup

/-! Queues that change over time: some leave, newcomers go behind, nobody overtakes. -/
namespace MarketWire.Library
variable {α : Type*}

/-- The queue `q'` is what is left of `q`, with newcomers behind; whoever `stays` is still there. -/
def Queued (stays : α → Prop) (q q' : List α) : Prop :=
  ∃ left new, q'=left++new ∧ left.Sublist q ∧ ∀ a∈q, stays a → a∈left

namespace Queued
variable {stays stays' : α → Prop} {q q' q'' : List α}

theorem refl (q : List α) : Queued stays q q := ⟨q,[],by simp,List.Sublist.refl q,fun _ h _ => h⟩

/-- Newcomers. -/
theorem append (q new : List α) : Queued stays q (q++new) :=
  ⟨q,new,rfl,List.Sublist.refl q,fun _ h _ => h⟩

/-- Departures, and newcomers. -/
theorem filter {p : α → Bool} (h : ∀ a∈q, stays a → p a) (new : List α) :
    Queued stays q (q.filter p++new) :=
  ⟨q.filter p,new,rfl,List.filter_sublist,fun a ha hs => List.mem_filter.mpr ⟨ha,h a ha hs⟩⟩

/-- A queue without repetitions may change twice. -/
theorem trans (h : Queued stays q q') (hn : q'.Nodup) (h' : Queued stays' q' q'') :
    Queued (fun a => stays a ∧ stays' a) q q'' := by
  obtain ⟨left,new,rfl,hsub,hstay⟩ := h
  obtain ⟨left',new',rfl,hsub',hstay'⟩ := h'
  obtain ⟨old,recent,rfl,hold,hrecent⟩ := List.sublist_append_iff.mp hsub'
  refine ⟨old,recent++new',by simp,hold.trans hsub,fun a ha ⟨hs,hs'⟩ => ?_⟩
  have hleft := hstay a ha hs
  have hmem := hstay' a (List.mem_append_left _ hleft) hs'
  -- one who was there before is not among the newcomers
  refine (List.mem_append.mp hmem).resolve_right fun hr => ?_
  exact (List.nodup_append.mp hn).2.2 a hleft a (hrecent.subset hr) rfl

theorem mono (h : Queued stays q q') (hs : ∀ a∈q, stays' a → stays a) : Queued stays' q q' := by
  obtain ⟨left,new,hq,hsub,hstay⟩ := h
  exact ⟨left,new,hq,hsub,fun a ha h' => hstay a ha (hs a ha h')⟩

end Queued
end MarketWire.Library
