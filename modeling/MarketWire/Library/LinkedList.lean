import Mathlib.Tactic.Common
import Mathlib.Logic.Function.Basic
import Mathlib.Data.List.Nodup

/-! Intrusive linked lists over an index type: the links are functions, a list is
the order in which they visit the indices. -/
namespace MarketWire.Library
variable {ι : Type*}

/-- A singly linked chain from `h` that visits `l` and then stops at `nil`. -/
def Chain (nil : ι) (next : ι → ι) : ι → List ι → Prop
  | h, [] => h=nil
  | h, x::xs => h=x ∧ x≠nil ∧ Chain nil next (next x) xs

/-- A doubly linked segment: `p` and `m` are the neighbours outside it, `h` and `t`
its first and last index (`m` and `p` when it is empty). -/
def Seg (nil : ι) (next prev : ι → ι) : ι → List ι → ι → ι → ι → Prop
  | p, [], h, t, m => t=p ∧ h=m
  | p, x::xs, h, t, m => h=x ∧ x≠nil ∧ prev x=p ∧ Seg nil next prev x xs (next x) t m

/-- A whole doubly linked list with its head and tail. -/
def DList (nil : ι) (next prev : ι → ι) (l : List ι) (head tail : ι) : Prop :=
  Seg nil next prev nil l head tail nil

/-- Follow the links from `h`; `none` when the fuel ends before `nil` is reached. -/
def walk [DecidableEq ι] (nil : ι) (next : ι → ι) : Nat → ι → Option (List ι)
  | 0, h => if h=nil then some [] else none
  | n+1, h => if h=nil then some [] else (walk nil next n (next h)).map (List.cons h)

variable {nil : ι} {next prev next' prev' : ι → ι}

theorem Chain.congr {h : ι} {l : List ι} (hc : Chain nil next h l)
    (he : ∀ x∈l, next' x=next x) : Chain nil next' h l := by
  induction l generalizing h with
  | nil => exact hc
  | cons x xs ih =>
    obtain ⟨hx,hn,ht⟩ := hc
    refine ⟨hx,hn,?_⟩
    rw [he x (by simp)]
    exact ih ht (fun y hy => he y (List.mem_cons_of_mem x hy))

/-- A chain is determined by its links and its start. -/
theorem Chain.unique {h : ι} {l l' : List ι} (hc : Chain nil next h l)
    (hc' : Chain nil next h l') : l=l' := by
  induction l generalizing h l' with
  | nil =>
    cases l' with
    | nil => rfl
    | cons y ys => exact absurd (hc'.1.symm.trans hc) hc'.2.1
  | cons x xs ih =>
    obtain ⟨rfl,hn,ht⟩ := hc
    cases l' with
    | nil => exact absurd hc' hn
    | cons y ys =>
      obtain ⟨rfl,_,ht'⟩ := hc'
      rw [ih ht ht']

/-- The first index of a chain, read off the list. -/
theorem Chain.head_eq {h : ι} {l : List ι} (hc : Chain nil next h l) : h=l.head?.getD nil := by
  cases l with
  | nil => exact hc
  | cons x xs => exact hc.1

/-- The links of a chain are determined by the visited list. -/
theorem Chain.links_eq {h h' : ι} {l : List ι} (hc : Chain nil next h l)
    (hc' : Chain nil next' h' l) : ∀ x∈l, next x=next' x := by
  induction l generalizing h h' with
  | nil => simp
  | cons x xs ih =>
    obtain ⟨_,_,ht⟩ := hc
    obtain ⟨_,_,ht'⟩ := hc'
    intro y hy
    rcases List.mem_cons.mp hy with rfl | hy
    · exact ht.head_eq.trans ht'.head_eq.symm
    · exact ih ht ht' y hy

/-- Enough fuel walks a chain to its end, and the walk is the chain. -/
theorem Chain.walk_eq [DecidableEq ι] {h : ι} {l : List ι} (hc : Chain nil next h l) (n : Nat)
    (hn : l.length≤n) : walk nil next n h=some l := by
  induction n generalizing h l with
  | zero =>
    have hl : l=[] := by simpa using hn
    subst hl
    have hh : h=nil := hc
    simp [walk,hh]
  | succ n ih =>
    cases l with
    | nil =>
      have hh : h=nil := hc
      simp [walk,hh]
    | cons x xs =>
      obtain ⟨rfl,hx,ht⟩ := hc
      have hw := ih ht (by simpa using hn)
      simp [walk,hx,hw]

theorem Seg.congr {p h t m : ι} {l : List ι} (hs : Seg nil next prev p l h t m)
    (hn : ∀ x∈l, next' x=next x) (hp : ∀ x∈l, prev' x=prev x) :
    Seg nil next' prev' p l h t m := by
  induction l generalizing p h with
  | nil => exact hs
  | cons x xs ih =>
    obtain ⟨hh,hx,hprev,ht⟩ := hs
    refine ⟨hh,hx,by rw [hp x (by simp),hprev],?_⟩
    rw [hn x (by simp)]
    exact ih ht (fun y hy => hn y (List.mem_cons_of_mem x hy))
      (fun y hy => hp y (List.mem_cons_of_mem x hy))

theorem seg_append {p h t m : ι} {xs ys : List ι} :
    Seg nil next prev p (xs++ys) h t m ↔
      ∃ q k, Seg nil next prev p xs h q k ∧ Seg nil next prev q ys k t m := by
  induction xs generalizing p h with
  | nil =>
    constructor
    · intro hs
      exact ⟨p,h,⟨rfl,rfl⟩,hs⟩
    · rintro ⟨q,k,⟨rfl,rfl⟩,hs⟩
      exact hs
  | cons x xs ih =>
    constructor
    · rintro ⟨hh,hx,hp,ht⟩
      obtain ⟨q,k,h1,h2⟩ := ih.mp ht
      exact ⟨q,k,⟨hh,hx,hp,h1⟩,h2⟩
    · rintro ⟨q,k,⟨hh,hx,hp,h1⟩,h2⟩
      exact ⟨hh,hx,hp,ih.mpr ⟨q,k,h1,h2⟩⟩

theorem Seg.last_mem {p h t m : ι} {l : List ι} (hs : Seg nil next prev p l h t m) :
    t∈p::l := by
  induction l generalizing p h with
  | nil => simp [hs.1]
  | cons x xs ih => exact List.mem_cons_of_mem p (ih hs.2.2.2)

theorem Seg.nil_not_mem {p h t m : ι} {l : List ι} (hs : Seg nil next prev p l h t m) :
    nil∉l := by
  induction l generalizing p h with
  | nil => simp
  | cons x xs ih =>
    obtain ⟨_,hx,_,ht⟩ := hs
    simp [Ne.symm hx,ih ht]

/-- Reading a segment backwards exchanges the two link functions. -/
theorem Seg.reverse {p h t m : ι} {l : List ι} (hs : Seg nil next prev p l h t m) :
    Seg nil prev next m l.reverse t h p := by
  induction l generalizing p h with
  | nil => exact ⟨hs.2,hs.1⟩
  | cons x xs ih =>
    obtain ⟨rfl,hx,hp,ht⟩ := hs
    rw [List.reverse_cons]
    exact seg_append.mpr ⟨_,h,ih ht,rfl,hx,rfl,rfl,hp⟩

theorem DList.reverse {l : List ι} {head tail : ι} (hd : DList nil next prev l head tail) :
    DList nil prev next l.reverse tail head :=
  Seg.reverse hd

theorem Seg.chain {p h t : ι} {l : List ι} (hs : Seg nil next prev p l h t nil) :
    Chain nil next h l := by
  induction l generalizing p h with
  | nil => exact hs.2
  | cons x xs ih => exact ⟨hs.1,hs.2.1,ih hs.2.2.2⟩

theorem DList.chain {l : List ι} {head tail : ι} (hd : DList nil next prev l head tail) :
    Chain nil next head l :=
  Seg.chain hd

theorem DList.head_eq {l : List ι} {head tail : ι} (hd : DList nil next prev l head tail) :
    head=l.head?.getD nil :=
  hd.chain.head_eq

theorem DList.tail_eq {l : List ι} {head tail : ι} (hd : DList nil next prev l head tail) :
    tail=l.getLast?.getD nil := by
  simpa using hd.reverse.chain.head_eq

/-- The links inside a segment are determined by the visited list. -/
theorem Seg.links_eq {p h t m h' t' : ι} {l : List ι} (hs : Seg nil next prev p l h t m)
    (hs' : Seg nil next' prev' p l h' t' m) : ∀ x∈l, next x=next' x ∧ prev x=prev' x := by
  induction l generalizing p h h' with
  | nil => simp
  | cons x xs ih =>
    obtain ⟨_,_,hp,ht⟩ := hs
    obtain ⟨_,_,hp',ht'⟩ := hs'
    have hn : next x=next' x := by
      cases xs with
      | nil => exact ht.2.trans ht'.2.symm
      | cons y ys => exact ht.1.trans ht'.1.symm
    intro y hy
    rcases List.mem_cons.mp hy with rfl | hy
    · exact ⟨hn,hp.trans hp'.symm⟩
    · exact ih ht ht' y hy

section Update
variable [DecidableEq ι]

/-- Redirect the outgoing link of a list prefix: the last index is relinked, or the head
when the prefix is empty. -/
theorem Seg.set_next {h t m : ι} {l : List ι} (m' : ι) (hs : Seg nil next prev nil l h t m)
    (hn : l.Nodup) :
    Seg nil (if t=nil then next else Function.update next t m') prev nil l
      (if t=nil then m' else h) t m' := by
  have hgen : ∀ (l : List ι) (p h : ι), Seg nil next prev p l h t m → l.Nodup → l≠[] →
      Seg nil (Function.update next t m') prev p l h t m' := by
    intro l
    induction l with
    | nil => simp
    | cons x xs ih =>
      rintro p h ⟨hh,hx,hp,ht⟩ hnd _
      refine ⟨hh,hx,hp,?_⟩
      cases xs with
      | nil =>
        obtain ⟨rfl,_⟩ := ht
        simp [Seg]
      | cons y ys =>
        have hne : x≠t := by
          intro he
          have hy : t∈y::ys := Seg.last_mem ht.2.2.2
          exact (List.nodup_cons.mp hnd).1 (he ▸ hy)
        rw [Function.update_of_ne hne]
        exact ih x (next x) ht (List.nodup_cons.mp hnd).2 (by simp)
  cases l with
  | nil =>
    obtain ⟨rfl,_⟩ := hs
    simp [Seg]
  | cons x xs =>
    have ht : t≠nil := by
      intro he
      have hm : t∈x::xs := Seg.last_mem hs.2.2.2
      exact Seg.nil_not_mem hs (he ▸ hm)
    rw [if_neg ht,if_neg ht]
    exact hgen (x::xs) nil h hs hn (by simp)

/-- Redirect the incoming back link of a list suffix. -/
theorem Seg.set_prev {p h t : ι} {l : List ι} (p' : ι) (hs : Seg nil next prev p l h t nil)
    (hn : l.Nodup) :
    Seg nil next (if h=nil then prev else Function.update prev h p') p' l h
      (if h=nil then p' else t) nil := by
  have hr := (Seg.set_next p' hs.reverse (List.nodup_reverse.mpr hn)).reverse
  simpa using hr

/-- Appending an index, as a tail insertion links it. -/
theorem DList.push_back {l : List ι} {head tail s : ι} (hd : DList nil next prev l head tail)
    (hn : l.Nodup) (hnil : s≠nil) (hns : next' s=nil) (hps : prev' s=tail)
    (hnext : ∀ x∈l, next' x=if x=tail then s else next x)
    (hprev : ∀ x∈l, prev' x=prev x) :
    DList nil next' prev' (l++[s]) (if tail=nil then s else head) s := by
  refine seg_append.mpr ⟨tail,s,?_,rfl,hnil,hps,rfl,hns⟩
  refine (Seg.set_next s hd hn).congr ?_ hprev
  intro x hx
  rw [hnext x hx]
  by_cases ht : tail=nil
  · have hxt : x≠tail := fun he => Seg.nil_not_mem hd (ht ▸ he ▸ hx)
    rw [if_neg hxt,if_pos ht]
  · rw [if_neg ht]
    by_cases hxt : x=tail
    · simp [hxt]
    · rw [if_neg hxt,Function.update_of_ne hxt]

/-- Removing an index from anywhere in a list, as an unlink operation does it. -/
theorem DList.unlink {xs ys : List ι} {head tail s : ι}
    (hd : DList nil next prev (xs++s::ys) head tail) (hn : (xs++s::ys).Nodup)
    (hnext : ∀ x∈xs++ys, next' x=if x=prev s then next s else next x)
    (hprev : ∀ x∈xs++ys, prev' x=if x=next s then prev s else prev x) :
    DList nil next' prev' (xs++ys) (if prev s=nil then next s else head)
      (if next s=nil then prev s else tail) := by
  obtain ⟨q,k,h1,rfl,_,hq,h2⟩ := seg_append.mp hd
  obtain ⟨hnx,hny,hdis⟩ := List.nodup_append.mp hn
  have hny' : ys.Nodup := (List.nodup_cons.mp hny).2
  have hxy : ∀ x∈xs, x∉ys := fun x hx hy => hdis x hx x (List.mem_cons_of_mem k hy) rfl
  have hnx0 : ∀ x∈xs, x≠nil := fun x hx he => Seg.nil_not_mem h1 (he ▸ hx)
  have hny0 : ∀ y∈ys, y≠nil := fun y hy he => Seg.nil_not_mem h2 (he ▸ hy)
  have hqx : prev k=nil ∨ prev k∈xs := by
    rw [hq]
    exact List.mem_cons.mp h1.last_mem
  have hky : next k=nil ∨ next k∈ys := List.mem_cons.mp h2.reverse.last_mem |>.imp id (by simp)
  refine seg_append.mpr ⟨prev k,next k,?_,?_⟩
  · rw [← hq] at h1
    refine (Seg.set_next (next k) h1 hnx).congr ?_ ?_
    · intro x hx
      rw [hnext x (List.mem_append_left ys hx)]
      by_cases hp : prev k=nil
      · rw [if_neg (fun he => hnx0 x hx (he.trans hp)),if_pos hp]
      · rw [if_neg hp]
        by_cases hxp : x=prev k
        · simp [hxp]
        · rw [if_neg hxp,Function.update_of_ne hxp]
    · intro x hx
      have hne : x≠next k := by
        rintro rfl
        exact hky.elim (hnx0 _ hx) (hxy _ hx)
      rw [hprev x (List.mem_append_left ys hx),if_neg hne]
  · refine (Seg.set_prev (prev k) h2 hny').congr ?_ ?_
    · intro y hy
      have hne : y≠prev k := by
        rintro rfl
        exact hqx.elim (hny0 _ hy) (fun hx => hxy _ hx hy)
      rw [hnext y (List.mem_append_right xs hy),if_neg hne]
    · intro y hy
      rw [hprev y (List.mem_append_right xs hy)]
      by_cases hp : next k=nil
      · rw [if_neg (fun he => hny0 y hy (he.trans hp)),if_pos hp]
      · rw [if_neg hp]
        by_cases hyp : y=next k
        · simp [hyp]
        · rw [if_neg hyp,Function.update_of_ne hyp]

end Update
end MarketWire.Library
