import MarketWire.BookStore

/-! Levels as FIFO lists: the links of the arena and the head, tail and total of each
level agree with the live orders. Attaching and detaching one order are the only ways
in which the source changes them. -/
namespace MarketWire
open Library

/-- A stored level, or its absence, matches the orders resting at `k`. -/
def LevelRep (slots : Slots) (live : List Placed) (k : LevelKey) : Option PriceLevel → Prop
  | none => atKey live k=[]
  | some level => atKey live k≠[] ∧
      DList kInvalidSlot slots.nexts slots.prevs (queueOf live k) level.head level.tail ∧
      level.totalQuantity.toNat=sumQuantity (atKey live k)

structure LinksRep (slots : Slots) (level? : LevelKey → Option PriceLevel)
    (live : List Placed) : Prop where
  order : ∀ p∈live, (slots.slotAt p.1).order=p.2
  level : ∀ k, LevelRep slots live k (level? k)

/-- The live slots are distinct positions of an addressable arena. -/
structure Resident (slots : Slots) (live : List Placed) : Prop where
  bound : slots.length≤kInvalidSlot.toNat
  nodup : (live.map Prod.fst).Nodup
  lt : ∀ p∈live, p.1.toNat<slots.length

variable {slots slots' : Slots} {level? : LevelKey → Option PriceLevel} {live : List Placed}

theorem Resident.queue_lt (hr : Resident slots live) {k : LevelKey} {s : SlotIndex}
    (h : s∈queueOf live k) : s.toNat<slots.length := by
  obtain ⟨o,ho,_⟩ := (mem_queueOf live k).mp h
  exact hr.lt (s,o) ho

theorem Resident.ne_invalid (hr : Resident slots live) {k : LevelKey} {s : SlotIndex}
    (h : s∈queueOf live k) : s≠kInvalidSlot := by
  rintro rfl
  have := hr.queue_lt h
  have := hr.bound
  omega

/-- The level a reference would see, an absent level reading as an empty one. -/
theorem LevelRep.dlist {k : LevelKey} {l : Option PriceLevel} (h : LevelRep slots live k l) :
    DList kInvalidSlot slots.nexts slots.prevs (queueOf live k) (l.getD {}).head (l.getD {}).tail ∧
      (l.getD {}).totalQuantity.toNat=sumQuantity (atKey live k) := by
  cases l with
  | none =>
    have hn : atKey live k=[] := h
    simp [queueOf,hn,DList,Seg]
  | some level => exact h.2

theorem LevelRep.congr {k : LevelKey} {l : Option PriceLevel} {live' : List Placed}
    (h : LevelRep slots live k l) (hk : atKey live' k=atKey live k)
    (hn : ∀ s∈queueOf live k, slots'.nexts s=slots.nexts s)
    (hp : ∀ s∈queueOf live k, slots'.prevs s=slots.prevs s) : LevelRep slots' live' k l := by
  cases l with
  | none =>
    rw [LevelRep,hk]
    exact h
  | some level =>
    obtain ⟨h1,h2,h3⟩ := h
    refine ⟨by rwa [hk],?_,by rwa [hk]⟩
    rw [queueOf,hk]
    exact Seg.congr h2 hn hp

/-- The tail of a level is one of its slots, or the invalid slot when it has none. -/
theorem tail_mem {k : LevelKey} {head tail : SlotIndex}
    (hd : DList kInvalidSlot slots.nexts slots.prevs (queueOf live k) head tail) :
    tail=kInvalidSlot ∨ tail∈queueOf live k :=
  List.mem_cons.mp (Seg.last_mem hd)

/-- The relation reads only the live slots. -/
theorem LinksRep.frame (h : LinksRep slots level? live)
    (hs : ∀ p∈live, slots'.slotAt p.1=slots.slotAt p.1) : LinksRep slots' level? live := by
  have hq (k : LevelKey) (s : SlotIndex) (hm : s∈queueOf live k) :
      slots'.slotAt s=slots.slotAt s := by
    obtain ⟨o,ho,_⟩ := (mem_queueOf live k).mp hm
    exact hs (s,o) ho
  refine ⟨fun p hp => by rw [hs p hp]; exact h.order p hp,fun k => ?_⟩
  refine (h.level k).congr rfl (fun s hm => ?_) (fun s hm => ?_)
  · rw [Slots.nexts,hq k s hm]
    rfl
  · rw [Slots.prevs,hq k s hm]
    rfl

/-- A list position other than the split one keeps its slot apart. -/
theorem Resident.ne_of_split {xs ys : List Placed} {p q : Placed}
    (hr : Resident slots (xs++p::ys)) (hq : q∈xs++ys) : q.1≠p.1 := by
  intro he
  have hn := hr.nodup
  rw [List.map_append,List.map_cons] at hn
  refine (List.nodup_cons.mp (List.nodup_middle.mp hn)).1 ?_
  rw [← List.map_append,← he]
  exact List.mem_map_of_mem hq

/-- The neighbours of a live slot are slots of the same level, or invalid. -/
theorem LinksRep.neighbours (h : LinksRep slots level? live) {p : Placed} (hp : p∈live) :
    (slots.prevs p.1=kInvalidSlot ∨ slots.prevs p.1∈queueOf live p.2.key) ∧
      (slots.nexts p.1=kInvalidSlot ∨ slots.nexts p.1∈queueOf live p.2.key) := by
  have hq : p.1∈queueOf live p.2.key := (mem_queueOf _ _).mpr ⟨p.2,hp,rfl⟩
  have hdl := (h.level p.2.key).dlist.1
  obtain ⟨xs,ys,hsplit⟩ := List.append_of_mem hq
  rw [hsplit] at hdl ⊢
  obtain ⟨q,k,h1,rfl,_,hpq,h2⟩ := seg_append.mp hdl
  rw [hpq]
  refine ⟨(List.mem_cons.mp h1.last_mem).imp id (List.mem_append_left _),
    (List.mem_cons.mp h2.reverse.last_mem).imp id fun hm => ?_⟩
  exact List.mem_append_right _ (List.mem_cons_of_mem _ (List.mem_reverse.mp hm))

theorem LinksRep.slotAt_unlink (h : LinksRep slots level? live) (hr : Resident slots live)
    {p : Placed} (hp : p∈live) (lv : PriceLevel) {j : SlotIndex} (hj : j.toNat<slots.length) :
    (slots.unlink lv p.1).1.slotAt j=
      { slots.slotAt j with
        next := if j=p.1 then kInvalidSlot else if j=slots.prevs p.1 then slots.nexts p.1
          else slots.nexts j
        prev := if j=p.1 then kInvalidSlot else if j=slots.nexts p.1 then slots.prevs p.1
          else slots.prevs j } :=
  Slots.slotAt_unlink lv hr.bound (hr.lt p hp) ((h.neighbours hp).1.imp id hr.queue_lt)
    ((h.neighbours hp).2.imp id hr.queue_lt) hj

/-- Unlinking does not touch a slot outside the lists. -/
theorem LinksRep.unlink_frame (h : LinksRep slots level? live) (hr : Resident slots live)
    {p : Placed} (hp : p∈live) (lv : PriceLevel) {j : SlotIndex} (hj : j.toNat<slots.length)
    (hout : j∉live.map Prod.fst) : (slots.unlink lv p.1).1.slotAt j=slots.slotAt j := by
  have hq : ∀ k, j∉queueOf live k := by
    intro k hm
    obtain ⟨o,ho,_⟩ := (mem_queueOf live k).mp hm
    exact hout (List.mem_map_of_mem ho)
  have hji : j≠kInvalidSlot := by
    rintro rfl
    have := hr.bound
    omega
  have h1 : j≠p.1 := fun he => hout (he ▸ List.mem_map_of_mem hp)
  have h2 : j≠slots.prevs p.1 := by
    rintro rfl
    exact (h.neighbours hp).1.elim hji (hq _)
  have h3 : j≠slots.nexts p.1 := by
    rintro rfl
    exact (h.neighbours hp).2.elim hji (hq _)
  rw [h.slotAt_unlink hr hp lv hj,if_neg h1,if_neg h2,if_neg h1,if_neg h3]
  rfl

theorem LinksRep.slotAt_linkAtTail (h : LinksRep slots level? live) (hr : Resident slots live)
    {s : SlotIndex} (hs : s∉live.map Prod.fst) (hlt : s.toNat<slots.length) {k : LevelKey}
    {level : PriceLevel} (hhead : level.head=((level? k).getD {}).head)
    (htail : level.tail=((level? k).getD {}).tail) {j : SlotIndex} (hj : j.toNat<slots.length) :
    (slots.linkAtTail level s).1.slotAt j=
      { slots.slotAt j with
        next := if j=s then kInvalidSlot else if j=level.tail then s else slots.nexts j
        prev := if j=s then level.tail else slots.prevs j } := by
  have hdl := (h.level k).dlist.1
  rw [← hhead,← htail] at hdl
  have htm := tail_mem hdl
  refine Slots.slotAt_linkAtTail hr.bound hlt (htm.imp id hr.queue_lt) ?_ hj
  rintro rfl
  cases htm with
  | inl ht =>
    rw [ht] at hlt
    have := hr.bound
    omega
  | inr ht =>
    obtain ⟨o,ho,_⟩ := (mem_queueOf live k).mp ht
    exact hs (List.mem_map_of_mem ho)

/-- Linking touches only the new slot and a slot of a list. -/
theorem LinksRep.link_frame (h : LinksRep slots level? live) (hr : Resident slots live)
    {s : SlotIndex} (hs : s∉live.map Prod.fst) (hlt : s.toNat<slots.length) {k : LevelKey}
    {level : PriceLevel} (hhead : level.head=((level? k).getD {}).head)
    (htail : level.tail=((level? k).getD {}).tail) {j : SlotIndex} (hj : j.toNat<slots.length)
    (hjs : j≠s) (hout : j∉live.map Prod.fst) :
    (slots.linkAtTail level s).1.slotAt j=slots.slotAt j := by
  have hdl := (h.level k).dlist.1
  rw [← hhead,← htail] at hdl
  have hjt : j≠level.tail := by
    rintro rfl
    cases tail_mem hdl with
    | inl ht =>
      rw [ht] at hj
      have := hr.bound
      omega
    | inr ht =>
      obtain ⟨o,ho,_⟩ := (mem_queueOf live k).mp ht
      exact hout (List.mem_map_of_mem ho)
  rw [h.slotAt_linkAtTail hr hs hlt hhead htail hj]
  simp [hjs,hjt,Slots.nexts,Slots.prevs]

/-- Linking a detached order at the tail of its level. -/
theorem LinksRep.attach (h : LinksRep slots level? live) (hr : Resident slots live)
    {s : SlotIndex} {order : Order} (hs : s∉live.map Prod.fst) (hlt : s.toNat<slots.length)
    (horder : (slots.slotAt s).order=order) {level : PriceLevel}
    (hhead : level.head=((level? order.key).getD {}).head)
    (htail : level.tail=((level? order.key).getD {}).tail)
    (htotal : level.totalQuantity.toNat=
      sumQuantity (atKey live order.key)+order.quantity.toNat) :
    LinksRep (slots.linkAtTail level s).1
      (Function.update level? order.key (some (slots.linkAtTail level s).2))
      (live++[(s,order)]) := by
  have hdl := (h.level order.key).dlist.1
  rw [← hhead,← htail] at hdl
  have htm := tail_mem hdl
  have hsq : ∀ k, s∉queueOf live k := by
    intro k hm
    obtain ⟨o,ho,_⟩ := (mem_queueOf live k).mp hm
    exact hs (List.mem_map_of_mem ho)
  have hsi : s≠kInvalidSlot := by
    rintro rfl
    have := hr.bound
    omega
  have hat (j : SlotIndex) (hj : j.toNat<slots.length) :=
    h.slotAt_linkAtTail hr hs hlt hhead htail hj
  constructor
  · intro p hp
    cases List.mem_append.mp hp with
    | inl hp =>
      rw [hat p.1 (hr.lt p hp)]
      exact h.order p hp
    | inr hp =>
      obtain rfl := List.mem_singleton.mp hp
      rw [hat s hlt]
      exact horder
  · intro k
    by_cases hk : k=order.key
    · subst hk
      rw [Function.update_self,Slots.linkAtTail_level]
      refine ⟨by simp [atKey_cons],?_,by simp [htotal,atKey_cons]⟩
      rw [queueOf_append,queueOf_cons,if_pos rfl]
      refine hdl.push_back (queueOf_nodup hr.nodup _) hsi ?_ ?_ ?_ ?_
      · simp [Slots.nexts,hat s hlt]
      · simp [Slots.prevs,hat s hlt]
      · intro x hx
        have hxs : x≠s := fun he => hsq _ (he ▸ hx)
        rw [Slots.nexts,hat x (hr.queue_lt hx)]
        simp [hxs]
      · intro x hx
        have hxs : x≠s := fun he => hsq _ (he ▸ hx)
        rw [Slots.prevs,hat x (hr.queue_lt hx)]
        simp [hxs]
    · rw [Function.update_of_ne hk]
      refine (h.level k).congr (by simp [atKey_cons,Ne.symm hk]) ?_ ?_
      · intro x hx
        have hxs : x≠s := fun he => hsq _ (he ▸ hx)
        have hxt : x≠level.tail := by
          rintro rfl
          cases htm with
          | inl ht => exact hr.ne_invalid hx ht
          | inr ht => exact hk (queueOf_disjoint hr.nodup hx ht)
        rw [Slots.nexts,hat x (hr.queue_lt hx)]
        simp [hxs,hxt]
      · intro x hx
        have hxs : x≠s := fun he => hsq _ (he ▸ hx)
        rw [Slots.prevs,hat x (hr.queue_lt hx)]
        simp [hxs]

section Split
variable {xs ys : List Placed} {p : Placed} {level : PriceLevel}

theorem mem_split_of_mem {q : Placed} (hq : q∈xs++ys) : q∈xs++p::ys := by
  simp only [List.mem_append,List.mem_cons] at hq ⊢
  tauto

theorem queueOf_split_subset (k : LevelKey) {x : SlotIndex} (hx : x∈queueOf (xs++ys) k) :
    x∈queueOf (xs++p::ys) k := by
  obtain ⟨o,ho,hk⟩ := (mem_queueOf _ _).mp hx
  exact (mem_queueOf _ _).mpr ⟨o,mem_split_of_mem ho,hk⟩

/-- The list that an unlinked order leaves behind. -/
theorem LinksRep.unlink_dlist (h : LinksRep slots level? (xs++p::ys))
    (hr : Resident slots (xs++p::ys)) (hlevel : level? p.2.key=some level) {lv : PriceLevel}
    (hhead : lv.head=level.head) (htail : lv.tail=level.tail) :
    DList kInvalidSlot (slots.unlink lv p.1).1.nexts (slots.unlink lv p.1).1.prevs
      (queueOf (xs++ys) p.2.key) (slots.unlink lv p.1).2.head (slots.unlink lv p.1).2.tail := by
  have hmem : p∈xs++p::ys := by simp
  have hdl := (h.level p.2.key).dlist.1
  rw [hlevel,Option.getD_some,← hhead,← htail] at hdl
  have hnd := queueOf_nodup hr.nodup p.2.key
  have hjoin : queueOf (xs++ys) p.2.key=queueOf xs p.2.key++queueOf ys p.2.key :=
    queueOf_append xs ys p.2.key
  have hne : ∀ x∈queueOf (xs++ys) p.2.key, x≠p.1 := by
    intro x hx
    obtain ⟨o,ho,_⟩ := (mem_queueOf _ _).mp hx
    exact hr.ne_of_split ho
  have hat (x : SlotIndex) (hx : x∈queueOf (xs++ys) p.2.key) :=
    h.slotAt_unlink hr hmem lv (hr.queue_lt (queueOf_split_subset _ hx))
  rw [queueOf_append,queueOf_cons,if_pos rfl] at hdl hnd
  rw [Slots.unlink_level,hjoin]
  refine hdl.unlink hnd ?_ ?_
  · intro x hx
    rw [← hjoin] at hx
    rw [Slots.nexts,hat x hx]
    simp [hne x hx]
  · intro x hx
    rw [← hjoin] at hx
    rw [Slots.prevs,hat x hx]
    simp [hne x hx]

theorem PriceLevel.kept_ends {queue : List SlotIndex} {lv : PriceLevel}
    (hd : DList kInvalidSlot slots.nexts slots.prevs queue lv.head lv.tail)
    (hinv : ∀ s∈queue, s≠kInvalidSlot) :
    (lv.kept.getD {}).head=lv.head ∧ (lv.kept.getD {}).tail=lv.tail := by
  unfold PriceLevel.kept
  cases queue with
  | nil =>
    have h1 : lv.head=kInvalidSlot := hd.head_eq
    have h2 : lv.tail=kInvalidSlot := hd.tail_eq
    simp [h1,h2]
  | cons x rest =>
    have h1 : lv.head=x := hd.head_eq
    have hx := hinv x (by simp)
    rw [if_neg (by rw [h1]; exact hx)]
    exact ⟨rfl,rfl⟩

/-- Unlinking a live order from its level. -/
theorem LinksRep.detach (h : LinksRep slots level? (xs++p::ys)) (hr : Resident slots (xs++p::ys))
    (hlevel : level? p.2.key=some level) (lv : PriceLevel) (hhead : lv.head=level.head)
    (htail : lv.tail=level.tail) (total : Quantity)
    (htotal : total.toNat=sumQuantity (atKey (xs++ys) p.2.key)) :
    LinksRep (slots.unlink lv p.1).1
      (Function.update level? p.2.key
        (PriceLevel.kept { (slots.unlink lv p.1).2 with totalQuantity := total }))
      (xs++ys) := by
  have hmem : p∈xs++p::ys := by simp
  have hpq : p.1∈queueOf (xs++p::ys) p.2.key := (mem_queueOf _ _).mpr ⟨p.2,hmem,rfl⟩
  obtain ⟨hprev,hnext⟩ := h.neighbours hmem
  have hat (j : SlotIndex) (hj : j.toNat<slots.length) := h.slotAt_unlink hr hmem lv hj
  have hdl := h.unlink_dlist hr hlevel hhead htail
  constructor
  · intro q hq
    rw [hat q.1 (hr.lt q (mem_split_of_mem hq))]
    exact h.order q (mem_split_of_mem hq)
  · intro k
    by_cases hk : k=p.2.key
    · subst hk
      rw [Function.update_self,PriceLevel.kept]
      have hhd := hdl.head_eq
      cases hq : atKey (xs++ys) p.2.key with
      | nil =>
        have hinv : (slots.unlink lv p.1).2.head=kInvalidSlot := by
          rw [hhd,queueOf,hq]
          rfl
        rw [if_pos hinv]
        exact hq
      | cons x rest =>
        have hxm : x.1∈queueOf (xs++ys) p.2.key := by
          rw [queueOf,hq]
          simp
        have hinv : (slots.unlink lv p.1).2.head≠kInvalidSlot := by
          have hx : (slots.unlink lv p.1).2.head=x.1 := by
            rw [hhd,queueOf,hq]
            rfl
          rw [hx]
          exact hr.ne_invalid (queueOf_split_subset _ hxm)
        rw [if_neg hinv]
        exact ⟨by simp [hq],hdl,htotal⟩
    · rw [Function.update_of_ne hk]
      have hkey : atKey (xs++ys) k=atKey (xs++p::ys) k := by
        simp [atKey_cons,Ne.symm hk]
      refine (h.level k).congr hkey ?_ ?_
      · intro x hx
        have hxs : x≠p.1 := fun he => hk (queueOf_disjoint hr.nodup hx (he ▸ hpq))
        have hxp : x≠slots.prevs p.1 := by
          rintro rfl
          exact hprev.elim (hr.ne_invalid hx) fun hm => hk (queueOf_disjoint hr.nodup hx hm)
        rw [Slots.nexts,hat x (hr.queue_lt hx)]
        simp [hxs,hxp]
      · intro x hx
        have hxs : x≠p.1 := fun he => hk (queueOf_disjoint hr.nodup hx (he ▸ hpq))
        have hxn : x≠slots.nexts p.1 := by
          rintro rfl
          exact hnext.elim (hr.ne_invalid hx) fun hm => hk (queueOf_disjoint hr.nodup hx hm)
        rw [Slots.prevs,hat x (hr.queue_lt hx)]
        simp [hxs,hxn]

end Split

/-- Changing the quantity of a live order in place. -/
theorem LinksRep.setQuantity {xs ys : List Placed} {p : Placed} {level : PriceLevel}
    (h : LinksRep slots level? (xs++p::ys)) (hr : Resident slots (xs++p::ys))
    (hlevel : level? p.2.key=some level) (quantity total : Quantity)
    (htotal : total.toNat=
      sumQuantity (atKey (xs++(p.1,p.2.withQuantity quantity)::ys) p.2.key)) :
    LinksRep (slots.updateOrder p.1 (Order.withQuantity quantity))
      (Function.update level? p.2.key (some { level with totalQuantity := total }))
      (xs++(p.1,p.2.withQuantity quantity)::ys) := by
  have hmem : p∈xs++p::ys := by simp
  have hlt := hr.lt p hmem
  have hqueue (k : LevelKey) :
      queueOf (xs++(p.1,p.2.withQuantity quantity)::ys) k=queueOf (xs++p::ys) k := by
    rw [queueOf_append,queueOf_append,queueOf_cons,queueOf_cons]
    rfl
  constructor
  · intro q hq
    rw [Slots.slotAt_updateOrder hlt]
    cases List.mem_append.mp hq with
    | inl hq =>
      simpa [hr.ne_of_split (List.mem_append_left ys hq)] using
        h.order q (List.mem_append_left _ hq)
    | inr hq =>
      rcases List.mem_cons.mp hq with rfl | hq
      · simp [h.order p hmem]
      · simpa [hr.ne_of_split (List.mem_append_right xs hq)] using
          h.order q (List.mem_append_right xs (List.mem_cons_of_mem p hq))
  · intro k
    by_cases hk : k=p.2.key
    · subst hk
      rw [Function.update_self]
      have hrep := h.level p.2.key
      rw [hlevel] at hrep
      refine ⟨by simp [atKey_cons],?_,htotal⟩
      rw [hqueue,Slots.nexts_updateOrder hlt,Slots.prevs_updateOrder hlt]
      exact hrep.2.1
    · rw [Function.update_of_ne hk]
      refine (h.level k).congr (by simp [atKey_cons,Ne.symm hk]) ?_ ?_
      · simp [Slots.nexts_updateOrder hlt]
      · simp [Slots.prevs_updateOrder hlt]

end MarketWire
