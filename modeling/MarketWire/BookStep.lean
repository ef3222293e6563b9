import MarketWire.BookRep

/-! Every book operation simulates the ledger: accepted events move both states alike,
rejected and failing ones leave the represented ledger as it was. -/
namespace MarketWire
open Library

namespace Rep
variable {b : OrderBook} {L : Ledger}

theorem sum_split {live xs ys : List Placed} {p : Placed} (hsplit : live=xs++p::ys) :
    sumQuantity (atKey live p.2.key)=
      p.2.quantity.toNat+sumQuantity (atKey (xs++ys) p.2.key) := by
  rw [hsplit]
  simp only [atKey_append,atKey_cons,if_true,sumQuantity_append,sumQuantity_cons]
  omega

/-- The level of a live order loses exactly the order's quantity. -/
theorem toNat_total_sub {level : PriceLevel} {live xs ys : List Placed} {p : Placed}
    (hsplit : live=xs++p::ys) (hsum : level.totalQuantity.toNat=sumQuantity (atKey live p.2.key)) :
    (level.totalQuantity-p.2.quantity).toNat=sumQuantity (atKey (xs++ys) p.2.key) := by
  have hs := hsum.trans (sum_split hsplit)
  have hle : p.2.quantity≤level.totalQuantity := UInt32.le_iff_toNat_le.mpr (by omega)
  rw [UInt32.toNat_sub_of_le _ _ hle]
  omega

/-- Unlinking a live order keeps the flags of the others and the free list. -/
theorem arena_unlink (h : Rep b L) {p : Placed} {xs ys : List Placed} (hsplit : L.live=xs++p::ys)
    (lv : PriceLevel) : ArenaRep (b.slots.unlink lv p.1).1 b.freeHead ⟨xs++ys,L.free⟩ := by
  have hm : p∈L.live := by simp [hsplit]
  refine h.arena.congr (fun q hq => ?_) (fun s hs => ?_)
  · have hqm : q∈L.live := by
      rw [hsplit]
      simp only [List.mem_append,List.mem_cons] at hq ⊢
      tauto
    rw [h.links.slotAt_unlink h.resident hm lv (h.placement.live_lt hqm)]
    exact h.arena.flags q hqm
  · exact h.links.unlink_frame h.resident hm lv (h.placement.free_lt hs) (h.free_not_live hs)

/-- Dropping a live order: unlink, erase the id, release the slot, prune the maps. -/
theorem removeOrder (h : Rep b L) (id : OrderId) :
    (b.removeOrder id).2=.returned (L.remove id).2 ∧
      Rep (b.removeOrder id).1 (L.remove id).1 := by
  rcases L.remove_cases id with ⟨hp,hL⟩ | ⟨p,hp,hL⟩
  · have hf : b.index.find id=none := by rw [h.find_eq,hp]; rfl
    rw [hL,OrderBook.removeOrder,OrderBook.removeOrderChecked,hf]
    exact ⟨rfl,h⟩
  obtain ⟨hf,ho,hm,rfl⟩ := h.find_of_lookup hp
  obtain ⟨level,hl,hsum⟩ := h.level_of_live hm
  obtain ⟨xs,ys,hsplit,_,hwo⟩ := h.placement.split hm
  rw [hL]
  simp only [OrderBook.removeOrder,OrderBook.removeOrderChecked,Checked.after,hf,ho,hl,hwo]
  refine ⟨trivial,?_⟩
  set lv : PriceLevel := { level with totalQuantity := level.totalQuantity-p.2.quantity } with hlv
  have hr := h.resident
  have hlen : (b.slots.unlink lv p.1).1.length=b.slots.length := Slots.length_unlink lv p.1
  have hlt : p.1.toNat<(b.slots.unlink lv p.1).1.length := by rw [hlen]; exact hr.lt p hm
  have hne : ∀ q∈xs++ys, q.1≠p.1 := by
    rw [hsplit] at hr
    exact fun q hq => hr.ne_of_split hq
  have hlevel : Books.level? ((b.books.setLevel p.2.key (b.slots.unlink lv p.1).2).eraseEmptyLevel
      p.2.key)=Function.update b.books.level? p.2.key (b.slots.unlink lv p.1).2.kept := by
    have hset := Books.level?_setLevel (by rw [hl]; simp : b.books.level? p.2.key≠none)
      (b.slots.unlink lv p.1).2
    have hnew : (b.books.setLevel p.2.key (b.slots.unlink lv p.1).2).level? p.2.key=
        some (b.slots.unlink lv p.1).2 := by rw [hset,Function.update_self]
    rw [Books.level?_eraseEmptyLevel hnew,hset,Function.update_idem]
  refine ⟨?_,?_,?_,?_,?_,?_⟩
  · simpa [OrderBook.releaseSlot,OrderBook.eraseIndex,hlen,hwo] using h.placement.remove hm
  · simpa [OrderBook.releaseSlot,OrderBook.eraseIndex,hlen] using h.bound
  · simpa [OrderBook.releaseSlot,OrderBook.eraseIndex,hlen,hwo] using h.index.erase p.2.id
  · refine (h.arena_unlink hsplit lv).release hlt (h.live_ne_invalid hm) ?_
      (h.placement.live_not_free hm)
    intro hmem
    obtain ⟨q,hq,he⟩ := List.mem_map.mp hmem
    exact hne q hq he
  · simp only [OrderBook.releaseSlot,OrderBook.eraseIndex,hlevel]
    have hlinks := h.links
    rw [hsplit] at hlinks hr
    have hd := hlinks.detach hr hl lv rfl rfl lv.totalQuantity (toNat_total_sub hsplit hsum)
    rw [Slots.unlink_level] at hd ⊢
    refine hd.frame fun q hq => ?_
    rw [Slots.slotAt_update hlt,if_neg (hne q hq)]
  · exact Books.tight_eraseEmptyLevel (Books.tight_setLevel h.tight _)

/-- An in-place quantity change of a live order and of its level. -/
theorem setQuantity (h : Rep b L) {p : Placed} (hm : p∈L.live) {level : PriceLevel}
    (hl : b.books.level? p.2.key=some level) (quantity total : Quantity)
    (htotal : total.toNat+p.2.quantity.toNat=
      sumQuantity (atKey L.live p.2.key)+quantity.toNat) :
    Rep { b with
        slots := b.slots.updateOrder p.1 (Order.withQuantity quantity)
        books := b.books.setLevel p.2.key { level with totalQuantity := total } }
      (L.setQuantity p.2.id quantity) := by
  obtain ⟨xs,ys,hsplit,hids,_⟩ := h.placement.split hm
  have hlive := Ledger.setQuantity_split hsplit hids quantity
  have hlt := h.placement.live_lt hm
  have hsum : total.toNat=
      sumQuantity (atKey (xs++(p.1,p.2.withQuantity quantity)::ys) p.2.key) := by
    rw [hsplit] at htotal
    simp only [atKey_append,atKey_cons,Order.key_withQuantity,if_true,sumQuantity_append,
      sumQuantity_cons] at htotal ⊢
    simp only [Order.withQuantity]
    omega
  refine ⟨?_,?_,⟨h.index.wf,?_,?_⟩,?_,?_,Books.tight_setLevel h.tight _⟩
  · simpa using h.placement.setQuantity hm quantity
  · simpa using h.bound
  · simpa using h.index.cap
  · intro id s
    rw [h.index.find,hlive,hsplit]
    constructor
    · rintro ⟨o,ho,rfl⟩
      cases List.mem_append.mp ho with
      | inl ho => exact ⟨o,List.mem_append_left _ ho,rfl⟩
      | inr ho =>
        rcases List.mem_cons.mp ho with rfl | ho
        · exact ⟨o.withQuantity quantity,by simp,rfl⟩
        · exact ⟨o,List.mem_append_right _ (List.mem_cons_of_mem _ ho),rfl⟩
    · rintro ⟨o,ho,rfl⟩
      cases List.mem_append.mp ho with
      | inl ho => exact ⟨o,List.mem_append_left _ ho,rfl⟩
      | inr ho =>
        rcases List.mem_cons.mp ho with he | ho
        · obtain ⟨rfl,rfl⟩ := Prod.ext_iff.mp he
          exact ⟨p.2,by simp,rfl⟩
        · exact ⟨o,List.mem_append_right _ (List.mem_cons_of_mem _ ho),rfl⟩
  · refine h.arena.congr (fun q hq => ?_) (fun s hs => ?_)
    · rw [Slots.slotAt_updateOrder hlt]
      have hq' : q∈(L.setQuantity p.2.id quantity).live := hq
      rw [hlive] at hq'
      cases List.mem_append.mp hq' with
      | inl hq => exact h.arena.flags q (by rw [hsplit]; exact List.mem_append_left _ hq)
      | inr hq =>
        rcases List.mem_cons.mp hq with rfl | hq
        · exact h.arena.flags p hm
        · exact h.arena.flags q (by simp [hsplit,hq])
    · have hne : s≠p.1 := fun he => h.placement.live_not_free hm (he ▸ hs)
      rw [Slots.slotAt_updateOrder hlt,if_neg hne]
  · have hlinks := h.links
    have hr := h.resident
    rw [hsplit] at hlinks hr
    simp only [hlive]
    rw [Books.level?_setLevel (by rw [hl]; simp)]
    exact hlinks.setQuantity hr hl quantity total hsum

/-- Shares taken from a live order and from its level. -/
theorem taken (h : Rep b L) {p : Placed} (hm : p∈L.live) {level : PriceLevel}
    (hl : b.books.level? p.2.key=some level)
    (hsum : level.totalQuantity.toNat=sumQuantity (atKey L.live p.2.key)) {shares : Quantity}
    (hle : shares≤p.2.quantity) :
    shares≤level.totalQuantity ∧
      Rep { b with
          slots := b.slots.updateOrder p.1 (Order.withQuantity (p.2.quantity-shares))
          books := b.books.setLevel p.2.key
            { level with totalQuantity := level.totalQuantity-shares } }
        (L.setQuantity p.2.id (p.2.quantity-shares)) := by
  have hsub := UInt32.toNat_sub_of_le _ _ hle
  have hqle := le_sumQuantity ((mem_atKey L.live p.2.key p).mpr ⟨hm,rfl⟩)
  rw [UInt32.le_iff_toNat_le] at hle
  have hle' : shares≤level.totalQuantity := UInt32.le_iff_toNat_le.mpr (by omega)
  have hsub' := UInt32.toNat_sub_of_le _ _ hle'
  exact ⟨hle',h.setQuantity hm hl (p.2.quantity-shares) (level.totalQuantity-shares) (by omega)⟩

/-- Executions and cancels. -/
theorem reduce (h : Rep b L) (id : OrderId) (shares : Quantity) :
    (b.reduce id shares).2=.returned (L.reduce id shares).2 ∧
      Rep (b.reduce id shares).1 (L.reduce id shares).1 := by
  cases hp : L.lookup id with
  | none =>
    have hf : b.index.find id=none := by rw [h.find_eq,hp]; rfl
    simp only [OrderBook.reduce,OrderBook.reduceChecked,hf,Ledger.reduce,hp]
    exact ⟨trivial,h⟩
  | some p =>
    obtain ⟨hf,ho,hm,rfl⟩ := h.find_of_lookup hp
    obtain ⟨level,hl,hsum⟩ := h.level_of_live hm
    simp only [OrderBook.reduce,OrderBook.reduceChecked,hf,ho,hl,Ledger.reduce,hp]
    by_cases hrej : shares=0 ∨ shares>p.2.quantity
    · rw [if_pos hrej,if_pos hrej]
      exact ⟨rfl,h⟩
    rw [if_neg hrej,if_neg hrej]
    have hle : shares≤p.2.quantity := UInt32.not_lt.mp (not_or.mp hrej).2
    obtain ⟨-,hstep⟩ := h.taken hm hl hsum hle
    by_cases heq : shares=p.2.quantity
    · subst heq
      rw [if_pos (by simp),if_pos rfl]
      have hrem := hstep.removeOrder p.2.id
      rw [Ledger.remove_setQuantity hp] at hrem
      exact hrem
    · rw [if_neg (Ledger.toNat_sub_pos hle heq),if_neg heq]
      exact ⟨rfl,hstep⟩

end Rep
end MarketWire
