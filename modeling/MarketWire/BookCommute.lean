import MarketWire.StateHash
import MarketWire.BookAtomicity

/-! Events on different sides of the market commute. Their order shows in slot numbers and
in the index, so two books are compared through the orders of each symbol and side. -/
namespace MarketWire
open Library

/-- Where an order rests, but for its price. -/
def Order.pair (order : Order) : Symbol×Side := (order.symbol,order.side)

namespace MarketEvent

def names : MarketEvent → List OrderId
  | .add e => [e.order.id]
  | .execute e => [e.orderId]
  | .cancel e => [e.orderId]
  | .delete e => [e.orderId]
  | .replace e => [e.oldOrderId,e.newOrderId]

/-- The symbol and side an event concerns: those of the order it adds, or of the live order
it names. -/
def pair (find : OrderId → Option Order) : MarketEvent → Option (Symbol×Side)
  | .add e => some e.order.pair
  | .execute e => (find e.orderId).map Order.pair
  | .cancel e => (find e.orderId).map Order.pair
  | .delete e => (find e.orderId).map Order.pair
  | .replace e => (find e.oldOrderId).map Order.pair

theorem pair_congr {find find' : OrderId → Option Order} {e : MarketEvent}
    (h : ∀ id∈e.names, find id=find' id) : e.pair find=e.pair find' := by
  cases e with
  | add e => rfl
  | execute e => rw [pair,pair,h e.orderId List.mem_cons_self]
  | cancel e => rw [pair,pair,h e.orderId List.mem_cons_self]
  | delete e => rw [pair,pair,h e.orderId List.mem_cons_self]
  | replace e => rw [pair,pair,h e.oldOrderId List.mem_cons_self]

end MarketEvent

namespace Ledger
variable {L L' : Ledger} {n : Nat}

def order (L : Ledger) (id : OrderId) : Option Order := (L.lookup id).map Prod.snd

/-- The orders of one symbol and side, oldest first. -/
def sideOrders (L : Ledger) (side : Symbol×Side) : List Order :=
  (L.live.filter fun p => p.2.pair=side).map Prod.snd

/-- The same orders in the same places, whatever their slots. -/
def SameOrders (L L' : Ledger) : Prop := ∀ side, L.sideOrders side=L'.sideOrders side

theorem order_isSome (L : Ledger) (id : OrderId) : (L.lookup id).isSome=(L.order id).isSome := by
  rw [order,Option.isSome_map]

theorem atKey_sideOrders (live : List Placed) (k : LevelKey) :
    (atKey live k).map Prod.snd=
      (((live.filter fun p => p.2.pair=(k.symbol,k.side)).map Prod.snd).filter
        fun o => o.price=k.price) := by
  rw [atKey,List.filter_map,List.filter_filter]
  refine congrArg _ (List.filter_congr fun p _ => ?_)
  obtain ⟨symbol,side,price⟩ := k
  simp only [Order.key,Order.pair,LevelKey.mk.injEq,Prod.mk.injEq,Function.comp_apply]
  rw [← Bool.decide_and,decide_eq_decide]
  tauto

theorem sumQuantity_eq_map (l : List Placed) :
    sumQuantity l=((l.map Prod.snd).map fun o => o.quantity.toNat).sum := by
  rw [sumQuantity,List.map_map]
  rfl

/-- A level total is read off the orders of its side. -/
theorem total_local {k : LevelKey}
    (hs : L.sideOrders (k.symbol,k.side)=L'.sideOrders (k.symbol,k.side)) :
    L.total k=L'.total k := by
  rw [total,total,sumQuantity_eq_map,sumQuantity_eq_map,atKey_sideOrders,atKey_sideOrders]
  exact congrArg (fun l => ((l.filter fun o : Order => o.price=k.price).map
    fun o => o.quantity.toNat).sum) hs

section Sides
variable (L : Ledger) (side : Symbol×Side) (id : OrderId) (free : List SlotIndex)

theorem sideOrders_withoutId :
    sideOrders ⟨withoutId L.live id,free⟩ side=(L.sideOrders side).filter fun o => o.id≠id := by
  rw [sideOrders,sideOrders,withoutId,List.filter_map,List.filter_filter,List.filter_filter]
  refine congrArg _ (List.filter_congr fun p _ => ?_)
  exact Bool.and_comm _ _

theorem sideOrders_setQuantity (quantity : Quantity) :
    (L.setQuantity id quantity).sideOrders side=
      (L.sideOrders side).map fun o => if o.id=id then o.withQuantity quantity else o := by
  obtain ⟨live,free⟩ := L
  simp only [sideOrders,setQuantity]
  induction live with
  | nil => rfl
  | cons p rest ih =>
    have hpair : (if p.2.id=id then (p.1,p.2.withQuantity quantity) else p).2.pair=p.2.pair := by
      split_ifs <;> rfl
    rw [List.map_cons,List.filter_cons,List.filter_cons,hpair]
    by_cases hp : p.2.pair=side
    · simp only [hp,decide_true,if_true,List.map_cons,ih]
      congr 1
      split_ifs <;> rfl
    · simp only [hp,decide_false,Bool.false_eq_true,if_false,ih]

theorem sideOrders_snoc (live : List Placed) (p : Placed) :
    sideOrders ⟨live++[p],free⟩ side=
      sideOrders ⟨live,free⟩ side++if p.2.pair=side then [p.2] else [] := by
  by_cases hp : p.2.pair=side
  · simp [sideOrders,hp]
  · simp [sideOrders,hp]

end Sides

/-- An id that is live elsewhere does not occur on a side. -/
theorem Placement.not_on_side (hw : L.Placement n) {id : OrderId} {side : Symbol×Side}
    (h : ∀ o, L.order id=some o → o.pair≠side) : ∀ o∈L.sideOrders side, o.id≠id := by
  intro o ho hid
  obtain ⟨p,hp,rfl⟩ := List.mem_map.mp ho
  obtain ⟨hm,hside⟩ := List.mem_filter.mp hp
  refine h p.2 ?_ (by simpa using hside)
  rw [order,hw.lookup_eq_some.mpr ⟨hm,hid⟩]
  rfl

section Frame
variable {side : Symbol×Side}

theorem frame_withoutId {id : OrderId} (h : ∀ o∈L.sideOrders side, o.id≠id)
    (free : List SlotIndex) : sideOrders ⟨withoutId L.live id,free⟩ side=L.sideOrders side := by
  rw [sideOrders_withoutId]
  exact List.filter_eq_self.mpr fun o ho => by simpa using h o ho

theorem frame_add {o : Order} (h : o.pair≠side) :
    (L.add o).1.sideOrders side=L.sideOrders side := by
  rcases L.add_cases o with he | ⟨slot,free,-,-,-,-,-,he⟩
  · rw [he]
  · rw [he,sideOrders_snoc,if_neg h,List.append_nil]
    rfl

theorem frame_remove {id : OrderId} (h : ∀ o∈L.sideOrders side, o.id≠id) :
    (L.remove id).1.sideOrders side=L.sideOrders side := by
  rcases L.remove_cases id with ⟨-,he⟩ | ⟨p,-,he⟩
  · rw [he]
  · rw [he]
    exact frame_withoutId h _

theorem frame_reduce {id : OrderId} (h : ∀ o∈L.sideOrders side, o.id≠id) (shares : Quantity) :
    (L.reduce id shares).1.sideOrders side=L.sideOrders side := by
  rcases L.reduce_cases id shares with he | ⟨p,-,-,-,⟨-,he⟩ | ⟨-,he⟩⟩
  · rw [he]
  · rw [he]
    exact frame_remove h
  · rw [he,sideOrders_setQuantity]
    refine (List.map_congr_left fun o ho => if_neg (h o ho)).trans (List.map_id _)

theorem frame_replace {e : ReplaceEvent} (h : ∀ o∈L.sideOrders side, o.id≠e.oldOrderId)
    (hpair : ∀ o, L.order e.oldOrderId=some o → o.pair≠side) :
    (L.replace e).1.sideOrders side=L.sideOrders side := by
  rcases L.replace_cases e with he | ⟨p,hp,-,-,-,-,he⟩
  · rw [he]
  · have hne : (replaced p.2 e).pair≠side := hpair p.2 (by rw [order,hp]; rfl)
    rw [he,sideOrders_snoc,if_neg hne,List.append_nil]
    exact frame_withoutId h _

/-- An event leaves every other side as it was. -/
theorem Placement.frame (hw : L.Placement n) {e : MarketEvent} (h : e.pair L.order≠some side) :
    (L.apply e).1.sideOrders side=L.sideOrders side := by
  have hother {id : OrderId} (h : (L.order id).map Order.pair≠some side) :
      ∀ o, L.order id=some o → o.pair≠side := by
    intro o ho hside
    rw [ho] at h
    exact h (congrArg some hside)
  cases e with
  | add e => exact frame_add fun he => h (congrArg some he)
  | execute e => exact frame_reduce (hw.not_on_side (hother h)) _
  | cancel e => exact frame_reduce (hw.not_on_side (hother h)) _
  | delete e => exact frame_remove (hw.not_on_side (hother h))
  | replace e => exact frame_replace (hw.not_on_side (hother h)) (hother h)

end Frame

/-- An event leaves every order it does not name as it was. -/
theorem order_apply (L : Ledger) {e : MarketEvent} {id : OrderId} (h : id∉e.names) :
    (L.apply e).1.order id=L.order id := by
  have hremove {id' : OrderId} (hne : id≠id') : (L.remove id').1.order id=L.order id := by
    rcases L.remove_cases id' with ⟨-,he⟩ | ⟨p,-,he⟩
    · rw [he]
    · rw [he,order,lookup_withoutId,if_neg hne]
      rfl
  have hreduce {id' : OrderId} (hne : id≠id') (shares : Quantity) :
      (L.reduce id' shares).1.order id=L.order id := by
    rcases L.reduce_cases id' shares with he | ⟨p,-,-,-,⟨-,he⟩ | ⟨-,he⟩⟩
    · rw [he]
    · rw [he]
      exact hremove hne
    · rw [he,order,lookup_setQuantity_ne L hne]
      rfl
  cases e with
  | add e =>
    have hne : id≠e.order.id := by simpa [MarketEvent.names] using h
    rcases L.add_cases e.order with he | ⟨slot,free,-,-,-,habs,-,he⟩
    · rw [apply,he]
    · rw [apply,he,order,lookup_snoc L.live (slot,e.order) free L.free habs,if_neg hne]
      rfl
  | execute e => exact hreduce (by simpa [MarketEvent.names] using h) _
  | cancel e => exact hreduce (by simpa [MarketEvent.names] using h) _
  | delete e => exact hremove (by simpa [MarketEvent.names] using h)
  | replace e =>
    have hne : id≠e.oldOrderId ∧ id≠e.newOrderId := by simpa [MarketEvent.names] using h
    rcases L.replace_cases e with he | ⟨p,-,-,-,habs,-,he⟩
    · rw [apply,he]
    · have hnew : lookup ⟨withoutId L.live e.oldOrderId,L.free⟩ e.newOrderId=none := by
        rw [lookup_withoutId,habs,ite_self]
      have hid : id≠(p.1,replaced p.2 e).2.id := hne.2
      rw [apply,he,order,lookup_snoc _ (p.1,replaced p.2 e) L.free L.free hnew,if_neg hid,
        lookup_withoutId,if_neg hne.1]
      rfl

/-- An event takes at most one free slot. -/
theorem free_apply (L : Ledger) (e : MarketEvent) :
    L.free.length≤(L.apply e).1.free.length+1 := by
  have hremove (id : OrderId) : L.free.length≤(L.remove id).1.free.length+1 := by
    rcases L.remove_cases id with ⟨-,he⟩ | ⟨p,-,he⟩
    · rw [he]
      exact Nat.le_succ _
    · rw [he,List.length_cons]
      omega
  have hreduce (id : OrderId) (shares : Quantity) :
      L.free.length≤(L.reduce id shares).1.free.length+1 := by
    rcases L.reduce_cases id shares with he | ⟨p,-,-,-,⟨-,he⟩ | ⟨-,he⟩⟩
    · rw [he]
      exact Nat.le_succ _
    · rw [he]
      exact hremove id
    · rw [he]
      exact Nat.le_succ _
  cases e with
  | add e =>
    rcases L.add_cases e.order with he | ⟨slot,free,hfree,-,-,-,-,he⟩
    · rw [apply,he]
      exact Nat.le_succ _
    · rw [apply,he,hfree]
      exact le_rfl
  | execute e => exact hreduce _ _
  | cancel e => exact hreduce _ _
  | delete e => exact hremove _
  | replace e =>
    rcases L.replace_cases e with he | ⟨p,-,-,-,-,-,he⟩
    · rw [apply,he]
      exact Nat.le_succ _
    · rw [apply,he]
      exact Nat.le_succ _

/-- Two ledgers give an event the same answer and leave the same orders on its side. -/
def Alike (r r' : Ledger×Bool) (side : Symbol×Side) : Prop :=
  r.2=r'.2 ∧ r.1.sideOrders side=r'.1.sideOrders side

section Local
variable {side : Symbol×Side}

theorem order_eq_cases {id : OrderId} (h : L.order id=L'.order id) :
    (L.lookup id=none ∧ L'.lookup id=none) ∨
      ∃ s s' o, L.lookup id=some (s,o) ∧ L'.lookup id=some (s',o) := by
  rw [order,order] at h
  cases hp : L.lookup id with
  | none =>
    rw [hp,Option.map_none,eq_comm,Option.map_eq_none_iff] at h
    exact .inl ⟨rfl,h⟩
  | some p =>
    rw [hp,Option.map_some,eq_comm,Option.map_eq_some_iff] at h
    obtain ⟨p',hp',ho⟩ := h
    exact .inr ⟨p.1,p'.1,p.2,rfl,by rw [hp',← ho]⟩

theorem local_add {o : Order} (hf : L.free≠[]) (hf' : L'.free≠[])
    (hid : L.order o.id=L'.order o.id) (hs : L.sideOrders o.pair=L'.sideOrders o.pair) :
    Alike (L.add o) (L'.add o) o.pair := by
  obtain ⟨slot,free,hfree⟩ := List.exists_cons_of_ne_nil hf
  obtain ⟨slot',free',hfree'⟩ := List.exists_cons_of_ne_nil hf'
  have htotal : L.total o.key=L'.total o.key := total_local hs
  rw [add,add,hfree,hfree',order_isSome,order_isSome,hid,htotal]
  dsimp only
  split_ifs
  · exact ⟨rfl,hs⟩
  · exact ⟨rfl,hs⟩
  · refine ⟨rfl,?_⟩
    rw [sideOrders_snoc,sideOrders_snoc]
    exact congrArg (·++_) hs

theorem local_remove {id : OrderId} (hid : L.order id=L'.order id)
    (hs : L.sideOrders side=L'.sideOrders side) : Alike (L.remove id) (L'.remove id) side := by
  rw [remove,remove]
  rcases order_eq_cases hid with ⟨hp,hp'⟩ | ⟨s,s',o,hp,hp'⟩
  · rw [hp,hp']
    exact ⟨rfl,hs⟩
  · rw [hp,hp']
    refine ⟨rfl,?_⟩
    dsimp only
    rw [sideOrders_withoutId,sideOrders_withoutId,hs]

theorem local_reduce {id : OrderId} (hid : L.order id=L'.order id)
    (hs : L.sideOrders side=L'.sideOrders side) (shares : Quantity) :
    Alike (L.reduce id shares) (L'.reduce id shares) side := by
  rw [reduce,reduce]
  rcases order_eq_cases hid with ⟨hp,hp'⟩ | ⟨s,s',o,hp,hp'⟩
  · rw [hp,hp']
    exact ⟨rfl,hs⟩
  · rw [hp,hp']
    dsimp only
    split_ifs
    · exact ⟨rfl,hs⟩
    · exact local_remove hid hs
    · refine ⟨rfl,?_⟩
      rw [sideOrders_setQuantity,sideOrders_setQuantity,hs]

theorem local_replace {e : ReplaceEvent} {o : Order} (hold : L.order e.oldOrderId=some o)
    (hid : L.order e.oldOrderId=L'.order e.oldOrderId)
    (hnew : L.order e.newOrderId=L'.order e.newOrderId)
    (hs : L.sideOrders o.pair=L'.sideOrders o.pair) :
    Alike (L.replace e) (L'.replace e) o.pair := by
  rw [replace,replace]
  rcases order_eq_cases hid with ⟨hp,hp'⟩ | ⟨s,s',o',hp,hp'⟩
  · rw [hp,hp']
    exact ⟨rfl,hs⟩
  obtain rfl : o'=o := by
    rw [order,hp] at hold
    exact Option.some.inj hold
  have hwithout (s s' : List SlotIndex) :
      sideOrders ⟨withoutId L.live e.oldOrderId,s⟩ o'.pair=
        sideOrders ⟨withoutId L'.live e.oldOrderId,s'⟩ o'.pair := by
    rw [sideOrders_withoutId,sideOrders_withoutId,hs]
  have htotal : sumQuantity (atKey (withoutId L.live e.oldOrderId) (replaced o' e).key)=
      sumQuantity (atKey (withoutId L'.live e.oldOrderId) (replaced o' e).key) :=
    total_local (k := (replaced o' e).key) (hwithout [] [])
  rw [hp,hp']
  dsimp only
  rw [order_isSome,order_isSome,hnew,htotal]
  split_ifs
  · exact ⟨rfl,hs⟩
  · exact ⟨rfl,hs⟩
  · refine ⟨rfl,?_⟩
    rw [sideOrders_snoc,sideOrders_snoc]
    exact congrArg (·++_) (hwithout _ _)

/-- An event sees the ledger through the ids it names, its own side and whether a slot is
free. -/
theorem local_apply {e : MarketEvent} (hf : L.free≠[]) (hf' : L'.free≠[])
    (hid : ∀ id∈e.names, L.order id=L'.order id) (hside : e.pair L.order=some side)
    (hs : L.sideOrders side=L'.sideOrders side) : Alike (L.apply e) (L'.apply e) side := by
  cases e with
  | add e =>
    cases hside
    exact local_add hf hf' (hid _ List.mem_cons_self) hs
  | execute e => exact local_reduce (hid _ List.mem_cons_self) hs _
  | cancel e => exact local_reduce (hid _ List.mem_cons_self) hs _
  | delete e => exact local_remove (hid _ List.mem_cons_self) hs
  | replace e =>
    obtain ⟨o,ho,rfl⟩ := Option.map_eq_some_iff.mp hside
    exact local_replace ho (hid _ List.mem_cons_self)
      (hid _ (List.mem_cons_of_mem _ List.mem_cons_self)) hs

/-- An event that names no live order is refused. -/
theorem apply_absent {e : MarketEvent} (h : e.pair L.order=none) : L.apply e=(L,false) := by
  have habs {id : OrderId} (h : (L.order id).map Order.pair=none) : L.lookup id=none := by
    rw [Option.map_eq_none_iff,order,Option.map_eq_none_iff] at h
    exact h
  cases e with
  | add e => cases h
  | execute e => rw [apply,reduce,habs h]
  | cancel e => rw [apply,reduce,habs h]
  | delete e => rw [apply,remove,habs h]
  | replace e => rw [apply,replace,habs h]

end Local

/-- Two events that share no id and no side. -/
structure Independent (find : OrderId → Option Order) (e e' : MarketEvent) : Prop where
  names : ∀ id∈e.names, id∉e'.names
  pairs : ∀ side, e.pair find=some side → e'.pair find≠some side

theorem Independent.symm {find : OrderId → Option Order} {e e' : MarketEvent}
    (h : Independent find e e') : Independent find e' e :=
  ⟨fun id hid hid' => h.names id hid' hid,fun side hs hs' => h.pairs side hs' hs⟩

/-- An independent event before it changes nothing for an event. -/
theorem Placement.after (hw : L.Placement n) (hroom : 2≤L.free.length) {e e' : MarketEvent}
    (h : Independent L.order e e') (side : Symbol×Side) (hside : e.pair L.order=some side) :
    Alike (L.apply e) ((L.apply e').1.apply e) side := by
  have hfree := L.free_apply e'
  refine local_apply (List.ne_nil_of_length_pos (by omega)) (List.ne_nil_of_length_pos (by omega))
    (fun id hid => (L.order_apply (h.names id hid)).symm) hside ?_
  exact (hw.frame (h.pairs side hside)).symm

theorem Placement.answer_after (hw : L.Placement n) (hroom : 2≤L.free.length) {e e' : MarketEvent}
    (h : Independent L.order e e') : (L.apply e).2=((L.apply e').1.apply e).2 := by
  cases hside : e.pair L.order with
  | none =>
    have hside' : e.pair (L.apply e').1.order=none := 
      (MarketEvent.pair_congr fun id hid => L.order_apply (h.names id hid)).trans hside
    rw [apply_absent hside,apply_absent hside']
  | some side => exact (hw.after hroom h side hside).1

/-- In either order two independent events leave the same orders. -/
theorem WF.sameOrders (hw : L.WF n) (hroom : 2≤L.free.length) {e e' : MarketEvent}
    (h : Independent L.order e e') :
    SameOrders ((L.apply e).1.apply e').1 ((L.apply e').1.apply e).1 := by
  have hpair : e.pair (L.apply e').1.order=e.pair L.order :=
    MarketEvent.pair_congr fun id hid => L.order_apply (h.names id hid)
  have hpair' : e'.pair (L.apply e).1.order=e'.pair L.order :=
    MarketEvent.pair_congr fun id hid => L.order_apply (h.symm.names id hid)
  intro side
  by_cases hside : e.pair L.order=some side
  · have hother := h.pairs side hside
    rw [(hw.apply e).frame (hpair' ▸ hother)]
    exact (hw.after hroom h side hside).2
  · rw [(hw.apply e').frame (hpair ▸ hside)]
    by_cases hside' : e'.pair L.order=some side
    · exact (hw.after hroom h.symm side hside').2.symm
    · rw [(hw.apply e).frame (hpair' ▸ hside'),hw.frame hside,hw.frame hside']

section Views
variable {n' : Nat}

theorem Placement.order_eq_some (hw : L.Placement n) {id : OrderId} {o : Order} :
    L.order id=some o ↔ o∈L.sideOrders o.pair ∧ o.id=id := by
  rw [order,Option.map_eq_some_iff]
  constructor
  · rintro ⟨p,hp,rfl⟩
    obtain ⟨hm,hid⟩ := hw.lookup_eq_some.mp hp
    exact ⟨List.mem_map.mpr ⟨p,List.mem_filter.mpr ⟨hm,by simp⟩,rfl⟩,hid⟩
  · rintro ⟨hm,hid⟩
    obtain ⟨p,hp,rfl⟩ := List.mem_map.mp hm
    exact ⟨p,hw.lookup_eq_some.mpr ⟨(List.mem_filter.mp hp).1,hid⟩,rfl⟩

theorem SameOrders.order_eq (h : SameOrders L L') (hw : L.Placement n) (hw' : L'.Placement n')
    (id : OrderId) : L.order id=L'.order id := by
  refine Option.ext fun o => ?_
  rw [hw.order_eq_some,hw'.order_eq_some,h o.pair]

theorem SameOrders.length_eq (h : SameOrders L L') (hw : L.Placement n) (hw' : L'.Placement n') :
    L.live.length=L'.live.length := by
  have hmem {L : Ledger} {m : Nat} (hw : L.Placement m) (id : OrderId) :
      id∈L.live.map (fun p => p.2.id) ↔ (L.order id).isSome := by
    rw [← order_isSome,Option.isSome_iff_exists,List.mem_map]
    exact exists_congr fun p => hw.lookup_eq_some.symm
  have hperm : (L.live.map fun p => p.2.id).Perm (L'.live.map fun p => p.2.id) := by
    refine (List.perm_ext_iff_of_nodup hw.ids hw'.ids).mpr fun id => ?_
    rw [hmem hw,hmem hw',h.order_eq hw hw']
  simpa using hperm.length_eq

theorem SameOrders.atKey_eq (h : SameOrders L L') (k : LevelKey) :
    (atKey L.live k).map Prod.snd=(atKey L'.live k).map Prod.snd := by
  rw [atKey_sideOrders,atKey_sideOrders]
  exact congrArg _ (h (k.symbol,k.side))

theorem SameOrders.map_atKey {α : Type} (h : SameOrders L L') (k : LevelKey) (f : Order → α) :
    ((atKey L.live k).map fun p => f p.2)=(atKey L'.live k).map fun p => f p.2 := by
  have hmap := congrArg (List.map f) (h.atKey_eq k)
  simpa [List.map_map,Function.comp_def] using hmap

end Views
end Ledger

namespace Rep
variable {b b' : OrderBook} {L L' : Ledger}

theorem prices_sameOrders (h : Rep b L) (h' : Rep b' L') (hs : L.SameOrders L') (side : Side)
    (symbol : Symbol) : b.prices side symbol=b'.prices side symbol := by
  refine SortedMap.keys_eq fun price => ?_
  have hk := hs.atKey_eq ⟨symbol,side,price⟩
  have hnil : atKey L.live ⟨symbol,side,price⟩=[] ↔ atKey L'.live ⟨symbol,side,price⟩=[] := by
    rw [← List.map_eq_nil_iff (f := Prod.snd),hk,List.map_eq_nil_iff]
  exact h.mem_prices.trans (hnil.not.trans h'.mem_prices.symm)

theorem symbols_sameOrders (h : Rep b L) (h' : Rep b' L') (hs : L.SameOrders L') :
    b.books.keys=b'.books.keys := by
  refine SortedMap.keys_eq fun symbol => ?_
  rw [h.mem_symbols,h'.mem_symbols]
  refine exists_congr fun side => exists_congr fun price => ?_
  rw [← h.mem_prices,← h'.mem_prices,h.prices_sameOrders h' hs]

theorem total_sameOrders (hs : L.SameOrders L') (k : LevelKey) : L.total k=L'.total k :=
  Ledger.total_local (hs (k.symbol,k.side))

/-- Books with the same orders read the same. -/
theorem sameView_of_sameOrders (h : Rep b L) (h' : Rep b' L') (hs : L.SameOrders L') :
    b.SameView b' := by
  have hprices := h.prices_sameOrders h' hs
  have hbest (side : Side) (symbol : Symbol) : b.bestPrice side symbol=b'.bestPrice side symbol := by
    rw [bestPrice_eq,bestPrice_eq,hprices]
  have hlevels (side : Side) (symbol : Symbol) :
      b.sideLevels side symbol=b'.sideLevels side symbol := by
    rw [h.sideLevels_eq,h'.sideLevels_eq,hprices]
    refine congrArg some (List.map_congr_left fun price _ => ?_)
    rw [Ledger.snapshotAt,Ledger.snapshotAt,total_sameOrders hs,hs.map_atKey _ Order.id]
  have hviews (side : Side) (symbol : Symbol) :
      sideView b L side symbol=sideView b' L' side symbol := by
    rw [sideView,sideView,hprices]
    refine List.map_congr_left fun price _ => ?_
    rw [Ledger.viewAt,Ledger.viewAt,total_sameOrders hs,
      hs.map_atKey _ fun o => (o.id,o.quantity)]
  have hhash : b.stateHash=b'.stateHash := by
    have hbooks : bookViews b L=bookViews b' L' := by
      rw [bookViews,bookViews,h.symbols_sameOrders h' hs]
      refine List.map_congr_left fun symbol _ => ?_
      rw [hviews .buy,hviews .sell]
    rw [OrderBook.stateHash,OrderBook.stateHash,h.feed_eq,h'.feed_eq,hbooks]
  refine ⟨fun id => ?_,?_,hbest .buy,hbest .sell,hlevels .buy,hlevels .sell,hhash⟩
  · rw [h.find_order,h'.find_order]
    exact hs.order_eq h.placement h'.placement id
  · rw [h.liveOrderCount_eq,h'.liveOrderCount_eq,hs.length_eq h.placement h'.placement]

end Rep

namespace OrderBook
variable {n : Nat} {b : OrderBook}

/-- Independent events commute: each gets the same answer, and the book reads the same. -/
theorem independent_commute (hb : Reachable n b) (hroom : b.liveOrderCount+2≤n)
    {e e' : MarketEvent} (hnames : ∀ id∈e.names, id∉e'.names)
    (hpairs : ∀ side, e.pair b.find=some side → e'.pair b.find≠some side) :
    (b.apply e).2=((b.apply e').1.apply e).2 ∧ (b.apply e').2=((b.apply e).1.apply e').2 ∧
      ((b.apply e).1.apply e').1.SameView ((b.apply e').1.apply e).1 := by
  obtain ⟨L,h,hw⟩ := hb.rep
  have hfind : b.find=L.order := funext h.find_order
  have hind : Ledger.Independent L.order e e' := ⟨hnames,hfind ▸ hpairs⟩
  have hfree : 2≤L.free.length := by
    have hlen := hw.length (hb.bounds.2.le.trans (by decide))
    rw [h.liveOrderCount_eq] at hroom
    omega
  obtain ⟨ho,hr⟩ := h.apply e
  obtain ⟨ho',hr'⟩ := h.apply e'
  obtain ⟨hoo,hrr⟩ := hr.apply e'
  obtain ⟨hoo',hrr'⟩ := hr'.apply e
  refine ⟨?_,?_,hrr.sameView_of_sameOrders hrr' (hw.sameOrders hfree hind)⟩
  · rw [ho,hoo',hw.answer_after hfree hind]
  · rw [ho',hoo,hw.answer_after hfree hind.symm]

/-- Orders of two sides of one symbol in a book of two slots: the slots they take depend on the
order of the events, the answers and the view do not. -/
theorem independent_commute_two : ∃ b, Reachable 2 b ∧
    ((b.apply (.add ⟨default,⟨7,default,.buy,5,100⟩⟩)).1.apply
      (.add ⟨default,⟨8,default,.sell,6,101⟩⟩)).1.SameView
    ((b.apply (.add ⟨default,⟨8,default,.sell,6,101⟩⟩)).1.apply
      (.add ⟨default,⟨7,default,.buy,5,100⟩⟩)).1 ∧
    ((b.apply (.add ⟨default,⟨7,default,.buy,5,100⟩⟩)).1.index.find 7=some 0 ∧
      ((b.apply (.add ⟨default,⟨8,default,.sell,6,101⟩⟩)).1.apply
        (.add ⟨default,⟨7,default,.buy,5,100⟩⟩)).1.index.find 7=some 1) ∧
    ((b.apply (.add ⟨default,⟨8,default,.sell,6,101⟩⟩)).1.apply
      (.add ⟨default,⟨7,default,.buy,5,100⟩⟩)).1.bestBid default=some 100 := by
  obtain ⟨b,hb⟩ := create_isOk (n := 2) (by decide) (by decide)
  have hempty : b.liveOrderCount=0 := by
    obtain ⟨-,-,rfl⟩ := create_ok hb
    rfl
  refine ⟨b,.create hb,(independent_commute (.create hb) (by rw [hempty]) ?_ ?_).2.2,?_⟩
  · simp [MarketEvent.names]
  · simp [MarketEvent.pair,Order.pair]
  · obtain ⟨-,-,rfl⟩ := create_ok hb
    decide +kernel

end OrderBook
end MarketWire
