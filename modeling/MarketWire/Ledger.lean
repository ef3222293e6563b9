import MarketWire.OrderBook
import Mathlib.Algebra.Order.BigOperators.Group.List
import Mathlib.Algebra.Order.Ring.Nat

/-! The abstract book: live orders in arrival order, each with its arena slot, and the
stack of free slots. Levels, totals and FIFO positions are read off the one list. -/
namespace MarketWire

abbrev Placed := SlotIndex×Order

/-- The orders of a list that rest at one level, oldest first. -/
def atKey (l : List Placed) (k : LevelKey) : List Placed := l.filter fun p => p.2.key=k

/-- The slots of one level in FIFO order. -/
def queueOf (l : List Placed) (k : LevelKey) : List SlotIndex := (atKey l k).map Prod.fst

def sumQuantity (l : List Placed) : Nat := (l.map fun p => p.2.quantity.toNat).sum

/-- The orders of a list other than `id`. -/
def withoutId (l : List Placed) (id : OrderId) : List Placed := l.filter fun p => p.2.id≠id

structure Ledger where
  live : List Placed
  free : List SlotIndex
  deriving DecidableEq

namespace Ledger

def lookup (L : Ledger) (id : OrderId) : Option Placed := L.live.find? fun p => p.2.id=id

def total (L : Ledger) (k : LevelKey) : Nat := sumQuantity (atKey L.live k)

def slots (L : Ledger) : List SlotIndex := L.live.map Prod.fst++L.free

def setQuantity (L : Ledger) (id : OrderId) (quantity : Quantity) : Ledger :=
  { L with live := L.live.map fun p =>
      if p.2.id=id then (p.1,p.2.withQuantity quantity) else p }

def add (L : Ledger) (order : Order) : Ledger×Bool :=
  if order.id=0 ∨ order.quantity=0 ∨ (L.lookup order.id).isSome then (L,false)
  else
    match L.free with
    | [] => (L,false)
    | slot::free =>
      if L.total order.key+order.quantity.toNat>quantityMax.toNat then (L,false)
      else ({ live := L.live++[(slot,order)], free },true)

def remove (L : Ledger) (id : OrderId) : Ledger×Bool :=
  match L.lookup id with
  | none => (L,false)
  | some p => ({ live := withoutId L.live id, free := p.1::L.free },true)

def reduce (L : Ledger) (id : OrderId) (shares : Quantity) : Ledger×Bool :=
  match L.lookup id with
  | none => (L,false)
  | some p =>
    if shares=0 ∨ shares>p.2.quantity then (L,false)
    else if shares=p.2.quantity then L.remove id
    else (L.setQuantity id (p.2.quantity-shares),true)

def replaced (order : Order) (e : ReplaceEvent) : Order :=
  { order with id := e.newOrderId, quantity := e.newQuantity, price := e.newPrice }

def replace (L : Ledger) (e : ReplaceEvent) : Ledger×Bool :=
  match L.lookup e.oldOrderId with
  | none => (L,false)
  | some p =>
    if e.newOrderId=0 ∨ e.newQuantity=0 ∨ (L.lookup e.newOrderId).isSome then (L,false)
    else if sumQuantity (atKey (withoutId L.live e.oldOrderId) (replaced p.2 e).key)
        +e.newQuantity.toNat>quantityMax.toNat then (L,false)
    else
      ({ L with live := withoutId L.live e.oldOrderId++[(p.1,replaced p.2 e)] },true)

def apply (L : Ledger) : MarketEvent → Ledger×Bool
  | .add e => L.add e.order
  | .execute e => L.reduce e.orderId e.executedShares
  | .cancel e => L.reduce e.orderId e.canceledShares
  | .delete e => L.remove e.orderId
  | .replace e => L.replace e

def run (L : Ledger) (events : List MarketEvent) : Ledger :=
  events.foldl (fun L e => (L.apply e).1) L

/-- The ledger of a fresh book. -/
def fresh (n : Nat) : Ledger := ⟨[],(List.range n).map UInt32.ofNat⟩

/-- Live and free slots partition an `n`-slot arena, and no id is live twice. -/
structure Placement (L : Ledger) (n : Nat) : Prop where
  nodup : L.slots.Nodup
  cover : ∀ s, s∈L.slots ↔ s.toNat<n
  ids : (L.live.map fun p => p.2.id).Nodup

/-- Invariant of the ledger of an `n`-slot arena. -/
structure WF (L : Ledger) (n : Nat) : Prop extends Placement L n where
  id_ne_zero : ∀ p∈L.live, p.2.id≠0
  quantity_ne_zero : ∀ p∈L.live, p.2.quantity≠0
  total_le : ∀ k, L.total k≤quantityMax.toNat

end Ledger

@[simp] theorem Order.key_withQuantity (order : Order) (quantity : Quantity) :
    (order.withQuantity quantity).key=order.key := rfl

@[simp] theorem Order.id_withQuantity (order : Order) (quantity : Quantity) :
    (order.withQuantity quantity).id=order.id := rfl

section Lists
variable (xs ys : List Placed) (k : LevelKey) (id : OrderId) (p : Placed)

@[simp] theorem atKey_append : atKey (xs++ys) k=atKey xs k++atKey ys k := by simp [atKey]

@[simp] theorem atKey_nil : atKey [] k=[] := rfl

theorem atKey_cons : atKey (p::xs) k=if p.2.key=k then p::atKey xs k else atKey xs k := by
  simp [atKey,List.filter_cons]

@[simp] theorem sumQuantity_append : sumQuantity (xs++ys)=sumQuantity xs+sumQuantity ys := by
  simp [sumQuantity]

@[simp] theorem sumQuantity_nil : sumQuantity []=0 := rfl

@[simp] theorem sumQuantity_cons : sumQuantity (p::xs)=p.2.quantity.toNat+sumQuantity xs := by
  simp [sumQuantity]

theorem mem_atKey : p∈atKey xs k ↔ p∈xs ∧ p.2.key=k := by simp [atKey]

theorem mem_queueOf {s : SlotIndex} : s∈queueOf xs k ↔ ∃ o, (s,o)∈xs ∧ o.key=k := by
  simp [queueOf,mem_atKey]

theorem queueOf_append : queueOf (xs++ys) k=queueOf xs k++queueOf ys k := by simp [queueOf]

theorem queueOf_cons : queueOf (p::xs) k=if p.2.key=k then p.1::queueOf xs k else queueOf xs k := by
  rw [queueOf,atKey_cons]
  split_ifs <;> rfl

end Lists

theorem le_sumQuantity {l : List Placed} {p : Placed} (h : p∈l) :
    p.2.quantity.toNat ≤ sumQuantity l := by
  induction l with
  | nil => simp at h
  | cons x xs ih =>
    rcases List.mem_cons.mp h with rfl | h
    · simp
    · have := ih h
      simp only [sumQuantity_cons]
      omega

section Queues
variable {live : List Placed}

theorem slot_inj (hn : (live.map Prod.fst).Nodup) {p q : Placed} (hp : p∈live) (hq : q∈live)
    (h : p.1=q.1) : p=q :=
  List.inj_on_of_nodup_map hn hp hq h

theorem queueOf_nodup (hn : (live.map Prod.fst).Nodup) (k : LevelKey) : (queueOf live k).Nodup :=
  hn.sublist (List.filter_sublist.map Prod.fst)

/-- A slot waits at one level only. -/
theorem queueOf_disjoint (hn : (live.map Prod.fst).Nodup) {k k' : LevelKey} {s : SlotIndex}
    (h : s∈queueOf live k) (h' : s∈queueOf live k') : k=k' := by
  obtain ⟨o,ho,rfl⟩ := (mem_queueOf live k).mp h
  obtain ⟨o',ho',rfl⟩ := (mem_queueOf live k').mp h'
  have he : o=o' := (Prod.ext_iff.mp (slot_inj hn ho ho' rfl)).2
  rw [he]

end Queues

namespace Ledger
variable {L : Ledger} {n : Nat}

theorem Placement.lookup_eq_some (hw : L.Placement n) {id : OrderId} {p : Placed} :
    L.lookup id=some p ↔ p∈L.live ∧ p.2.id=id := by
  unfold lookup
  constructor
  · intro h
    exact ⟨List.mem_of_find?_eq_some h,by simpa using List.find?_some h⟩
  · rintro ⟨hp,rfl⟩
    cases hf : L.live.find? fun q => decide (q.2.id=p.2.id) with
    | none => exact absurd (List.find?_eq_none.mp hf p hp) (by simp)
    | some q =>
      have hq := List.mem_of_find?_eq_some hf
      have hid : q.2.id=p.2.id := by simpa using List.find?_some hf
      rw [List.inj_on_of_nodup_map hw.ids hq hp hid]

theorem lookup_eq_none {id : OrderId} : L.lookup id=none ↔ ∀ p∈L.live, p.2.id≠id := by
  simp [lookup]

/-- A live order splits the list at its position. -/
theorem Placement.split (hw : L.Placement n) {p : Placed} (hp : p∈L.live) :
    ∃ xs ys, L.live=xs++p::ys ∧ (∀ q∈xs++ys, q.2.id≠p.2.id) ∧
      withoutId L.live p.2.id=xs++ys := by
  obtain ⟨xs,ys,hl⟩ := List.append_of_mem hp
  have hids := hw.ids
  rw [hl,List.map_append,List.map_cons] at hids
  obtain ⟨_,h2,h3⟩ := List.nodup_append.mp hids
  have hne : ∀ q∈xs++ys, q.2.id≠p.2.id := by
    intro q hq
    cases List.mem_append.mp hq with
    | inl hq => exact h3 _ (List.mem_map_of_mem hq) _ List.mem_cons_self
    | inr hq =>
      intro he
      exact (List.nodup_cons.mp h2).1 (he ▸ List.mem_map_of_mem hq)
  refine ⟨xs,ys,hl,hne,?_⟩
  rw [hl,withoutId,List.filter_append,List.filter_cons]
  simp only [ne_eq,not_true_eq_false,decide_false,Bool.false_eq_true,if_false]
  rw [List.filter_eq_self.mpr,List.filter_eq_self.mpr]
  · exact fun q hq => by simpa using hne q (List.mem_append_right xs hq)
  · exact fun q hq => by simpa using hne q (List.mem_append_left ys hq)

theorem Placement.live_nodup (hw : L.Placement n) : (L.live.map Prod.fst).Nodup :=
  (List.nodup_append.mp hw.nodup).1

theorem Placement.live_not_free (hw : L.Placement n) {p : Placed} (hp : p∈L.live) : p.1∉L.free := by
  intro hf
  exact (List.nodup_append.mp hw.nodup).2.2 _ (List.mem_map_of_mem hp) _ hf rfl

theorem Placement.live_lt (hw : L.Placement n) {p : Placed} (hp : p∈L.live) : p.1.toNat<n :=
  (hw.cover p.1).mp (List.mem_append_left _ (List.mem_map_of_mem hp))

theorem Placement.free_lt (hw : L.Placement n) {s : SlotIndex} (hs : s∈L.free) : s.toNat<n :=
  (hw.cover s).mp (List.mem_append_right _ hs)

theorem setQuantity_split {p : Placed} {xs ys : List Placed} (hl : L.live=xs++p::ys)
    (hne : ∀ q∈xs++ys, q.2.id≠p.2.id) (quantity : Quantity) :
    (L.setQuantity p.2.id quantity).live=xs++(p.1,p.2.withQuantity quantity)::ys := by
  have hid (l : List Placed) (h : ∀ q∈l, q.2.id≠p.2.id) :
      l.map (fun q => if q.2.id=p.2.id then (q.1,q.2.withQuantity quantity) else q)=l := by
    induction l with
    | nil => rfl
    | cons x rest ih =>
      rw [List.map_cons,if_neg (h x (by simp)),ih (fun q hq => h q (List.mem_cons_of_mem x hq))]
  simp only [setQuantity,hl,List.map_append,List.map_cons,if_true]
  rw [hid xs fun q hq => hne q (List.mem_append_left ys hq),
    hid ys fun q hq => hne q (List.mem_append_right xs hq)]

theorem lookup_withoutId (L : Ledger) (id id' : OrderId) (free : List SlotIndex) :
    lookup ⟨withoutId L.live id,free⟩ id'=if id'=id then none else L.lookup id' := by
  simp only [lookup,withoutId,List.find?_filter]
  split_ifs with he
  · subst he
    exact List.find?_eq_none.mpr fun p _ => by simp
  · refine congrArg (fun f => L.live.find? f) (funext fun p => ?_)
    by_cases hp : p.2.id=id'
    · simp [hp,he]
    · simp [hp]

theorem lookup_snoc (live : List Placed) (p : Placed) (free free' : List SlotIndex)
    {id : OrderId} (h : lookup ⟨live,free'⟩ p.2.id=none) :
    lookup ⟨live++[p],free⟩ id=if id=p.2.id then some p else lookup ⟨live,free'⟩ id := by
  simp only [lookup] at h ⊢
  rw [List.find?_append]
  split_ifs with he
  · rw [he,h]
    simp
  · cases live.find? fun q => decide (q.2.id=id) <;> simp [Ne.symm he]

theorem lookup_setQuantity_ne (L : Ledger) {id id' : OrderId} (hne : id'≠id)
    (quantity : Quantity) : (L.setQuantity id quantity).lookup id'=L.lookup id' := by
  obtain ⟨live,free⟩ := L
  simp only [lookup,setQuantity]
  induction live with
  | nil => rfl
  | cons p rest ih =>
    by_cases hid : p.2.id=id
    · have hp : ¬p.2.id=id' := fun he => hne (he.symm.trans hid)
      simpa [hid,hp,Ne.symm hne] using ih
    · by_cases hp : p.2.id=id'
      · simp [hp,hne]
      · simpa [hid,hp] using ih

theorem lookup_setQuantity (L : Ledger) (id : OrderId) (quantity : Quantity) :
    (L.setQuantity id quantity).lookup id=
      (L.lookup id).map fun p => (p.1,p.2.withQuantity quantity) := by
  obtain ⟨live,free⟩ := L
  simp only [lookup,setQuantity]
  induction live with
  | nil => rfl
  | cons p rest ih =>
    by_cases hid : p.2.id=id
    · simp [hid]
    · simpa [hid] using ih

theorem withoutId_setQuantity (L : Ledger) (id : OrderId) (quantity : Quantity) :
    withoutId (L.setQuantity id quantity).live id=withoutId L.live id := by
  obtain ⟨live,free⟩ := L
  simp only [withoutId,setQuantity]
  induction live with
  | nil => rfl
  | cons p rest ih =>
    by_cases hid : p.2.id=id
    · simpa [hid] using ih
    · simpa [hid] using ih

/-- A removal forgets an earlier change of quantity. -/
theorem remove_setQuantity {id : OrderId} {p : Placed} (hp : L.lookup id=some p)
    (quantity : Quantity) : (L.setQuantity id quantity).remove id=L.remove id := by
  rw [remove,remove,lookup_setQuantity,hp,withoutId_setQuantity]
  rfl

/-- What an addition can do. -/
theorem add_cases (L : Ledger) (order : Order) :
    L.add order=(L,false) ∨ ∃ slot free, L.free=slot::free ∧ order.id≠0 ∧ order.quantity≠0 ∧
      L.lookup order.id=none ∧ L.total order.key+order.quantity.toNat≤quantityMax.toNat ∧
      L.add order=({ live := L.live++[(slot,order)], free },true) := by
  unfold Ledger.add
  by_cases hrej : order.id=0 ∨ order.quantity=0 ∨ (L.lookup order.id).isSome
  · exact Or.inl (if_pos hrej)
  · rw [if_neg hrej]
    simp only [not_or,Option.not_isSome_iff_eq_none] at hrej
    cases hfree : L.free with
    | nil => exact Or.inl rfl
    | cons slot free =>
      by_cases hover : L.total order.key+order.quantity.toNat>quantityMax.toNat
      · exact Or.inl (if_pos hover)
      · exact Or.inr ⟨slot,free,rfl,hrej.1,hrej.2.1,hrej.2.2,by omega,if_neg hover⟩

/-- What a removal can do. -/
theorem remove_cases (L : Ledger) (id : OrderId) :
    (L.lookup id=none ∧ L.remove id=(L,false)) ∨ ∃ p, L.lookup id=some p ∧
      L.remove id=({ live := withoutId L.live id, free := p.1::L.free },true) := by
  unfold Ledger.remove
  cases hp : L.lookup id with
  | none => exact Or.inl ⟨rfl,rfl⟩
  | some p => exact Or.inr ⟨p,rfl,rfl⟩

/-- What an execution or a cancel can do. -/
theorem reduce_cases (L : Ledger) (id : OrderId) (shares : Quantity) :
    L.reduce id shares=(L,false) ∨ ∃ p, L.lookup id=some p ∧ shares≠0 ∧ shares≤p.2.quantity ∧
      ((shares=p.2.quantity ∧ L.reduce id shares=L.remove id) ∨
        (shares≠p.2.quantity ∧
          L.reduce id shares=(L.setQuantity id (p.2.quantity-shares),true))) := by
  unfold Ledger.reduce
  cases hp : L.lookup id with
  | none => exact Or.inl rfl
  | some p =>
    by_cases hrej : shares=0 ∨ shares>p.2.quantity
    · exact Or.inl (if_pos hrej)
    · have hne := not_or.mp hrej
      refine Or.inr ⟨p,rfl,hne.1,UInt32.not_lt.mp hne.2,?_⟩
      simp only [if_neg hrej]
      by_cases heq : shares=p.2.quantity
      · exact Or.inl ⟨heq,if_pos heq⟩
      · exact Or.inr ⟨heq,if_neg heq⟩

/-- What a replacement can do. -/
theorem replace_cases (L : Ledger) (e : ReplaceEvent) :
    L.replace e=(L,false) ∨ ∃ p, L.lookup e.oldOrderId=some p ∧ e.newOrderId≠0 ∧
      e.newQuantity≠0 ∧ L.lookup e.newOrderId=none ∧
      sumQuantity (atKey (withoutId L.live e.oldOrderId) (replaced p.2 e).key)
        +e.newQuantity.toNat≤quantityMax.toNat ∧
      L.replace e=
        ({ L with live := withoutId L.live e.oldOrderId++[(p.1,replaced p.2 e)] },true) := by
  unfold Ledger.replace
  cases hp : L.lookup e.oldOrderId with
  | none => exact Or.inl rfl
  | some p =>
    by_cases hrej : e.newOrderId=0 ∨ e.newQuantity=0 ∨ (L.lookup e.newOrderId).isSome
    · exact Or.inl (if_pos hrej)
    · simp only [if_neg hrej]
      simp only [not_or,Option.not_isSome_iff_eq_none] at hrej
      by_cases hover : sumQuantity (atKey (withoutId L.live e.oldOrderId) (replaced p.2 e).key)
          +e.newQuantity.toNat>quantityMax.toNat
      · exact Or.inl (if_pos hover)
      · exact Or.inr ⟨p,rfl,hrej.1,hrej.2.1,hrej.2.2,by omega,if_neg hover⟩

/-- An event that is not accepted does nothing. -/
theorem apply_rejected {e : MarketEvent} (h : (L.apply e).2=false) : (L.apply e).1=L := by
  have hremove (id : OrderId) (h : (L.remove id).2=false) : (L.remove id).1=L := by
    rcases L.remove_cases id with ⟨_,he⟩ | ⟨p,_,he⟩ <;> simp_all
  have hreduce (id : OrderId) (shares : Quantity) (h : (L.reduce id shares).2=false) :
      (L.reduce id shares).1=L := by
    rcases L.reduce_cases id shares with he | ⟨p,_,_,_,⟨_,he⟩ | ⟨_,he⟩⟩
    · rw [he]
    · rw [he] at h ⊢
      exact hremove id h
    · simp [he] at h
  cases e with
  | add e => rcases L.add_cases e.order with he | ⟨_,_,_,_,_,_,_,he⟩ <;> simp_all [apply]
  | execute e => exact hreduce _ _ h
  | cancel e => exact hreduce _ _ h
  | delete e => exact hremove _ h
  | replace e => rcases L.replace_cases e with he | ⟨_,_,_,_,_,_,he⟩ <;> simp_all [apply]

theorem Placement.of_sublist (hw : L.Placement n) {live : List Placed} {free : List SlotIndex}
    (hsub : live.Sublist L.live) (hslots : (live.map Prod.fst++free).Perm L.slots) :
    Ledger.Placement ⟨live,free⟩ n :=
  ⟨hslots.nodup_iff.mpr hw.nodup,fun s => hslots.mem_iff.trans (hw.cover s),
    hw.ids.sublist (hsub.map _)⟩

/-- Appending an order with a fresh id to part of a ledger. -/
theorem Placement.snoc (hw : L.Placement n) {live : List Placed} {free : List SlotIndex}
    {p : Placed} (hsub : live.Sublist L.live)
    (hslots : ((live++[p]).map Prod.fst++free).Perm L.slots) (habs : L.lookup p.2.id=none) :
    Ledger.Placement ⟨live++[p],free⟩ n := by
  refine ⟨hslots.nodup_iff.mpr hw.nodup,fun s => hslots.mem_iff.trans (hw.cover s),?_⟩
  rw [List.map_append]
  refine List.nodup_append.mpr ⟨hw.ids.sublist (hsub.map _),by simp,?_⟩
  intro a ha b hb
  obtain ⟨q,hqm,rfl⟩ := List.mem_map.mp ha
  simp only [List.map_cons,List.map_nil,List.mem_singleton] at hb
  rw [hb]
  exact lookup_eq_none.mp habs q (hsub.subset hqm)

theorem Placement.add (hw : L.Placement n) {slot : SlotIndex} {free : List SlotIndex}
    {order : Order} (hfree : L.free=slot::free) (habs : L.lookup order.id=none) :
    Ledger.Placement ⟨L.live++[(slot,order)],free⟩ n :=
  hw.snoc (List.Sublist.refl _) (by simp [slots,hfree]) habs

theorem Placement.remove_perm (hw : L.Placement n) {p : Placed} (hp : p∈L.live) :
    ((withoutId L.live p.2.id).map Prod.fst++p.1::L.free).Perm L.slots := by
  obtain ⟨xs,ys,hl,_,hwo⟩ := hw.split hp
  rw [hwo,slots,hl]
  simp only [List.map_append,List.map_cons,List.append_assoc]
  exact List.Perm.append_left _ (List.perm_middle.trans (by simp))

theorem Placement.remove (hw : L.Placement n) {p : Placed} (hp : p∈L.live) :
    Ledger.Placement ⟨withoutId L.live p.2.id,p.1::L.free⟩ n :=
  hw.of_sublist List.filter_sublist (hw.remove_perm hp)

theorem Placement.replace (hw : L.Placement n) {p : Placed} (hp : p∈L.live) {order : Order}
    (habs : L.lookup order.id=none) :
    Ledger.Placement ⟨withoutId L.live p.2.id++[(p.1,order)],L.free⟩ n := by
  refine hw.snoc List.filter_sublist ?_ habs
  refine List.Perm.trans ?_ (hw.remove_perm hp)
  simp

/-- The value part of the invariant after dropping some orders and appending one. -/
theorem WF.of_placement (hw : L.WF n) {live : List Placed} {free : List SlotIndex}
    {tail : List Placed} (hpl : Ledger.Placement ⟨live++tail,free⟩ n)
    (hsub : live.Sublist L.live) (htail : tail.length≤1)
    (hid : ∀ p∈tail, p.2.id≠0) (hq : ∀ p∈tail, p.2.quantity≠0)
    (htotal : ∀ p∈tail,
      sumQuantity (atKey live p.2.key)+p.2.quantity.toNat≤quantityMax.toNat) :
    Ledger.WF ⟨live++tail,free⟩ n := by
  refine ⟨hpl,?_,?_,?_⟩
  · intro q hqm
    cases List.mem_append.mp hqm with
    | inl hqm => exact hw.id_ne_zero q (hsub.subset hqm)
    | inr hqm => exact hid q hqm
  · intro q hqm
    cases List.mem_append.mp hqm with
    | inl hqm => exact hw.quantity_ne_zero q (hsub.subset hqm)
    | inr hqm => exact hq q hqm
  · intro k
    have ht : sumQuantity (atKey live k)≤quantityMax.toNat :=
      (List.Sublist.sum_le_sum ((hsub.filter _).map _) (by simp)).trans (hw.total_le k)
    simp only [total,atKey_append,sumQuantity_append]
    match tail,htail with
    | [],_ => simpa using ht
    | [p],_ =>
      by_cases hk : p.2.key=k
      · subst hk
        simpa [atKey_cons] using htotal p (by simp)
      · simpa [atKey_cons,hk] using ht

theorem WF.add (hw : L.WF n) (order : Order) : (L.add order).1.WF n := by
  rcases L.add_cases order with h | ⟨slot,free,hfree,hid,hq,habs,htotal,h⟩
  · rw [h]
    exact hw
  · rw [h]
    exact hw.of_placement (hw.toPlacement.add hfree habs) (List.Sublist.refl _) (by simp)
      (List.forall_mem_singleton.mpr hid) (List.forall_mem_singleton.mpr hq)
      (List.forall_mem_singleton.mpr htotal)

theorem WF.remove (hw : L.WF n) (id : OrderId) : (L.remove id).1.WF n := by
  rcases L.remove_cases id with ⟨_,h⟩ | ⟨p,hp,h⟩
  · rw [h]
    exact hw
  · rw [h]
    obtain ⟨hmem,rfl⟩ := hw.lookup_eq_some.mp hp
    have hpl := hw.toPlacement.remove hmem
    rw [← List.append_nil (withoutId L.live p.2.id)] at hpl ⊢
    exact hw.of_placement hpl List.filter_sublist (by simp) (by simp) (by simp) (by simp)

theorem Placement.setQuantity (hw : L.Placement n) {p : Placed} (hp : p∈L.live)
    (quantity : Quantity) : (L.setQuantity p.2.id quantity).Placement n := by
  obtain ⟨xs,ys,hl,hne,_⟩ := hw.split hp
  have hlive := setQuantity_split hl hne quantity
  have hslots : (L.setQuantity p.2.id quantity).slots=L.slots := by
    rw [slots,slots,hlive,hl]
    simp [Ledger.setQuantity]
  refine ⟨by rw [hslots]; exact hw.nodup,fun s => by rw [hslots]; exact hw.cover s,?_⟩
  have hids := hw.ids
  rw [hl] at hids
  rw [hlive]
  simpa using hids

theorem WF.setQuantity (hw : L.WF n) {p : Placed} (hp : p∈L.live) {quantity : Quantity}
    (hpos : quantity≠0) (hle : quantity≤p.2.quantity) : (L.setQuantity p.2.id quantity).WF n := by
  obtain ⟨xs,ys,hl,hne,_⟩ := hw.split hp
  have hlive := setQuantity_split hl hne quantity
  have hmem : ∀ q∈(L.setQuantity p.2.id quantity).live,
      q=(p.1,p.2.withQuantity quantity) ∨ q∈L.live := by
    intro q hq
    rw [hlive] at hq
    rw [hl]
    simp only [List.mem_append,List.mem_cons] at hq ⊢
    tauto
  refine ⟨hw.toPlacement.setQuantity hp quantity,?_,?_,?_⟩
  · intro q hq
    rcases hmem q hq with rfl | hq
    · exact hw.id_ne_zero p hp
    · exact hw.id_ne_zero q hq
  · intro q hq
    rcases hmem q hq with rfl | hq
    · exact hpos
    · exact hw.quantity_ne_zero q hq
  · intro k
    have ht := hw.total_le k
    have hq := UInt32.le_iff_toNat_le.mp hle
    simp only [total,hlive,hl,atKey_append,sumQuantity_append,atKey_cons,Order.key_withQuantity] at ht ⊢
    by_cases hk : p.2.key=k
    · simp only [hk,if_true,sumQuantity_cons,Order.withQuantity] at ht ⊢
      omega
    · simpa only [hk,if_false] using ht

theorem toNat_sub_pos {a b : Quantity} (hle : b≤a) (hne : b≠a) : a-b≠0 := by
  intro h0
  have hsub := UInt32.toNat_sub_of_le _ _ hle
  have hb := UInt32.le_iff_toNat_le.mp hle
  have hn : b.toNat≠a.toNat := fun h => hne (UInt32.toNat_inj.mp h)
  rw [h0] at hsub
  simp at hsub
  omega

theorem WF.reduce (hw : L.WF n) (id : OrderId) (shares : Quantity) :
    (L.reduce id shares).1.WF n := by
  rcases L.reduce_cases id shares with h | ⟨p,hp,_,hle,⟨_,h⟩ | ⟨hne,h⟩⟩
  · rw [h]
    exact hw
  · rw [h]
    exact hw.remove id
  · rw [h]
    obtain ⟨hmem,rfl⟩ := hw.lookup_eq_some.mp hp
    have hsub := UInt32.toNat_sub_of_le _ _ hle
    exact hw.setQuantity hmem (toNat_sub_pos hle hne) (UInt32.le_iff_toNat_le.mpr (by omega))

theorem WF.replace (hw : L.WF n) (e : ReplaceEvent) : (L.replace e).1.WF n := by
  rcases L.replace_cases e with h | ⟨p,hp,hid,hq,habs,htotal,h⟩
  · rw [h]
    exact hw
  · rw [h]
    obtain ⟨hmem,hold⟩ := hw.lookup_eq_some.mp hp
    rw [← hold] at htotal ⊢
    exact hw.of_placement (hw.toPlacement.replace hmem habs) List.filter_sublist (by simp)
      (List.forall_mem_singleton.mpr hid) (List.forall_mem_singleton.mpr hq)
      (List.forall_mem_singleton.mpr htotal)

theorem WF.apply (hw : L.WF n) (e : MarketEvent) : (L.apply e).1.WF n := by
  cases e with
  | add e => exact hw.add e.order
  | execute e => exact hw.reduce e.orderId e.executedShares
  | cancel e => exact hw.reduce e.orderId e.canceledShares
  | delete e => exact hw.remove e.orderId
  | replace e => exact hw.replace e

/-- Every ledger reached by a run is well formed. -/
theorem WF.run (hw : L.WF n) (events : List MarketEvent) : (L.run events).WF n := by
  induction events generalizing L with
  | nil => exact hw
  | cons e rest ih => exact ih (hw.apply e)

theorem fresh_wf (hn : n≤2^32) : (fresh n).WF n := by
  have hmod (i : Nat) (hi : i<n) : (UInt32.ofNat i).toNat=i := UInt32.toNat_ofNat_of_lt' (by
    simp only [UInt32.size]
    omega)
  refine ⟨⟨?_,?_,by simp [fresh]⟩,by simp [fresh],by simp [fresh],by simp [fresh,total]⟩
  · simp only [slots,fresh,List.map_nil,List.nil_append]
    refine List.Nodup.map_on ?_ List.nodup_range
    intro a ha b hb hab
    rw [← hmod a (List.mem_range.mp ha),← hmod b (List.mem_range.mp hb),hab]
  · intro s
    simp only [slots,fresh,List.map_nil,List.nil_append,List.mem_map,List.mem_range]
    constructor
    · rintro ⟨i,hi,rfl⟩
      rwa [hmod i hi]
    · intro hs
      exact ⟨s.toNat,hs,by simp⟩

theorem Placement.length (hw : L.Placement n) (hn : n≤2^32) : L.live.length+L.free.length=n := by
  have hf := fresh_wf hn
  have hp : L.slots.Perm (fresh n).slots := (List.perm_ext_iff_of_nodup hw.nodup hf.nodup).mpr
    fun s => (hw.cover s).trans (hf.cover s).symm
  simpa [slots,fresh] using hp.length_eq

end Ledger
end MarketWire
