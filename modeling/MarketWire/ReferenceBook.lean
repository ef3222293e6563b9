import MarketWire.BookView
import Mathlib.Data.List.Dedup

/-! The reference book: a finite map from order id to what the order is and when it
arrived. The arena book accepts what this map accepts and shows what this map shows. -/
namespace MarketWire
open Library

structure RefOrder where
  symbol : Symbol
  side : Side
  quantity : Quantity
  price : Price
  priority : Nat
  deriving DecidableEq

namespace RefOrder

def key (o : RefOrder) : LevelKey := ⟨o.symbol,o.side,o.price⟩

def order (id : OrderId) (o : RefOrder) : Order := ⟨id,o.symbol,o.side,o.quantity,o.price⟩

end RefOrder

abbrev RefBook := SortedMap OrderId RefOrder (fun a b => a<b)

namespace RefBook

def restingAt (m : RefBook) (k : LevelKey) : List (OrderId×RefOrder) :=
  m.entries.filter fun e => e.2.key=k

def totalAt (m : RefBook) (k : LevelKey) : Nat :=
  ((m.restingAt k).map fun e => e.2.quantity.toNat).sum

/-- A priority behind every live order. -/
def nextPriority (m : RefBook) : Nat := (m.entries.map fun e => e.2.priority+1).foldr max 0

def acceptsReduce (m : RefBook) (id : OrderId) (shares : Quantity) : Bool :=
  match m.find? id with
  | none => false
  | some o => 0<shares ∧ shares≤o.quantity

def accepts (maxOrders : Nat) (m : RefBook) : MarketEvent → Bool
  | .add e => e.order.id≠0 ∧ e.order.quantity≠0 ∧ m.find? e.order.id=none ∧ m.size < maxOrders ∧
      m.totalAt e.order.key+e.order.quantity.toNat≤2^32-1
  | .execute e => m.acceptsReduce e.orderId e.executedShares
  | .cancel e => m.acceptsReduce e.orderId e.canceledShares
  | .delete e => m.find? e.orderId≠none
  | .replace e =>
    match m.find? e.oldOrderId with
    | none => false
    | some o => e.newOrderId≠0 ∧ m.find? e.newOrderId=none ∧ e.newQuantity≠0 ∧
        totalAt (m.erase e.oldOrderId) ⟨o.symbol,o.side,e.newPrice⟩+e.newQuantity.toNat≤2^32-1

def reduce (m : RefBook) (id : OrderId) (shares : Quantity) : RefBook :=
  match m.find? id with
  | none => m
  | some o =>
    if shares=o.quantity then m.erase id
    else m.set id { o with quantity := o.quantity-shares }

/-- The effect of an accepted event. -/
def update (m : RefBook) : MarketEvent → RefBook
  | .add e => m.set e.order.id
      ⟨e.order.symbol,e.order.side,e.order.quantity,e.order.price,m.nextPriority⟩
  | .execute e => m.reduce e.orderId e.executedShares
  | .cancel e => m.reduce e.orderId e.canceledShares
  | .delete e => m.erase e.orderId
  | .replace e =>
    match m.find? e.oldOrderId with
    | none => m
    | some o => SortedMap.set (m.erase e.oldOrderId) e.newOrderId
        { o with
          quantity := e.newQuantity, price := e.newPrice, priority := m.nextPriority }

def step (maxOrders : Nat) (m : RefBook) (e : MarketEvent) : RefBook :=
  if m.accepts maxOrders e then m.update e else m

def run (maxOrders : Nat) (events : List MarketEvent) : RefBook :=
  events.foldl (step maxOrders) SortedMap.empty

def findOrder (m : RefBook) (id : OrderId) : Option Order := (m.find? id).map (RefOrder.order id)

def prices (m : RefBook) (side : Side) (symbol : Symbol) : List Price :=
  (m.entries.filter fun e => e.2.symbol=symbol ∧ e.2.side=side).map fun e => e.2.price

/-- The price that no other price of the side beats. -/
def bestPrice (m : RefBook) (side : Side) (symbol : Symbol) : Option Price :=
  (m.prices side symbol).find? fun p => (m.prices side symbol).all fun q => ¬side.lt q p

/-- The ids at a level in the order of their priorities. -/
def fifo (m : RefBook) (k : LevelKey) : List OrderId :=
  ((m.restingAt k).mergeSort fun a b => a.2.priority≤b.2.priority).map Prod.fst

/-- The levels of a side, best price first. -/
def levels (m : RefBook) (side : Side) (symbol : Symbol) : List LevelSnapshot :=
  ((m.prices side symbol).dedup.mergeSort fun a b => ¬side.lt b a).map fun price =>
    ⟨price,UInt32.ofNat (m.totalAt ⟨symbol,side,price⟩),m.fifo ⟨symbol,side,price⟩⟩

def priorityOf (m : RefBook) (id : OrderId) : Nat := ((m.find? id).map RefOrder.priority).getD 0

end RefBook

/-- The map and the ledger hold the same orders, and arrival order is priority order. -/
structure RefRep (L : Ledger) (m : RefBook) : Prop where
  find : ∀ id, m.findOrder id=(L.lookup id).map Prod.snd
  ordered : L.live.Pairwise fun p q => m.priorityOf p.2.id < m.priorityOf q.2.id

namespace RefRep
variable {L : Ledger} {m : RefBook} {n : Nat}

theorem empty (n : Nat) : RefRep (Ledger.fresh n) SortedMap.empty :=
  ⟨fun _ => rfl,List.Pairwise.nil⟩

theorem find_none_iff (h : RefRep L m) {id : OrderId} : m.find? id=none ↔ L.lookup id=none := by
  have hf := h.find id
  rw [RefBook.findOrder] at hf
  cases hm : m.find? id <;> cases hl : L.lookup id <;> simp_all

theorem find_some (h : RefRep L m) {id : OrderId} {p : Placed} (hp : L.lookup id=some p) :
    ∃ o, m.find? id=some o ∧ o.order id=p.2 := by
  have hf := h.find id
  rw [RefBook.findOrder,hp] at hf
  simpa using hf

/-- The entries of the map are the live orders, in another order. -/
theorem perm (h : RefRep L m) (hw : L.Placement n) :
    (m.entries.map fun e => e.2.order e.1).Perm (L.live.map Prod.snd) := by
  have hn : (m.entries.map fun e => e.2.order e.1).Nodup := by
    refine List.Nodup.of_map Order.id ?_
    rw [List.map_map]
    exact m.keys_nodup
  have hn' : (L.live.map Prod.snd).Nodup := by
    refine List.Nodup.of_map Order.id ?_
    rw [List.map_map]
    exact hw.ids
  refine (List.perm_ext_iff_of_nodup hn hn').mpr fun order => ?_
  constructor
  · intro hm
    obtain ⟨e,he,rfl⟩ := List.mem_map.mp hm
    have hf := (SortedMap.mem_entries m e.1 e.2).mp he
    have hl := h.find e.1
    rw [RefBook.findOrder,hf,Option.map_some] at hl
    obtain ⟨p,hp,ho⟩ := Option.map_eq_some_iff.mp hl.symm
    exact List.mem_map.mpr ⟨p,(hw.lookup_eq_some.mp hp).1,ho⟩
  · intro hm
    obtain ⟨p,hp,rfl⟩ := List.mem_map.mp hm
    obtain ⟨o,ho,he⟩ := h.find_some (hw.lookup_eq_some.mpr ⟨hp,rfl⟩)
    exact List.mem_map.mpr ⟨(p.2.id,o),(SortedMap.mem_entries m _ _).mpr ho,he⟩

theorem size_eq (h : RefRep L m) (hw : L.Placement n) : m.size=L.live.length := by
  simpa [SortedMap.size] using (h.perm hw).length_eq

theorem restingAt_perm (h : RefRep L m) (hw : L.Placement n) (k : LevelKey) :
    ((m.restingAt k).map fun e => e.2.order e.1).Perm ((atKey L.live k).map Prod.snd) := by
  have hp := (h.perm hw).filter fun o => decide (o.key=k)
  rwa [List.filter_map,List.filter_map] at hp

theorem totalAt_eq (h : RefRep L m) (hw : L.Placement n) (k : LevelKey) :
    m.totalAt k=L.total k := by
  have hp := ((h.restingAt_perm hw k).map fun o => o.quantity.toNat).sum_eq
  simpa [RefBook.totalAt,Ledger.total,sumQuantity,Function.comp_def,RefOrder.order] using hp

theorem priorityOf_lt (m : RefBook) {id : OrderId} {o : RefOrder} (h : m.find? id=some o) :
    m.priorityOf id < m.nextPriority := by
  have hmem := (SortedMap.mem_entries m id o).mpr h
  rw [RefBook.priorityOf,h,RefBook.nextPriority]
  generalize m.entries=l at hmem
  induction l with
  | nil => cases hmem
  | cons e rest ih =>
    rw [List.map_cons,List.foldr_cons]
    rcases List.mem_cons.mp hmem with rfl | hmem
    · exact lt_of_lt_of_le (Nat.lt_succ_self _) (le_max_left _ _)
    · exact lt_of_lt_of_le (ih hmem) (le_max_right _ _)

theorem priorityOf_erase {id id' : OrderId} (hne : id'≠id) :
    RefBook.priorityOf (m.erase id) id'=m.priorityOf id' := by
  rw [RefBook.priorityOf,SortedMap.find?_erase,if_neg hne]
  rfl

theorem priorityOf_set {id id' : OrderId} (o : RefOrder) :
    RefBook.priorityOf (m.set id o) id'=if id'=id then o.priority else m.priorityOf id' := by
  rw [RefBook.priorityOf,SortedMap.find?_set]
  split_ifs <;> rfl

theorem erase (h : RefRep L m) (id : OrderId) (free : List SlotIndex) :
    RefRep ⟨withoutId L.live id,free⟩ (m.erase id) := by
  constructor
  · intro id'
    rw [RefBook.findOrder,SortedMap.find?_erase,Ledger.lookup_withoutId]
    split_ifs
    · rfl
    · exact h.find id'
  · refine List.Pairwise.imp_of_mem ?_ (h.ordered.sublist List.filter_sublist)
    intro p q hp hq hlt
    have hp' : p.2.id≠id := by simpa using (List.mem_filter.mp hp).2
    have hq' : q.2.id≠id := by simpa using (List.mem_filter.mp hq).2
    rwa [priorityOf_erase hp',priorityOf_erase hq']

/-- A new order with a priority behind the others. -/
theorem push (h : RefRep L m) {p : Placed} {o : RefOrder} (habs : L.lookup p.2.id=none)
    (ho : o.order p.2.id=p.2) (hprio : ∀ q∈L.live, m.priorityOf q.2.id<o.priority)
    (free : List SlotIndex) : RefRep ⟨L.live++[p],free⟩ (m.set p.2.id o) := by
  have hne {q : Placed} (hq : q∈L.live) : q.2.id≠p.2.id := Ledger.lookup_eq_none.mp habs q hq
  constructor
  · intro id
    rw [RefBook.findOrder,SortedMap.find?_set,Ledger.lookup_snoc L.live p free L.free habs]
    split_ifs with he
    · rw [he]
      exact congrArg some ho
    · exact h.find id
  · refine List.pairwise_append.mpr ⟨?_,List.pairwise_singleton _ _,?_⟩
    · refine List.Pairwise.imp_of_mem ?_ h.ordered
      intro q r hq hr hlt
      rwa [priorityOf_set,priorityOf_set,if_neg (hne hq),if_neg (hne hr)]
    · intro q hq r hr
      rw [List.mem_singleton.mp hr,priorityOf_set,priorityOf_set,if_neg (hne hq),if_pos rfl]
      exact hprio q hq

theorem lt_next (h : RefRep L m) (hw : L.Placement n) {q : Placed} (hq : q∈L.live) :
    m.priorityOf q.2.id < m.nextPriority := by
  obtain ⟨o,ho,_⟩ := h.find_some (hw.lookup_eq_some.mpr ⟨hq,rfl⟩)
  exact priorityOf_lt m ho

/-- A change of quantity keeps the priority. -/
theorem setQuantity (h : RefRep L m) {id : OrderId} {o : RefOrder} (ho : m.find? id=some o)
    (quantity : Quantity) :
    RefRep (L.setQuantity id quantity) (m.set id { o with quantity }) := by
  have hprio (id' : OrderId) :
      RefBook.priorityOf (m.set id { o with quantity }) id'=m.priorityOf id' := by
    rw [priorityOf_set]
    split_ifs with he
    · rw [he,RefBook.priorityOf,ho]
      rfl
    · rfl
  constructor
  · intro id'
    rw [RefBook.findOrder,SortedMap.find?_set]
    split_ifs with he
    · subst he
      have hf := h.find id'
      rw [RefBook.findOrder,ho] at hf
      rw [Ledger.lookup_setQuantity]
      obtain ⟨p,hp,hpo⟩ := Option.map_eq_some_iff.mp hf.symm
      rw [hp,Option.map_some,Option.map_some,Option.map_some,hpo]
      rfl
    · rw [Ledger.lookup_setQuantity_ne L he]
      exact h.find id'
  · refine List.pairwise_map.mpr (h.ordered.imp fun {p q} hlt => ?_)
    have hid (p : Placed) : (if p.2.id=id then (p.1,p.2.withQuantity quantity) else p).2.id=
        p.2.id := by split_ifs <;> rfl
    rwa [hprio,hprio,hid,hid]

/-- One event on both sides: the same answer, and states that still agree. -/
def Agrees (n : Nat) (m : RefBook) (e : MarketEvent) (r : Ledger×Bool) : Prop :=
  r.2=m.accepts n e ∧ RefRep r.1 (m.step n e)

theorem agrees_rejected (h : RefRep L m) {e : MarketEvent} (ha : m.accepts n e=false) :
    Agrees n m e (L,false) := by
  refine ⟨ha.symm,?_⟩
  rw [RefBook.step,ha]
  exact h

theorem agrees_accepted {L' : Ledger} {e : MarketEvent} (ha : m.accepts n e=true)
    (h : RefRep L' (m.update e)) : Agrees n m e (L',true) := by
  refine ⟨ha.symm,?_⟩
  rw [RefBook.step,ha]
  exact h

theorem add (h : RefRep L m) (hw : L.Placement n) (hn : n≤2^32) (e : AddEvent) :
    Agrees n m (.add e) (L.add e.order) := by
  have hlen := hw.length hn
  have hmax := toNat_quantityMax
  have hsize := h.size_eq hw
  have htotal := h.totalAt_eq hw e.order.key
  unfold Ledger.add
  by_cases hrej : e.order.id=0 ∨ e.order.quantity=0 ∨ (L.lookup e.order.id).isSome
  · rw [if_pos hrej]
    refine h.agrees_rejected ?_
    simp only [RefBook.accepts,h.find_none_iff,decide_eq_false_iff_not,← Option.not_isSome_iff_eq_none]
    tauto
  rw [if_neg hrej]
  simp only [not_or,Option.not_isSome_iff_eq_none] at hrej
  obtain ⟨hid,hq,habs⟩ := hrej
  cases hfree : L.free with
  | nil =>
    refine h.agrees_rejected ?_
    rw [hfree,List.length_nil] at hlen
    simp only [RefBook.accepts,decide_eq_false_iff_not]
    omega
  | cons s free =>
    rw [hfree,List.length_cons] at hlen
    dsimp only
    by_cases hover : L.total e.order.key+e.order.quantity.toNat>quantityMax.toNat
    · rw [if_pos hover]
      refine h.agrees_rejected ?_
      simp only [RefBook.accepts,decide_eq_false_iff_not]
      omega
    · rw [if_neg hover]
      refine agrees_accepted ?_ ?_
      · simp only [RefBook.accepts,decide_eq_true_eq,h.find_none_iff]
        exact ⟨hid,hq,habs,by omega,by omega⟩
      · exact h.push (p := (s,e.order)) habs rfl (fun q hqm => h.lt_next hw hqm) free

theorem remove (h : RefRep L m) {e : MarketEvent} {id : OrderId}
    (ha : m.accepts n e=true ↔ L.lookup id≠none)
    (hu : L.lookup id≠none → m.update e=m.erase id) : Agrees n m e (L.remove id) := by
  rcases L.remove_cases id with ⟨hp,hr⟩ | ⟨p,hp,hr⟩
  · rw [hr]
    refine h.agrees_rejected ?_
    rw [← Bool.not_eq_true,ha,hp]
    simp
  · rw [hr]
    have hne : L.lookup id≠none := by simp [hp]
    refine agrees_accepted (ha.mpr hne) ?_
    rw [hu hne]
    exact h.erase id _

theorem reduce (h : RefRep L m) {e : MarketEvent} {id : OrderId} {shares : Quantity}
    (ha : m.accepts n e=m.acceptsReduce id shares) (hu : m.update e=m.reduce id shares) :
    Agrees n m e (L.reduce id shares) := by
  unfold Ledger.reduce
  cases hp : L.lookup id with
  | none =>
    refine h.agrees_rejected ?_
    rw [ha,RefBook.acceptsReduce,h.find_none_iff.mpr hp]
  | some p =>
    obtain ⟨o,ho,hop⟩ := h.find_some hp
    have hoq : o.quantity=p.2.quantity := congrArg Order.quantity hop
    have hacc : m.acceptsReduce id shares=true ↔ ¬(shares=0 ∨ shares>p.2.quantity) := by
      rw [RefBook.acceptsReduce,ho]
      simp only [decide_eq_true_eq,hoq,not_or,gt_iff_lt,UInt32.not_lt]
      rw [UInt32.lt_iff_toNat_lt,← UInt32.toNat_inj]
      simp only [UInt32.toNat_zero]
      exact and_congr_left' Nat.pos_iff_ne_zero
    dsimp only
    by_cases hrej : shares=0 ∨ shares>p.2.quantity
    · rw [if_pos hrej]
      refine h.agrees_rejected ?_
      rw [ha,← Bool.not_eq_true,hacc,not_not]
      exact hrej
    rw [if_neg hrej]
    have hok : m.accepts n e=true := by rw [ha,hacc]; exact hrej
    by_cases heq : shares=p.2.quantity
    · rw [if_pos heq]
      refine h.remove ⟨fun _ => by simp [hp],fun _ => hok⟩ fun _ => ?_
      rw [hu,RefBook.reduce,ho]
      dsimp only
      rw [if_pos (heq.trans hoq.symm)]
    · rw [if_neg heq]
      refine agrees_accepted hok ?_
      rw [hu,RefBook.reduce,ho]
      dsimp only
      rw [if_neg fun he => heq (he.trans hoq),← hoq]
      exact h.setQuantity ho _

theorem replace (h : RefRep L m) (hw : L.Placement n) (e : ReplaceEvent) :
    Agrees n m (.replace e) (L.replace e) := by
  have hmax := toNat_quantityMax
  unfold Ledger.replace
  cases hp : L.lookup e.oldOrderId with
  | none =>
    refine h.agrees_rejected ?_
    rw [RefBook.accepts,h.find_none_iff.mpr hp]
  | some p =>
    obtain ⟨o,ho,hop⟩ := h.find_some hp
    obtain ⟨hm,hold⟩ := hw.lookup_eq_some.mp hp
    have herase := h.erase e.oldOrderId (p.1::L.free)
    have hwo : Ledger.Placement ⟨withoutId L.live e.oldOrderId,p.1::L.free⟩ n := by
      rw [← hold]
      exact hw.remove hm
    have hkey : (⟨o.symbol,o.side,e.newPrice⟩ : LevelKey)=(Ledger.replaced p.2 e).key := by
      rw [← hop]
      rfl
    have htotal := herase.totalAt_eq hwo ⟨o.symbol,o.side,e.newPrice⟩
    rw [hkey] at htotal
    have hacc : m.accepts n (.replace e)=true ↔
        ¬(e.newOrderId=0 ∨ e.newQuantity=0 ∨ (L.lookup e.newOrderId).isSome) ∧
          ¬sumQuantity (atKey (withoutId L.live e.oldOrderId) (Ledger.replaced p.2 e).key)
            +e.newQuantity.toNat>quantityMax.toNat := by
      rw [RefBook.accepts,ho]
      simp only [decide_eq_true_eq,hkey,htotal,h.find_none_iff,Ledger.total,not_or,
        Option.not_isSome_iff_eq_none,hmax,Nat.not_lt,gt_iff_lt]
      tauto
    dsimp only
    by_cases hrej : e.newOrderId=0 ∨ e.newQuantity=0 ∨ (L.lookup e.newOrderId).isSome
    · rw [if_pos hrej]
      refine h.agrees_rejected ?_
      rw [← Bool.not_eq_true,hacc]
      tauto
    rw [if_neg hrej]
    by_cases hover : sumQuantity (atKey (withoutId L.live e.oldOrderId)
        (Ledger.replaced p.2 e).key)+e.newQuantity.toNat>quantityMax.toNat
    · rw [if_pos hover]
      refine h.agrees_rejected ?_
      rw [← Bool.not_eq_true,hacc]
      tauto
    rw [if_neg hover]
    refine agrees_accepted (hacc.mpr ⟨hrej,hover⟩) ?_
    simp only [not_or,Option.not_isSome_iff_eq_none] at hrej
    have hne : e.newOrderId≠e.oldOrderId := fun he => by simp [he,hp] at hrej
    rw [RefBook.update,ho]
    refine herase.push (p := (p.1,Ledger.replaced p.2 e)) ?_ ?_ ?_ L.free
    · rw [Ledger.lookup_withoutId]
      split_ifs
      · rfl
      · exact hrej.2.2
    · rw [← hop]
      rfl
    · intro q hq
      have hq' := List.mem_filter.mp hq
      rw [priorityOf_erase (by simpa using hq'.2)]
      exact h.lt_next hw hq'.1

theorem apply (h : RefRep L m) (hw : L.Placement n) (hn : n≤2^32) (e : MarketEvent) :
    Agrees n m e (L.apply e) := by
  cases e with
  | add e => exact h.add hw hn e
  | execute e => exact h.reduce rfl rfl
  | cancel e => exact h.reduce rfl rfl
  | delete e =>
    refine h.remove ?_ fun _ => rfl
    simp [RefBook.accepts,h.find_none_iff]
  | replace e => exact h.replace hw e

end RefRep
end MarketWire
