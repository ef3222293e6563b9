import MarketWire.BookCommute
import MarketWire.Library.Fifo

/-! What a book has been through: who waits at a level and in which order, and where the shares of
a side have gone. -/
namespace MarketWire
open Library

/-- The ids that wait at a level, in the order in which the level links them. -/
def OrderBook.queueAt (b : OrderBook) (k : LevelKey) : List OrderId :=
  match b.books.level? k with
  | none => []
  | some level => ((b.fifo level).getD []).map fun i => (b.slots.slotAt i).order.id

/-- The shares that rest on a side, level by level. -/
def OrderBook.sharesOn (b : OrderBook) (side : Symbol×Side) : Nat :=
  (((b.books.bookOf side.1).levels side.2).entries.map fun e => e.2.totalQuantity.toNat).sum

/-- Shares by what happened to them. -/
structure Flow where
  added : Nat := 0
  renewed : Nat := 0
  executed : Nat := 0
  canceled : Nat := 0
  deleted : Nat := 0
  replaced : Nat := 0
  deriving DecidableEq, Repr

namespace Flow

def plus (f g : Flow) : Flow :=
  ⟨f.added+g.added,f.renewed+g.renewed,f.executed+g.executed,f.canceled+g.canceled,
    f.deleted+g.deleted,f.replaced+g.replaced⟩

def inward (f : Flow) : Nat := f.added+f.renewed

def outward (f : Flow) : Nat := f.executed+f.canceled+f.deleted+f.replaced

theorem inward_plus (f g : Flow) : (f.plus g).inward=f.inward+g.inward := by
  simp only [inward,plus]
  omega

theorem outward_plus (f g : Flow) : (f.plus g).outward=f.outward+g.outward := by
  simp only [outward,plus]
  omega

end Flow

/-- The shares that an order still has. -/
def remaining (find : OrderId → Option Order) (id : OrderId) : Nat :=
  ((find id).map fun o => o.quantity.toNat).getD 0

/-- What an accepted event does to shares. -/
def MarketEvent.flow (find : OrderId → Option Order) : MarketEvent → Flow
  | .add e => { added := e.order.quantity.toNat }
  | .execute e => { executed := e.executedShares.toNat }
  | .cancel e => { canceled := e.canceledShares.toNat }
  | .delete e => { deleted := remaining find e.orderId }
  | .replace e => { replaced := remaining find e.oldOrderId, renewed := e.newQuantity.toNat }

/-- What the accepted events of a run do to the shares of a side. -/
def OrderBook.flow (side : Symbol×Side) (b : OrderBook) : List Step → Flow
  | [] => {}
  | s::rest =>
    let (b',outcome) := b.applyWith s.1 s.2
    let later := b'.flow side rest
    if outcome=.returned true ∧ s.2.pair b.find=some side then (s.2.flow b.find).plus later
    else later

namespace Ledger
variable {L : Ledger} {n : Nat}

/-- The ids at a level, oldest first. -/
def idsAt (L : Ledger) (k : LevelKey) : List OrderId := (atKey L.live k).map fun p => p.2.id

theorem idsAt_nodup (hw : L.Placement n) (k : LevelKey) : (L.idsAt k).Nodup :=
  hw.ids.sublist (List.filter_sublist.map _)

section Ids
variable (L : Ledger) (k : LevelKey) (id : OrderId) (free : List SlotIndex)

theorem idsAt_withoutId :
    idsAt ⟨withoutId L.live id,free⟩ k=(L.idsAt k).filter fun id' => id'≠id := by
  rw [idsAt,idsAt,atKey,atKey,withoutId,List.filter_map,List.filter_filter,List.filter_filter]
  exact congrArg _ (List.filter_congr fun p _ => Bool.and_comm _ _)

theorem idsAt_setQuantity (quantity : Quantity) :
    (L.setQuantity id quantity).idsAt k=L.idsAt k := by
  obtain ⟨live,free⟩ := L
  simp only [idsAt,setQuantity,atKey]
  induction live with
  | nil => rfl
  | cons p rest ih =>
    have hkey : (if p.2.id=id then (p.1,p.2.withQuantity quantity) else p).2.key=p.2.key := by
      split_ifs <;> rfl
    rw [List.map_cons,List.filter_cons,List.filter_cons,hkey]
    by_cases hp : p.2.key=k
    · simp only [hp,decide_true,if_true,List.map_cons,ih]
      congr 1
      split_ifs <;> rfl
    · simp only [hp,decide_false,Bool.false_eq_true,if_false,ih]

theorem idsAt_snoc (live : List Placed) (p : Placed) :
    idsAt ⟨live++[p],free⟩ k=idsAt ⟨live,free⟩ k++if p.2.key=k then [p.2.id] else [] := by
  by_cases hp : p.2.key=k
  · simp [idsAt,atKey,hp]
  · simp [idsAt,atKey,hp]

end Ids

/-- One event at one level: departures and newcomers. -/
theorem queued_apply (L : Ledger) (e : MarketEvent) (k : LevelKey) :
    Queued (fun id => ((L.apply e).1.lookup id).isSome) (L.idsAt k) ((L.apply e).1.idsAt k) := by
  have hremove (id : OrderId) : Queued (fun id' => ((L.remove id).1.lookup id').isSome)
      (L.idsAt k) ((L.remove id).1.idsAt k) := by
    rcases L.remove_cases id with ⟨-,he⟩ | ⟨p,-,he⟩
    · rw [he]
      exact .refl _
    · rw [he,idsAt_withoutId,← List.append_nil (List.filter _ _)]
      refine .filter (fun id' _ hs => ?_) []
      rw [lookup_withoutId] at hs
      split_ifs at hs with hid
      · cases hs
      · exact decide_eq_true hid
  have hreduce (id : OrderId) (shares : Quantity) :
      Queued (fun id' => ((L.reduce id shares).1.lookup id').isSome)
        (L.idsAt k) ((L.reduce id shares).1.idsAt k) := by
    rcases L.reduce_cases id shares with he | ⟨p,-,-,-,⟨-,he⟩ | ⟨-,he⟩⟩
    · rw [he]
      exact .refl _
    · rw [he]
      exact hremove id
    · rw [he]
      dsimp only
      rw [idsAt_setQuantity]
      exact .refl _
  cases e with
  | add e =>
    rcases L.add_cases e.order with he | ⟨slot,free,-,-,-,-,-,he⟩
    · rw [apply,he]
      exact .refl _
    · rw [apply,he,idsAt_snoc]
      exact .append _ _
  | execute e => exact hreduce _ _
  | cancel e => exact hreduce _ _
  | delete e => exact hremove _
  | replace e =>
    rcases L.replace_cases e with he | ⟨p,hp,-,-,habs,-,he⟩
    · rw [apply,he]
      exact .refl _
    · rw [apply,he,idsAt_snoc,idsAt_withoutId]
      refine .filter (fun id _ hs => ?_) _
      rw [decide_eq_true_iff]
      intro hold
      -- the replaced id is gone, for the new id was not live
      have hnew : lookup ⟨withoutId L.live e.oldOrderId,L.free⟩ e.newOrderId=none := by
        rw [lookup_withoutId,habs,ite_self]
      rw [lookup_snoc _ (p.1,replaced p.2 e) L.free L.free hnew,lookup_withoutId,hold,
        if_pos rfl] at hs
      split_ifs at hs with heq
      · rw [show (p.1,replaced p.2 e).2.id=e.newOrderId from rfl] at heq
        rw [← heq,hp] at habs
        cases habs
      · cases hs

/-! The shares of a side. -/

/-- The shares of the orders of a side. -/
def sharesIn (live : List Placed) (side : Symbol×Side) : Nat :=
  sumQuantity (live.filter fun p => p.2.pair=side)

section Shares
variable (xs ys : List Placed) (p : Placed) (side : Symbol×Side)

theorem sharesIn_append : sharesIn (xs++ys) side=sharesIn xs side+sharesIn ys side := by
  rw [sharesIn,List.filter_append,sumQuantity_append]
  rfl

theorem sharesIn_cons : sharesIn (p::ys) side=
    (if p.2.pair=side then p.2.quantity.toNat else 0)+sharesIn ys side := by
  by_cases hp : p.2.pair=side
  · simp [sharesIn,hp]
  · simp [sharesIn,hp]

theorem sharesIn_eq (L : Ledger) : sharesIn L.live side=
    ((L.sideOrders side).map fun o => o.quantity.toNat).sum := by
  rw [sharesIn,sumQuantity_eq_map]
  rfl

/-- A value that one element of a list without repetitions has. -/
theorem sum_single {α : Type} [DecidableEq α] {l : List α} (hn : l.Nodup) (a : α) (c : Nat) :
    (l.map fun x => if x=a then c else 0).sum=if a∈l then c else 0 := by
  rw [List.sum_map_eq_nsmul_single a _ fun x hx _ => if_neg hx,hn.count,if_pos rfl]
  split_ifs <;> simp

/-- The levels of a side share out its orders. -/
theorem sum_levels {prices : List Price} (hn : prices.Nodup) (symbol : Symbol) (side : Side)
    {live : List Placed} (hall : ∀ p∈live, p.2.pair=(symbol,side) → p.2.price∈prices) :
    (prices.map fun price => sumQuantity (atKey live ⟨symbol,side,price⟩)).sum=
      sharesIn live (symbol,side) := by
  induction live with
  | nil => simp [sharesIn]
  | cons p rest ih =>
    have hrest := ih fun q hq => hall q (List.mem_cons_of_mem p hq)
    have hlevel (price : Price) : sumQuantity (atKey (p::rest) ⟨symbol,side,price⟩)=
        (if price=p.2.price then if p.2.pair=(symbol,side) then p.2.quantity.toNat else 0 else 0)+
          sumQuantity (atKey rest ⟨symbol,side,price⟩) := by
      rw [atKey_cons]
      obtain ⟨slot,id,osymbol,oside,quantity,oprice⟩ := p
      simp only [Order.key,Order.pair,LevelKey.mk.injEq,Prod.mk.injEq]
      by_cases h1 : osymbol=symbol <;> by_cases h2 : oside=side <;>
        by_cases h3 : price=oprice <;> simp [h1,h2,h3,eq_comm]
    rw [List.map_congr_left fun price _ => hlevel price,List.sum_map_add,hrest,sharesIn_cons,
      sum_single hn]
    by_cases hp : p.2.pair=(symbol,side)
    · rw [if_pos (hall p List.mem_cons_self hp)]
    · simp [hp]

end Shares

section Flow
variable {side : Symbol×Side}

theorem remaining_eq {id : OrderId} {p : Placed} (hp : L.lookup id=some p) :
    remaining L.order id=p.2.quantity.toNat := by
  rw [remaining,order,hp]
  rfl

/-- A live order counts on its side. -/
theorem Placement.sharesIn_split (hw : L.Placement n) {p : Placed} (hp : p∈L.live) :
    sharesIn L.live p.2.pair=sharesIn (withoutId L.live p.2.id) p.2.pair+p.2.quantity.toNat := by
  obtain ⟨xs,ys,hl,-,hwithout⟩ := hw.split hp
  rw [hwithout,hl,sharesIn_append,sharesIn_append,sharesIn_cons,if_pos rfl]
  omega

theorem Placement.sharesIn_setQuantity (hw : L.Placement n) {p : Placed} (hp : p∈L.live)
    (quantity : Quantity) : sharesIn (L.setQuantity p.2.id quantity).live p.2.pair=
      sharesIn (withoutId L.live p.2.id) p.2.pair+quantity.toNat := by
  obtain ⟨xs,ys,hl,hne,hwithout⟩ := hw.split hp
  rw [setQuantity_split hl hne,hwithout,sharesIn_append,sharesIn_append,sharesIn_cons]
  rw [if_pos (show (p.1,p.2.withQuantity quantity).2.pair=p.2.pair from rfl)]
  change _+(quantity.toNat+_)=_
  omega

/-- What an accepted removal takes. -/
theorem Placement.flow_remove (hw : L.Placement n) {id : OrderId} (ha : (L.remove id).2=true)
    (hside : (L.order id).map Order.pair=some side) :
    sharesIn L.live side=sharesIn (L.remove id).1.live side+remaining L.order id := by
  rcases L.remove_cases id with ⟨-,he⟩ | ⟨p,hp,he⟩
  · rw [he] at ha
    cases ha
  · obtain ⟨hm,rfl⟩ := hw.lookup_eq_some.mp hp
    rw [order,hp] at hside
    cases hside
    rw [he,remaining_eq hp]
    exact hw.sharesIn_split hm

/-- What an accepted execution or cancel takes. -/
theorem Placement.flow_reduce (hw : L.Placement n) {id : OrderId} {shares : Quantity}
    (ha : (L.reduce id shares).2=true) (hside : (L.order id).map Order.pair=some side) :
    sharesIn L.live side=sharesIn (L.reduce id shares).1.live side+shares.toNat := by
  rcases L.reduce_cases id shares with he | ⟨p,hp,-,hle,⟨hall,he⟩ | ⟨-,he⟩⟩
  · rw [he] at ha
    cases ha
  · rw [he] at ha ⊢
    rw [hw.flow_remove ha hside,remaining_eq hp,hall]
  · obtain ⟨hm,rfl⟩ := hw.lookup_eq_some.mp hp
    rw [order,hp] at hside
    cases hside
    rw [he,hw.sharesIn_setQuantity hm,hw.sharesIn_split hm,UInt32.toNat_sub_of_le _ _ hle]
    have hle := UInt32.le_iff_toNat_le.mp hle
    omega

/-- Shares that come in on the side of an accepted event rest there or have gone out. -/
theorem Placement.flow_apply (hw : L.Placement n) {e : MarketEvent} (ha : (L.apply e).2=true)
    (hside : e.pair L.order=some side) :
    sharesIn L.live side+(e.flow L.order).inward=
      sharesIn (L.apply e).1.live side+(e.flow L.order).outward := by
  cases e with
  | add e =>
    cases hside
    rcases L.add_cases e.order with he | ⟨slot,free,-,-,-,-,-,he⟩
    · rw [apply,he] at ha
      cases ha
    · rw [apply,he,sharesIn_append,sharesIn_cons,if_pos rfl]
      rfl
  | execute e =>
    have h := hw.flow_reduce ha hside
    simpa [apply,MarketEvent.flow,Flow.inward,Flow.outward] using h
  | cancel e =>
    have h := hw.flow_reduce ha hside
    simpa [apply,MarketEvent.flow,Flow.inward,Flow.outward] using h
  | delete e =>
    have h := hw.flow_remove ha hside
    simpa [apply,MarketEvent.flow,Flow.inward,Flow.outward] using h
  | replace e =>
    rcases L.replace_cases e with he | ⟨p,hp,-,-,-,-,he⟩
    · rw [apply,he] at ha
      cases ha
    · obtain ⟨hm,hid⟩ := hw.lookup_eq_some.mp hp
      rw [MarketEvent.pair,order,hp] at hside
      cases hside
      have hsplit := hw.sharesIn_split hm
      rw [hid] at hsplit
      rw [apply,he,sharesIn_append,sharesIn_cons,
        if_pos (show (p.1,replaced p.2 e).2.pair=p.2.pair from rfl)]
      simp only [MarketEvent.flow,Flow.inward,Flow.outward,remaining_eq hp]
      change _=_+(e.newQuantity.toNat+0)+_
      omega

end Flow
end Ledger

namespace Rep
variable {b : OrderBook} {L : Ledger} {n : Nat}

theorem queueAt_eq (h : Rep b L) (k : LevelKey) : b.queueAt k=L.idsAt k := by
  unfold OrderBook.queueAt
  cases hl : b.books.level? k with
  | none =>
    have hnil : atKey L.live k=[] := by
      by_contra hne
      have hsome := (h.level_isSome_iff k).mpr hne
      rw [hl] at hsome
      cases hsome
    rw [Ledger.idsAt,hnil]
    rfl
  | some level =>
    dsimp only
    rw [h.fifo_eq hl,Option.getD_some,h.queue_ids,Ledger.idsAt]

/-- The level totals of a side add up to the shares of its orders. -/
theorem sharesOn_eq (h : Rep b L) (side : Symbol×Side) :
    b.sharesOn side=Ledger.sharesIn L.live side := by
  obtain ⟨symbol,side⟩ := side
  have hprices : (b.prices side symbol).Nodup := ((b.books.bookOf symbol).levels side).keys_nodup
  rw [← Ledger.sum_levels hprices symbol side fun p hp hpair => ?_]
  · rw [OrderBook.sharesOn,OrderBook.prices,SortedMap.keys,List.map_map]
    refine congrArg _ (List.map_congr_left fun entry he => ?_)
    have hl : b.books.level? ⟨symbol,side,entry.1⟩=some entry.2 := by
      rw [Books.level?_eq_bookOf]
      exact (SortedMap.mem_entries _ _ _).mp he
    have ht := (h.links.level ⟨symbol,side,entry.1⟩).dlist.2
    rw [hl,Option.getD_some] at ht
    exact ht
  · rw [h.mem_prices]
    refine List.ne_nil_of_mem ((mem_atKey _ _ p).mpr ⟨hp,?_⟩)
    obtain ⟨rfl,rfl⟩ := Prod.mk.inj hpair
    rfl

/-- A step is accepted by book and ledger, or changes neither's meaning. -/
theorem step_cases (h : Rep b L) (s : OrderBook.Step) :
    ((b.applyWith s.1 s.2).2=.returned true ∧ (L.apply s.2).2=true ∧
      Rep (b.applyWith s.1 s.2).1 (L.apply s.2).1) ∨
    (b.applyWith s.1 s.2).2≠.returned true ∧ Rep (b.applyWith s.1 s.2).1 L := by
  rcases h.applyWith s.1 s.2 with ⟨ho,hr⟩ | ⟨ho,-,hr⟩
  · cases ha : (L.apply s.2).2 with
    | true => exact .inl ⟨ho.trans (by rw [ha]),rfl,hr⟩
    | false =>
      rw [Ledger.apply_rejected ha] at hr
      exact .inr ⟨by rw [ho,ha]; simp,hr⟩
  · exact .inr ⟨by rw [ho]; simp,hr⟩

end Rep

namespace OrderBook
variable {n : Nat} {b : OrderBook}

/-- One step at one level. -/
theorem queued_step {L : Ledger} (h : Rep b L) (s : Step) (k : LevelKey) :
    Queued (fun id => ((b.applyWith s.1 s.2).1.find id).isSome) (b.queueAt k)
      ((b.applyWith s.1 s.2).1.queueAt k) := by
  rcases h.step_cases s with ⟨-,-,hr⟩ | ⟨-,hr⟩
  · rw [h.queueAt_eq,hr.queueAt_eq]
    refine (L.queued_apply s.2 k).mono fun id _ hs => ?_
    rwa [hr.find_order,Option.isSome_map] at hs
  · rw [h.queueAt_eq,hr.queueAt_eq]
    exact .refl _

/-- Time priority. Over any run a level keeps, in their order, those who stay in the book
throughout, and whoever joins goes behind them. -/
theorem queue_keeps_order (hb : Reachable n b) (steps : List Step) (k : LevelKey) :
    Queued (fun id => ∀ earlier, earlier<+:steps → ((b.runWith earlier).find id).isSome)
      (b.queueAt k) ((b.runWith steps).queueAt k) := by
  induction steps generalizing b with
  | nil => exact .refl _
  | cons s rest ih =>
    obtain ⟨L,h,-⟩ := hb.rep
    have hnext := hb.step s.1 s.2
    obtain ⟨L1,h1,-⟩ := hnext.rep
    have hnodup : ((b.applyWith s.1 s.2).1.queueAt k).Nodup := by
      rw [h1.queueAt_eq]
      exact Ledger.idsAt_nodup h1.placement k
    refine ((queued_step h s k).trans hnodup (ih hnext)).mono fun id _ hs => ⟨?_,fun earlier he => ?_⟩
    · exact hs [s] ((List.prefix_cons_inj s).mpr List.nil_prefix)
    · exact hs (s::earlier) ((List.prefix_cons_inj s).mpr he)

/-- Two orders wait at a level; the first is executed in part and a third one joins. -/
theorem queue_keeps_order_three : ∃ b, Reachable 4 b ∧ b.queueAt ⟨default,.buy,100⟩=[7,8] ∧
    ∃ left new, (b.runWith [(fun _ => false,.execute ⟨default,7,2,0,false,0,true⟩),
      (fun _ => false,.add ⟨default,⟨9,default,.buy,5,100⟩⟩)]).queueAt ⟨default,.buy,100⟩=
        left++new ∧ left.Sublist [7,8] := by
  obtain ⟨b0,hb0⟩ := create_isOk (n := 4) (by decide) (by decide)
  set b := b0.runWith [(fun _ => false,.add ⟨default,⟨7,default,.buy,5,100⟩⟩),
    (fun _ => false,.add ⟨default,⟨8,default,.buy,6,100⟩⟩)] with hdef
  have hb : Reachable 4 b := (Reachable.create hb0).runWith _
  have hq : b.queueAt ⟨default,.buy,100⟩=[7,8] := by
    obtain ⟨-,-,rfl⟩ := create_ok hb0
    decide +kernel
  obtain ⟨left,new,heq,hsub,-⟩ := queue_keeps_order hb
    [(fun _ => false,.execute ⟨default,7,2,0,false,0,true⟩),
      (fun _ => false,.add ⟨default,⟨9,default,.buy,5,100⟩⟩)] ⟨default,.buy,100⟩
  exact ⟨b,hb,hq,left,new,heq,hq ▸ hsub⟩

/-- No share is lost or made up. Over any run, what rested on a side and came in by additions and
replacements is what rests there and what was executed, canceled, deleted or replaced. -/
theorem shares_conserved (hb : Reachable n b) (steps : List Step) (side : Symbol×Side) :
    b.sharesOn side+(b.flow side steps).inward=
      (b.runWith steps).sharesOn side+(b.flow side steps).outward := by
  induction steps generalizing b with
  | nil => rfl
  | cons s rest ih =>
    obtain ⟨L,h,hw⟩ := hb.rep
    have hrest := ih (hb.step s.1 s.2)
    have hfind : b.find=L.order := funext h.find_order
    change b.sharesOn side+(b.flow side (s::rest)).inward=
      ((b.applyWith s.1 s.2).1.runWith rest).sharesOn side+(b.flow side (s::rest)).outward
    have hflow : b.flow side (s::rest)=
        if (b.applyWith s.1 s.2).2=.returned true ∧ s.2.pair b.find=some side
          then (s.2.flow b.find).plus ((b.applyWith s.1 s.2).1.flow side rest)
          else (b.applyWith s.1 s.2).1.flow side rest := rfl
    rw [hflow]
    rcases h.step_cases s with ⟨ho,ha,hr⟩ | ⟨ho,hr⟩
    · by_cases hside : s.2.pair b.find=some side
      · rw [if_pos ⟨ho,hside⟩,Flow.inward_plus,Flow.outward_plus]
        rw [hfind] at hside ⊢
        have hstep := hw.flow_apply ha hside
        rw [← h.sharesOn_eq,← hr.sharesOn_eq] at hstep
        omega
      · rw [if_neg fun hc => hside hc.2]
        have hsame : b.sharesOn side=(b.applyWith s.1 s.2).1.sharesOn side := by
          rw [hfind] at hside
          rw [h.sharesOn_eq,hr.sharesOn_eq,Ledger.sharesIn_eq,Ledger.sharesIn_eq,hw.frame hside]
        omega
    · rw [if_neg fun hc => ho hc.1]
      have hsame : b.sharesOn side=(b.applyWith s.1 s.2).1.sharesOn side := by
        rw [h.sharesOn_eq,hr.sharesOn_eq]
      omega

/-- Five shares come in and two of them are executed. -/
theorem shares_conserved_five : ∃ b, Reachable 2 b ∧ ∃ steps : List Step,
    steps=[(fun _ => false,.add ⟨default,⟨7,default,.buy,5,100⟩⟩),
      (fun _ => false,.execute ⟨default,7,2,0,false,0,true⟩)] ∧
    b.sharesOn (default,.buy)=0 ∧ (b.flow (default,.buy) steps).inward=5 ∧
    (b.flow (default,.buy) steps).outward=2 ∧ (b.runWith steps).sharesOn (default,.buy)=3 := by
  obtain ⟨b,hb⟩ := create_isOk (n := 2) (by decide) (by decide)
  refine ⟨b,.create hb,_,rfl,?_⟩
  have h := shares_conserved (.create hb) [(fun _ => false,.add ⟨default,⟨7,default,.buy,5,100⟩⟩),
    (fun _ => false,.execute ⟨default,7,2,0,false,0,true⟩)] (default,.buy)
  have hflow : b.sharesOn (default,.buy)=0 ∧ (b.flow (default,.buy)
      [(fun _ => false,.add ⟨default,⟨7,default,.buy,5,100⟩⟩),
        (fun _ => false,.execute ⟨default,7,2,0,false,0,true⟩)]).inward=5 ∧
      (b.flow (default,.buy) [(fun _ => false,.add ⟨default,⟨7,default,.buy,5,100⟩⟩),
        (fun _ => false,.execute ⟨default,7,2,0,false,0,true⟩)]).outward=2 := by
    obtain ⟨-,-,rfl⟩ := create_ok hb
    decide +kernel
  obtain ⟨hempty,hin,hout⟩ := hflow
  rw [hempty,hin,hout] at h
  exact ⟨hempty,hin,hout,by omega⟩

end OrderBook
end MarketWire
