import MarketWire.BookCapacity
import MarketWire.BookEquations
import MarketWire.BookCommute

/-! What a book shows is all that decides what it will answer: a book can be rebuilt from its
snapshots and its orders. -/
namespace MarketWire
open Library

/-- The additions that put the orders of a book into another one, level after level and in the
order in which each level lists them. -/
def OrderBook.restore (b : OrderBook) (symbols : List Symbol) : List MarketEvent :=
  symbols.flatMap fun symbol => [Side.buy,.sell].flatMap fun side =>
    ((b.sideLevels side symbol).getD []).flatMap fun s =>
      (s.fifoOrderIds.filterMap b.find).map fun o => .add ⟨default,o⟩

/-- The levels of some symbols, as a book lists them. -/
def OrderBook.levelKeys (b : OrderBook) (symbols : List Symbol) : List LevelKey :=
  symbols.flatMap fun symbol => [Side.buy,.sell].flatMap fun side =>
    (b.prices side symbol).map fun price => ⟨symbol,side,price⟩

namespace Ledger
variable {L L' : Ledger} {n : Nat}

/-- The live orders, oldest first. -/
def orders (L : Ledger) : List Order := L.live.map Prod.snd

/-- The same orders in the same sequence, whatever their slots, and as many free slots. -/
structure SameList (L L' : Ledger) : Prop where
  orders : L.orders=L'.orders
  free : L.free.length=L'.free.length

section Orders
variable (L : Ledger) (id : OrderId)

theorem order_eq_find : L.order id=L.orders.find? fun o => o.id=id := by
  rw [order,orders,lookup,List.find?_map]
  rfl

theorem atKey_orders (k : LevelKey) :
    (atKey L.live k).map Prod.snd=L.orders.filter fun o => o.key=k := by
  rw [orders,List.filter_map]
  rfl

theorem sideOrders_orders (side : Symbol×Side) :
    L.sideOrders side=L.orders.filter fun o => o.pair=side := by
  rw [orders,List.filter_map]
  rfl

theorem sameOrders_of_orders {L L' : Ledger} (h : L.orders=L'.orders) : SameOrders L L' :=
  fun side => by rw [sideOrders_orders,sideOrders_orders,h]

theorem orders_withoutId (free : List SlotIndex) :
    orders ⟨withoutId L.live id,free⟩=L.orders.filter fun o => o.id≠id := by
  rw [orders,orders,List.filter_map]
  rfl

theorem orders_setQuantity (quantity : Quantity) : (L.setQuantity id quantity).orders=
    L.orders.map fun o => if o.id=id then o.withQuantity quantity else o := by
  simp only [orders,setQuantity,List.map_map]
  refine List.map_congr_left fun p _ => ?_
  simp only [Function.comp_apply]
  split_ifs <;> rfl

end Orders

namespace SameList

theorem sameOrders (h : SameList L L') : SameOrders L L' := sameOrders_of_orders h.orders

theorem total_eq (h : SameList L L') (k : LevelKey) : L.total k=L'.total k :=
  total_local (h.sameOrders _)

theorem order_eq (h : SameList L L') (id : OrderId) : L.order id=L'.order id := by
  rw [order_eq_find,order_eq_find,h.orders]

theorem isSome_eq (h : SameList L L') (id : OrderId) :
    (L.lookup id).isSome=(L'.lookup id).isSome := by
  rw [order_isSome,order_isSome,h.order_eq]

/-- An id is found in both ledgers, with one order, or in neither. -/
theorem lookup_cases (h : SameList L L') (id : OrderId) :
    L.lookup id=none ∧ L'.lookup id=none ∨
      ∃ p p', L.lookup id=some p ∧ L'.lookup id=some p' ∧ p.2=p'.2 := by
  have he := h.order_eq id
  unfold Ledger.order at he
  cases hl : L.lookup id with
  | none =>
    rw [hl] at he
    exact .inl ⟨rfl,Option.map_eq_none_iff.mp he.symm⟩
  | some p =>
    rw [hl] at he
    obtain ⟨p',hp',heq⟩ := Option.map_eq_some_iff.mp he.symm
    exact .inr ⟨p,p',rfl,hp',heq.symm⟩

theorem add (h : SameList L L') (o : Order) :
    (L.add o).2=(L'.add o).2 ∧ SameList (L.add o).1 (L'.add o).1 := by
  have hfree := h.free
  unfold Ledger.add
  rw [h.isSome_eq,h.total_eq]
  by_cases hrej : o.id=0 ∨ o.quantity=0 ∨ (L'.lookup o.id).isSome
  · rw [if_pos hrej,if_pos hrej]
    exact ⟨rfl,h⟩
  · rw [if_neg hrej,if_neg hrej]
    cases hf : L.free with
    | nil =>
      rw [hf] at hfree
      rw [List.length_eq_zero_iff.mp hfree.symm]
      exact ⟨rfl,h⟩
    | cons slot free =>
      cases hf' : L'.free with
      | nil =>
        rw [hf,hf'] at hfree
        cases hfree
      | cons slot' free' =>
        rw [hf,hf'] at hfree
        dsimp only
        split_ifs
        · exact ⟨rfl,h⟩
        · refine ⟨rfl,?_,Nat.succ_inj.mp hfree⟩
          have ho := h.orders
          simp only [Ledger.orders] at ho
          simp [Ledger.orders,ho]

theorem remove (h : SameList L L') (id : OrderId) :
    (L.remove id).2=(L'.remove id).2 ∧ SameList (L.remove id).1 (L'.remove id).1 := by
  unfold Ledger.remove
  rcases h.lookup_cases id with ⟨hl,hl'⟩ | ⟨p,p',hl,hl',-⟩
  · rw [hl,hl']
    exact ⟨rfl,h⟩
  · rw [hl,hl']
    refine ⟨rfl,?_,congrArg Nat.succ h.free⟩
    dsimp only
    rw [orders_withoutId,orders_withoutId,h.orders]

theorem reduce (h : SameList L L') (id : OrderId) (shares : Quantity) :
    (L.reduce id shares).2=(L'.reduce id shares).2 ∧
      SameList (L.reduce id shares).1 (L'.reduce id shares).1 := by
  unfold Ledger.reduce
  rcases h.lookup_cases id with ⟨hl,hl'⟩ | ⟨p,p',hl,hl',hp⟩
  · rw [hl,hl']
    exact ⟨rfl,h⟩
  · rw [hl,hl']
    dsimp only
    rw [hp]
    split_ifs
    · exact ⟨rfl,h⟩
    · exact h.remove id
    · refine ⟨rfl,?_,h.free⟩
      rw [orders_setQuantity,orders_setQuantity,h.orders]

theorem replace (h : SameList L L') (e : ReplaceEvent) :
    (L.replace e).2=(L'.replace e).2 ∧ SameList (L.replace e).1 (L'.replace e).1 := by
  have hwithout : ∀ free free', SameOrders ⟨withoutId L.live e.oldOrderId,free⟩
      ⟨withoutId L'.live e.oldOrderId,free'⟩ := fun free free' side => by
    rw [sideOrders_orders,sideOrders_orders,orders_withoutId,orders_withoutId,h.orders]
  unfold Ledger.replace
  rcases h.lookup_cases e.oldOrderId with ⟨hl,hl'⟩ | ⟨p,p',hl,hl',hp⟩
  · rw [hl,hl']
    exact ⟨rfl,h⟩
  · have htotal : sumQuantity (atKey (withoutId L.live e.oldOrderId) (replaced p'.2 e).key)=
        sumQuantity (atKey (withoutId L'.live e.oldOrderId) (replaced p'.2 e).key) :=
      total_local (hwithout [] [] _)
    rw [hl,hl']
    dsimp only
    rw [hp,h.isSome_eq,htotal]
    split_ifs
    · exact ⟨rfl,h⟩
    · exact ⟨rfl,h⟩
    · refine ⟨rfl,?_,h.free⟩
      have ho := (orders_withoutId L e.oldOrderId []).trans
        ((congrArg _ h.orders).trans (orders_withoutId L' e.oldOrderId []).symm)
      simp only [Ledger.orders] at ho
      simp [Ledger.orders,ho]

theorem apply (h : SameList L L') (e : MarketEvent) :
    (L.apply e).2=(L'.apply e).2 ∧ SameList (L.apply e).1 (L'.apply e).1 := by
  cases e with
  | add e => exact h.add e.order
  | execute e => exact h.reduce _ _
  | cancel e => exact h.reduce _ _
  | delete e => exact h.remove _
  | replace e => exact h.replace e

theorem run (h : SameList L L') (events : List MarketEvent) :
    SameList (L.run events) (L'.run events) := by
  induction events generalizing L L' with
  | nil => exact h
  | cons e rest ih => exact ih (h.apply e).2

end SameList

/-! Orders level by level. -/
section Grouped

/-- The live orders, level after level. -/
def grouped (L : Ledger) (ks : List LevelKey) : Ledger := ⟨ks.flatMap (atKey L.live),L.free⟩

/-- Every order rests at one of the levels. -/
def Covered (L : Ledger) (ks : List LevelKey) : Prop := ks.Nodup ∧ ∀ p∈L.live, p.2.key∈ks

theorem atKey_grouped {ks : List LevelKey} (hk : L.Covered ks) (k : LevelKey) :
    atKey (L.grouped ks).live k=atKey L.live k := by
  have hpick (k' : LevelKey) : atKey (atKey L.live k') k=if k'=k then atKey L.live k else [] := by
    rw [atKey,atKey,List.filter_filter]
    split_ifs with he
    · subst he
      simp [atKey]
    · refine List.filter_eq_nil_iff.mpr fun p _ hp => he ?_
      simp only [Bool.and_eq_true,decide_eq_true_eq] at hp
      exact hp.2.symm.trans hp.1
  have hgroup (ks : List LevelKey) : atKey (ks.flatMap (atKey L.live)) k=
      ks.flatMap fun k' => if k'=k then atKey L.live k else [] := by
    rw [atKey,List.filter_flatMap]
    exact List.flatMap_congr fun k' _ => hpick k'
  have hone (ks : List LevelKey) (hn : ks.Nodup) :
      (ks.flatMap fun k' => if k'=k then atKey L.live k else [])=
        if k∈ks then atKey L.live k else [] := by
    induction ks with
    | nil => rfl
    | cons k' rest ih =>
      obtain ⟨hnew,hrest⟩ := List.nodup_cons.mp hn
      rw [List.flatMap_cons,ih hrest]
      by_cases he : k'=k
      · subst he
        simp [hnew]
      · simp [he,Ne.symm he]
  rw [grouped,hgroup,hone ks hk.1]
  split_ifs with hmem
  · rfl
  · refine (List.filter_eq_nil_iff.mpr fun p hp hk' => hmem ?_).symm
    have he : p.2.key=k := by simpa using hk'
    exact he ▸ hk.2 p hp

/-- Two lists with the same levels hold the same orders. -/
theorem perm_of_atKey {l l' : List Placed} (h : ∀ k, atKey l k=atKey l' k) : l.Perm l' := by
  refine List.perm_iff_count.mpr fun p => ?_
  have hcount (l : List Placed) : (atKey l p.2.key).count p=l.count p :=
    List.count_filter (by simp)
  rw [← hcount l,← hcount l',h]

theorem Covered.length_eq {ks : List LevelKey} (hk : L.Covered ks) :
    (L.grouped ks).live.length=L.live.length := (perm_of_atKey (atKey_grouped hk)).length_eq

end Grouped

/-! Additions. -/
section Adds

/-- What some orders come to at a level. -/
def quantityAt (os : List Order) (k : LevelKey) : Nat :=
  ((os.filter fun o => o.key=k).map fun o => o.quantity.toNat).sum

theorem total_eq_quantityAt (L : Ledger) (k : LevelKey) : L.total k=quantityAt L.orders k := by
  rw [total,sumQuantity_eq_map,atKey_orders]
  rfl

/-- Orders that fit are all added, one behind the other. -/
theorem run_adds {os : List Order} (hids : ((L.orders++os).map Order.id).Nodup)
    (h0 : ∀ o∈os, o.id≠0 ∧ o.quantity≠0) (hfree : os.length≤L.free.length)
    (hfit : ∀ k, quantityAt (L.orders++os) k≤quantityMax.toNat) :
    (∀ a∈L.answers (os.map fun o => .add ⟨default,o⟩), a=true) ∧
      (L.run (os.map fun o => .add ⟨default,o⟩)).orders=L.orders++os ∧
      (L.run (os.map fun o => .add ⟨default,o⟩)).free.length+os.length=L.free.length := by
  induction os generalizing L with
  | nil => exact ⟨by simp [answers],by simp [run],rfl⟩
  | cons o rest ih =>
    obtain ⟨ho,hrest⟩ := List.forall_mem_cons.mp h0
    obtain ⟨slot,free,hf⟩ : ∃ slot free, L.free=slot::free :=
      List.exists_cons_of_length_pos (by rw [List.length_cons] at hfree; omega)
    have hnew : L.lookup o.id=none := by
      refine lookup_eq_none.mpr fun p hp he => ?_
      rw [List.map_append,List.nodup_append] at hids
      exact hids.2.2 _ (List.mem_map_of_mem (List.mem_map_of_mem hp)) _
        (List.mem_map_of_mem List.mem_cons_self) he
    have htotal : L.total o.key+o.quantity.toNat≤quantityMax.toNat := by
      have hk := hfit o.key
      rw [total_eq_quantityAt]
      simp only [quantityAt,List.filter_append,List.map_append,List.sum_append] at hk ⊢
      rw [List.filter_cons_of_pos (by simp),List.map_cons,List.sum_cons] at hk
      omega
    have hadd := Addable.add ⟨ho.1,ho.2,hnew,htotal⟩ hf
    have horders : orders ⟨L.live++[(slot,o)],free⟩=L.orders++[o] := by simp [orders]
    have hsplit : L.orders++o::rest=L.orders++[o]++rest := by simp
    rw [hsplit,← horders] at hids hfit
    rw [hf,List.length_cons,List.length_cons] at hfree
    obtain ⟨hall,hrun,hlen⟩ := ih (L := ⟨L.live++[(slot,o)],free⟩) hids hrest
      (Nat.le_of_succ_le_succ hfree) hfit
    rw [List.map_cons,answers,List.forall_mem_cons]
    simp only [run,List.foldl_cons,apply,hadd] at hrun hlen ⊢
    refine ⟨⟨trivial,hall⟩,?_,?_⟩
    · rw [hrun,horders,hsplit]
    · rw [hf,List.length_cons,List.length_cons]
      omega

end Adds
end Ledger

namespace Rep
variable {b b' : OrderBook} {L L' : Ledger}

/-- A book does not tell in which order orders of different levels came. -/
theorem reorder (h : Rep b L) {live : List Placed} (hk : ∀ k, atKey live k=atKey L.live k) :
    Rep b ⟨live,L.free⟩ := by
  have hperm := Ledger.perm_of_atKey hk
  have hmem {p : Placed} : p∈live ↔ p∈L.live := hperm.mem_iff
  have hslots : (Ledger.slots ⟨live,L.free⟩).Perm L.slots :=
    (hperm.map Prod.fst).append (List.Perm.refl _)
  refine ⟨⟨?_,?_,?_⟩,h.bound,⟨h.index.wf,h.index.cap,fun id s => ?_⟩,⟨?_,h.arena.blank,h.arena.chain⟩,
    ⟨?_,fun k => ?_⟩,h.tight⟩
  · exact hslots.nodup_iff.mpr h.placement.nodup
  · exact fun s => hslots.mem_iff.trans (h.placement.cover s)
  · exact (hperm.map fun p => p.2.id).nodup_iff.mpr h.placement.ids
  · rw [h.index.find]
    exact exists_congr fun o => and_congr_left fun _ => hmem.symm
  · exact fun p hp => h.arena.flags p (hmem.mp hp)
  · exact fun p hp => h.links.order p (hmem.mp hp)
  · have hl := h.links.level k
    unfold LevelRep at hl ⊢
    rw [queueOf] at hl ⊢
    rw [hk]
    exact hl

/-- What a book shows of some symbols are its orders, level after level. -/
theorem restore_eq (h : Rep b L) (symbols : List Symbol) :
    b.restore symbols=(L.grouped (b.levelKeys symbols)).orders.map fun o => .add ⟨default,o⟩ := by
  have hids (k : LevelKey) : ((atKey L.live k).map fun p => p.2.id).filterMap b.find=
      (atKey L.live k).map Prod.snd := by
    rw [List.filterMap_map,← List.filterMap_eq_map]
    refine List.filterMap_congr fun p hp => ?_
    have hl := h.placement.lookup_eq_some.mpr ⟨((mem_atKey _ _ _).mp hp).1,rfl⟩
    simp only [Function.comp_apply]
    rw [h.find_order,hl]
    rfl
  simp only [OrderBook.restore,h.sideLevels_eq,Option.getD_some,OrderBook.levelKeys,Ledger.grouped,
    Ledger.orders,List.map_flatMap,List.flatMap_map,List.flatMap_assoc,Ledger.snapshotAt,hids]

theorem covered (h : Rep b L) {symbols : List Symbol} (hsymbols : symbols.Nodup)
    (hall : ∀ id o, b.find id=some o → o.symbol∈symbols) : L.Covered (b.levelKeys symbols) := by
  have hin {symbol : Symbol} {side : Side} {k : LevelKey}
      (hk : k∈(b.prices side symbol).map fun price => (⟨symbol,side,price⟩ : LevelKey)) :
      k.symbol=symbol ∧ k.side=side := by
    obtain ⟨price,-,rfl⟩ := List.mem_map.mp hk
    exact ⟨rfl,rfl⟩
  have hin' {symbol : Symbol} {k : LevelKey}
      (hk : k∈[Side.buy,.sell].flatMap fun side => (b.prices side symbol).map fun price =>
        (⟨symbol,side,price⟩ : LevelKey)) : k.symbol=symbol := by
    obtain ⟨side,-,hk⟩ := List.mem_flatMap.mp hk
    exact (hin hk).1
  constructor
  · refine List.nodup_flatMap.mpr ⟨fun symbol _ => ?_,hsymbols.imp fun hne => ?_⟩
    · refine List.nodup_flatMap.mpr ⟨fun side _ => ?_,?_⟩
      · exact (SortedMap.keys_nodup _).map fun a c he => (LevelKey.mk.inj he).2.2
      · have hsides : [Side.buy,.sell].Nodup := by decide
        refine hsides.imp fun hne k hk hk' => ?_
        exact hne ((hin hk).2.symm.trans (hin hk').2)
    · intro k hk hk'
      exact hne ((hin' hk).symm.trans (hin' hk'))
  · intro p hp
    have hfind : b.find p.2.id=some p.2 := by
      rw [h.find_order,h.placement.lookup_eq_some.mpr ⟨hp,rfl⟩]
      rfl
    have hprice : p.2.price∈b.prices p.2.side p.2.symbol :=
      h.mem_prices.mpr (List.ne_nil_of_mem ((mem_atKey _ _ _).mpr ⟨hp,rfl⟩))
    refine List.mem_flatMap.mpr ⟨_,hall _ _ hfind,List.mem_flatMap.mpr ⟨p.2.side,?_,?_⟩⟩
    · cases p.2.side <;> simp
    · exact List.mem_map_of_mem hprice

/-- Books with the same orders in the same sequence stay alike. -/
theorem run_alike (h : Rep b L) (h' : Rep b' L') (hs : L.SameList L') (later : List MarketEvent) :
    (b.run later).SameView (b'.run later) ∧
      ∀ e, ((b.run later).apply e).2=((b'.run later).apply e).2 := by
  have hr := h.run later
  have hr' := h'.run later
  have hsr := hs.run later
  refine ⟨hr.sameView_of_sameOrders hr' hsr.sameOrders,fun e => ?_⟩
  rw [(hr.apply e).1,(hr'.apply e).1,(hsr.apply e).1]

end Rep

namespace OrderBook
variable {n n' : Nat} {b b' : OrderBook}

/-- Books of one capacity that show the same orders and levels answer alike ever after, whatever
they have been through. -/
theorem shown_decides (hb : Reachable n b) (hb' : Reachable n b')
    (hfind : ∀ id, b.find id=b'.find id)
    (hlevels : ∀ side symbol, b.sideLevels side symbol=b'.sideLevels side symbol)
    (later : List MarketEvent) :
    (b.run later).SameView (b'.run later) ∧
      ∀ e, ((b.run later).apply e).2=((b'.run later).apply e).2 := by
  obtain ⟨L,h,hw⟩ := hb.rep
  obtain ⟨L',h',hw'⟩ := hb'.rep
  have hall : ∀ id o, b.find id=some o → o.symbol∈b.books.keys := by
    intro id o ho
    rw [h.find_order] at ho
    obtain ⟨p,hp,rfl⟩ := Option.map_eq_some_iff.mp ho
    have hlive := (h.placement.lookup_eq_some.mp hp).1
    exact h.mem_symbols.mpr ⟨_,_,List.ne_nil_of_mem ((mem_atKey _ _ _).mpr ⟨hlive,rfl⟩)⟩
  have hsymbols := SortedMap.keys_nodup b.books
  have hc := h.covered hsymbols hall
  have hc' := h'.covered hsymbols fun id o ho => hall id o ((hfind id).trans ho)
  have hrestore : b.restore b.books.keys=b'.restore b.books.keys := by
    rw [restore,restore,funext hfind]
    simp only [hlevels]
  rw [h.restore_eq,h'.restore_eq] at hrestore
  have horders := List.map_injective_iff.mpr (fun o o' he => by cases he; rfl) hrestore
  have hn : n≤2^32 := hb.bounds.2.le.trans (by decide)
  have hlive := hc.length_eq
  have hlive' := hc'.length_eq
  have hlen := congrArg List.length horders
  rw [Ledger.orders,Ledger.orders,List.length_map,List.length_map] at hlen
  refine (h.reorder (Ledger.atKey_grouped hc)).run_alike (h'.reorder (Ledger.atKey_grouped hc'))
    ⟨horders,?_⟩ later
  have h1 := hw.length hn
  have h2 := hw'.length hn
  dsimp only
  omega

/-- An order that came second, and one that came alone. -/
theorem shown_decides_two : ∃ b b', Reachable 4 b ∧ Reachable 4 b' ∧ b.freeHead≠b'.freeHead ∧
    ∀ later, (b.run later).SameView (b'.run later) := by
  obtain ⟨b,hb⟩ := create_isOk (n := 4) (by decide) (by decide)
  let o7 : MarketEvent := .add ⟨default,⟨7,Symbol.fromPadded [65],.buy,5,100⟩⟩
  let o8 : MarketEvent := .add ⟨default,⟨8,Symbol.fromPadded [65],.buy,6,100⟩⟩
  have hview : (b.run [o7,o8,.delete ⟨default,7⟩]).SameView (b.run [o8]) :=
    ((create_rep hb).run _).sameView_of_sameOrders ((create_rep hb).run _)
      (Ledger.sameOrders_of_orders (by decide +kernel))
  refine ⟨_,_,(Reachable.create hb).run [o7,o8,.delete ⟨default,7⟩],(Reachable.create hb).run [o8],
    ?_,fun later => (shown_decides ((Reachable.create hb).run _) ((Reachable.create hb).run _)
      hview.find (fun side symbol => ?_) later).1⟩
  · obtain ⟨_,_,rfl⟩ := create_ok hb
    decide +kernel
  · cases side with
    | buy => exact hview.bidLevels symbol
    | sell => exact hview.askLevels symbol

/-- A book rebuilt in a fresh one from what it shows reads the same and, if the capacities agree,
answers alike ever after. -/
theorem restore_same (hb : Reachable n b) {b0 : OrderBook} (hb0 : create n'=.ok b0)
    {symbols : List Symbol} (hsymbols : symbols.Nodup)
    (hall : ∀ id o, b.find id=some o → o.symbol∈symbols) (hcap : b.liveOrderCount≤n') :
    b0.AcceptsAll (b.restore symbols) ∧ b.SameView (b0.run (b.restore symbols)) ∧
      (n=n' → ∀ later, (b.run later).SameView ((b0.run (b.restore symbols)).run later) ∧
        ∀ e, ((b.run later).apply e).2=(((b0.run (b.restore symbols)).run later).apply e).2) := by
  obtain ⟨L,h,hw⟩ := hb.rep
  have hc := h.covered hsymbols hall
  have hgrouped := h.reorder (Ledger.atKey_grouped hc)
  have hfresh := create_rep hb0
  have hperm := Ledger.perm_of_atKey (Ledger.atKey_grouped hc)
  have hlive := hc.length_eq
  rw [h.liveOrderCount_eq] at hcap
  have hlength : (L.grouped (b.levelKeys symbols)).orders.length=L.live.length := by
    rw [Ledger.orders,List.length_map,hlive]
  have hids : ((Ledger.fresh n').orders++(L.grouped (b.levelKeys symbols)).orders).map Order.id=
      (L.grouped (b.levelKeys symbols)).live.map fun p => p.2.id := by
    simp [Ledger.fresh,Ledger.orders,Function.comp_def]
  obtain ⟨hadds,horders,hfree⟩ := Ledger.run_adds
    (show (((Ledger.fresh n').orders++(L.grouped (b.levelKeys symbols)).orders).map Order.id).Nodup
      from hids ▸ hgrouped.placement.ids)
    (fun o ho => by
      obtain ⟨p,hp,rfl⟩ := List.mem_map.mp ho
      have hp := hperm.mem_iff.mp hp
      exact ⟨hw.id_ne_zero p hp,hw.quantity_ne_zero p hp⟩)
    (by rw [hlength]; simpa [Ledger.fresh] using hcap)
    (fun k => by
      have ht := hw.total_le k
      rw [Ledger.total,← Ledger.atKey_grouped hc,← Ledger.total,Ledger.total_eq_quantityAt] at ht
      simpa [Ledger.fresh,Ledger.orders] using ht)
  have hrun := hfresh.run (b.restore symbols)
  rw [← h.restore_eq] at hadds horders hfree
  have hsame : (L.grouped (b.levelKeys symbols)).orders=
      ((Ledger.fresh n').run (b.restore symbols)).orders := by
    rw [horders]
    simp [Ledger.fresh,Ledger.orders]
  refine ⟨(hfresh.acceptsAll_iff _).mpr hadds,
    hgrouped.sameView_of_sameOrders hrun (Ledger.sameOrders_of_orders hsame),fun hn later => ?_⟩
  refine hgrouped.run_alike hrun ⟨hsame,?_⟩ later
  have hlen := hw.length (hb.bounds.2.le.trans (by decide))
  have hfull : (Ledger.fresh n').free.length=n' := by simp [Ledger.fresh]
  rw [hlength] at hfree
  change L.free.length=_
  omega

/-- One order of two is left, and moves to a smaller book. -/
theorem restore_same_one : ∃ b b0, Reachable 4 b ∧ create 1=.ok b0 ∧ b.liveOrderCount=1 ∧
    b.SameView (b0.run (b.restore [Symbol.fromPadded [65]])) := by
  obtain ⟨b,hb⟩ := create_isOk (n := 4) (by decide) (by decide)
  obtain ⟨b0,hb0⟩ := create_isOk (n := 1) (by decide) (by decide)
  let events : List MarketEvent := [.add ⟨default,⟨7,Symbol.fromPadded [65],.buy,5,100⟩⟩,
    .add ⟨default,⟨8,Symbol.fromPadded [65],.sell,6,101⟩⟩,.delete ⟨default,7⟩]
  have hr := (create_rep hb).run events
  have hlive : ∀ p∈((Ledger.fresh 4).run events).live, p.2.symbol∈[Symbol.fromPadded [65]] := by
    decide +kernel
  have hcount : (b.run events).liveOrderCount=1 := by
    rw [hr.liveOrderCount_eq]
    decide +kernel
  refine ⟨_,b0,(Reachable.create hb).run events,hb0,hcount,(restore_same
    ((Reachable.create hb).run events) hb0 (by decide) (fun id o ho => ?_) hcount.le).2.1⟩
  rw [hr.find_order] at ho
  obtain ⟨p,hp,rfl⟩ := Option.map_eq_some_iff.mp ho
  exact hlive p (hr.placement.lookup_eq_some.mp hp).1

end OrderBook
end MarketWire
