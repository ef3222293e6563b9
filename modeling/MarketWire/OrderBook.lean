import MarketWire.FlatOrderIndex
import MarketWire.Library.LinkedList
import MarketWire.Library.SortedMap

/-! The arena-backed order book: slots with a free list, intrusive FIFO links, the id
index and the nested level maps, updated in the order of the source. A reference into
a map is a lookup followed by a write back. The operations come with the points they pass at which
they could fail; their plain results are the first part of that. -/
namespace MarketWire
open Library

/-- How a book operation ends; `endDereferenced` stands for undefined behaviour. -/
inductive Outcome where
  | returned (accepted : Bool)
  | threw (e : Thrown)
  | endDereferenced
  deriving DecidableEq, Repr

/-- The three map insertions that may allocate. -/
inductive AllocPoint where
  | addSymbol
  | addLevel
  | replaceLevel
  deriving DecidableEq, Repr

structure PriceLevel where
  totalQuantity : Quantity := 0
  head : SlotIndex := kInvalidSlot
  tail : SlotIndex := kInvalidSlot
  deriving DecidableEq, Repr

abbrev Levels (side : Side) := SortedMap Price PriceLevel side.lt

structure SymbolBook where
  bids : Levels .buy := SortedMap.empty
  asks : Levels .sell := SortedMap.empty
  deriving DecidableEq

namespace SymbolBook

def levels (book : SymbolBook) : (side : Side) → Levels side
  | .buy => book.bids
  | .sell => book.asks

def withLevels (book : SymbolBook) : (side : Side) → Levels side → SymbolBook
  | .buy, levels => { book with bids := levels }
  | .sell, levels => { book with asks := levels }

def isEmpty (book : SymbolBook) : Bool := book.bids.isEmpty && book.asks.isEmpty

end SymbolBook

abbrev Books := SortedMap Symbol SymbolBook Symbol.lt

structure Slot where
  order : Order := default
  prev : SlotIndex := kInvalidSlot
  next : SlotIndex := kInvalidSlot
  nextFree : SlotIndex := kInvalidSlot
  alive : Bool := false
  deriving DecidableEq, Repr

abbrev Slots := List Slot

def Order.withQuantity (quantity : Quantity) (order : Order) : Order := { order with quantity }

namespace Slots

def slotAt (slots : Slots) (i : SlotIndex) : Slot := slots.getD i.toNat {}

def update (slots : Slots) (i : SlotIndex) (f : Slot → Slot) : Slots := slots.modify i.toNat f

def updateOrder (slots : Slots) (i : SlotIndex) (f : Order → Order) : Slots :=
  slots.update i fun s => { s with order := f s.order }

def linkAtTail (slots : Slots) (level : PriceLevel) (slot : SlotIndex) : Slots×PriceLevel :=
  let slots := slots.update slot fun s => { s with prev := level.tail, next := kInvalidSlot }
  if level.tail≠kInvalidSlot then
    (slots.update level.tail fun s => { s with next := slot },{ level with tail := slot })
  else (slots,{ level with head := slot, tail := slot })

def unlink (slots : Slots) (level : PriceLevel) (slot : SlotIndex) : Slots×PriceLevel :=
  let prev := (slots.slotAt slot).prev
  let next := (slots.slotAt slot).next
  let (slots,level) :=
    if prev≠kInvalidSlot then (slots.update prev fun s => { s with next },level)
    else (slots,{ level with head := next })
  let (slots,level) :=
    if next≠kInvalidSlot then (slots.update next fun s => { s with prev },level)
    else (slots,{ level with tail := prev })
  (slots.update slot fun s => { s with prev := kInvalidSlot, next := kInvalidSlot },level)

end Slots

structure OrderBook where
  slots : Slots
  freeHead : SlotIndex
  index : FlatOrderIndex splitMix64
  books : Books
  deriving DecidableEq

/-- A point at which an operation could fail, with what it met there: an insertion into the index, a
checked lookup, or an update of a quantity. -/
inductive Check where
  | inserted (ok : Bool)
  | found (ok : Bool)
  | subtracted (a b : Quantity)
  | added (a b : Quantity)
  | narrowed (v : UInt64)
  deriving DecidableEq

/-- A result with the points passed on the way to it. -/
abbrev Checked := (OrderBook×Outcome)×List Check

/-- Points passed before. -/
def Checked.after (checks : List Check) (r : Checked) : Checked := (r.1,checks++r.2)

structure LevelSnapshot where
  price : Price
  totalQuantity : Quantity
  fifoOrderIds : List OrderId
  deriving DecidableEq, Repr

/-- The address of a price level. -/
structure LevelKey where
  symbol : Symbol
  side : Side
  price : Price
  deriving DecidableEq, Repr

def Order.key (order : Order) : LevelKey := ⟨order.symbol,order.side,order.price⟩

def Books.level? (books : Books) (k : LevelKey) : Option PriceLevel :=
  (books.find? k.symbol).bind fun book => (book.levels k.side).find? k.price

/-- Write through a reference obtained by `at`. -/
def Books.setLevel (books : Books) (k : LevelKey) (level : PriceLevel) : Books :=
  match books.find? k.symbol with
  | none => books
  | some book =>
    books.set k.symbol (book.withLevels k.side ((book.levels k.side).set k.price level))

/-- Drop a symbol whose two sides have no level left. -/
def Books.eraseIfEmpty (books : Books) (symbol : Symbol) : Books :=
  match books.find? symbol with
  | none => books
  | some book => if book.isEmpty then books.erase symbol else books

def Books.eraseEmptyLevel (books : Books) (k : LevelKey) : Books :=
  match books.find? k.symbol with
  | none => books
  | some book =>
    let levels := book.levels k.side
    let book :=
      match levels.find? k.price with
      | some level =>
        if level.head=kInvalidSlot then book.withLevels k.side (levels.erase k.price) else book
      | none => book
    Books.eraseIfEmpty (books.set k.symbol book) k.symbol

def quantityMax : Quantity := 0xFFFFFFFF

theorem toNat_quantityMax : quantityMax.toNat=2^32-1 := rfl

namespace OrderBook

def create (maxOrders : Nat) : Except Thrown OrderBook :=
  if maxOrders=0 ∨ maxOrders≥kInvalidSlot.toNat then
    .error (.invalidArgument "max_orders must be between 1 and UINT32_MAX-1")
  else
    .ok
      { slots := (List.range maxOrders).map fun i =>
          { nextFree := if i+1 < maxOrders then UInt32.ofNat (i+1) else kInvalidSlot }
        freeHead := 0
        index := .create maxOrders
        books := .empty }

def allocateSlot (b : OrderBook) : OrderBook×SlotIndex :=
  if b.freeHead=kInvalidSlot then (b,kInvalidSlot)
  else
    let slot := b.freeHead
    ({ b with
        freeHead := (b.slots.slotAt slot).nextFree
        slots := b.slots.update slot fun s => { s with nextFree := kInvalidSlot, alive := true } },
      slot)

def releaseSlot (b : OrderBook) (slot : SlotIndex) : OrderBook :=
  { b with
    slots := b.slots.update slot fun _ => { nextFree := b.freeHead }
    freeHead := slot }

def eraseIndex (b : OrderBook) (id : OrderId) : OrderBook :=
  { b with index := (b.index.erase id).1 }

/-- The body of `add_to` on the levels of the order's side. -/
def addToChecked (fails : AllocPoint → Bool) (b : OrderBook) (book : SymbolBook) (order : Order)
    (slot : SlotIndex) : Checked :=
  let side := order.side
  let levels := book.levels side
  let inserted := (levels.find? order.price).isNone
  if inserted ∧ fails .addLevel then ((b,.threw .badAlloc),[])
  else
    let level := (levels.find? order.price).getD {}
    let levels := (levels.tryEmplace order.price {}).1
    if quantityMax-level.totalQuantity<order.quantity then
      let levels := if inserted then levels.erase order.price else levels
      (({ b with books := b.books.set order.symbol (book.withLevels side levels) },
        .returned false),[])
    else
      let checks : List Check := [.added level.totalQuantity order.quantity]
      let level := { level with totalQuantity := level.totalQuantity+order.quantity }
      let (slots,level) := b.slots.linkAtTail level slot
      let levels := levels.set order.price level
      (({ b with
          slots
          books := b.books.set order.symbol (book.withLevels side levels) },
        .returned true),checks)

def addTo (fails : AllocPoint → Bool) (b : OrderBook) (book : SymbolBook) (order : Order)
    (slot : SlotIndex) : OrderBook×Outcome :=
  (b.addToChecked fails book order slot).1

/-- The guarded part of `add`: `books_[symbol]`, then `add_to`. -/
def addLinkedChecked (fails : AllocPoint → Bool) (b : OrderBook) (order : Order)
    (slot : SlotIndex) : Checked :=
  match b.books.find? order.symbol with
  | some book => b.addToChecked fails book order slot
  | none =>
    if fails .addSymbol then ((b,.threw .badAlloc),[])
    else { b with books := b.books.set order.symbol {} }.addToChecked fails {} order slot

def addLinked (fails : AllocPoint → Bool) (b : OrderBook) (order : Order) (slot : SlotIndex) :
    OrderBook×Outcome :=
  (b.addLinkedChecked fails order slot).1

def addChecked (fails : AllocPoint → Bool) (b : OrderBook) (event : AddEvent) : Checked :=
  let order := event.order
  if order.id=0 ∨ order.quantity=0 ∨ (b.index.find order.id).isSome then ((b,.returned false),[])
  else
    let (b,slot) := b.allocateSlot
    if slot=kInvalidSlot then ((b,.returned false),[])
    else
      let b := { b with slots := b.slots.updateOrder slot fun _ => order }
      match b.index.insert order.id slot with
      | (index,false) => (({ b with index }.releaseSlot slot,.returned false),[.inserted false])
      | (index,true) =>
        Checked.after [.inserted true] <|
          match { b with index }.addLinkedChecked fails order slot with
          | ((b,.returned true),checks) => ((b,.returned true),checks)
          | ((b,.threw e),checks) =>
            let b := (b.eraseIndex order.id).releaseSlot slot
            (({ b with books := b.books.eraseIfEmpty order.symbol },.threw e),checks)
          | ((b,_),checks) =>
            let b := { b with books := b.books.eraseIfEmpty order.symbol }
            (((b.eraseIndex order.id).releaseSlot slot,.returned false),checks)

def add (fails : AllocPoint → Bool) (b : OrderBook) (event : AddEvent) : OrderBook×Outcome :=
  (b.addChecked fails event).1

/-- `books_.at` and then `at` of one side. -/
def levelChecks (b : OrderBook) (k : LevelKey) : List Check :=
  [.found (b.books.find? k.symbol).isSome,.found (b.books.level? k).isSome]

def removeOrderChecked (b : OrderBook) (id : OrderId) : Checked :=
  match b.index.find id with
  | none => ((b,.returned false),[])
  | some idx =>
    let order := (b.slots.slotAt idx).order
    Checked.after (b.levelChecks order.key) <|
      match b.books.level? order.key with
      | none => ((b,.threw .outOfRange),[])
      | some level =>
        let checks : List Check := [.subtracted level.totalQuantity order.quantity]
        let level := { level with totalQuantity := level.totalQuantity-order.quantity }
        let (slots,level) := b.slots.unlink level idx
        let b := { b with slots, books := b.books.setLevel order.key level }
        let b := (b.eraseIndex id).releaseSlot idx
        (({ b with books := b.books.eraseEmptyLevel order.key },.returned true),checks)

def removeOrder (b : OrderBook) (id : OrderId) : OrderBook×Outcome := (b.removeOrderChecked id).1

/-- The common body of `execute` and `cancel`. -/
def reduceChecked (b : OrderBook) (id : OrderId) (shares : Quantity) : Checked :=
  match b.index.find id with
  | none => ((b,.returned false),[])
  | some slot =>
    let order := (b.slots.slotAt slot).order
    if shares=0 ∨ shares>order.quantity then ((b,.returned false),[])
    else
      Checked.after (b.levelChecks order.key) <|
        match b.books.level? order.key with
        | none => ((b,.threw .outOfRange),[])
        | some level =>
          let checks : List Check :=
            [.subtracted level.totalQuantity shares,.subtracted order.quantity shares]
          let level := { level with totalQuantity := level.totalQuantity-shares }
          let quantity := order.quantity-shares
          let b :=
            { b with
              slots := b.slots.updateOrder slot (Order.withQuantity quantity)
              books := b.books.setLevel order.key level }
          Checked.after checks <|
            if quantity=0 then b.removeOrderChecked id else ((b,.returned true),[])

def reduce (b : OrderBook) (id : OrderId) (shares : Quantity) : OrderBook×Outcome :=
  (b.reduceChecked id shares).1

def execute (b : OrderBook) (event : ExecuteEvent) : OrderBook×Outcome :=
  b.reduce event.orderId event.executedShares

def cancel (b : OrderBook) (event : CancelEvent) : OrderBook×Outcome :=
  b.reduce event.orderId event.canceledShares

def erase (b : OrderBook) (event : DeleteEvent) : OrderBook×Outcome :=
  b.removeOrder event.orderId

/-- `replace_in` when the price does not change: the order moves to the tail of its level. -/
def replaceSamePriceChecked (b : OrderBook) (old : Order) (slot : SlotIndex)
    (event : ReplaceEvent) : Checked :=
  match b.books.level? old.key with
  | none => ((b,.endDereferenced),[])
  | some level =>
    let checks : List Check := [.subtracted level.totalQuantity old.quantity]
    let withoutOld := level.totalQuantity.toUInt64-old.quantity.toUInt64
    if withoutOld+event.newQuantity.toUInt64>quantityMax.toUInt64 then ((b,.returned false),checks)
    else
      match b.index.insert event.newOrderId slot with
      | (index,false) => (({ b with index },.returned false),checks++[.inserted false])
      | (index,true) =>
        let checks := checks++[.inserted true,.narrowed (withoutOld+event.newQuantity.toUInt64)]
        let (slots,level) := b.slots.unlink level slot
        let level :=
          { level with totalQuantity := (withoutOld+event.newQuantity.toUInt64).toUInt32 }
        let slots := slots.updateOrder slot fun o =>
          { o with id := event.newOrderId, quantity := event.newQuantity }
        let (slots,level) := slots.linkAtTail level slot
        let b := { b with slots, index, books := b.books.setLevel old.key level }
        ((b.eraseIndex event.oldOrderId,.returned true),checks)

def replaceSamePrice (b : OrderBook) (old : Order) (slot : SlotIndex) (event : ReplaceEvent) :
    OrderBook×Outcome :=
  (b.replaceSamePriceChecked old slot event).1

/-- `replace_in` when the price changes: the order leaves its level for another one. -/
def replaceNewPriceChecked (fails : AllocPoint → Bool) (b : OrderBook) (book : SymbolBook)
    (old : Order) (slot : SlotIndex) (event : ReplaceEvent) : Checked :=
  let side := old.side
  let levels := book.levels side
  let inserted := (levels.find? event.newPrice).isNone
  if inserted ∧ fails .replaceLevel then ((b,.threw .badAlloc),[])
  else
    let newLevel := (levels.find? event.newPrice).getD {}
    let levels := (levels.tryEmplace event.newPrice {}).1
    let undone := if inserted then levels.erase event.newPrice else levels
    let rejected (index : FlatOrderIndex splitMix64) : OrderBook×Outcome :=
      ({ b with index, books := b.books.set old.symbol (book.withLevels side undone) },
        .returned false)
    if quantityMax-newLevel.totalQuantity<event.newQuantity then (rejected b.index,[])
    else
      match b.index.insert event.newOrderId slot with
      | (index,false) => (rejected index,[.inserted false])
      | (index,true) =>
        Checked.after [.inserted true] <|
          match levels.find? old.price with
          | none => ((b,.endDereferenced),[])
          | some oldLevel =>
            let checks : List Check := [.subtracted oldLevel.totalQuantity old.quantity,
              .added newLevel.totalQuantity event.newQuantity]
            let (slots,oldLevel) := b.slots.unlink oldLevel slot
            let oldLevel :=
              { oldLevel with totalQuantity := oldLevel.totalQuantity-old.quantity }
            let slots := slots.updateOrder slot fun o =>
              { o with
                id := event.newOrderId, quantity := event.newQuantity, price := event.newPrice }
            let newLevel :=
              { newLevel with totalQuantity := newLevel.totalQuantity+event.newQuantity }
            let (slots,newLevel) := slots.linkAtTail newLevel slot
            let levels := (levels.set old.price oldLevel).set event.newPrice newLevel
            let levels := if oldLevel.head=kInvalidSlot then levels.erase old.price else levels
            let b :=
              { b with
                slots, index, books := b.books.set old.symbol (book.withLevels side levels) }
            ((b.eraseIndex event.oldOrderId,.returned true),checks)

def replaceNewPrice (fails : AllocPoint → Bool) (b : OrderBook) (book : SymbolBook) (old : Order)
    (slot : SlotIndex) (event : ReplaceEvent) : OrderBook×Outcome :=
  (b.replaceNewPriceChecked fails book old slot event).1

def replaceChecked (fails : AllocPoint → Bool) (b : OrderBook) (event : ReplaceEvent) : Checked :=
  match b.index.find event.oldOrderId with
  | none => ((b,.returned false),[])
  | some slot =>
    if event.newOrderId=0 ∨ event.newQuantity=0 ∨ (b.index.find event.newOrderId).isSome then
      ((b,.returned false),[])
    else
      let old := (b.slots.slotAt slot).order
      Checked.after (b.levelChecks old.key) <|
        match b.books.find? old.symbol with
        | none => ((b,.threw .outOfRange),[])
        | some book =>
          if old.price=event.newPrice then b.replaceSamePriceChecked old slot event
          else b.replaceNewPriceChecked fails book old slot event

def replace (fails : AllocPoint → Bool) (b : OrderBook) (event : ReplaceEvent) :
    OrderBook×Outcome :=
  (b.replaceChecked fails event).1

/-- `apply` with the points that it passes. -/
def applyChecked (fails : AllocPoint → Bool) (b : OrderBook) : MarketEvent → Checked
  | .add e => b.addChecked fails e
  | .execute e => b.reduceChecked e.orderId e.executedShares
  | .cancel e => b.reduceChecked e.orderId e.canceledShares
  | .delete e => b.removeOrderChecked e.orderId
  | .replace e => b.replaceChecked fails e

/-- `apply` when the allocations of `fails` throw. -/
def applyWith (fails : AllocPoint → Bool) (b : OrderBook) : MarketEvent → OrderBook×Outcome
  | .add e => b.add fails e
  | .execute e => b.execute e
  | .cancel e => b.cancel e
  | .delete e => b.erase e
  | .replace e => b.replace fails e

def apply (b : OrderBook) (event : MarketEvent) : OrderBook×Outcome :=
  b.applyWith (fun _ => false) event

/-- An event together with the allocations that fail while it is applied. -/
abbrev Step := (AllocPoint → Bool)×MarketEvent

/-- The book after events of which some may fail. -/
def runWith (b : OrderBook) (steps : List Step) : OrderBook :=
  steps.foldl (fun b s => (b.applyWith s.1 s.2).1) b

/-- The results of `apply`, one per event. -/
def outcomes (b : OrderBook) : List Step → List Outcome
  | [] => []
  | s::rest => (b.applyWith s.1 s.2).2::outcomes (b.applyWith s.1 s.2).1 rest

/-- The book after a finite sequence of events. -/
def run (b : OrderBook) (events : List MarketEvent) : OrderBook :=
  events.foldl (fun b e => (b.apply e).1) b

def find (b : OrderBook) (id : OrderId) : Option Order :=
  (b.index.find id).map fun slot => (b.slots.slotAt slot).order

def liveOrderCount (b : OrderBook) : Nat := b.index.size

def maxOrders (b : OrderBook) : Nat := b.slots.length

def bestPrice (b : OrderBook) (side : Side) (symbol : Symbol) : Option Price :=
  match b.books.find? symbol with
  | none => none
  | some book => (book.levels side).first?.map Prod.fst

def bestBid (b : OrderBook) (symbol : Symbol) : Option Price := b.bestPrice .buy symbol

def bestAsk (b : OrderBook) (symbol : Symbol) : Option Price := b.bestPrice .sell symbol

/-- The slots visited by following `next` from the head of a level. -/
def fifo (b : OrderBook) (level : PriceLevel) : Option (List SlotIndex) :=
  walk kInvalidSlot (fun i => (b.slots.slotAt i).next) b.slots.length level.head

def snapshot (b : OrderBook) (entry : Price×PriceLevel) : Option LevelSnapshot :=
  (b.fifo entry.2).map fun fifo =>
    ⟨entry.1,entry.2.totalQuantity,fifo.map fun i => (b.slots.slotAt i).order.id⟩

def sideLevels (b : OrderBook) (side : Side) (symbol : Symbol) : Option (List LevelSnapshot) :=
  match b.books.find? symbol with
  | none => some []
  | some book => (book.levels side).entries.mapM b.snapshot

def bidLevels (b : OrderBook) (symbol : Symbol) : Option (List LevelSnapshot) :=
  b.sideLevels .buy symbol

def askLevels (b : OrderBook) (symbol : Symbol) : Option (List LevelSnapshot) :=
  b.sideLevels .sell symbol

end OrderBook

def Side.toUInt64 : Side → UInt64
  | .buy => 0
  | .sell => 1

def hashMix (h value : UInt64) : UInt64 :=
  h^^^(value+(0x9e3779b97f4a7c15 : UInt64)+(h<<<(6 : UInt64))+(h>>>(2 : UInt64)))

namespace OrderBook
variable {σ : Type}

/-- One level of `hash_levels`, with the mixing function as a parameter. -/
def feedLevel (mix : σ → UInt64 → σ) (b : OrderBook) (h : σ) (entry : Price×PriceLevel) :
    Option σ :=
  let h := mix h entry.1.toUInt64
  let h := mix h entry.2.totalQuantity.toUInt64
  (b.fifo entry.2).map fun fifo =>
    let h := fifo.foldl (fun h slot =>
      let order := (b.slots.slotAt slot).order
      mix (mix h order.id) order.quantity.toUInt64) h
    mix h kInvalidSlot.toUInt64

def feedLevels (mix : σ → UInt64 → σ) (b : OrderBook) (side : Side) (levels : Levels side)
    (h : σ) : Option σ :=
  let h := mix h side.toUInt64
  let h := mix h (UInt64.ofNat levels.size)
  levels.entries.foldlM (b.feedLevel mix) h

def feedBook (mix : σ → UInt64 → σ) (b : OrderBook) (h : σ) (entry : Symbol×SymbolBook) :
    Option σ :=
  let h := entry.1.bytes.toList.foldl (fun h c => mix h c.toUInt64) h
  (b.feedLevels mix .buy entry.2.bids h).bind (b.feedLevels mix .sell entry.2.asks)

/-- The traversal of `state_hash`, feeding every value to `mix` in order. -/
def feed (mix : σ → UInt64 → σ) (b : OrderBook) (h : σ) : Option σ :=
  b.books.entries.foldlM (b.feedBook mix) (mix h (UInt64.ofNat b.books.size))

def stateHash (b : OrderBook) : Option UInt64 := b.feed hashMix 0xcbf29ce484222325

/-- The values that `state_hash` feeds to `hash_mix`, in order. -/
def hashFeed (b : OrderBook) : Option (List UInt64) := b.feed (fun l v => l++[v]) []

end OrderBook
end MarketWire
