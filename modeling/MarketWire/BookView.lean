import MarketWire.BookRun
import MarketWire.Library.Outcome

/-! What a book shows, read off its ledger: prices best first, and for each price the
total and the orders in FIFO order. -/
namespace MarketWire
open Library

/-- The snapshot of one level. -/
def Ledger.snapshotAt (L : Ledger) (k : LevelKey) : LevelSnapshot :=
  ⟨k.price,UInt32.ofNat (L.total k),(atKey L.live k).map fun p => p.2.id⟩

/-- The prices of one side of a symbol, in iteration order. -/
def OrderBook.prices (b : OrderBook) (side : Side) (symbol : Symbol) : List Price :=
  ((b.books.bookOf symbol).levels side).keys

namespace Rep
variable {b : OrderBook} {L : Ledger}

theorem prices_sorted (side : Side) (symbol : Symbol) :
    (b.prices side symbol).Pairwise side.lt :=
  List.pairwise_map.mpr ((b.books.bookOf symbol).levels side).sorted

theorem level_isSome_iff (h : Rep b L) (k : LevelKey) :
    (b.books.level? k).isSome ↔ atKey L.live k≠[] := by
  have hrep := h.links.level k
  cases hl : b.books.level? k with
  | none =>
    rw [hl] at hrep
    simpa using (show atKey L.live k=[] from hrep)
  | some level =>
    rw [hl] at hrep
    simpa using hrep.1

theorem mem_prices (h : Rep b L) {side : Side} {symbol : Symbol} {price : Price} :
    price∈b.prices side symbol ↔ atKey L.live ⟨symbol,side,price⟩≠[] := by
  rw [OrderBook.prices,SortedMap.mem_keys,← h.level_isSome_iff,Books.level?_eq_bookOf]

theorem total_eq (h : Rep b L) {k : LevelKey} {level : PriceLevel}
    (hl : b.books.level? k=some level) : level.totalQuantity=UInt32.ofNat (L.total k) := by
  have ht := (h.links.level k).dlist.2
  rw [hl,Option.getD_some] at ht
  rw [Ledger.total,← ht,UInt32.ofNat_toNat]

/-- Walking a level visits its queue and stops. -/
theorem fifo_eq (h : Rep b L) {k : LevelKey} {level : PriceLevel}
    (hl : b.books.level? k=some level) : b.fifo level=some (queueOf L.live k) := by
  have hq := (h.queue_eq.mpr ⟨hl,rfl⟩ : b.Queue k level _)
  refine hq.2.walk_eq _ ?_
  have hlen : (queueOf L.live k).length≤L.live.length := by
    rw [queueOf,List.length_map]
    exact List.length_filter_le _ _
  have hlive := h.live_length
  omega

theorem queue_ids (h : Rep b L) (k : LevelKey) :
    ((queueOf L.live k).map fun i => (b.slots.slotAt i).order.id)=
      (atKey L.live k).map fun p => p.2.id := by
  rw [queueOf,List.map_map]
  refine List.map_congr_left fun p hp => ?_
  simp only [Function.comp_apply]
  rw [h.links.order p ((mem_atKey _ _ _).mp hp).1]

theorem snapshot_eq (h : Rep b L) {k : LevelKey} {level : PriceLevel}
    (hl : b.books.level? k=some level) :
    b.snapshot (k.price,level)=some (L.snapshotAt k) := by
  rw [OrderBook.snapshot,h.fifo_eq hl,Option.map_some,h.queue_ids,h.total_eq hl]
  rfl

/-- The entries of one side of a symbol book are its levels. -/
theorem level_of_entry {symbol : Symbol} {book : SymbolBook} {side : Side}
    {entry : Price×PriceLevel} (hb : b.books.find? symbol=some book)
    (he : entry∈(book.levels side).entries) :
    b.books.level? ⟨symbol,side,entry.1⟩=some entry.2 := by
  simpa [Books.level?,hb] using (SortedMap.mem_entries _ _ _).mp he

theorem sideLevels_eq (h : Rep b L) (side : Side) (symbol : Symbol) :
    b.sideLevels side symbol=
      some ((b.prices side symbol).map fun price => L.snapshotAt ⟨symbol,side,price⟩) := by
  unfold OrderBook.sideLevels OrderBook.prices Books.bookOf
  cases hb : b.books.find? symbol with
  | none => cases side <;> rfl
  | some book =>
    rw [Option.getD_some,SortedMap.keys,List.map_map]
    exact mapM_eq_some_map fun entry he => h.snapshot_eq (level_of_entry hb he)

theorem bestPrice_eq (side : Side) (symbol : Symbol) :
    b.bestPrice side symbol=(b.prices side symbol).head? := by
  unfold OrderBook.bestPrice OrderBook.prices Books.bookOf
  cases b.books.find? symbol with
  | none => cases side <;> rfl
  | some book => simp [SortedMap.keys,SortedMap.first?]

theorem find_order (h : Rep b L) (id : OrderId) : b.find id=(L.lookup id).map Prod.snd := by
  rw [OrderBook.find,h.find_eq]
  cases hp : L.lookup id with
  | none => rfl
  | some p =>
    obtain ⟨_,ho,_,_⟩ := h.find_of_lookup hp
    simp [ho]

end Rep
end MarketWire
