import MarketWire.BookView
import MarketWire.Library.PrefixCode

/-! The values behind `state_hash`. The visible book is read off the links of its levels,
and the fed sequence encodes it; levels carry no order count and their end mark may also be
an order id, so reading them back relies on totals being sums of positive quantities. -/
namespace MarketWire
open Library

/-- A visible level: its orders stand first in, first out. -/
structure LevelView where
  price : Price
  totalQuantity : Quantity
  orders : List (OrderId×Quantity)
  deriving DecidableEq

structure BookView where
  symbol : Symbol
  bids : List LevelView
  asks : List LevelView
  deriving DecidableEq

namespace OrderBook
variable (b : OrderBook)

/-- The ids and quantities in the slots that the links visit from the head of a level on. -/
def ShowsOrders (level : PriceLevel) (orders : List (OrderId×Quantity)) : Prop :=
  ∃ slots, Chain kInvalidSlot (fun i => (b.slots.slotAt i).next) level.head slots ∧
    orders=slots.map fun i => ((b.slots.slotAt i).order.id,(b.slots.slotAt i).order.quantity)

structure ShowsLevel (entry : Price×PriceLevel) (v : LevelView) : Prop where
  price : v.price=entry.1
  total : v.totalQuantity=entry.2.totalQuantity
  orders : b.ShowsOrders entry.2 v.orders

structure ShowsBook (entry : Symbol×SymbolBook) (v : BookView) : Prop where
  symbol : v.symbol=entry.1
  bids : List.Forall₂ b.ShowsLevel entry.2.bids.entries v.bids
  asks : List.Forall₂ b.ShowsLevel entry.2.asks.entries v.asks

/-- The visible book: every symbol, and on each of its sides every level, in order. -/
def Visible (views : List BookView) : Prop := List.Forall₂ b.ShowsBook b.books.entries views

/-- The same symbols, and on each side of each symbol the same levels. -/
def SameVisible (b' : OrderBook) : Prop := ∃ views, b.Visible views ∧ b'.Visible views

variable {b}

theorem ShowsLevel.unique : Relator.RightUnique b.ShowsLevel := by
  rintro entry ⟨_,_,_⟩ ⟨_,_,_⟩ ⟨rfl,rfl,slots,hc,rfl⟩ ⟨rfl,rfl,slots',hc',rfl⟩
  rw [hc.unique hc']

theorem ShowsBook.unique : Relator.RightUnique b.ShowsBook := by
  rintro entry ⟨_,_,_⟩ ⟨_,_,_⟩ ⟨rfl,hb,ha⟩ ⟨rfl,hb',ha'⟩
  exact congrArg₂ (BookView.mk _) (List.right_unique_forall₂' ShowsLevel.unique hb hb')
    (List.right_unique_forall₂' ShowsLevel.unique ha ha')

/-- A book shows one thing. -/
theorem Visible.unique {views views' : List BookView} (h : b.Visible views) (h' : b.Visible views') :
    views=views' :=
  List.right_unique_forall₂' ShowsBook.unique h h'

end OrderBook

namespace LevelView

/-- The total is the sum of the quantities, none of which is zero. -/
def Valid (v : LevelView) : Prop :=
  v.totalQuantity.toNat=(v.orders.map fun p => p.2.toNat).sum ∧ ∀ p∈v.orders, p.2≠0

def encodeOrder (p : OrderId×Quantity) : List UInt64 := [p.1,p.2.toUInt64]

def encode (v : LevelView) : List UInt64 :=
  v.price.toUInt64::v.totalQuantity.toUInt64::(v.orders.flatMap encodeOrder++
    [kInvalidSlot.toUInt64])

end LevelView

/-- One side of a symbol book: its tag, its number of levels, its levels. -/
def encodeSide (side : Side) (levels : List LevelView) : List UInt64 :=
  side.toUInt64::UInt64.ofNat levels.length::levels.flatMap LevelView.encode

def BookView.encode (v : BookView) : List UInt64 :=
  (v.symbol.bytes.toList.map UInt8.toUInt64++encodeSide .buy v.bids)++encodeSide .sell v.asks

def encodeBooks (books : List BookView) : List UInt64 :=
  UInt64.ofNat books.length::books.flatMap BookView.encode

theorem toUInt64_inj {a b : UInt32} (h : a.toUInt64=b.toUInt64) : a=b := by
  have hn := congrArg UInt64.toNat h
  rw [UInt32.toNat_toUInt64,UInt32.toNat_toUInt64] at hn
  exact UInt32.toNat_inj.mp hn

/-- Order lists with equal totals end at the same place, although their end mark may
occur among the ids. -/
theorem encodeOrders_inj {xs ys : List (OrderId×Quantity)} {r r' : List UInt64}
    (hsum : (xs.map fun p => p.2.toNat).sum=(ys.map fun p => p.2.toNat).sum)
    (hx : ∀ p∈xs, p.2≠0) (hy : ∀ p∈ys, p.2≠0)
    (he : xs.flatMap LevelView.encodeOrder++r=ys.flatMap LevelView.encodeOrder++r') :
    xs=ys ∧ r=r' := by
  have hpos {p : OrderId×Quantity} (hp : p.2≠0) : 0<p.2.toNat :=
    Nat.pos_of_ne_zero fun h0 => hp (UInt32.toNat_inj.mp h0)
  induction xs generalizing ys with
  | nil =>
    cases ys with
    | nil => exact ⟨rfl,he⟩
    | cons y ys =>
      have := hpos (hy y (by simp))
      simp only [List.map_nil,List.sum_nil,List.map_cons,List.sum_cons] at hsum
      omega
  | cons x xs ih =>
    cases ys with
    | nil =>
      have := hpos (hx x (by simp))
      simp only [List.map_nil,List.sum_nil,List.map_cons,List.sum_cons] at hsum
      omega
    | cons y ys =>
      simp only [List.flatMap_cons,LevelView.encodeOrder,List.cons_append,List.nil_append,
        List.cons.injEq] at he
      obtain ⟨hid,hq,he⟩ := he
      have hxy : x=y := Prod.ext hid (toUInt64_inj hq)
      subst hxy
      simp only [List.map_cons,List.sum_cons,Nat.add_left_cancel_iff] at hsum
      obtain ⟨rfl,hr⟩ := ih hsum (fun p hp => hx p (List.mem_cons_of_mem x hp))
        (fun p hp => hy p (List.mem_cons_of_mem x hp)) he
      exact ⟨rfl,hr⟩

theorem LevelView.selfDelimiting : SelfDelimiting LevelView.Valid LevelView.encode := by
  rintro ⟨price,total,orders⟩ ⟨price',total',orders'⟩ r r' ⟨hsum,hpos⟩ ⟨hsum',hpos'⟩ he
  simp only [encode,List.cons_append,List.append_assoc,List.cons.injEq] at he
  obtain ⟨hp,ht,he⟩ := he
  obtain rfl := toUInt64_inj hp
  obtain rfl := toUInt64_inj ht
  obtain ⟨rfl,hr⟩ := encodeOrders_inj (hsum.symm.trans hsum') hpos hpos' he
  simp only [List.nil_append,List.cons.injEq,true_and] at hr
  exact ⟨rfl,hr⟩

theorem count_selfDelimiting :
    SelfDelimiting (fun n : Nat => n<2^64) (fun n => [UInt64.ofNat n]) := by
  refine SelfDelimiting.of_length (fun _ _ => rfl) fun x y hx hy he => ?_
  have hn := congrArg UInt64.toNat (List.cons.inj he).1
  rwa [UInt64.toNat_ofNat_of_lt' hx,UInt64.toNat_ofNat_of_lt' hy] at hn

/-- A side whose levels can be counted in 64 bits. -/
def ValidSide (levels : List LevelView) : Prop := levels.length<2^64 ∧ ∀ v∈levels, v.Valid

theorem encodeSide_selfDelimiting (side : Side) : SelfDelimiting ValidSide (encodeSide side) := by
  intro l l' r r' hl hl' he
  simp only [encodeSide,List.cons_append,List.cons.injEq,true_and] at he
  refine LevelView.selfDelimiting.counted count_selfDelimiting l l' r r' hl hl' ?_
  simpa using he

theorem symbol_selfDelimiting : SelfDelimiting (fun _ : Symbol => True)
    (fun symbol => symbol.bytes.toList.map UInt8.toUInt64) := by
  refine SelfDelimiting.of_length (n := 8) (fun x _ => by simp) fun x y _ _ he => ?_
  have hinj : Function.Injective UInt8.toUInt64 := by
    intro a b h
    have hn := congrArg UInt64.toNat h
    rw [UInt8.toNat_toUInt64,UInt8.toNat_toUInt64] at hn
    exact UInt8.toNat_inj.mp hn
  have hb : x.bytes.toList=y.bytes.toList := hinj.list_map he
  cases x
  cases y
  simpa [Vector.toList_inj] using hb

def BookView.Valid (v : BookView) : Prop := ValidSide v.bids ∧ ValidSide v.asks

theorem BookView.selfDelimiting : SelfDelimiting BookView.Valid BookView.encode := by
  have h := (symbol_selfDelimiting.pair (encodeSide_selfDelimiting .buy)).pair
    (encodeSide_selfDelimiting .sell)
  refine h.comap (f := fun v : BookView => ((v.symbol,v.bids),v.asks))
    (fun v hv => ⟨⟨trivial,hv.1⟩,hv.2⟩) fun v w _ _ he => ?_
  cases v
  cases w
  simp_all

/-- Different visible books are encoded differently. -/
theorem encodeBooks_inj {l l' : List BookView} (hl : l.length<2^64) (hv : ∀ v∈l, v.Valid)
    (hl' : l'.length<2^64) (hv' : ∀ v∈l', v.Valid) (he : encodeBooks l=encodeBooks l') : l=l' :=
  (BookView.selfDelimiting.counted count_selfDelimiting).injective ⟨hl,hv⟩ ⟨hl',hv'⟩ he

/-- A level of the ledger as `state_hash` sees it. -/
def Ledger.viewAt (L : Ledger) (k : LevelKey) : LevelView :=
  ⟨k.price,UInt32.ofNat (L.total k),(atKey L.live k).map fun p => (p.2.id,p.2.quantity)⟩

theorem Ledger.WF.viewAt_valid {L : Ledger} {n : Nat} (hw : L.WF n) (k : LevelKey) :
    (L.viewAt k).Valid := by
  have hlt : L.total k<UInt32.size := Nat.lt_of_le_of_lt (hw.total_le k) (by decide)
  constructor
  · simp only [viewAt]
    rw [UInt32.toNat_ofNat_of_lt' hlt,List.map_map]
    rfl
  · intro p hp
    obtain ⟨q,hq,rfl⟩ := List.mem_map.mp hp
    exact hw.quantity_ne_zero q ((mem_atKey _ _ _).mp hq).1

namespace Rep
variable {b : OrderBook} {L : Ledger} {n : Nat} {σ : Type} (mix : σ → UInt64 → σ)

/-- The views of one side of a symbol. -/
def sideView (b : OrderBook) (L : Ledger) (side : Side) (symbol : Symbol) : List LevelView :=
  (b.prices side symbol).map fun price => L.viewAt ⟨symbol,side,price⟩

/-- The links of a level visit its queue. -/
theorem showsLevel (h : Rep b L) {k : LevelKey} {level : PriceLevel}
    (hl : b.books.level? k=some level) : b.ShowsLevel (k.price,level) (L.viewAt k) := by
  have hq := (h.queue_eq.mpr ⟨hl,rfl⟩ : b.Queue k level _)
  refine ⟨rfl,(h.total_eq hl).symm,queueOf L.live k,hq.2,?_⟩
  rw [Ledger.viewAt,queueOf,List.map_map]
  refine List.map_congr_left fun p hp => ?_
  simp only [Function.comp_apply]
  rw [h.links.order p ((mem_atKey _ _ _).mp hp).1]

theorem showsLevels (h : Rep b L) {symbol : Symbol} {book : SymbolBook}
    (hb : b.books.find? symbol=some book) (side : Side) :
    List.Forall₂ b.ShowsLevel (book.levels side).entries (sideView b L side symbol) := by
  have hprices : b.prices side symbol=(book.levels side).keys := by
    simp [OrderBook.prices,Books.bookOf,hb]
  rw [sideView,hprices,SortedMap.keys,List.map_map,List.forall₂_map_right_iff]
  exact List.forall₂_same.mpr fun entry he => h.showsLevel (level_of_entry hb he)

theorem foldl_orders {l : List Placed} (hl : ∀ p∈l, (b.slots.slotAt p.1).order=p.2) (s : σ) :
    (l.map Prod.fst).foldl (fun h slot =>
        mix (mix h (b.slots.slotAt slot).order.id)
          (b.slots.slotAt slot).order.quantity.toUInt64) s=
      ((l.map fun p => (p.2.id,p.2.quantity)).flatMap LevelView.encodeOrder).foldl mix s := by
  induction l generalizing s with
  | nil => rfl
  | cons p rest ih =>
    simp only [List.map_cons,List.foldl_cons,List.flatMap_cons,List.foldl_append,
      LevelView.encodeOrder,List.foldl_nil]
    rw [hl p (by simp),ih fun q hq => hl q (List.mem_cons_of_mem p hq)]

/-- One level feeds its encoding. -/
theorem feedLevel_eq (h : Rep b L) {k : LevelKey} {level : PriceLevel}
    (hl : b.books.level? k=some level) (s : σ) :
    b.feedLevel mix s (k.price,level)=some ((L.viewAt k).encode.foldl mix s) := by
  have ho : ∀ p∈atKey L.live k, (b.slots.slotAt p.1).order=p.2 := fun p hp =>
    h.links.order p ((mem_atKey _ _ _).mp hp).1
  simp only [OrderBook.feedLevel,h.fifo_eq hl,Option.map_some,queueOf,h.total_eq hl]
  rw [foldl_orders mix ho]
  simp [LevelView.encode,Ledger.viewAt]

theorem feedLevels_eq (h : Rep b L) {symbol : Symbol} {book : SymbolBook}
    (hb : b.books.find? symbol=some book) (side : Side) (s : σ) :
    b.feedLevels mix side (book.levels side) s=
      some ((encodeSide side (sideView b L side symbol)).foldl mix s) := by
  have hprices : b.prices side symbol=(book.levels side).keys := by
    simp [OrderBook.prices,Books.bookOf,hb]
  have hlen : (sideView b L side symbol).length=(book.levels side).size := by
    simp [sideView,hprices,SortedMap.keys,SortedMap.size]
  unfold OrderBook.feedLevels
  dsimp only
  rw [foldlM_eq_some_foldl (g := fun s entry =>
    (L.viewAt ⟨symbol,side,entry.1⟩).encode.foldl mix s)]
  · rw [encodeSide,hlen,List.foldl_cons,List.foldl_cons,List.foldl_flatMap,sideView,hprices,
      SortedMap.keys,List.map_map,List.foldl_map]
    rfl
  · intro entry he s
    exact h.feedLevel_eq mix (level_of_entry hb he) s

/-- The visible book, symbol by symbol. -/
def bookViews (b : OrderBook) (L : Ledger) : List BookView :=
  b.books.keys.map fun symbol => ⟨symbol,sideView b L .buy symbol,sideView b L .sell symbol⟩

/-- The traversal of `state_hash` feeds the encoding of the visible book. -/
theorem feed_eq (h : Rep b L) (s : σ) :
    b.feed mix s=some ((encodeBooks (bookViews b L)).foldl mix s) := by
  have hlen : (bookViews b L).length=b.books.size := by
    simp [bookViews,SortedMap.keys,SortedMap.size]
  unfold OrderBook.feed
  rw [foldlM_eq_some_foldl (g := fun s entry =>
    (BookView.encode ⟨entry.1,sideView b L .buy entry.1,sideView b L .sell entry.1⟩).foldl mix s)]
  · rw [encodeBooks,hlen,List.foldl_cons,List.foldl_flatMap,bookViews,SortedMap.keys,
      List.map_map,List.foldl_map]
    rfl
  · intro entry he s
    have hb := (SortedMap.mem_entries _ _ _).mp he
    have hbuy := h.feedLevels_eq mix hb .buy
    have hsell := h.feedLevels_eq mix hb .sell
    simp only [SymbolBook.levels] at hbuy hsell
    simp only [OrderBook.feedBook,hbuy,hsell,Option.bind_some,BookView.encode,List.foldl_append,
      List.foldl_map]

theorem live_length_lt (h : Rep b L) : L.live.length<2^64 := by
  have hlen := h.live_length
  have hb := h.bound
  have hinv := toNat_kInvalidSlot
  omega

theorem prices_length (h : Rep b L) (side : Side) (symbol : Symbol) :
    (b.prices side symbol).length<2^64 := by
  have hsub : b.prices side symbol⊆L.live.map fun p => p.2.price := by
    intro price hp
    obtain ⟨p,hm⟩ := List.exists_mem_of_ne_nil _ (h.mem_prices.mp hp)
    obtain ⟨hl,hk⟩ := (mem_atKey _ _ _).mp hm
    exact List.mem_map.mpr ⟨p,hl,congrArg LevelKey.price hk⟩
  have hle := (List.subperm_of_subset (SortedMap.keys_nodup _) hsub).length_le
  have hlt := h.live_length_lt
  rw [List.length_map] at hle
  exact Nat.lt_of_le_of_lt hle hlt

/-- A stored symbol is one with a live order. -/
theorem mem_symbols (h : Rep b L) {symbol : Symbol} :
    symbol∈b.books.keys ↔ ∃ side price, atKey L.live ⟨symbol,side,price⟩≠[] := by
  rw [SortedMap.mem_keys]
  constructor
  · intro hs
    obtain ⟨book,hb⟩ := Option.isSome_iff_exists.mp hs
    have hne := h.tight symbol book hb
    rw [← Bool.not_eq_true,SymbolBook.isEmpty_iff] at hne
    push Not at hne
    obtain ⟨side,price,hl⟩ := hne
    refine ⟨side,price,(h.level_isSome_iff _).mp ?_⟩
    simpa [Books.level?,hb,Option.isSome_iff_ne_none] using hl
  · rintro ⟨side,price,hk⟩
    have hl := (h.level_isSome_iff _).mpr hk
    cases hb : b.books.find? symbol with
    | none => simp [Books.level?,hb] at hl
    | some book => rfl

theorem symbols_length (h : Rep b L) : b.books.keys.length<2^64 := by
  have hsub : b.books.keys⊆L.live.map fun p => p.2.symbol := by
    intro symbol hs
    obtain ⟨side,price,hk⟩ := h.mem_symbols.mp hs
    obtain ⟨p,hm⟩ := List.exists_mem_of_ne_nil _ hk
    obtain ⟨hp,hkey⟩ := (mem_atKey _ _ _).mp hm
    exact List.mem_map.mpr ⟨p,hp,congrArg LevelKey.symbol hkey⟩
  have hle := (List.subperm_of_subset b.books.keys_nodup hsub).length_le
  have hlt := h.live_length_lt
  rw [List.length_map] at hle
  exact Nat.lt_of_le_of_lt hle hlt

theorem bookViews_valid (h : Rep b L) (hw : L.WF n) : ∀ v∈bookViews b L, v.Valid := by
  have hside (side : Side) (symbol : Symbol) : ValidSide (sideView b L side symbol) := by
    refine ⟨by simpa [sideView] using h.prices_length side symbol,fun v hv => ?_⟩
    obtain ⟨price,_,rfl⟩ := List.mem_map.mp hv
    exact hw.viewAt_valid _
  intro v hv
  obtain ⟨symbol,_,rfl⟩ := List.mem_map.mp hv
  exact ⟨hside .buy symbol,hside .sell symbol⟩

theorem hashFeed_eq (h : Rep b L) : b.hashFeed=some (encodeBooks (bookViews b L)) := by
  have hid (l acc : List UInt64) : l.foldl (fun l v => l++[v]) acc=acc++l := by
    induction l generalizing acc with
    | nil => simp
    | cons x rest ih => rw [List.foldl_cons,ih,List.append_assoc,List.singleton_append]
  rw [OrderBook.hashFeed,h.feed_eq,hid,List.nil_append]

theorem visible (h : Rep b L) : b.Visible (bookViews b L) := by
  rw [OrderBook.Visible,bookViews,SortedMap.keys,List.map_map,List.forall₂_map_right_iff]
  refine List.forall₂_same.mpr fun entry he => ?_
  have hb := (SortedMap.mem_entries _ _ _).mp he
  exact ⟨rfl,h.showsLevels hb .buy,h.showsLevels hb .sell⟩

theorem bookViews_eq_iff {b' : OrderBook} {L' : Ledger} (h : Rep b L) (h' : Rep b' L') :
    bookViews b L=bookViews b' L' ↔ b.SameVisible b' := by
  constructor
  · intro he
    exact ⟨_,h.visible,he ▸ h'.visible⟩
  · rintro ⟨views,hv,hv'⟩
    rw [h.visible.unique hv,h'.visible.unique hv']

end Rep

namespace OrderBook

/-- `state_hash` mixes the encoding of the visible book, and two reachable books feed the
same sequence exactly when their visible books are the same. -/
theorem hashFeed_eq_iff_sameVisible {n n' : Nat} {b b' : OrderBook} (h : Reachable n b)
    (h' : Reachable n' b') :
    (∃ views, b.Visible views ∧ b.hashFeed=some (encodeBooks views) ∧
      b.stateHash=some ((encodeBooks views).foldl hashMix 0xcbf29ce484222325)) ∧
      (b.hashFeed=b'.hashFeed ↔ b.SameVisible b') ∧
      (b.SameVisible b' → b.stateHash=b'.stateHash) := by
  obtain ⟨L,hr,hw⟩ := h.rep
  obtain ⟨L',hr',hw'⟩ := h'.rep
  have hlen {b : OrderBook} {L : Ledger} (hr : Rep b L) :
      (Rep.bookViews b L).length<2^64 := by
    simpa [Rep.bookViews] using hr.symbols_length
  refine ⟨⟨_,hr.visible,hr.hashFeed_eq,hr.feed_eq hashMix _⟩,?_,fun hv => ?_⟩
  · rw [hr.hashFeed_eq,hr'.hashFeed_eq,Option.some.injEq,← hr.bookViews_eq_iff hr']
    exact ⟨encodeBooks_inj (hlen hr) (hr.bookViews_valid hw) (hlen hr') (hr'.bookViews_valid hw'),
      congrArg encodeBooks⟩
  · rw [stateHash,stateHash,hr.feed_eq,hr'.feed_eq,(hr.bookViews_eq_iff hr').mpr hv]

/-- Order `0xFFFFFFFF` alone, in the second slot of one book and the first slot of another, is
fed alike, and not like the same order with another quantity. -/
theorem hashFeed_eq_iff_sameVisible_mark : ∃ b b' b'', Reachable 2 b ∧ Reachable 1 b' ∧
    Reachable 1 b'' ∧
    b.hashFeed=some [1,0,0,0,0,0,0,0,0,0,1,100,7,0xFFFFFFFF,7,0xFFFFFFFF,1,0] ∧
    b.index.find 0xFFFFFFFF=some 1 ∧ b'.index.find 0xFFFFFFFF=some 0 ∧
    b.SameVisible b' ∧ b.stateHash=b'.stateHash ∧ ¬b.SameVisible b'' := by
  obtain ⟨b,hb⟩ := create_isOk (n := 2) (by decide) (by decide)
  obtain ⟨b',hb'⟩ := create_isOk (n := 1) (by decide) (by decide)
  let order : Order := ⟨0xFFFFFFFF,default,.buy,7,100⟩
  have h := (Reachable.create hb).run
    [.add ⟨default,⟨5,default,.sell,3,50⟩⟩,.add ⟨default,order⟩,.delete ⟨default,5⟩]
  have h' := (Reachable.create hb').run [.add ⟨default,order⟩]
  have h'' := (Reachable.create hb').run [.add ⟨default,{order with quantity := 8}⟩]
  obtain ⟨_,hsame,hhash⟩ := hashFeed_eq_iff_sameVisible h h'
  obtain ⟨_,hother,_⟩ := hashFeed_eq_iff_sameVisible h h''
  obtain ⟨_,_,rfl⟩ := create_ok hb
  obtain ⟨_,_,rfl⟩ := create_ok hb'
  have hv := hsame.mp (by decide +kernel)
  exact ⟨_,_,_,h,h',h'',by decide +kernel,by decide +kernel,by decide +kernel,hv,hhash hv,
    fun hne => absurd (hother.mpr hne) (by decide +kernel)⟩

end OrderBook
end MarketWire
