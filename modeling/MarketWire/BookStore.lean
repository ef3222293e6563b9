import MarketWire.Ledger

/-! What each primitive update of the book does to slot lookups and level lookups.
Everything above this module reads the arena and the maps through those lookups. -/
namespace MarketWire
open Library

namespace Slots
variable {slots : Slots} {i j : SlotIndex} {f : Slot → Slot}

def nexts (slots : Slots) (i : SlotIndex) : SlotIndex := (slots.slotAt i).next

def prevs (slots : Slots) (i : SlotIndex) : SlotIndex := (slots.slotAt i).prev

def nextFrees (slots : Slots) (i : SlotIndex) : SlotIndex := (slots.slotAt i).nextFree

@[simp] theorem length_update : (slots.update i f).length=slots.length := by simp [update]

theorem slotAt_update (h : i.toNat<slots.length) :
    (slots.update i f).slotAt j=if j=i then f (slots.slotAt i) else slots.slotAt j := by
  by_cases hj : j=i
  · subst hj
    simp [slotAt,update,h]
  · have hn : j.toNat≠i.toNat := fun he => hj (UInt32.toNat_inj.mp he)
    simp [slotAt,update,hj,Ne.symm hn]

@[simp] theorem length_updateOrder {g : Order → Order} :
    (slots.updateOrder i g).length=slots.length := by
  simp [updateOrder]

/-- An order update leaves links and flags alone. -/
theorem slotAt_updateOrder (h : i.toNat<slots.length) (g : Order → Order) (j : SlotIndex) :
    (slots.updateOrder i g).slotAt j=
      { slots.slotAt j with
        order := if j=i then g (slots.slotAt i).order else (slots.slotAt j).order } := by
  rw [updateOrder,slotAt_update h]
  split_ifs with hj
  · rw [hj]
  · rfl

theorem nexts_updateOrder (h : i.toNat<slots.length) (g : Order → Order) :
    (slots.updateOrder i g).nexts=slots.nexts := by
  funext j
  simp [nexts,slotAt_updateOrder h]

theorem prevs_updateOrder (h : i.toNat<slots.length) (g : Order → Order) :
    (slots.updateOrder i g).prevs=slots.prevs := by
  funext j
  simp [prevs,slotAt_updateOrder h]

theorem ext_slotAt {slots slots' : Slots} (hlen : slots.length=slots'.length)
    (hb : slots.length≤2^32) (h : ∀ i : SlotIndex, i.toNat<slots.length →
      slots.slotAt i=slots'.slotAt i) : slots=slots' := by
  refine List.ext_getElem hlen fun n h1 h2 => ?_
  have hn : (UInt32.ofNat n).toNat=n := UInt32.toNat_ofNat_of_lt' (by
    simp only [UInt32.size]
    omega)
  have he := h (UInt32.ofNat n) (by omega)
  simpa [slotAt,hn,h1,h2] using he

end Slots

namespace SymbolBook
variable {book : SymbolBook} {side : Side}

@[simp] theorem levels_withLevels (levels : Levels side) :
    (book.withLevels side levels).levels side=levels := by
  cases side <;> rfl

@[simp] theorem withLevels_levels : book.withLevels side (book.levels side)=book := by
  cases side <;> rfl

theorem levels_withLevels_ne {side' : Side} (levels : Levels side) (h : side'≠side) :
    (book.withLevels side levels).levels side'=book.levels side' := by
  cases side <;> cases side' <;> first | rfl | exact absurd rfl h

theorem isEmpty_iff : book.isEmpty=true ↔ ∀ side price, (book.levels side).find? price=none := by
  rw [isEmpty,Bool.and_eq_true,SortedMap.isEmpty_iff,SortedMap.isEmpty_iff]
  constructor
  · rintro ⟨hb,ha⟩ side price
    cases side with
    | buy => exact hb price
    | sell => exact ha price
  · intro h
    exact ⟨h .buy,h .sell⟩

theorem isEmpty_eq_false {price : Price} {level : PriceLevel}
    (h : (book.levels side).find? price=some level) : book.isEmpty=false := by
  rw [← Bool.not_eq_true,isEmpty_iff]
  intro hn
  rw [hn side price] at h
  cases h

theorem ext_levels {book' : SymbolBook}
    (h : ∀ side price, (book.levels side).find? price=(book'.levels side).find? price) :
    book=book' := by
  cases book with
  | mk bids asks =>
    cases book' with
    | mk bids' asks' =>
      rw [mk.injEq]
      exact ⟨SortedMap.ext_find (h .buy),SortedMap.ext_find (h .sell)⟩

end SymbolBook

/-- A level left without orders disappears. -/
def PriceLevel.kept (level : PriceLevel) : Option PriceLevel :=
  if level.head=kInvalidSlot then none else some level

namespace Books
variable {books : Books} {k : LevelKey}

/-- No stored symbol book is without levels. -/
def Tight (books : Books) : Prop :=
  ∀ symbol book, books.find? symbol=some book → book.isEmpty=false

/-- The symbol book that `books_[symbol]` refers to. -/
def bookOf (books : Books) (symbol : Symbol) : SymbolBook := (books.find? symbol).getD {}

theorem level?_eq_bookOf (books : Books) (k : LevelKey) :
    books.level? k=((books.bookOf k.symbol).levels k.side).find? k.price := by
  unfold level? bookOf
  cases books.find? k.symbol with
  | none => cases hs : k.side <;> rfl
  | some book => rfl

/-- Replacing one side of one symbol book changes exactly the levels of that side. -/
theorem level?_set (books : Books) (symbol : Symbol) (side : Side) (levels : Levels side)
    (f : Price → Option PriceLevel) (hf : ∀ price, levels.find? price=f price) (k : LevelKey) :
    Books.level? (books.set symbol ((books.bookOf symbol).withLevels side levels)) k=
      if k.symbol=symbol ∧ k.side=side then f k.price else books.level? k := by
  obtain ⟨ksym,kside,kprice⟩ := k
  rw [level?_eq_bookOf books]
  simp only [level?,SortedMap.find?_set]
  by_cases hs : ksym=symbol
  · subst hs
    by_cases hd : kside=side
    · subst hd
      simp [hf]
    · simp [hd,SymbolBook.levels_withLevels_ne]
  · simp only [hs,false_and,if_false,bookOf]
    cases books.find? ksym with
    | none => cases kside <;> rfl
    | some book => rfl

/-- Changing one entry of one side. -/
theorem level?_put (books : Books) (k : LevelKey) (levels : Levels k.side)
    (level : Option PriceLevel)
    (hf : ∀ price, levels.find? price=if price=k.price then level
      else ((books.bookOf k.symbol).levels k.side).find? price) :
    Books.level? (books.set k.symbol ((books.bookOf k.symbol).withLevels k.side levels))=
      Function.update books.level? k level := by
  funext k'
  rw [level?_set books k.symbol k.side levels _ hf]
  obtain ⟨sym',side',price'⟩ := k'
  by_cases he : (⟨sym',side',price'⟩ : LevelKey)=k
  · subst he
    simp
  · rw [Function.update_of_ne he]
    by_cases hs : sym'=k.symbol ∧ side'=k.side
    · obtain ⟨rfl,rfl⟩ := hs
      have hp : price'≠k.price := fun h => he (by rw [h])
      simp [hp,level?_eq_bookOf]
    · simp [hs]

theorem level?_setLevel (h : books.level? k≠none) (level' : PriceLevel) :
    (books.setLevel k level').level?=Function.update books.level? k (some level') := by
  unfold setLevel
  cases hb : books.find? k.symbol with
  | none => simp [level?,hb] at h
  | some book =>
    have hbook : books.bookOf k.symbol=book := by simp [bookOf,hb]
    rw [← hbook]
    exact level?_put books k _ _ fun price => SortedMap.find?_set _ _ _ _

theorem Tight.set (ht : books.Tight) (symbol : Symbol) {book : SymbolBook}
    (hb : book.isEmpty=false) : Tight (books.set symbol book) := by
  intro sym bk h
  rw [SortedMap.find?_set] at h
  split_ifs at h with hs
  · rwa [← Option.some.inj h]
  · exact ht sym bk h

/-- A stored level keeps its symbol book from being empty. -/
theorem Tight.of_level {books' : Books} (ht : books.Tight)
    (hs : ∀ sym, sym≠k.symbol → books'.find? sym=books.find? sym) (hl : books'.level? k≠none) :
    books'.Tight := by
  intro sym book hb
  by_cases he : sym=k.symbol
  · rw [he] at hb
    obtain ⟨level,hlv⟩ := Option.ne_none_iff_exists'.mp hl
    exact SymbolBook.isEmpty_eq_false (by simpa [level?,hb] using hlv)
  · exact ht sym book (by rw [← hs sym he,hb])

/-- Nearly tight: only the named symbol may have lost its last level. -/
theorem tight_eraseIfEmpty (symbol : Symbol)
    (ht : ∀ sym book, sym≠symbol → books.find? sym=some book → book.isEmpty=false) :
    (books.eraseIfEmpty symbol).Tight := by
  unfold eraseIfEmpty
  intro sym bk h
  cases hb : books.find? symbol with
  | none =>
    simp only [hb] at h
    by_cases hs : sym=symbol
    · rw [hs,hb] at h
      cases h
    · exact ht sym bk hs h
  | some book =>
    simp only [hb] at h
    split_ifs at h with he
    · rw [SortedMap.find?_erase] at h
      split_ifs at h with hs
      exact ht sym bk hs h
    · by_cases hs : sym=symbol
      · rw [hs,hb] at h
        rw [← Option.some.inj h]
        simpa using he
      · exact ht sym bk hs h

theorem level?_eraseIfEmpty (books : Books) (symbol : Symbol) :
    (books.eraseIfEmpty symbol).level?=books.level? := by
  funext k
  unfold eraseIfEmpty
  cases hb : books.find? symbol with
  | none => rfl
  | some book =>
    dsimp only
    split_ifs with he
    · simp only [level?,SortedMap.find?_erase]
      split_ifs with hs
      · rw [hs,hb]
        simp [SymbolBook.isEmpty_iff.mp he]
      · rfl
    · rfl

/-- Levels determine tight books. -/
theorem Tight.ext {books' : Books} (ht : books.Tight) (ht' : books'.Tight)
    (h : books.level?=books'.level?) : books=books' := by
  have hlv (symbol : Symbol) (side : Side) (price : Price) :
      ((books.bookOf symbol).levels side).find? price=
        ((books'.bookOf symbol).levels side).find? price := by
    have he := congrFun h ⟨symbol,side,price⟩
    rwa [level?_eq_bookOf,level?_eq_bookOf] at he
  have hbook (symbol : Symbol) : books.bookOf symbol=books'.bookOf symbol :=
    SymbolBook.ext_levels (hlv symbol)
  have hempty : SymbolBook.isEmpty {}=true := rfl
  refine SortedMap.ext_find fun symbol => ?_
  have hb := hbook symbol
  unfold bookOf at hb
  cases h1 : books.find? symbol with
  | none =>
    cases h2 : books'.find? symbol with
    | none => rfl
    | some book =>
      have he : book={} := by simpa [h1,h2] using hb.symm
      have hn := ht' symbol book h2
      rw [he,hempty] at hn
      cases hn
  | some book =>
    cases h2 : books'.find? symbol with
    | none =>
      have he : book={} := by simpa [h1,h2] using hb
      have hn := ht symbol book h1
      rw [he,hempty] at hn
      cases hn
    | some book' => simpa [h1,h2] using hb

theorem tight_setLevel (ht : books.Tight) (level : PriceLevel) : (books.setLevel k level).Tight := by
  unfold setLevel
  cases hb : books.find? k.symbol with
  | none => exact ht
  | some book =>
    have hfind : ((book.withLevels k.side ((book.levels k.side).set k.price level)).levels
        k.side).find? k.price=some level := by
      simp [SortedMap.find?_set]
    exact ht.set k.symbol (SymbolBook.isEmpty_eq_false hfind)

theorem tight_eraseEmptyLevel (ht : books.Tight) : (books.eraseEmptyLevel k).Tight := by
  unfold eraseEmptyLevel
  cases hb : books.find? k.symbol with
  | none => exact ht
  | some book =>
    refine tight_eraseIfEmpty k.symbol fun sym bk hs h => ?_
    rw [SortedMap.find?_set,if_neg hs] at h
    exact ht sym bk h

theorem level?_eraseEmptyLevel {level : PriceLevel} (h : books.level? k=some level) :
    (books.eraseEmptyLevel k).level?=
      Function.update books.level? k level.kept := by
  unfold eraseEmptyLevel PriceLevel.kept
  cases hb : books.find? k.symbol with
  | none => simp [level?,hb] at h
  | some book =>
    have hbook : books.bookOf k.symbol=book := by simp [bookOf,hb]
    have hfind : (book.levels k.side).find? k.price=some level := by simpa [level?,hb] using h
    simp only [hfind]
    rw [level?_eraseIfEmpty]
    by_cases hh : level.head=kInvalidSlot
    · rw [if_pos hh,if_pos hh,← hbook]
      exact level?_put books k _ _ fun price => SortedMap.find?_erase _ _ _
    · rw [if_neg hh,if_neg hh]
      rw [SortedMap.set_self books hb,← h,Function.update_eq_self]

end Books

namespace Slots
variable {slots : Slots}

/-- What a tail insertion does to the slots. -/
theorem slotAt_linkAtTail {level : PriceLevel} {s j : SlotIndex}
    (hb : slots.length≤kInvalidSlot.toNat) (hs : s.toNat<slots.length)
    (ht : level.tail=kInvalidSlot ∨ level.tail.toNat<slots.length) (hne : level.tail≠s)
    (hj : j.toNat<slots.length) :
    (slots.linkAtTail level s).1.slotAt j=
      { slots.slotAt j with
        next := if j=s then kInvalidSlot else if j=level.tail then s else slots.nexts j
        prev := if j=s then level.tail else slots.prevs j } := by
  have hji : j≠kInvalidSlot := by
    rintro rfl
    omega
  unfold linkAtTail
  by_cases hinv : level.tail=kInvalidSlot
  · simp only [hinv,ne_eq,not_true_eq_false,if_false,slotAt_update hs]
    by_cases hjs : j=s
    · simp [hjs]
    · simp [hjs,hji,nexts,prevs]
  · have htl := ht.resolve_left hinv
    simp only [hinv,ne_eq,not_false_eq_true,if_true]
    rw [slotAt_update (by simpa using htl),slotAt_update hs,slotAt_update hs]
    by_cases hjs : j=s
    · simp [hjs,Ne.symm hne]
    · by_cases hjt : j=level.tail
      · simp [hjt,hne,prevs]
      · simp [hjs,hjt,nexts,prevs]

theorem linkAtTail_level (level : PriceLevel) (s : SlotIndex) :
    (slots.linkAtTail level s).2=
      { level with head := if level.tail=kInvalidSlot then s else level.head, tail := s } := by
  unfold linkAtTail
  by_cases hinv : level.tail=kInvalidSlot
  · simp [hinv]
  · simp [hinv]

theorem length_linkAtTail (level : PriceLevel) (s : SlotIndex) :
    (slots.linkAtTail level s).1.length=slots.length := by
  unfold linkAtTail
  split_ifs <;> simp

/-- Update through a link that may be the invalid slot. -/
def updateLink (slots : Slots) (i : SlotIndex) (f : Slot → Slot) : Slots :=
  if i≠kInvalidSlot then slots.update i f else slots

theorem length_updateLink (i : SlotIndex) (f : Slot → Slot) :
    (slots.updateLink i f).length=slots.length := by
  unfold updateLink
  split_ifs <;> simp

theorem slotAt_updateLink {i j : SlotIndex} {f : Slot → Slot}
    (hb : slots.length≤kInvalidSlot.toNat)
    (hi : i=kInvalidSlot ∨ i.toNat<slots.length) (hj : j.toNat<slots.length) :
    (slots.updateLink i f).slotAt j=if j=i then f (slots.slotAt j) else slots.slotAt j := by
  have hji : j≠kInvalidSlot := by
    rintro rfl
    omega
  unfold updateLink
  by_cases hinv : i=kInvalidSlot
  · simp [hinv,hji]
  · rw [if_pos hinv,slotAt_update (hi.resolve_left hinv)]
    by_cases hij : j=i
    · simp [hij]
    · simp [hij]

theorem unlink_slots (level : PriceLevel) (s : SlotIndex) :
    (slots.unlink level s).1=
      Slots.update (updateLink (updateLink slots (slots.prevs s)
        fun x => { x with next := slots.nexts s }) (slots.nexts s)
        fun x => { x with prev := slots.prevs s }) s
        fun x => { x with prev := kInvalidSlot, next := kInvalidSlot } := by
  unfold unlink updateLink
  by_cases hpi : (slots.slotAt s).prev=kInvalidSlot <;>
    by_cases hni : (slots.slotAt s).next=kInvalidSlot <;>
    simp [hpi,hni,nexts,prevs]

/-- What an unlink does to the slots. -/
theorem slotAt_unlink (level : PriceLevel) {s j : SlotIndex}
    (hb : slots.length≤kInvalidSlot.toNat) (hs : s.toNat<slots.length)
    (hp : slots.prevs s=kInvalidSlot ∨ (slots.prevs s).toNat<slots.length)
    (hn : slots.nexts s=kInvalidSlot ∨ (slots.nexts s).toNat<slots.length)
    (hj : j.toNat<slots.length) :
    (slots.unlink level s).1.slotAt j=
      { slots.slotAt j with
        next := if j=s then kInvalidSlot else if j=slots.prevs s then slots.nexts s
          else slots.nexts j
        prev := if j=s then kInvalidSlot else if j=slots.nexts s then slots.prevs s
          else slots.prevs j } := by
  have hinner (x : SlotIndex) (hx : x.toNat<slots.length) :
      (updateLink (updateLink slots (slots.prevs s) fun x => { x with next := slots.nexts s })
        (slots.nexts s) fun x => { x with prev := slots.prevs s }).slotAt x=
      { slots.slotAt x with
        next := if x=slots.prevs s then slots.nexts s else slots.nexts x
        prev := if x=slots.nexts s then slots.prevs s else slots.prevs x } := by
    have hlen := slots.length_updateLink (slots.prevs s) fun x => { x with next := slots.nexts s }
    rw [slotAt_updateLink (by rwa [hlen]) (by rwa [hlen]) (by rwa [hlen]),
      slotAt_updateLink hb hp hx]
    split_ifs <;> rfl
  rw [unlink_slots,slotAt_update (by simpa [length_updateLink] using hs)]
  by_cases hjs : j=s
  · simp [hjs,hinner s hs]
  · simp [hjs,hinner j hj]

theorem unlink_level (level : PriceLevel) (s : SlotIndex) :
    (slots.unlink level s).2=
      { level with
        head := if slots.prevs s=kInvalidSlot then slots.nexts s else level.head
        tail := if slots.nexts s=kInvalidSlot then slots.prevs s else level.tail } := by
  unfold unlink
  by_cases hpi : (slots.slotAt s).prev=kInvalidSlot <;>
    by_cases hni : (slots.slotAt s).next=kInvalidSlot <;>
    simp [hpi,hni,nexts,prevs]

theorem length_unlink (level : PriceLevel) (s : SlotIndex) :
    (slots.unlink level s).1.length=slots.length := by
  unfold unlink
  by_cases hpi : (slots.slotAt s).prev=kInvalidSlot <;>
    by_cases hni : (slots.slotAt s).next=kInvalidSlot <;>
    simp [hpi,hni]

end Slots
end MarketWire
