import MarketWire.BookReplace

/-! Whole runs of the book. Every reachable book represents a well-formed ledger, which
gives its representation invariant and the exactness of rejected events. -/
namespace MarketWire
open Library

namespace Rep
variable {b b' : OrderBook} {L : Ledger} {n : Nat}

/-- One event against the ledger, with any allocation failing. -/
theorem applyWith (h : Rep b L) (fails : AllocPoint → Bool) (e : MarketEvent) :
    Simulates fails L (L.apply e) (b.applyWith fails e) := by
  cases e with
  | add e => exact h.add fails e
  | execute e => exact Or.inl (h.reduce e.orderId e.executedShares)
  | cancel e => exact Or.inl (h.reduce e.orderId e.canceledShares)
  | delete e => exact Or.inl (h.removeOrder e.orderId)
  | replace e => exact h.replace fails e

theorem apply (h : Rep b L) (e : MarketEvent) :
    (b.apply e).2=.returned (L.apply e).2 ∧ Rep (b.apply e).1 (L.apply e).1 := by
  rcases h.applyWith (fun _ => false) e with hs | ⟨_,⟨_,hf⟩,_⟩
  · exact hs
  · cases hf

theorem run (h : Rep b L) (events : List MarketEvent) : Rep (b.run events) (L.run events) := by
  induction events generalizing b L with
  | nil => exact h
  | cons e rest ih => exact ih (h.apply e).2

theorem length_eq (h : Rep b L) (hw : L.Placement n) (hn : n≤2^32) : b.slots.length=n := by
  rw [← h.live_length,hw.length hn]

end Rep

namespace OrderBook

theorem create_ok {n : Nat} {b : OrderBook} (h : create n=.ok b) :
    0<n ∧ n<kInvalidSlot.toNat ∧
      b=⟨(List.range n).map fun i =>
          { nextFree := if i+1<n then UInt32.ofNat (i+1) else kInvalidSlot },
        0,.create n,.empty⟩ := by
  unfold create at h
  split_ifs at h with hn
  simp only [not_or,ge_iff_le,Nat.not_le] at hn
  exact ⟨Nat.pos_of_ne_zero hn.1,hn.2,(Except.ok.inj h).symm⟩

theorem create_isOk {n : Nat} (h0 : 0<n) (hn : n<kInvalidSlot.toNat) :
    ∃ b, create n=.ok b := by
  unfold create
  rw [if_neg (by omega)]
  exact ⟨_,rfl⟩

/-- The initial free list runs through the arena in order. -/
theorem create_chain {n : Nat} (hn : n<kInvalidSlot.toNat) {slots : Slots}
    (hs : slots=(List.range n).map fun i =>
      { nextFree := if i+1<n then UInt32.ofNat (i+1) else kInvalidSlot })
    (m i : Nat) (him : i+m=n) :
    Chain kInvalidSlot slots.nextFrees (if i<n then UInt32.ofNat i else kInvalidSlot)
      ((List.range' i m).map UInt32.ofNat) := by
  have hinv := toNat_kInvalidSlot
  induction m generalizing i with
  | zero => simp [Chain,show ¬i<n by omega]
  | succ m ih =>
    have hi : i<n := by omega
    have hto : (UInt32.ofNat i).toNat=i :=
      UInt32.toNat_ofNat_of_lt' (by simp only [UInt32.size]; omega)
    have hne : UInt32.ofNat i≠kInvalidSlot := by
      intro he
      rw [← UInt32.toNat_inj,hto] at he
      omega
    have hnext : slots.nextFrees (UInt32.ofNat i)=
        if i+1<n then UInt32.ofNat (i+1) else kInvalidSlot := by
      simp [Slots.nextFrees,Slots.slotAt,hs,hto,hi]
    rw [if_pos hi,List.range'_succ,List.map_cons]
    exact ⟨rfl,hne,hnext ▸ ih (i+1) (by omega)⟩

theorem create_rep {n : Nat} {b : OrderBook} (h : create n=.ok b) : Rep b (Ledger.fresh n) := by
  obtain ⟨h0,hn,rfl⟩ := create_ok h
  have hinv := toNat_kInvalidSlot
  have hlevel : Books.level? SortedMap.empty=fun _ => none := rfl
  refine ⟨?_,by simpa using hn,⟨FlatOrderIndex.create_wf n,?_,?_⟩,⟨?_,?_,?_⟩,⟨?_,?_⟩,?_⟩
  · simpa using (Ledger.fresh_wf (by omega : n≤2^32)).toPlacement
  · simpa [FlatOrderIndex.capacity] using FlatOrderIndex.two_mul_le_capacity n
  · intro id s
    rw [FlatOrderIndex.create_find]
    simp [Ledger.fresh]
  · simp [Ledger.fresh]
  · intro s hs
    obtain ⟨i,hi,rfl⟩ := List.mem_map.mp hs
    have hto : (UInt32.ofNat i).toNat=i :=
      UInt32.toNat_ofNat_of_lt' (by simp only [UInt32.size]; have := List.mem_range.mp hi; omega)
    simp [Slots.nextFrees,Slots.slotAt,hto,List.mem_range.mp hi]
  · have hc := create_chain hn rfl n 0 (by omega)
    rw [if_pos h0,← List.range_eq_range'] at hc
    exact hc
  · simp [Ledger.fresh]
  · intro k
    rw [hlevel]
    rfl
  · intro symbol book hb
    cases hb

/-- The books built by construction and any events, accepted, rejected or failing. -/
inductive Reachable (n : Nat) : OrderBook → Prop
  | create {b : OrderBook} : OrderBook.create n=.ok b → Reachable n b
  | step {b : OrderBook} (fails : AllocPoint → Bool) (e : MarketEvent) :
      Reachable n b → Reachable n (b.applyWith fails e).1

namespace Reachable
variable {n : Nat} {b : OrderBook}

theorem bounds (h : Reachable n b) : 0<n ∧ n<kInvalidSlot.toNat := by
  induction h with
  | create h => exact ⟨(create_ok h).1,(create_ok h).2.1⟩
  | step fails e _ ih => exact ih

theorem rep (h : Reachable n b) : ∃ L : Ledger, Rep b L ∧ L.WF n := by
  have hn : n≤2^32 := h.bounds.2.le.trans (by decide)
  induction h with
  | create h => exact ⟨_,create_rep h,Ledger.fresh_wf hn⟩
  | step fails e h ih =>
    obtain ⟨L,hrep,hw⟩ := ih
    rcases hrep.applyWith fails e with ⟨_,hs⟩ | ⟨_,_,hs⟩
    · exact ⟨_,hs,hw.apply e⟩
    · exact ⟨L,hs,hw⟩

theorem runWith (h : Reachable n b) (steps : List Step) : Reachable n (b.runWith steps) := by
  induction steps generalizing b with
  | nil => exact h
  | cons s rest ih => exact ih (h.step s.1 s.2)

theorem run (h : Reachable n b) (events : List MarketEvent) : Reachable n (b.run events) := by
  induction events generalizing b with
  | nil => exact h
  | cons e rest ih => exact ih (h.step (fun _ => false) e)

end Reachable

/-- The slots that `next` visits from the head of the level stored under `k`. -/
def Queue (b : OrderBook) (k : LevelKey) (level : PriceLevel) (q : List SlotIndex) : Prop :=
  b.books.level? k=some level ∧ Chain kInvalidSlot b.slots.nexts level.head q

/-- The representation invariant of a book with `n` slots. -/
structure Invariant (b : OrderBook) (n : Nat) : Prop where
  /-- The free chain holds each slot that is not live once; with the live orders it
  accounts for every slot. -/
  free : ∃ q, Chain kInvalidSlot b.slots.nextFrees b.freeHead q ∧ q.Nodup ∧
    (∀ s, s∈q ↔ s.toNat<n ∧ (b.slots.slotAt s).alive=false) ∧ b.liveOrderCount+q.length=n
  capacity : b.maxOrders=n
  /-- The index finds exactly the ids of the live slots, each at its slot. -/
  index : ∀ id s, b.index.find id=some s ↔
    s.toNat<n ∧ (b.slots.slotAt s).alive=true ∧ (b.slots.slotAt s).order.id=id
  distinct : ∀ id id' s, b.index.find id=some s → b.index.find id'=some s → id=id'
  /-- A stored level is a finite list of live orders of that level, linked both ways. -/
  levels : ∀ k level, b.books.level? k=some level → ∃ q, b.Queue k level q ∧ q.Nodup ∧ q≠[] ∧
    Chain kInvalidSlot b.slots.prevs level.tail q.reverse ∧
    (∀ s∈q, s.toNat<n ∧ (b.slots.slotAt s).alive=true ∧ (b.slots.slotAt s).order.key=k ∧
      (b.slots.slotAt s).order.quantity≠0) ∧
    level.totalQuantity.toNat=(q.map fun s => (b.slots.slotAt s).order.quantity.toNat).sum
  /-- A live slot waits in exactly one list. -/
  placed : ∀ s, s.toNat<n → (b.slots.slotAt s).alive=true →
    ∃! k, ∃ level q, b.Queue k level q ∧ s∈q
  books : ∀ symbol book, b.books.find? symbol=some book → book.isEmpty=false

end OrderBook

namespace Rep
variable {b : OrderBook} {L : Ledger} {n : Nat}

/-- The live slots are those with the flag. -/
theorem alive_iff (h : Rep b L) {s : SlotIndex} (hs : s.toNat<b.slots.length) :
    (b.slots.slotAt s).alive=true ↔ ∃ o, (s,o)∈L.live := by
  cases List.mem_append.mp ((h.placement.cover s).mpr hs) with
  | inl hm =>
    obtain ⟨p,hp,rfl⟩ := List.mem_map.mp hm
    exact ⟨fun _ => ⟨p.2,hp⟩,fun _ => (h.arena.flags p hp).1⟩
  | inr hm =>
    constructor
    · intro ha
      rw [h.arena.blank s hm] at ha
      cases ha
    · rintro ⟨o,ho⟩
      exact absurd hm (h.placement.live_not_free ho)

/-- The list of a stored level, as the ledger orders it. -/
theorem queue_eq (h : Rep b L) {k : LevelKey} {level : PriceLevel} {q : List SlotIndex} :
    b.Queue k level q ↔ b.books.level? k=some level ∧ q=queueOf L.live k := by
  have hchain (hl : b.books.level? k=some level) :
      Chain kInvalidSlot b.slots.nexts level.head (queueOf L.live k) := by
    have hd := (h.links.level k).dlist.1
    rw [hl] at hd
    exact Seg.chain hd
  constructor
  · rintro ⟨hl,hq⟩
    exact ⟨hl,hq.unique (hchain hl)⟩
  · rintro ⟨hl,rfl⟩
    exact ⟨hl,hchain hl⟩

theorem free_iff (h : Rep b L) (s : SlotIndex) :
    s∈L.free ↔ s.toNat<b.slots.length ∧ (b.slots.slotAt s).alive=false := by
  constructor
  · intro hm
    refine ⟨h.placement.free_lt hm,?_⟩
    rw [h.arena.blank s hm]
  · rintro ⟨hlt,ha⟩
    cases List.mem_append.mp ((h.placement.cover s).mpr hlt) with
    | inl hm =>
      obtain ⟨p,hp,rfl⟩ := List.mem_map.mp hm
      rw [(h.arena.flags p hp).1] at ha
      cases ha
    | inr hm => exact hm

theorem index_iff (h : Rep b L) (id : OrderId) (s : SlotIndex) :
    b.index.find id=some s ↔ s.toNat<b.slots.length ∧ (b.slots.slotAt s).alive=true ∧
      (b.slots.slotAt s).order.id=id := by
  rw [h.index.find]
  constructor
  · rintro ⟨o,ho,rfl⟩
    have hlt := h.placement.live_lt ho
    exact ⟨hlt,(h.alive_iff hlt).mpr ⟨o,ho⟩,by rw [h.links.order _ ho]⟩
  · rintro ⟨hlt,ha,rfl⟩
    obtain ⟨o,ho⟩ := (h.alive_iff hlt).mp ha
    exact ⟨o,ho,by rw [h.links.order _ ho]⟩

theorem liveOrderCount_eq (h : Rep b L) : b.liveOrderCount=L.live.length :=
  h.index.size_eq h.placement.ids

theorem sum_queue (h : Rep b L) (k : LevelKey) :
    ((queueOf L.live k).map fun s => (b.slots.slotAt s).order.quantity.toNat).sum=
      sumQuantity (atKey L.live k) := by
  rw [queueOf,List.map_map,sumQuantity]
  refine congrArg List.sum (List.map_congr_left fun p hp => ?_)
  simp only [Function.comp_apply]
  rw [h.links.order p ((mem_atKey _ _ _).mp hp).1]

/-- Everything the invariant says is read off the ledger. -/
theorem invariant (h : Rep b L) (hw : L.WF b.slots.length) : b.Invariant b.slots.length := by
  refine ⟨⟨L.free,h.arena.chain,(List.nodup_append.mp hw.nodup).2.1,h.free_iff,?_⟩,rfl,
    h.index_iff,?_,?_,?_,h.tight⟩
  · rw [h.liveOrderCount_eq,h.live_length]
  · intro id id' s hid hid'
    rw [← ((h.index_iff id s).mp hid).2.2,((h.index_iff id' s).mp hid').2.2]
  · intro k level hl
    have hrep := h.links.level k
    rw [hl] at hrep
    obtain ⟨hne,hdl,hsum⟩ := hrep
    refine ⟨queueOf L.live k,h.queue_eq.mpr ⟨hl,rfl⟩,queueOf_nodup h.placement.live_nodup k,
      by simpa [queueOf] using hne,hdl.reverse.chain,fun s hs => ?_,?_⟩
    · obtain ⟨o,ho,hk⟩ := (mem_queueOf _ _).mp hs
      have hlt := h.placement.live_lt ho
      refine ⟨hlt,(h.alive_iff hlt).mpr ⟨o,ho⟩,?_,?_⟩
      · rw [h.links.order _ ho]
        exact hk
      · rw [h.links.order _ ho]
        exact hw.quantity_ne_zero _ ho
    · rw [h.sum_queue,hsum]
  · intro s hlt ha
    obtain ⟨o,ho⟩ := (h.alive_iff hlt).mp ha
    have hq : s∈queueOf L.live o.key := (mem_queueOf _ _).mpr ⟨o,ho,rfl⟩
    obtain ⟨level,hl,_⟩ := h.level_of_live ho
    refine ⟨o.key,⟨level,_,h.queue_eq.mpr ⟨hl,rfl⟩,hq⟩,?_⟩
    rintro k ⟨level',q,hqueue,hs⟩
    obtain ⟨_,rfl⟩ := h.queue_eq.mp hqueue
    exact queueOf_disjoint h.placement.live_nodup hs hq

end Rep

namespace OrderBook

theorem Reachable.invariant {n : Nat} {b : OrderBook} (h : Reachable n b) : b.Invariant n := by
  obtain ⟨L,hrep,hw⟩ := h.rep
  have hlen := hrep.length_eq hw.toPlacement (h.bounds.2.le.trans (by decide))
  rw [← hlen] at hw ⊢
  exact hrep.invariant hw

/-- Construction succeeds for a valid capacity, and the invariant holds after any events,
accepted, rejected or failing. -/
theorem runWith_invariant (n : Nat) (h0 : 0<n) (hn : n<kInvalidSlot.toNat) :
    ∃ b, create n=.ok b ∧ ∀ steps, (b.runWith steps).Invariant n := by
  obtain ⟨b,hb⟩ := create_isOk h0 hn
  exact ⟨b,hb,fun steps => ((Reachable.create hb).runWith steps).invariant⟩

theorem runWith_invariant_three :
    0<3 ∧ 3<kInvalidSlot.toNat ∧ ∃ b, create 3=.ok b ∧ ∀ steps, (b.runWith steps).Invariant 3 :=
  ⟨by decide,by decide,runWith_invariant 3 (by decide) (by decide)⟩

end OrderBook
end MarketWire
