import MarketWire.ReferenceBook

/-! The arena book refines the reference map: every answer and everything shown is a
function of the finite map. -/
namespace MarketWire
open Library

namespace Side
variable {side : Side} {a b c : Price}

theorem not_lt_trans (hab : ¬side.lt b a) (hbc : ¬side.lt c b) : ¬side.lt c a := by
  intro hca
  rcases eq_or_ne a b with rfl | hne
  · exact hbc hca
  · have hlt : side.lt a b := by
      by_contra hn
      exact hne (Std.Trichotomous.trichotomous a b hn hab)
    exact hbc (IsTrans.trans c a b hca hlt)

theorem not_lt_total : ¬side.lt b a ∨ ¬side.lt a b := by
  by_contra hn
  simp only [not_or,not_not] at hn
  exact Std.Irrefl.irrefl a (IsTrans.trans a b a hn.2 hn.1)

end Side

namespace RefRep
variable {L : Ledger} {m : RefBook} {n : Nat}

theorem mem_prices (h : RefRep L m) (hw : L.Placement n) {side : Side} {symbol : Symbol}
    {price : Price} :
    price∈m.prices side symbol ↔ atKey L.live ⟨symbol,side,price⟩≠[] := by
  have hp := (h.restingAt_perm hw ⟨symbol,side,price⟩).length_eq
  rw [List.length_map,List.length_map] at hp
  rw [← List.length_pos_iff,← hp,List.length_pos_iff_exists_mem]
  simp only [RefBook.prices,RefBook.restingAt,RefOrder.key,List.mem_map,List.mem_filter,
    LevelKey.mk.injEq,decide_eq_true_eq]
  constructor
  · rintro ⟨e,⟨hm,hs,hd⟩,rfl⟩
    exact ⟨e,hm,hs,hd,rfl⟩
  · rintro ⟨e,hm,hs,hd,rfl⟩
    exact ⟨e,⟨hm,hs,hd⟩,rfl⟩

/-- Sorting by priority recovers the arrival order. -/
theorem fifo_eq (h : RefRep L m) (hw : L.Placement n) (k : LevelKey) :
    m.fifo k=(atKey L.live k).map fun p => p.2.id := by
  have hperm : (m.fifo k).Perm ((atKey L.live k).map fun p => p.2.id) := by
    have h1 := (List.mergeSort_perm (m.restingAt k) fun a b =>
      decide (a.2.priority≤b.2.priority)).map Prod.fst
    have h2 := (h.restingAt_perm hw k).map Order.id
    rw [List.map_map,List.map_map] at h2
    exact h1.trans h2
  have hlive : ((atKey L.live k).map fun p => p.2.id).Pairwise
      fun a b => m.priorityOf a < m.priorityOf b :=
    List.pairwise_map.mpr (h.ordered.sublist List.filter_sublist)
  have hinj := List.inj_on_of_nodup_map (List.pairwise_map.mpr (hlive.imp Nat.ne_of_lt))
  have hsort : ((m.restingAt k).mergeSort fun a b => decide (a.2.priority≤b.2.priority)).Pairwise
      fun a b => decide (a.2.priority≤b.2.priority)=true := by
    refine List.pairwise_mergeSort (fun a b c hab hbc => ?_) (fun a b => ?_) _
    · simp only [decide_eq_true_eq] at hab hbc ⊢
      exact hab.trans hbc
    · simp only [Bool.or_eq_true,decide_eq_true_eq]
      exact Nat.le_total _ _
  have hmap : (m.fifo k).Pairwise fun a b => m.priorityOf a ≤ m.priorityOf b := by
    refine List.pairwise_map.mpr (hsort.imp_of_mem fun {a b} ha hb hab => ?_)
    have hprio {e : OrderId×RefOrder} (he : e∈(m.restingAt k).mergeSort fun a b =>
        decide (a.2.priority≤b.2.priority)) : m.priorityOf e.1=e.2.priority := by
      have hm := (List.mem_filter.mp (List.mem_mergeSort.mp he)).1
      rw [RefBook.priorityOf,(SortedMap.mem_entries m e.1 e.2).mp hm]
      rfl
    rw [hprio ha,hprio hb]
    simpa using hab
  refine List.Perm.eq_of_pairwise (fun a b ha hb hab hba => ?_) hmap (hlive.imp Nat.le_of_lt) hperm
  exact hinj (hperm.mem_iff.mp ha) hb (Nat.le_antisymm hab hba)

end RefRep

namespace Rep
variable {b : OrderBook} {L : Ledger} {m : RefBook} {n : Nat}

/-- The prices in iteration order are the sorted prices of the map. -/
theorem prices_eq (h : Rep b L) (hm : RefRep L m) (hw : L.Placement n) (side : Side)
    (symbol : Symbol) :
    (m.prices side symbol).dedup.mergeSort (fun a b => ¬side.lt b a)=b.prices side symbol := by
  have hs := prices_sorted (b := b) side symbol
  have hn : (b.prices side symbol).Nodup := SortedMap.keys_nodup _
  have hperm : ((m.prices side symbol).dedup.mergeSort fun a b => decide (¬side.lt b a)).Perm
      (b.prices side symbol) := by
    refine (List.mergeSort_perm _ _).trans ?_
    refine (List.perm_ext_iff_of_nodup (List.nodup_dedup _) hn).mpr fun price => ?_
    rw [List.mem_dedup,hm.mem_prices hw,h.mem_prices]
  have hsort : ((m.prices side symbol).dedup.mergeSort fun a b => decide (¬side.lt b a)).Pairwise
      fun a b => decide (¬side.lt b a)=true := by
    refine List.pairwise_mergeSort (fun a b c hab hbc => ?_) (fun a b => ?_) _
    · simp only [decide_eq_true_eq] at hab hbc ⊢
      exact Side.not_lt_trans hab hbc
    · simp only [Bool.or_eq_true,decide_eq_true_eq]
      exact Side.not_lt_total
  refine List.Perm.eq_of_pairwise (fun a b _ _ hab hba => ?_) hsort (hs.imp fun {a b} hlt => ?_) hperm
  · simp only [decide_eq_true_eq] at hab hba
    exact Std.Trichotomous.trichotomous a b hba hab
  · simp only [decide_eq_true_eq]
    exact fun hba => Std.Irrefl.irrefl a (IsTrans.trans a b a hlt hba)

theorem levels_eq (h : Rep b L) (hm : RefRep L m) (hw : L.Placement n) (side : Side)
    (symbol : Symbol) : b.sideLevels side symbol=some (m.levels side symbol) := by
  rw [h.sideLevels_eq,RefBook.levels,h.prices_eq hm hw]
  refine congrArg some (List.map_congr_left fun price _ => ?_)
  rw [hm.totalAt_eq hw,hm.fifo_eq hw]
  rfl

/-- The first price is the one that no other price beats. -/
theorem best_eq (h : Rep b L) (hm : RefRep L m) (hw : L.Placement n) (side : Side)
    (symbol : Symbol) : b.bestPrice side symbol=m.bestPrice side symbol := by
  have hmem (price : Price) : price∈m.prices side symbol ↔ price∈b.prices side symbol := by
    rw [hm.mem_prices hw,h.mem_prices]
  have hs := prices_sorted (b := b) side symbol
  rw [bestPrice_eq]
  cases hp : b.prices side symbol with
  | nil =>
    have hnil : m.prices side symbol=[] :=
      List.eq_nil_iff_forall_not_mem.mpr fun price hq => by
        rw [hmem,hp] at hq
        cases hq
    simp [RefBook.bestPrice,hnil]
  | cons best rest =>
    rw [hp] at hs
    have hbest : ∀ q∈m.prices side symbol, ¬side.lt q best := by
      intro q hq hlt
      rw [hmem,hp] at hq
      rcases List.mem_cons.mp hq with rfl | hq
      · exact Std.Irrefl.irrefl _ hlt
      · exact Std.Irrefl.irrefl _ (IsTrans.trans _ _ _ hlt ((List.pairwise_cons.mp hs).1 q hq))
    have hin : best∈m.prices side symbol := by
      rw [hmem,hp]
      simp
    rw [List.head?_cons,eq_comm,RefBook.bestPrice]
    cases hf : (m.prices side symbol).find? fun p =>
        (m.prices side symbol).all fun q => ¬side.lt q p with
    | none => exact absurd hbest (by simpa using List.find?_eq_none.mp hf best hin)
    | some p =>
      have hpm := List.mem_of_find?_eq_some hf
      have hpb : ∀ q∈m.prices side symbol, ¬side.lt q p := by simpa using List.find?_some hf
      rw [Std.Trichotomous.trichotomous p best (hbest p hpm) (hpb best hin)]

end Rep

namespace OrderBook

/-- The book shows what the finite map determines. -/
structure Shows (b : OrderBook) (m : RefBook) : Prop where
  find : ∀ id, b.find id=m.findOrder id
  count : b.liveOrderCount=m.size
  bestBid : ∀ symbol, b.bestBid symbol=m.bestPrice .buy symbol
  bestAsk : ∀ symbol, b.bestAsk symbol=m.bestPrice .sell symbol
  bidLevels : ∀ symbol, b.bidLevels symbol=some (m.levels .buy symbol)
  askLevels : ∀ symbol, b.askLevels symbol=some (m.levels .sell symbol)

theorem shows_of_rep {b : OrderBook} {L : Ledger} {m : RefBook} {n : Nat} (h : Rep b L)
    (hm : RefRep L m) (hw : L.Placement n) : b.Shows m :=
  ⟨fun id => (h.find_order id).trans (hm.find id).symm,
    h.liveOrderCount_eq.trans (hm.size_eq hw).symm,h.best_eq hm hw .buy,h.best_eq hm hw .sell,
    h.levels_eq hm hw .buy,h.levels_eq hm hw .sell⟩

/-- Along a run the book and the finite map stay related. -/
theorem run_related {b : OrderBook} {L : Ledger} {m : RefBook} {n : Nat} (hn : n≤2^32)
    (h : Rep b L) (hm : RefRep L m) (hw : L.WF n) (events : List MarketEvent) :
    ∃ L', Rep (b.run events) L' ∧ RefRep L' (events.foldl (RefBook.step n) m) ∧ L'.WF n := by
  induction events generalizing b L m with
  | nil => exact ⟨L,h,hm,hw⟩
  | cons e rest ih => exact ih (h.apply e).2 (hm.apply hw.toPlacement hn e).2 (hw.apply e)

/-- The book simulates the finite map: after any events every answer is the map's answer,
and lookups, counts, best prices and level snapshots are those of the map. -/
theorem refines_reference (n : Nat) (h0 : 1≤n) (hn : n≤2^32-2) :
    ∃ b, create n=.ok b ∧ ∀ events,
      (∀ e, ((b.run events).apply e).2=.returned ((RefBook.run n events).accepts n e)) ∧
      (b.run events).Shows (RefBook.run n events) := by
  have hinv := toNat_kInvalidSlot
  obtain ⟨b,hb⟩ := create_isOk h0 (by omega)
  refine ⟨b,hb,fun events => ?_⟩
  obtain ⟨L,h,hm,hw⟩ := run_related (by omega) (create_rep hb) (RefRep.empty n)
    (Ledger.fresh_wf (by omega : n≤2^32)) events
  refine ⟨fun e => ?_,shows_of_rep h hm hw.toPlacement⟩
  rw [(h.apply e).1,(hm.apply hw.toPlacement (by omega) e).1]
  rfl

theorem refines_reference_four : 1≤4 ∧ 4≤2^32-2 ∧ ∃ b, create 4=.ok b ∧ ∀ events,
    (∀ e, ((b.run events).apply e).2=.returned ((RefBook.run 4 events).accepts 4 e)) ∧
    (b.run events).Shows (RefBook.run 4 events) :=
  ⟨by decide,by decide,refines_reference 4 (by decide) (by decide)⟩

end OrderBook
end MarketWire
