import MarketWire.BookEquations
import MarketWire.BookHistory

/-! Books split by symbol. The accepted events of some symbols, applied to a book of their own,
give those symbols the levels and orders that the whole book gives them. -/
namespace MarketWire
open Library

/-- The accepted events of a run that concern one of `own`'s symbols. -/
def OrderBook.shard (own : Symbol → Bool) (b : OrderBook) : List MarketEvent → List MarketEvent
  | [] => []
  | e::rest =>
    let (b',outcome) := b.apply e
    let later := b'.shard own rest
    if outcome=.returned true ∧ (e.pair b.find).any (fun side => own side.1) then e::later
    else later

namespace Ledger
variable {L L' : Ledger} {n n' : Nat} {own : Symbol → Bool}

/-- The ledger `L'` holds the orders of `own`'s symbols and no others. -/
def Part (own : Symbol → Bool) (L L' : Ledger) : Prop :=
  ∀ side, L'.sideOrders side=if own side.1 then L.sideOrders side else []

namespace Part

theorem order_eq (h : Part own L L') (hw : L.Placement n) (hw' : L'.Placement n') (id : OrderId) :
    L'.order id=(L.order id).filter fun o => own o.symbol := by
  refine Option.ext fun o => ?_
  have hpair : o.pair.1=o.symbol := rfl
  rw [hw'.order_eq_some,h o.pair,Option.filter_eq_some_iff,hw.order_eq_some,hpair]
  by_cases ho : own o.symbol <;> simp [ho]

theorem length_le (h : Part own L L') (hw : L.Placement n) (hw' : L'.Placement n') :
    L'.live.length≤L.live.length := by
  have hsub : (L'.live.map fun p => p.2.id)⊆L.live.map fun p => p.2.id := by
    intro id hid
    obtain ⟨p,hp,rfl⟩ := List.mem_map.mp hid
    have ho : L'.order p.2.id=some p.2 := by
      rw [order,hw'.lookup_eq_some.mpr ⟨hp,rfl⟩]
      rfl
    rw [h.order_eq hw hw',Option.filter_eq_some_iff,order,Option.map_eq_some_iff] at ho
    obtain ⟨⟨q,hq,-⟩,-⟩ := ho
    obtain ⟨hq,hid⟩ := hw.lookup_eq_some.mp hq
    exact List.mem_map.mpr ⟨q,hq,hid⟩
  simpa using (List.subperm_of_subset hw'.ids hsub).length_le

/-- An order of one of the symbols is in both ledgers. -/
theorem order_live (h : Part own L L') (hw : L.Placement n) (hw' : L'.Placement n') {id : OrderId}
    {side : Symbol×Side} (hown : own side.1) (hid : (L.order id).map Order.pair=some side) :
    L.order id=L'.order id := by
  obtain ⟨o,ho,rfl⟩ := Option.map_eq_some_iff.mp hid
  rw [h.order_eq hw hw',ho,Option.filter_some,if_pos (show own o.symbol from hown)]

theorem pair_eq (h : Part own L L') (hw : L.Placement n) (hw' : L'.Placement n') {e : MarketEvent}
    {side : Symbol×Side} (hown : own side.1) (hside : e.pair L.order=some side) :
    e.pair L'.order=some side := by
  have hlive {id : OrderId} (hid : (L.order id).map Order.pair=some side) :
      (L'.order id).map Order.pair=some side := by
    rwa [← h.order_live hw hw' hown hid]
  cases e with
  | add e => exact hside
  | execute e => exact hlive hside
  | cancel e => exact hlive hside
  | delete e => exact hlive hside
  | replace e => exact hlive hside

/-- An accepted event of one of the symbols is accepted by the part. -/
theorem alike (h : Part own L L') (hw : L.Placement n) (hw' : L'.Placement n') (hn : n≤n')
    (hb : n'≤2^32) {e : MarketEvent} (ha : (L.apply e).2=true) {side : Symbol×Side}
    (hside : e.pair L.order=some side) (hown : own side.1) :
    Alike (L.apply e) (L'.apply e) side := by
  have hs : L.sideOrders side=L'.sideOrders side := by rw [h side,if_pos hown]
  have hlive {id : OrderId} (hid : (L.order id).map Order.pair=some side) :
      L.order id=L'.order id := h.order_live hw hw' hown hid
  have hnew {id : OrderId} (hid : L.lookup id=none) : L.order id=L'.order id := by
    rw [h.order_eq hw hw',order,hid]
    rfl
  cases e with
  | add e =>
    cases hside
    rcases L.add_cases e.order with he | ⟨slot,free,hfree,-,-,habs,-,-⟩
    · rw [apply,he] at ha
      cases ha
    refine local_add (by rw [hfree]; simp) (List.ne_nil_of_length_pos ?_) (hnew habs) hs
    have hle := h.length_le hw hw'
    have hlen := hw.length (hn.trans hb)
    have hlen' := hw'.length hb
    rw [hfree,List.length_cons] at hlen
    omega
  | execute e => exact local_reduce (hlive hside) hs _
  | cancel e => exact local_reduce (hlive hside) hs _
  | delete e => exact local_remove (hlive hside) hs
  | replace e =>
    rcases L.replace_cases e with he | ⟨p,-,-,-,habs,-,-⟩
    · rw [apply,he] at ha
      cases ha
    obtain ⟨o,ho,rfl⟩ := Option.map_eq_some_iff.mp hside
    exact local_replace ho (hlive hside) (hnew habs) hs

/-- One event: the part takes it or is left as it is. -/
theorem apply (h : Part own L L') (hw : L.Placement n) (hw' : L'.Placement n') (hn : n≤n')
    (hb : n'≤2^32) (e : MarketEvent) :
    if (L.apply e).2=true ∧ (e.pair L.order).any (fun side => own side.1) then
      (L'.apply e).2=true ∧ Part own (L.apply e).1 (L'.apply e).1
    else Part own (L.apply e).1 L' := by
  split_ifs with hc
  · obtain ⟨ha,hany⟩ := hc
    obtain ⟨side,hside,hown⟩ : ∃ side, e.pair L.order=some side ∧ own side.1 := by
      cases hside : e.pair L.order with
      | none =>
        rw [hside] at hany
        cases hany
      | some side =>
        rw [hside] at hany
        exact ⟨side,rfl,hany⟩
    obtain ⟨h2,hs⟩ := h.alike hw hw' hn hb ha hside hown
    refine ⟨h2 ▸ ha,fun side' => ?_⟩
    by_cases heq : side'=side
    · rw [heq,if_pos hown]
      exact hs.symm
    · have hpair := h.pair_eq hw hw' hown hside
      rw [hw'.frame fun hc => heq (Option.some.inj (hc.symm.trans hpair)),
        hw.frame fun hc => heq (Option.some.inj (hc.symm.trans hside))]
      exact h side'
  · cases ha : (L.apply e).2 with
    | false =>
      rw [apply_rejected ha]
      exact h
    | true =>
      intro side
      rw [h side]
      split_ifs with hown
      · refine (hw.frame fun hside => hc ⟨ha,?_⟩).symm
        rw [hside]
        exact hown
      · rfl

end Part
end Ledger

namespace Rep
variable {b b' : OrderBook} {L L' : Ledger} {n n' : Nat} {own : Symbol → Bool}

/-- Over a run the shard's book holds the orders of its symbols, and takes every event it is
given. -/
theorem shard_run (h : Rep b L) (h' : Rep b' L') (hw : L.WF n) (hw' : L'.WF n') (hn : n≤n')
    (hb : n'≤2^32) (hp : L.Part own L') (events : List MarketEvent) :
    (∀ a∈L'.answers (b.shard own events), a=true) ∧
      (L.run events).Part own (L'.run (b.shard own events)) := by
  induction events generalizing b b' L L' with
  | nil => exact ⟨nofun,hp⟩
  | cons e rest ih =>
    have hstep := hp.apply hw.toPlacement hw'.toPlacement hn hb e
    obtain ⟨ho,hr⟩ := h.apply e
    have hfind : b.find=L.order := funext h.find_order
    have hshard : b.shard own (e::rest)=
        if (L.apply e).2=true ∧ (e.pair L.order).any (fun side => own side.1) then
          e::(b.apply e).1.shard own rest
        else (b.apply e).1.shard own rest := by
      have hunfold : b.shard own (e::rest)=
          if (b.apply e).2=.returned true ∧ (e.pair b.find).any (fun side => own side.1) then
            e::(b.apply e).1.shard own rest
          else (b.apply e).1.shard own rest := rfl
      rw [hunfold,ho,hfind]
      simp only [Outcome.returned.injEq]
    rw [hshard]
    split_ifs at hstep ⊢ with hc
    · obtain ⟨hanswers,hpart⟩ := ih hr (h'.apply e).2 (hw.apply e) (hw'.apply e) hstep.2
      refine ⟨?_,hpart⟩
      rw [Ledger.answers]
      exact List.forall_mem_cons.mpr ⟨hstep.1,hanswers⟩
    · exact ih hr h' (hw.apply e) hw' hstep

/-- The same orders on a side read as the same levels. -/
theorem sideLevels_local (h : Rep b L) (h' : Rep b' L') {side : Side} {symbol : Symbol}
    (hs : L.sideOrders (symbol,side)=L'.sideOrders (symbol,side)) :
    b.sideLevels side symbol=b'.sideLevels side symbol := by
  have hlevel (price : Price) : (atKey L.live ⟨symbol,side,price⟩).map Prod.snd=
      (atKey L'.live ⟨symbol,side,price⟩).map Prod.snd := by
    rw [Ledger.atKey_sideOrders,Ledger.atKey_sideOrders]
    exact congrArg _ hs
  have hprices : b.prices side symbol=b'.prices side symbol := by
    refine SortedMap.keys_eq fun price => ?_
    have hnil : atKey L.live ⟨symbol,side,price⟩=[] ↔ atKey L'.live ⟨symbol,side,price⟩=[] := by
      rw [← List.map_eq_nil_iff (f := Prod.snd),hlevel,List.map_eq_nil_iff]
    exact h.mem_prices.trans (hnil.not.trans h'.mem_prices.symm)
  rw [h.sideLevels_eq,h'.sideLevels_eq,hprices]
  refine congrArg some (List.map_congr_left fun price _ => ?_)
  have hids := congrArg (List.map Order.id) (hlevel price)
  rw [List.map_map,List.map_map] at hids
  rw [Ledger.snapshotAt,Ledger.snapshotAt,Ledger.total_local hs]
  exact congrArg _ hids

end Rep

namespace OrderBook
variable {n n' : Nat} {b b' : OrderBook}

/-- A book of its own for some of the symbols: it takes their accepted events, finds their orders
and shows their levels as the whole book does. -/
theorem shard_agrees (hb : create n=.ok b) (hb' : create n'=.ok b') (hn : n≤n')
    (own : Symbol → Bool) (events : List MarketEvent) :
    b'.AcceptsAll (b.shard own events) ∧
    (∀ id, (b'.run (b.shard own events)).find id=
      ((b.run events).find id).filter fun o => own o.symbol) ∧
    ∀ side symbol, (b'.run (b.shard own events)).sideLevels side symbol=
      if own symbol then (b.run events).sideLevels side symbol else some [] := by
  obtain ⟨-,hbound,-⟩ := create_ok hb'
  have hle : n'≤2^32 := hbound.le.trans (by decide)
  have hrep := create_rep hb
  have hrep' := create_rep hb'
  have hw := Ledger.fresh_wf (hn.trans hle)
  have hw' := Ledger.fresh_wf hle
  have hstart : (Ledger.fresh n).Part own (Ledger.fresh n') := fun side => by
    split_ifs <;> rfl
  obtain ⟨hanswers,hpart⟩ := hrep.shard_run hrep' hw hw' hn hle hstart events
  have hrun := hrep.run events
  have hrun' := hrep'.run (b.shard own events)
  refine ⟨(hrep'.acceptsAll_iff _).mpr hanswers,fun id => ?_,fun side symbol => ?_⟩
  · rw [hrun.find_order,hrun'.find_order]
    exact hpart.order_eq hrun.placement hrun'.placement id
  · have hside := hpart (symbol,side)
    split_ifs at hside ⊢ with hown
    · exact hrun'.sideLevels_local hrun hside
    · -- nothing rests on a side without orders
      have hempty : (b'.run (b.shard own events)).sideLevels side symbol=b'.sideLevels side symbol :=
        hrun'.sideLevels_local hrep' hside
      obtain ⟨-,-,rfl⟩ := create_ok hb'
      rw [hempty]
      rfl

/-- Two symbols and a book for one of them. -/
theorem shard_agrees_two : ∃ b b', create 4=.ok b ∧ create 8=.ok b' ∧
    ∃ events, events=b.shard (fun s => s=Symbol.fromPadded [65])
      [.add ⟨default,⟨7,Symbol.fromPadded [65],.buy,5,100⟩⟩,
        .add ⟨default,⟨8,Symbol.fromPadded [77],.buy,6,100⟩⟩,.delete ⟨default,8⟩] ∧
    events=[.add ⟨default,⟨7,Symbol.fromPadded [65],.buy,5,100⟩⟩] ∧ b'.AcceptsAll events ∧
    (b'.run events).sideLevels .buy (Symbol.fromPadded [65])=some [⟨100,5,[7]⟩] := by
  obtain ⟨b,hb⟩ := create_isOk (n := 4) (by decide) (by decide)
  obtain ⟨b',hb'⟩ := create_isOk (n := 8) (by decide) (by decide)
  have h := shard_agrees hb hb' (by decide) (fun s => s=Symbol.fromPadded [65])
    [.add ⟨default,⟨7,Symbol.fromPadded [65],.buy,5,100⟩⟩,
      .add ⟨default,⟨8,Symbol.fromPadded [77],.buy,6,100⟩⟩,.delete ⟨default,8⟩]
  refine ⟨b,b',hb,hb',_,rfl,?_,h.1,(h.2.2 .buy _).trans ?_⟩
  · obtain ⟨-,-,rfl⟩ := create_ok hb
    decide +kernel
  · obtain ⟨-,-,rfl⟩ := create_ok hb
    decide +kernel

end OrderBook
end MarketWire
