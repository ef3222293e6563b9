import MarketWire.BookAtomicity
import MarketWire.BookView

/-! Equations between runs of the book: a replacement is a removal followed by an addition,
and a row of executions and cancels acts through its sum. -/
namespace MarketWire
open Library

/-- The same arena, free list and maps, and an index with the same meaning. -/
structure OrderBook.SameState (b b' : OrderBook) : Prop where
  slots : b.slots=b'.slots
  freeHead : b.freeHead=b'.freeHead
  books : b.books=b'.books
  index : ∀ id, b.index.find id=b'.index.find id

namespace Rep
variable {b b' : OrderBook} {L : Ledger}

theorem sameLength (h : Rep b L) (h' : Rep b' L) : b.slots.length=b'.slots.length := by
  rw [← h.live_length,← h'.live_length]

theorem sameState (h : Rep b L) (h' : Rep b' L) : b.SameState b' := by
  obtain ⟨hs,hf,hb,hi⟩ := h.determined h' (h.sameLength h')
  exact ⟨hs,hf,hb,hi⟩

end Rep

namespace Ledger
variable {L : Ledger} {n : Nat} {id : OrderId} {p : Placed}

/-- On the ledger a replacement is the removal and the addition. -/
theorem remove_add {e : ReplaceEvent} (hp : L.lookup e.oldOrderId=some p)
    (hne : e.newOrderId≠e.oldOrderId) :
    ((L.remove e.oldOrderId).1.add (replaced p.2 e)).2=(L.replace e).2 ∧
      ((L.replace e).2=true →
        ((L.remove e.oldOrderId).1.add (replaced p.2 e)).1=(L.replace e).1) := by
  have hl : lookup ⟨withoutId L.live e.oldOrderId,p.1::L.free⟩ e.newOrderId=
      L.lookup e.newOrderId := by
    rw [lookup_withoutId,if_neg hne]
  have hid : (replaced p.2 e).id=e.newOrderId := rfl
  have hq : (replaced p.2 e).quantity=e.newQuantity := rfl
  rw [remove,replace,hp]
  dsimp only
  rw [add,hid,hq,hl,total]
  by_cases hrej : e.newOrderId=0 ∨ e.newQuantity=0 ∨ (L.lookup e.newOrderId).isSome
  · rw [if_pos hrej,if_pos hrej]
    exact ⟨rfl,fun h => absurd h Bool.false_ne_true⟩
  · rw [if_neg hrej,if_neg hrej]
    dsimp only
    split_ifs with hover
    · exact ⟨rfl,False.elim⟩
    · exact ⟨rfl,fun _ => rfl⟩

/-- The answers to events, one after another. -/
def answers (L : Ledger) : List MarketEvent → List Bool
  | [] => []
  | e::rest => (L.apply e).2::answers (L.apply e).1 rest

theorem setQuantity_setQuantity (L : Ledger) (id : OrderId) (q q' : Quantity) :
    (L.setQuantity id q).setQuantity id q'=L.setQuantity id q' := by
  obtain ⟨live,free⟩ := L
  simp only [setQuantity,List.map_map]
  congr 1
  refine List.map_congr_left fun p _ => ?_
  by_cases hid : p.2.id=id
  · simp [hid,Order.withQuantity]
  · simp [hid]

end Ledger

/-- The order that an execution or a cancel names, and the shares it takes. -/
def MarketEvent.taken : MarketEvent → Option (OrderId×Quantity)
  | .execute e => some (e.orderId,e.executedShares)
  | .cancel e => some (e.orderId,e.canceledShares)
  | _ => none

/-- Executions and cancels of `id` that take the given shares. -/
def TakenFrom (id : OrderId) (events : List MarketEvent) (shares : List Quantity) : Prop :=
  events.map MarketEvent.taken=shares.map fun s => some (id,s)

def totalShares (shares : List Quantity) : Nat := (shares.map UInt32.toNat).sum

theorem TakenFrom.prefix_of {id : OrderId} {events earlier later : List MarketEvent}
    {shares xs : List Quantity} (hx : TakenFrom id earlier xs) (he : events=earlier++later)
    (h : TakenFrom id events shares) : xs<+:shares := by
  have hinj : Function.Injective fun s : Quantity => some (id,s) := fun s t hst => by
    simpa using hst
  rw [← List.prefix_map_iff_of_injective hinj,← hx,← h,he,List.map_append]
  exact List.prefix_append _ _

namespace Ledger
variable {L : Ledger} {n : Nat} {id : OrderId} {p : Placed}

theorem apply_taken {e : MarketEvent} {shares : Quantity} (h : e.taken=some (id,shares)) :
    L.apply e=L.reduce id shares := by
  cases e with
  | execute e =>
    cases h
    rfl
  | cancel e =>
    cases h
    rfl
  | add e => cases h
  | delete e => cases h
  | replace e => cases h

theorem reduce_part (hp : L.lookup id=some p) {s : Quantity} (h0 : s≠0)
    (hs : s.toNat<p.2.quantity.toNat) :
    L.reduce id s=(L.setQuantity id (UInt32.ofNat (p.2.quantity.toNat-s.toNat)),true) := by
  have hle : s≤p.2.quantity := UInt32.le_iff_toNat_le.mpr hs.le
  have hne : s≠p.2.quantity := fun he => by
    rw [he] at hs
    exact lt_irrefl _ hs
  have hsub : p.2.quantity-s=UInt32.ofNat (p.2.quantity.toNat-s.toNat) := by
    rw [← UInt32.toNat_sub_of_le _ _ hle,UInt32.ofNat_toNat]
  rw [reduce,hp,← hsub]
  dsimp only
  rw [if_neg (not_or.mpr ⟨h0,UInt32.not_lt.mpr hle⟩),if_neg hne]

/-- The order that is left when part of it has been taken. -/
theorem lookup_part (hp : L.lookup id=some p) {left : Nat} (h : left≤p.2.quantity.toNat) :
    ∃ p', (L.setQuantity id (UInt32.ofNat left)).lookup id=some p' ∧ p'.2.quantity.toNat=left := by
  refine ⟨(p.1,p.2.withQuantity (UInt32.ofNat left)),?_,?_⟩
  · rw [lookup_setQuantity,hp]
    rfl
  · exact UInt32.toNat_ofNat_of_lt' (h.trans_lt p.2.quantity.toNat_lt)

theorem reduce_all (hp : L.lookup id=some p) (h0 : p.2.quantity≠0) :
    L.reduce id p.2.quantity=L.remove id := by
  rw [reduce,hp]
  dsimp only
  rw [if_neg (not_or.mpr ⟨h0,UInt32.lt_irrefl _⟩),if_pos rfl]

theorem reduce_beyond (hp : L.lookup id=some p) {s : Quantity}
    (hs : p.2.quantity.toNat<s.toNat) : L.reduce id s=(L,false) := by
  rw [reduce,hp]
  dsimp only
  rw [if_pos (.inr (UInt32.lt_iff_toNat_lt.mpr hs))]

theorem reduce_absent (hp : L.lookup id=none) (s : Quantity) : L.reduce id s=(L,false) := by
  rw [reduce,hp]

theorem lookup_remove (L : Ledger) (id : OrderId) : (L.remove id).1.lookup id=none := by
  cases hp : L.lookup id with
  | none => rw [remove,hp,hp]
  | some p => rw [remove,hp,lookup_withoutId,if_pos rfl]

/-- What is left of a ledger when `total` shares have been taken from an order of `quantity`. -/
def afterTaking (L : Ledger) (id : OrderId) (quantity total : Nat) : Ledger :=
  if total=quantity then (L.remove id).1
  else L.setQuantity id (UInt32.ofNat (quantity-total))

theorem afterTaking_setQuantity (hp : L.lookup id=some p) {q s t : Nat} (h : s+t≤q)
    (x : Quantity) : (L.setQuantity id x).afterTaking id (q-s) t=L.afterTaking id q (s+t) := by
  rw [afterTaking,afterTaking,remove_setQuantity hp,setQuantity_setQuantity,Nat.sub_sub]
  by_cases heq : s+t=q
  · rw [if_pos (by omega),if_pos heq]
  · rw [if_neg (by omega),if_neg heq]

theorem toNat_pos {s : Quantity} (h : s≠0) : 0<s.toNat :=
  Nat.pos_of_ne_zero fun h0 => h (UInt32.toNat_inj.mp h0)

theorem totalShares_pos {shares : List Quantity} (hne : shares≠[]) (h0 : ∀ s∈shares, s≠0) :
    0<totalShares shares := by
  cases shares with
  | nil => exact absurd rfl hne
  | cons s rest =>
    have hs := toNat_pos (h0 s (by simp))
    simp only [totalShares,List.map_cons,List.sum_cons]
    omega

/-- Shares that fit are all taken, and only their sum matters. -/
theorem run_taken {events : List MarketEvent} {shares : List Quantity}
    (h : TakenFrom id events shares) (hp : L.lookup id=some p) (h0 : ∀ s∈shares, s≠0)
    (hfit : totalShares shares≤p.2.quantity.toNat) :
    (∀ a∈L.answers events, a=true) ∧
      (shares≠[] → L.run events=L.afterTaking id p.2.quantity.toNat (totalShares shares)) := by
  induction shares generalizing L p events with
  | nil =>
    obtain rfl : events=[] := List.map_eq_nil_iff.mp h
    exact ⟨by simp [answers],fun hne => absurd rfl hne⟩
  | cons s rest ih =>
    obtain ⟨e,es,rfl,he,hes⟩ := List.map_eq_cons_iff.mp h
    have hpos := toNat_pos (h0 s (by simp))
    have hrest := fun x hx => h0 x (List.mem_cons_of_mem s hx)
    have hsum : totalShares (s::rest)=s.toNat+totalShares rest := by simp [totalShares]
    have hrun : L.run (e::es)=(L.reduce id s).1.run es := by
      rw [← apply_taken he]
      rfl
    rw [answers,apply_taken he,List.forall_mem_cons,hrun]
    rw [hsum] at hfit ⊢
    by_cases hall : s.toNat=p.2.quantity.toNat
    · obtain rfl : s=p.2.quantity := UInt32.toNat_inj.mp hall
      obtain rfl : rest=[] := by
        cases rest with
        | nil => rfl
        | cons x xs =>
          have hx := toNat_pos (hrest x (by simp))
          simp only [totalShares,List.map_cons,List.sum_cons] at hfit
          omega
      obtain rfl : es=[] := List.map_eq_nil_iff.mp hes
      rw [reduce_all hp (h0 _ (by simp))]
      refine ⟨⟨by rw [remove,hp],by simp [answers]⟩,fun _ => ?_⟩
      exact (if_pos rfl).symm
    · have hlt : s.toNat<p.2.quantity.toNat := by omega
      obtain ⟨p1,hp1,hq1⟩ := lookup_part hp (Nat.sub_le p.2.quantity.toNat s.toNat)
      obtain ⟨hans,hnext⟩ := ih hes hp1 hrest (by omega)
      rw [reduce_part hp (h0 s (by simp)) hlt]
      refine ⟨⟨rfl,hans⟩,fun _ => ?_⟩
      by_cases hnil : rest=[]
      · subst hnil
        obtain rfl : es=[] := List.map_eq_nil_iff.mp hes
        exact (if_neg hall).symm
      · rw [hnext hnil,hq1,afterTaking_setQuantity hp hfit]

/-- Shares that are all taken fit. -/
theorem fits_of_answers {events : List MarketEvent} {shares : List Quantity}
    (h : TakenFrom id events shares) (hp : L.lookup id=some p) (h0 : ∀ s∈shares, s≠0)
    (hans : ∀ a∈L.answers events, a=true) : totalShares shares≤p.2.quantity.toNat := by
  induction shares generalizing L p events with
  | nil => exact Nat.zero_le _
  | cons s rest ih =>
    obtain ⟨e,es,rfl,he,hes⟩ := List.map_eq_cons_iff.mp h
    have hsum : totalShares (s::rest)=s.toNat+totalShares rest := by simp [totalShares]
    rw [answers,apply_taken he,List.forall_mem_cons] at hans
    obtain ⟨hfirst,hmore⟩ := hans
    rcases Nat.lt_trichotomy s.toNat p.2.quantity.toNat with hlt | heq | hgt
    · obtain ⟨p1,hp1,hq1⟩ := lookup_part hp (Nat.sub_le p.2.quantity.toNat s.toNat)
      rw [reduce_part hp (h0 s (by simp)) hlt] at hmore
      have hfit := ih hes hp1 (fun x hx => h0 x (List.mem_cons_of_mem s hx)) hmore
      omega
    · obtain rfl : s=p.2.quantity := UInt32.toNat_inj.mp heq
      rw [reduce_all hp (h0 _ (by simp))] at hmore
      cases rest with
      | nil => exact hsum.le
      | cons x xs =>
        -- the order is gone, so nothing more can have been taken
        obtain ⟨e',es',rfl,he',-⟩ := List.map_eq_cons_iff.mp hes
        rw [answers,apply_taken he',reduce_absent (lookup_remove L id),List.forall_mem_cons] at hmore
        cases hmore.1
    · rw [reduce_beyond hp hgt] at hfirst
      cases hfirst

/-- Shares beyond what is left are refused. -/
theorem reduce_after {events : List MarketEvent} {shares : List Quantity} {s : Quantity}
    (h : TakenFrom id events shares) (hp : L.lookup id=some p) (h0 : ∀ s∈shares, s≠0)
    (hfit : totalShares shares≤p.2.quantity.toNat)
    (hs : p.2.quantity.toNat<totalShares shares+s.toNat) :
    (L.run events).reduce id s=(L.run events,false) := by
  obtain ⟨-,hrun⟩ := run_taken h hp h0 hfit
  cases shares with
  | nil =>
    obtain rfl : events=[] := List.map_eq_nil_iff.mp h
    exact reduce_beyond hp (by simpa [totalShares] using hs)
  | cons x xs =>
    rw [hrun (List.cons_ne_nil x xs),afterTaking]
    split_ifs with hall
    · exact reduce_absent (lookup_remove L id) s
    · obtain ⟨p1,hp1,hq1⟩ := lookup_part hp
        (Nat.sub_le p.2.quantity.toNat (totalShares (x::xs)))
      exact reduce_beyond hp1 (by omega)

end Ledger

/-- Every event is accepted when its turn comes. -/
def OrderBook.AcceptsAll (b : OrderBook) (events : List MarketEvent) : Prop :=
  ∀ earlier e later, events=earlier++e::later → ((b.run earlier).apply e).2=.returned true

theorem Rep.acceptsAll_iff {b : OrderBook} {L : Ledger} (h : Rep b L) (events : List MarketEvent) :
    b.AcceptsAll events ↔ ∀ a∈L.answers events, a=true := by
  induction events generalizing b L with
  | nil =>
    refine ⟨fun _ => by simp [Ledger.answers],fun _ earlier e later he => ?_⟩
    simp at he
  | cons e rest ih =>
    rw [Ledger.answers,List.forall_mem_cons,← ih (h.apply e).2]
    constructor
    · intro hall
      refine ⟨?_,fun earlier e' later he => hall (e::earlier) e' later (by rw [he]; rfl)⟩
      have hfirst := hall [] e rest rfl
      rw [show b.run []=b from rfl,(h.apply e).1] at hfirst
      exact Outcome.returned.inj hfirst
    · rintro ⟨hfirst,hall⟩ earlier e' later he
      cases earlier with
      | nil =>
        obtain ⟨rfl,rfl⟩ := List.cons.inj he
        exact (h.apply e).1.trans (by rw [hfirst])
      | cons x xs =>
        obtain ⟨rfl,hrest⟩ := List.cons.inj he
        exact hall xs e' later hrest

namespace OrderBook
variable {n : Nat} {b : OrderBook}

/-- A replacement is accepted exactly when the removal and the addition are, and ends where
they do. -/
theorem replace_eq_erase_add (hb : Reachable n b) (e : ReplaceEvent) {old : Order}
    (hold : b.find e.oldOrderId=some old) (hne : e.newOrderId≠e.oldOrderId) (m m' : EventMeta) :
    let replaced := b.apply (.replace e)
    let erased := b.apply (.delete ⟨m,e.oldOrderId⟩)
    let added := erased.1.apply
      (.add ⟨m',⟨e.newOrderId,old.symbol,old.side,e.newQuantity,e.newPrice⟩⟩)
    (replaced.2=.returned true ↔ erased.2=.returned true ∧ added.2=.returned true) ∧
      (replaced.2=.returned true →
        replaced.1.SameState added.1 ∧ replaced.1.SameView added.1) := by
  intro replaced erased added
  obtain ⟨L,h,-⟩ := hb.rep
  rw [h.find_order] at hold
  obtain ⟨p,hp,rfl⟩ := Option.map_eq_some_iff.mp hold
  obtain ⟨hanswer,hsame⟩ := Ledger.remove_add hp hne
  obtain ⟨hr,hrep⟩ := h.apply (.replace e)
  obtain ⟨he,herep⟩ := h.apply (.delete ⟨m,e.oldOrderId⟩)
  obtain ⟨ha,harep⟩ := herep.apply (.add ⟨m',Ledger.replaced p.2 e⟩)
  have herased : (L.apply (.delete ⟨m,e.oldOrderId⟩)).2=true := by
    rw [Ledger.apply,Ledger.remove,hp]
  have haccept : replaced.2=.returned true ↔ (L.replace e).2=true := by
    rw [show replaced.2=_ from hr]
    exact ⟨Outcome.returned.inj,congrArg _⟩
  constructor
  · rw [haccept,show erased.2=_ from he,herased,show added.2=_ from ha,← hanswer]
    exact ⟨fun h => ⟨rfl,congrArg _ h⟩,fun h => Outcome.returned.inj h.2⟩
  · intro hrt
    have hL := hsame (haccept.mp hrt)
    have hadded : Rep added.1 (L.replace e).1 := hL ▸ harep
    exact ⟨hrep.sameState hadded,hrep.sameView hadded (hrep.sameLength hadded)⟩

/-- A full arena whose only order is replaced. -/
theorem replace_eq_erase_add_full : ∃ b, Reachable 1 b ∧ b.freeHead=kInvalidSlot ∧
    (b.apply (.replace ⟨default,7,8,6,101⟩)).2=.returned true ∧
    (b.apply (.replace ⟨default,7,8,6,101⟩)).1.SameState
      ((b.apply (.delete ⟨default,7⟩)).1.apply (.add ⟨default,⟨8,default,.buy,6,101⟩⟩)).1 := by
  obtain ⟨b0,hb0⟩ := create_isOk (n := 1) (by decide) (by decide)
  set b := (b0.apply (.add ⟨default,⟨7,default,.buy,5,100⟩⟩)).1
  have hb : Reachable 1 b := .step (fun _ => false) _ (.create hb0)
  have hfacts : b.find 7=some ⟨7,default,.buy,5,100⟩ ∧ b.freeHead=kInvalidSlot ∧
      (b.apply (.replace ⟨default,7,8,6,101⟩)).2=.returned true := by
    obtain ⟨-,-,rfl⟩ := create_ok hb0
    decide +kernel
  obtain ⟨hfind,hfull,hok⟩ := hfacts
  exact ⟨b,hb,hfull,hok,((replace_eq_erase_add hb ⟨default,7,8,6,101⟩ hfind (by decide) default
    default).2 hok).1⟩

/-- Executions and cancels of one order are all accepted exactly when their sum fits, the first
one beyond it is refused without effect, and only the sum shows afterwards. -/
theorem taking_shares (hb : Reachable n b) {id : OrderId} {order : Order}
    (hid : b.find id=some order) {events : List MarketEvent} {shares : List Quantity}
    (h : TakenFrom id events shares) (hne : shares≠[]) (h0 : ∀ s∈shares, s≠0) (m : EventMeta) :
    (b.AcceptsAll events ↔ totalShares shares≤order.quantity.toNat) ∧
    (∀ earlier e later xs s, events=earlier++e::later → TakenFrom id earlier xs →
      e.taken=some (id,s) → totalShares xs≤order.quantity.toNat →
      order.quantity.toNat<totalShares xs+s.toNat →
      b.AcceptsAll earlier ∧ ((b.run earlier).apply e).2=.returned false ∧
        ((b.run earlier).apply e).1.SameState (b.run earlier)) ∧
    (b.AcceptsAll events →
      (totalShares shares<order.quantity.toNat → (b.run events).SameState
        (b.apply (.cancel ⟨m,id,UInt32.ofNat (totalShares shares)⟩)).1) ∧
      (totalShares shares=order.quantity.toNat →
        (b.run events).SameState (b.apply (.delete ⟨m,id⟩)).1)) := by
  obtain ⟨L,hrep,-⟩ := hb.rep
  rw [hrep.find_order] at hid
  obtain ⟨p,hp,rfl⟩ := Option.map_eq_some_iff.mp hid
  have hfits : b.AcceptsAll events ↔ totalShares shares≤p.2.quantity.toNat := by
    rw [hrep.acceptsAll_iff]
    exact ⟨Ledger.fits_of_answers h hp h0,fun hfit => (Ledger.run_taken h hp h0 hfit).1⟩
  refine ⟨hfits,?_,fun hall => ?_⟩
  · intro earlier e later xs s he hxs hs hfit hover
    have hmem : ∀ x∈xs, x≠0 := fun x hx => h0 x ((hxs.prefix_of he h).subset hx)
    obtain ⟨ho,hnext⟩ := (hrep.run earlier).apply e
    rw [Ledger.apply_taken hs,Ledger.reduce_after hxs hp hmem hfit hover] at ho hnext
    exact ⟨(hrep.acceptsAll_iff _).mpr (Ledger.run_taken hxs hp hmem hfit).1,ho,
      hnext.sameState (hrep.run earlier)⟩
  · have hrun := (Ledger.run_taken h hp h0 (hfits.mp hall)).2 hne
    have hend := hrep.run events
    rw [hrun,Ledger.afterTaking] at hend
    constructor
    · intro hlt
      have hsmall := UInt32.toNat_ofNat_of_lt' (hlt.trans p.2.quantity.toNat_lt)
      have hpos : UInt32.ofNat (totalShares shares)≠0 := fun hz => by
        rw [hz] at hsmall
        exact (Ledger.totalShares_pos hne h0).ne hsmall
      obtain ⟨-,hone⟩ := hrep.apply (.cancel ⟨m,id,UInt32.ofNat (totalShares shares)⟩)
      rw [Ledger.apply_taken rfl,Ledger.reduce_part hp hpos (by rwa [hsmall]),hsmall] at hone
      rw [if_neg hlt.ne] at hend
      exact hend.sameState hone
    · intro heq
      rw [if_pos heq] at hend
      exact hend.sameState (hrep.apply (.delete ⟨m,id⟩)).2

/-- An order of five shares: two executed and three canceled leave what a deletion leaves. -/
theorem taking_shares_all : ∃ b, Reachable 2 b ∧
    (b.run [.execute ⟨default,7,2,0,false,0,true⟩,.cancel ⟨default,7,3⟩]).SameState
      (b.apply (.delete ⟨default,7⟩)).1 := by
  obtain ⟨b0,hb0⟩ := create_isOk (n := 2) (by decide) (by decide)
  set b := (b0.apply (.add ⟨default,⟨7,default,.buy,5,100⟩⟩)).1
  have hb : Reachable 2 b := .step (fun _ => false) _ (.create hb0)
  have hfind : b.find 7=some ⟨7,default,.buy,5,100⟩ := by
    obtain ⟨-,-,rfl⟩ := create_ok hb0
    decide +kernel
  obtain ⟨haccept,-,hend⟩ := taking_shares hb hfind
    (show TakenFrom 7 [.execute ⟨default,7,2,0,false,0,true⟩,.cancel ⟨default,7,3⟩] [2,3] from rfl)
    (by decide) (by simp) default
  exact ⟨b,hb,(hend (haccept.mpr (by decide))).2 (by decide)⟩

end OrderBook

end MarketWire
