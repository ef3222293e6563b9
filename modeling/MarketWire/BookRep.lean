import MarketWire.BookLinks

/-! The representation relation between the concrete book and its ledger. It fixes the
slots, the free list, the level maps and the meaning of the index completely. -/
namespace MarketWire
open Library

/-- The index means: the id of a live order is found at its slot. -/
structure IndexRep (index : FlatOrderIndex splitMix64) (n : Nat) (live : List Placed) : Prop where
  wf : index.WF
  cap : 2*n ≤ index.entries.length
  find : ∀ id s, index.find id=some s ↔ ∃ o, (s,o)∈live ∧ o.id=id

/-- Flags of the live slots and the free list of the arena. -/
structure ArenaRep (slots : Slots) (freeHead : SlotIndex) (L : Ledger) : Prop where
  flags : ∀ p∈L.live, (slots.slotAt p.1).alive=true ∧ (slots.slotAt p.1).nextFree=kInvalidSlot
  blank : ∀ s∈L.free, slots.slotAt s={ nextFree := slots.nextFrees s }
  chain : Chain kInvalidSlot slots.nextFrees freeHead L.free

structure Rep (b : OrderBook) (L : Ledger) : Prop where
  placement : L.Placement b.slots.length
  bound : b.slots.length<kInvalidSlot.toNat
  index : IndexRep b.index b.slots.length L.live
  arena : ArenaRep b.slots b.freeHead L
  links : LinksRep b.slots b.books.level? L.live
  tight : b.books.Tight

namespace IndexRep
variable {index : FlatOrderIndex splitMix64} {n : Nat} {live : List Placed}

theorem find_none (h : IndexRep index n live) {id : OrderId} :
    index.find id=none ↔ ∀ p∈live, p.2.id≠id := by
  rw [Option.eq_none_iff_forall_ne_some]
  constructor
  · intro hn p hp hid
    exact hn p.1 ((h.find id p.1).mpr ⟨p.2,hp,hid⟩)
  · rintro hn s hs
    obtain ⟨o,ho,hid⟩ := (h.find id s).mp hs
    exact hn (s,o) ho hid

/-- The index counts the live orders. -/
theorem size_eq (h : IndexRep index n live) (hn : (live.map fun p => p.2.id).Nodup) :
    index.size=live.length := by
  have hp : index.keys.Perm (live.map fun p => p.2.id) := by
    refine (List.perm_ext_iff_of_nodup h.wf.keys_nodup hn).mpr fun id => ?_
    rw [h.wf.mem_keys,Option.isSome_iff_exists]
    constructor
    · rintro ⟨s,hs⟩
      obtain ⟨o,ho,rfl⟩ := (h.find id s).mp hs
      exact List.mem_map.mpr ⟨(s,o),ho,rfl⟩
    · intro hm
      obtain ⟨p,hp,rfl⟩ := List.mem_map.mp hm
      exact ⟨p.1,(h.find _ _).mpr ⟨p.2,hp,rfl⟩⟩
  rw [h.wf.count,hp.length_eq,List.length_map]

theorem insert (h : IndexRep index n live) (hn : (live.map fun p => p.2.id).Nodup)
    (hle : live.length≤n) (p : Placed) (habs : index.find p.2.id=none) :
    (index.insert p.2.id p.1).2=true ∧ IndexRep (index.insert p.2.id p.1).1 n (live++[p]) := by
  have hpos := h.wf.pos
  have hcap := h.cap
  have hload : index.size*10 < index.entries.length*7 := by
    rw [h.size_eq hn]
    omega
  obtain ⟨hok,hwf,hlen,hfind⟩ := h.wf.insert_spec p.1 hload habs
  refine ⟨hok,hwf,by rw [hlen]; exact hcap,fun id s => ?_⟩
  rw [hfind]
  split_ifs with hid
  · subst hid
    constructor
    · intro hs
      exact ⟨p.2,by simp [← Option.some.inj hs],rfl⟩
    · rintro ⟨o,ho,hid⟩
      cases List.mem_append.mp ho with
      | inl ho => exact absurd hid (h.find_none.mp habs (s,o) ho)
      | inr ho => rw [← List.mem_singleton.mp ho]
  · rw [h.find]
    constructor
    · rintro ⟨o,ho,ho'⟩
      exact ⟨o,List.mem_append_left _ ho,ho'⟩
    · rintro ⟨o,ho,ho'⟩
      cases List.mem_append.mp ho with
      | inl ho => exact ⟨o,ho,ho'⟩
      | inr ho =>
        rw [← List.mem_singleton.mp ho] at hid
        exact absurd ho'.symm hid

theorem erase (h : IndexRep index n live) (id : OrderId) :
    IndexRep (index.erase id).1 n (withoutId live id) := by
  cases hf : index.find id with
  | none =>
    rw [FlatOrderIndex.erase_absent hf]
    have hw : withoutId live id=live :=
      List.filter_eq_self.mpr fun p hp => by simpa using h.find_none.mp hf p hp
    rw [hw]
    exact h
  | some s =>
    obtain ⟨_,hwf,hlen,hfind⟩ := h.wf.erase_spec hf
    refine ⟨hwf,by rw [hlen]; exact h.cap,fun id' s' => ?_⟩
    rw [hfind]
    split_ifs with hid
    · subst hid
      simp only [withoutId,List.mem_filter]
      constructor
      · intro hs
        cases hs
      · rintro ⟨o,⟨_,hne⟩,ho⟩
        simp [ho] at hne
    · rw [h.find]
      simp only [withoutId,List.mem_filter]
      constructor
      · rintro ⟨o,ho,rfl⟩
        exact ⟨o,⟨ho,by simpa using hid⟩,rfl⟩
      · rintro ⟨o,⟨ho,_⟩,ho'⟩
        exact ⟨o,ho,ho'⟩

end IndexRep

namespace ArenaRep
variable {slots slots' : Slots} {freeHead : SlotIndex} {live live' : List Placed}
  {free : List SlotIndex}

/-- Links and orders may change under the free list; flags may not. -/
theorem congr (h : ArenaRep slots freeHead ⟨live,free⟩)
    (hlive : ∀ p∈live', (slots'.slotAt p.1).alive=true ∧
      (slots'.slotAt p.1).nextFree=kInvalidSlot)
    (hfree : ∀ s∈free, slots'.slotAt s=slots.slotAt s) : ArenaRep slots' freeHead ⟨live',free⟩ := by
  refine ⟨hlive,fun s hs => ?_,h.chain.congr fun s hs => ?_⟩
  · rw [Slots.nextFrees,hfree s hs]
    exact h.blank s hs
  · rw [Slots.nextFrees,hfree s hs]
    rfl

/-- The free list is a stack: a released slot becomes its head. -/
theorem release (h : ArenaRep slots freeHead ⟨live,free⟩) {s : SlotIndex}
    (hlt : s.toNat<slots.length) (hinv : s≠kInvalidSlot) (hlive : s∉live.map Prod.fst)
    (hfree : s∉free) :
    ArenaRep (slots.update s fun _ => { nextFree := freeHead }) s ⟨live,s::free⟩ := by
  have hat (j : SlotIndex) : (slots.update s fun _ => { nextFree := freeHead }).slotAt j=
      if j=s then { nextFree := freeHead } else slots.slotAt j := Slots.slotAt_update hlt
  have hne {j : SlotIndex} (hj : j∈free) : j≠s := fun he => hfree (he ▸ hj)
  refine ⟨fun p hp => ?_,fun j hj => ?_,rfl,hinv,?_⟩
  · have hps : p.1≠s := fun he => hlive (he ▸ List.mem_map_of_mem hp)
    rw [hat,if_neg hps]
    exact h.flags p hp
  · rw [Slots.nextFrees]
    rcases List.mem_cons.mp hj with rfl | hj
    · rw [hat,if_pos rfl]
    · rw [hat,if_neg (hne hj)]
      exact h.blank j hj
  · rw [Slots.nextFrees,hat,if_pos rfl]
    refine h.chain.congr fun j hj => ?_
    rw [Slots.nextFrees,hat,if_neg (hne hj)]
    rfl

/-- The free list below its head. -/
theorem below {s : SlotIndex} (h : ArenaRep slots freeHead ⟨live,s::free⟩) :
    ArenaRep slots (slots.nextFrees s) ⟨live,free⟩ :=
  ⟨h.flags,fun j hj => h.blank j (List.mem_cons_of_mem s hj),h.chain.2.2⟩

end ArenaRep

namespace Rep
variable {b b' : OrderBook} {L : Ledger}

theorem resident (h : Rep b L) : Resident b.slots L.live :=
  ⟨h.bound.le,h.placement.live_nodup,fun _ hp => h.placement.live_lt hp⟩

theorem live_ne_invalid (h : Rep b L) {p : Placed} (hp : p∈L.live) : p.1≠kInvalidSlot := by
  intro he
  have hlt := h.placement.live_lt hp
  have hb := h.bound
  rw [he] at hlt
  omega

theorem free_not_live (h : Rep b L) {s : SlotIndex} (hs : s∈L.free) : s∉L.live.map Prod.fst := by
  intro hm
  obtain ⟨p,hp,rfl⟩ := List.mem_map.mp hm
  exact h.placement.live_not_free hp hs

theorem find_eq (h : Rep b L) (id : OrderId) : b.index.find id=(L.lookup id).map Prod.fst := by
  refine Option.ext fun s => ?_
  rw [h.index.find,Option.map_eq_some_iff]
  constructor
  · rintro ⟨o,ho,hid⟩
    exact ⟨(s,o),h.placement.lookup_eq_some.mpr ⟨ho,hid⟩,rfl⟩
  · rintro ⟨p,hp,rfl⟩
    obtain ⟨hm,hid⟩ := h.placement.lookup_eq_some.mp hp
    exact ⟨p.2,hm,hid⟩

theorem find_isSome (h : Rep b L) (id : OrderId) :
    (b.index.find id).isSome=(L.lookup id).isSome := by
  rw [h.find_eq,Option.isSome_map]

theorem find_of_lookup (h : Rep b L) {id : OrderId} {p : Placed} (hp : L.lookup id=some p) :
    b.index.find id=some p.1 ∧ (b.slots.slotAt p.1).order=p.2 ∧ p∈L.live ∧ p.2.id=id := by
  obtain ⟨hm,hid⟩ := h.placement.lookup_eq_some.mp hp
  refine ⟨?_,h.links.order p hm,hm,hid⟩
  rw [h.find_eq,hp]
  rfl

/-- The relation sees the index only through its meaning and the maps through levels. -/
theorem transfer (h : Rep b L) (hs : b'.slots=b.slots) (hf : b'.freeHead=b.freeHead)
    (hi : IndexRep b'.index b.slots.length L.live) (hl : b'.books.level?=b.books.level?)
    (ht : b'.books.Tight) : Rep b' L :=
  ⟨by rw [hs]; exact h.placement,by rw [hs]; exact h.bound,by rw [hs]; exact hi,
    by rw [hs,hf]; exact h.arena,by rw [hs,hl]; exact h.links,ht⟩

theorem live_length (h : Rep b L) : L.live.length+L.free.length=b.slots.length :=
  h.placement.length (h.bound.le.trans (by decide))

/-- A live order rests at a stored level. -/
theorem level_of_live (h : Rep b L) {p : Placed} (hp : p∈L.live) :
    ∃ level, b.books.level? p.2.key=some level ∧
      level.totalQuantity.toNat=sumQuantity (atKey L.live p.2.key) := by
  have hrep := h.links.level p.2.key
  cases hl : b.books.level? p.2.key with
  | none =>
    rw [hl] at hrep
    have hm : p∈atKey L.live p.2.key := (mem_atKey _ _ _).mpr ⟨hp,rfl⟩
    rw [show atKey L.live p.2.key=[] from hrep] at hm
    cases hm
  | some level =>
    rw [hl] at hrep
    exact ⟨level,rfl,hrep.2.2⟩

/-- The maps are determined by the live orders. -/
theorem books_eq {L' : Ledger} (h : Rep b L) (h' : Rep b' L') (hlive : L.live=L'.live) :
    b.books=b'.books := by
  refine h.tight.ext h'.tight (funext fun k => ?_)
  have h1 := h.links.level k
  have h2 := h'.links.level k
  rw [← hlive] at h2
  cases hl : b.books.level? k with
  | none =>
    cases hl' : b'.books.level? k with
    | none => rfl
    | some level =>
      rw [hl] at h1
      rw [hl'] at h2
      exact absurd h1 h2.1
  | some level =>
    cases hl' : b'.books.level? k with
    | none =>
      rw [hl] at h1
      rw [hl'] at h2
      exact absurd h2 h1.1
    | some level' =>
      rw [hl] at h1
      rw [hl'] at h2
      have ht : level.totalQuantity=level'.totalQuantity :=
        UInt32.toNat_inj.mp (h1.2.2.trans h2.2.2.symm)
      have hh : level.head=level'.head := h1.2.1.head_eq.trans h2.2.1.head_eq.symm
      have htl : level.tail=level'.tail := h1.2.1.tail_eq.trans h2.2.1.tail_eq.symm
      cases level
      cases level'
      simp_all

/-- A ledger has one representation, up to the layout of the index. -/
theorem determined (h : Rep b L) (h' : Rep b' L) (hlen : b.slots.length=b'.slots.length) :
    b.slots=b'.slots ∧ b.freeHead=b'.freeHead ∧ b.books=b'.books ∧
      ∀ id, b.index.find id=b'.index.find id := by
  have hfree : b.freeHead=b'.freeHead :=
    h.arena.chain.head_eq.trans h'.arena.chain.head_eq.symm
  refine ⟨?_,hfree,h.books_eq h' rfl,fun id => by rw [h.find_eq,h'.find_eq]⟩
  refine Slots.ext_slotAt hlen (h.bound.le.trans (by decide)) fun i hi => ?_
  cases List.mem_append.mp ((h.placement.cover i).mpr hi) with
  | inl hm =>
    obtain ⟨p,hp,rfl⟩ := List.mem_map.mp hm
    have hq : p.1∈queueOf L.live p.2.key := (mem_queueOf _ _).mpr ⟨p.2,hp,rfl⟩
    have hlinks := Seg.links_eq (h.links.level p.2.key).dlist.1 (h'.links.level p.2.key).dlist.1
      p.1 hq
    have ho := (h.links.order p hp).trans (h'.links.order p hp).symm
    have hf := h.arena.flags p hp
    have hf' := h'.arena.flags p hp
    have hn : (b.slots.slotAt p.1).next=(b'.slots.slotAt p.1).next := hlinks.1
    have hp' : (b.slots.slotAt p.1).prev=(b'.slots.slotAt p.1).prev := hlinks.2
    cases hs : b.slots.slotAt p.1
    cases hs' : b'.slots.slotAt p.1
    simp_all
  | inr hm =>
    have hnf := h.arena.chain.links_eq h'.arena.chain i hm
    rw [h.arena.blank i hm,h'.arena.blank i hm,hnf]

end Rep
end MarketWire
