import MarketWire.Library.LinearProbe
import MarketWire.Types
import Mathlib.Data.Nat.Log

/-! The fixed-capacity open-addressing index from order ids to arena slots. The hash
is a parameter of the type: nothing below depends on how it spreads keys. -/
namespace MarketWire
open Library

inductive EntryState where
  | empty
  | occupied
  | tombstone
  deriving DecidableEq, Repr

structure Entry where
  key : OrderId := 0
  value : SlotIndex := kInvalidSlot
  state : EntryState := .empty
  deriving DecidableEq, Repr

instance : Inhabited Entry := ⟨{}⟩

structure FlatOrderIndex (hash : OrderId → UInt64) where
  entries : List Entry
  mask : Nat
  size : Nat
  deriving DecidableEq, Repr

def bitCeil (n : Nat) : Nat := 2^Nat.clog 2 n

/-- SplitMix64 finalizer. -/
def splitMix64 (x : UInt64) : UInt64 :=
  let x := x^^^(x>>>30)
  let x := x*0xbf58476d1ce4e5b9
  let x := x^^^(x>>>27)
  let x := x*0x94d049bb133111eb
  x^^^(x>>>31)

namespace FlatOrderIndex
variable {hash : OrderId → UInt64}

def create (maxEntries : Nat) : FlatOrderIndex hash :=
  let wanted := if maxEntries<8 then 16 else maxEntries*2
  let cap := bitCeil wanted
  { entries := List.replicate cap {}, mask := cap-1, size := 0 }

def capacity (t : FlatOrderIndex hash) : Nat := t.entries.length

def entryAt (t : FlatOrderIndex hash) (pos : Nat) : Entry := t.entries.getD pos {}

/-- Overwrite one entry and set the live count. -/
def store (t : FlatOrderIndex hash) (pos : Nat) (e : Entry) (size : Nat) : FlatOrderIndex hash :=
  { t with entries := t.entries.set pos e, size := size }

def home (t : FlatOrderIndex hash) (key : OrderId) : Nat := (hash key).toNat&&&t.mask

/-- The probe loop shared by `find` and `erase`: the position of `key`, unless an empty
entry or the end of the round comes first. -/
def locate (t : FlatOrderIndex hash) (key : OrderId) : Nat → Nat → Option Nat
  | 0, _ => none
  | probes+1, pos =>
    let e := t.entryAt pos
    if e.state=.empty then none
    else if e.state=.occupied ∧ e.key=key then some pos
    else locate t key probes ((pos+1)&&&t.mask)

def find (t : FlatOrderIndex hash) (key : OrderId) : Option SlotIndex :=
  (t.locate key t.entries.length (t.home key)).map fun pos => (t.entryAt pos).value

/-- The probe loop of `insert`: the entry to write, remembering the first tombstone. -/
def insertLoop (t : FlatOrderIndex hash) (key : OrderId) :
    Nat → Nat → Option Nat → Option Nat
  | 0, _, tombstone => tombstone
  | probes+1, pos, tombstone =>
    let e := t.entryAt pos
    if e.state=.occupied ∧ e.key=key then none
    else
      let tombstone := if e.state=.tombstone ∧ tombstone=none then some pos else tombstone
      if e.state=.empty then some (tombstone.getD pos)
      else insertLoop t key probes ((pos+1)&&&t.mask) tombstone

def insert (t : FlatOrderIndex hash) (key : OrderId) (value : SlotIndex) :
    FlatOrderIndex hash×Bool :=
  if t.size*10≥t.entries.length*7 then (t,false)
  else
    match t.insertLoop key t.entries.length (t.home key) none with
    | none => (t,false)
    | some target => (t.store target { key, value, state := .occupied } (t.size+1),true)

def erase (t : FlatOrderIndex hash) (key : OrderId) : FlatOrderIndex hash×Bool :=
  match t.locate key t.entries.length (t.home key) with
  | none => (t,false)
  | some pos => (t.store pos { t.entryAt pos with state := .tombstone } (t.size-1),true)

end FlatOrderIndex

/-- The library cell an entry stands for. -/
def Entry.cell (e : Entry) : Cell OrderId SlotIndex :=
  match e.state with
  | .empty => .empty
  | .tombstone => .tombstone
  | .occupied => .occupied e.key e.value

theorem Entry.cell_eq_occupied {e : Entry} {k : OrderId} {v : SlotIndex} :
    e.cell=.occupied k v ↔ e.state=.occupied ∧ e.key=k ∧ e.value=v := by
  cases hs : e.state <;> simp [Entry.cell,hs]

theorem Entry.cell_eq_empty {e : Entry} : e.cell=.empty ↔ e.state=.empty := by
  cases hs : e.state <;> simp [Entry.cell,hs]

namespace FlatOrderIndex
variable {hash : OrderId → UInt64} {t : FlatOrderIndex hash}

def cell (t : FlatOrderIndex hash) (i : Nat) : Cell OrderId SlotIndex :=
  (t.entryAt i).cell

/-- The keys of the occupied entries. -/
def keys (t : FlatOrderIndex hash) : List OrderId :=
  (t.entries.filter fun e => e.state=.occupied).map Entry.key

/-- Invariant of the index. -/
structure WF (t : FlatOrderIndex hash) : Prop where
  power : ∃ k, t.entries.length=2^k
  mask : t.mask=t.entries.length-1
  probed : Probed t.entries.length t.home t.cell
  count : t.size=t.keys.length

theorem WF.pos (hw : t.WF) : 0<t.entries.length := by
  obtain ⟨k,hk⟩ := hw.power
  rw [hk]
  exact Nat.two_pow_pos k

theorem WF.and_mask (hw : t.WF) (x : Nat) : x&&&t.mask=x%t.entries.length := by
  obtain ⟨k,hk⟩ := hw.power
  rw [hw.mask,hk,Nat.and_two_pow_sub_one_eq_mod]

theorem WF.home_lt (hw : t.WF) (key : OrderId) : t.home key<t.entries.length := by
  rw [home,hw.and_mask]
  exact Nat.mod_lt _ hw.pos

theorem WF.next_pos (hw : t.WF) (pos : Nat) : (pos+1)&&&t.mask=(pos+1)%t.entries.length :=
  hw.and_mask (pos+1)

/-- What one probe of `locate` decides. -/
def probeStop (t : FlatOrderIndex hash) (key : OrderId) (pos : Nat) : Option (Option Nat) :=
  let e := t.entryAt pos
  if e.state=.empty then some none
  else if e.state=.occupied ∧ e.key=key then some (some pos)
  else none

theorem WF.locate_eq_ringFind (hw : t.WF) (key : OrderId) (probes pos : Nat) :
    t.locate key probes pos=(ringFind t.entries.length (t.probeStop key) probes pos).join := by
  induction probes generalizing pos with
  | zero => rfl
  | succ probes ih =>
    simp only [locate,ringFind,probeStop,hw.next_pos,ih]
    split_ifs <;> rfl

theorem entryAt_of_lt {pos : Nat} (h : pos<t.entries.length) : t.entryAt pos=t.entries[pos] := by
  simp [entryAt,h]

theorem cell_occupied_iff {key : OrderId} {pos : Nat} :
    (∃ v, t.cell pos=.occupied key v) ↔
      (t.entryAt pos).state=.occupied ∧ (t.entryAt pos).key=key := by
  simp [cell,Entry.cell_eq_occupied]

theorem cell_lt {pos : Nat} {key : OrderId} {v : SlotIndex} (h : t.cell pos=.occupied key v) :
    pos<t.entries.length := by
  by_contra hn
  have hd : t.entryAt pos={} := by simp [entryAt,Nat.le_of_not_lt hn]
  simp [cell,hd,Entry.cell] at h

theorem probeStop_hit {key : OrderId} {pos : Nat} {v : SlotIndex}
    (h : t.cell pos=.occupied key v) : t.probeStop key pos=some (some pos) := by
  obtain ⟨hs,hk⟩ := cell_occupied_iff.mp ⟨v,h⟩
  simp [probeStop,hs,hk]

theorem probeStop_cases {key : OrderId} {pos : Nat} {r : Option Nat}
    (h : t.probeStop key pos=some r) :
    (t.cell pos=.empty ∧ r=none) ∨ ((∃ v, t.cell pos=.occupied key v) ∧ r=some pos) := by
  unfold probeStop at h
  dsimp only at h
  split_ifs at h with h1 h2
  · exact Or.inl ⟨Entry.cell_eq_empty.mpr h1,(Option.some.inj h).symm⟩
  · exact Or.inr ⟨cell_occupied_iff.mpr h2,(Option.some.inj h).symm⟩

/-- The shared probe loop finds exactly the entry that holds the key. -/
theorem WF.locate_eq_some (hw : t.WF) (key : OrderId) (pos : Nat) :
    t.locate key t.entries.length (t.home key)=some pos ↔ ∃ v, t.cell pos=.occupied key v := by
  have hhome := hw.home_lt key
  rw [hw.locate_eq_ringFind]
  constructor
  · intro h
    cases hr : ringFind t.entries.length (t.probeStop key) t.entries.length (t.home key) with
    | none => simp [hr] at h
    | some r =>
      have hrp : r=some pos := by simpa [hr] using h
      obtain ⟨i,_,hi,_⟩ := ringFind_eq_some hhome hr
      rcases probeStop_cases hi with ⟨_,hn⟩ | ⟨hc,hp⟩
      · rw [hrp] at hn
        cases hn
      · rw [← Option.some.inj (hrp.symm.trans hp)] at hc
        exact hc
  · rintro ⟨v,hv⟩
    obtain ⟨d,hd,hdp,hrun⟩ := hw.probed.reach pos (cell_lt hv) key v hv
    have hhit : t.probeStop key ((t.home key+d)%t.entries.length)=some (some pos) := by
      rw [hdp]
      exact probeStop_hit hv
    cases hr : ringFind t.entries.length (t.probeStop key) t.entries.length (t.home key) with
    | none =>
      rw [(ringFind_eq_none hhome).mp hr d hd] at hhit
      cases hhit
    | some r =>
      obtain ⟨i,hi,hfi,hlt⟩ := ringFind_eq_some hhome hr
      have hid : i≤d := by
        by_contra hn
        rw [hlt d (by omega)] at hhit
        cases hhit
      rcases probeStop_cases hfi with ⟨he,_⟩ | ⟨⟨w,hw'⟩,hp⟩
      · rcases Nat.lt_or_eq_of_le hid with hlt' | heq
        · exact absurd he (hrun i hlt')
        · rw [heq,hdp,hv] at he
          cases he
      · have hpi := hw.probed.unique _ (cell_lt hw') _ (cell_lt hv) key w v hw' hv
        rw [hp,hpi]
        rfl

/-- Lookups read the stored association. -/
theorem WF.find_eq_some (hw : t.WF) (key : OrderId) (v : SlotIndex) :
    t.find key=some v ↔ Holds t.entries.length t.cell key v := by
  unfold find
  rw [Option.map_eq_some_iff]
  constructor
  · rintro ⟨pos,hpos,hval⟩
    obtain ⟨w,hcell⟩ := (hw.locate_eq_some key pos).mp hpos
    have he := Entry.cell_eq_occupied.mp hcell
    exact ⟨pos,cell_lt hcell,by rw [hcell,← he.2.2,hval]⟩
  · rintro ⟨pos,_,hcell⟩
    exact ⟨pos,(hw.locate_eq_some key pos).mpr ⟨v,hcell⟩,(Entry.cell_eq_occupied.mp hcell).2.2⟩

theorem WF.find_eq_none (hw : t.WF) (key : OrderId) :
    t.find key=none ↔ ∀ v, ¬Holds t.entries.length t.cell key v := by
  rw [Option.eq_none_iff_forall_ne_some]
  exact forall_congr' fun v => not_congr (hw.find_eq_some key v)

theorem WF.mem_keys (hw : t.WF) (key : OrderId) : key∈t.keys ↔ (t.find key).isSome := by
  rw [Option.isSome_iff_exists]
  constructor
  · intro h
    obtain ⟨e,he,rfl⟩ := List.mem_map.mp h
    obtain ⟨hmem,hocc⟩ := List.mem_filter.mp he
    obtain ⟨i,hi,rfl⟩ := List.mem_iff_getElem.mp hmem
    refine ⟨(t.entries[i]).value,(hw.find_eq_some _ _).mpr ⟨i,hi,?_⟩⟩
    simpa [cell,entryAt_of_lt hi,Entry.cell_eq_occupied] using hocc
  · rintro ⟨v,hv⟩
    obtain ⟨i,hi,hc⟩ := (hw.find_eq_some key v).mp hv
    have he := Entry.cell_eq_occupied.mp hc
    refine List.mem_map.mpr ⟨t.entryAt i,List.mem_filter.mpr ⟨?_,by simpa using he.1⟩,he.2.1⟩
    simp [entryAt_of_lt hi]

theorem WF.keys_nodup (hw : t.WF) : t.keys.Nodup := by
  refine List.pairwise_map.mpr (List.pairwise_filter.mpr (List.pairwise_iff_getElem.mpr ?_))
  intro i j hi hj hij hsi hsj hk
  have hci : t.cell i=.occupied (t.entries[i]).key (t.entries[i]).value := by
    simpa [cell,entryAt_of_lt hi,Entry.cell_eq_occupied] using hsi
  have hcj : t.cell j=.occupied (t.entries[i]).key (t.entries[j]).value := by
    simpa [cell,entryAt_of_lt hj,Entry.cell_eq_occupied,hk] using hsj
  exact absurd (hw.probed.unique i hi j hj _ _ _ hci hcj) (by omega)

theorem WF.size_eq_countP (hw : t.WF) :
    t.size=t.entries.countP (fun e => e.state=.occupied) := by
  rw [hw.count,keys,List.length_map,List.countP_eq_length_filter]

theorem locate_eq_none (key : OrderId) :
    t.locate key t.entries.length (t.home key)=none ↔ t.find key=none := by
  simp [find]

theorem insertLoop_of_located {key : OrderId} {probes pos i : Nat} (tombstone : Option Nat)
    (h : t.locate key probes pos=some i) : t.insertLoop key probes pos tombstone=none := by
  induction probes generalizing pos tombstone with
  | zero => simp [locate] at h
  | succ probes ih =>
    unfold locate at h
    unfold insertLoop
    dsimp only at h ⊢
    split_ifs at h with h1 h2
    · rw [if_pos h2]
    · rw [if_neg h2,if_neg h1]
      exact ih _ h

/-- First unoccupied entry along a probe run. -/
def freeStop (t : FlatOrderIndex hash) (pos : Nat) : Option Nat :=
  if (t.entryAt pos).state=.occupied then none else some pos

theorem WF.insertLoop_of_not_located (hw : t.WF) {key : OrderId} {probes pos : Nat}
    (tombstone : Option Nat) (h : t.locate key probes pos=none) :
    t.insertLoop key probes pos tombstone=
      tombstone.or (ringFind t.entries.length t.freeStop probes pos) := by
  induction probes generalizing pos tombstone with
  | zero => cases tombstone <;> rfl
  | succ probes ih =>
    unfold locate at h
    unfold insertLoop ringFind freeStop
    dsimp only at h ⊢
    cases hs : (t.entryAt pos).state with
    | empty => cases tombstone <;> simp
    | tombstone =>
      have hl : t.locate key probes ((pos+1)&&&t.mask)=none := by simpa [hs] using h
      simp only [reduceCtorEq,false_and,if_false,true_and]
      rw [ih _ hl]
      cases tombstone <;> simp
    | occupied =>
      have hk : (t.entryAt pos).key≠key := by
        intro hk
        simp [hs,hk] at h
      have hl : t.locate key probes ((pos+1)&&&t.mask)=none := by simpa [hs,hk] using h
      simp only [hk,and_false,reduceCtorEq,false_and,if_false,if_true]
      rw [ih _ hl,hw.next_pos]
      rfl

/-- Below the load limit some entry of every probe round is unoccupied. -/
theorem WF.exists_free (hw : t.WF) (hload : t.size*10<t.entries.length*7) (key : OrderId) :
    ∃ d<t.entries.length,
      ringFind t.entries.length t.freeStop t.entries.length (t.home key)=
        some ((t.home key+d)%t.entries.length) ∧
      (t.entryAt ((t.home key+d)%t.entries.length)).state≠.occupied ∧
      ∀ j<d, t.cell ((t.home key+j)%t.entries.length)≠.empty := by
  cases hr : ringFind t.entries.length t.freeStop t.entries.length (t.home key) with
  | none =>
    have hall : ∀ e∈t.entries, decide (e.state=.occupied)=true := by
      intro e he
      obtain ⟨i,hi,rfl⟩ := List.mem_iff_getElem.mp he
      obtain ⟨d,hd,hdi⟩ := ring_cover (t.home key) i hi
      have hn := (ringFind_eq_none (hw.home_lt key)).mp hr d hd
      rw [hdi,freeStop,entryAt_of_lt hi] at hn
      by_contra hne
      simp only [decide_eq_true_eq] at hne
      simp [hne] at hn
    have hc : t.size=t.entries.length := by
      rw [hw.size_eq_countP]
      exact List.countP_eq_length.mpr hall
    omega
  | some b =>
    obtain ⟨d,hd,hfd,hlt⟩ := ringFind_eq_some (hw.home_lt key) hr
    have hfree : (t.entryAt ((t.home key+d)%t.entries.length)).state≠.occupied := by
      intro hs
      simp [freeStop,hs] at hfd
    have hb : (t.home key+d)%t.entries.length=b := by simpa [freeStop,hfree] using hfd
    refine ⟨d,hd,by rw [hb],hfree,fun j hj he => ?_⟩
    have hn := hlt j hj
    have hs : (t.entryAt ((t.home key+j)%t.entries.length)).state=.empty :=
      Entry.cell_eq_empty.mp he
    simp [freeStop,hs] at hn

theorem cell_store {pos : Nat} (hp : pos<t.entries.length) (e : Entry) (size : Nat) :
    (t.store pos e size).cell=Function.update t.cell pos e.cell := by
  funext i
  by_cases hi : i=pos
  · subst hi
    simp [cell,entryAt,store,hp]
  · simp [cell,entryAt,store,hi,List.getElem?_set_ne (Ne.symm hi)]

theorem WF.size_pos (hw : t.WF) {pos : Nat} (hp : pos<t.entries.length)
    (hs : (t.entryAt pos).state=.occupied) : 0<t.size := by
  rw [hw.size_eq_countP]
  exact List.countP_pos_iff.mpr ⟨_,List.getElem_mem hp,by simpa [← entryAt_of_lt hp] using hs⟩

theorem WF.store (hw : t.WF) {pos : Nat} (hp : pos<t.entries.length) (e : Entry) (size : Nat)
    (hprobed : Probed t.entries.length t.home (Function.update t.cell pos e.cell))
    (hsize : size+(if (t.entryAt pos).state=.occupied then 1 else 0)=
      t.size+(if e.state=.occupied then 1 else 0)) : (t.store pos e size).WF := by
  refine ⟨by simpa [FlatOrderIndex.store] using hw.power,
    by simpa [FlatOrderIndex.store] using hw.mask,?_,?_⟩
  · rw [cell_store hp]
    simp only [FlatOrderIndex.store,List.length_set]
    exact hprobed
  · have hc : (t.store pos e size).keys.length=t.size-(if (t.entryAt pos).state=.occupied then 1
        else 0)+(if e.state=.occupied then 1 else 0) := by
      rw [keys,List.length_map,← List.countP_eq_length_filter,hw.size_eq_countP,entryAt_of_lt hp]
      simp [FlatOrderIndex.store,List.countP_set hp]
    rw [hc]
    simp only [FlatOrderIndex.store]
    by_cases hs : (t.entryAt pos).state=.occupied
    · have hpos := hw.size_pos hp hs
      simp only [hs,if_true] at hsize ⊢
      omega
    · simp only [hs,if_false] at hsize ⊢
      omega

/-- Insertion of an absent key below the load limit. -/
theorem WF.insert_spec (hw : t.WF) {key : OrderId} (v : SlotIndex)
    (hload : t.size*10<t.entries.length*7) (habs : t.find key=none) :
    (t.insert key v).2=true ∧ (t.insert key v).1.WF ∧
      (t.insert key v).1.entries.length=t.entries.length ∧
      ∀ k, (t.insert key v).1.find k=if k=key then some v else t.find k := by
  obtain ⟨d,hd,hr,hfree,hrun⟩ := hw.exists_free hload key
  set target := (t.home key+d)%t.entries.length with htarget
  have ht : target<t.entries.length := Nat.mod_lt _ hw.pos
  have hloc := (locate_eq_none key).mpr habs
  have hins : t.insert key v=(t.store target { key, value := v, state := .occupied } (t.size+1),
      true) := by
    rw [insert,if_neg (by omega),hw.insertLoop_of_not_located none hloc,hr]
    rfl
  have hnocc : ∀ q w, t.cell target≠.occupied q w := by
    intro q w hc
    exact hfree (Entry.cell_eq_occupied.mp hc).1
  have hwf : (t.insert key v).1.WF := by
    rw [hins]
    exact hw.store ht _ _ (hw.probed.write v hd ((hw.find_eq_none key).mp habs) hnocc hrun)
      (by simp [hfree])
  refine ⟨by rw [hins],hwf,by simp [hins,FlatOrderIndex.store],fun k => Option.ext fun w => ?_⟩
  rw [hwf.find_eq_some,hins,cell_store ht]
  simp only [FlatOrderIndex.store,List.length_set]
  rw [show Entry.cell { key, value := v, state := .occupied }=.occupied key v from rfl,
    holds_write ht v hnocc,← hw.find_eq_some]
  by_cases hk : k=key
  · subst hk
    simp [habs,eq_comm]
  · simp [hk]

theorem insert_full (key : OrderId) (v : SlotIndex) (h : t.size*10≥t.entries.length*7) :
    t.insert key v=(t,false) := by
  rw [insert,if_pos h]

theorem insert_present {key : OrderId} (v : SlotIndex) (h : t.find key≠none) :
    t.insert key v=(t,false) := by
  unfold insert
  split_ifs
  · rfl
  · cases hl : t.locate key t.entries.length (t.home key) with
    | none => exact absurd ((locate_eq_none key).mp hl) h
    | some i => rw [insertLoop_of_located none hl]

theorem erase_absent {key : OrderId} (h : t.find key=none) :
    t.erase key=(t,false) := by
  rw [erase,(locate_eq_none key).mpr h]

/-- Erasure of a stored key. -/
theorem WF.erase_spec (hw : t.WF) {key : OrderId} {v : SlotIndex} (h : t.find key=some v) :
    (t.erase key).2=true ∧ (t.erase key).1.WF ∧
      (t.erase key).1.entries.length=t.entries.length ∧
      ∀ k, (t.erase key).1.find k=if k=key then none else t.find k := by
  obtain ⟨pos,hp,hc⟩ := (hw.find_eq_some key v).mp h
  have hloc := (hw.locate_eq_some key pos).mpr ⟨v,hc⟩
  have her : t.erase key=
      (t.store pos { t.entryAt pos with state := .tombstone } (t.size-1),true) := by
    rw [erase,hloc]
  have hocc : (t.entryAt pos).state=.occupied := (Entry.cell_eq_occupied.mp hc).1
  have hsize := hw.size_pos hp hocc
  have hwf : (t.erase key).1.WF := by
    rw [her]
    exact hw.store hp _ _ (hw.probed.bury pos) (by simp [hocc]; omega)
  refine ⟨by rw [her],hwf,by simp [her,FlatOrderIndex.store],fun k => Option.ext fun w => ?_⟩
  rw [hwf.find_eq_some,her,cell_store hp]
  simp only [FlatOrderIndex.store,List.length_set]
  rw [show Entry.cell { t.entryAt pos with state := .tombstone }=.tombstone from rfl,
    hw.probed.holds_bury hp hc,← hw.find_eq_some]
  by_cases hk : k=key
  · simp [hk]
  · simp [hk]

/-- The constructor's capacity is the least power of two with room for twice the entries, and at
least sixteen. -/
theorem create_capacity (n : Nat) : ∃ k, (create n : FlatOrderIndex hash).capacity=2^k ∧
    ∀ j, (16 ≤ 2^j ∧ 2*n ≤ 2^j) ↔ k ≤ j := by
  refine ⟨Nat.clog 2 (if n<8 then 16 else n*2),by simp [capacity,create,bitCeil],fun j => ?_⟩
  rw [Nat.clog_le_iff_le_pow (by decide)]
  split_ifs with h <;> omega

theorem two_mul_le_capacity (n : Nat) : 2*n ≤ (create n : FlatOrderIndex hash).capacity := by
  obtain ⟨k,hk,hleast⟩ := @create_capacity hash n
  rw [hk]
  exact ((hleast k).mpr le_rfl).2

theorem create_entryAt (n i : Nat) : (create n : FlatOrderIndex hash).entryAt i={} := by
  simp only [entryAt,create]
  by_cases hi : i<bitCeil (if n<8 then 16 else n*2)
  · simp [hi]
  · simp [Nat.le_of_not_lt hi]

theorem create_wf (n : Nat) : (create n : FlatOrderIndex hash).WF := by
  have hcell (i : Nat) (k : OrderId) (v : SlotIndex) :
      (create n : FlatOrderIndex hash).cell i≠.occupied k v := by
    simp [cell,create_entryAt,Entry.cell]
  refine ⟨⟨_,by simp [create,bitCeil]; rfl⟩,by simp [create],⟨?_,?_⟩,?_⟩
  · intro i _ k v h
    exact absurd h (hcell i k v)
  · intro i _ j _ k v w h
    exact absurd h (hcell i k v)
  · simp [create,keys]

theorem create_find (n : Nat) (key : OrderId) :
    (create n : FlatOrderIndex hash).find key=none := by
  rw [(create_wf n).find_eq_none]
  rintro v ⟨i,_,h⟩
  simp [cell,create_entryAt,Entry.cell] at h

end FlatOrderIndex
end MarketWire
