import Mathlib.Tactic.Common
import Mathlib.Order.RelClasses
import Mathlib.Data.List.Nodup

/-! Ordered associative containers as strictly sorted entry lists. The order is a
parameter, so ascending and descending maps are two instances of one type. -/
namespace MarketWire.Library
variable {K V : Type*}

/-- First value stored under a key of an entry list. -/
def assocFind [DecidableEq K] (k : K) : List (K×V) → Option V
  | [] => none
  | e::rest => if e.1=k then some e.2 else assocFind k rest

/-- Store a value in order, overwriting the entry of an equal key. -/
def assocSet [DecidableEq K] (lt : K → K → Prop) [DecidableRel lt] (k : K) (v : V) :
    List (K×V) → List (K×V)
  | [] => [(k,v)]
  | e::rest =>
    if e.1=k then (k,v)::rest
    else if lt k e.1 then (k,v)::e::rest
    else e::assocSet lt k v rest

theorem assocFind_eq_some_mem [DecidableEq K] (k : K) (v : V) (l : List (K×V))
    (h : assocFind k l=some v) : (k,v)∈l := by
  induction l with
  | nil => simp [assocFind] at h
  | cons e rest ih =>
    by_cases he : e.1=k
    · have hv : e.2=v := by simpa [assocFind,he] using h
      have hp : (k,v)=e := by rw [← he,← hv]
      simp [hp]
    · exact List.mem_cons_of_mem e (ih (by simpa [assocFind,he] using h))

theorem assocFind_mem [DecidableEq K] (lt : K → K → Prop) [Std.Irrefl lt] (k : K) (v : V)
    (l : List (K×V)) (hs : l.Pairwise (fun a b => lt a.1 b.1)) (h : (k,v)∈l) :
    assocFind k l=some v := by
  induction l with
  | nil => simp at h
  | cons e rest ih =>
    obtain ⟨hhead,htail⟩ := List.pairwise_cons.mp hs
    cases List.mem_cons.mp h with
    | inl he =>
      subst he
      simp [assocFind]
    | inr hr =>
      have hne : e.1≠k := by
        intro he
        exact Std.Irrefl.irrefl k (by simpa [he] using hhead (k,v) hr)
      simpa [assocFind,hne] using ih htail hr

theorem assocFind_set [DecidableEq K] (lt : K → K → Prop) [DecidableRel lt] (k k' : K) (v : V)
    (l : List (K×V)) :
    assocFind k' (assocSet lt k v l)=if k'=k then some v else assocFind k' l := by
  induction l with
  | nil =>
    by_cases hk : k'=k
    · simp [assocSet,assocFind,hk]
    · simp [assocSet,assocFind,hk,Ne.symm hk]
  | cons e rest ih =>
    by_cases he : e.1=k
    · by_cases hk : k'=k
      · simp [assocSet,assocFind,he,hk]
      · simp [assocSet,assocFind,he,hk,Ne.symm hk]
    · by_cases hlt : lt k e.1
      · by_cases hk : k'=k
        · simp [assocSet,assocFind,he,hlt,hk]
        · simp [assocSet,assocFind,he,hlt,hk,Ne.symm hk]
      · by_cases hk : k'=k
        · subst hk
          simpa [assocSet,assocFind,he,hlt] using ih
        · simp only [assocSet,he,hlt,if_false,assocFind,ih,hk]

theorem mem_assocSet [DecidableEq K] (lt : K → K → Prop) [DecidableRel lt] (k : K) (v : V)
    (l : List (K×V)) (e : K×V) (h : e∈assocSet lt k v l) : e=(k,v) ∨ e∈l := by
  induction l with
  | nil => simpa [assocSet] using h
  | cons x rest ih =>
    unfold assocSet at h
    split_ifs at h
    · rcases List.mem_cons.mp h with h | h
      · exact Or.inl h
      · exact Or.inr (List.mem_cons_of_mem x h)
    · rcases List.mem_cons.mp h with h | h
      · exact Or.inl h
      · exact Or.inr h
    · rcases List.mem_cons.mp h with h | h
      · exact Or.inr (by simp [h])
      · exact (ih h).imp id (List.mem_cons_of_mem x)

theorem assocSet_sorted [DecidableEq K] (lt : K → K → Prop) [DecidableRel lt]
    [IsStrictTotalOrder K lt] (k : K) (v : V) (l : List (K×V))
    (hs : l.Pairwise (fun a b => lt a.1 b.1)) :
    (assocSet lt k v l).Pairwise (fun a b => lt a.1 b.1) := by
  induction l with
  | nil => simp [assocSet]
  | cons x rest ih =>
    obtain ⟨hhead,htail⟩ := List.pairwise_cons.mp hs
    unfold assocSet
    split_ifs with he hlt
    · exact List.pairwise_cons.mpr ⟨fun b hb => by simpa [he] using hhead b hb,htail⟩
    · refine List.pairwise_cons.mpr ⟨fun b hb => ?_,hs⟩
      cases List.mem_cons.mp hb with
      | inl hb => simpa [hb] using hlt
      | inr hb => exact IsTrans.trans k x.1 b.1 hlt (hhead b hb)
    · refine List.pairwise_cons.mpr ⟨fun b hb => ?_,ih htail⟩
      cases mem_assocSet lt k v rest b hb with
      | inl hb =>
        have hx : lt x.1 k := by
          by_contra hn
          exact he (Std.Trichotomous.trichotomous x.1 k hn hlt)
        simpa [hb] using hx
      | inr hb => exact hhead b hb

/-- A finite map whose entries are kept strictly increasing for `lt`. -/
structure SortedMap (K V : Type*) (lt : K → K → Prop) where
  entries : List (K×V)
  sorted : entries.Pairwise (fun a b => lt a.1 b.1)

namespace SortedMap
variable {lt : K → K → Prop}

def empty : SortedMap K V lt := ⟨[],List.Pairwise.nil⟩

instance : Inhabited (SortedMap K V lt) := ⟨empty⟩

instance [DecidableEq K] [DecidableEq V] : DecidableEq (SortedMap K V lt) := fun a b =>
  decidable_of_iff (a.entries=b.entries) (by cases a; cases b; simp)

def size (m : SortedMap K V lt) : Nat := m.entries.length

def isEmpty (m : SortedMap K V lt) : Bool := m.entries.isEmpty

/-- The first entry in iteration order. -/
def first? (m : SortedMap K V lt) : Option (K×V) := m.entries.head?

def keys (m : SortedMap K V lt) : List K := m.entries.map Prod.fst

def find? [DecidableEq K] (m : SortedMap K V lt) (k : K) : Option V := assocFind k m.entries

def erase [DecidableEq K] (m : SortedMap K V lt) (k : K) : SortedMap K V lt :=
  ⟨m.entries.filter (fun e => e.1≠k),m.sorted.filter _⟩

theorem keys_nodup [IsStrictTotalOrder K lt] (m : SortedMap K V lt) : m.keys.Nodup := by
  refine List.pairwise_map.mpr (m.sorted.imp ?_)
  intro a b hab he
  exact Std.Irrefl.irrefl a.1 (by simpa [he] using hab)

/-- The keys are listed in one order only. -/
theorem keys_eq [IsStrictTotalOrder K lt] {m m' : SortedMap K V lt}
    (h : ∀ k, k∈m.keys ↔ k∈m'.keys) : m.keys=m'.keys := by
  have hs (x : SortedMap K V lt) : x.keys.Pairwise lt := List.pairwise_map.mpr x.sorted
  refine List.Perm.eq_of_pairwise (fun a b _ _ hab hba => ?_) (hs m) (hs m')
    ((List.perm_ext_iff_of_nodup m.keys_nodup m'.keys_nodup).mpr h)
  exact absurd (IsTrans.trans a b a hab hba) (Std.Irrefl.irrefl a)

section Lookup
variable [DecidableEq K] [IsStrictTotalOrder K lt]

theorem mem_entries (m : SortedMap K V lt) (k : K) (v : V) :
    (k,v)∈m.entries ↔ m.find? k=some v :=
  ⟨assocFind_mem lt k v m.entries m.sorted,assocFind_eq_some_mem k v m.entries⟩

theorem mem_keys (m : SortedMap K V lt) (k : K) : k∈m.keys ↔ (m.find? k).isSome := by
  rw [Option.isSome_iff_exists]
  simp [keys,mem_entries]

theorem find?_erase (m : SortedMap K V lt) (k k' : K) :
    (m.erase k).find? k'=if k'=k then none else m.find? k' := by
  have hmem (v : V) : (m.erase k).find? k'=some v ↔ m.find? k'=some v ∧ k'≠k := by
    rw [← mem_entries,← mem_entries]
    simp [erase]
  by_cases hk : k'=k
  · rw [if_pos hk]
    exact Option.eq_none_iff_forall_ne_some.mpr fun v hv => ((hmem v).mp hv).2 hk
  · rw [if_neg hk]
    exact Option.ext fun v => by simp [hmem v,hk]

/-- The first entry is stored, and no key is before it. -/
theorem first?_eq_some {m : SortedMap K V lt} {k : K} {v : V} (h : m.first?=some (k,v)) :
    m.find? k=some v ∧ ∀ k', (m.find? k').isSome → k'=k ∨ lt k k' := by
  obtain ⟨rest,hrest⟩ := List.head?_eq_some_iff.mp h
  have hsorted := m.sorted
  rw [hrest] at hsorted
  refine ⟨(mem_entries m k v).mp (by rw [hrest]; exact List.mem_cons_self),fun k' hk' => ?_⟩
  obtain ⟨v',hv'⟩ := Option.isSome_iff_exists.mp hk'
  have hmem := (mem_entries m k' v').mpr hv'
  rw [hrest] at hmem
  cases List.mem_cons.mp hmem with
  | inl he => exact .inl (congrArg Prod.fst he)
  | inr hin => exact .inr ((List.pairwise_cons.mp hsorted).1 (k',v') hin)

/-- Lookups determine a sorted map. -/
theorem ext_find {m m' : SortedMap K V lt} (h : ∀ k, m.find? k=m'.find? k) : m=m' := by
  have hmem (e : K×V) : e∈m.entries ↔ e∈m'.entries := by
    rw [show e=(e.1,e.2) from rfl,mem_entries,mem_entries,h]
  have hnd (x : SortedMap K V lt) : x.entries.Nodup := List.Nodup.of_map Prod.fst x.keys_nodup
  have hp : m.entries.Perm m'.entries := (List.perm_ext_iff_of_nodup (hnd m) (hnd m')).mpr hmem
  have he : m.entries=m'.entries := by
    refine List.Perm.eq_of_pairwise (fun a b _ _ hab hba => ?_) m.sorted m'.sorted hp
    exact absurd (IsTrans.trans a.1 b.1 a.1 hab hba) (Std.Irrefl.irrefl a.1)
  cases m
  cases m'
  simpa using he

theorem isEmpty_iff (m : SortedMap K V lt) : m.isEmpty=true ↔ ∀ k, m.find? k=none := by
  constructor
  · intro h k
    have he : m.entries=[] := by simpa [isEmpty] using h
    simp [find?,he,assocFind]
  · intro h
    have he : m=empty := ext_find (fun k => by rw [h k]; rfl)
    simp [he,empty,isEmpty]

end Lookup

section Insert
variable [DecidableEq K] [DecidableRel lt] [IsStrictTotalOrder K lt]

/-- Insert or overwrite. -/
def set (m : SortedMap K V lt) (k : K) (v : V) : SortedMap K V lt :=
  ⟨assocSet lt k v m.entries,assocSet_sorted lt k v m.entries m.sorted⟩

/-- Insert only when the key is absent; the flag says whether it was. -/
def tryEmplace (m : SortedMap K V lt) (k : K) (v : V) : SortedMap K V lt×Bool :=
  match m.find? k with
  | some _ => (m,false)
  | none => (m.set k v,true)

theorem find?_set (m : SortedMap K V lt) (k k' : K) (v : V) :
    (m.set k v).find? k'=if k'=k then some v else m.find? k' :=
  assocFind_set lt k k' v m.entries

theorem find?_tryEmplace (m : SortedMap K V lt) (k k' : K) (v : V) :
    (m.tryEmplace k v).1.find? k'=if k'=k then some ((m.find? k).getD v) else m.find? k' := by
  unfold tryEmplace
  cases hk : m.find? k with
  | none => simpa using find?_set m k k' v
  | some w =>
    by_cases he : k'=k
    · simp [he,hk]
    · simp [he]

theorem find?_set_tryEmplace (m : SortedMap K V lt) (k k' : K) (v w : V) :
    ((m.tryEmplace k v).1.set k w).find? k'=if k'=k then some w else m.find? k' := by
  rw [find?_set,find?_tryEmplace]
  split_ifs <;> rfl

theorem set_self (m : SortedMap K V lt) {k : K} {v : V} (h : m.find? k=some v) : m.set k v=m := by
  refine ext_find fun k' => ?_
  rw [find?_set]
  split_ifs with hk
  · rw [hk,h]
  · rfl

/-- Erasing what `tryEmplace` has just inserted restores the map. -/
theorem tryEmplace_undo (m : SortedMap K V lt) (k : K) (v : V) :
    (if (m.find? k).isNone then (m.tryEmplace k v).1.erase k else (m.tryEmplace k v).1)=m := by
  refine ext_find fun k' => ?_
  cases hk : m.find? k with
  | none =>
    simp only [Option.isNone_none,if_true,find?_erase,find?_tryEmplace]
    split_ifs with he
    · rw [he,hk]
    · rfl
  | some w => simp [tryEmplace,hk]

end Insert
end SortedMap
end MarketWire.Library
