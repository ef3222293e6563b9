import MarketWire.FlatOrderIndex

/-! The index over whole runs of insertions and erasures: it is the finite map that the
successful operations describe, whatever the hash does. -/
namespace MarketWire
namespace FlatOrderIndex
variable {hash : OrderId → UInt64}

inductive Operation where
  | insert (key : OrderId) (value : SlotIndex)
  | erase (key : OrderId)
  deriving DecidableEq, Repr

def Operation.key : Operation → OrderId
  | insert key _ => key
  | erase key => key

def perform (t : FlatOrderIndex hash) : Operation → FlatOrderIndex hash×Bool
  | .insert key value => t.insert key value
  | .erase key => t.erase key

/-- Operations one after another, each with its answer. -/
def run (t : FlatOrderIndex hash) :
    List Operation → FlatOrderIndex hash×List (Operation×Bool)
  | [] => (t,[])
  | op::rest =>
    let next := (t.perform op).1.run rest
    (next.1,(op,(t.perform op).2)::next.2)

/-- The last successful operation on a key. -/
def lastSuccess (log : List (Operation×Bool)) (key : OrderId) : Option Operation :=
  ((log.filter fun x => x.2 ∧ x.1.key=key).map Prod.fst).getLast?

theorem lastSuccess_snoc (log : List (Operation×Bool)) (op : Operation) (ok : Bool)
    (key : OrderId) : lastSuccess (log++[(op,ok)]) key=
      if ok ∧ op.key=key then some op else lastSuccess log key := by
  unfold lastSuccess
  by_cases h : ok ∧ op.key=key
  · simp [List.filter_append,h]
  · rw [if_neg h,List.filter_append,List.filter_cons_of_neg (by simpa using h)]
    simp

/-- The index holds what the log says. -/
structure Tracks (t : FlatOrderIndex hash) (log : List (Operation×Bool)) : Prop where
  wf : t.WF
  find_eq : ∀ key v, t.find key=some v ↔ lastSuccess log key=some (.insert key v)

variable {t : FlatOrderIndex hash} {log : List (Operation×Bool)}

theorem Tracks.create (n : Nat) : Tracks (create n : FlatOrderIndex hash) [] := by
  refine ⟨create_wf n,fun key v => ?_⟩
  rw [create_find]
  simp [lastSuccess]

/-- A refused operation changes neither side. -/
theorem Tracks.refused (h : Tracks t log) (op : Operation) : Tracks t (log++[(op,false)]) := by
  refine ⟨h.wf,fun key v => ?_⟩
  rw [lastSuccess_snoc,if_neg (by simp)]
  exact h.find_eq key v

/-- What an insertion needs: an absent key and a load below the limit. -/
def Admits (t : FlatOrderIndex hash) (key : OrderId) : Prop :=
  t.find key=none ∧ 10*t.size<7*t.capacity

theorem insert_refused {key : OrderId} (v : SlotIndex) (h : ¬t.Admits key) :
    t.insert key v=(t,false) := by
  by_cases hload : t.size*10<t.entries.length*7
  · exact insert_present v fun habs => h ⟨habs,by unfold capacity; omega⟩
  · exact insert_full key v (by omega)

theorem WF.insert_admitted (hw : t.WF) {key : OrderId} (v : SlotIndex) (h : t.Admits key) :
    (t.insert key v).2=true ∧ (t.insert key v).1.WF ∧
      ∀ k, (t.insert key v).1.find k=if k=key then some v else t.find k := by
  obtain ⟨habs,hload⟩ := h
  unfold capacity at hload
  obtain ⟨hok,hwf,-,hfind⟩ := hw.insert_spec v (by omega) habs
  exact ⟨hok,hwf,hfind⟩

theorem WF.insert_ok (hw : t.WF) (key : OrderId) (v : SlotIndex) :
    (t.insert key v).2=true ↔ t.Admits key := by
  by_cases h : t.Admits key
  · simp [h,(hw.insert_admitted v h).1]
  · simp [h,insert_refused v h]

theorem WF.erase_ok (hw : t.WF) (key : OrderId) : (t.erase key).2=true ↔ (t.find key).isSome := by
  cases hf : t.find key with
  | none => simp [erase_absent hf]
  | some v => simp [(hw.erase_spec hf).1]

/-- A successful operation settles its own key and no other. -/
theorem Tracks.accepted {t' : FlatOrderIndex hash} (h : Tracks t log) (op : Operation) (hwf : t'.WF)
    (hkey : ∀ v, t'.find op.key=some v ↔ op=.insert op.key v)
    (hother : ∀ k, k≠op.key → t'.find k=t.find k) : Tracks t' (log++[(op,true)]) := by
  refine ⟨hwf,fun k v => ?_⟩
  rw [lastSuccess_snoc]
  by_cases hk : k=op.key
  · rw [hk,if_pos ⟨rfl,rfl⟩,hkey,Option.some.injEq]
  · rw [if_neg fun hop => hk hop.2.symm,hother k hk]
    exact h.find_eq k v

theorem Tracks.insert (h : Tracks t log) (key : OrderId) (v : SlotIndex) :
    Tracks (t.insert key v).1 (log++[(.insert key v,(t.insert key v).2)]) := by
  by_cases hadm : t.Admits key
  · obtain ⟨hok,hwf,hfind⟩ := h.wf.insert_admitted v hadm
    rw [hok]
    refine h.accepted _ hwf (fun w => ?_) fun k hk => ?_
    · simp [Operation.key,hfind]
    · exact (hfind k).trans (if_neg hk)
  · rw [insert_refused v hadm]
    exact h.refused _

theorem Tracks.erase (h : Tracks t log) (key : OrderId) :
    Tracks (t.erase key).1 (log++[(.erase key,(t.erase key).2)]) := by
  cases hf : t.find key with
  | none =>
    rw [erase_absent hf]
    exact h.refused _
  | some v =>
    obtain ⟨hok,hwf,-,hfind⟩ := h.wf.erase_spec hf
    rw [hok]
    refine h.accepted _ hwf (fun w => ?_) fun k hk => ?_
    · simp [Operation.key,hfind]
    · exact (hfind k).trans (if_neg hk)

/-- One operation keeps the index and its log together. -/
theorem Tracks.perform (h : Tracks t log) (op : Operation) :
    Tracks (t.perform op).1 (log++[(op,(t.perform op).2)]) := by
  cases op with
  | insert key v => exact h.insert key v
  | erase key => exact h.erase key

theorem Tracks.run (h : Tracks t log) (ops : List Operation) :
    Tracks (t.run ops).1 (log++(t.run ops).2) := by
  induction ops generalizing t log with
  | nil => rwa [FlatOrderIndex.run,List.append_nil]
  | cons op rest ih =>
    have hnext := ih (h.perform op)
    rwa [List.append_assoc] at hnext

theorem perform_capacity (t : FlatOrderIndex hash) (op : Operation) :
    (t.perform op).1.capacity=t.capacity := by
  cases op with
  | insert key v =>
    simp only [perform,FlatOrderIndex.insert]
    split_ifs
    · rfl
    · split
      · rfl
      · exact List.length_set
  | erase key =>
    simp only [perform,FlatOrderIndex.erase]
    split
    · rfl
    · exact List.length_set

/-- No run changes the capacity. -/
theorem run_capacity (t : FlatOrderIndex hash) (ops : List Operation) :
    (t.run ops).1.capacity=t.capacity := by
  induction ops generalizing t with
  | nil => rfl
  | cons op rest ih => exact (ih _).trans (t.perform_capacity op)

/-- After any run on a fresh index: a lookup returns what the last successful operation on its key
inserted, the answers are those of a map of limited load, the size counts the present keys, and
no key has two entries. -/
theorem run_is_map (hash : OrderId → UInt64) (n : Nat) (ops : List Operation) :
    let out := (create n : FlatOrderIndex hash).run ops
    (∀ key v, out.1.find key=some v ↔ lastSuccess out.2 key=some (.insert key v)) ∧
    (∀ key v, (out.1.insert key v).2=true ↔
      out.1.find key=none ∧ 10*out.1.size<7*out.1.capacity) ∧
    (∀ key, (out.1.erase key).2=true ↔ (out.1.find key).isSome) ∧
    (out.1.size=out.1.keys.length ∧ out.1.keys.Nodup ∧
      ∀ key, key∈out.1.keys ↔ (out.1.find key).isSome) ∧
    ∀ i j key v w, out.1.cell i=.occupied key v → out.1.cell j=.occupied key w → i=j := by
  have hfresh : Tracks (create n : FlatOrderIndex hash) [] := .create n
  have h := hfresh.run ops
  rw [List.nil_append] at h
  refine ⟨h.find_eq,h.wf.insert_ok,h.wf.erase_ok,⟨h.wf.count,h.wf.keys_nodup,h.wf.mem_keys⟩,?_⟩
  intro i j key v w hi hj
  exact h.wf.probed.unique i (cell_lt hi) j (cell_lt hj) key v w hi hj

/-- Keys of one home: the third insertion takes the place that the erasure left. -/
theorem run_is_map_collision :
    let out := (create 1 : FlatOrderIndex fun _ => 3).run
      [.insert 5 9,.insert 6 8,.erase 5,.insert 7 4,.insert 6 2]
    out.2.map Prod.snd=[true,true,true,true,false] ∧ out.1.capacity=16 ∧ out.1.size=2 ∧
      out.1.entryAt 3={ key := 7, value := 4, state := .occupied } ∧ out.1.find 6=some 8 ∧
      out.1.find 7=some 4 ∧ (out.1.insert 6 1).2=false ∧ (out.1.erase 6).2=true := by
  obtain ⟨hfind,hinsert,herase,-⟩ := run_is_map (fun _ => 3) 1
    [.insert 5 9,.insert 6 8,.erase 5,.insert 7 4,.insert 6 2]
  have h6 := (hfind 6 8).mpr (by decide +kernel)
  refine ⟨by decide +kernel,by decide +kernel,by decide +kernel,by decide +kernel,h6,
    (hfind 7 4).mpr (by decide +kernel),?_,(herase 6).mpr (by rw [h6]; rfl)⟩
  rw [← Bool.not_eq_true,hinsert,h6]
  exact fun h => by cases h.1

end FlatOrderIndex
end MarketWire
