import Mathlib.Tactic.Common
import Mathlib.Logic.Function.Basic

/-! Open addressing with linear probing and tombstones, for any home position.
Cells form a ring of `n` positions; a key sits somewhere on the run of non-empty
cells that starts at its home. -/
namespace MarketWire.Library
variable {K V β : Type*}

inductive Cell (K V : Type*) where
  | empty
  | tombstone
  | occupied (key : K) (value : V)

/-- First answer of `f` along `k` consecutive ring positions from `pos`. -/
def ringFind (n : Nat) (f : Nat → Option β) : Nat → Nat → Option β
  | 0, _ => none
  | k+1, pos =>
    match f pos with
    | some b => some b
    | none => ringFind n f k ((pos+1)%n)

theorem ringFind_eq_none {n : Nat} {f : Nat → Option β} {k pos : Nat} (hpos : pos<n) :
    ringFind n f k pos=none ↔ ∀ i<k, f ((pos+i)%n)=none := by
  induction k generalizing pos with
  | zero => simp [ringFind]
  | succ k ih =>
    have hn : (pos+1)%n<n := Nat.mod_lt _ (by omega)
    have hshift (i : Nat) : ((pos+1)%n+i)%n=(pos+(i+1))%n := by
      rw [Nat.mod_add_mod,Nat.add_assoc,Nat.add_comm 1 i]
    have hstep : (∀ i<k+1, f ((pos+i)%n)=none) ↔
        f pos=none ∧ ∀ i<k, f (((pos+1)%n+i)%n)=none := by
      constructor
      · intro h
        refine ⟨by simpa [Nat.mod_eq_of_lt hpos] using h 0 (by omega),fun i hi => ?_⟩
        rw [hshift]
        exact h (i+1) (by omega)
      · rintro ⟨h0,h⟩ i hi
        cases i with
        | zero => simpa [Nat.mod_eq_of_lt hpos] using h0
        | succ i => rw [← hshift]; exact h i (by omega)
    rw [hstep,← ih hn]
    cases hf : f pos with
    | none => simp [ringFind,hf]
    | some b => simp [ringFind,hf]

theorem ringFind_eq_some {n : Nat} {f : Nat → Option β} {k pos : Nat} {b : β} (hpos : pos<n)
    (h : ringFind n f k pos=some b) :
    ∃ i<k, f ((pos+i)%n)=some b ∧ ∀ j < i, f ((pos+j)%n)=none := by
  induction k generalizing pos with
  | zero => simp [ringFind] at h
  | succ k ih =>
    have hn : (pos+1)%n<n := Nat.mod_lt _ (by omega)
    have hshift (i : Nat) : ((pos+1)%n+i)%n=(pos+(i+1))%n := by
      rw [Nat.mod_add_mod,Nat.add_assoc,Nat.add_comm 1 i]
    cases hf : f pos with
    | some c =>
      have hc : c=b := by simpa [ringFind,hf] using h
      exact ⟨0,by omega,by simpa [Nat.mod_eq_of_lt hpos,hc] using hf,by simp⟩
    | none =>
      obtain ⟨i,hi,hfi,hlt⟩ := ih hn (by simpa [ringFind,hf] using h)
      refine ⟨i+1,by omega,by rw [← hshift]; exact hfi,fun j hj => ?_⟩
      cases j with
      | zero => simpa [Nat.mod_eq_of_lt hpos] using hf
      | succ j => rw [← hshift]; exact hlt j (by omega)

/-- A full round of probes from any start visits every ring position. -/
theorem ring_cover {n : Nat} (start i : Nat) (hi : i<n) : ∃ d<n, (start+d)%n=i := by
  have hn : 0<n := by omega
  refine ⟨(i+(n-start%n))%n,Nat.mod_lt _ hn,?_⟩
  have hs : start%n<n := Nat.mod_lt _ hn
  rw [Nat.add_mod_mod,Nat.add_mod,← Nat.add_mod,← Nat.mod_add_mod start n]
  have he : start%n+(i+(n-start%n))=i+n := by omega
  rw [he,Nat.add_mod_right,Nat.mod_eq_of_lt hi]

/-- Probing invariant of a table of `n` cells. -/
structure Probed (n : Nat) (home : K → Nat) (cell : Nat → Cell K V) : Prop where
  reach : ∀ i<n, ∀ k v, cell i=.occupied k v →
    ∃ d<n, (home k+d)%n=i ∧ ∀ j<d, cell ((home k+j)%n)≠.empty
  unique : ∀ i<n, ∀ j<n, ∀ k v w, cell i=.occupied k v → cell j=.occupied k w → i=j

/-- What the table stores. -/
def Holds (n : Nat) (cell : Nat → Cell K V) (k : K) (v : V) : Prop :=
  ∃ i<n, cell i=.occupied k v

variable {n : Nat} {home : K → Nat} {cell : Nat → Cell K V}

/-- Storing an absent key in the first unoccupied cell of its run keeps the invariant. -/
theorem Probed.write [DecidableEq K] (hp : Probed n home cell) {k : K} (v : V) {d : Nat}
    (hd : d<n) (habs : ∀ w, ¬Holds n cell k w)
    (hfree : ∀ q w, cell ((home k+d)%n)≠.occupied q w)
    (hrun : ∀ j<d, cell ((home k+j)%n)≠.empty) :
    Probed n home (Function.update cell ((home k+d)%n) (.occupied k v)) := by
  set t := (home k+d)%n with ht
  have hne {i : Nat} {q : K} {w : V} (hc : cell i=.occupied q w) : i≠t := by
    rintro rfl
    exact hfree q w hc
  have hmono {i : Nat} (h : cell i≠.empty) :
      Function.update cell t (.occupied k v) i≠.empty := by
    by_cases he : i=t
    · simp [he]
    · simpa [he] using h
  constructor
  · intro i hi q w hc
    by_cases he : i=t
    · subst he
      simp only [Function.update_self,Cell.occupied.injEq] at hc
      obtain ⟨rfl,rfl⟩ := hc
      exact ⟨d,hd,rfl,fun j hj => hmono (hrun j hj)⟩
    · rw [Function.update_of_ne he] at hc
      obtain ⟨e,hen,hei,hr⟩ := hp.reach i hi q w hc
      exact ⟨e,hen,hei,fun j hj => hmono (hr j hj)⟩
  · intro i hi j hj q w w' hci hcj
    by_cases hit : i=t <;> by_cases hjt : j=t
    · rw [hit,hjt]
    · subst hit
      rw [Function.update_of_ne hjt] at hcj
      simp only [Function.update_self,Cell.occupied.injEq] at hci
      exact absurd ⟨j,hj,hci.1 ▸ hcj⟩ (habs w')
    · subst hjt
      rw [Function.update_of_ne hit] at hci
      simp only [Function.update_self,Cell.occupied.injEq] at hcj
      exact absurd ⟨i,hi,hcj.1 ▸ hci⟩ (habs w)
    · rw [Function.update_of_ne hit] at hci
      rw [Function.update_of_ne hjt] at hcj
      exact hp.unique i hi j hj q w w' hci hcj

theorem holds_write [DecidableEq K] {t : Nat} (ht : t<n) {k : K} (v : V)
    (hfree : ∀ q w, cell t≠.occupied q w) (q : K) (w : V) :
    Holds n (Function.update cell t (.occupied k v)) q w ↔
      (q=k ∧ w=v) ∨ Holds n cell q w := by
  constructor
  · rintro ⟨i,hi,hc⟩
    by_cases he : i=t
    · subst he
      simp only [Function.update_self,Cell.occupied.injEq] at hc
      exact Or.inl ⟨hc.1.symm,hc.2.symm⟩
    · rw [Function.update_of_ne he] at hc
      exact Or.inr ⟨i,hi,hc⟩
  · rintro (⟨rfl,rfl⟩ | ⟨i,hi,hc⟩)
    · exact ⟨t,ht,by simp⟩
    · have he : i≠t := by
        rintro rfl
        exact hfree q w hc
      exact ⟨i,hi,by rw [Function.update_of_ne he]; exact hc⟩

/-- Burying a cell under a tombstone keeps the invariant. -/
theorem Probed.bury (hp : Probed n home cell) (t : Nat) :
    Probed n home (Function.update cell t .tombstone) := by
  have hocc {i : Nat} {q : K} {w : V}
      (hc : Function.update cell t .tombstone i=.occupied q w) : i≠t ∧ cell i=.occupied q w := by
    by_cases he : i=t
    · subst he
      simp at hc
    · exact ⟨he,by rwa [Function.update_of_ne he] at hc⟩
  constructor
  · intro i hi q w hc
    obtain ⟨e,hen,hei,hr⟩ := hp.reach i hi q w (hocc hc).2
    refine ⟨e,hen,hei,fun j hj => ?_⟩
    by_cases he : (home q+j)%n=t
    · simp [he]
    · rw [Function.update_of_ne he]
      exact hr j hj
  · intro i hi j hj q w w' hci hcj
    exact hp.unique i hi j hj q w w' (hocc hci).2 (hocc hcj).2

theorem Probed.holds_bury (hp : Probed n home cell) {t : Nat} (ht : t<n) {k : K} {v : V}
    (hc : cell t=.occupied k v) (q : K) (w : V) :
    Holds n (Function.update cell t .tombstone) q w ↔ q≠k ∧ Holds n cell q w := by
  constructor
  · rintro ⟨i,hi,hci⟩
    by_cases he : i=t
    · subst he
      simp at hci
    · rw [Function.update_of_ne he] at hci
      refine ⟨?_,i,hi,hci⟩
      rintro rfl
      exact he (hp.unique i hi t ht q w v hci hc)
  · rintro ⟨hne,i,hi,hci⟩
    have he : i≠t := by
      rintro rfl
      rw [hc] at hci
      cases hci
      exact hne rfl
    exact ⟨i,hi,by rw [Function.update_of_ne he]; exact hci⟩

end MarketWire.Library
