import Mathlib.Tactic.Common
import Mathlib.Tactic.Ring
import Mathlib.Tactic.Linarith
import Mathlib.Tactic.Positivity

/-! Base-256 numbers, most significant byte first. -/
namespace MarketWire.Library

/-- The number written by a byte string. -/
def beNat (l : List UInt8) : Nat := l.foldl (fun v b => v*256+b.toNat) 0

/-- The low `n` bytes of a number. -/
def beEncode : Nat → Nat → List UInt8
  | 0, _ => []
  | n+1, v => UInt8.ofNat (v/256^n)::beEncode n v

/-- The `n` bytes from position `i` on. -/
def slice {α : Type*} (l : List α) (i n : Nat) : List α := (l.drop i).take n

theorem slice_length {α : Type*} (l : List α) {i n : Nat} (h : i+n≤l.length) :
    (slice l i n).length=n := by
  simp only [slice,List.length_take,List.length_drop]
  omega

/-- The middle of three pieces. -/
theorem slice_middle {α : Type*} {l ys zs : List α} (xs : List α) {i n : Nat}
    (h : l=xs++ys++zs) (hi : xs.length=i) (hn : ys.length=n) : slice l i n=ys := by
  rw [h,slice,List.append_assoc,← hi,List.drop_left,← hn,List.take_left]

theorem foldl_beNat (l : List UInt8) (v : Nat) :
    l.foldl (fun v b => v*256+b.toNat) v=v*256^l.length+beNat l := by
  induction l generalizing v with
  | nil => simp [beNat]
  | cons b rest ih =>
    simp only [beNat,List.foldl_cons,List.length_cons]
    rw [ih,ih (0*256+b.toNat)]
    ring

theorem beNat_cons (b : UInt8) (l : List UInt8) : beNat (b::l)=b.toNat*256^l.length+beNat l := by
  rw [beNat,List.foldl_cons,foldl_beNat]
  simp

theorem beNat_lt (l : List UInt8) : beNat l<256^l.length := by
  induction l with
  | nil => simp [beNat]
  | cons b rest ih =>
    have hb := b.toNat_lt
    have hmul : b.toNat*256^rest.length≤255*256^rest.length :=
      Nat.mul_le_mul_right _ (Nat.le_of_lt_succ hb)
    rw [beNat_cons,List.length_cons,pow_succ]
    linarith

@[simp] theorem length_beEncode (n v : Nat) : (beEncode n v).length=n := by
  induction n with
  | zero => rfl
  | succ n ih => rw [beEncode,List.length_cons,ih]

/-- Encoding reads only the low bytes. -/
theorem beEncode_mod (n v m : Nat) (h : n ≤ m) : beEncode n (v%256^m)=beEncode n v := by
  induction n with
  | zero => rfl
  | succ n ih =>
    rw [beEncode,beEncode,ih (by omega)]
    congr 1
    rw [← UInt8.toNat_inj,UInt8.toNat_ofNat',UInt8.toNat_ofNat']
    obtain ⟨d,rfl⟩ := Nat.exists_eq_add_of_le h
    rw [pow_add,pow_succ,mul_assoc,Nat.mod_mul_right_div_self,Nat.mod_mul_right_mod]

theorem beNat_beEncode (n v : Nat) : beNat (beEncode n v)=v%256^n := by
  induction n with
  | zero => simp [beEncode,beNat,Nat.mod_one]
  | succ n ih =>
    have hb : (UInt8.ofNat (v/256^n)).toNat=v/256^n%256 := UInt8.toNat_ofNat'
    rw [beEncode,beNat_cons,length_beEncode,ih,hb,pow_succ,Nat.mod_mul]
    ring

/-- Encoding what a byte string writes gives the string back. -/
theorem beEncode_beNat (l : List UInt8) : beEncode l.length (beNat l)=l := by
  induction l with
  | nil => rfl
  | cons b rest ih =>
    have hlt := beNat_lt rest
    rw [List.length_cons,beEncode,beNat_cons]
    congr 1
    · rw [Nat.mul_comm,Nat.mul_add_div (by positivity),Nat.div_eq_of_lt hlt]
      simp
    · rw [← beEncode_mod rest.length _ rest.length le_rfl,Nat.mul_comm,Nat.mul_add_mod,
        beEncode_mod rest.length _ rest.length le_rfl,ih]

/-- Appending a byte by shift and or. -/
theorem shift_or_byte (v : Nat) (b : UInt8) : v<<<8|||b.toNat=v*256+b.toNat := by
  rw [← Nat.shiftLeft_add_eq_or_of_lt b.toNat_lt,Nat.shiftLeft_eq]

/-! The bytes that shifts of a machine integer take out. -/
section Shifts

theorem u16_bytes (v : UInt16) : [(v>>>8).toUInt8,v.toUInt8]=beEncode 2 v.toNat := by
  have h1 : (v>>>8).toUInt8=UInt8.ofNat (v.toNat/256) := by
    rw [← UInt8.toNat_inj,UInt16.toNat_toUInt8,UInt16.toNat_shiftRight,
      show (8 : UInt16).toNat%16=8 from rfl,Nat.shiftRight_eq_div_pow,UInt8.toNat_ofNat']
  have h2 : v.toUInt8=UInt8.ofNat v.toNat := by
    rw [← UInt8.toNat_inj,UInt16.toNat_toUInt8,UInt8.toNat_ofNat']
  rw [beEncode,beEncode,beEncode,h1,h2,pow_one,pow_zero,Nat.div_one]

theorem u32_shift (v : UInt32) {i : UInt32} {n : Nat} (hi : i.toNat%32=8*n) :
    (v>>>i).toUInt8=UInt8.ofNat (v.toNat/256^n) := by
  rw [← UInt8.toNat_inj,UInt32.toNat_toUInt8,UInt32.toNat_shiftRight,hi,
    Nat.shiftRight_eq_div_pow,UInt8.toNat_ofNat',pow_mul]
  rfl

theorem u32_bytes (v : UInt32) :
    [(v>>>24).toUInt8,(v>>>16).toUInt8,(v>>>8).toUInt8,v.toUInt8]=beEncode 4 v.toNat := by
  have h0 : v.toUInt8=UInt8.ofNat (v.toNat/256^0) := by simp
  rw [u32_shift v (n := 3) rfl,u32_shift v (n := 2) rfl,u32_shift v (n := 1) rfl,h0]
  rfl

theorem toUInt8_low (x : UInt64) : (x&&&0xFF).toUInt8=x.toUInt8 := by
  rw [← UInt8.toNat_inj,UInt64.toNat_toUInt8,UInt64.toNat_toUInt8,UInt64.toNat_and,
    show (0xFF : UInt64).toNat=2^8-1 from rfl,Nat.and_two_pow_sub_one_eq_mod,Nat.mod_mod]

theorem toUInt8_shift (v : UInt64) {i : Nat} (hi : i<8) :
    (v>>>UInt64.ofNat (i*8)).toUInt8=UInt8.ofNat (v.toNat/256^i) := by
  have hs : (UInt64.ofNat (i*8)).toNat%64=8*i := by
    rw [UInt64.toNat_ofNat_of_lt' (by simp only [UInt64.size]; omega)]
    omega
  rw [← UInt8.toNat_inj,UInt64.toNat_toUInt8,UInt64.toNat_shiftRight,hs,Nat.shiftRight_eq_div_pow,
    UInt8.toNat_ofNat',Nat.pow_mul]

theorem beEncode_eq_map (n v : Nat) :
    beEncode n v=(List.range n).map fun j => UInt8.ofNat (v/256^(n-1-j)) := by
  induction n with
  | zero => rfl
  | succ n ih =>
    rw [beEncode,List.range_succ_eq_map,List.map_cons,List.map_map,ih]
    congr 1
    refine List.map_congr_left fun j hj => ?_
    have hlt := List.mem_range.mp hj
    rw [Function.comp_apply,show n+1-1-(j+1)=n-1-j by omega]

theorem low_bytes (v : UInt64) {n : Nat} (hn : n < 8) :
    ((List.range (n+1)).map fun j => (v>>>UInt64.ofNat ((n-j)*8)).toUInt8)=
      beEncode (n+1) v.toNat := by
  rw [beEncode_eq_map]
  refine List.map_congr_left fun j _ => ?_
  rw [Nat.add_sub_cancel]
  exact toUInt8_shift v (by omega)

theorem u48_bytes (v : UInt64) :
    ((List.range 6).map fun j => (v>>>UInt64.ofNat ((5-j)*8)).toUInt8)=beEncode 6 v.toNat :=
  low_bytes v (n := 5) (by decide)

theorem u64_bytes (v : UInt64) :
    ((List.range 8).map fun j => (v>>>UInt64.ofNat ((7-j)*8)).toUInt8)=beEncode 8 v.toNat :=
  low_bytes v (n := 7) (by decide)

end Shifts

end MarketWire.Library
