import Mathlib.Data.List.Lex
import Mathlib.Algebra.Order.Ring.Int
import Mathlib.Tactic.Common

/-! Fixed-width domain types and market events. `char` is the signed eight-bit type
of the supported targets, so symbols are ordered by their signed bytes. -/
namespace MarketWire

abbrev OrderId := UInt64
abbrev Quantity := UInt32
abbrev Price := UInt32
abbrev Timestamp := UInt64
abbrev Sequence := UInt64
abbrev SlotIndex := UInt32
abbrev Bytes := List UInt8

def kInvalidSlot : SlotIndex := 0xFFFFFFFF

theorem toNat_kInvalidSlot : kInvalidSlot.toNat=2^32-1 := rfl

structure Symbol where
  bytes : Vector UInt8 8
  deriving DecidableEq, Repr

instance : Inhabited Symbol := ⟨⟨Vector.replicate 8 0⟩⟩

/-- The first eight characters, padded with spaces. -/
def Symbol.fromPadded (value : Bytes) : Symbol :=
  ⟨Vector.ofFn fun i => value.getD i 32⟩

def charValue (c : UInt8) : Int := c.toInt8.toInt

def Symbol.lt (a b : Symbol) : Prop :=
  a.bytes.toList.map charValue<b.bytes.toList.map charValue

instance : DecidableRel Symbol.lt := fun a b =>
  inferInstanceAs (Decidable (a.bytes.toList.map charValue<b.bytes.toList.map charValue))

inductive Side where
  | buy
  | sell
  deriving DecidableEq, Repr, Inhabited

structure EventMeta where
  stockLocate : UInt16
  trackingNumber : UInt16
  timestampNs : Timestamp
  deriving DecidableEq, Repr, Inhabited

structure Order where
  id : OrderId
  symbol : Symbol
  side : Side
  quantity : Quantity
  price : Price
  deriving DecidableEq, Repr, Inhabited

structure AddEvent where
  eventMeta : EventMeta
  order : Order
  deriving DecidableEq, Repr

structure ExecuteEvent where
  eventMeta : EventMeta
  orderId : OrderId
  executedShares : Quantity
  matchNumber : UInt64
  hasExecutionPrice : Bool
  executionPrice : Price
  printable : Bool
  deriving DecidableEq, Repr

structure CancelEvent where
  eventMeta : EventMeta
  orderId : OrderId
  canceledShares : Quantity
  deriving DecidableEq, Repr

structure DeleteEvent where
  eventMeta : EventMeta
  orderId : OrderId
  deriving DecidableEq, Repr

structure ReplaceEvent where
  eventMeta : EventMeta
  oldOrderId : OrderId
  newOrderId : OrderId
  newQuantity : Quantity
  newPrice : Price
  deriving DecidableEq, Repr

inductive MarketEvent where
  | add (e : AddEvent)
  | execute (e : ExecuteEvent)
  | cancel (e : CancelEvent)
  | delete (e : DeleteEvent)
  | replace (e : ReplaceEvent)
  deriving DecidableEq, Repr

/-- The exceptions of the source. -/
inductive Thrown where
  | badAlloc
  | outOfRange
  | invalidArgument (what : String)
  | decodeError (what : String)
  | runtimeError (what : String)
  deriving DecidableEq, Repr

/-- The iteration order of a side's levels: best price first. -/
def Side.lt : Side → Price → Price → Prop
  | .buy, a, b => b<a
  | .sell, a, b => a<b

instance (side : Side) : DecidableRel side.lt := fun a b =>
  match side with
  | .buy => inferInstanceAs (Decidable (b<a))
  | .sell => inferInstanceAs (Decidable (a<b))

theorem isStrictTotalOrder_of_injective {α β : Type*} [LinearOrder β] {lt : α → α → Prop}
    (f : α → β) (hf : Function.Injective f) (hlt : ∀ a b, lt a b ↔ f a<f b) :
    IsStrictTotalOrder α lt where
  irrefl a h := lt_irrefl _ ((hlt a a).mp h)
  trans a b c hab hbc := (hlt a c).mpr (((hlt a b).mp hab).trans ((hlt b c).mp hbc))
  trichotomous a b hab hba :=
    hf (le_antisymm (not_lt.mp fun h => hba ((hlt b a).mpr h))
      (not_lt.mp fun h => hab ((hlt a b).mpr h)))

instance isStrictTotalOrder_uint64 : IsStrictTotalOrder UInt64 (fun a b => a<b) :=
  isStrictTotalOrder_of_injective UInt64.toNat (fun _ _ h => UInt64.toNat_inj.mp h)
    (fun _ _ => UInt64.lt_iff_toNat_lt)

theorem charValue_injective : Function.Injective charValue := by
  intro a b h
  have h8 : a.toInt8=b.toInt8 := Int8.toInt_inj.mp h
  simpa using congrArg Int8.toUInt8 h8

instance : IsStrictTotalOrder Symbol Symbol.lt :=
  isStrictTotalOrder_of_injective (fun a => a.bytes.toList.map charValue)
    (fun a b h => by
      have he : a.bytes.toList=b.bytes.toList := charValue_injective.list_map h
      cases a
      cases b
      simpa [Vector.toList_inj] using he)
    (fun _ _ => Iff.rfl)

instance (side : Side) : IsStrictTotalOrder Price side.lt := by
  cases side with
  | buy =>
    exact isStrictTotalOrder_of_injective (fun a => -(a.toNat:Int))
      (fun a b h => UInt32.toNat_inj.mp (by simp only at h; omega))
      (fun a b => by simp only [Side.lt,UInt32.lt_iff_toNat_lt]; omega)
  | sell =>
    exact isStrictTotalOrder_of_injective (fun a => (a.toNat:Int))
      (fun a b h => UInt32.toNat_inj.mp (by simp only at h; omega))
      (fun a b => by simp only [Side.lt,UInt32.lt_iff_toNat_lt]; omega)

end MarketWire
