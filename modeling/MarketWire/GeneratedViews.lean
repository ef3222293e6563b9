import MarketWire.Protocolc

/-! The code that the schema compiler emits for a protocol: one view class for each message,
with a checked constructor and an accessor for each field, and the dispatch on message types. -/
namespace MarketWire.Protocolc

/-- The C++ types that accessors return. -/
inductive AccessorType where
  | uint8
  | uint16
  | uint32
  | uint64
  | char
  | stringView
  deriving DecidableEq, Repr

@[reducible] def AccessorType.Value : AccessorType → Type
  | .uint8 => UInt8
  | .uint16 => UInt16
  | .uint32 => UInt32
  | .uint64 => UInt64
  | .char => UInt8
  | .stringView => Bytes

def accessorType : FieldType → AccessorType
  | .u8 => .uint8
  | .u16Be => .uint16
  | .u32Be | .price4 => .uint32
  | .u48Be | .u64Be | .price8 => .uint64
  | .char => .char
  | .ascii => .stringView

/-- The body of a field's accessor. -/
def accessorExpr (type : FieldType) (offset width : UInt64) (bytes : Bytes) :
    Except Thrown (accessorType type).Value :=
  match type with
  | .u8 => readU8 bytes offset.toNat
  | .u16Be => readU16Be bytes offset.toNat
  | .u32Be => readU32Be bytes offset.toNat
  | .price4 => readU32Be bytes offset.toNat
  | .u48Be => readU48Be bytes offset.toNat
  | .u64Be => readU64Be bytes offset.toNat
  | .price8 => readU64Be bytes offset.toNat
  | .char => readChar bytes offset.toNat
  | .ascii => readAsciiView bytes offset.toNat width.toNat

def Message.field? (m : Message) (name : String) : Option Field :=
  m.fields.find? fun f => f.name=text name

/-- The view class has an accessor of this name and type. -/
def Message.Declares (m : Message) (name : String) (type : AccessorType) : Prop :=
  (m.field? name).map (fun f => accessorType f.type)=some type

instance (m : Message) (name : String) (type : AccessorType) : Decidable (m.Declares name type) :=
  inferInstanceAs (Decidable ((m.field? name).map (fun f => accessorType f.type)=some type))

/-- A view over bytes that its constructor accepted. -/
structure View (m : Message) where
  bytes : Bytes
  size_eq : bytes.length=m.size.toNat
  type_eq : bytes.head?=some m.type

namespace View

variable {m : Message}

def create (m : Message) (bytes : Bytes) : Except Thrown (View m) :=
  if h : bytes.length=m.size.toNat ∧ bytes.head?=some m.type then .ok ⟨bytes,h.1,h.2⟩
  else .error (.decodeError ("invalid "++render m.name++" message"))

/-- The call `v.name()`; a call of an accessor that the class lacks does not compile. -/
def get (v : View m) (name : String) (type : AccessorType)
    (h : m.Declares name type := by decide +kernel) : Except Thrown type.Value :=
  match hf : m.field? name with
  | some f =>
    have ht : accessorType f.type=type := by
      rw [Message.Declares,hf] at h
      exact Option.some.inj h
    ht ▸ accessorExpr f.type f.offset f.width v.bytes
  | none => absurd h (by rw [Message.Declares,hf]; exact nofun)

theorem create_ok {bytes : Bytes} (hs : bytes.length=m.size.toNat) (ht : bytes.head?=some m.type) :
    create m bytes=.ok ⟨bytes,hs,ht⟩ := dif_pos ⟨hs,ht⟩

/-- An accessor reads at the offset that the layout gives its field. -/
theorem get_eq (v : View m) {name : String} {f : Field} (hf : m.field? name=some f)
    (h : m.Declares name (accessorType f.type)) :
    v.get name (accessorType f.type) h=accessorExpr f.type f.offset f.width v.bytes := by
  unfold get
  split
  · rename_i g hg
    obtain rfl : f=g := Option.some.inj (hf.symm.trans hg)
    rfl
  · rename_i hg
    rw [hf] at hg
    cases hg

end View

/-- `message_size` of the emitted namespace. -/
def Protocol.messageSize (p : Protocol) (type : UInt8) : Option UInt64 :=
  (p.messages.find? fun m => m.type=type).map Message.size

end MarketWire.Protocolc
