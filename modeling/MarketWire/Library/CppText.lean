import MarketWire.Library.Transducer

/-! How C++ divides a text of ASCII characters into literals, comments and the rest. Whether a
carriage return ends a line is left to the implementation. Not read: block comments, prefixed and
raw literals, digit separators, numeric escapes and universal character names. -/
namespace MarketWire.Library.Cpp

/-- A character outside literals and comments, or a literal with its value. -/
inductive Item where
  | plain (c : UInt8)
  | character (value : UInt8)
  | string (value : List UInt8)
  deriving DecidableEq, Repr

/-- Where the reader stands: in code, after a slash, in a comment, in a string literal, or in a
character literal after its opening quote, after a backslash, or before its closing quote. -/
inductive Mode where
  | code
  | slash
  | comment
  | string (read : List UInt8)
  | opened
  | escape
  | closing (value : UInt8)
  deriving DecidableEq, Repr

def doubleQuote : UInt8 := 34
def singleQuote : UInt8 := 39
def slash : UInt8 := 47
def backslash : UInt8 := 92

variable (crEnds : Bool)

def isLineEnd (c : UInt8) : Bool := c==10 || (crEnds && c==13)

/-- The simple escape sequences. -/
def simpleEscape (c : UInt8) : Option UInt8 :=
  if c=39 ∨ c=34 ∨ c=63 ∨ c=92 then some c
  else if c=97 then some 7
  else if c=98 then some 8
  else if c=102 then some 12
  else if c=110 then some 10
  else if c=114 then some 13
  else if c=116 then some 9
  else if c=118 then some 11
  else none

/-- The ASCII characters that stand for themselves in a character literal. -/
def isCChar (c : UInt8) : Bool :=
  c<128 && c != singleQuote && c != backslash && !isLineEnd crEnds c

def step : Mode → UInt8 → Option (Mode×List Item)
  | .code, c =>
    if c=doubleQuote then some (.string [],[])
    else if c=singleQuote then some (.opened,[])
    else if c=slash then some (.slash,[])
    else some (.code,[.plain c])
  | .slash, c => if c=slash then some (.comment,[]) else none
  | .comment, c => if isLineEnd crEnds c then some (.code,[.plain c]) else some (.comment,[])
  | .string read, c =>
    if c=doubleQuote then some (.code,[.string read])
    else if c=backslash ∨ isLineEnd crEnds c then none
    else some (.string (read++[c]),[])
  | .opened, c =>
    if c=backslash then some (.escape,[])
    else if isCChar crEnds c then some (.closing c,[])
    else none
  | .escape, c => (simpleEscape c).map fun v => (.closing v,[])
  -- a second character would make another kind of literal
  | .closing v, c => if c=singleQuote then some (.code,[.character v]) else none

/-- A whole text. -/
def read (t : List UInt8) : Option (List Item) :=
  match transduce (step crEnds) .code t with
  | some (.code,items) => some items
  | _ => none

/-- The values of the character literals, in order. -/
def characters (items : List Item) : List UInt8 :=
  items.filterMap fun item =>
    match item with
    | .character v => some v
    | _ => none

def plain (t : List UInt8) : List Item := t.map .plain

@[simp] theorem characters_append (x y : List Item) :
    characters (x++y)=characters x++characters y := List.filterMap_append

@[simp] theorem characters_plain (t : List UInt8) : characters (plain t)=[] := by
  induction t with
  | nil => rfl
  | cons c rest ih => exact ih

@[simp] theorem characters_character (v : UInt8) (items : List Item) :
    characters (.character v::items)=v::characters items := rfl

@[simp] theorem characters_string (t : List UInt8) (items : List Item) :
    characters (.string t::items)=characters items := rfl

@[simp] theorem characters_nil : characters []=[] := rfl

theorem characters_flatMap {α : Type} {l : List α} {f : α → List Item} {g : α → List UInt8}
    (h : ∀ a∈l, characters (f a)=g a) : characters (l.flatMap f)=l.flatMap g := by
  induction l with
  | nil => rfl
  | cons a rest ih =>
    obtain ⟨ha,hrest⟩ := List.forall_mem_cons.mp h
    rw [List.flatMap_cons,List.flatMap_cons,characters_append,ha,ih hrest]

theorem plain_append (t s : List UInt8) : plain (t++s)=plain t++plain s := List.map_append

theorem read_eq_some {crEnds : Bool} {t : List UInt8} {items : List Item} :
    read crEnds t=some items ↔ transduce (step crEnds) .code t=some (.code,items) := by
  unfold read
  constructor
  · intro h
    split at h
    · rename_i x hx
      cases h
      exact hx
    · cases h
  · intro h
    rw [h]

section Pieces
variable {crEnds}

/-- Characters that are nothing special in code. -/
def Ordinary (c : UInt8) : Prop := c≠doubleQuote ∧ c≠singleQuote ∧ c≠slash

instance (c : UInt8) : Decidable (Ordinary c) := inferInstanceAs (Decidable (_ ∧ _))

theorem transduce_plain {t : List UInt8} (h : ∀ c∈t, Ordinary c) :
    transduce (step crEnds) .code t=some (.code,plain t) := by
  induction t with
  | nil => rfl
  | cons c rest ih =>
    obtain ⟨⟨h1,h2,h3⟩,hrest⟩ := List.forall_mem_cons.mp h
    have hc : step crEnds .code c=some (.code,[.plain c]) := by simp [step,h1,h2,h3]
    rw [transduce_cons hc,ih hrest]
    rfl

/-- Characters that stand for themselves in a string literal. -/
def Quotable (crEnds : Bool) (c : UInt8) : Prop :=
  c≠doubleQuote ∧ c≠backslash ∧ ¬isLineEnd crEnds c

instance (crEnds : Bool) (c : UInt8) : Decidable (Quotable crEnds c) :=
  inferInstanceAs (Decidable (_ ∧ _))

theorem transduce_string {t : List UInt8} (h : ∀ c∈t, Quotable crEnds c) (before : List UInt8) :
    transduce (step crEnds) (.string before) t=some (.string (before++t),[]) := by
  induction t generalizing before with
  | nil => simp [transduce]
  | cons c rest ih =>
    obtain ⟨⟨h1,h2,h3⟩,hrest⟩ := List.forall_mem_cons.mp h
    have hc : step crEnds (.string before) c=some (.string (before++[c]),[]) := by
      simp [step,h1,h2,h3]
    rw [transduce_cons hc,ih hrest]
    simp

theorem transduce_comment {t : List UInt8} (h : ∀ c∈t, ¬isLineEnd crEnds c) :
    transduce (step crEnds) .comment t=some (.comment,[]) := by
  induction t with
  | nil => rfl
  | cons c rest ih =>
    obtain ⟨hc,hrest⟩ := List.forall_mem_cons.mp h
    have hstep : step crEnds .comment c=some (.comment,[]) := by simp [step,hc]
    rw [transduce_cons hstep,ih hrest]
    rfl

theorem ne_of_isCChar {c : UInt8} (h : isCChar crEnds c) : c≠singleQuote ∧ c≠backslash := by
  simp only [isCChar,Bool.and_eq_true,bne_iff_ne] at h
  exact ⟨h.1.1.2,h.1.2⟩

theorem step_opened {c : UInt8} (h : isCChar crEnds c) :
    step crEnds .opened c=some (.closing c,[]) := by
  rw [step,if_neg (ne_of_isCChar h).2,if_pos h]

theorem step_opened_none {c : UInt8} (hb : c≠backslash) (h : ¬isCChar crEnds c) :
    step crEnds .opened c=none := by
  rw [step,if_neg hb,if_neg h]

end Pieces
section Front
variable {P : UInt8 → Bool} {t s : List UInt8}

/-- The plain characters of a kind at the front. -/
def takePlain (P : UInt8 → Bool) : List Item → List UInt8×List Item
  | .plain c::rest => if P c then ((c::(takePlain P rest).1),(takePlain P rest).2)
    else ([],.plain c::rest)
  | items => ([],items)

def takeCharacter : List Item → Option (UInt8×List Item)
  | .character v::rest => some (v,rest)
  | _ => none

def takeString : List Item → Option (List UInt8×List Item)
  | .string t::rest => some (t,rest)
  | _ => none

/-- A text that begins with another kind of character. -/
def stops (P : UInt8 → Bool) : List UInt8 → Bool
  | [] => false
  | c::_ => !P c

theorem stops_append (h : stops P t) (s : List UInt8) : stops P (t++s) := by
  cases t with
  | nil => cases h
  | cons c t => exact h

theorem takePlain_plain (ht : ∀ c∈t, P c) (hs : stops P s) (rest : List Item) :
    takePlain P (plain t++(plain s++rest))=(t,plain s++rest) := by
  induction t with
  | nil =>
    cases s with
    | nil => cases hs
    | cons c s =>
      have hc : P c=false := by simpa [stops] using hs
      change takePlain P (.plain c::(plain s++rest))=_
      rw [takePlain,if_neg (by rw [hc]; exact Bool.false_ne_true)]
      rfl
  | cons c t ih =>
    obtain ⟨hc,ht⟩ := List.forall_mem_cons.mp ht
    change takePlain P (.plain c::(plain t++(plain s++rest)))=_
    rw [takePlain,if_pos hc,ih ht]

end Front
end MarketWire.Library.Cpp
