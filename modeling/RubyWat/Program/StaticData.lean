import RubyWat.Report.Fault
import RubyWat.Text.Numeral
import RubyWat.Wasm.Type

/-
  Static data: the initial content of memory.

  A cursor hands out addresses and only moves forward, up to the last address there is.  Values
  are placed under labels; a map leads from a label to the address of its first value.
-/

-- Values

namespace RubyWat

inductive DataValue where
  | int (ty : Wasm.MachineType) (value : Int64)
  | bytes (content : List UInt8)
deriving DecidableEq

namespace DataValue

/- The lowest bytes of a word, lowest first. -/
def littleEndian : Nat → Nat → List UInt8
  | 0, _ => []
  | count + 1, n => UInt8.ofNat (n % 256) :: littleEndian count (n / 256)

def toBytes : DataValue → List UInt8
  | int ty value => littleEndian ty.size value.toBitVec.toNat
  | bytes content => content

end DataValue

def lastAddress : Nat :=
  0xffffffff

/- The number of bytes of a value, as far as it can be counted. -/
def DataValue.size (v : DataValue) : Nat :=
  min v.toBytes.length lastAddress

/- A value placed under a label. -/
structure DataEntry where
  label : String
  address : Nat
  value : DataValue

-- Placement

/-
  The placed values in order of placement, the next free address,
  and a map from labels to addresses.
-/
structure StaticData where
  cursor : Nat
  entries : List DataEntry := []
  labels : List (String × Nat) := []

namespace StaticData

def labelAddress? (d : StaticData) (label : String) : Option Nat :=
  d.labels.lookup label

/- The map from labels with an address for a label, unless it has one. -/
def orInsert (d : StaticData) (label : String) (address : Nat) : List (String × Nat) :=
  match d.labelAddress? label with
  | some _ => d.labels
  | none => (label, address) :: d.labels

def place (d : StaticData) (label : String) (value : DataValue) : Nat × StaticData :=
  (d.cursor,
    { cursor := min (d.cursor + value.size) lastAddress
      entries := d.entries ++ [⟨label, d.cursor, value⟩]
      labels := d.orInsert label d.cursor })

/- Place a value under a label that has none yet. -/
def declare (d : StaticData) (label : String) (value : DataValue) (span : Span) :
    Except Fault (Nat × StaticData) :=
  match d.labelAddress? label with
  | some address => .error (.labelRedeclared label address span)
  | none => .ok (d.place label value)

/- Move the cursor forward to an address. -/
def setCursor (d : StaticData) (address : Nat) (span : Span) : Except Fault StaticData :=
  if address < d.cursor then .error (.backwardAddress d.cursor address span)
  else .ok { d with cursor := address }

/- Move the cursor to the next multiple of a number. -/
def align (d : StaticData) (n : Nat) : StaticData :=
  if 1 < n then { d with cursor := min ((d.cursor + n - 1) / n * n) lastAddress }
  else d

/- The placed values by address, those of one address in order of placement. -/
def byAddress (d : StaticData) : List DataEntry :=
  d.entries.mergeSort fun a b => decide (a.address ≤ b.address)

/- The first address after all values and before the cursor. -/
def endAddress (d : StaticData) : Nat :=
  d.entries.foldl
    (fun top e => max top (min (e.address + e.value.size) lastAddress))
    d.cursor

-- Memory Image

def isInside (d : StaticData) (e : DataEntry) : Bool :=
  decide (e.address + e.value.toBytes.length ≤ d.cursor)

/- The values that lie before the cursor, in order. -/
def inside (d : StaticData) : List DataEntry :=
  d.entries.filter d.isInside

/- Bytes with others written over them from an address on. -/
def overwrite (memory : List UInt8) (address : Nat) (bytes : List UInt8) : List UInt8 :=
  memory.take address ++ bytes ++ memory.drop (address + bytes.length)

/- The bytes before the cursor: the values, and zeros between. -/
def image (d : StaticData) : List UInt8 :=
  d.inside.foldl
    (fun memory e => overwrite memory e.address e.value.toBytes)
    (List.replicate d.cursor 0)

end StaticData

/- Bytes as they are written in a data segment. -/
def dataText (bytes : List UInt8) : String :=
  String.join <| bytes.map fun b =>
    let plain := decide (0x20 ≤ b.toNat) && decide (b.toNat ≤ 0x7e) && b != 0x22 && b != 0x5c
    if plain then (Char.ofNat b.toNat).toString
    else "\\" ++ Text.Numeral.hexByte b

end RubyWat
