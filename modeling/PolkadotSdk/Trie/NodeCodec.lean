import PolkadotSdk.Lib.Program
import PolkadotSdk.StateMachine.StorageAppend

/-! # The node codec of the state trie

How a trie node is read from its bytes. `usize` has `width` bits and its arithmetic wraps, as it
does in a build without overflow checks. A node is decoded to a plan: the ranges of the bytes
that hold its partial key, its value and its children. The `Compact<u32>` codec is a parameter;
it reads from the bytes that are left.
-/

namespace PolkadotSdk.Trie

open StateMachine (CompactCodec)

/-! ## Node headers -/

def emptyTrie : UInt8 := 0b0000_0000
def leafPrefixMask : UInt8 := 0b0100_0000
def branchWithoutMask : UInt8 := 0b1000_0000
def branchWithMask : UInt8 := 0b1100_0000
def altHashingLeafPrefixMask : UInt8 := 0b0010_0000
def altHashingBranchWithMask : UInt8 := 0b0001_0000

inductive NodeHeader where
  | null
  /-- Whether there is a value, and the nibble count. -/
  | branch (hasValue : Bool) (nibbleCount : Nat)
  | leaf (nibbleCount : Nat)
  | hashedValueBranch (nibbleCount : Nat)
  | hashedValueLeaf (nibbleCount : Nat)
  deriving DecidableEq, Repr

inductive Error where
  | badFormat
  | decode (text : String)
  /-- An error of the `Compact` codec. -/
  | compact
  deriving DecidableEq, Repr

/-! ## The input -/

structure ByteSliceInput where
  data : List UInt8
  offset : Nat
  deriving DecidableEq, Repr

def ByteSliceInput.new (data : List UInt8) : ByteSliceInput := ⟨data, 0⟩

structure Range where
  start : Nat
  stop : Nat
  deriving DecidableEq, Repr

abbrev Decoder (α : Type) : Type := Program Error ByteSliceInput α

variable (width : Nat)

/-- The next `count` bytes, where the sum that is compared with the length may have wrapped. -/
def take (count : Nat) : Decoder Range := do
  let input ← get
  let next := (input.offset + count) % 2 ^ width
  if next > input.data.length then
    throw (.error (.decode "out of data"))
  set { input with offset := next }
  return ⟨input.offset, next⟩

def readByte : Decoder UInt8 := do
  let input ← get
  let next := (input.offset + 1) % 2 ^ width
  if next > input.data.length then
    throw (.error (.decode "out of data"))
  let byte ← Program.ofOption input.data[input.offset]?
  set { input with offset := next }
  return byte

def readCompact (codec : CompactCodec) : Decoder Nat := do
  let input ← get
  match codec.decode (input.data.drop input.offset) with
  | none => throw (.error .compact)
  | some (n, rest) =>
    set { input with offset := input.data.length - rest.length }
    return n

/-- Indexing a slice with a range panics unless `start ≤ stop ≤ len`. -/
def slice (data : List UInt8) (range : Range) : Option (List UInt8) :=
  if range.start ≤ range.stop ∧ range.stop ≤ data.length then
    some ((data.drop range.start).take (range.stop - range.start))
  else none

/-! ## Decoding -/

def decodeSizeLoop : Nat → Nat → Decoder Nat
  | 0, _ => throw .diverge
  | fuel + 1, result => do
    let n ← readByte width
    if n.toNat < 255 then
      return (result + n.toNat + 1) % 2 ^ width
    decodeSizeLoop fuel ((result + 255) % 2 ^ width)

/-- The size that starts in the header byte `first`; every byte of 255 is followed by another. -/
def decodeSize (first : UInt8) (prefixMask : UInt8) : Decoder Nat := do
  let maxValue := (255 : UInt8) >>> prefixMask
  let result := (first &&& maxValue).toNat
  if result < maxValue.toNat then
    return result
  decodeSizeLoop width ((← get).data.length + 1) (result - 1)

def NodeHeader.decode : Decoder NodeHeader := do
  let i ← readByte width
  if i = emptyTrie then
    return .null
  let kind := i &&& 0b1100_0000
  if kind = leafPrefixMask then
    return .leaf (← decodeSize width i 2)
  else if kind = branchWithMask then
    return .branch true (← decodeSize width i 2)
  else if kind = branchWithoutMask then
    return .branch false (← decodeSize width i 2)
  else if kind = emptyTrie then
    if i &&& 0b1110_0000 = altHashingLeafPrefixMask then
      return .hashedValueLeaf (← decodeSize width i 3)
    else if i &&& 0b1111_0000 = altHashingBranchWithMask then
      return .hashedValueBranch (← decodeSize width i 4)
    else
      throw (.error (.decode "Unallowed encoding"))
  else
    throw .panic

/-- The bytes of a partial key and the number of padding nibbles in front. -/
structure NibbleSlicePlan where
  bytes : Range
  offset : Nat
  deriving DecidableEq, Repr

inductive ValuePlan where
  | inline (range : Range)
  | node (range : Range)
  deriving DecidableEq, Repr

inductive NodeHandlePlan where
  | hash (range : Range)
  | inline (range : Range)
  deriving DecidableEq, Repr

inductive NodePlan where
  | empty
  | leaf (partialKey : NibbleSlicePlan) (value : ValuePlan)
  | nibbledBranch (partialKey : NibbleSlicePlan) (value : Option ValuePlan)
      (children : List (Option NodeHandlePlan))
  deriving DecidableEq, Repr

def padLeft (byte : UInt8) : UInt8 := byte &&& 0xF0

/-- The partial key of a leaf or of a branch, whose padding nibble has to be zero. -/
def decodePartial (nibbleCount : Nat) : Decoder NibbleSlicePlan := do
  let input ← get
  if input.data.length < (input.offset + 1) % 2 ^ width then
    throw (.error .badFormat)
  if nibbleCount % 2 ≠ 0 then
    let byte ← Program.ofOption input.data[input.offset]?
    if padLeft byte ≠ 0 then
      throw (.error .badFormat)
  let bytes ← take width (nibbleCount / 2 + nibbleCount % 2)
  return ⟨bytes, nibbleCount % 2⟩

def bitmapLength : Nat := 2

/-- Which children a branch has; it has one at least. -/
structure Bitmap where
  bits : UInt16
  deriving DecidableEq, Repr

def Bitmap.valueAt (bitmap : Bitmap) (i : Nat) : Bool :=
  bitmap.bits &&& (1 <<< UInt16.ofNat i) ≠ 0

def Bitmap.decode (data : List UInt8) : Decoder Bitmap := do
  let value := UInt16.ofNat (LittleEndian.leNat data)
  if value = 0 then
    throw (.error (.decode "Bitmap without a child."))
  return ⟨value⟩

def decodeBitmap : Decoder Bitmap := do
  let bitmapRange ← take width bitmapLength
  let data ← Program.ofOption (slice (← get).data bitmapRange)
  Bitmap.decode data

variable (hashLength : Nat) (codec : CompactCodec)

def decodeValue (containsHash : Bool) : Decoder ValuePlan := do
  if containsHash then
    return .node (← take width hashLength)
  else
    let count ← readCompact codec
    return .inline (← take width count)

def decodeChild : Decoder NodeHandlePlan := do
  let count ← readCompact codec
  let range ← take width count
  return if count = hashLength then .hash range else .inline range

def decodeIf {α : Type} (present : Bool) (decoder : Decoder α) : Decoder (Option α) :=
  if present then return some (← decoder) else return none

def decodeChildren (bitmap : Bitmap) : List Nat → Decoder (List (Option NodeHandlePlan))
  | [] => return []
  | i :: rest => do
    let child ← decodeIf (bitmap.valueAt i) (decodeChild width hashLength codec)
    return child :: (← decodeChildren bitmap rest)

def decodeBranch (nibbleCount : Nat) (hasValue containsHash : Bool) : Decoder NodePlan := do
  let partialKey ← decodePartial width nibbleCount
  let bitmap ← decodeBitmap width
  let value ← decodeIf hasValue (decodeValue width hashLength codec containsHash)
  let children ← decodeChildren width hashLength codec bitmap (List.range 16)
  return .nibbledBranch partialKey value children

def decodeLeaf (nibbleCount : Nat) (containsHash : Bool) : Decoder NodePlan := do
  let partialKey ← decodePartial width nibbleCount
  return .leaf partialKey (← decodeValue width hashLength codec containsHash)

def decodePlan : Decoder NodePlan := do
  match ← NodeHeader.decode width with
  | .null => return .empty
  | .hashedValueBranch nibbleCount =>
    decodeBranch width hashLength codec nibbleCount true true
  | .branch hasValue nibbleCount =>
    decodeBranch width hashLength codec nibbleCount hasValue false
  | .hashedValueLeaf nibbleCount => decodeLeaf width hashLength codec nibbleCount true
  | .leaf nibbleCount => decodeLeaf width hashLength codec nibbleCount false

end PolkadotSdk.Trie
