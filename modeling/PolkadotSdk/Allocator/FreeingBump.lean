import PolkadotSdk.Allocator.Memory
import PolkadotSdk.Lib.Program

/-! # The freeing-bump heap allocator

Each chunk of the heap starts with a header of eight bytes. A free header has the link to the
next one of its order, so the free lists lie in the memory that the guest can write to.

Sums wrap as in release builds. `Machine` also keeps what the code leaves no trace of: which
ranges of the memory were asked for, and whether a sum on the bumper or the stats has wrapped.
-/

namespace PolkadotSdk.Allocator

open LittleEndian

inductive Error where
  | requestedAllocationTooLarge
  | allocatorOutOfSpace
  | memoryShrinked
  | other (msg : String)
  deriving DecidableEq, Repr

def error (msg : String) : Error := .other msg

def headerSize : BitVec 32 := 8

def nOrders : Nat := 23

def minPossibleAllocation : Nat := 8

def maxPossibleAllocation : Nat := 33554432

/-! ## Orders -/

def nextPowerOfTwo (n : Nat) : Nat := if n ≤ 1 then 1 else 2 ^ (Nat.log2 (n - 1) + 1)

def trailingZeros (n : Nat) : Nat := ((List.range 32).find? n.testBit).getD 32

structure Order where
  raw : Nat
  deriving DecidableEq, Repr

namespace Order

def fromRaw (order : BitVec 32) : Except Error Order :=
  if order.toNat < nOrders then .ok ⟨order.toNat⟩ else .error (error "invalid order")

def fromSize (size : BitVec 32) : Except Error Order :=
  if maxPossibleAllocation < size.toNat then .error .requestedAllocationTooLarge
  else
    let clampedSize := if size.toNat < minPossibleAllocation then minPossibleAllocation
      else size.toNat
    let powerOfTwoSize := nextPowerOfTwo clampedSize
    .ok ⟨trailingZeros powerOfTwoSize - trailingZeros minPossibleAllocation⟩

def size (order : Order) : BitVec 32 := BitVec.ofNat 32 minPossibleAllocation <<< order.raw

def intoRaw (order : Order) : BitVec 32 := BitVec.ofNat 32 order.raw

end Order

/-! ## Headers -/

def nilMarker : BitVec 32 := BitVec.allOnes 32

inductive Link where
  | nil
  | ptr (raw : BitVec 32)
  deriving DecidableEq, Repr

namespace Link

def fromRaw (raw : BitVec 32) : Link := if raw ≠ nilMarker then .ptr raw else .nil

def intoRaw : Link → BitVec 32
  | .nil => nilMarker
  | .ptr raw => raw

end Link

inductive Header where
  | free (link : Link)
  | occupied (order : Order)
  deriving DecidableEq, Repr

namespace Header

def occupiedMask : Nat := 0x0000000100000000

def decode (rawHeader : Nat) : Except Error Header :=
  let occupied := rawHeader &&& occupiedMask ≠ 0
  let headerData := BitVec.ofNat 32 rawHeader
  if occupied then (Order.fromRaw headerData).map .occupied
  else .ok (.free (Link.fromRaw headerData))

def encode : Header → Nat
  | .occupied order => order.intoRaw.toNat ||| occupiedMask
  | .free link => link.intoRaw.toNat ||| 0

def intoOccupied : Header → Option Order
  | .occupied order => some order
  | .free _ => none

def intoFree : Header → Option Link
  | .free link => some link
  | .occupied _ => none

end Header

/-! ## The allocator -/

structure FreeLists where
  heads : Vector Link nOrders

structure AllocationStats where
  bytesAllocated : BitVec 32 := 0
  bytesAllocatedPeak : BitVec 32 := 0
  bytesAllocatedSum : BitVec 128 := 0
  addressSpaceUsed : BitVec 32 := 0

def pagesFromSize (size : Nat) : Option Nat :=
  let pages := (size + pageSize - 1) / pageSize
  if pages < 2 ^ 32 then some pages else none

structure FreeingBumpHeapAllocator where
  originalHeapBase : BitVec 32
  bumper : BitVec 32
  freeLists : FreeLists
  poisoned : Bool
  lastObservedMemorySize : Nat
  stats : AllocationStats

structure Access where
  start : Nat
  stop : Nat
  size : Nat

structure Machine where
  allocator : FreeingBumpHeapAllocator
  memory : Memory
  accesses : List Access := []
  wrapped : Bool := false

abbrev Call (α : Type) : Type := Program Error Machine α

def liftResult {α : Type} : Except Error α → Call α
  | .ok a => pure a
  | .error e => throw (.error e)

def okOrElse {α : Type} (msg : String) : Option α → Call α
  | some a => pure a
  | none => throw (.error (error msg))

/-- The index of a slice or an array is out of its bounds. -/
def orPanic {α : Type} : Option α → Call α
  | some a => pure a
  | none => throw .panic

/-! ## Access to the memory -/

def heapRange (offset length : BitVec 32) (heapLen : Nat) : Option (Nat × Nat) :=
  let stop := offset.toNat + length.toNat
  if stop < 2 ^ 32 then
    if stop ≤ heapLen then some (offset.toNat, stop) else none
  else none

def Machine.touch (machine : Machine) (start stop : Nat) : Machine :=
  { machine with accesses := ⟨start, stop, machine.memory.size⟩ :: machine.accesses }

def accessRange (range : Nat × Nat) : Call Unit := do
  modify fun machine => machine.touch range.1 range.2
  let machine ← get
  if range.1 ≤ range.2 ∧ range.2 ≤ machine.memory.size then pure () else throw .panic

def readLeU64 (ptr : BitVec 32) : Call Nat := do
  let machine ← get
  let range ← okOrElse "read out of heap bounds" (heapRange ptr 8 machine.memory.size)
  accessRange range
  let bytes := machine.memory.slice range.1 range.2
  if bytes.length = 8 then pure (leNat bytes) else throw .panic

def writeLeU64 (ptr : BitVec 32) (val : Nat) : Call Unit := do
  let machine ← get
  let range ← okOrElse "write out of heap bounds" (heapRange ptr 8 machine.memory.size)
  accessRange range
  let bytes := leBytes 8 val
  if bytes.length = range.2 - range.1 then
    modify fun machine => { machine with memory := machine.memory.copyFromSlice range.1 bytes }
  else throw .panic

def Header.readFrom (headerPtr : BitVec 32) : Call Header := do
  let rawHeader ← readLeU64 headerPtr
  liftResult (Header.decode rawHeader)

def Header.writeInto (header : Header) (headerPtr : BitVec 32) : Call Unit :=
  writeLeU64 headerPtr header.encode

/-! ## Allocation -/

namespace FreeingBumpHeapAllocator

/-- Raise the poisoned flag unless the body returns. -/
def withPoisonBomb {α : Type} (body : Call α) : Call α := fun machine =>
  match body machine with
  | .ok a machine => .ok a machine
  | .error fault machine =>
    .error fault { machine with allocator := { machine.allocator with poisoned := true } }

def observeMemorySize : Call Unit := do
  let machine ← get
  if machine.memory.size < machine.allocator.lastObservedMemorySize then
    throw (.error .memoryShrinked)
  else
    set { machine with
      allocator := { machine.allocator with lastObservedMemorySize := machine.memory.size } }

def index (order : Order) : Call Link := do
  let machine ← get
  orPanic machine.allocator.freeLists.heads[order.raw]?

def indexMut (order : Order) (link : Link) : Call Unit := do
  let machine ← get
  if order.raw < nOrders then
    set { machine with
      allocator := { machine.allocator with
        freeLists := ⟨machine.allocator.freeLists.heads.setIfInBounds order.raw link⟩ } }
  else throw .panic

def replace (order : Order) (new : Link) : Call Link := do
  let prev ← index order
  indexMut order new
  pure prev

def growTo (requiredSize : Nat) : Call Unit := do
  let machine ← get
  match pagesFromSize requiredSize with
  | none => throw (.error .allocatorOutOfSpace)
  | some requiredPages =>
    let currentPages := machine.memory.pages
    let maxPages := machine.memory.maxPages.getD maxWasmPages
    if maxPages ≤ currentPages then throw (.error .allocatorOutOfSpace)
    else if maxPages < requiredPages then throw (.error .allocatorOutOfSpace)
    else
      let nextPages := max (min (currentPages * 2) maxPages) requiredPages
      match machine.memory.grow (nextPages - currentPages) with
      | none => throw (.error .allocatorOutOfSpace)
      | some memory => set { machine with memory := memory }

def ensureSize (requiredSize : Nat) : Call Unit := do
  let machine ← get
  if machine.memory.size < requiredSize then growTo requiredSize else pure ()

def advance (machine : Machine) (size : BitVec 32) : Machine :=
  let bumper := machine.allocator.bumper
  { machine with
    allocator := { machine.allocator with bumper := bumper + size }
    wrapped := machine.wrapped || bumper.uaddOverflow size }

def bump (size : BitVec 32) : Call (BitVec 32) := do
  let machine ← get
  let res := machine.allocator.bumper
  ensureSize (res.toNat + size.toNat)
  modify (advance · size)
  pure res

def reuse (order : Order) (headerPtr : BitVec 32) : Call (BitVec 32) := do
  let machine ← get
  if machine.memory.size < headerPtr.toNat + order.size.toNat + headerSize.toNat then
    throw (.error (error "Invalid header pointer detected"))
  else
    let header ← Header.readFrom headerPtr
    let nextFree ← okOrElse "free list points to a occupied header" header.intoFree
    indexMut order nextFree
    pure headerPtr

def findHeader (order : Order) : Call (BitVec 32) := do
  match ← index order with
  | .ptr headerPtr => reuse order headerPtr
  | .nil => bump (order.size + headerSize)

def recordAllocation (machine : Machine) (order : Order) : Machine :=
  let allocator := machine.allocator
  let stats := allocator.stats
  let chunk := order.size + headerSize
  let bytesAllocated := stats.bytesAllocated + chunk
  { machine with
    allocator := { allocator with
      stats :=
        { bytesAllocated := bytesAllocated
          bytesAllocatedSum := stats.bytesAllocatedSum + chunk.setWidth 128
          bytesAllocatedPeak :=
            if stats.bytesAllocatedPeak ≤ bytesAllocated then bytesAllocated
            else stats.bytesAllocatedPeak
          addressSpaceUsed := allocator.bumper - allocator.originalHeapBase } }
    wrapped := machine.wrapped || stats.bytesAllocated.uaddOverflow chunk ||
      stats.bytesAllocatedSum.uaddOverflow (chunk.setWidth 128) ||
      allocator.bumper.usubOverflow allocator.originalHeapBase }

def allocateInner (size : BitVec 32) : Call (BitVec 32) := do
  observeMemorySize
  let order ← liftResult (Order.fromSize size)
  let headerPtr ← findHeader order
  (Header.occupied order).writeInto headerPtr
  modify (recordAllocation · order)
  pure (headerPtr + headerSize)

def allocate (size : BitVec 32) : Call (BitVec 32) := do
  let machine ← get
  if machine.allocator.poisoned then
    throw (.error (error "the allocator has been poisoned"))
  else withPoisonBomb (allocateInner size)

def recordDeallocation (order : Order) : Call Unit := do
  let machine ← get
  let stats := machine.allocator.stats
  let chunk := order.size + headerSize
  if stats.bytesAllocated < chunk then
    throw (.error (error "underflow of the currently allocated bytes count"))
  else
    set { machine with
      allocator := { machine.allocator with
        stats := { stats with bytesAllocated := stats.bytesAllocated - chunk } } }

def deallocateInner (ptr : BitVec 32) : Call Unit := do
  observeMemorySize
  let headerPtr ← okOrElse "Invalid pointer for deallocation"
    (if headerSize ≤ ptr then some (ptr - headerSize) else none)
  let header ← Header.readFrom headerPtr
  let order ← okOrElse "the allocation points to an empty header" header.intoOccupied
  let prevHead ← replace order (.ptr headerPtr)
  (Header.free prevHead).writeInto headerPtr
  recordDeallocation order

def deallocate (ptr : BitVec 32) : Call Unit := do
  let machine ← get
  if machine.allocator.poisoned then
    throw (.error (error "the allocator has been poisoned"))
  else withPoisonBomb (deallocateInner ptr)

end FreeingBumpHeapAllocator

end PolkadotSdk.Allocator
