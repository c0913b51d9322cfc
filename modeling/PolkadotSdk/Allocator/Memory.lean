import PolkadotSdk.Lib.LittleEndian

/-! # Linear memory

A memory of wasm pages. It can grow up to its maximum and cannot shrink. Bytes are given for
all addresses; those past the size are never read.
-/

namespace PolkadotSdk.Allocator

def pageSize : Nat := 65536

def maxWasmPages : Nat := 4 * 1024 * 1024 * 1024 / pageSize

structure Memory where
  bytes : Nat → UInt8
  pages : Nat
  maxPages : Option Nat
  /-- Whether the host grows the memory if it is asked to. -/
  growable : Bool
  maxPages_le : maxPages.getD maxWasmPages ≤ maxWasmPages
  pages_le : pages ≤ maxPages.getD maxWasmPages

namespace Memory

def size (memory : Memory) : Nat := memory.pages * pageSize

def grow (memory : Memory) (additional : Nat) : Option Memory :=
  if h : memory.growable = true ∧ memory.pages + additional ≤ memory.maxPages.getD maxWasmPages then
    some { memory with pages := memory.pages + additional, pages_le := h.2 }
  else none

def slice (memory : Memory) (start stop : Nat) : List UInt8 :=
  (List.range (stop - start)).map fun offset => memory.bytes (start + offset)

def copyFromSlice (memory : Memory) (start : Nat) (source : List UInt8) : Memory :=
  { memory with
    bytes := fun address =>
      if start ≤ address then source[address - start]?.getD (memory.bytes address)
      else memory.bytes address }

variable {memory : Memory}

theorem size_le (memory : Memory) : memory.size ≤ 2 ^ 32 := by
  have hpages := Nat.le_trans memory.pages_le memory.maxPages_le
  have hmul := Nat.mul_le_mul_right pageSize hpages
  exact Nat.le_trans hmul (by decide)

@[simp] theorem slice_length (start stop : Nat) :
    (memory.slice start stop).length = stop - start := by
  simp [slice]

theorem grow_spec {additional : Nat} {grown : Memory} (h : memory.grow additional = some grown) :
    grown.bytes = memory.bytes ∧ grown.pages = memory.pages + additional ∧
      grown.maxPages = memory.maxPages ∧ memory.growable = true := by
  unfold grow at h
  split_ifs at h with hgrow
  cases h
  exact ⟨rfl, rfl, rfl, hgrow.1⟩

end Memory

end PolkadotSdk.Allocator
