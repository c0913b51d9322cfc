import Mathlib
import PolkadotSdk.Allocator.FreeingBump

/-! # What a call to the allocator can do

One rule for each part of the allocator: the state in which it returns, and the state in which
it stops with an error. No assumption is made on the content of the memory or of the free lists.
-/

namespace PolkadotSdk.Allocator

open LittleEndian Program

/-! ## Orders -/

theorem trailingZeros_two_pow {exponent : Nat} (h : exponent < 32) :
    trailingZeros (2 ^ exponent) = exponent := by
  interval_cases exponent <;> decide

theorem nextPowerOfTwo_spec {n exponent : Nat} (hpos : 1 < n) (hn : n ≤ 2 ^ exponent) :
    ∃ k ≤ exponent, nextPowerOfTwo n = 2 ^ k ∧ n ≤ 2 ^ k ∧ 2 ^ k < 2 * n := by
  have hne : n - 1 ≠ 0 := by omega
  have hlt : Nat.log2 (n - 1) < exponent := (Nat.log2_lt hne).mpr (by omega)
  have hlow : 2 ^ Nat.log2 (n - 1) ≤ n - 1 := (Nat.le_log2 hne).mp (Nat.le_refl _)
  have hhigh : n - 1 < 2 ^ (Nat.log2 (n - 1) + 1) := (Nat.log2_lt hne).mp (Nat.lt_succ_self _)
  refine ⟨Nat.log2 (n - 1) + 1, hlt, if_neg (by omega), by omega, ?_⟩
  rw [Nat.pow_succ]
  omega

namespace Order

variable {order : Order}

theorem fromRaw_lt {raw : BitVec 32} (h : fromRaw raw = .ok order) : order.raw < nOrders := by
  unfold fromRaw at h
  split_ifs at h with hlt
  cases h
  exact hlt

theorem size_toNat (h : order.raw < nOrders) : order.size.toNat = 8 * 2 ^ order.raw := by
  obtain ⟨raw⟩ := order
  unfold nOrders at h
  dsimp only at h
  interval_cases raw <;> decide

theorem size_bounds (h : order.raw < nOrders) :
    8 ≤ order.size.toNat ∧ order.size.toNat ≤ 2 ^ 25 := by
  rw [size_toNat h]
  unfold nOrders at h
  have hlow : 1 ≤ 2 ^ order.raw := Nat.one_le_two_pow
  have hhigh : 2 ^ order.raw ≤ 2 ^ 22 := Nat.pow_le_pow_right (by decide) (by omega)
  omega

theorem chunk_toNat (h : order.raw < nOrders) :
    (order.size + headerSize).toNat = order.size.toNat + 8 := by
  have hbound := (size_bounds h).2
  rw [BitVec.toNat_add, show headerSize.toNat = 8 from rfl]
  omega

end Order

def blockSize (size : Nat) : Nat := max minPossibleAllocation (nextPowerOfTwo size)

theorem nextPowerOfTwo_clamped {size : Nat} (h : size ≤ maxPossibleAllocation) :
    ∃ raw < nOrders,
      nextPowerOfTwo (if size < minPossibleAllocation then minPossibleAllocation else size) =
        8 * 2 ^ raw ∧
      blockSize size = 8 * 2 ^ raw ∧ size ≤ 8 * 2 ^ raw := by
  unfold maxPossibleAllocation at h
  unfold blockSize minPossibleAllocation nOrders
  split_ifs with hsmall
  · refine ⟨0, by decide, by decide, ?_, by omega⟩
    interval_cases size <;> decide
  · obtain ⟨exponent, hle, heq, hlow, -⟩ := nextPowerOfTwo_spec (show 1 < size by omega)
      (show size ≤ 2 ^ 25 by omega)
    have hthree : 3 ≤ exponent := by
      refine (Nat.pow_le_pow_iff_right (a := 2) (by decide)).mp ?_
      omega
    have hpow : 2 ^ exponent = 8 * 2 ^ (exponent - 3) := by
      rw [show (8 : Nat) = 2 ^ 3 by decide, ← Nat.pow_add]
      congr 1
      omega
    refine ⟨exponent - 3, by omega, heq.trans hpow, ?_, by omega⟩
    rw [heq]
    omega

theorem Order.fromSize_spec {size : BitVec 32} {order : Order}
    (h : Order.fromSize size = .ok order) :
    order.raw < nOrders ∧ order.size.toNat = blockSize size.toNat ∧
      size.toNat ≤ order.size.toNat := by
  unfold Order.fromSize at h
  rw [ite_eq_iff] at h
  obtain ⟨-, hlarge⟩ | ⟨hlarge, h⟩ := h
  · cases hlarge
  obtain ⟨raw, hraw, hnext, hblock, hle⟩ := nextPowerOfTwo_clamped (Nat.le_of_not_lt hlarge)
  dsimp only at h
  rw [hnext] at h
  have hzeros : trailingZeros (8 * 2 ^ raw) - trailingZeros minPossibleAllocation = raw := by
    have hpow : 8 * 2 ^ raw = 2 ^ (3 + raw) := by
      rw [Nat.pow_add]
    unfold nOrders at hraw
    rw [hpow, trailingZeros_two_pow (by omega), show minPossibleAllocation = 2 ^ 3 from rfl,
      trailingZeros_two_pow (by decide)]
    omega
  rw [hzeros] at h
  cases h
  rw [Order.size_toNat hraw]
  exact ⟨hraw, hblock.symm, hle⟩

/-! ## States -/

namespace Machine

/-- Every range that was asked for lies inside the memory. -/
def Sound (machine : Machine) : Prop := ∀ access ∈ machine.accesses, access.stop ≤ access.size

def observed (machine : Machine) : Machine :=
  { machine with
    allocator := { machine.allocator with lastObservedMemorySize := machine.memory.size } }

def setHead (machine : Machine) (order : Order) (link : Link) : Machine :=
  { machine with
    allocator := { machine.allocator with
      freeLists := ⟨machine.allocator.freeLists.heads.setIfInBounds order.raw link⟩ } }

def writeHeader (machine : Machine) (ptr : BitVec 32) (header : Header) : Machine :=
  { machine.touch ptr.toNat (ptr.toNat + 8) with
    memory := machine.memory.copyFromSlice ptr.toNat (leBytes 8 header.encode) }

def poison (machine : Machine) : Machine :=
  { machine with allocator := { machine.allocator with poisoned := true } }

def headerAt (memory : Memory) (address : Nat) : Except Error Header :=
  Header.decode (leNat (memory.slice address (address + 8)))

def Reaches (machine : Machine) (ptr : BitVec 32) : Prop :=
  ptr.toNat + 8 < 2 ^ 32 ∧ ptr.toNat + 8 ≤ machine.memory.size

theorem Sound.touch {machine : Machine} (h : machine.Sound) (start : Nat) {stop : Nat}
    (hstop : stop ≤ machine.memory.size) : (machine.touch start stop).Sound := by
  intro access haccess
  rcases List.mem_cons.mp haccess with rfl | hmem
  · exact hstop
  · exact h access hmem

theorem Sound.observed_touch {machine : Machine} (h : machine.Sound) (start : Nat) {stop : Nat}
    (hstop : stop ≤ machine.memory.size) : (machine.observed.touch start stop).Sound :=
  (show machine.observed.Sound from h).touch start hstop

end Machine

open Machine

variable {s : Machine}

/-! ## Access to the memory -/

variable {ptr : BitVec 32}

theorem heapRange_of_reaches (h : s.Reaches ptr) :
    heapRange ptr 8 s.memory.size = some (ptr.toNat, ptr.toNat + 8) := by
  unfold heapRange
  rw [show (8 : BitVec 32).toNat = 8 from rfl, if_pos h.1, if_pos h.2]

theorem heapRange_of_not_reaches (h : ¬ s.Reaches ptr) : heapRange ptr 8 s.memory.size = none := by
  unfold heapRange
  rw [show (8 : BitVec 32).toNat = 8 from rfl, ← ite_and]
  exact if_neg h

theorem okOrElse_ends {α : Type} (msg : String) (option : Option α) :
    Ends (okOrElse msg option) s (fun a t => option = some a ∧ t = s)
      (fun _ t => option = none ∧ t = s) := by
  cases option with
  | none => exact .throw ⟨rfl, rfl⟩
  | some a => exact .pure ⟨rfl, rfl⟩

theorem liftResult_ends {α : Type} (result : Except Error α) :
    Ends (liftResult result) s (fun a t => result = .ok a ∧ t = s)
      (fun e t => result = .error e ∧ t = s) := by
  cases result with
  | error e => exact .throw ⟨rfl, rfl⟩
  | ok a => exact .pure ⟨rfl, rfl⟩

theorem accessRange_ends {start stop : Nat} (h : start ≤ stop ∧ stop ≤ s.memory.size) :
    Ends (accessRange (start, stop)) s (fun _ t => t = s.touch start stop) (fun _ _ => False) := by
  refine .modify_bind (.get_bind ?_)
  rw [if_pos]
  · exact .pure rfl
  · exact h

theorem readLeU64_ends (ptr : BitVec 32) :
    Ends (readLeU64 ptr) s
      (fun raw t => s.Reaches ptr ∧ raw = leNat (s.memory.slice ptr.toNat (ptr.toNat + 8)) ∧
        t = s.touch ptr.toNat (ptr.toNat + 8))
      (fun _ t => ¬ s.Reaches ptr ∧ t = s) := by
  refine .get_bind ?_
  by_cases hreach : s.Reaches ptr
  · rw [heapRange_of_reaches hreach]
    refine .pure_bind (.bind (accessRange_ends ⟨by omega, hreach.2⟩)
      (fun _ _ => False.elim) ?_)
    rintro - t rfl
    rw [if_pos (by simp)]
    exact .pure ⟨hreach, rfl, rfl⟩
  · rw [heapRange_of_not_reaches hreach]
    exact .throw_bind ⟨hreach, rfl⟩

theorem readFrom_ends (ptr : BitVec 32) :
    Ends (Header.readFrom ptr) s
      (fun header t => s.Reaches ptr ∧ headerAt s.memory ptr.toNat = .ok header ∧
        t = s.touch ptr.toNat (ptr.toNat + 8))
      (fun e t => ¬ s.Reaches ptr ∧ t = s ∨
        s.Reaches ptr ∧ headerAt s.memory ptr.toNat = .error e ∧
          t = s.touch ptr.toNat (ptr.toNat + 8)) := by
  refine .bind (readLeU64_ends ptr) (fun _ _ h => .inl h) ?_
  rintro raw t ⟨hreach, rfl, rfl⟩
  exact (liftResult_ends _).mono (fun header t h => ⟨hreach, h⟩) (fun e t h => .inr ⟨hreach, h⟩)

theorem writeInto_ends (header : Header) (hreach : s.Reaches ptr) :
    Ends (header.writeInto ptr) s (fun _ t => t = s.writeHeader ptr header)
      (fun _ _ => False) := by
  unfold Header.writeInto writeLeU64
  refine .get_bind ?_
  rw [heapRange_of_reaches hreach]
  refine .pure_bind (.bind (accessRange_ends ⟨by omega, hreach.2⟩)
    (fun _ _ => False.elim) ?_)
  rintro - t rfl
  rw [if_pos (by simp)]
  exact .modify rfl

/-! ## Free lists and the bumper -/

namespace FreeingBumpHeapAllocator

theorem observeMemorySize_ends :
    Ends observeMemorySize s
      (fun _ t => s.allocator.lastObservedMemorySize ≤ s.memory.size ∧ t = s.observed)
      (fun _ t => s.memory.size < s.allocator.lastObservedMemorySize ∧ t = s) := by
  refine .get_bind ?_
  by_cases hless : s.memory.size < s.allocator.lastObservedMemorySize
  · rw [if_pos hless]
    exact .throw ⟨hless, rfl⟩
  · rw [if_neg hless]
    exact .set ⟨Nat.le_of_not_lt hless, rfl⟩

variable {order : Order}

theorem index_ends (horder : order.raw < nOrders) :
    Ends (index order) s
      (fun link t => s.allocator.freeLists.heads[order.raw]? = some link ∧ t = s)
      (fun _ _ => False) := by
  refine .get_bind ?_
  rw [Vector.getElem?_eq_getElem horder]
  exact .pure ⟨rfl, rfl⟩

theorem indexMut_ends (horder : order.raw < nOrders) (link : Link) :
    Ends (indexMut order link) s (fun _ t => t = s.setHead order link) (fun _ _ => False) := by
  refine .get_bind ?_
  rw [if_pos horder]
  exact .set rfl

theorem replace_ends (horder : order.raw < nOrders) (new : Link) :
    Ends (replace order new) s
      (fun prev t => s.allocator.freeLists.heads[order.raw]? = some prev ∧
        t = s.setHead order new)
      (fun _ _ => False) := by
  refine .bind (index_ends horder) (fun _ _ => False.elim) ?_
  rintro prev t ⟨hprev, rfl⟩
  refine .bind (indexMut_ends horder new) (fun _ _ => False.elim) ?_
  rintro - t rfl
  exact .pure ⟨hprev, rfl⟩

structure Grown (memory grown : Memory) (requiredSize : Nat) : Prop where
  bytes : grown.bytes = memory.bytes
  maxPages : grown.maxPages = memory.maxPages
  asked : memory.growable = true ∨ grown.pages = memory.pages
  size_le : memory.size ≤ grown.size
  required_le : requiredSize ≤ grown.size

theorem pagesFromSize_spec {size pages : Nat} (h : pagesFromSize size = some pages) :
    size ≤ pages * pageSize := by
  unfold pagesFromSize at h
  obtain ⟨-, hpages⟩ := Option.ite_none_right_eq_some.mp h
  rw [← Option.some.inj hpages]
  unfold pageSize
  omega

theorem growTo_ends {requiredSize : Nat} (hrequired : s.memory.size < requiredSize) :
    Ends (growTo requiredSize) s
      (fun _ t => ∃ grown, Grown s.memory grown requiredSize ∧ t = { s with memory := grown })
      (fun _ t => t = s) := by
  refine .get_bind ?_
  cases hpages : pagesFromSize requiredSize with
  | none => exact .throw rfl
  | some requiredPages =>
    have hsize := pagesFromSize_spec hpages
    dsimp only
    split_ifs
    · exact .throw rfl
    · exact .throw rfl
    · split
      · exact .throw rfl
      · rename_i grown hgrow
        refine .set ⟨grown, ?_, rfl⟩
        obtain ⟨hbytes, hgrown, hmax, hgrowable⟩ := Memory.grow_spec hgrow
        have hmore : s.memory.pages < requiredPages := by
          refine Nat.lt_of_mul_lt_mul_right (a := pageSize) ?_
          unfold Memory.size at hrequired
          omega
        have hle : requiredPages ≤ grown.pages := by
          rw [hgrown]
          omega
        have hmul := Nat.mul_le_mul_right pageSize hle
        refine ⟨hbytes, hmax, .inl hgrowable, ?_, Nat.le_trans hsize hmul⟩
        exact Nat.le_trans (Nat.le_of_lt hrequired) (Nat.le_trans hsize hmul)

theorem ensureSize_ends (requiredSize : Nat) :
    Ends (ensureSize requiredSize) s
      (fun _ t => ∃ grown, Grown s.memory grown requiredSize ∧ t = { s with memory := grown })
      (fun _ t => t = s) := by
  refine .get_bind ?_
  by_cases hless : s.memory.size < requiredSize
  · rw [if_pos hless]
    exact growTo_ends hless
  · rw [if_neg hless]
    exact .pure ⟨s.memory, ⟨rfl, rfl, .inr rfl, Nat.le_refl _, Nat.le_of_not_lt hless⟩, rfl⟩

/-- The header that an order is given: the first of the free list, or a new one at the bumper. -/
inductive Found (s : Machine) (order : Order) : BitVec 32 → Machine → Prop
  | reused (headerPtr : BitVec 32) (nextFree : Link)
      (head : s.allocator.freeLists.heads[order.raw]? = some (.ptr headerPtr))
      (inside : headerPtr.toNat + order.size.toNat + 8 ≤ s.memory.size)
      (header : headerAt s.memory headerPtr.toNat = .ok (.free nextFree)) :
      Found s order headerPtr
        ((s.touch headerPtr.toNat (headerPtr.toNat + 8)).setHead order nextFree)
  | bumped (grown : Memory)
      (head : s.allocator.freeLists.heads[order.raw]? = some .nil)
      (grows : Grown s.memory grown (s.allocator.bumper.toNat + order.size.toNat + 8)) :
      Found s order s.allocator.bumper
        (advance { s with memory := grown } (order.size + headerSize))

def Unchanged (s t : Machine) : Prop :=
  t.allocator = s.allocator ∧ t.memory = s.memory ∧ t.wrapped = s.wrapped ∧ (s.Sound → t.Sound)

theorem Unchanged.refl (s : Machine) : Unchanged s s := ⟨rfl, rfl, rfl, id⟩

theorem Unchanged.touch {ptr : BitVec 32} (h : s.Reaches ptr) :
    Unchanged s (s.touch ptr.toNat (ptr.toNat + 8)) :=
  ⟨rfl, rfl, rfl, fun hsound => hsound.touch _ h.2⟩

theorem bump_ends (horder : order.raw < nOrders)
    (hhead : s.allocator.freeLists.heads[order.raw]? = some .nil) :
    Ends (bump (order.size + headerSize)) s (Found s order) (fun _ t => Unchanged s t) := by
  refine .get_bind (.bind (ensureSize_ends _) ?_ ?_)
  · rintro e t rfl
    exact .refl _
  · rintro - t ⟨grown, hgrown, rfl⟩
    rw [Order.chunk_toNat horder, ← Nat.add_assoc] at hgrown
    exact .modify_bind (.pure (.bumped grown hhead hgrown))

variable {headerPtr : BitVec 32}

theorem reuse_ends (horder : order.raw < nOrders)
    (hhead : s.allocator.freeLists.heads[order.raw]? = some (.ptr headerPtr)) :
    Ends (reuse order headerPtr) s (Found s order) (fun _ t => Unchanged s t) := by
  refine .get_bind ?_
  by_cases hinside : s.memory.size < headerPtr.toNat + order.size.toNat + headerSize.toNat
  · rw [if_pos hinside]
    exact .throw (.refl _)
  · rw [if_neg hinside]
    refine .bind (readFrom_ends headerPtr) ?_ ?_
    · rintro e t (⟨-, rfl⟩ | ⟨hreach, -, rfl⟩)
      · exact .refl _
      · exact .touch hreach
    · rintro header t ⟨hreach, hheader, rfl⟩
      refine .bind (okOrElse_ends _ _) ?_ ?_
      · rintro e t ⟨-, rfl⟩
        exact .touch hreach
      · rintro nextFree t ⟨hfree, rfl⟩
        refine .bind (indexMut_ends horder nextFree) (fun _ _ => False.elim) ?_
        rintro - t rfl
        refine .pure (.reused headerPtr nextFree hhead (Nat.le_of_not_lt hinside) ?_)
        cases header with
        | free link =>
          cases hfree
          exact hheader
        | occupied order => cases hfree

theorem findHeader_ends (horder : order.raw < nOrders) :
    Ends (findHeader order) s (Found s order) (fun _ t => Unchanged s t) := by
  refine .bind (index_ends horder) (fun _ _ => False.elim) ?_
  rintro link t ⟨hhead, rfl⟩
  cases link with
  | nil => exact bump_ends horder hhead
  | ptr headerPtr => exact reuse_ends horder hhead

variable {t : Machine}

theorem Found.inside (h : Found s order headerPtr t) :
    headerPtr.toNat + order.size.toNat + 8 ≤ t.memory.size := by
  cases h with
  | reused _ nextFree head inside header => exact inside
  | bumped grown head grows => exact grows.required_le

theorem Found.reaches (horder : order.raw < nOrders) (h : Found s order headerPtr t) :
    t.Reaches headerPtr := by
  have hinside := h.inside
  have hsize := t.memory.size_le
  have hlow := (Order.size_bounds horder).1
  exact ⟨by omega, by omega⟩

theorem Found.sound (h : Found s order headerPtr t) (hsound : s.Sound) : t.Sound := by
  cases h with
  | reused _ nextFree head inside header => exact hsound.touch _ (by omega)
  | bumped grown head grows => exact hsound

/-! ## Whole calls -/

theorem withPoisonBomb_ends {α : Type} {body : Call α} {Q : α → Machine → Prop}
    {E : Error → Machine → Prop} (h : Ends body s Q E) :
    Ends (withPoisonBomb body) s Q (fun e t => ∃ u, E e u ∧ t = u.poison) := by
  unfold Ends at h ⊢
  rw [show (withPoisonBomb body).run s = withPoisonBomb body s from rfl]
  unfold withPoisonBomb
  cases hrun : body s with
  | ok a t =>
    rw [show body.run s = .ok a t from hrun] at h
    exact h
  | error fault t =>
    rw [show body.run s = .error fault t from hrun] at h
    cases fault with
    | error e => exact ⟨t, h, rfl⟩
    | panic => exact h
    | diverge => exact h

/-- What `allocate` has done where it returns a pointer. -/
def Allocated (s : Machine) (size ptr : BitVec 32) (t : Machine) : Prop :=
  ∃ order headerPtr found, Order.fromSize size = .ok order ∧
    Found s.observed order headerPtr found ∧ ptr = headerPtr + headerSize ∧
    t = recordAllocation (found.writeHeader headerPtr (.occupied order)) order

def Refused (s t : Machine) : Prop :=
  s.allocator.poisoned = true ∧ t = s ∨
    ∃ u, (Unchanged s u ∨ Unchanged s.observed u) ∧ t = u.poison

theorem allocateInner_ends (size : BitVec 32) :
    Ends (allocateInner size) s (Allocated s size)
      (fun _ t => Unchanged s t ∨ Unchanged s.observed t) := by
  refine .bind observeMemorySize_ends ?_ ?_
  · rintro e t ⟨-, rfl⟩
    exact .inl (.refl _)
  rintro - t ⟨-, rfl⟩
  refine .bind (liftResult_ends _) ?_ ?_
  · rintro e t ⟨-, rfl⟩
    exact .inr (.refl _)
  rintro order t ⟨horder, rfl⟩
  obtain ⟨hraw, -, -⟩ := Order.fromSize_spec horder
  refine .bind (findHeader_ends hraw) (fun _ _ => .inr) ?_
  intro headerPtr found hfound
  refine .bind (writeInto_ends _ (hfound.reaches hraw)) (fun _ _ => False.elim) ?_
  rintro - t rfl
  exact .modify_bind (.pure ⟨order, headerPtr, found, horder, hfound, rfl, rfl⟩)

theorem allocate_ends (size : BitVec 32) :
    Ends (allocate size) s (fun ptr t => s.allocator.poisoned = false ∧ Allocated s size ptr t)
      (fun _ t => Refused s t) := by
  refine .get_bind ?_
  cases hpoisoned : s.allocator.poisoned with
  | true => exact .throw (.inl ⟨hpoisoned, rfl⟩)
  | false =>
    exact (withPoisonBomb_ends (allocateInner_ends size)).mono (fun _ _ h => ⟨rfl, h⟩)
      (fun _ _ h => .inr h)

structure Freeable (s : Machine) (ptr : BitVec 32) (order : Order) : Prop where
  le_ptr : headerSize ≤ ptr
  reaches : s.Reaches (ptr - headerSize)
  header : headerAt s.memory (ptr - headerSize).toNat = .ok (.occupied order)
  counted : order.size + headerSize ≤ s.allocator.stats.bytesAllocated

def freed (s : Machine) (ptr : BitVec 32) (order : Order) (prevHead : Link) : Machine :=
  let headerPtr := ptr - headerSize
  let machine := ((s.observed.touch headerPtr.toNat (headerPtr.toNat + 8)).setHead order
    (.ptr headerPtr)).writeHeader headerPtr (.free prevHead)
  { machine with
    allocator := { machine.allocator with
      stats := { machine.allocator.stats with
        bytesAllocated := s.allocator.stats.bytesAllocated - (order.size + headerSize) } } }

def Deallocated (s : Machine) (ptr : BitVec 32) (t : Machine) : Prop :=
  ∃ order prevHead, order.raw < nOrders ∧ Freeable s ptr order ∧
    s.allocator.freeLists.heads[order.raw]? = some prevHead ∧ t = freed s ptr order prevHead

theorem headerAt_occupied_lt {memory : Memory} {address : Nat}
    (h : headerAt memory address = .ok (.occupied order)) : order.raw < nOrders := by
  unfold headerAt Header.decode at h
  dsimp only at h
  split_ifs at h
  swap
  · cases h
  cases hraw : Order.fromRaw (BitVec.ofNat 32 (leNat (memory.slice address (address + 8)))) with
  | error e =>
    rw [hraw] at h
    cases h
  | ok raw =>
    rw [hraw] at h
    cases h
    exact Order.fromRaw_lt hraw

theorem deallocateInner_ends (ptr : BitVec 32) :
    Ends (deallocateInner ptr) s (fun _ t => Deallocated s ptr t)
      (fun _ t => (s.Sound → t.Sound) ∧
        (s.allocator.lastObservedMemorySize ≤ s.memory.size →
          ∀ order, ¬ Freeable s ptr order)) := by
  refine .bind observeMemorySize_ends ?_ ?_
  · rintro e t ⟨hless, rfl⟩
    exact ⟨id, fun hle => absurd hle (Nat.not_le_of_lt hless)⟩
  rintro - t ⟨-, rfl⟩
  refine .bind (okOrElse_ends _ _) ?_ ?_
  · rintro e t ⟨hless, rfl⟩
    refine ⟨id, fun _ order hfree => ?_⟩
    rw [if_pos hfree.le_ptr] at hless
    cases hless
  rintro headerPtr t ⟨hptr, rfl⟩
  obtain ⟨hle, hptr⟩ := Option.ite_none_right_eq_some.mp hptr
  cases hptr
  refine .bind (readFrom_ends _) ?_ ?_
  · rintro e t (⟨hreach, rfl⟩ | ⟨hreach, hheader, rfl⟩)
    · exact ⟨id, fun _ order hfree => hreach hfree.reaches⟩
    · refine ⟨fun hsound => hsound.observed_touch _ hreach.2,
        fun _ order hfree => ?_⟩
      cases hheader.symm.trans hfree.header
  rintro header t ⟨hreach, hheader, rfl⟩
  refine .bind (okOrElse_ends _ _) ?_ ?_
  · rintro e t ⟨hnone, rfl⟩
    refine ⟨fun hsound => hsound.observed_touch _ hreach.2,
      fun _ order hfree => ?_⟩
    cases hheader.symm.trans hfree.header
    cases hnone
  rintro order t ⟨hsome, rfl⟩
  obtain rfl : header = .occupied order := by
    cases header with
    | free link => cases hsome
    | occupied other =>
      cases hsome
      rfl
  have horder := headerAt_occupied_lt hheader
  refine .bind (replace_ends horder _) (fun _ _ => False.elim) ?_
  rintro prevHead t ⟨hprev, rfl⟩
  refine .bind (writeInto_ends _ (by exact hreach)) (fun _ _ => False.elim) ?_
  rintro - t rfl
  refine .get_bind ?_
  dsimp only
  split_ifs with hless
  · refine .throw ⟨fun hsound => ?_, fun _ other hfree => ?_⟩
    · have htouch := hsound.observed_touch (ptr - headerSize).toNat hreach.2
      exact htouch.touch _ hreach.2
    · cases hheader.symm.trans hfree.header
      exact absurd hfree.counted (BitVec.not_le.mpr hless)
  · exact .set ⟨order, prevHead, horder, ⟨hle, hreach, hheader, BitVec.not_lt.mp hless⟩,
      hprev, rfl⟩

theorem deallocate_ends (ptr : BitVec 32) :
    Ends (deallocate ptr) s (fun _ t => s.allocator.poisoned = false ∧ Deallocated s ptr t)
      (fun _ t => t.allocator.poisoned = true ∧ (s.Sound → t.Sound) ∧
        (s.allocator.poisoned = true ∧ t = s ∨
          (s.allocator.lastObservedMemorySize ≤ s.memory.size →
            ∀ order, ¬ Freeable s ptr order))) := by
  refine .get_bind ?_
  cases hpoisoned : s.allocator.poisoned with
  | true => exact .throw ⟨hpoisoned, id, .inl ⟨rfl, rfl⟩⟩
  | false =>
    refine (withPoisonBomb_ends (deallocateInner_ends ptr)).mono (fun _ _ h => ⟨rfl, h⟩) ?_
    rintro e t ⟨u, ⟨hsound, hfree⟩, rfl⟩
    exact ⟨rfl, hsound, .inr hfree⟩

end FreeingBumpHeapAllocator

end PolkadotSdk.Allocator
