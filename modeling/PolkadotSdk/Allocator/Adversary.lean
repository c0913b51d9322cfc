import PolkadotSdk.Allocator.Calls

/-! # A guest that attacks the allocator

Between the calls the guest rewrites its memory as it likes, the headers and links of the
allocator included, and grows it. The calls have any sizes and pointers, and the allocator is in
any state to begin with.
-/

namespace PolkadotSdk.Allocator

open Program Machine FreeingBumpHeapAllocator

inductive GuestOp where
  /-- Rewrite the memory and try to grow it; from now on the host grows it or does not. -/
  | rewrite (bytes : Nat → UInt8) (additional : Nat) (growable : Bool)
  | allocate (size : BitVec 32)
  | deallocate (ptr : BitVec 32)

inductive Outcome where
  | allocated (size ptr : BitVec 32) (memorySize : Nat)
  | deallocated
  | failed (e : Error)
  | panicked
  deriving DecidableEq

namespace Outcome

/-- The call did not panic, and did not return a pointer out of the memory. -/
def Safe : Outcome → Prop
  | .allocated size ptr memorySize => 8 ≤ ptr.toNat ∧ ptr.toNat + size.toNat ≤ memorySize
  | .deallocated => True
  | .failed _ => True
  | .panicked => False

def Failed : Outcome → Prop
  | .failed _ => True
  | _ => False

end Outcome

structure Session where
  machine : Machine
  outcomes : List Outcome

namespace Session

def rewrite (session : Session) (bytes : Nat → UInt8) (additional : Nat) (growable : Bool) :
    Session :=
  let memory := { session.machine.memory with bytes := bytes, growable := growable }
  { session with
    machine := { session.machine with memory := (memory.grow additional).getD memory } }

def call {α : Type} (session : Session) (program : Call α) (report : α → Machine → Outcome) :
    Session :=
  match program.run session.machine with
  | .ok a machine => ⟨machine, report a machine :: session.outcomes⟩
  | .error (.error e) machine => ⟨machine, .failed e :: session.outcomes⟩
  | .error .panic machine => ⟨machine, .panicked :: session.outcomes⟩
  | .error .diverge machine => ⟨machine, .panicked :: session.outcomes⟩

def step (session : Session) : GuestOp → Session
  | .rewrite bytes additional growable => session.rewrite bytes additional growable
  | .allocate size =>
    session.call (allocate size) fun ptr machine => .allocated size ptr machine.memory.size
  | .deallocate ptr => session.call (deallocate ptr) fun _ _ => .deallocated

structure Contained (session : Session) : Prop where
  sound : session.machine.Sound
  safe : ∀ outcome ∈ session.outcomes, outcome.Safe
  failed_stays : session.outcomes.Pairwise fun later earlier => earlier.Failed → later.Failed
  failed_poisons : (∃ outcome ∈ session.outcomes, outcome.Failed) →
    session.machine.allocator.poisoned = true

variable {session : Session}

/-- A call returns only from a state that is not poisoned, and poisons it where it fails. -/
theorem Contained.call {α : Type} (h : session.Contained) {program : Call α}
    {report : α → Machine → Outcome} {Q : α → Machine → Prop} {E : Error → Machine → Prop}
    (hends : Ends program session.machine Q E)
    (hreturn : ∀ a t, Q a t → session.machine.allocator.poisoned = false ∧ t.Sound ∧
      (report a t).Safe ∧ ¬ (report a t).Failed)
    (herror : ∀ e t, E e t → t.allocator.poisoned = true ∧ t.Sound) :
    (session.call program report).Contained := by
  unfold Ends at hends
  unfold Session.call
  split at hends
  · rename_i a t hrun
    obtain ⟨hpoisoned, hsound, hsafe, hreported⟩ := hreturn a t hends
    -- no call has failed yet: the allocator would be poisoned
    have hnone : ∀ outcome ∈ session.outcomes, ¬ outcome.Failed := by
      intro outcome hmem hfailed
      rw [h.failed_poisons ⟨outcome, hmem, hfailed⟩] at hpoisoned
      cases hpoisoned
    rw [hrun]
    refine ⟨hsound, List.forall_mem_cons.mpr ⟨hsafe, h.safe⟩, ?_, ?_⟩
    · exact List.pairwise_cons.mpr
        ⟨fun earlier hmem hfailed => absurd hfailed (hnone earlier hmem), h.failed_stays⟩
    · rintro ⟨outcome, hmem, hfailed⟩
      rcases List.mem_cons.mp hmem with rfl | hmem
      · exact absurd hfailed hreported
      · exact absurd hfailed (hnone outcome hmem)
  · rename_i e t hrun
    obtain ⟨hpoisoned, hsound⟩ := herror e t hends
    rw [hrun]
    refine ⟨hsound, List.forall_mem_cons.mpr ⟨trivial, h.safe⟩, ?_, fun _ => hpoisoned⟩
    exact List.pairwise_cons.mpr ⟨fun _ _ _ => trivial, h.failed_stays⟩
  · exact hends.elim
  · exact hends.elim

theorem Contained.allocate (h : session.Contained) (size : BitVec 32) :
    (session.step (.allocate size)).Contained := by
  refine h.call (allocate_ends size) ?_ ?_
  · rintro ptr t ⟨hpoisoned, order, headerPtr, found, horder, hfound, rfl, rfl⟩
    obtain ⟨hraw, -, hle⟩ := Order.fromSize_spec horder
    have hinside := hfound.inside
    have hsize := found.memory.size_le
    have hlow := (Order.size_bounds hraw).1
    have hptr : (headerPtr + headerSize).toNat = headerPtr.toNat + 8 := by
      rw [BitVec.toNat_add, show headerSize.toNat = 8 from rfl]
      omega
    refine ⟨hpoisoned, ?_, ?_, id⟩
    · exact (hfound.sound h.sound).touch _ (hfound.reaches hraw).2
    · refine ⟨by omega, ?_⟩
      show (headerPtr + headerSize).toNat + size.toNat ≤ found.memory.size
      omega
  · rintro e t (⟨hpoisoned, rfl⟩ | ⟨u, hunchanged, rfl⟩)
    · exact ⟨hpoisoned, h.sound⟩
    · rcases hunchanged with hunchanged | hunchanged
      · exact ⟨rfl, hunchanged.2.2.2 h.sound⟩
      · exact ⟨rfl, hunchanged.2.2.2 h.sound⟩

theorem Contained.deallocate (h : session.Contained) (ptr : BitVec 32) :
    (session.step (.deallocate ptr)).Contained := by
  refine h.call (deallocate_ends ptr) ?_ ?_
  · rintro - t ⟨hpoisoned, order, prevHead, -, hfree, -, rfl⟩
    refine ⟨hpoisoned, ?_, trivial, id⟩
    have htouch := h.sound.observed_touch (ptr - headerSize).toNat hfree.reaches.2
    exact htouch.touch _ hfree.reaches.2
  · rintro e t ⟨hpoisoned, hsound, -⟩
    exact ⟨hpoisoned, hsound h.sound⟩

theorem Contained.step (h : session.Contained) (op : GuestOp) : (session.step op).Contained := by
  cases op with
  | rewrite bytes additional growable =>
    exact ⟨h.sound, h.safe, h.failed_stays, h.failed_poisons⟩
  | allocate size => exact h.allocate size
  | deallocate ptr => exact h.deallocate ptr

/-- Whatever a guest does: no call panics, every pointer that is returned is at least 8 and its
allocation ends within the memory, as does every header that is accessed, and after a call that
failed all calls fail. -/
theorem guest_is_contained (allocator : FreeingBumpHeapAllocator) (memory : Memory)
    (ops : List GuestOp) :
    let last := ops.foldl Session.step ⟨{ allocator := allocator, memory := memory }, []⟩
    (∀ outcome ∈ last.outcomes, outcome ≠ .panicked) ∧
    (∀ size ptr memorySize, .allocated size ptr memorySize ∈ last.outcomes →
      8 ≤ ptr.toNat ∧ ptr.toNat + size.toNat ≤ memorySize) ∧
    (∀ access ∈ last.machine.accesses, access.stop ≤ access.size) ∧
    last.outcomes.Pairwise fun later earlier => earlier.Failed → later.Failed := by
  intro last
  have hstart : Session.Contained ⟨{ allocator := allocator, memory := memory }, []⟩ :=
    ⟨by simp [Machine.Sound], by simp, .nil, by simp⟩
  have hlast : last.Contained := by
    refine List.foldlRecOn ops Session.step hstart ?_
    intro session hsession op _
    exact hsession.step op
  refine ⟨?_, ?_, hlast.sound, hlast.failed_stays⟩
  · rintro outcome hmem rfl
    exact hlast.safe _ hmem
  · intro size ptr memorySize hmem
    exact hlast.safe _ hmem

end Session

end PolkadotSdk.Allocator
