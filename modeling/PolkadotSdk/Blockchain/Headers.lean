import Mathlib
import PolkadotSdk.Blockchain.HeaderMetadata
import PolkadotSdk.ForkTree.Forest

/-! # Stored headers

The headers in the store of a node make up a tree, to which a block is added above its parent.
The older blocks keep their branches, and what the cache holds about them stays true.
-/

namespace PolkadotSdk.Blockchain

variable {H : Type}

inductive NewBlockState where
  | normal
  | best
  | final
  deriving DecidableEq, Repr

namespace NewBlockState

def isBest : NewBlockState → Bool
  | .best | .final => true
  | .normal => false

def isFinal : NewBlockState → Bool
  | .final => true
  | .best | .normal => false

end NewBlockState

open Classical in
noncomputable def BlockTree.ancestry (tree : BlockTree H) : ForkTree.Ancestry H Nat where
  isDescendentOf a b := decide (a ≠ b ∧ tree.Extends a b)
  number a := (tree.header a).elim 0 Header.number
  irrefl a := by simp
  trans {a b c} hab hbc := by
    rw [decide_eq_true_iff] at hab hbc ⊢
    refine ⟨?_, hab.2.trans hbc.2⟩
    rintro rfl
    exact hab.1 (hab.2.antisymm hbc.2)
  chain {a b c} hac hbc := by
    rw [decide_eq_true_iff] at hac hbc ⊢
    rw [decide_eq_true_iff]
    by_cases heq : a = b
    · exact .inl heq
    · exact .inr ((hac.2.total hbc.2).imp (⟨heq, ·⟩) (⟨Ne.symm heq, ·⟩))
  number_lt {a b} hab := by
    rw [decide_eq_true_iff] at hab
    obtain ⟨x, hx⟩ := hab.2.base_known
    obtain ⟨y, hy⟩ := hab.2.known
    have hle := hab.2.number_le hx hy
    rw [hx, hy]
    exact lt_of_le_of_ne hle.1 fun heq => hab.1 (hle.2 heq)

theorem BlockTree.eq_isDescendentOf_iff {tree : BlockTree H} {a b : H} {answer : Bool} :
    answer = tree.ancestry.isDescendentOf a b ↔ (answer = true ↔ a ≠ b ∧ tree.Extends a b) := by
  rw [Bool.eq_iff_iff]
  simp [ancestry]

/-! ## Trees that grow -/

structure Grows (tree grown : BlockTree H) : Prop where
  kept : ∀ {block x}, tree.header block = some x → grown.header block = some x
  closed : ∀ {block x p}, tree.header block = some x → grown.header x.parentHash = some p →
    tree.header x.parentHash = some p

namespace Grows

variable {tree grown : BlockTree H} {a b : H} {x : Header H}

theorem refl (tree : BlockTree H) : Grows tree tree := ⟨id, fun _ h => h⟩

section

variable (h : Grows tree grown)
include h

theorem lift (hab : tree.Extends a b) : grown.Extends a b := by
  induction hab with
  | refl known => exact .refl (h.kept known)
  | step known _ ih => exact .step (h.kept known) ih

theorem extends_iff (hx : tree.header b = some x) : grown.Extends a b ↔ tree.Extends a b := by
  refine ⟨fun hab => ?_, h.lift⟩
  induction hab generalizing x with
  | refl _ => exact .refl hx
  | step known hrest ih =>
    rw [h.kept hx] at known
    cases known
    obtain ⟨p, hp⟩ := hrest.known
    exact .step hx (ih (h.closed hx hp))

theorem hasNumber {number : Nat} (ha : HasNumber tree a number) : HasNumber grown a number := by
  obtain ⟨x, hx, hnumber⟩ := ha
  exact ⟨x, h.kept hx, hnumber⟩

theorem hasNumber_iff {number : Nat} (hx : tree.header a = some x) :
    HasNumber grown a number ↔ HasNumber tree a number := by
  refine ⟨fun ⟨y, hy, hnumber⟩ => ?_, h.hasNumber⟩
  rw [h.kept hx] at hy
  cases hy
  exact ⟨x, hx, hnumber⟩

theorem sound {cache : HeaderMetadataCache H} (hsound : Sound tree cache) : Sound grown cache := by
  intro entry hentry
  obtain ⟨hhash, x, hfaithful⟩ := hsound entry hentry
  refine ⟨hhash, x, h.kept hfaithful.known, hfaithful.number, hfaithful.parent, fun p hp => ?_⟩
  exact h.lift (hfaithful.ancestor p (h.closed hfaithful.known hp))

end

end Grows

/-! ## The store -/

section Store

variable [DecidableEq H] [Inhabited H]

/-- The hashes are those of one block each, and none is the default one, which stands for no
block. -/
structure IsTree (headers : List (Header H)) : Prop where
  parents : ∀ x ∈ headers, ∀ p ∈ headers, p.hash = x.parentHash → p.number + 1 = x.number
  root : ∀ x ∈ headers, ∀ y ∈ headers, HeaderTree.Rootless headers x →
    HeaderTree.Rootless headers y → x.hash = y.hash
  zero : ∀ x ∈ headers, HeaderTree.Rootless headers x → x.number = 0
  distinct : (headers.map Header.hash).Nodup
  notDefault : ∀ x ∈ headers, x.hash ≠ default

instance (headers : List (Header H)) : Decidable (IsTree headers) :=
  decidable_of_iff (_ ∧ _ ∧ _ ∧ _ ∧ _)
    ⟨fun ⟨parents, root, zero, distinct, notDefault⟩ => ⟨parents, root, zero, distinct, notDefault⟩,
      fun h => ⟨h.parents, h.root, h.zero, h.distinct, h.notDefault⟩⟩

/-- The headers of a store, the newest one first. -/
structure Headers (H : Type) [DecidableEq H] [Inhabited H] where
  list : List (Header H)
  isTree : IsTree list

namespace Headers

variable {headers next : Headers H} {x y : Header H} {block : H}

def tree (headers : Headers H) : HeaderTree H :=
  .ofHeaders headers.list headers.isTree.parents headers.isTree.root headers.isTree.zero

def header (headers : Headers H) (hash : H) : Option (Header H) := headers.tree.header hash

def empty : Headers H := ⟨[], nofun, nofun, nofun, List.nodup_nil, nofun⟩

/-- Store the header of a block, which may be stored already. `none` is a header that has no
place in the tree. -/
def insert (headers : Headers H) (x : Header H) : Option (Headers H) :=
  if x ∈ headers.list then some headers
  else if h : IsTree (x :: headers.list) then some ⟨x :: headers.list, h⟩
  else none

theorem mem_of_header (h : headers.tree.header block = some x) : x ∈ headers.list :=
  List.mem_of_find?_eq_some h

theorem header_of_mem (h : x ∈ headers.list) : headers.tree.header x.hash = some x := by
  show headers.list.find? (fun y => y.hash = x.hash) = some x
  cases hfind : headers.list.find? fun y => y.hash = x.hash with
  | none => simpa using List.find?_eq_none.mp hfind x h
  | some y =>
    have hhash : y.hash = x.hash := by simpa using List.find?_some hfind
    rw [List.inj_on_of_nodup_map headers.isTree.distinct (List.mem_of_find?_eq_some hfind) h
      hhash]

theorem ne_default (h : headers.tree.header block = some x) : block ≠ default := by
  rw [← headers.tree.hash_eq h]
  exact headers.isTree.notDefault x (mem_of_header h)

theorem header_of_insert (h : headers.insert x = some next) : next.tree.header x.hash = some x := by
  unfold insert at h
  split_ifs at h with hmem htree
  · cases h
    exact header_of_mem hmem
  · cases h
    exact header_of_mem List.mem_cons_self

theorem grows_of_insert (h : headers.insert x = some next) :
    Grows headers.tree.toBlockTree next.tree.toBlockTree := by
  unfold insert at h
  split_ifs at h with hmem htree
  · cases h
    exact .refl _
  · cases h
    have hkept : ∀ {block y}, headers.tree.header block = some y →
        (Headers.mk (x :: headers.list) htree).tree.header block = some y := by
      intro block y hy
      have hmem : y ∈ (Headers.mk (x :: headers.list) htree).list :=
        List.mem_cons_of_mem _ (mem_of_header hy)
      rw [← headers.tree.hash_eq hy]
      exact header_of_mem hmem
    refine ⟨hkept, fun {block y p} hy hp => ?_⟩
    cases hparent : headers.tree.header y.parentHash with
    | some q =>
      rw [hkept hparent] at hp
      exact hp
    | none =>
      -- the root has number 0, so the new block is not its parent
      have hzero := headers.tree.root_number hy hparent
      have hnumber := (Headers.mk (x :: headers.list) htree).tree.number_parent (hkept hy) hp
      omega

theorem header_of_next (h : headers.insert x = some next) (hy : next.tree.header block = some y)
    (hne : block ≠ x.hash) : headers.tree.header block = some y := by
  have hhash := next.tree.hash_eq hy
  unfold insert at h
  split_ifs at h with hmem htree
  · cases h
    exact hy
  · cases h
    rcases List.mem_cons.mp (mem_of_header hy) with rfl | hmem
    · exact absurd hhash.symm hne
    · rw [← hhash]
      exact header_of_mem hmem

/-! ## The block being imported -/

/-- Asked with a block that is not stored yet and its parent, the client answers from the headers
it has what is true of the tree to which the block is added. -/
theorem isDescendentOf_before_insert {p : Header H} {cache : HeaderMetadataCache H} {base : H}
    (hinsert : headers.insert x = some next) (hnew : headers.tree.header x.hash = none)
    (hparent : headers.tree.header x.parentHash = some p)
    (hsound : Sound headers.tree cache)
    (hbase : ∃ y, next.tree.header base = some y) (hblock : ∃ y, next.tree.header block = some y) :
    Program.Returns (isDescendentOf headers.tree (some (x.hash, x.parentHash)) base block) cache
      fun answer t => answer = next.tree.toBlockTree.ancestry.isDescendentOf base block ∧
        Sound headers.tree t := by
  obtain ⟨y, hy⟩ := hbase
  obtain ⟨z, hz⟩ := hblock
  have hgrows := grows_of_insert hinsert
  have hx := header_of_insert hinsert
  simp only [isDescendentOf, BlockTree.eq_isDescendentOf_iff]
  split_ifs with hsame hcurrent hlast hchild
  · exact .pure ⟨by simp [hsame], hsound⟩
  · -- the new block has no descendants
    subst hcurrent
    refine .pure ⟨iff_of_false Bool.false_ne_true fun habove => ?_, hsound⟩
    rw [hgrows.extends_iff (header_of_next hinsert hz habove.1.symm)] at habove
    obtain ⟨w, hw⟩ := habove.2.base_known
    rw [hnew] at hw
    cases hw
  · subst hlast hchild
    exact .pure ⟨by simpa using ⟨hsame, .step hx (.refl (hgrows.kept hparent))⟩, hsound⟩
  · subst hlast
    refine (isCommonAncestor_returns hsound (header_of_next hinsert hy hsame) hparent).mono
      fun answer t hpost => ⟨?_, hpost.2⟩
    rw [hpost.1, ← hgrows.extends_iff hparent]
    exact ⟨fun h => ⟨hsame, .step hx h⟩, fun h => h.2.parent hx h.1⟩
  · refine (isCommonAncestor_returns hsound (header_of_next hinsert hy hcurrent)
      (header_of_next hinsert hz hlast)).mono fun answer t hpost => ⟨?_, hpost.2⟩
    rw [hpost.1, hgrows.extends_iff (header_of_next hinsert hz hlast), and_iff_right hsame]

end Headers

end Store

/-- Genesis with block 2 on it, and the new block 3 on block 2. -/
theorem Headers.isDescendentOf_before_insert_chain :
    Program.Returns (isDescendentOf (Headers.tree ⟨[⟨2, 1, 1⟩, ⟨1, 0, 0⟩], by decide⟩).toBlockTree
      (some (3, 2)) 1 3) ⟨5, []⟩ fun answer _ => answer = (Headers.tree
        ⟨[⟨3, 2, 2⟩, ⟨2, 1, 1⟩, ⟨1, 0, 0⟩], by decide⟩).toBlockTree.ancestry.isDescendentOf 1 3 :=
  (isDescendentOf_before_insert (x := ⟨3, 2, 2⟩) (p := ⟨2, 1, 1⟩) rfl rfl rfl (sound_empty 5)
    ⟨_, rfl⟩ ⟨_, rfl⟩).mono fun _ _ h => h.1

end PolkadotSdk.Blockchain
