import PolkadotSdk.Db.LeafSet

/-! # Reverting blocks

A revert takes one block after another away, from the highest leaf down; where it comes to the
number of the best block it goes on with the best block. Afterwards the leaves above the block it
came to are dropped. The block tree is consistent again exactly if this removed every block above
that block, and no other block lost its children by it. Block numbers have 32 bits and wrap.
-/

namespace PolkadotSdk.Db.Revert

open Blockchain

variable {H : Type} [DecidableEq H]

structure Blocks (H : Type) where
  headers : List (Header H)
  children : H → List H
  leaves : LeafSet H
  best : Nat × H
  storedBest : Nat × H
  finalized : Nat × H

structure Reverting (H : Type) where
  blocks : Blocks H
  /-- The levels the state database can revert; `none` if it keeps all states. -/
  levels : Option Nat
  number : Nat
  hash : H

inductive RevertError (H : Type) where
  | unknownBlock (hash : H)

def Blocks.remove (blocks old : Blocks H) (hash : H) (prev : Nat × H) : Blocks H :=
  { blocks with
    headers := blocks.headers.filter (·.hash ≠ hash)
    children := Function.update blocks.children prev.2 []
    best := if prev.1 < old.best.1 then prev else blocks.best
    storedBest := prev
    finalized := if prev.1 < old.finalized.1 then prev else blocks.finalized }

section Model

variable (haveStateAt : H → Nat → Bool) (old : Blocks H)

def revertBlock (r : Reverting H) : Except (RevertError H) (Option (Reverting H)) :=
  if r.number = 0 then .ok none
  else
    match r.blocks.headers.find? (·.hash = r.hash) with
    | none => .error (.unknownBlock r.hash)
    | some removed =>
      let prevNumber := r.number - 1
      let prevHash := if prevNumber = old.best.1 then old.best.2 else removed.parentHash
      if haveStateAt prevHash prevNumber = false then .ok none
      else if r.levels = some 0 then .ok none
      else .ok (some {
        blocks := r.blocks.remove old r.hash (prevNumber, prevHash)
        levels := r.levels.map (· - 1)
        number := prevNumber
        hash := prevHash })

def revertBlocks : Nat → Reverting H → Except (RevertError H) (Nat × Reverting H)
  | 0, r => .ok (0, r)
  | n + 1, r => do
    match ← revertBlock haveStateAt old r with
    | none => return (0, r)
    | some r =>
      let (reverted, r) ← revertBlocks n r
      return (reverted + 1, r)

def revertLeaves (r : Reverting H) : Option (Blocks H) :=
  (r.blocks.leaves.revert (r.number, r.hash)).map fun (leaves, removed) =>
    { r.blocks with
      leaves
      headers := r.blocks.headers.filter fun x => ∀ leaf ∈ removed, leaf.2 ≠ x.hash }

end Model

def addNumber (a b : Nat) : Nat := (a + b) % 2 ^ 32

def subNumber (a b : Nat) : Nat := (a + 2 ^ 32 - b) % 2 ^ 32

def Blocks.revertible (s : Blocks H) (n : Nat) (revertFinalized : Bool) : Nat :=
  let revertible := subNumber s.best.1 s.finalized.1
  if !revertFinalized && revertible < n then revertible else n

/-- `none` is a panic. -/
def revert (haveStateAt : H → Nat → Bool) (levels : Option Nat) (s : Blocks H) (n : Nat)
    (revertFinalized : Bool) : Option (Except (RevertError H) (Nat × Blocks H)) :=
  let n := s.revertible n revertFinalized
  let (n, number, hash) := match s.leaves.highestLeaf with
    | some (leafNumber, leafHash) =>
      (addNumber n (subNumber leafNumber s.best.1), leafNumber, leafHash)
    | none => (n, s.best.1, s.best.2)
  match revertBlocks haveStateAt s n ⟨s, levels, number, hash⟩ with
  | .error e => some (.error e)
  | .ok (reverted, r) => (revertLeaves r).map fun blocks => .ok (reverted, blocks)

/-! ## Consistent block trees -/

def Blocks.HasChild (s : Blocks H) (hash : H) : Prop := ∃ y ∈ s.headers, y.parentHash = hash

structure Consistent (s : Blocks H) : Prop where
  parent : ∀ x ∈ s.headers, x.number ≠ 0 → ∃ p ∈ s.headers, p.hash = x.parentHash
  children : ∀ x ∈ s.headers, ∀ hash,
    hash ∈ s.children x.hash ↔ ∃ y ∈ s.headers, y.hash = hash ∧ y.parentHash = x.hash
  leaves : ∀ leaf, leaf ∈ s.leaves ↔
    ∃ x ∈ s.headers, leaf = (x.number, x.hash) ∧ ¬ s.HasChild x.hash

structure Imported [Inhabited H] (headers : Headers H) (s : Blocks H) : Prop where
  headers_eq : s.headers = headers.list
  consistent : Consistent s
  leaves_nodup : s.leaves.storage.Nodup
  best : ∃ x ∈ s.headers, s.best = (x.number, x.hash)
  storedBest : s.storedBest = s.best
  number_lt : ∀ x ∈ s.headers, x.number < 2 ^ 32

variable [Inhabited H] {headers : Headers H} {s : Blocks H}

namespace Imported

section

variable (h : Imported headers s)
include h

theorem mem_iff {x : Header H} : x ∈ s.headers ↔ headers.tree.header x.hash = some x := by
  rw [h.headers_eq]
  exact ⟨Headers.header_of_mem, Headers.mem_of_header⟩

theorem eq_of_hash {x y : Header H} (hx : x ∈ s.headers)
    (hy : y ∈ s.headers) (heq : x.hash = y.hash) : x = y := by
  have hfind := h.mem_iff.mp hx
  rw [heq, h.mem_iff.mp hy] at hfind
  exact (Option.some.inj hfind).symm

theorem number_of_parent {x p : Header H} (hx : x ∈ s.headers)
    (hp : p ∈ s.headers) (hparent : x.parentHash = p.hash) : p.number + 1 = x.number :=
  headers.tree.number_parent (h.mem_iff.mp hx) (by rw [hparent]; exact h.mem_iff.mp hp)

theorem leaf_above {x : Header H} (hx : x ∈ s.headers) : ∃ leaf ∈ s.leaves, x.number ≤ leaf.1 := by
  obtain ⟨left, hleft⟩ : ∃ left, (s.headers.map Header.number).sum - x.number = left := ⟨_, rfl⟩
  induction left using Nat.strong_induction_on generalizing x with
  | _ left ih =>
    by_cases hchild : s.HasChild x.hash
    · obtain ⟨y, hy, hparent⟩ := hchild
      have hnumber := h.number_of_parent hy hx hparent
      have hle := List.single_le_sum (by simp) _ (List.mem_map_of_mem (f := Header.number) hy)
      obtain ⟨leaf, hleaf, hle⟩ := ih _ (by omega) hy rfl
      exact ⟨leaf, hleaf, by omega⟩
    · exact ⟨_, (h.consistent.leaves _).mpr ⟨x, hx, rfl, hchild⟩, le_rfl⟩

theorem highest : ∃ highest, s.leaves.highestLeaf = some highest ∧ s.best.1 ≤ highest.1 := by
  obtain ⟨x, hx, hbest⟩ := h.best
  obtain ⟨leaf, hleaf, hle⟩ := h.leaf_above hx
  obtain ⟨highest, hhighest⟩ := LeafSet.highestLeaf_of_mem hleaf
  refine ⟨highest, hhighest, ?_⟩
  rw [hbest]
  exact hle.trans ((LeafSet.highestLeaf_mem hhighest).2 leaf hleaf)

end

end Imported

/-! ## The blocks on the way -/

def Blocks.lower (s : Blocks H) (highest : Nat × H) : H :=
  if highest.1 = s.best.1 then highest.2 else s.best.2

/-- A revert comes by the ancestors of the highest leaf above the best number, and by those of the
best block below. -/
def OnWay (headers : Headers H) (s : Blocks H) (highest : Nat × H) (x : Header H) : Prop :=
  headers.tree.Extends x.hash (if s.best.1 < x.number then highest.2 else s.lower highest)

/-- A revert to `target` comes to an ancestor of the best block and removes what is above it, and
nothing else. -/
def Clears (headers : Headers H) (s : Blocks H) (highest : Nat × H) (target : Nat) : Prop :=
  ∃ y ∈ s.headers, y.number = target ∧ OnWay headers s highest y ∧
    headers.tree.Extends y.hash s.best.2 ∧
    ∀ x ∈ s.headers, target < x.number →
      (¬ s.HasChild x.hash ∨ OnWay headers s highest x) ∧
        (x.number = target + 1 → x.parentHash = y.hash)

theorem eq_of_number (h : Imported headers s) {x y : Header H} {block : H} (hx : x ∈ s.headers)
    (hy : y ∈ s.headers) (hxb : headers.tree.Extends x.hash block)
    (hyb : headers.tree.Extends y.hash block) (hnumber : x.number = y.number) : x = y := by
  have hx' := h.mem_iff.mp hx
  have hy' := h.mem_iff.mp hy
  have hxy := hxb.of_number_le hyb hx' hy' (by omega)
  exact h.eq_of_hash hx hy ((hxy.number_le hx' hy').2 hnumber)

theorem OnWay.eq_of_number (h : Imported headers s) {highest : Nat × H} {x y : Header H}
    (hx : x ∈ s.headers) (hy : y ∈ s.headers) (hxway : OnWay headers s highest x)
    (hyway : OnWay headers s highest y) (hnumber : x.number = y.number) : x = y := by
  unfold OnWay at hxway hyway
  rw [← hnumber] at hyway
  exact Revert.eq_of_number h hx hy hxway hyway hnumber

structure Progress (headers : Headers H) (s : Blocks H) (highest : Nat × H) (r : Reverting H) :
    Prop where
  self : ∃ y ∈ s.headers, y.hash = r.hash ∧ y.number = r.number ∧ OnWay headers s highest y
  number_le : r.number ≤ highest.1
  headers_iff : ∀ x, x ∈ r.blocks.headers ↔
    x ∈ s.headers ∧ ¬ (r.number < x.number ∧ OnWay headers s highest x)
  children : ∀ x ∈ s.headers, x.number ≤ r.number → x.hash ≠ r.hash →
    r.blocks.children x.hash = s.children x.hash
  emptied : r.number < highest.1 → r.blocks.children r.hash = []
  leaves : r.blocks.leaves = s.leaves
  best : r.blocks.best = if r.number < s.best.1 then (r.number, r.hash) else s.best
  storedBest : r.number < highest.1 → r.blocks.storedBest = (r.number, r.hash)

theorem progress_start (h : Imported headers s) {highest : Nat × H}
    (hhighest : s.leaves.highestLeaf = some highest) (hle : s.best.1 ≤ highest.1)
    (levels : Option Nat) : Progress headers s highest ⟨s, levels, highest.1, highest.2⟩ := by
  obtain ⟨hmem, hmax⟩ := LeafSet.highestLeaf_mem hhighest
  obtain ⟨y, hy, rfl, -⟩ := (h.consistent.leaves highest).mp hmem
  refine ⟨⟨y, hy, rfl, rfl, ?_⟩, le_rfl, fun x => ⟨fun hx => ⟨hx, fun hway => ?_⟩, And.left⟩,
    fun _ _ _ _ => rfl, fun hlt => absurd hlt (lt_irrefl _), rfl, ?_,
    fun hlt => absurd hlt (lt_irrefl _)⟩
  · unfold OnWay Blocks.lower
    have hself := h.mem_iff.mp hy
    split_ifs with hlt heq
    · exact .refl hself
    · exact .refl hself
    · dsimp only at hle heq
      omega
  · obtain ⟨leaf, hleaf, hle⟩ := h.leaf_above hx
    have hleaf := hmax leaf hleaf
    dsimp only at hleaf hway
    omega
  · dsimp only at hle ⊢
    rw [if_neg (by omega)]

/-- One round goes on to the next block on the way. -/
theorem Progress.round (h : Imported headers s) {highest : Nat × H} {r : Reverting H}
    (hr : Progress headers s highest r) {haveStateAt : H → Nat → Bool}
    (hstate : ∀ x ∈ s.headers, haveStateAt x.hash x.number = true) (hpositive : r.number ≠ 0)
    (hlevels : r.levels ≠ some 0) :
    ∃ next, revertBlock haveStateAt s r = .ok (some next) ∧ next.number = r.number - 1 ∧
      next.levels = r.levels.map (· - 1) ∧ Progress headers s highest next := by
  obtain ⟨y, hy, hhash, hnumber, hway⟩ := hr.self
  have hstored : y ∈ r.blocks.headers := (hr.headers_iff y).mpr ⟨hy, fun hlt => by omega⟩
  have hfind : r.blocks.headers.find? (·.hash = r.hash) = some y := by
    cases hfound : r.blocks.headers.find? (·.hash = r.hash) with
    | none => simpa [hhash] using List.find?_eq_none.mp hfound y hstored
    | some z =>
      have hz := ((hr.headers_iff z).mp (List.mem_of_find?_eq_some hfound)).1
      have hzhash : z.hash = r.hash := by simpa using List.find?_some hfound
      rw [h.eq_of_hash hz hy (hzhash.trans hhash.symm)]
  obtain ⟨p, hp, hpnumber⟩ := headers.tree.parent (h.mem_iff.mp hy) (by omega)
  have hphash := headers.tree.hash_eq hp
  have hpmem : p ∈ s.headers := h.mem_iff.mpr (by rw [hphash]; exact hp)
  -- the block that comes next, on the chain of the best block where its number is reached
  obtain ⟨q, hq, hqhash, hqnumber, hqway⟩ : ∃ q ∈ s.headers,
      q.hash = (if r.number - 1 = s.best.1 then s.best.2 else y.parentHash) ∧
        q.number = r.number - 1 ∧ OnWay headers s highest q := by
    split_ifs with hreached
    · obtain ⟨b, hb, hbest⟩ := h.best
      have hbnumber : b.number = s.best.1 := by rw [hbest]
      refine ⟨b, hb, by rw [hbest], by omega, ?_⟩
      have hle := hr.number_le
      unfold OnWay Blocks.lower
      rw [if_neg (by omega), if_neg (by omega), hbest]
      exact .refl (h.mem_iff.mp hb)
    · refine ⟨p, hpmem, hphash, by omega, ?_⟩
      unfold OnWay at hway ⊢
      have hparent : headers.tree.Extends p.hash y.hash := by
        rw [hphash]
        exact BlockTree.extends_parent (h.mem_iff.mp hy) hp
      have hsame : (s.best.1 < p.number) = (s.best.1 < y.number) := propext (by omega)
      simp only [hsame]
      exact hparent.trans hway
  have hround : revertBlock haveStateAt s r = .ok (some {
      blocks := r.blocks.remove s r.hash (q.number, q.hash)
      levels := r.levels.map (· - 1)
      number := q.number
      hash := q.hash }) := by
    unfold revertBlock
    rw [if_neg hpositive, hfind]
    dsimp only
    rw [← hqhash, ← hqnumber, if_neg (by rw [hstate q hq]; decide), if_neg hlevels]
  refine ⟨_, hround, hqnumber, rfl, ⟨q, hq, rfl, rfl, hqway⟩, ?_, fun x => ?_,
    fun x hx hle hne => ?_, fun _ => ?_, hr.leaves, ?_, fun _ => rfl⟩
  · have hle := hr.number_le
    dsimp only
    omega
  · show x ∈ r.blocks.headers.filter (·.hash ≠ r.hash) ↔ _
    rw [List.mem_filter, hr.headers_iff x, decide_eq_true_iff]
    dsimp only
    constructor
    · rintro ⟨⟨hx, hkept⟩, hne⟩
      refine ⟨hx, fun hgone => ?_⟩
      by_cases hlt : r.number < x.number
      · exact hkept ⟨hlt, hgone.2⟩
      · exact hne (by rw [OnWay.eq_of_number h hx hy hgone.2 hway (by omega), hhash])
    · rintro ⟨hx, hkept⟩
      refine ⟨⟨hx, fun hgone => hkept ⟨by omega, hgone.2⟩⟩, fun heq => ?_⟩
      rw [h.eq_of_hash hx hy (heq.trans hhash.symm)] at hkept
      exact hkept ⟨by omega, hway⟩
  · dsimp only at hle hne
    have hother : x.hash ≠ r.hash := by
      intro heq
      rw [h.eq_of_hash hx hy (heq.trans hhash.symm)] at hle
      omega
    exact (Function.update_of_ne hne _ _).trans (hr.children x hx (by omega) hother)
  · exact Function.update_self ..
  · show (if q.number < s.best.1 then (q.number, q.hash) else r.blocks.best) = _
    rw [hr.best]
    dsimp only
    split_ifs <;> first | rfl | omega

theorem Progress.run (h : Imported headers s) {highest : Nat × H} {haveStateAt : H → Nat → Bool}
    (hstate : ∀ x ∈ s.headers, haveStateAt x.hash x.number = true) (n : Nat) {r : Reverting H}
    (hr : Progress headers s highest r) (hlevels : ∀ levels ∈ r.levels, r.number ≤ levels) :
    ∃ last, revertBlocks haveStateAt s n r = .ok (min n r.number, last) ∧
      last.number = r.number - n ∧ Progress headers s highest last := by
  induction n generalizing r with
  | zero => exact ⟨r, by rw [Nat.zero_min]; rfl, rfl, hr⟩
  | succ n ih =>
    by_cases hzero : r.number = 0
    · refine ⟨r, ?_, by omega, hr⟩
      simp [revertBlocks, revertBlock, hzero, Except.pure, pure, bind, Except.bind]
    · have hsome : r.levels ≠ some 0 := fun heq => by
        have := hlevels 0 heq
        omega
      obtain ⟨next, hround, hnumber, hnext, hprogress⟩ := hr.round h hstate hzero hsome
      obtain ⟨last, hrest, hlast, hdone⟩ := ih hprogress fun levels hmem => by
        rw [hnext] at hmem
        obtain ⟨before, hbefore, rfl⟩ := Option.map_eq_some_iff.mp hmem
        have := hlevels before hbefore
        omega
      refine ⟨last, ?_, by omega, hdone⟩
      simp only [revertBlocks, hround, hrest, bind, Except.bind, pure, Except.pure]
      congr 2
      omega

/-! ## The blocks that are left -/

structure Reverted (headers : Headers H) (s : Blocks H) (target : Nat) (blocks : Blocks H) :
    Prop where
  consistent : Consistent blocks
  number : blocks.best.1 = target
  onBestChain : headers.tree.Extends blocks.best.2 s.best.2
  storedBest : blocks.storedBest = blocks.best
  nothing_above : ∀ x ∈ blocks.headers, x.number ≤ target

theorem revertLeaves_idle (h : Imported headers s) {highest : Nat × H}
    (hhighest : s.leaves.highestLeaf = some highest) (hbest : s.best.1 = highest.1)
    (levels : Option Nat) :
    ∃ blocks, revertLeaves ⟨s, levels, highest.1, highest.2⟩ = some blocks ∧
      Reverted headers s s.best.1 blocks := by
  obtain ⟨hmem, hmax⟩ := LeafSet.highestLeaf_mem hhighest
  have hkept : s.leaves.filter (·.1 ≤ highest.1) = s.leaves := by
    unfold LeafSet.filter
    congr
    exact List.filter_eq_self.mpr fun leaf hleaf => decide_eq_true (hmax leaf hleaf)
  have hremoved : s.leaves.storage.filter (highest.1 < ·.1) = [] := by
    refine List.filter_eq_nil_iff.mpr fun leaf hleaf => ?_
    have := hmax leaf hleaf
    simpa using this
  refine ⟨s, ?_, h.consistent, rfl, ?_, h.storedBest, fun x hx => ?_⟩
  · simp [revertLeaves, LeafSet.revert, hkept, hremoved, show highest ∈ s.leaves from hmem]
  · obtain ⟨b, hb, heq⟩ := h.best
    rw [heq]
    exact .refl (h.mem_iff.mp hb)
  · obtain ⟨leaf, hleaf, hle⟩ := h.leaf_above hx
    exact (hle.trans (hmax leaf hleaf)).trans (Nat.le_of_eq hbest.symm)

structure LeavesDropped (s : Blocks H) (r : Reverting H) (blocks : Blocks H) : Prop where
  best : blocks.best = r.blocks.best
  storedBest : blocks.storedBest = r.blocks.storedBest
  children : blocks.children = r.blocks.children
  headers_iff : ∀ x, x ∈ blocks.headers ↔ x ∈ r.blocks.headers ∧
    ∀ leaf ∈ s.leaves, r.number < leaf.1 → leaf.2 ≠ x.hash
  leaves_iff : ∀ leaf, leaf ∈ blocks.leaves ↔
    leaf = (r.number, r.hash) ∨ leaf ∈ s.leaves ∧ leaf.1 ≤ r.number

section Left

variable (h : Imported headers s) {highest : Nat × H} {r : Reverting H}
  (hr : Progress headers s highest r)
include h hr

theorem Progress.revertLeaves :
    ∃ blocks, Revert.revertLeaves r = some blocks ∧ LeavesDropped s r blocks := by
  have hnodup : (r.blocks.leaves.storage.filter (r.number < ·.1)).Nodup := by
    rw [hr.leaves]
    exact h.leaves_nodup.filter _
  unfold Revert.revertLeaves LeafSet.revert
  rw [if_pos hnodup, hr.leaves]
  refine ⟨_, rfl, rfl, rfl, rfl, fun x => ?_, fun leaf => ?_⟩
  · simp [List.mem_filter, show ∀ leaf, leaf ∈ s.leaves.storage ↔ leaf ∈ s.leaves from
      fun _ => Iff.rfl]
  · dsimp only
    split_ifs with hmem
    · rw [LeafSet.mem_filter] at hmem ⊢
      simp only [decide_eq_true_eq] at hmem ⊢
      refine ⟨.inr, ?_⟩
      rintro (rfl | hleaf)
      · exact hmem
      · exact hleaf
    · rw [LeafSet.mem_insertLeaf, LeafSet.mem_filter, decide_eq_true_eq]

variable {blocks : Blocks H} (hdropped : LeavesDropped s r blocks)
include hdropped

theorem LeavesDropped.mem_of_le {x : Header H} (hx : x ∈ s.headers) (hle : x.number ≤ r.number) :
    x ∈ blocks.headers := by
  refine (hdropped.headers_iff x).mpr ⟨(hr.headers_iff x).mpr ⟨hx, fun hgone => by omega⟩, ?_⟩
  intro leaf hleaf hgt heq
  obtain ⟨z, hz, rfl, -⟩ := (h.consistent.leaves leaf).mp hleaf
  rw [h.eq_of_hash hz hx heq] at hgt
  exact absurd hgt (Nat.not_lt.mpr hle)

/-- The blocks not above `y`, where the revert stopped, are left. Only `y` has lost children. -/
structure Cut (s : Blocks H) (r : Reverting H) (y : Header H) (blocks : Blocks H) : Prop where
  mem : y ∈ s.headers
  hash : y.hash = r.hash
  number : y.number = r.number
  kept : ∀ x, x ∈ blocks.headers ↔ x ∈ s.headers ∧ x.number ≤ r.number
  child : ∀ x ∈ s.headers, x.number ≤ r.number → x.hash ≠ r.hash → ∀ z ∈ s.headers,
    z.parentHash = x.hash → z ∈ blocks.headers

theorem Clears.cut (hclears : Clears headers s highest r.number) :
    ∃ y, Cut s r y blocks ∧ headers.tree.Extends y.hash s.best.2 := by
  obtain ⟨y, hy, hynumber, hyway, hychain, habove⟩ := hclears
  obtain ⟨y', hy', hyhash, hynumber', hyway'⟩ := hr.self
  have hsame := OnWay.eq_of_number h hy hy' hyway hyway' (by omega)
  subst hsame
  have hkept : ∀ x, x ∈ blocks.headers ↔ x ∈ s.headers ∧ x.number ≤ r.number := by
    refine fun x => ⟨fun hx => ?_, fun hx => hdropped.mem_of_le h hr hx.1 hx.2⟩
    rw [hdropped.headers_iff x, hr.headers_iff x] at hx
    obtain ⟨⟨hx, hway⟩, hleaf⟩ := hx
    refine ⟨hx, Nat.le_of_not_lt fun hgt => ?_⟩
    rcases (habove x hx hgt).1 with hchildless | hon
    · exact hleaf _ ((h.consistent.leaves _).mpr ⟨x, hx, rfl, hchildless⟩) hgt rfl
    · exact hway ⟨hgt, hon⟩
  refine ⟨y, ⟨hy, hyhash, hynumber, hkept, fun x hx hxle hne z hz hparent => ?_⟩, hychain⟩
  have hnumber := h.number_of_parent hz hx hparent
  refine (hkept z).mpr ⟨hz, Nat.le_of_not_lt fun hgt => hne ?_⟩
  rw [← hparent, (habove z hz hgt).2 (by omega), hyhash]

variable (hlt : r.number < highest.1)
include hlt

theorem Cut.consistent {y : Header H} (hcut : Cut s r y blocks) : Consistent blocks := by
  obtain ⟨hy, hyhash, hynumber, hkept, hchild⟩ := hcut
  have hnone : ∀ z ∈ blocks.headers, z.parentHash ≠ r.hash := by
    intro z hz hparent
    obtain ⟨hz, hzle⟩ := (hkept z).mp hz
    have := h.number_of_parent hz hy (hparent.trans hyhash.symm)
    omega
  refine ⟨fun x hx hpositive => ?_, fun x hx hash => ?_, fun leaf => ?_⟩
  · obtain ⟨hx, hxle⟩ := (hkept x).mp hx
    obtain ⟨p, hp, hparent⟩ := h.consistent.parent x hx hpositive
    have := h.number_of_parent hx hp hparent.symm
    exact ⟨p, (hkept p).mpr ⟨hp, by omega⟩, hparent⟩
  · obtain ⟨hx, hxle⟩ := (hkept x).mp hx
    rw [hdropped.children]
    by_cases heq : x.hash = r.hash
    · rw [heq, hr.emptied hlt]
      simp only [List.not_mem_nil, false_iff]
      rintro ⟨z, hz, -, hparent⟩
      exact hnone z hz hparent
    · rw [hr.children x hx hxle heq, h.consistent.children x hx hash]
      constructor
      · rintro ⟨z, hz, rfl, hparent⟩
        exact ⟨z, hchild x hx hxle heq z hz hparent, rfl, hparent⟩
      · rintro ⟨z, hz, rfl, hparent⟩
        exact ⟨z, ((hkept z).mp hz).1, rfl, hparent⟩
  · rw [hdropped.leaves_iff leaf]
    constructor
    · rintro (rfl | ⟨hleaf, hleafle⟩)
      · refine ⟨y, (hkept y).mpr ⟨hy, by omega⟩, by rw [hynumber, hyhash], ?_⟩
        rintro ⟨z, hz, hparent⟩
        exact hnone z hz (hparent.trans hyhash)
      · obtain ⟨x, hx, rfl, hchildless⟩ := (h.consistent.leaves leaf).mp hleaf
        refine ⟨x, (hkept x).mpr ⟨hx, hleafle⟩, rfl, ?_⟩
        rintro ⟨z, hz, hparent⟩
        exact hchildless ⟨z, ((hkept z).mp hz).1, hparent⟩
    · rintro ⟨x, hx, rfl, hchildless⟩
      obtain ⟨hx, hxle⟩ := (hkept x).mp hx
      by_cases heq : x.hash = r.hash
      · rw [h.eq_of_hash hx hy (heq.trans hyhash.symm), hynumber, hyhash]
        exact .inl rfl
      · refine .inr ⟨(h.consistent.leaves _).mpr ⟨x, hx, rfl, ?_⟩, hxle⟩
        rintro ⟨z, hz, hparent⟩
        exact hchildless ⟨z, hchild x hx hxle heq z hz hparent, hparent⟩

variable (hle : r.number ≤ s.best.1)
include hle

theorem Reverted.of_clears (hclears : Clears headers s highest r.number) :
    Reverted headers s r.number blocks := by
  obtain ⟨y, hcut, hychain⟩ := hclears.cut h hr hdropped
  have hself : blocks.best = (r.number, r.hash) := by
    rw [hdropped.best, hr.best]
    split_ifs with hbelow
    · rfl
    · obtain ⟨b, hb, hbeq⟩ := h.best
      have hynumber := hcut.number
      rw [hbeq] at hychain hbelow hle ⊢
      rw [← eq_of_number h hcut.mem hb hychain (.refl (h.mem_iff.mp hb))
        (by dsimp only at *; omega), hcut.hash, hynumber]
  refine ⟨hcut.consistent h hr hdropped hlt, by rw [hself], ?_, ?_,
    fun x hx => ((hcut.kept x).mp hx).2⟩
  · rw [hself, ← hcut.hash]
    exact hychain
  · rw [hdropped.storedBest, hself, hr.storedBest hlt]

theorem Clears.of_reverted (hreverted : Reverted headers s r.number blocks) :
    Clears headers s highest r.number := by
  obtain ⟨y, hy, hyhash, hynumber, hyway⟩ := hr.self
  have hgone : ∀ x, r.number < x.number → x ∉ blocks.headers := fun x hgt hx =>
    absurd (hreverted.nothing_above x hx) (Nat.not_le.mpr hgt)
  refine ⟨y, hy, hynumber, hyway, ?_, fun x hx hgt => ⟨?_, fun hnext => ?_⟩⟩
  · rcases Nat.lt_or_eq_of_le hle with hbelow | hbest
    · have hchain := hreverted.onBestChain
      rwa [hdropped.best, hr.best, if_pos hbelow, ← hyhash] at hchain
    · unfold OnWay Blocks.lower at hyway
      rwa [if_neg (by omega), if_neg (by omega)] at hyway
  · -- a block with a child that is not on the way is not taken away
    by_contra hkept
    obtain ⟨hchild, hoff⟩ := not_or.mp hkept
    refine hgone x hgt ((hdropped.headers_iff x).mpr
      ⟨(hr.headers_iff x).mpr ⟨hx, fun hway => hoff hway.2⟩, fun leaf hleaf _ heq => ?_⟩)
    obtain ⟨z, hz, rfl, hchildless⟩ := (h.consistent.leaves leaf).mp hleaf
    exact hchild (heq ▸ hchildless)
  · -- the children list of another parent would have a block that is gone
    obtain ⟨p, hp, hparent⟩ := h.consistent.parent x hx (by omega)
    have hnumber := h.number_of_parent hx hp hparent.symm
    by_contra hother
    have hne : p.hash ≠ r.hash := fun heq => hother (by rw [← hparent, heq, hyhash])
    have hlisted : x.hash ∈ blocks.children p.hash := by
      rw [hdropped.children, hr.children p hp (by omega) hne, h.consistent.children p hp]
      exact ⟨x, hx, rfl, hparent.symm⟩
    have hpleft := hdropped.mem_of_le h hr hp (by omega)
    obtain ⟨z, hz, hzhash, -⟩ := (hreverted.consistent.children p hpleft _).mp hlisted
    have hzs := ((hr.headers_iff z).mp ((hdropped.headers_iff z).mp hz).1).1
    exact hgone x hgt (h.eq_of_hash hzs hx hzhash ▸ hz)

end Left

omit [Inhabited H] in
theorem revertBlocks_idle {haveStateAt : H → Nat → Bool} {total : Nat} {r : Reverting H}
    (hidle : min total r.number = 0) : revertBlocks haveStateAt s total r = .ok (0, r) := by
  cases total with
  | zero => rfl
  | succ total =>
    have hzero : r.number = 0 := by omega
    simp [revertBlocks, revertBlock, hzero, pure, Except.pure, bind, Except.bind]

def siblings : Blocks ℕ where
  headers := [⟨4, 2, 2⟩, ⟨3, 2, 2⟩, ⟨2, 1, 1⟩, ⟨1, 0, 0⟩]
  children hash := if hash = 1 then [2] else if hash = 2 then [3, 4] else []
  leaves := ⟨[(2, 3), (2, 4)], by decide⟩
  best := (2, 3)
  storedBest := (2, 3)
  finalized := (0, 1)

def forked (best : Nat × ℕ) (top : List (Header ℕ)) (leaves : LeafSet ℕ) : Blocks ℕ where
  headers := top ++ [⟨5, 2, 4⟩, ⟨4, 1, 1⟩, ⟨3, 2, 2⟩, ⟨2, 1, 1⟩, ⟨1, 0, 0⟩]
  children hash :=
    if hash = 1 then [2, 4] else if hash = 2 then [3] else if hash = 4 then [5]
    else if hash = 3 then top.map Header.hash else []
  leaves := leaves
  best := best
  storedBest := best
  finalized := (0, 1)

def outcome : Option (Except (RevertError ℕ) (Nat × Blocks ℕ)) → Option ((Nat × ℕ) × List ℕ)
  | some (.ok (_, blocks)) => some (blocks.best, blocks.headers.map Header.hash)
  | _ => none

end PolkadotSdk.Db.Revert
