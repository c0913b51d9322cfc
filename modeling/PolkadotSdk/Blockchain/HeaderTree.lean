import Mathlib

/-! # The tree of known headers

Every known block but the genesis block has a known parent, one number below its own. A block
extends the blocks on the path from it to the genesis block.
-/

namespace PolkadotSdk.Blockchain

structure Header (H : Type) where
  hash : H
  number : Nat
  parentHash : H
  deriving DecidableEq, Repr

/-- Known blocks, of which one has a parent that is not known. Numbers go up by one. -/
structure BlockTree (H : Type) where
  header : H → Option (Header H)
  hash_eq : ∀ {block x}, header block = some x → x.hash = block
  number_parent : ∀ {block x p}, header block = some x → header x.parentHash = some p →
    p.number + 1 = x.number
  root_unique : ∀ {a b x y}, header a = some x → header x.parentHash = none →
    header b = some y → header y.parentHash = none → a = b

/-- A tree whose root is the genesis block, with number 0. -/
structure HeaderTree (H : Type) extends BlockTree H where
  root_number : ∀ {block x}, header block = some x → header x.parentHash = none → x.number = 0

instance {H : Type} : Coe (HeaderTree H) (BlockTree H) := ⟨HeaderTree.toBlockTree⟩

namespace BlockTree

variable {H : Type}

/-- `Extends base block`: the block is the base or descends from it. -/
inductive Extends (tree : BlockTree H) (base : H) : H → Prop
  | refl {x} (known : tree.header base = some x) : Extends tree base base
  | step {block x} (known : tree.header block = some x) (h : Extends tree base x.parentHash) :
      Extends tree base block

variable {tree : BlockTree H} {a b c block : H} {x y : Header H}

theorem header_self (h : tree.header block = some x) : tree.header x.hash = some x := by
  rw [tree.hash_eq h, h]

theorem Extends.base_known (h : tree.Extends a b) : ∃ x, tree.header a = some x := by
  induction h with
  | refl known => exact ⟨_, known⟩
  | step _ _ ih => exact ih

theorem Extends.known (h : tree.Extends a b) : ∃ x, tree.header b = some x := by
  cases h with
  | refl known => exact ⟨_, known⟩
  | step known _ => exact ⟨_, known⟩

theorem Extends.trans (hab : tree.Extends a b) (hbc : tree.Extends b c) : tree.Extends a c := by
  induction hbc with
  | refl _ => exact hab
  | step known _ ih => exact .step known ih

theorem extends_parent (hx : tree.header block = some x) {p : Header H}
    (hp : tree.header x.parentHash = some p) : tree.Extends x.parentHash block :=
  .step hx (.refl hp)

theorem Extends.number_le (h : tree.Extends a b) (hx : tree.header a = some x)
    (hy : tree.header b = some y) : x.number ≤ y.number ∧ (x.number = y.number → a = b) := by
  induction h generalizing y with
  | refl known =>
    rw [hx] at hy
    cases hy
    exact ⟨Nat.le_refl _, fun _ => rfl⟩
  | step known hrest ih =>
    rw [known] at hy
    cases hy
    obtain ⟨p, hp⟩ := hrest.known
    have hnumber := tree.number_parent known hp
    have hle := (ih hp).1
    exact ⟨by omega, fun heq => by omega⟩

theorem Extends.antisymm (hab : tree.Extends a b) (hba : tree.Extends b a) : a = b := by
  obtain ⟨x, hx⟩ := hab.base_known
  obtain ⟨y, hy⟩ := hab.known
  have h₁ := hab.number_le hx hy
  have h₂ := hba.number_le hy hx
  exact h₁.2 (by omega)

theorem Extends.parent (h : tree.Extends a b) (hy : tree.header b = some y) (hne : a ≠ b) :
    tree.Extends a y.parentHash := by
  cases h with
  | refl _ => exact absurd rfl hne
  | step known hrest =>
    rw [known] at hy
    cases hy
    exact hrest

theorem Extends.of_number_le (hac : tree.Extends a c) (hbc : tree.Extends b c)
    (hx : tree.header a = some x) (hy : tree.header b = some y) (hle : x.number ≤ y.number) :
    tree.Extends a b := by
  induction hbc with
  | refl _ => exact hac
  | step known hrest ih =>
    rename_i block z
    by_cases heq : a = block
    · -- the block itself is above its ancestor `b`, so the two are one
      subst heq
      have hnumber := (Extends.step known hrest).number_le hy hx
      rw [hnumber.2 (by omega)]
      exact .refl hx
    · exact ih (hac.parent known heq)

theorem Extends.total (hac : tree.Extends a c) (hbc : tree.Extends b c) :
    tree.Extends a b ∨ tree.Extends b a := by
  obtain ⟨x, hx⟩ := hac.base_known
  obtain ⟨y, hy⟩ := hbc.base_known
  rcases Nat.le_total x.number y.number with hle | hle
  · exact .inl (hac.of_number_le hbc hx hy hle)
  · exact .inr (hbc.of_number_le hac hy hx hle)

theorem extends_root (hx : tree.header a = some x) (hroot : tree.header x.parentHash = none)
    (hy : tree.header b = some y) : tree.Extends a b := by
  obtain ⟨n, hn⟩ : ∃ n, y.number = n := ⟨_, rfl⟩
  induction n generalizing b y with
  | zero =>
    cases hp : tree.header y.parentHash with
    | none =>
      rw [tree.root_unique hx hroot hy hp]
      exact .refl hy
    | some p =>
      have hnumber := tree.number_parent hy hp
      omega
  | succ n ih =>
    cases hp : tree.header y.parentHash with
    | none =>
      rw [tree.root_unique hx hroot hy hp]
      exact .refl hy
    | some p =>
      have hnumber := tree.number_parent hy hp
      exact .step hy (ih hp (by omega))

theorem parent_of_ne (hx : tree.header a = some x) (hy : tree.header b = some y)
    (hle : y.number ≤ x.number) (hne : a ≠ b) :
    ∃ p, tree.header x.parentHash = some p ∧ p.number + 1 = x.number := by
  cases hp : tree.header x.parentHash with
  | some p => exact ⟨p, rfl, tree.number_parent hx hp⟩
  | none =>
    have hnumber := (extends_root hx hp hy).number_le hx hy
    exact absurd (hnumber.2 (by omega)) hne

end BlockTree

namespace HeaderTree

variable {H : Type} {tree : HeaderTree H} {a b block : H} {x y : Header H}

theorem parent (tree : HeaderTree H) (hx : tree.header block = some x)
    (hpositive : x.number ≠ 0) :
    ∃ p, tree.header x.parentHash = some p ∧ p.number + 1 = x.number := by
  cases hp : tree.header x.parentHash with
  | none => exact absurd (tree.root_number hx hp) hpositive
  | some p => exact ⟨p, rfl, tree.number_parent hx hp⟩

theorem extends_genesis (hx : tree.header a = some x) (hzero : x.number = 0)
    (hy : tree.header b = some y) : tree.Extends a b := by
  refine BlockTree.extends_root hx ?_ hy
  cases hp : tree.header x.parentHash with
  | none => rfl
  | some p =>
    have hnumber := tree.number_parent hx hp
    omega

section OfHeaders

variable [DecidableEq H]

def Rootless (headers : List (Header H)) (x : Header H) : Prop :=
  ∀ p ∈ headers, p.hash ≠ x.parentHash

instance (headers : List (Header H)) (x : Header H) : Decidable (Rootless headers x) :=
  inferInstanceAs (Decidable (∀ _ ∈ _, _))

theorem rootless_of_find?_eq_none {headers : List (Header H)} {x : Header H}
    (h : headers.find? (fun p => p.hash = x.parentHash) = none) : Rootless headers x := by
  intro p hp
  simpa using List.find?_eq_none.mp h p hp

def ofHeaders (headers : List (Header H))
    (hparents : ∀ x ∈ headers, ∀ p ∈ headers, p.hash = x.parentHash → p.number + 1 = x.number)
    (hroot : ∀ x ∈ headers, ∀ y ∈ headers, Rootless headers x → Rootless headers y →
      x.hash = y.hash)
    (hzero : ∀ x ∈ headers, Rootless headers x → x.number = 0) : HeaderTree H where
  header hash := headers.find? fun x => x.hash = hash
  hash_eq h := by simpa using List.find?_some h
  number_parent {block x p} hx hp :=
    hparents x (List.mem_of_find?_eq_some hx) p (List.mem_of_find?_eq_some hp)
      (by simpa using List.find?_some hp)
  root_unique {a b x y} hx hxroot hy hyroot := by
    have heq := hroot x (List.mem_of_find?_eq_some hx) y (List.mem_of_find?_eq_some hy)
      (rootless_of_find?_eq_none hxroot) (rootless_of_find?_eq_none hyroot)
    have hself : x.hash = a := by simpa using List.find?_some hx
    have hother : y.hash = b := by simpa using List.find?_some hy
    rw [← hself, ← hother, heq]
  root_number hx hroot :=
    hzero _ (List.mem_of_find?_eq_some hx) (rootless_of_find?_eq_none hroot)

end OfHeaders

def binaryHeader (depth : Nat) (block : Option (List Bool)) :
    Option (Header (Option (List Bool))) :=
  block.bind fun path =>
    if path.length ≤ depth then
      some ⟨block, path.length, match path with | [] => none | _ :: rest => some rest⟩
    else none

theorem binaryHeader_eq_some {depth : Nat} {block : Option (List Bool)}
    {x : Header (Option (List Bool))} (h : binaryHeader depth block = some x) :
    x = ⟨some [], 0, none⟩ ∧ block = some [] ∨
      ∃ choice rest, rest.length < depth ∧ block = some (choice :: rest) ∧
        x = ⟨some (choice :: rest), rest.length + 1, some rest⟩ := by
  obtain ⟨path, rfl, h⟩ := Option.bind_eq_some_iff.mp h
  split_ifs at h with hle
  cases path with
  | nil => exact .inl ⟨(Option.some.inj h).symm, rfl⟩
  | cons choice rest => exact .inr ⟨choice, rest, hle, rfl, (Option.some.inj h).symm⟩

theorem binaryHeader_root {depth : Nat} {block : Option (List Bool)}
    {x : Header (Option (List Bool))} (h : binaryHeader depth block = some x)
    (hroot : binaryHeader depth x.parentHash = none) : x.number = 0 ∧ block = some [] := by
  rcases binaryHeader_eq_some h with ⟨rfl, rfl⟩ | ⟨choice, rest, hlt, rfl, rfl⟩
  · exact ⟨rfl, rfl⟩
  · rw [binaryHeader, Option.bind_some, if_pos (Nat.le_of_lt hlt)] at hroot
    cases hroot

def binary (depth : Nat) : HeaderTree (Option (List Bool)) where
  header := binaryHeader depth
  hash_eq h := by
    rcases binaryHeader_eq_some h with ⟨rfl, rfl⟩ | ⟨choice, rest, -, rfl, rfl⟩ <;> rfl
  number_parent h hp := by
    rcases binaryHeader_eq_some h with ⟨rfl, rfl⟩ | ⟨choice, rest, -, rfl, rfl⟩
    · cases hp
    · rcases binaryHeader_eq_some hp with ⟨rfl, heq⟩ | ⟨choice', rest', -, heq, rfl⟩
      · cases heq
        rfl
      · cases heq
        rfl
  root_unique ha hrootA hb hrootB := by
    rw [(binaryHeader_root ha hrootA).2, (binaryHeader_root hb hrootB).2]
  root_number h hroot := (binaryHeader_root h hroot).1

theorem binary_extends {depth : Nat} (more rest : List Bool)
    (hdepth : (more ++ rest).length ≤ depth) :
    (binary depth).Extends (some rest) (some (more ++ rest)) := by
  induction more with
  | nil => exact .refl (if_pos hdepth)
  | cons choice more ih => exact .step (if_pos hdepth) (ih (Nat.le_of_succ_le hdepth))

end HeaderTree

end PolkadotSdk.Blockchain
