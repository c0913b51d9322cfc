import PolkadotSdk.StateDb.NonCanonical.Model

/-! # The window of blocks that are not canonical

A call of `insert` that fails leaves the overlay as it was, and so does a call of `canonicalize`
unless there is a front level without the block.
-/

namespace PolkadotSdk.StateDb.NonCanonicalOverlay

open Std

variable {H K : Type} [LinearOrder H] [LinearOrder K]
variable {s t : NonCanonicalOverlay H K}

variable {hash parentHash : H} {number : Nat} {changeset : ChangeSet K DBValue} {e : StateDbError}

theorem insertInto_error {metaInserted : List (MetaKey × MetaRecord H K)}
    {levels : List (OverlayLevel H K)} {position : Nat} {level : OverlayLevel H K}
    (h : s.insertInto hash number parentHash changeset metaInserted levels position level =
      (.error e, t)) : t = { s with levels } ∧ level.blocks ≠ [] := by
  unfold insertInto at h
  split at h
  · next hfull =>
      cases h
      refine ⟨rfl, fun hnil => ?_⟩
      simp [hnil, maxBlocksPerLevel] at hfull
  · split at h
    · next hexists =>
        cases h
        refine ⟨rfl, fun hnil => ?_⟩
        simp [hnil] at hexists
    · cases h

theorem levelFor_cases {position : Nat} {levels : List (OverlayLevel H K)}
    {level : OverlayLevel H K} (h : s.levelFor number = some (levels, position, level)) :
    levels = s.levels ∨ level.blocks = [] := by
  simp only [levelFor] at h
  split at h
  · cases h
    exact .inr rfl
  · split at h
    · cases h
    · obtain ⟨found, -, heq⟩ := Option.map_eq_some_iff.mp h
      cases heq
      exact .inl rfl

theorem insert_error (h : s.insert hash number parentHash changeset = some (.error e, t)) :
    t = s := by
  unfold insert at h
  split at h
  · exact absurd rfl (insertInto_error (Option.some.inj h)).2
  · cases hcheck : s.checkInsert number parentHash with
    | error e =>
      rw [hcheck] at h
      cases h
      rfl
    | ok _ =>
      rw [hcheck] at h
      obtain ⟨⟨levels, position, level⟩, hlevel, h⟩ := Option.map_eq_some_iff.mp h
      obtain ⟨ht, hblocks⟩ := insertInto_error h
      rw [(levelFor_cases hlevel).resolve_right hblocks] at ht
      exact ht

/-- A failed insertion leaves the overlay as it was. A failed call to make a block canonical does
so exactly where there is no level, as the front level is lost if it does not have the block. -/
theorem failed_unchanged (s : NonCanonicalOverlay H K) (e : StateDbError) :
    (∀ hash number parentHash changeset t,
      s.insert hash number parentHash changeset = some (.error e, t) → t = s) ∧
    ∀ hash commit t commit', s.canonicalize hash commit = some (.error e, t, commit') →
      (t = s ∧ commit' = commit ↔
        ∀ level ∈ s.levels.head?, ∃ overlay ∈ level.blocks, overlay.hash = hash) := by
  refine ⟨fun hash number parentHash changeset t => insert_error, fun hash commit t commit' h => ?_⟩
  unfold canonicalize at h
  split at h
  · next hlevels =>
      cases h
      simp [hlevels]
  · next level levels hlevels =>
      split at h
      · next hmissing =>
          cases h
          refine iff_of_false (fun hsame => ?_) fun hfront => ?_
          · have hlost : levels = level :: levels := (congrArg (·.levels) hsame.1).trans hlevels
            simpa using congrArg List.length hlost
          · obtain ⟨overlay, hmem, hhash⟩ := hfront level (by simp [hlevels])
            have hother := List.findIdx?_eq_none_iff.mp hmissing overlay hmem
            simp [hhash] at hother
      · obtain ⟨_, -, h⟩ := Option.bind_eq_some_iff.mp h
        cases h

def oneBlock : NonCanonicalOverlay Nat Nat :=
  ((empty.insert 11 1 10 ⟨[(1, [])], []⟩).map (·.2)).getD empty

theorem failed_unchanged_twice :
    (∃ t, oneBlock.insert 11 1 10 ⟨[(1, [])], []⟩ = some (.error .blockAlreadyExists, t) ∧
      t = oneBlock) ∧
    ∃ t commit, (empty : NonCanonicalOverlay Nat Nat).canonicalize 11 .empty =
        some (.error .invalidBlock, t, commit) ∧ t = empty ∧ commit = .empty := by
  have hagain : (oneBlock.insert 11 1 10 ⟨[(1, [])], []⟩).any
      (fun r => decide (r.1 = .error .blockAlreadyExists)) = true := by decide +kernel
  obtain ⟨⟨result, t⟩, hinsert, hresult⟩ := (Option.any_eq_true _ _).mp hagain
  obtain rfl : result = .error .blockAlreadyExists := by simpa using hresult
  refine ⟨⟨t, hinsert, (failed_unchanged _ _).1 _ _ _ _ _ hinsert⟩, _, _, rfl, ?_⟩
  exact ((failed_unchanged (empty : NonCanonicalOverlay Nat Nat) .invalidBlock).2 11 .empty _ _
    rfl).mpr (by simp [empty])

/-- The front level is lost when the block to make canonical is not in it. -/
theorem canonicalize_drops_level :
    ∃ t, oneBlock.canonicalize 12 .empty = some (.error .invalidBlock, t, .empty) ∧
      oneBlock.levels ≠ [] ∧ t.levels = [] ∧ t.parents = oneBlock.parents :=
  ⟨{ oneBlock with levels := [] }, rfl, List.cons_ne_nil _ _, rfl, rfl⟩

end PolkadotSdk.StateDb.NonCanonicalOverlay
