import Mathlib
import PolkadotSdk.Epochs.Model
import PolkadotSdk.ForkTree.Prune

/-! # Pruning finalized epochs

A block at or below a finalized one looks its epoch up among its ancestors in the tree. The
prune keeps the new root, whose last epoch has started, and all entries between it and the
block; what the lookup returns is at or below the new root, so it is not affected.
-/

namespace PolkadotSdk.Epochs

open Std ForkTree

variable {H Slot Ep E : Type} [LinearOrder H] [LinearOrder Slot]

structure Answers (builder : IsDescendentOfBuilder H E) (chain : Ancestry H ℕ) : Prop where
  stored : ∀ base hash, builder none base hash = .ok (chain.isDescendentOf base hash)
  current : ∀ current parent base, builder (some (current, parent)) base current =
    .ok (decide (base ≠ current) && (decide (base = parent) || chain.isDescendentOf base parent))

/-! ## Looking an epoch up -/

def atOrAbove (chain : Ancestry H ℕ) (block x : H) : Bool :=
  decide (x = block) || chain.isDescendentOf x block

omit [LinearOrder Slot] in
theorem line_atOrAbove (chain : Ancestry H ℕ) (block : H) :
    Line chain (atOrAbove chain block) (chain.number block + 1) where
  upward {a b} hab hb := by
    simp only [atOrAbove, Bool.or_eq_true, decide_eq_true_eq] at hb ⊢
    rcases hb with rfl | hb
    · exact .inr hab
    · exact .inr (chain.trans hab hb)
  chained {a b} ha hb := by
    simp only [atOrAbove, Bool.or_eq_true, decide_eq_true_eq] at ha hb
    rcases ha with rfl | ha <;> rcases hb with rfl | hb
    · exact .inl rfl
    · exact .inr (.inr hb)
    · exact .inr (.inl ha)
    · exact chain.chain ha hb
  below {a} ha := by
    simp only [atOrAbove, Bool.or_eq_true, decide_eq_true_eq] at ha
    rcases ha with rfl | ha
    · exact Nat.lt_succ_self _
    · exact (chain.number_lt ha).trans (Nat.lt_succ_self _)

namespace EpochChanges

/-- Of the entries of the block and its ancestors that have started, the one below all others. -/
structure Deepest (chain : Ancestry H ℕ) (block : H) (slot : Slot)
    (entries : List (H × ℕ × PersistedEpochHeader Slot))
    (entry : H × ℕ × PersistedEpochHeader Slot) : Prop where
  mem : entry ∈ entries
  line : atOrAbove chain block entry.1 = true
  started : firstStarted slot entry.2.2 = true
  last : ∀ other ∈ entries, atOrAbove chain block other.1 = true →
    firstStarted slot other.2.2 = true →
    other.1 = entry.1 ∨ chain.isDescendentOf other.1 entry.1 = true

theorem Deepest.hash_eq {chain : Ancestry H ℕ} {block : H} {slot : Slot}
    {entries entries' : List (H × ℕ × PersistedEpochHeader Slot)}
    {entry entry' : H × ℕ × PersistedEpochHeader Slot}
    (h : Deepest chain block slot entries entry) (h' : Deepest chain block slot entries' entry')
    (hsub : entries' ⊆ entries) (hmem : entry ∈ entries') : entry'.1 = entry.1 := by
  rcases h.last entry' (hsub h'.mem) h'.line h'.started with heq | hbelow
  · exact heq
  · rcases h'.last entry hmem h.line h.started with heq | habove
    · exact heq.symm
    · simp [chain.asymm hbelow] at habove

omit [LinearOrder H] in
theorem describe_eq_of_item {slot : Slot} {a b : Node H ℕ (PersistedEpochHeader Slot)}
    (h : item a = item b) : describe slot a = describe slot b := by
  simp only [item, Prod.mk.injEq] at h
  unfold describe
  rw [h.1, h.2.1, h.2.2]

section Lookup

variable [HashBytes H] {chain : Ancestry H ℕ} {builder : IsDescendentOfBuilder H E}
  {changes : EpochChanges H Slot Ep} {block : H}

theorem epochDescriptorForChildOf_spec (slot : Slot) (hbuilder : Answers builder chain)
    (hshaped : Shaped chain changes.inner.roots) (hgenesis : chain.number block ≠ 0)
    (hfresh : ∀ x ∈ nodesOf changes.inner.roots, x.hash ≠ fakeHeadHash block) :
    ∃ found, changes.epochDescriptorForChildOf builder block (chain.number block) slot =
        some (.ok (found.map (describe slot))) ∧
      (found = none → ∀ x ∈ nodesOf changes.inner.roots, atOrAbove chain block x.hash = true →
        firstStarted slot x.data = false) ∧
      ∀ node, found = some node →
        Deepest chain block slot (items changes.inner.roots) (item node) := by
  let asked : H → Bool := fun x => decide (x ≠ fakeHeadHash block) && atOrAbove chain block x
  have hasked : ∀ x ∈ nodesOf changes.inner.roots,
      atOrAbove chain block x.hash = asked x.hash := by
    intro x hx
    simp [asked, hfresh x hx]
  have hlineal : Lineal asked (chain.number block + 1) changes.inner.roots :=
    (hshaped.lineal (line_atOrAbove chain block)).congr hasked
  have hanswer : ∀ x, builder (some (fakeHeadHash block, block)) x (fakeHeadHash block) =
      .ok (asked x) := fun x => hbuilder.current _ _ x
  obtain ⟨found, hfind, hnone, hsome⟩ :=
    findNodeWhere_spec (firstStarted slot) hanswer hlineal
  refine ⟨found, ?_, ?_, ?_⟩
  · simp [epochDescriptorForChildOf, if_neg hgenesis, hfind, Outcome.bind]
  · intro h x hx hline
    exact hnone h x hx (hasked x hx ▸ hline)
  · intro node hnode
    obtain ⟨hmem, hline, hstarted, hdeeper⟩ := hsome node hnode
    have hline : atOrAbove chain block node.hash = true := hasked node hmem ▸ hline
    refine ⟨List.mem_map_of_mem hmem, hline, hstarted, ?_⟩
    intro other hother hotherLine hotherStarted
    obtain ⟨x, hx, rfl⟩ := List.mem_map.mp hother
    rcases (line_atOrAbove chain block).chained hotherLine hline with heq | habove | hbelow
    · exact .inl heq
    · exact .inr habove
    · have hx' := hdeeper x (hshaped.mem_children hmem hx hbelow) (hasked x hx ▸ hotherLine)
      simp [item, hx'] at hotherStarted

end Lookup

/-! ## Pruning -/

section Prune

variable {chain : Ancestry H ℕ} {builder : IsDescendentOfBuilder H E}
  {changes changes' : EpochChanges H Slot Ep} {hash : H} {slot : Slot}

def firstStart : PersistedEpochHeader Slot → Slot
  | .genesis epoch0 _ => epoch0.startSlot
  | .regular epochN => epochN.startSlot

def lastStart : PersistedEpochHeader Slot → Slot
  | .genesis _ epoch1 => epoch1.startSlot
  | .regular epochN => epochN.startSlot

/-- Along every branch the start slots of the epochs do not decrease. -/
structure SlotsOrdered (roots : List (Node H ℕ (PersistedEpochHeader Slot))) : Prop where
  entry : ∀ node ∈ nodesOf roots, firstStart node.data ≤ lastStart node.data
  branch : ∀ a b, Above roots a b → lastStart a.data ≤ firstStart b.data

omit [LinearOrder H] in
theorem SlotsOrdered.firstStarted {roots : List (Node H ℕ (PersistedEpochHeader Slot))}
    (h : SlotsOrdered roots) {node : Node H ℕ (PersistedEpochHeader Slot)}
    (hnode : node ∈ nodesOf roots) {s t : Slot} (hst : s ≤ t)
    (hlast : lastStarted s node.data = true) : firstStarted t node.data = true := by
  have hentry := h.entry node hnode
  cases hdata : node.data with
  | genesis epoch0 epoch1 =>
    simp only [hdata, lastStarted, decide_eq_true_eq] at hlast
    simp only [hdata, firstStart, lastStart] at hentry
    simpa [EpochChanges.firstStarted] using hentry.trans (hlast.trans hst)
  | regular epochN =>
    simp only [hdata, lastStarted, decide_eq_true_eq] at hlast
    simpa [EpochChanges.firstStarted] using hlast.trans hst

/-- What a prune leaves: the entries of the tree apart from those handed out, and the epochs
of the entries that stay. -/
theorem pruneFinalized_spec (hbuilder : Answers builder chain)
    (hshaped : Shaped chain changes.inner.roots)
    (hprune : changes.pruneFinalized builder hash (chain.number hash) slot =
      some (.ok changes')) :
    Shaped chain changes'.inner.roots ∧
      items changes'.inner.roots ⊆ items changes.inner.roots ∧
      (∀ entry ∈ items changes'.inner.roots,
        changes'.epochs[toLex (entry.1, entry.2.1)]? =
          changes.epochs[toLex (entry.1, entry.2.1)]?) ∧
      (changes' = changes ∨
        ∃ root ∈ nodesOf changes.inner.roots, chain.isDescendentOf root.hash hash = true ∧
          lastStarted slot root.data = true ∧
          ∀ x ∈ nodesOf changes.inner.roots,
            x.hash = root.hash ∨ chain.isDescendentOf root.hash x.hash = true →
            chain.Comparable x.hash hash → item x ∈ items changes'.inner.roots) := by
  have hanswer : builder none = chain.answer E := by
    funext base block
    exact hbuilder.stored base block
  obtain ⟨⟨inner, removed⟩, hinner, h⟩ := Outcome.bind_eq_ok hprune
  cases h
  rw [hanswer] at hinner
  obtain ⟨hperm, hkept⟩ := prune_spec hshaped hinner
  have hnodup : ((items inner.roots ++ removed).map Prod.fst).Nodup := by
    refine (hperm.map Prod.fst).nodup_iff.mp ?_
    simpa [items, item, Function.comp_def] using hshaped.nodup
  rw [List.map_append, List.nodup_append] at hnodup
  refine ⟨prune_shaped hshaped hinner, ?_, ?_, ?_⟩
  · exact fun entry hentry => hperm.mem_iff.mpr (List.mem_append_left _ hentry)
  · intro entry hentry
    rw [OrderedMap.getElem?_eraseAll, if_neg]
    intro hmem
    obtain ⟨⟨hash', number', data'⟩, hremoved, hkey⟩ := List.mem_map.mp hmem
    obtain ⟨hsame, -⟩ := Prod.mk.inj (toLex_inj.mp hkey)
    exact hnodup.2.2 _ (List.mem_map_of_mem hentry) _ (List.mem_map_of_mem hremoved) hsame.symm
  · rcases hkept with ⟨rfl, rfl⟩ | hroot
    · exact .inl rfl
    · exact .inr hroot

theorem viableEpoch_describe {node : Node H ℕ (PersistedEpochHeader Slot)} {t : Slot}
    (h : changes'.epochs[toLex (node.hash, node.number)]? =
      changes.epochs[toLex (node.hash, node.number)]?) (makeGenesis : Slot → Ep) :
    changes'.viableEpoch (describe t node) makeGenesis =
      changes.viableEpoch (describe t node) makeGenesis := by
  simp [viableEpoch, describe, epoch, h]

/-- After the epochs are pruned for a finalized block, a child of it or of a block below it is still
under the same epoch. The hash made up for that child is no hash of the tree. -/
theorem pruneFinalized_preserves [HashBytes H] (hbuilder : Answers builder chain)
    (hshape : HasShape chain changes.inner.roots) (hslots : SlotsOrdered changes.inner.roots)
    (hprune : changes.pruneFinalized builder hash (chain.number hash) slot = some (.ok changes'))
    {parent : H} (hparent : parent = hash ∨ chain.isDescendentOf hash parent = true)
    (hgenesis : chain.number parent ≠ 0)
    (hfresh : ∀ x ∈ nodesOf changes.inner.roots, x.hash ≠ fakeHeadHash parent)
    {t : Slot} (ht : slot ≤ t) :
    ∃ descriptor,
      changes.epochDescriptorForChildOf builder parent (chain.number parent) t =
        some (.ok descriptor) ∧
      changes'.epochDescriptorForChildOf builder parent (chain.number parent) t =
        some (.ok descriptor) ∧
      ∀ d ∈ descriptor, ∀ makeGenesis,
        changes'.viableEpoch d makeGenesis = changes.viableEpoch d makeGenesis := by
  have hshaped := hshape.shaped
  obtain ⟨hshaped', hsub, hepochs, hkept⟩ := pruneFinalized_spec hbuilder hshaped hprune
  obtain ⟨found, hlookup, hnone, hdeepest⟩ :=
    epochDescriptorForChildOf_spec t hbuilder hshaped hgenesis hfresh
  have hfresh' : ∀ x ∈ nodesOf changes'.inner.roots, x.hash ≠ fakeHeadHash parent := by
    intro x hx
    obtain ⟨y, hy, hyx⟩ := List.mem_map.mp (hsub (List.mem_map_of_mem hx))
    rw [← show y.hash = x.hash from congrArg Prod.fst hyx]
    exact hfresh y hy
  obtain ⟨found', hlookup', hnone', hdeepest'⟩ :=
    epochDescriptorForChildOf_spec t hbuilder hshaped' hgenesis hfresh'
  rcases hkept with rfl | ⟨root, hroot, hdesc, hlast, hstay⟩
  · exact ⟨_, hlookup, hlookup, fun _ _ _ => rfl⟩
  · have hline := line_atOrAbove chain parent
    have hhash : atOrAbove chain parent hash = true := by
      rcases hparent with rfl | hparent <;> simp [atOrAbove, *]
    have hrootLine := hline.upward hdesc hhash
    have hrootStarted := hslots.firstStarted hroot ht hlast
    -- The lookup finds an entry at or below the new root.
    obtain ⟨node, rfl⟩ : ∃ node, found = some node := by
      refine Option.ne_none_iff_exists'.mp fun h => ?_
      simp [hnone h root hroot hrootLine] at hrootStarted
    have hnode := hdeepest node rfl
    obtain ⟨x, hx, hxnode⟩ := List.mem_map.mp hnode.mem
    have hxhash : x.hash = node.hash := congrArg Prod.fst hxnode
    have hbelow : x.hash = root.hash ∨ chain.isDescendentOf root.hash x.hash = true := by
      rw [hxhash]
      exact (hnode.last (item root) (List.mem_map_of_mem hroot) hrootLine hrootStarted).imp_left
        Eq.symm
    have hcomparable : chain.Comparable x.hash hash := by
      rw [hxhash]
      rcases hline.chained hnode.line hhash with heq | h | h
      · exact .inr (.inl heq)
      · exact .inl h
      · exact .inr (.inr h)
    have hstays : item node ∈ items changes'.inner.roots := hxnode ▸ hstay x hx hbelow hcomparable
    -- So the pruned tree has the entry, and the lookup there finds the same one.
    obtain ⟨node', rfl⟩ : ∃ node', found' = some node' := by
      refine Option.ne_none_iff_exists'.mp fun h => ?_
      obtain ⟨y, hy, hynode⟩ := List.mem_map.mp hstays
      have hyhash : y.hash = node.hash := congrArg Prod.fst hynode
      have hydata : y.data = node.data := congrArg (fun entry => entry.2.2) hynode
      have hfalse := hnone' h y hy (hyhash ▸ hnode.line)
      have hstarted : firstStarted t node.data = true := hnode.started
      simp [hydata, hstarted] at hfalse
    have hnode' := hdeepest' node' rfl
    have hsame : item node' = item node := by
      obtain ⟨y, hy, hynode⟩ := List.mem_map.mp (hsub hnode'.mem)
      have hyhash : y.hash = node'.hash := congrArg Prod.fst hynode
      have hhashes : node'.hash = node.hash := hnode.hash_eq hnode' hsub hstays
      rw [← hynode, ← hxnode, hshaped.eq_of_hash hy hx (by rw [hyhash, hhashes, hxhash])]
    refine ⟨some (describe t node), hlookup, ?_, ?_⟩
    · rw [hlookup', Option.map_some, describe_eq_of_item hsame]
    · rintro _ ⟨⟩ makeGenesis
      exact viableEpoch_describe (hepochs (item node) hstays) makeGenesis

end Prune

def chainBuilder (chain : Ancestry H ℕ) : IsDescendentOfBuilder H Unit :=
  fun current base hash =>
    match current with
    | none => .ok (chain.isDescendentOf base hash)
    | some (_, parent) =>
      .ok (decide (base ≠ hash) && (decide (base = parent) || chain.isDescendentOf base parent))

def forkedChanges : EpochChanges (List ℕ) ℕ ℕ where
  inner := ⟨[⟨[1], 1, .genesis ⟨1, 11⟩ ⟨11, 21⟩,
    [⟨[1, 2], 2, .regular ⟨21, 31⟩, [⟨[1, 2, 4], 3, .regular ⟨31, 41⟩, []⟩]⟩,
      ⟨[1, 3], 2, .regular ⟨21, 31⟩, []⟩]⟩], none⟩
  epochs := (((ExtTreeMap.empty.insert (toLex ([1], 1)) (.genesis 0 1)).insert
    (toLex ([1, 2], 2)) (.regular 2)).insert (toLex ([1, 3], 2)) (.regular 3)).insert
    (toLex ([1, 2, 4], 3)) (.regular 4)

/-- The finalized block is next to the last entry, which is pruned with the other branch. -/
theorem pruneFinalized_preserves_forked :
    ∃ changes', forkedChanges.pruneFinalized (chainBuilder (pathAncestry ℕ)) [1, 2, 5] 3 22 =
        some (.ok changes') ∧
      ∃ descriptor,
        forkedChanges.epochDescriptorForChildOf (chainBuilder (pathAncestry ℕ)) [1, 2, 5, 6] 4 25 =
          some (.ok descriptor) ∧
        changes'.epochDescriptorForChildOf (chainBuilder (pathAncestry ℕ)) [1, 2, 5, 6] 4 25 =
          some (.ok descriptor) ∧
        ∀ d ∈ descriptor, ∀ makeGenesis,
          changes'.viableEpoch d makeGenesis = forkedChanges.viableEpoch d makeGenesis := by
  have hbuilder : Answers (chainBuilder (pathAncestry ℕ)) (pathAncestry ℕ) :=
    ⟨fun _ _ => rfl, fun _ _ _ => rfl⟩
  have hleaf : ∀ (n : Node (List ℕ) ℕ (PersistedEpochHeader ℕ)), Separate (pathAncestry ℕ) [n] [] :=
    fun _ _ _ _ hy => absurd hy (by simp)
  have hshaped : Shaped (pathAncestry ℕ) forkedChanges.inner.roots := by
    refine .cons rfl ?_ (.cons rfl ?_ (.cons rfl ?_ .nil (hleaf _) .nil) ?_
      (.cons rfl ?_ .nil (hleaf _) .nil)) (hleaf _) .nil
    · decide
    · decide
    · decide
    · unfold Separate Ancestry.Apart
      decide
    · decide
  have hbelow : ∀ a ∈ nodesOf forkedChanges.inner.roots, ∀ b ∈ nodesOf a.children,
      lastStart a.data ≤ firstStart b.data := by decide
  have hslots : SlotsOrdered forkedChanges.inner.roots :=
    ⟨by decide, fun a b hab => hbelow a (above_iff.mp hab).1 b (above_iff.mp hab).2⟩
  obtain ⟨changes', hprune⟩ : ∃ changes', forkedChanges.pruneFinalized
      (chainBuilder (pathAncestry ℕ)) [1, 2, 5] 3 22 = some (.ok changes') := ⟨_, rfl⟩
  exact ⟨changes', hprune, pruneFinalized_preserves hbuilder hshaped.hasShape hslots hprune
    (.inr (by decide)) (by decide) (by decide) (by decide)⟩

end EpochChanges

end PolkadotSdk.Epochs
