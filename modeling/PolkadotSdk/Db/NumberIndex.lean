import PolkadotSdk.Db.Backend
import PolkadotSdk.Lib.Run
import PolkadotSdk.Service.Finality

/-! # The number index follows the best chain

The numbers up to that of the best block are mapped to the blocks of its branch, and no other
number is mapped. A new head retracts the blocks down to the common ancestor one by one and
enacts those up to it one by one; each of these steps moves the index from a block to its parent
or back. An operation that imports a new best block and sets a head as well takes two routes from
the old head and so leaves the mapping of the new block behind. The client makes such operations.
-/

namespace PolkadotSdk.Db

open Blockchain Std

variable {H : Type}

/-- The numbers of the branch of the block are mapped to its blocks, and no others are mapped. -/
def Indexes (tree : BlockTree H) (keyLookup : KeyLookup H) (block : H) : Prop :=
  ∀ number lookupKey, keyLookup[number]? = some lookupKey ↔
    lookupKey.1 = number ∧ tree.Extends lookupKey.2 block ∧ HasNumber tree lookupKey.2 number

/-! ## Steps along a branch -/

section Steps

variable {tree : BlockTree H} {keyLookup : KeyLookup H} {a b block : H} {x : Header H}

theorem extends_iff_parent (hx : tree.header block = some x) :
    tree.Extends a block ↔ a = block ∨ tree.Extends a x.parentHash := by
  refine ⟨fun h => ?_, ?_⟩
  · by_cases heq : a = block
    · exact .inl heq
    · exact .inr (h.parent hx heq)
  · rintro (rfl | h)
    · exact .refl hx
    · exact .step hx h

theorem hasNumber_iff (hx : tree.header block = some x) {number : Nat} :
    HasNumber tree block number ↔ number = x.number := by
  constructor
  · rintro ⟨y, hy, hnumber⟩
    rw [hx] at hy
    cases hy
    exact hnumber.symm
  · rintro rfl
    exact ⟨x, hx, rfl⟩

theorem number_lt_of_extends_parent (hx : tree.header block = some x)
    (h : tree.Extends a x.parentHash) {number : Nat} (hnumber : HasNumber tree a number) :
    number < x.number := by
  obtain ⟨y, hy, rfl⟩ := hnumber
  obtain ⟨p, hp⟩ := h.known
  have hle := (h.number_le hy hp).1
  have hparent := tree.number_parent hx hp
  omega

theorem Indexes.remove (h : Indexes tree keyLookup block) (hx : tree.header block = some x) :
    Indexes tree (keyLookup.erase x.number) x.parentHash := by
  intro number lookupKey
  by_cases heq : x.number = number
  · subst heq
    simp only [ExtTreeMap.getElem?_erase_self]
    refine ⟨nofun, fun ⟨_, hextends, hnumber⟩ => ?_⟩
    exact absurd (number_lt_of_extends_parent hx hextends hnumber) (Nat.lt_irrefl _)
  · rw [ExtTreeMap.getElem?_erase, if_neg (by simpa using heq), h number lookupKey,
      extends_iff_parent hx]
    refine and_congr_right fun _ => and_congr_left fun hnumber => ?_
    refine or_iff_right fun hself => heq ?_
    rw [hself, hasNumber_iff hx] at hnumber
    exact hnumber.symm

theorem Indexes.insert (h : Indexes tree keyLookup x.parentHash)
    (hx : tree.header block = some x) :
    Indexes tree (ExtTreeMap.insert keyLookup x.number (x.number, block)) block := by
  intro number lookupKey
  by_cases heq : x.number = number
  · subst heq
    simp only [ExtTreeMap.getElem?_insert_self, Option.some.injEq]
    rw [extends_iff_parent hx]
    constructor
    · rintro rfl
      exact ⟨rfl, .inl rfl, x, hx, rfl⟩
    · rintro ⟨hkey, hself | hextends, hnumber⟩
      · rw [← hkey, ← hself]
      · exact absurd (number_lt_of_extends_parent hx hextends hnumber) (Nat.lt_irrefl _)
  · rw [ExtTreeMap.getElem?_insert, if_neg (by simpa using heq), h number lookupKey,
      extends_iff_parent hx]
    refine and_congr_right fun _ => and_congr_left fun hnumber => ?_
    refine (or_iff_right fun hself => heq ?_).symm
    rw [hself, hasNumber_iff hx] at hnumber
    exact hnumber.symm

theorem Indexes.insert_self (h : Indexes tree keyLookup block) (hx : tree.header block = some x) :
    Indexes tree (ExtTreeMap.insert keyLookup x.number (x.number, block)) block := by
  have hmapped := (h x.number (x.number, block)).mpr ⟨rfl, .refl hx, x, hx, rfl⟩
  intro number lookupKey
  by_cases heq : x.number = number
  · subst heq
    rw [ExtTreeMap.getElem?_insert_self, ← hmapped]
    exact h _ _
  · rw [ExtTreeMap.getElem?_insert, if_neg (by simpa using heq)]
    exact h _ _

theorem commit_append (keyLookup : KeyLookup H) (changes more : List (KeyChange H)) :
    commit keyLookup (changes ++ more) = commit (commit keyLookup changes) more :=
  List.foldl_append

theorem Indexes.retract {blocks : List (H × Nat)} (hdescent : Descent tree a b blocks)
    (h : Indexes tree keyLookup a) :
    Indexes tree (commit keyLookup (blocks.map fun block => .remove block.2)) b := by
  induction hdescent generalizing keyLookup with
  | nil block => exact h
  | cons known _ ih => exact ih (h.remove known)

theorem Indexes.enact {blocks : List (H × Nat)} (hdescent : Descent tree a b blocks)
    (h : Indexes tree keyLookup b) :
    Indexes tree (commit keyLookup
      (blocks.reverse.map fun block => .insert block.2 (block.2, block.1))) a := by
  induction hdescent with
  | nil block => exact h
  | cons known _ ih =>
    rw [List.reverse_cons, List.map_append, commit_append]
    exact (ih h).insert known

theorem Indexes.grow {grown : BlockTree H} (h : Indexes tree keyLookup block)
    (hx : tree.header block = some x) (hgrows : Grows tree grown) :
    Indexes grown keyLookup block := by
  intro number lookupKey
  rw [h number lookupKey, hgrows.extends_iff hx]
  refine and_congr_right fun _ => and_congr_right fun hextends => ?_
  obtain ⟨y, hy⟩ := hextends.base_known
  exact (hgrows.hasNumber_iff hy).symm

end Steps

/-! ## Lookup keys -/

section Keys

variable {number : Nat} {hash : H} {change : KeyChange H}

theorem numberIndexKey_eq_ok {key : Nat}
    (h : (numberIndexKey number : Except (CommitError H) Nat) = .ok key) : key = number := by
  unfold numberIndexKey at h
  split_ifs at h
  exact (Except.ok.inj h).symm

theorem insertNumberToKeyMapping_eq_ok (h : insertNumberToKeyMapping number hash = .ok change) :
    change = .insert number (number, hash) := by
  obtain ⟨key, hkey, h⟩ := except_bind_eq_ok h
  obtain ⟨lookupKey, hlookupKey, h⟩ := except_bind_eq_ok h
  obtain ⟨index, hindex, hlookupKey⟩ := except_bind_eq_ok hlookupKey
  cases hlookupKey
  cases h
  rw [numberIndexKey_eq_ok hkey, numberIndexKey_eq_ok hindex]

theorem removeNumberToKeyMapping_eq_ok
    (h : (removeNumberToKeyMapping number : Except (CommitError H) _) = .ok change) :
    change = .remove number := by
  obtain ⟨key, hkey, h⟩ := except_bind_eq_ok h
  cases h
  rw [numberIndexKey_eq_ok hkey]

end Keys

/-! ## Heads -/

section Heads

variable [DecidableEq H] [Inhabited H] {db : Backend H} {cache : HeaderMetadataCache H}

omit [Inhabited H] in
theorem Indexes.follow {tree : BlockTree H} {keyLookup : KeyLookup H} {a b finalizedHash : H}
    {route : TreeRoute H} {changes : List (KeyChange H)} (h : Indexes tree keyLookup a)
    (hroute : IsRoute tree a b route) (hchanges : routeChanges finalizedHash route = .ok changes) :
    Indexes tree (commit keyLookup changes) b := by
  obtain ⟨retracted, hretracted, hchanges⟩ := except_bind_eq_ok hchanges
  obtain ⟨enacted, henacted, hchanges⟩ := except_bind_eq_ok hchanges
  cases hchanges
  rw [mapM_eq_ok (fun {block change} hchange => ?_) hretracted,
    mapM_eq_ok (fun {block change} hchange => insertNumberToKeyMapping_eq_ok hchange) henacted,
    commit_append]
  · have hdown := h.retract hroute.retracted
    simpa using hdown.enact hroute.enacted
  · unfold uncanonicalize at hchange
    split_ifs at hchange
    exact removeNumberToKeyMapping_eq_ok hchange

structure Indexed (db : Backend H) : Prop where
  best : HasNumber db.headers.tree db.info.bestHash db.info.bestNumber
  index : Indexes db.headers.tree db.keyLookup db.info.bestHash
  sound : Sound db.headers.tree db.cache

def Yields {α : Type} (db : Backend H) (program : Commit H α) (cache : HeaderMetadataCache H)
    (Q : α → Prop) : Prop :=
  Program.Ends program cache (fun a t => Q a ∧ Sound db.headers.tree t)
    fun _ t => Sound db.headers.tree t

variable {α β : Type} {Q : α → Prop} {program : Commit H α}

theorem Yields.pure (hsound : Sound db.headers.tree cache) {a : α} (h : Q a) :
    Yields db (pure a) cache Q := ⟨h, hsound⟩

theorem Yields.ofExcept (hsound : Sound db.headers.tree cache) {result : Except (CommitError H) α}
    (h : ∀ a, result = .ok a → Q a) : Yields db (Program.ofExcept result) cache Q :=
  Program.Ends.ofExcept (fun a ha => ⟨h a ha, hsound⟩) fun _ _ => hsound

theorem Yields.bind {rest : α → Commit H β} {R : β → Prop} (h : Yields db program cache Q)
    (hrest : ∀ a t, Q a → Sound db.headers.tree t → Yields db (rest a) t R) :
    Yields db (program >>= rest) cache R :=
  Program.Ends.bind h (fun _ _ ht => ht) fun a t ha => hrest a t ha.1 ha.2

theorem changesAlong_ends (h : Indexed db) (hsound : Sound db.headers.tree cache)
    {routeTo : H} {x : Header H} (hx : db.headers.tree.header routeTo = some x) :
    Yields db (changesAlong db routeTo) cache fun changes =>
      Indexes db.headers.tree (commit db.keyLookup changes) routeTo := by
  obtain ⟨best, hbest, -⟩ := h.best
  have hknown : (db.headers.header routeTo).isSome := by
    rw [Headers.header, hx]
    rfl
  rw [changesAlong, if_pos ⟨Headers.ne_default hbest, hknown⟩]
  exact .bind (treeRoute_returns hsound hbest hx).mapError.ends fun route t hroute ht =>
    .ofExcept ht fun changes hchanges => h.index.follow hroute hchanges

theorem setHeadWithTransaction_ends {Q : List (KeyChange H) → Prop} {routeTo bestHash : H}
    {bestNumber : Nat}
    (halong : Yields db (changesAlong db routeTo) cache Q)
    (hsound : Sound db.headers.tree cache) :
    Yields db (setHeadWithTransaction db routeTo bestNumber bestHash) cache fun changes =>
      ∃ along, Q along ∧ changes = along ++ [.insert bestNumber (bestNumber, bestHash)] := by
  unfold setHeadWithTransaction
  split_ifs
  · exact Program.Ends.throw hsound
  · refine .bind halong fun along t hq ht => .bind (.ofExcept ht fun change hchange =>
      insertNumberToKeyMapping_eq_ok hchange) fun change t hchange ht => ?_
    subst hchange
    exact .pure ht ⟨along, hq, rfl⟩

end Heads

/-! ## Operations -/

section Operations

variable [DecidableEq H] [Inhabited H] {db : Backend H} {cache : HeaderMetadataCache H}
  {operation : BlockImportOperation H} {pending : PendingBlock H}

omit [DecidableEq H] [Inhabited H] in
theorem update_best (info : Meta H) (update : MetaUpdate H) :
    ((info.update update).bestHash, (info.update update).bestNumber) =
      if update.isBest then (update.hash, update.number) else (info.bestHash, info.bestNumber) := by
  unfold Meta.update
  split_ifs <;> rfl

omit [DecidableEq H] [Inhabited H] in
theorem foldl_update_best {updates : List (MetaUpdate H)}
    (h : ∀ update ∈ updates, update.isBest = false) (info : Meta H) :
    ((updates.foldl Meta.update info).bestHash, (updates.foldl Meta.update info).bestNumber) =
      (info.bestHash, info.bestNumber) := by
  induction updates generalizing info with
  | nil => rfl
  | cons update updates ih =>
    rw [List.foldl_cons, ih (fun other hother => h other (List.mem_cons_of_mem _ hother)),
      update_best, if_neg (by simp [h update List.mem_cons_self])]

omit [DecidableEq H] [Inhabited H] in
theorem foldl_update_concat_best {updates : List (MetaUpdate H)}
    (h : ∀ update ∈ updates, update.isBest = false) (info : Meta H) (last : MetaUpdate H) :
    (((updates ++ [last]).foldl Meta.update info).bestHash,
      ((updates ++ [last]).foldl Meta.update info).bestNumber) =
      if last.isBest then (last.hash, last.number) else (info.bestHash, info.bestNumber) := by
  rw [List.foldl_append, List.foldl_cons, List.foldl_nil, update_best, foldl_update_best h]

variable {done : Finalization H}

theorem finalizeBlocks_updates (h : finalizeBlocks db operation = .ok done) :
    ∀ update ∈ done.updates, update.isBest = false := by
  have hfold : ∀ (blocks : List H) (start : Finalization H),
      (∀ update ∈ start.updates, update.isBest = false) →
      blocks.foldlM (finalizeBlock db) start = .ok done →
      ∀ update ∈ done.updates, update.isBest = false := by
    intro blocks
    induction blocks with
    | nil =>
      intro start hstart hrun
      cases hrun
      exact hstart
    | cons block blocks ih =>
      intro start hstart hrun
      rw [List.foldlM_cons] at hrun
      obtain ⟨next, hnext, hrun⟩ := except_bind_eq_ok hrun
      refine ih next ?_ hrun
      unfold finalizeBlock at hnext
      split at hnext
      · cases hnext
      · obtain ⟨-, -, hnext⟩ := except_bind_eq_ok hnext
        cases hnext
        simpa [or_imp, forall_and] using hstart
  exact hfold operation.finalizedBlocks _ (by simp) h

variable {gap : Option (Option BlockGap)}

theorem checkGap_mappings (hgap : db.info.blockGap = none) {mappings : List (KeyChange H)}
    (h : checkGap db operation pending = .ok (gap, mappings)) : mappings = [] := by
  unfold checkGap updateGap at h
  rw [hgap] at h
  dsimp only at h
  split_ifs at h <;> cases h <;> rfl

theorem checkImport_eq_ok (hgap : db.info.blockGap = none) {headers : Headers H}
    {mappings : List (KeyChange H)}
    (h : checkImport db operation pending done = .ok (headers, gap, mappings)) :
    db.headers.insert pending.header = some headers ∧ mappings = [] := by
  obtain ⟨-, -, h⟩ := except_bind_eq_ok h
  obtain ⟨⟨gap', mappings'⟩, hcheck, h⟩ := except_bind_eq_ok h
  dsimp only at h
  split at h
  · cases h
  · rename_i hinsert
    cases h
    exact ⟨hinsert, checkGap_mappings hgap hcheck⟩

structure Keeps (db : Backend H) (staged : Staged H) : Prop where
  grows : Grows db.headers.tree.toBlockTree staged.headers.tree.toBlockTree
  stored : ∀ header, staged.imported = some header →
    staged.headers.tree.header header.hash = some header
  best : HasNumber staged.headers.tree
    (staged.updates.foldl Meta.update db.info).bestHash
    (staged.updates.foldl Meta.update db.info).bestNumber
  index : Indexes staged.headers.tree (commit db.keyLookup staged.changes)
    (staged.updates.foldl Meta.update db.info).bestHash

theorem Keeps.indexed {staged : Staged H} (h : Keeps db staged)
    (hsound : Sound db.headers.tree cache) : Indexed (db.apply staged cache) := by
  have hgap : ∀ (info : Meta H) gap, (info.updateBlockGap gap).bestHash = info.bestHash ∧
      (info.updateBlockGap gap).bestNumber = info.bestNumber := by
    intro info gap
    cases gap <;> exact ⟨rfl, rfl⟩
  obtain ⟨hhash, hnumber⟩ := hgap (staged.updates.foldl Meta.update db.info) staged.gap
  refine ⟨?_, ?_, ?_⟩
  · show HasNumber _ (Meta.updateBlockGap _ _).bestHash (Meta.updateBlockGap _ _).bestNumber
    rw [hhash, hnumber]
    exact h.best
  · show Indexes _ _ (Meta.updateBlockGap _ _).bestHash
    rw [hhash]
    exact h.index
  · have hgrown := h.grows.sound hsound
    unfold Backend.apply
    split
    · exact hgrown
    · rename_i header himported
      exact hgrown.insert (faithful_ofHeader (h.stored header himported))

def LeadsToParent (db : Backend H) (pending : PendingBlock H) (changes : List (KeyChange H)) :
    Prop :=
  ∀ headers, db.headers.insert pending.header = some headers →
    Indexes headers.tree (commit db.keyLookup changes) pending.header.parentHash

omit [DecidableEq H] [Inhabited H] in
theorem importUpdates_eq (operation : BlockImportOperation H) (pending : PendingBlock H)
    (lastNumber : Nat) : ∃ first, (∀ update ∈ first, update.isBest = false) ∧
      importUpdates operation pending lastNumber =
        first ++ [⟨pending.header.hash, pending.header.number, pending.leafState.isBest,
          isFinalized operation pending lastNumber⟩] := by
  refine ⟨_, ?_, rfl⟩
  intro update hupdate
  split_ifs at hupdate
  · rw [List.mem_singleton.mp hupdate]
  · cases hupdate

theorem keeps_import {headers : Headers H} {changes : List (KeyChange H)}
    (hdb : pending.leafState.isBest = false → Indexed db)
    (hupdates : ∀ update ∈ done.updates, update.isBest = false)
    (hinsert : db.headers.insert pending.header = some headers)
    (hbest : pending.leafState.isBest = true → ∃ along, LeadsToParent db pending along ∧
      changes = along ++ [.insert pending.header.number
        (pending.header.number, pending.header.hash)])
    (hnormal : pending.leafState.isBest = false → changes = []) :
    Keeps db ⟨headers, some pending.header, changes,
      done.updates ++ importUpdates operation pending done.lastNumber, gap⟩ := by
  have hgrows := Headers.grows_of_insert hinsert
  have hself := Headers.header_of_insert hinsert
  obtain ⟨first, hfirst, heq⟩ := importUpdates_eq operation pending done.lastNumber
  have hothers : ∀ update ∈ done.updates ++ first, update.isBest = false := fun update hupdate =>
    (List.mem_append.mp hupdate).elim (hupdates update) (hfirst update)
  have hinfo := foldl_update_concat_best hothers db.info
    ⟨pending.header.hash, pending.header.number, pending.leafState.isBest,
      isFinalized operation pending done.lastNumber⟩
  rw [List.append_assoc, ← heq] at hinfo
  obtain ⟨hhash, hnumber⟩ := Prod.mk.inj hinfo
  have hstored : ∀ header, some pending.header = some header →
      headers.tree.header header.hash = some header := fun header h => by
    cases h
    exact hself
  cases hstate : pending.leafState.isBest with
  | true =>
    rw [hstate] at hhash hnumber
    obtain ⟨along, halong, rfl⟩ := hbest hstate
    refine ⟨hgrows, hstored, ?_, ?_⟩
    · rw [hhash, hnumber]
      exact ⟨_, hself, rfl⟩
    · rw [hhash, commit_append]
      exact (halong headers hinsert).insert hself
  | false =>
    rw [hstate] at hhash hnumber
    obtain ⟨best, hknown, -⟩ := (hdb hstate).best
    refine ⟨hgrows, hstored, ?_, ?_⟩
    · rw [hhash, hnumber]
      exact hgrows.hasNumber (hdb hstate).best
    · rw [hhash, hnormal hstate]
      exact (hdb hstate).index.grow hknown hgrows

theorem headOfImport_ends (halong : Yields db (changesAlong db pending.header.parentHash) cache
      (LeadsToParent db pending)) (hsound : Sound db.headers.tree cache) :
    Yields db (headOfImport db pending) cache fun changes =>
      (pending.leafState.isBest = true → ∃ along, LeadsToParent db pending along ∧
        changes = along ++ [.insert pending.header.number
          (pending.header.number, pending.header.hash)]) ∧
      (pending.leafState.isBest = false → changes = []) := by
  unfold headOfImport
  split_ifs with hbest
  · refine Program.Ends.mono (setHeadWithTransaction_ends halong hsound)
      (fun changes t ⟨hchanges, ht⟩ => ?_) fun _ _ ht => ht
    exact ⟨⟨fun _ => hchanges, fun hnot => absurd hbest (by simp [hnot])⟩, ht⟩
  · exact .pure hsound ⟨fun h => absurd h hbest, fun _ => rfl⟩

theorem stageImport_ends (hpending : operation.pendingBlock = some pending)
    (hgap : db.info.blockGap = none) (hdb : pending.leafState.isBest = false → Indexed db)
    (hupdates : ∀ update ∈ done.updates, update.isBest = false)
    (halong : Yields db (changesAlong db pending.header.parentHash) cache
      (LeadsToParent db pending)) (hsound : Sound db.headers.tree cache) :
    Yields db (stageImport db operation done) cache (Keeps db) := by
  unfold stageImport
  rw [hpending]
  refine Program.Ends.bind (.ofExcept (Q := fun _ t => t = cache)
    (fun _ _ => rfl) fun _ _ => hsound) (fun _ _ ht => ht) fun _ t ht => ?_
  subst ht
  refine Yields.bind (headOfImport_ends halong hsound) fun changes t ⟨hbest, hnormal⟩ ht => ?_
  refine .bind (Q := fun checked =>
      db.headers.insert pending.header = some checked.1 ∧ checked.2.2 = [])
    (.ofExcept ht fun checked hchecked => checkImport_eq_ok hgap hchecked)
    fun checked t ⟨hinsert, hmappings⟩ ht => ?_
  obtain ⟨headers, gap, mappings⟩ := checked
  dsimp only at hinsert hmappings
  subst hmappings
  refine .pure ht ?_
  rw [List.append_nil]
  exact keeps_import hdb hupdates hinsert hbest hnormal

theorem stageHead_ends (h : Indexed db) (hupdates : ∀ update ∈ done.updates, update.isBest = false)
    (hsound : Sound db.headers.tree cache) :
    Yields db (stageHead db operation ⟨db.headers, none, [], done.updates, none⟩) cache
      (Keeps db) := by
  unfold stageHead
  split
  · obtain ⟨hhash, hnumber⟩ := Prod.mk.inj (foldl_update_best hupdates db.info)
    refine .pure hsound ⟨.refl _, nofun, ?_, ?_⟩
    · rw [hhash, hnumber]
      exact h.best
    · rw [hhash]
      exact h.index
  · split
    · exact Program.Ends.throw hsound
    · rename_i head header hheader
      have hself : db.headers.tree.header header.hash = some header :=
        BlockTree.header_self hheader
      refine .bind (setHeadWithTransaction_ends (changesAlong_ends h hsound hself) hsound)
        fun changes t ⟨along, halong, hchanges⟩ ht => ?_
      subst hchanges
      have hinfo := foldl_update_concat_best hupdates db.info
        ⟨header.hash, header.number, true, false⟩
      obtain ⟨hhash, hnumber⟩ := Prod.mk.inj hinfo
      refine .pure ht ⟨.refl _, nofun, ?_, ?_⟩
      · rw [hhash, hnumber]
        exact ⟨header, hself, rfl⟩
      · rw [hhash, List.nil_append, commit_append]
        exact halong.insert_self hself

section

variable (h : Indexed db) (hgap : db.info.blockGap = none)
  (hallowed : ∀ pending, operation.pendingBlock = some pending →
    (db.headers.header pending.header.parentHash).isSome ∧ operation.setHead = none)
include h hgap hallowed

theorem tryCommitOperation_ends :
    Yields db (tryCommitOperation db operation) db.cache (Keeps db) := by
  unfold tryCommitOperation
  refine Program.Ends.bind (.ofExcept (Q := fun done t =>
      (∀ update ∈ done.updates, update.isBest = false) ∧ t = db.cache)
    (fun done hdone => ⟨finalizeBlocks_updates hdone, rfl⟩) fun _ _ => h.sound)
    (fun _ _ ht => ht) fun done t ⟨hupdates, ht⟩ => ?_
  subst ht
  cases hpending : operation.pendingBlock with
  | none =>
    have hstage : stageImport db operation done =
        pure ⟨db.headers, none, [], done.updates, none⟩ := by
      rw [stageImport, hpending]
    rw [hstage]
    exact Program.Ends.pure_bind (stageHead_ends h hupdates h.sound)
  | some pending =>
    obtain ⟨hparent, hhead⟩ := hallowed pending hpending
    obtain ⟨p, hp⟩ := Option.isSome_iff_exists.mp hparent
    have halong : Yields db (changesAlong db pending.header.parentHash) db.cache
        (LeadsToParent db pending) :=
      Program.Ends.mono (changesAlong_ends h h.sound hp) (fun changes t ⟨hchanges, ht⟩ =>
        ⟨fun headers hinsert => hchanges.grow hp (Headers.grows_of_insert hinsert), ht⟩)
        fun _ _ ht => ht
    refine Yields.bind (stageImport_ends hpending hgap (fun _ => h) hupdates halong h.sound)
      fun staged t hkeeps ht => ?_
    rw [stageHead, hhead]
    exact .pure ht hkeeps

theorem commitOperation_indexed : Indexed (db.commitOperation operation).2 := by
  have hends := tryCommitOperation_ends h hgap hallowed
  unfold Yields Program.Ends at hends
  unfold Backend.commitOperation
  split at hends
  · rename_i staged cache hrun
    rw [hrun]
    exact hends.1.indexed hends.2
  · rename_i e cache hrun
    rw [hrun]
    exact ⟨h.best, h.index, hends⟩
  · exact hends.elim
  · exact hends.elim

end

/-! ## The first block -/

theorem leadsToParent_empty (delay capacity : Nat) (pending : PendingBlock H) :
    LeadsToParent (Backend.empty delay capacity) pending [] := by
  intro headers hinsert
  have hroot : headers.tree.header pending.header.parentHash = none := by
    cases hparent : headers.tree.header pending.header.parentHash with
    | none => rfl
    | some p =>
      -- the only header there is would be its own parent
      have hlist : headers.list = [pending.header] := by
        unfold Headers.insert at hinsert
        split_ifs at hinsert with hmem
        · exact absurd hmem List.not_mem_nil
        · cases hinsert
          rfl
      have hmem := Headers.mem_of_header hparent
      rw [hlist, List.mem_singleton] at hmem
      subst hmem
      have hself := headers.tree.number_parent (Headers.header_of_insert hinsert) hparent
      omega
  intro number lookupKey
  constructor
  · intro h
    exact absurd h (by simp [commit, Backend.empty])
  · rintro ⟨_, hextends, _⟩
    obtain ⟨x, hx⟩ := hextends.known
    rw [hroot] at hx
    cases hx

theorem commitOperation_genesis {delay capacity : Nat}
    (hpending : operation.pendingBlock = some pending) (hbest : pending.leafState.isBest = true)
    (hrun : (Backend.empty delay capacity).commitOperation operation = (.ok (), db)) :
    Indexed db := by
  have hsound : Sound (Backend.empty delay capacity : Backend H).headers.tree.toBlockTree
      ⟨capacity, []⟩ := sound_empty capacity
  have hends : Yields (Backend.empty delay capacity)
      (tryCommitOperation (Backend.empty delay capacity) operation) ⟨capacity, []⟩
      (Keeps (Backend.empty delay capacity)) := by
    unfold tryCommitOperation
    refine Program.Ends.bind (.ofExcept (Q := fun done t =>
        (∀ update ∈ done.updates, update.isBest = false) ∧ t = ⟨capacity, []⟩)
      (fun done hdone => ⟨finalizeBlocks_updates hdone, rfl⟩) fun _ _ => hsound)
      (fun _ _ ht => ht) fun done t ⟨hupdates, ht⟩ => ?_
    subst ht
    have halong : changesAlong (Backend.empty delay capacity) pending.header.parentHash =
        pure [] := if_neg fun h => h.1 rfl
    refine Yields.bind (stageImport_ends hpending rfl (fun h => absurd hbest (by simp [h]))
      hupdates ?_ hsound) fun staged t hkeeps ht => ?_
    · rw [halong]
      exact .pure hsound (leadsToParent_empty delay capacity pending)
    · unfold stageHead
      split
      · exact .pure ht hkeeps
      · exact Program.Ends.throw ht
  unfold Yields Program.Ends at hends
  unfold Backend.commitOperation at hrun
  split at hrun
  · rename_i staged cache hok
    rw [show (tryCommitOperation (Backend.empty delay capacity) operation).run ⟨capacity, []⟩ =
      .ok staged cache from hok] at hends
    cases hrun
    exact hends.1.indexed hends.2
  · cases hrun

end Operations

/-! ## Runs -/

section Runs

variable [DecidableEq H] [Inhabited H]

omit [DecidableEq H] [Inhabited H] in
theorem exists_ancestor {tree : HeaderTree H} {block : H} {x : Header H}
    (hx : tree.header block = some x) {number : Nat} (hle : number ≤ x.number) :
    ∃ a, tree.Extends a block ∧ HasNumber tree a number := by
  obtain ⟨distance, hdistance⟩ := Nat.exists_eq_add_of_le hle
  induction distance generalizing block x with
  | zero => exact ⟨block, .refl hx, x, hx, by omega⟩
  | succ distance ih =>
    obtain ⟨p, hp, hparent⟩ := tree.parent hx (by omega)
    obtain ⟨a, hextends, hnumber⟩ := ih hp (by omega) (by omega)
    exact ⟨a, .step hx hextends, hnumber⟩

/-- Between operations the client asks for ancestors and routes. -/
inductive Event (H : Type) where
  | commit (operation : BlockImportOperation H)
  | query (asked : Query H)

def Backend.step (db : Backend H) : Event H → Option (Backend H)
  | .commit operation => some (db.commitOperation operation).2
  | .query asked =>
    some { db with cache := (asked.run db.headers.tree).after db.cache }

/-- An operation imports a block above a stored one, or sets a head, and creates no gap. -/
def Event.IsAllowed (db : Backend H) : Event H → Prop
  | .commit operation =>
    (∀ pending ∈ operation.pendingBlock,
      (db.headers.header pending.header.parentHash).isSome ∧ operation.setHead = none) ∧
    (db.commitOperation operation).2.info.blockGap = none
  | .query asked => asked.IsKnown db.headers.tree

instance (db : Backend H) : ∀ event : Event H, Decidable (event.IsAllowed db)
  | .commit operation =>
    inferInstanceAs (Decidable ((∀ pending ∈ operation.pendingBlock, _) ∧ _))
  | .query asked => inferInstanceAs (Decidable (asked.IsKnown _))

theorem step_indexed {db next : Backend H} {event : Event H}
    (h : Indexed db ∧ db.info.blockGap = none) (hallowed : event.IsAllowed db)
    (hstep : db.step event = some next) : Indexed next ∧ next.info.blockGap = none := by
  cases event with
  | commit operation =>
    cases hstep
    exact ⟨commitOperation_indexed h.1 h.2 hallowed.1, hallowed.2⟩
  | query asked =>
    cases hstep
    obtain ⟨answer, cache, hrun, -, hsound⟩ := asked.run_returns h.1.sound hallowed
    refine ⟨⟨h.1.best, h.1.index, ?_⟩, h.2⟩
    simpa [Program.after, hrun] using hsound

/-- The number index follows the best chain: from the first block on, every number up to the one
of the best block is mapped to its ancestor with that number, and no number above is mapped. -/
theorem Backend.run_indexed (delay capacity : Nat) {first : BlockImportOperation H}
    {genesis : PendingBlock H} (hfirst : first.pendingBlock = some genesis)
    (hbest : genesis.leafState.isBest = true) {start : Backend H}
    (hstart : (Backend.empty delay capacity).commitOperation first = (.ok (), start))
    (hgap : start.info.blockGap = none)
    {events : List (Event H)} (hallowed : Run.Along Backend.step (fun db event =>
      event.IsAllowed db) start events) {db : Backend H}
    (hrun : Run.exec Backend.step start events = some db) :
    (∀ number ≤ db.info.bestNumber, ∃ block, db.keyLookup[number]? = some (number, block) ∧
      db.headers.tree.Extends block db.info.bestHash ∧
      HasNumber db.headers.tree block number) ∧
    ∀ number, db.info.bestNumber < number → db.keyLookup[number]? = none := by
  obtain ⟨hindexed, -⟩ := Run.exec_invariant (I := fun db => Indexed db ∧ db.info.blockGap = none)
    (fun _ _ _ h hallowed hstep => step_indexed h hallowed hstep)
    ⟨commitOperation_genesis hfirst hbest hstart, hgap⟩ hallowed hrun
  obtain ⟨best, hknown, hnumber⟩ := hindexed.best
  refine ⟨fun number hle => ?_, fun number hlt => ?_⟩
  · obtain ⟨block, hextends, hblock⟩ := exists_ancestor hknown (hnumber ▸ hle)
    exact ⟨block, (hindexed.index number (number, block)).mpr ⟨rfl, hextends, hblock⟩, hextends,
      hblock⟩
  · cases hmapped : db.keyLookup[number]? with
    | none => rfl
    | some lookupKey =>
      obtain ⟨-, hextends, x, hx, rfl⟩ := (hindexed.index number lookupKey).mp hmapped
      have hle := (hextends.number_le hx hknown).1
      omega

def importing (header : Header H) (leafState : NewBlockState) : BlockImportOperation H where
  finalizedBlocks := []
  pendingBlock := some ⟨header, true, leafState⟩
  setHead := none
  commitState := true
  createGap := true
  highestLeaf := header.number
  bodyExists := false

def settingHead (head : H) : BlockImportOperation H :=
  ⟨[], none, some head, false, false, 0, false⟩

end Runs

/-- A fork takes over and is left again for the first branch, below its tip, which is then
imported once more. -/
theorem Backend.run_indexed_forks :
    ∃ db : Backend Nat, Run.exec Backend.step
        ((Backend.empty 10 5).commitOperation (importing ⟨1, 0, 0⟩ .final)).2
        [.commit (importing ⟨2, 1, 1⟩ .best), .commit (importing ⟨3, 2, 2⟩ .best),
          .commit (importing ⟨4, 1, 1⟩ .normal), .commit (importing ⟨5, 2, 4⟩ .best),
          .query (.treeRoute 5 3), .commit (importing ⟨6, 3, 5⟩ .best),
          .commit (settingHead 2), .commit (importing ⟨3, 2, 2⟩ .best)] = some db ∧
      (∀ number ≤ db.info.bestNumber, ∃ block, db.keyLookup[number]? = some (number, block) ∧
        db.headers.tree.Extends block db.info.bestHash ∧
        HasNumber db.headers.tree block number) ∧
      ∀ number, db.info.bestNumber < number → db.keyLookup[number]? = none := by
  refine ⟨_, (Option.some_get (by decide +kernel)).symm, ?_⟩
  exact Backend.run_indexed 10 5 rfl rfl (Prod.ext (by decide +kernel) rfl)
    (by decide +kernel) (by decide +kernel) (Option.some_get _).symm

/-! ## An import that sets a head -/

def forked : Backend Nat :=
  let genesis := ((Backend.empty 10 5).commitOperation (importing ⟨1, 0, 0⟩ .final)).2
  let branch := (genesis.commitOperation (importing ⟨2, 1, 1⟩ .best)).2
  (branch.commitOperation (importing ⟨3, 1, 1⟩ .normal)).2

def forkedClient : Service.Backend Nat where
  tree := forked.headers.tree
  leaves := [2, 3]
  info := ⟨forked.info.bestHash, forked.info.bestNumber, forked.info.genesisHash,
    forked.info.finalizedHash, forked.info.finalizedNumber, none⟩
  leaves_known leaf hleaf := Option.isSome_iff_exists.mp
    ((by decide +kernel : ∀ leaf ∈ [2, 3], (forked.headers.tree.header leaf).isSome) leaf hleaf)
  best_known := Option.isSome_iff_exists.mp (by decide +kernel)
  finalized_known := Option.isSome_iff_exists.mp (by decide +kernel)
  genesis_known := ⟨⟨1, 0, 0⟩, by decide +kernel⟩

def finalImport (header : Header Nat) : Option (BlockImportOperation Nat) :=
  match (forkedClient.executeAndImportBlock .begin .own header true .longestChain false false).run
      ⟨8, []⟩ with
  | .ok result _ =>
    some { importing header .final with
      finalizedBlocks := result.2.finalized
      pendingBlock := result.2.blockData.map fun data => ⟨data.1, true, data.2.1⟩
      setHead := result.2.head }
  | .error _ _ => none

/-- Block 4 on block 3 is imported as finalized: the client finalizes block 3 and makes it the head.
Block 3 is the best block in the end, but number 2 is mapped to block 4. -/
theorem Backend.import_leaves_mapping :
    ∃ operation, finalImport ⟨4, 2, 3⟩ = some operation ∧
      operation.setHead = some 3 ∧ operation.finalizedBlocks = [3] ∧
      operation.pendingBlock = some ⟨⟨4, 2, 3⟩, true, .final⟩ ∧
      (forked.commitOperation operation).1.toOption = some () ∧
      (forked.commitOperation operation).2.info.bestHash = 3 ∧
      (forked.commitOperation operation).2.info.bestNumber = 1 ∧
      (forked.commitOperation operation).2.keyLookup[2]? = some (2, 4) :=
  ⟨{ importing ⟨4, 2, 3⟩ .final with finalizedBlocks := [3], setHead := some 3 },
    by decide +kernel, rfl, rfl, rfl, by decide +kernel⟩

end PolkadotSdk.Db
