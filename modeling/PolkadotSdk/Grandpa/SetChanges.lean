import PolkadotSdk.ForkTree.Finalization
import PolkadotSdk.Grandpa.AuthoritySet
import PolkadotSdk.Lib.Run

/-! # The history of the authority set

Each change of the set records the last block of the set it replaces: a standard change the
finalized block, a forced change the median that was signalled with it. The history can be
searched as long as each recorded number is above the last one. For a forced change nothing
ensures this.
-/

namespace PolkadotSdk.Grandpa

variable {H A E : Type}

/-! ## Searching the history -/

/-- `ends` are the last blocks of the sets 0, 1 and so on. -/
def InForce (ends : List Nat) (n setId : Nat) : Prop :=
  (∀ j < setId, ∀ e ∈ ends[j]?, e < n) ∧ ∀ e ∈ ends[setId]?, n ≤ e

instance (ends : List Nat) (n setId : Nat) : Decidable (InForce ends n setId) :=
  inferInstanceAs (Decidable (_ ∧ _))

structure Recorded (ends : List Nat) (changes : AuthoritySetChanges) : Prop where
  ids : changes.map Prod.fst = List.range changes.length
  numbers : changes.numbers = ends
  sorted : ends.Pairwise (· < ·)

variable {changes : AuthoritySetChanges} {ends : List Nat}

theorem Recorded.getElem? (h : Recorded ends changes) (i : Nat) :
    changes[i]? = ends[i]?.map fun e => (i, e) := by
  have hlength : ends.length = changes.length := by
    rw [← h.numbers, AuthoritySetChanges.numbers, List.length_map]
  by_cases hi : i < changes.length
  · obtain ⟨id, e, hget⟩ : ∃ id e, changes[i]? = some (id, e) :=
      ⟨changes[i].1, changes[i].2, List.getElem?_eq_getElem hi⟩
    have hid : (changes.map Prod.fst)[i]? = some id := by rw [List.getElem?_map, hget]; rfl
    have he : changes.numbers[i]? = some e := by
      rw [AuthoritySetChanges.numbers, List.getElem?_map, hget]
      rfl
    rw [h.ids, List.getElem?_range hi] at hid
    rw [h.numbers] at he
    cases hid
    rw [hget, he]
    rfl
  · rw [List.getElem?_eq_none (by omega), List.getElem?_eq_none (by omega)]
    rfl

theorem recorded_nil : Recorded [] [] := ⟨rfl, rfl, .nil⟩

theorem Recorded.le_last (h : Recorded ends changes) {last : Nat × Nat}
    (hlast : changes.getLast? = some last) {e : Nat} (he : e ∈ ends) : e ≤ last.2 := by
  rcases List.eq_nil_or_concat' changes with rfl | ⟨init, last', rfl⟩
  · cases hlast
  · rw [List.getLast?_append_cons] at hlast
    cases hlast
    have hsorted := h.sorted
    rw [← h.numbers, AuthoritySetChanges.numbers, List.map_append] at hsorted he
    rw [List.pairwise_append] at hsorted
    rcases List.mem_append.mp he with he | he
    · exact Nat.le_of_lt (hsorted.2.2 e he last'.2 (by simp))
    · exact Nat.le_of_eq (List.mem_singleton.mp he)

theorem Recorded.append (h : Recorded ends changes) {number : Nat}
    (habove : ∀ last ∈ changes.getLast?, last.2 < number) :
    Recorded (ends ++ [number]) (changes.append changes.length number) := by
  refine ⟨?_, ?_, ?_⟩
  · rw [AuthoritySetChanges.append, List.map_append, h.ids, List.length_append,
      List.length_singleton, List.range_succ]
    rfl
  · rw [AuthoritySetChanges.append, AuthoritySetChanges.numbers, List.map_append,
      List.map_singleton, ← h.numbers]
    rfl
  · rw [List.pairwise_append]
    refine ⟨h.sorted, List.pairwise_singleton _ _, fun e he n hn => ?_⟩
    rw [List.mem_singleton.mp hn]
    cases hlast : changes.getLast? with
    | none =>
      rw [← h.numbers, List.getLast?_eq_none_iff.mp hlast] at he
      cases he
    | some last => exact Nat.lt_of_le_of_lt (h.le_last hlast he) (habove last hlast)

private theorem lt_of_mem_take {idx n : Nat} (h : ∀ e ∈ ends.take idx, e < n) :
    ∀ j < idx, ∀ e ∈ ends[j]?, e < n := by
  intro j hj e he
  refine h e (List.mem_of_getElem? (i := j) ?_)
  rw [List.getElem?_take_of_lt hj]
  exact he

theorem Recorded.getSetId_eq_set (h : Recorded ends changes) (search : BinarySearch Nat)
    (n setId lastBlock : Nat) :
    changes.getSetId search n = .set setId lastBlock ↔
      ends[setId]? = some lastBlock ∧ InForce ends n setId := by
  have hspec := search.position_spec h.sorted n
  have hbelow := lt_of_mem_take hspec.1
  have hget := h.getElem? (search.position ends n)
  have habove : ∀ e, ends[search.position ends n]? = some e → n ≤ e := by
    intro e he
    refine hspec.2 e (List.mem_of_getElem? (i := 0) ?_)
    rw [List.getElem?_drop, Nat.add_zero]
    exact he
  -- there is only one set in force at a block
  have hunique : ∀ e, ends[search.position ends n]? = some e → ∀ id last,
      ends[id]? = some last → InForce ends n id → id = search.position ends n := by
    intro e he id last hlast hforce
    rcases Nat.lt_trichotomy id (search.position ends n) with hlt | heq | hgt
    · have h₁ := hbelow id hlt last hlast
      have h₂ := hforce.2 last hlast
      omega
    · exact heq
    · have h₁ := hforce.1 _ hgt e he
      have h₂ := habove e he
      omega
  unfold AuthoritySetChanges.getSetId
  rw [h.numbers]
  split_ifs with hlatest
  · -- past the last block of every set that was replaced
    refine ⟨nofun, fun ⟨hlast, hforce⟩ => ?_⟩
    obtain ⟨last, hmem, hlt⟩ : ∃ last, changes.getLast? = some last ∧ last.2 < n := by
      cases hcase : changes.getLast? with
      | none => simp [hcase] at hlatest
      | some last => exact ⟨last, rfl, by simpa [hcase] using hlatest⟩
    have hle := hforce.2 lastBlock hlast
    have hgreatest := h.le_last hmem (List.mem_of_getElem? hlast)
    omega
  · dsimp only
    rw [hget]
    cases hend : ends[search.position ends n]? with
    | none =>
      refine ⟨nofun, fun ⟨hlast, hforce⟩ => ?_⟩
      -- the position is past the end, so every recorded number is below
      have hlen := List.getElem?_eq_none_iff.mp hend
      obtain ⟨hlt, -⟩ := List.getElem?_eq_some_iff.mp hlast
      have h₁ := hbelow setId (by omega) lastBlock hlast
      have h₂ := hforce.2 lastBlock hlast
      omega
    | some e =>
      rw [Option.map_some]
      dsimp only
      rw [if_neg fun hand => hand.2 hand.1]
      constructor
      · intro heq
        cases heq
        refine ⟨hend, hbelow, fun e' he' => ?_⟩
        exact habove e' he'
      · rintro ⟨hlast, hforce⟩
        obtain rfl := hunique e hend setId lastBlock hlast hforce
        rw [hend] at hlast
        cases hlast
        rfl

/-! ## Calls -/

structure History (H A : Type) where
  set : AuthoritySet H A
  ends : List Nat

inductive Call (H A E : Type) where
  | addPendingChange (pending : PendingChange H A) (isDescendentOf : H → H → Except E Bool)
  | applyStandardChanges (hash : H) (number : Nat) (isDescendentOf : H → H → Except E Bool)
  | applyForcedChanges (hash : H) (number : Nat) (isDescendentOf : H → H → Except E Bool)

def onBranch [DecidableEq H] (isDescendentOf : H → H → Except E Bool) (hash : H)
    (change : PendingChange H A) : Bool :=
  decide (change.canonHash = hash) || (isDescendentOf change.canonHash hash).toOption == some true

namespace History

variable [DecidableEq H]

def step (search : BinarySearch (Nat ×ₗ Nat)) (history : History H A) :
    Call H A E → Option (History H A)
  | .addPendingChange pending isDescendentOf =>
    match history.set.addPendingChange isDescendentOf search pending with
    | some (.ok set) => some { history with set := set }
    | _ => none
  | .applyStandardChanges hash number isDescendentOf =>
    match history.set.applyStandardChanges isDescendentOf hash number with
    | .ok (set, status) => some ⟨set, history.ends ++ (status.newSetBlock.map Prod.snd).toList⟩
    | .error _ => none
  | .applyForcedChanges hash number isDescendentOf =>
    match history.set.applyForcedChanges isDescendentOf hash number with
    | some (.ok none) => some history
    | some (.ok (some (median, set))) => some ⟨set, history.ends ++ [median]⟩
    | _ => none

def Advances (history : History H A) (number : Nat) : Prop :=
  ∀ last ∈ history.set.authoritySetChanges.getLast?, last.2 < number

instance (history : History H A) (number : Nat) : Decidable (history.Advances number) :=
  inferInstanceAs (Decidable (∀ last ∈ _, _))

def Enacts (history : History H A) (hash : H) (number : Nat)
    (isDescendentOf : H → H → Except E Bool) : Prop :=
  ∃ root ∈ history.set.pendingStandardChanges.roots, root.data.effectiveNumber ≤ number ∧
    (root.hash = hash ∨ isDescendentOf root.hash hash = .ok true)

def forced (history : History H A) (hash : H) (number : Nat)
    (isDescendentOf : H → H → Except E Bool) : Option (PendingChange H A) :=
  (history.set.forcedAt number).find? (onBranch isDescendentOf hash)

def ForcedAdvances (history : History H A) (change : PendingChange H A) : Prop :=
  match change.delayKind with
  | .finalized => True
  | .best median => history.Advances median

instance (history : History H A) (change : PendingChange H A) :
    Decidable (history.ForcedAdvances change) := by
  unfold ForcedAdvances
  split <;> infer_instance

/-- A change that the call applies is recorded with a number above the last one. -/
def KeepsOrder (history : History H A) : Call H A E → Prop
  | .addPendingChange _ _ => True
  | .applyStandardChanges hash number isDescendentOf =>
    history.Enacts hash number isDescendentOf → history.Advances number
  | .applyForcedChanges hash number isDescendentOf =>
    ∀ change ∈ history.forced hash number isDescendentOf, history.ForcedAdvances change

instance (history : History H A) (hash : H) (number : Nat)
    (isDescendentOf : H → H → Except E Bool) [DecidableEq E] :
    Decidable (history.Enacts hash number isDescendentOf) :=
  inferInstanceAs (Decidable (∃ root ∈ _, _))

instance (history : History H A) [DecidableEq E] (call : Call H A E) :
    Decidable (history.KeepsOrder call) :=
  match call with
  | .addPendingChange _ _ => isTrue trivial
  | .applyStandardChanges _ _ _ => inferInstanceAs (Decidable (_ → _))
  | .applyForcedChanges hash number isDescendentOf =>
    inferInstanceAs (Decidable (∀ change ∈ history.forced hash number isDescendentOf,
      history.ForcedAdvances change))

end History

/-! ## Steps -/

section Steps

variable [DecidableEq H] {isDescendentOf : H → H → Except E Bool}

theorem addPendingChange_history {set set' : AuthoritySet H A}
    {search : BinarySearch (Nat ×ₗ Nat)} {pending : PendingChange H A}
    (h : set.addPendingChange isDescendentOf search pending = some (.ok set')) :
    set'.setId = set.setId ∧ set'.authoritySetChanges = set.authoritySetChanges := by
  unfold AuthoritySet.addPendingChange at h
  split_ifs at h
  · cases h
  · split at h
    · unfold AuthoritySet.addForcedChange at h
      split at h
      · cases h
      · dsimp only at h
        split_ifs at h
        cases h
        exact ⟨rfl, rfl⟩
    · unfold AuthoritySet.addStandardChange at h
      split at h
      · cases h
      · cases h
      · cases h
        exact ⟨rfl, rfl⟩

theorem applyStandardChanges_history {set set' : AuthoritySet H A} {hash : H} {number : Nat}
    {status : Status H}
    (h : set.applyStandardChanges isDescendentOf hash number = .ok (set', status)) :
    (status.newSetBlock = none ∧ set'.setId = set.setId ∧
      set'.authoritySetChanges = set.authoritySetChanges ∧
      set'.currentAuthorities = set.currentAuthorities) ∨
    (status.newSetBlock = some (hash, number) ∧ set'.setId = set.setId + 1 ∧
      set'.authoritySetChanges = set.authoritySetChanges.append set.setId number ∧
      ∃ root ∈ set.pendingStandardChanges.roots, root.data.effectiveNumber ≤ number ∧
        (root.hash = hash ∨ isDescendentOf root.hash hash = .ok true)) := by
  unfold AuthoritySet.applyStandardChanges at h
  split at h
  · cases h
  · cases h
    exact .inl ⟨rfl, rfl, rfl, rfl⟩
  · rename_i tree data hfinalize
    obtain ⟨forced, -, h⟩ := except_bind_eq_ok h
    cases data with
    | none =>
      cases h
      exact .inl ⟨rfl, rfl, rfl, rfl⟩
    | some change =>
      cases h
      obtain ⟨-, -, changed, ⟨root, hfound, -⟩ | ⟨-, hresult, -⟩⟩ :=
        ForkTree.finalizeWithDescendentIf_cases hfinalize
      · exact .inr ⟨rfl, rfl, rfl, root, hfound.mem, by simpa using hfound.passes,
          ForkTree.equalOrDescendent_eq_true hfound.reaches⟩
      · unfold ForkTree.changedIf at hresult
        split_ifs at hresult
        cases hresult

theorem findForced_eq {hash : H} {changes : List (PendingChange H A)}
    {found : Option (PendingChange H A)}
    (h : AuthoritySet.findForced isDescendentOf hash changes = .ok found) :
    changes.find? (onBranch isDescendentOf hash) = found := by
  induction changes with
  | nil =>
    cases h
    rfl
  | cons change rest ih =>
    rw [AuthoritySet.findForced] at h
    split_ifs at h with heq
    · cases h
      exact List.find?_cons_of_pos (by simp [onBranch, heq])
    · obtain ⟨answer, hanswer, h⟩ := except_bind_eq_ok h
      have hbranch : onBranch isDescendentOf hash change = answer := by
        cases hdescendent : isDescendentOf change.canonHash hash with
        | error e => rw [hdescendent] at hanswer; cases hanswer
        | ok descends =>
          rw [hdescendent] at hanswer
          cases hanswer
          simp [onBranch, heq, hdescendent, Except.toOption]
      cases answer with
      | true =>
        cases h
        exact List.find?_cons_of_pos hbranch
      | false =>
        rw [List.find?_cons_of_neg (by simp [hbranch])]
        exact ih h

theorem applyForcedChanges_some {history : History H A} {hash : H} {number median : Nat}
    {set' : AuthoritySet H A}
    (h : history.set.applyForcedChanges isDescendentOf hash number =
      some (.ok (some (median, set')))) :
    ∃ change, history.forced hash number isDescendentOf = some change ∧
      change.delayKind = .best median ∧ set' = history.set.forcedSet change median := by
  unfold AuthoritySet.applyForcedChanges at h
  split at h
  · cases h
  · cases h
  · rename_i change hfind
    split at h
    · cases h
    · rename_i median' hkind
      split at h
      · cases h
      · cases h
        exact ⟨change, findForced_eq hfind, hkind, rfl⟩

/-! ## Runs -/

structure History.Searchable (history : History H A) : Prop where
  recorded : Recorded history.ends history.set.authoritySetChanges
  setId : history.set.setId = history.set.authoritySetChanges.length

omit [DecidableEq H] in
theorem History.Searchable.next {history : History H A} (h : history.Searchable) {number : Nat}
    (hadvances : history.Advances number) {set : AuthoritySet H A}
    (hid : set.setId = history.set.setId + 1)
    (hchanges : set.authoritySetChanges =
      history.set.authoritySetChanges.append history.set.setId number) :
    History.Searchable ⟨set, history.ends ++ [number]⟩ := by
  refine ⟨?_, ?_⟩
  · rw [hchanges, h.setId]
    exact h.recorded.append hadvances
  · rw [hid, hchanges, h.setId, AuthoritySetChanges.append, List.length_append]
    rfl

omit [DecidableEq H] in
theorem History.Searchable.same {history : History H A} (h : history.Searchable)
    {set : AuthoritySet H A} (hid : set.setId = history.set.setId)
    (hchanges : set.authoritySetChanges = history.set.authoritySetChanges) :
    History.Searchable ⟨set, history.ends⟩ :=
  ⟨hchanges ▸ h.recorded, by rw [hid, hchanges, h.setId]⟩

theorem History.Searchable.step {search : BinarySearch (Nat ×ₗ Nat)} {history next : History H A}
    {call : Call H A E} (h : history.Searchable) (horder : history.KeepsOrder call)
    (hstep : history.step search call = some next) : next.Searchable := by
  cases call with
  | addPendingChange pending isDescendentOf =>
    simp only [History.step] at hstep
    split at hstep
    · rename_i set hadd
      cases hstep
      obtain ⟨hid, hchanges⟩ := addPendingChange_history hadd
      exact h.same hid hchanges
    · cases hstep
  | applyStandardChanges hash number isDescendentOf =>
    simp only [History.step] at hstep
    split at hstep
    · rename_i set status happly
      cases hstep
      rcases applyStandardChanges_history happly with
        ⟨hstatus, hid, hchanges, -⟩ | ⟨hstatus, hid, hchanges, henacts⟩
      · rw [hstatus]
        simpa using h.same hid hchanges
      · rw [hstatus]
        exact h.next (horder henacts) hid hchanges
    · cases hstep
  | applyForcedChanges hash number isDescendentOf =>
    simp only [History.step] at hstep
    split at hstep
    · cases hstep
      exact h
    · rename_i median set happly
      cases hstep
      obtain ⟨change, hforced, hkind, rfl⟩ := applyForcedChanges_some happly
      have hadvances := horder change hforced
      rw [History.ForcedAdvances, hkind] at hadvances
      exact h.next hadvances rfl rfl
    · cases hstep

/-- From genesis on, as long as each change is recorded with a number above the last one, the
history holds the sets before the current one in order, and a search in it finds the set that
was in force at a block. -/
theorem run_searchable (initial : AuthorityList A) (genesis : AuthoritySet H A)
    (hgenesis : AuthoritySet.genesis initial = some genesis)
    (search : BinarySearch (Nat ×ₗ Nat)) (calls : List (Call H A E)) (final : History H A)
    (hrun : Run.exec (History.step search) ⟨genesis, []⟩ calls = some final)
    (horder : Run.Along (History.step search) History.KeepsOrder ⟨genesis, []⟩ calls) :
    final.set.authoritySetChanges.map Prod.fst = List.range final.set.setId ∧
      (final.set.authoritySetChanges.map Prod.snd).Pairwise (· < ·) ∧
      ∀ (find : BinarySearch Nat) (n setId lastBlock : Nat),
        final.set.authoritySetChanges.getSetId find n = .set setId lastBlock ↔
          final.ends[setId]? = some lastBlock ∧ InForce final.ends n setId := by
  have hinitial : History.Searchable ⟨genesis, []⟩ := by
    unfold AuthoritySet.genesis at hgenesis
    split_ifs at hgenesis
    cases hgenesis
    exact ⟨recorded_nil, rfl⟩
  have hfinal : final.Searchable :=
    Run.exec_invariant (I := History.Searchable)
      (fun _ _ _ hsearchable hkeeps hstep => hsearchable.step hkeeps hstep) hinitial horder hrun
  refine ⟨?_, ?_, fun find n setId lastBlock => ?_⟩
  · rw [hfinal.setId, hfinal.recorded.ids]
  · have hsorted := hfinal.recorded.sorted
    rwa [← hfinal.recorded.numbers] at hsorted
  · exact hfinal.recorded.getSetId_eq_set find n setId lastBlock

end Steps

/-- A standard change finalized at block 10, then a forced one at block 20 with the median. -/
def standardThenForced (median : Nat) : List (Call Nat Nat Unit) :=
  let isDescendentOf base block := .ok (decide (base < block))
  [.addPendingChange ⟨[(1, 1)], 0, 10, 10, .finalized⟩ isDescendentOf,
    .applyStandardChanges 10 10 isDescendentOf,
    .addPendingChange ⟨[(2, 1)], 5, 15, 15, .best median⟩ isDescendentOf,
    .applyForcedChanges 20 20 isDescendentOf]

theorem run_searchable_forced :
    ∃ genesis final, AuthoritySet.genesis [(0, 1)] = some genesis ∧
      Run.exec (History.step (.scan _)) ⟨genesis, []⟩ (standardThenForced 12) = some final ∧
      final.ends = [10, 12] ∧
      final.set.authoritySetChanges.map Prod.fst = List.range final.set.setId ∧
      (final.set.authoritySetChanges.map Prod.snd).Pairwise (· < ·) ∧
      ∀ (find : BinarySearch Nat) (n setId lastBlock : Nat),
        final.set.authoritySetChanges.getSetId find n = .set setId lastBlock ↔
          final.ends[setId]? = some lastBlock ∧ InForce final.ends n setId :=
  ⟨_, _, rfl, rfl, rfl, run_searchable [(0, 1)] _ rfl (.scan _) (standardThenForced 12) _ rfl
    (by decide)⟩

/-- The median of the forced change is below the block of the last change, so block 7 is taken to be
past the last set that was replaced. -/
theorem forced_below_standard :
    ∃ genesis final, AuthoritySet.genesis [(0, 1)] = some genesis ∧
      Run.exec (History.step (.scan _)) ⟨genesis, []⟩ (standardThenForced 5) = some final ∧
      final.ends = [10, 5] ∧
      ¬ (final.set.authoritySetChanges.map Prod.snd).Pairwise (· < ·) ∧
      final.ends[0]? = some 10 ∧ InForce final.ends 7 0 ∧
      ∀ find : BinarySearch Nat, final.set.authoritySetChanges.getSetId find 7 = .latest :=
  ⟨_, _, rfl, rfl, rfl, by decide, rfl, by decide, fun _ => rfl⟩

end PolkadotSdk.Grandpa
