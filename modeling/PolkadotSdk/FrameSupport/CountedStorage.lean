import Mathlib
import PolkadotSdk.FrameSupport.PrefixStorage
import PolkadotSdk.Lib.Run

/-! # Counted storage

The operations that the counted map and the counted N-map have in common. Each keeps the
counter beside the map by hand. Values always decode.
-/

namespace PolkadotSdk.FrameSupport

structure QueryKind (V Q : Type) where
  fromOptionalValueToQuery : Option V → Q
  fromQueryToOptionalValue : Q → Option V
  present : ∀ value, fromQueryToOptionalValue (fromOptionalValueToQuery (some value)) = some value

def optionQuery (V : Type) : QueryKind V (Option V) := ⟨id, id, fun _ => rfl⟩

structure Appends (V I : Type) where
  append : Option V → I → V
  length : V → Nat
  bound : Nat

def counterMax : Nat := 2 ^ 32 - 1

def saturatingInc (counter : Nat) : Nat := min (counter + 1) counterMax

structure Counted (K V : Type) [LinearOrder K] where
  storage : PrefixStorage K V
  counter : Nat

namespace Counted

variable {K V Q I E : Type} [LinearOrder K]

def empty : Counted K V := ⟨.empty, 0⟩

def count (map : Counted K V) : Nat := map.counter

def insert (map : Counted K V) (key : K) (value : V) : Counted K V where
  counter := if map.storage.contains key then map.counter else saturatingInc map.counter
  storage := map.storage.put key value

def remove (map : Counted K V) (key : K) : Counted K V where
  counter := if map.storage.contains key then map.counter - 1 else map.counter
  storage := map.storage.kill key

def swap (map : Counted K V) (key1 key2 : K) : Counted K V :=
  let value1 := map.storage.get key1
  let storage := map.storage.store key1 (map.storage.get key2)
  { map with storage := storage.store key2 value1 }

/-- The closure is given the stored value, and its answer tells whether what it leaves is
stored. -/
def tryMutateExists (map : Counted K V) (key : K) (f : Option V → Except E Unit × Option V) :
    Except E Unit × Counted K V :=
  let value := map.storage.get key
  match f value with
  | (.error e, _) => (.error e, map)
  | (.ok (), left) =>
    let existed := value.isSome
    let exist := left.isSome
    (.ok (),
      { counter :=
          if existed && !exist then map.counter - 1
          else if !existed && exist then saturatingInc map.counter
          else map.counter
        storage := map.storage.store key left })

def mutateExists (map : Counted K V) (key : K) (f : Option V → Option V) : Counted K V :=
  (map.tryMutateExists (E := Empty) key fun value => (.ok (), f value)).2

def tryMutate (kind : QueryKind V Q) (map : Counted K V) (key : K)
    (f : Q → Except E Unit × Q) : Except E Unit × Counted K V :=
  map.tryMutateExists key fun value =>
    let (result, query) := f (kind.fromOptionalValueToQuery value)
    (result, kind.fromQueryToOptionalValue query)

def mutate (kind : QueryKind V Q) (map : Counted K V) (key : K) (f : Q → Q) : Counted K V :=
  (map.tryMutate (E := Empty) kind key fun query => (.ok (), f query)).2

def take (kind : QueryKind V Q) (map : Counted K V) (key : K) : Q × Counted K V :=
  let removedValue := map.storage.get key
  (kind.fromOptionalValueToQuery removedValue,
    { counter := if removedValue.isSome then map.counter - 1 else map.counter
      storage := map.storage.kill key })

def append (appends : Appends V I) (map : Counted K V) (key : K) (item : I) : Counted K V where
  counter := if map.storage.contains key then map.counter else saturatingInc map.counter
  storage := map.storage.put key (appends.append (map.storage.get key) item)

/-- One call of `clear`. The cursor only tells whether some keys remain. -/
def clearInside (map : Counted K V) (inside : K → Bool) (limit : Nat) : Bool × Counted K V :=
  let result := map.storage.clearPrefix inside limit
  let (someRemaining, loops) := result.1
  (someRemaining, ⟨result.2, if someRemaining then map.counter - loops else 0⟩)

/-- Repeat `clear`, in the same block or a later one, until no keys remain. -/
def clearToEnd (inside : K → Bool) : List (Nat × Bool) → Counted K V → Option (Counted K V)
  | [], _ => none
  | (limit, newBlock) :: calls, map =>
    let result := map.clearInside inside limit
    if result.1 then
      clearToEnd inside calls
        (if newBlock then { result.2 with storage := result.2.storage.commit } else result.2)
    else some result.2

def drainNext (map : Counted K V) (inside : K → Bool) (previous : Option K) :
    Option K × Counted K V :=
  match map.storage.nextKey previous with
  | none => (none, map)
  | some key =>
    if inside key then (some key, ⟨map.storage.kill key, map.counter - 1⟩) else (none, map)

def translateNext (f : K → V → Option V) (walk : Option K × Counted K V) :
    Option (Option (Option K × Counted K V)) :=
  let (previous, map) := walk
  match map.storage.nextKey previous with
  | none => some none
  | some key =>
    match map.storage.get key with
    | none => some (some (some key, map))
    | some value =>
      let new := f key value
      some (some (some key,
        { counter := if new.isNone then map.counter - 1 else map.counter
          storage := map.storage.store key new }))

def translate (map : Counted K V) (f : K → V → Option V) : Option (Counted K V) :=
  (Loop.run (translateNext f) (map.storage.values.size + 1) (none, map)).map Prod.snd

def translateValues (map : Counted K V) (f : K → V → Option V) : Option (Counted K V) :=
  map.translate f

def initializeCounter (map : Counted K V) : Nat × Counted K V :=
  let count := map.storage.values.size % 2 ^ 32
  (count, { map with counter := count })

/-! ## The counter -/

def Exact (map : Counted K V) : Prop := map.counter = map.storage.values.size

variable {map : Counted K V}

theorem empty_exact : (empty : Counted K V).Exact := rfl

section

variable (h : map.Exact)
include h

theorem Exact.store (key : K) (value : Option V) {counter : Nat}
    (hsmall : (map.storage.store key value).values.size ≤ counterMax)
    (hcounter : counter =
      if (map.storage.get key).isSome && value.isNone then map.counter - 1
      else if (map.storage.get key).isNone && value.isSome then saturatingInc map.counter
      else map.counter) :
    Exact ⟨map.storage.store key value, counter⟩ := by
  have hsize := map.storage.size_store key value
  unfold Exact at h ⊢
  dsimp only
  rw [hcounter, h]
  cases hold : map.storage.get key <;> cases value <;>
    simp [hold, saturatingInc] at hsize ⊢ <;> omega

theorem Exact.rewrite {key : K} {old : V} (hold : map.storage.get key = some old)
    (value : Option V) :
    Exact ⟨map.storage.store key value,
      if value.isNone then map.counter - 1 else map.counter⟩ := by
  have hsize := map.storage.size_store key value
  unfold Exact at h ⊢
  dsimp only
  rw [h]
  cases value <;> simp [hold] at hsize ⊢ <;> omega

theorem insert_exact (key : K) (value : V)
    (hsmall : (map.insert key value).storage.values.size ≤ counterMax) :
    (map.insert key value).Exact := by
  refine h.store key (some value) hsmall ?_
  cases hget : map.storage.get key <;> simp [PrefixStorage.contains, hget]

theorem remove_exact (key : K)
    (hsmall : (map.remove key).storage.values.size ≤ counterMax) : (map.remove key).Exact := by
  refine h.store key none hsmall ?_
  cases hget : map.storage.get key <;> simp [PrefixStorage.contains, hget]

theorem swap_exact (key1 key2 : K) : (map.swap key1 key2).Exact := by
  have hfirst := map.storage.size_store key1 (map.storage.get key2)
  have hsecond := (map.storage.store key1 (map.storage.get key2)).size_store key2
    (map.storage.get key1)
  have hget : (map.storage.store key1 (map.storage.get key2)).get key2 =
      map.storage.get key2 := by
    rw [PrefixStorage.get_store]
    split_ifs
    · rfl
    · rfl
  rw [hget] at hsecond
  unfold Exact swap at *
  dsimp only
  omega

theorem tryMutateExists_exact (key : K) (f : Option V → Except E Unit × Option V)
    (hsmall : (map.tryMutateExists key f).2.storage.values.size ≤ counterMax) :
    (map.tryMutateExists key f).2.Exact := by
  unfold tryMutateExists at hsmall ⊢
  dsimp only at hsmall ⊢
  rcases hf : f (map.storage.get key) with ⟨_ | _, left⟩
  · exact h
  · rw [hf] at hsmall
    refine h.store key left hsmall ?_
    cases map.storage.get key <;> cases left <;> simp

end

theorem take_exact (kind : QueryKind V Q) (h : map.Exact) (key : K)
    (hsmall : (map.take kind key).2.storage.values.size ≤ counterMax) :
    (map.take kind key).2.Exact := by
  refine h.store key none hsmall ?_
  cases hget : map.storage.get key <;> simp

theorem append_exact (appends : Appends V I) (h : map.Exact) (key : K) (item : I)
    (hsmall : (map.append appends key item).storage.values.size ≤ counterMax) :
    (map.append appends key item).Exact := by
  refine h.store key (some _) hsmall ?_
  cases hget : map.storage.get key <;> simp [PrefixStorage.contains, hget]

theorem drainNext_exact (h : map.Exact) (inside : K → Bool) (previous : Option K) :
    (map.drainNext inside previous).2.Exact := by
  unfold drainNext
  cases hnext : map.storage.nextKey previous with
  | none => exact h
  | some key =>
    dsimp only
    split_ifs
    · obtain ⟨-, value, hvalue⟩ := PrefixStorage.nextKey_some hnext
      exact h.rewrite hvalue none
    · exact h

theorem clearToEnd_spec {inside : K → Bool} {calls : List (Nat × Bool)} {last : Counted K V}
    (h : clearToEnd inside calls map = some last) :
    last.counter = 0 ∧
      ∀ key, last.storage.get key = if inside key then none else map.storage.get key := by
  induction calls generalizing map with
  | nil => cases h
  | cons call calls ih =>
    obtain ⟨limit, newBlock⟩ := call
    rw [clearToEnd] at h
    cases hremaining : (map.clearInside inside limit).1 with
    | true =>
      rw [hremaining, if_pos rfl] at h
      obtain ⟨hcounter, hget⟩ := ih h
      have hmid : ∀ key, (if newBlock then { (map.clearInside inside limit).2 with
          storage := (map.clearInside inside limit).2.storage.commit }
          else (map.clearInside inside limit).2).storage.get key =
            (map.storage.clearPrefix inside limit).2.get key := by
        intro key
        split_ifs
        · rfl
        · rfl
      refine ⟨hcounter, fun key => ?_⟩
      rw [hget, hmid]
      split_ifs with hin
      · rfl
      · exact PrefixStorage.clearPrefix_outside (by simpa using hin) limit
    | false =>
      rw [hremaining, if_neg (by simp)] at h
      cases h
      exact ⟨by simp only [clearInside] at hremaining ⊢; simp [hremaining],
        PrefixStorage.clearPrefix_completed hremaining⟩

theorem clearToEnd_exact {inside : K → Bool} {calls : List (Nat × Bool)} {last : Counted K V}
    (hinside : ∀ key value, map.storage.get key = some value → inside key = true)
    (h : clearToEnd inside calls map = some last) : last.Exact := by
  obtain ⟨hcounter, hget⟩ := clearToEnd_spec h
  have hnone : ∀ key, last.storage.get key = none := by
    intro key
    rw [hget]
    split_ifs with hin
    · rfl
    · cases hold : map.storage.get key with
      | none => rfl
      | some value => exact absurd (hinside key value hold) hin
  rw [Exact, hcounter, PrefixStorage.size_eq_zero hnone]

theorem translate_exact (h : map.Exact) (f : K → V → Option V) :
    ∃ last, map.translate f = some last ∧ last.Exact := by
  have hbody : ∀ walk : Option K × Counted K V, walk.2.Exact → True →
      translateNext f walk = some none ∨ ∃ next, translateNext f walk = some (some next) ∧
        next.2.Exact ∧ next.2.storage.remaining next.1 < walk.2.storage.remaining walk.1 := by
    rintro ⟨previous, map⟩ hexact -
    cases hnext : map.storage.nextKey previous with
    | none => exact .inl (by simp [translateNext, hnext])
    | some key =>
      obtain ⟨-, value, hvalue⟩ := PrefixStorage.nextKey_some hnext
      refine .inr ⟨_, by simp only [translateNext, hnext, hvalue]; rfl, ?_, ?_⟩
      · exact hexact.rewrite hvalue (f key value)
      · exact PrefixStorage.remaining_lt hnext (f key value)
  obtain ⟨⟨previous, last⟩, hrun, hlast, -⟩ := Loop.run_total
    (I := fun walk : Option K × Counted K V => walk.2.Exact) (C := fun _ => True)
    (fun walk => walk.2.storage.remaining walk.1) hbody (s := (none, map)) h (fun _ _ => trivial)
    (Nat.lt_succ_of_le (PrefixStorage.remaining_le none))
  exact ⟨last, by rw [translate, hrun, Option.map_some], hlast⟩

end Counted

/-! ## Operations that both maps have -/

/-- An iterator may be dropped at any time, so each step of it is an operation. -/
inductive CountedOp (K V Q E I : Type) where
  | swap (key1 key2 : K)
  | insert (key : K) (value : V)
  | remove (key : K)
  | mutate (key : K) (f : Q → Q)
  | tryMutate (key : K) (f : Q → Except E Unit × Q)
  | mutateExists (key : K) (f : Option V → Option V)
  | tryMutateExists (key : K) (f : Option V → Except E Unit × Option V)
  | take (key : K)
  | append (key : K) (item : I)
  | drainNext (inside : K → Bool) (previous : Option K)
  | translate (f : K → V → Option V)
  | translateValues (f : K → V → Option V)
  | clear (calls : List (Nat × Bool))
  | initializeCounter
  | endBlock

namespace Counted

variable {K V Q E I : Type} [LinearOrder K]

def runShared (kind : QueryKind V Q) (appends : Appends V I) (map : Counted K V) :
    CountedOp K V Q E I → Option (Counted K V)
  | .swap key1 key2 => some (map.swap key1 key2)
  | .insert key value => some (map.insert key value)
  | .remove key => some (map.remove key)
  | .mutate key f => some (map.mutate kind key f)
  | .tryMutate key f => some (map.tryMutate kind key f).2
  | .mutateExists key f => some (map.mutateExists key f)
  | .tryMutateExists key f => some (map.tryMutateExists key f).2
  | .take key => some (map.take kind key).2
  | .append key item => some (map.append appends key item)
  | .drainNext inside previous => some (map.drainNext inside previous).2
  | .translate f => map.translate f
  | .translateValues f => map.translateValues f
  | .clear calls => clearToEnd (fun _ => true) calls map
  | .initializeCounter => some map.initializeCounter.2
  | .endBlock => some { map with storage := map.storage.commit }

theorem runShared_exact (kind : QueryKind V Q) (appends : Appends V I) {map next : Counted K V}
    (h : map.Exact) (op : CountedOp K V Q E I) (hrun : map.runShared kind appends op = some next)
    (hsmall : next.storage.values.size ≤ counterMax) : next.Exact := by
  cases op with
  | swap key1 key2 =>
    cases hrun
    exact swap_exact h key1 key2
  | insert key value =>
    cases hrun
    exact insert_exact h key value hsmall
  | remove key =>
    cases hrun
    exact remove_exact h key hsmall
  | mutate key f =>
    cases hrun
    exact tryMutateExists_exact h key _ hsmall
  | tryMutate key f =>
    cases hrun
    exact tryMutateExists_exact h key _ hsmall
  | mutateExists key f =>
    cases hrun
    exact tryMutateExists_exact h key _ hsmall
  | tryMutateExists key f =>
    cases hrun
    exact tryMutateExists_exact h key f hsmall
  | take key =>
    cases hrun
    exact take_exact kind h key hsmall
  | append key item =>
    cases hrun
    exact append_exact appends h key item hsmall
  | drainNext inside previous =>
    cases hrun
    exact drainNext_exact h inside previous
  | translate f =>
    obtain ⟨last, hlast, hexact⟩ := translate_exact h f
    cases hrun.symm.trans hlast
    exact hexact
  | translateValues f =>
    obtain ⟨last, hlast, hexact⟩ := translate_exact h f
    cases hrun.symm.trans hlast
    exact hexact
  | clear calls => exact clearToEnd_exact (fun _ _ _ => rfl) hrun
  | initializeCounter =>
    cases hrun
    have hsize : map.storage.values.size ≤ counterMax := hsmall
    unfold counterMax at hsize
    exact Nat.mod_eq_of_lt (by omega)
  | endBlock =>
    cases hrun
    exact h

end Counted

end PolkadotSdk.FrameSupport
