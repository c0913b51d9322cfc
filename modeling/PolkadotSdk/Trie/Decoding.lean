import PolkadotSdk.Trie.NodeCodec

/-! # Decoded ranges lie inside the data

Decoding ends on all data, without a panic, and the ranges of the plan it returns lie inside the
data exactly if no announced length wraps around when it is added to its offset. With 64 bits
none does. With 32 bits a length close to `u32::MAX` does, passes the check against the length of
the data, and gives a range that ends before it starts.
-/

namespace PolkadotSdk.Trie

open StateMachine (CompactCodec scaleCompact)
open Program

def Range.InBounds (length : Nat) (range : Range) : Prop :=
  range.start ≤ range.stop ∧ range.stop ≤ length

def ValuePlan.range : ValuePlan → Range
  | .inline range => range
  | .node range => range

def NodeHandlePlan.range : NodeHandlePlan → Range
  | .hash range => range
  | .inline range => range

def NodePlan.ranges : NodePlan → List Range
  | .empty => []
  | .leaf partialKey value => [partialKey.bytes, value.range]
  | .nibbledBranch partialKey value children =>
    partialKey.bytes :: ((value.toList.map ValuePlan.range) ++
      children.filterMap (Option.map NodeHandlePlan.range))

/-- The data and the hash are objects in memory: at most `isize::MAX` bytes each. -/
structure Addressable (width hashLength : Nat) (data : List UInt8) : Prop where
  pointer : width = 32 ∨ width = 64
  data_lt : data.length < 2 ^ (width - 1)
  hash_lt : hashLength < 2 ^ (width - 1)

variable {data : List UInt8}

theorem Addressable.sum_lt {width hashLength count : Nat} {offset : Nat}
    (h : Addressable width hashLength data) (hoffset : offset ≤ data.length)
    (hcount : count ≤ 2 ^ (width - 1)) : offset + count < 2 ^ width := by
  have hdata := h.data_lt
  have hdouble : 2 ^ width = 2 * 2 ^ (width - 1) := by
    rcases h.pointer with rfl | rfl <;> norm_num
  omega

theorem Addressable.small_le {width hashLength count : Nat} (h : Addressable width hashLength data)
    (hcount : count ≤ 2) : count ≤ 2 ^ (width - 1) := by
  rcases h.pointer with rfl | rfl <;> norm_num <;> omega

/-! ## The lengths a node announces -/

section Lengths

variable (codec : CompactCodec)

/-- The next length, with the offset of the bytes it announces, and what follows these. -/
def announced (input : ByteSliceInput) (next : ByteSliceInput → List (Nat × Nat)) :
    List (Nat × Nat) :=
  match codec.decode (input.data.drop input.offset) with
  | none => []
  | some (count, rest) =>
    let start := input.data.length - rest.length
    (start, count) :: if start + count ≤ input.data.length then
      next { input with offset := start + count } else []

def childLengths (bitmap : Bitmap) : List Nat → ByteSliceInput → List (Nat × Nat)
  | [], _ => []
  | i :: rest, input =>
    if bitmap.valueAt i then announced codec input (childLengths bitmap rest)
    else childLengths bitmap rest input

variable (width hashLength : Nat)

/-- The front of a branch, up to the value. -/
def branchFront (nibbleCount : Nat) : Decoder Bitmap := do
  let _ ← decodePartial width nibbleCount
  decodeBitmap width

def readLengths : Decoder (List (Nat × Nat)) := do
  match ← NodeHeader.decode width with
  | .null => return []
  | .hashedValueLeaf _ => return []
  | .leaf nibbleCount => do
    let _ ← decodePartial width nibbleCount
    return announced codec (← get) fun _ => []
  | .branch hasValue nibbleCount => do
    let bitmap ← branchFront width nibbleCount
    let children := childLengths codec bitmap (List.range 16)
    let input ← get
    return if hasValue then announced codec input children else children input
  | .hashedValueBranch nibbleCount => do
    let bitmap ← branchFront width nibbleCount
    let _ ← take width hashLength
    return childLengths codec bitmap (List.range 16) (← get)

/-- The lengths of inline values and children that `data` announces, each with the offset of the
bytes it announces. -/
def announcedLengths (data : List UInt8) : List (Nat × Nat) :=
  match (readLengths codec width hashLength).run (.new data) with
  | .ok lengths _ => lengths
  | .error _ _ => []

/-- No announced length wraps around when it is added to its offset. -/
def Fit (lengths : List (Nat × Nat)) : Prop :=
  ∀ length ∈ lengths, length.1 + length.2 < 2 ^ width

end Lengths

/-! ## The parts of a node -/

structure Within (data : List UInt8) (input : ByteSliceInput) : Prop where
  data_eq : input.data = data
  offset_le : input.offset ≤ data.length

section Parts

variable {width hashLength : Nat} {codec : CompactCodec} {data : List UInt8}
  {input : ByteSliceInput}

theorem take_ends (hin : Within data input) {count : Nat}
    (hcount : input.offset + count < 2 ^ width) :
    Ends (take width count) input
      (fun range t => range.InBounds data.length ∧ Within data t ∧
        t = { input with offset := input.offset + count })
      (fun _ _ => True) := by
  have hdata := hin.data_eq
  unfold take
  refine .get_bind ?_
  dsimp only
  rw [Nat.mod_eq_of_lt hcount]
  split
  · exact .throw_bind trivial
  · rename_i hle
    rw [Nat.not_lt, hdata] at hle
    exact ⟨⟨Nat.le_add_right .., hle⟩, ⟨hdata, hle⟩, rfl⟩

variable (h : Addressable width hashLength data)
include h

theorem succ_mod (hin : Within data input) :
    (input.offset + 1) % 2 ^ width = input.offset + 1 :=
  Nat.mod_eq_of_lt (h.sum_lt hin.offset_le (h.small_le (by omega)))

theorem readByte_ends (hin : Within data input) : Ends (readByte width) input
    (fun _ t => Within data t ∧ t.offset = input.offset + 1)
    (fun _ _ => True) := by
  have hdata := hin.data_eq
  unfold readByte
  refine .get_bind ?_
  dsimp only
  rw [succ_mod h hin]
  split
  · exact .throw_bind trivial
  · have hlt : input.offset < input.data.length := by omega
    rw [List.getElem?_eq_getElem hlt]
    refine ⟨⟨hdata, ?_⟩, rfl⟩
    rw [← hdata]
    exact hlt

theorem decodeSizeLoop_ends (hin : Within data input) {fuel : Nat}
    (hfuel : data.length - input.offset < fuel) (result : Nat) :
    Ends (decodeSizeLoop width fuel result) input
      (fun size t => Within data t ∧ size < 2 ^ width) (fun _ _ => True) := by
  induction fuel generalizing input result with
  | zero => omega
  | succ fuel ih =>
    refine .seq (readByte_ends h hin) ?_
    rintro n t ⟨ht, hoffset⟩
    have hle := ht.offset_le
    split
    · exact ⟨ht, Nat.mod_lt _ (by positivity)⟩
    · exact ih ht (by omega) _

theorem decodeSize_ends (hin : Within data input) (first prefixMask : UInt8) :
    Ends (decodeSize width first prefixMask) input
      (fun size t => Within data t ∧ size < 2 ^ width) (fun _ _ => True) := by
  unfold decodeSize
  dsimp only
  split
  · refine ⟨hin, lt_of_lt_of_le (UInt8.toNat_lt _) ?_⟩
    rcases h.pointer with rfl | rfl <;> norm_num
  · refine .get_bind (decodeSizeLoop_ends h hin ?_ _)
    rw [hin.data_eq]
    omega

def NodeHeader.nibbleCount : NodeHeader → Nat
  | .null => 0
  | .branch _ count => count
  | .leaf count => count
  | .hashedValueBranch count => count
  | .hashedValueLeaf count => count

omit h in
theorem kind_cases (i : UInt8) : i &&& 0b1100_0000 = leafPrefixMask ∨
    i &&& 0b1100_0000 = branchWithMask ∨ i &&& 0b1100_0000 = branchWithoutMask ∨
    i &&& 0b1100_0000 = emptyTrie := by
  revert i
  decide +kernel

theorem header_ends (hin : Within data input) : Ends (NodeHeader.decode width) input
    (fun header t => Within data t ∧ header.nibbleCount < 2 ^ width) (fun _ _ => True) := by
  refine .seq (readByte_ends h hin) ?_
  rintro i t ⟨ht, -⟩
  have hsize : ∀ (prefixMask : UInt8) (make : Nat → NodeHeader),
      (∀ size, (make size).nibbleCount = size) →
      Ends (decodeSize width i prefixMask >>= fun size => pure (make size)) t
        (fun header t => Within data t ∧ header.nibbleCount < 2 ^ width) (fun _ _ => True) := by
    intro prefixMask make hmake
    refine .seq (decodeSize_ends h ht i prefixMask) ?_
    rintro size t ⟨ht, hlt⟩
    exact ⟨ht, by rw [hmake]; exact hlt⟩
  dsimp only
  split_ifs with hempty hleaf hwith hwithout hspecial hhashedLeaf hhashedBranch
  · exact ⟨ht, by positivity⟩
  · exact hsize 2 .leaf fun _ => rfl
  · exact hsize 2 (.branch true) fun _ => rfl
  · exact hsize 2 (.branch false) fun _ => rfl
  · exact hsize 3 .hashedValueLeaf fun _ => rfl
  · exact hsize 4 .hashedValueBranch fun _ => rfl
  · exact .throw trivial
  · -- the two bits that are left have no other value
    rcases kind_cases i with hkind | hkind | hkind | hkind <;> contradiction

theorem decodePartial_ends (hin : Within data input) {nibbleCount : Nat}
    (hcount : nibbleCount < 2 ^ width) : Ends (decodePartial width nibbleCount) input
      (fun partialKey t => partialKey.bytes.InBounds data.length ∧ Within data t)
      (fun _ _ => True) := by
  have hdata := hin.data_eq
  have hhalf : nibbleCount / 2 + nibbleCount % 2 ≤ 2 ^ (width - 1) := by
    have hdouble : 2 ^ width = 2 * 2 ^ (width - 1) := by
      rcases h.pointer with rfl | rfl <;> norm_num
    omega
  have htake : Ends (take width (nibbleCount / 2 + nibbleCount % 2) >>= fun bytes =>
      pure (⟨bytes, nibbleCount % 2⟩ : NibbleSlicePlan)) input
      (fun partialKey t => partialKey.bytes.InBounds data.length ∧ Within data t)
      (fun _ _ => True) := by
    refine .seq (take_ends hin (h.sum_lt hin.offset_le hhalf)) ?_
    rintro bytes t ⟨hbytes, ht, -⟩
    exact ⟨hbytes, ht⟩
  unfold decodePartial
  refine .get_bind ?_
  dsimp only
  rw [succ_mod h hin]
  split
  · exact .throw_bind trivial
  · rename_i hlen
    rw [List.getElem?_eq_getElem (by omega)]
    split
    · refine .pure_bind ?_
      split
      · exact .throw_bind trivial
      · exact htake
    · exact htake

theorem decodeBitmap_ends (hin : Within data input) : Ends (decodeBitmap width) input
    (fun _ t => Within data t) (fun _ _ => True) := by
  refine .seq (take_ends hin (h.sum_lt hin.offset_le (h.small_le le_rfl))) ?_
  rintro range t ⟨hrange, ht, -⟩
  refine .get_bind ?_
  have hslice : slice t.data range =
      some ((t.data.drop range.start).take (range.stop - range.start)) := by
    unfold slice
    rw [ht.data_eq]
    exact if_pos hrange
  rw [hslice]
  refine .pure_bind ?_
  unfold Bitmap.decode
  dsimp only
  split
  · exact .throw_bind trivial
  · exact ht

omit h in
theorem decodeIf_ends {α : Type} {decoder : Decoder α} {Q : α → ByteSliceInput → Prop}
    (hdecoder : Ends decoder input Q fun _ _ => True) :
    Ends (decodeIf true decoder) input (fun a t => ∃ b, a = some b ∧ Q b t) fun _ _ => True :=
  Ends.seq hdecoder fun b _ hb => ⟨b, rfl, hb⟩

/-! ## Lengths that fit -/

theorem takeAnnounced_ends (hin : Within data input) {count : Nat} (hcount : count < 2 ^ width) :
    Ends (take width count) input
      (fun range t => (range.InBounds data.length ↔ input.offset + count < 2 ^ width) ∧
        Within data t ∧
        (input.offset + count < 2 ^ width → t = { input with offset := input.offset + count }))
      (fun _ _ => True) := by
  by_cases hfit : input.offset + count < 2 ^ width
  · refine (take_ends hin hfit).imp ?_
    rintro range t ⟨hrange, ht, heq⟩
    exact ⟨iff_of_true hrange hfit, ht, fun _ => heq⟩
  · have hdata := hin.data_eq
    have hoffset := hin.offset_le
    have hlt := h.sum_lt hoffset (Nat.zero_le _)
    have hmod : (input.offset + count) % 2 ^ width = input.offset + count - 2 ^ width := by
      rw [Nat.mod_eq_sub_mod (by omega), Nat.mod_eq_of_lt (by omega)]
    unfold take
    refine .get_bind ?_
    dsimp only
    rw [hmod]
    split
    · exact .throw_bind trivial
    · refine ⟨iff_of_false (fun hrange => ?_) hfit, ⟨hdata, ?_⟩, fun hlt => absurd hlt hfit⟩
      · have hle : input.offset ≤ input.offset + count - 2 ^ width := hrange.1
        omega
      · show input.offset + count - 2 ^ width ≤ data.length
        omega

variable (hcodec : codec.Lawful)
include hcodec

theorem inline_ends {α : Type} (hin : Within data input)
    (next : ByteSliceInput → List (Nat × Nat)) (make : Nat → Range → α) :
    Ends (readCompact codec >>= fun count => take width count >>= fun range =>
        pure (make count range)) input
      (fun a t => ∃ count range, a = make count range ∧ Within data t ∧
        (Fit width (announced codec input next) ↔
          range.InBounds data.length ∧ Fit width (next t))) (fun _ _ => True) := by
  have hdata := hin.data_eq
  have hread : Ends (readCompact codec) input (fun count t => ∃ rest,
      codec.decode (input.data.drop input.offset) = some (count, rest) ∧
        t = { input with offset := input.data.length - rest.length }) (fun _ _ => True) := by
    unfold readCompact
    refine .get_bind ?_
    cases hdecode : codec.decode (input.data.drop input.offset) with
    | none => exact .throw trivial
    | some pair => exact ⟨pair.2, rfl, rfl⟩
  refine .seq hread ?_
  rintro count t ⟨rest, hdecode, rfl⟩
  have hstart : Within data { input with offset := input.data.length - rest.length } :=
    ⟨hdata, by rw [hdata]; exact Nat.sub_le ..⟩
  have hcount : count < 2 ^ width := by
    refine (hcodec.minimal _ _ _ hdecode).1.trans_le ?_
    rcases h.pointer with rfl | rfl <;> norm_num
  refine .seq (takeAnnounced_ends h hstart hcount) ?_
  rintro range t ⟨hrange, ht, hnext⟩
  refine ⟨count, range, rfl, ht, ?_⟩
  unfold announced
  rw [hdecode, hrange]
  dsimp only at hnext ⊢
  rw [Fit, List.forall_mem_cons]
  refine and_congr_right fun hfit => ?_
  have hle := ht.offset_le
  rw [hnext hfit] at hle ⊢
  rw [if_pos (by rw [hdata] at hle ⊢; exact hle)]
  rfl

omit hcodec in
theorem hashed_ends (hin : Within data input) :
    Ends (decodeValue width hashLength codec true) input
      (fun value t => value.range.InBounds data.length ∧ Within data t ∧
        (take width hashLength).run input = .ok value.range t) (fun _ _ => True) := by
  refine .seq (take_ends hin (h.sum_lt hin.offset_le h.hash_lt.le)).run_eq ?_
  rintro range t ⟨⟨hrange, ht, -⟩, hrun⟩
  exact ⟨hrange, ht, hrun⟩

theorem decodeChildren_ends (hin : Within data input) {bitmap : Bitmap} {indices : List Nat} :
    Ends (decodeChildren width hashLength codec bitmap indices) input
      (fun children t => ((∀ child ∈ children, ∀ handle ∈ child,
          (NodeHandlePlan.range handle).InBounds data.length) ↔
        Fit width (childLengths codec bitmap indices input)) ∧ Within data t)
      (fun _ _ => True) := by
  induction indices generalizing input with
  | nil => exact ⟨iff_of_true nofun nofun, hin⟩
  | cons i rest ih =>
    have hrest : ∀ (child : Option NodeHandlePlan) (t : ByteSliceInput), Within data t →
        Ends (decodeChildren width hashLength codec bitmap rest >>= fun children =>
          pure (child :: children)) t
          (fun children t' => ((∀ child ∈ children, ∀ handle ∈ child,
              (NodeHandlePlan.range handle).InBounds data.length) ↔
            (∀ handle ∈ child, handle.range.InBounds data.length) ∧
              Fit width (childLengths codec bitmap rest t)) ∧ Within data t')
          (fun _ _ => True) := by
      intro child t ht
      refine .seq (ih ht) ?_
      rintro children u ⟨hchildren, hu⟩
      exact ⟨by rw [List.forall_mem_cons, hchildren], hu⟩
    unfold childLengths
    cases hvalue : bitmap.valueAt i with
    | true =>
      rw [decodeChildren, hvalue, if_pos rfl]
      refine .seq (decodeIf_ends (inline_ends h hcodec hin (childLengths codec bitmap rest)
        fun count range =>
          if count = hashLength then NodeHandlePlan.hash range else .inline range)) ?_
      rintro child t ⟨handle, rfl, count, range, rfl, ht, hfit⟩
      rw [hfit]
      refine (hrest _ t ht).imp fun children u hpost => ?_
      simp only [Option.mem_some_iff, forall_eq'] at hpost
      split_ifs at hpost <;> exact hpost
    | false =>
      rw [decodeChildren, hvalue, if_neg (by decide)]
      refine (hrest none input hin).imp fun children u hpost => ?_
      simpa using hpost

end Parts

/-! ## Whole nodes -/

/-- The lengths that the program returns fit. -/
def FitFrom (width : Nat) (program : Decoder (List (Nat × Nat))) (input : ByteSliceInput) : Prop :=
  ∀ lengths t, program.run input = .ok lengths t → Fit width lengths

theorem fitFrom_bind {width : Nat} {α : Type} {program : Decoder α}
    {rest : α → Decoder (List (Nat × Nat))} {input t : ByteSliceInput} {a : α}
    (hrun : program.run input = .ok a t) :
    FitFrom width (program >>= rest) input ↔ FitFrom width (rest a) t := by
  unfold FitFrom
  rw [run_bind_of_ok hrun]

theorem fitFrom_of_ok {width : Nat} {program : Decoder (List (Nat × Nat))}
    {input t : ByteSliceInput} {lengths : List (Nat × Nat)}
    (hrun : program.run input = .ok lengths t) :
    FitFrom width program input ↔ Fit width lengths := by
  unfold FitFrom
  rw [hrun]
  exact ⟨fun hfit => hfit _ _ rfl, fun hfit _ _ heq => by cases heq; exact hfit⟩

section Nodes

variable {width hashLength : Nat} {codec : CompactCodec} {data : List UInt8}
  {input : ByteSliceInput} (h : Addressable width hashLength data) (hin : Within data input)
include h hin

variable {nibbleCount : Nat}

theorem decodeLeaf_ends (hcodec : codec.Lawful) (hcount : nibbleCount < 2 ^ width)
    (containsHash : Bool) :
    Ends (decodeLeaf width hashLength codec nibbleCount containsHash) input
      (fun plan _ => (∀ range ∈ plan.ranges, range.InBounds data.length) ↔
        (containsHash = false → FitFrom width (do
          let _ ← decodePartial width nibbleCount
          return announced codec (← get) fun _ => []) input)) (fun _ _ => True) := by
  refine .seq (decodePartial_ends h hin hcount).run_eq ?_
  rintro partialKey t ⟨⟨hkey, ht⟩, hrun⟩
  have hvalue : Ends (decodeValue width hashLength codec containsHash) t
      (fun value _ => value.range.InBounds data.length ↔
        (containsHash = false → Fit width (announced codec t fun _ => []))) (fun _ _ => True) := by
    cases containsHash with
    | true =>
      exact (hashed_ends h ht).imp fun _ _ hvalue => iff_of_true hvalue.1 nofun
    | false =>
      refine (inline_ends h hcodec ht (fun _ => []) fun _ range => ValuePlan.inline range).imp ?_
      rintro value u ⟨count, range, rfl, -, hfit⟩
      rw [hfit]
      exact ⟨fun hrange _ => ⟨hrange, nofun⟩, fun hboth => (hboth rfl).1⟩
  refine .seq hvalue fun value u hvalue => ?_
  have hfits : FitFrom width (do return announced codec (← get) fun _ => []) t ↔
      Fit width (announced codec t fun _ => []) := fitFrom_of_ok rfl
  rw [fitFrom_bind hrun, hfits, ← hvalue]
  show (∀ range ∈ [partialKey.bytes, value.range], _) ↔ _
  simp [hkey]

theorem branchFront_ends (hcount : nibbleCount < 2 ^ width) :
    Ends (branchFront width nibbleCount) input (fun _ t => Within data t) (fun _ _ => True) :=
  Ends.seq (decodePartial_ends h hin hcount)
    fun _ _ hkey => decodeBitmap_ends h hkey.2

theorem decodeBranch_ends (hcodec : codec.Lawful) (hcount : nibbleCount < 2 ^ width)
    {hasValue containsHash : Bool} {lengths : Bitmap → Decoder (List (Nat × Nat))}
    (hvalue : ∀ bitmap t, Within data t →
      Ends (decodeIf hasValue (decodeValue width hashLength codec containsHash)) t
        (fun value u => Within data u ∧ (FitFrom width (lengths bitmap) t ↔
          (∀ plan ∈ value, (ValuePlan.range plan).InBounds data.length) ∧
            Fit width (childLengths codec bitmap (List.range 16) u)))
        (fun _ _ => True)) :
    Ends (decodeBranch width hashLength codec nibbleCount hasValue containsHash) input
      (fun plan _ => (∀ range ∈ plan.ranges, range.InBounds data.length) ↔
        FitFrom width (branchFront width nibbleCount >>= lengths) input) (fun _ _ => True) := by
  refine .seq (decodePartial_ends h hin hcount).run_eq ?_
  rintro partialKey t ⟨⟨hkey, ht⟩, hrun⟩
  refine .seq (decodeBitmap_ends h ht).run_eq ?_
  rintro bitmap u ⟨hu, hbitmap⟩
  rw [branchFront, bind_assoc, fitFrom_bind hrun, fitFrom_bind hbitmap]
  refine .seq (hvalue bitmap u hu) ?_
  rintro value v ⟨hv, hfit⟩
  refine .seq (decodeChildren_ends h hcodec hv) ?_
  rintro children w ⟨hchildren, -⟩
  rw [hfit, ← hchildren]
  have hranges : (∀ range ∈ (NodePlan.nibbledBranch partialKey value children).ranges,
      range.InBounds data.length) ↔
      (∀ plan ∈ value, (ValuePlan.range plan).InBounds data.length) ∧
        ∀ child ∈ children, ∀ handle ∈ child,
          (NodeHandlePlan.range handle).InBounds data.length := by
    simp only [NodePlan.ranges, List.forall_mem_cons, List.forall_mem_append, List.forall_mem_map,
      Option.mem_toList, List.mem_filterMap, Option.map_eq_some_iff, hkey, true_and]
    refine and_congr_right fun _ => ⟨fun hall child hchild handle hhandle => ?_, ?_⟩
    · exact hall _ ⟨child, hchild, handle, hhandle, rfl⟩
    · rintro hall _ ⟨child, hchild, handle, hhandle, rfl⟩
      exact hall child hchild handle hhandle
  exact hranges

theorem decodePlan_ends (hcodec : codec.Lawful) :
    Ends (decodePlan width hashLength codec) input
      (fun plan _ => (∀ range ∈ plan.ranges, range.InBounds data.length) ↔
        FitFrom width (readLengths codec width hashLength) input) (fun _ _ => True) := by
  refine .seq (header_ends h hin).run_eq ?_
  rintro header t ⟨⟨ht, hcount⟩, hrun⟩
  unfold readLengths
  rw [fitFrom_bind hrun]
  cases header with
  | null => exact iff_of_true nofun ((fitFrom_of_ok rfl).mpr nofun)
  | leaf nibbleCount =>
    refine (decodeLeaf_ends h ht hcodec hcount false).imp fun _ _ hleaf => ?_
    exact hleaf.trans ⟨fun hfit => hfit rfl, fun hfit _ => hfit⟩
  | hashedValueLeaf nibbleCount =>
    refine (decodeLeaf_ends h ht hcodec hcount true).imp fun _ _ hleaf => ?_
    exact iff_of_true (hleaf.mpr nofun) ((fitFrom_of_ok rfl).mpr nofun)
  | branch hasValue nibbleCount =>
    refine decodeBranch_ends h ht hcodec hcount fun bitmap u hu => ?_
    cases hasValue with
    | false => exact ⟨hu, (fitFrom_of_ok rfl).trans (by simp)⟩
    | true =>
      refine (decodeIf_ends (inline_ends h hcodec hu (childLengths codec bitmap (List.range 16))
        fun _ range => ValuePlan.inline range)).imp ?_
      rintro value v ⟨plan, rfl, count, range, rfl, hv, hfit⟩
      refine ⟨hv, (fitFrom_of_ok rfl).trans ?_⟩
      simp [hfit, ValuePlan.range]
  | hashedValueBranch nibbleCount =>
    refine decodeBranch_ends h ht hcodec hcount fun bitmap u hu => ?_
    refine (decodeIf_ends (hashed_ends h hu)).imp ?_
    rintro value v ⟨plan, rfl, hrange, hv, htake⟩
    refine ⟨hv, (fitFrom_bind htake).trans ((fitFrom_of_ok rfl).trans ?_)⟩
    simp [hrange]

end Nodes

/-! ## Lengths with 64 bits -/

variable {codec : CompactCodec}

theorem fit_nil {width : Nat} : Fit width [] := fun _ hmem => absurd hmem List.not_mem_nil

theorem announced_fit (hcodec : codec.Lawful) (hdata : data.length < 2 ^ 63)
    {input : ByteSliceInput} (hin : Within data input) {next : ByteSliceInput → List (Nat × Nat)}
    (hnext : ∀ t, Within data t → Fit 64 (next t)) : Fit 64 (announced codec input next) := by
  unfold announced
  split
  · exact fit_nil
  · rename_i count rest hdecode
    have hcount := (hcodec.minimal _ _ _ hdecode).1
    have hlength : input.data.length = data.length := by rw [hin.data_eq]
    intro length hmem
    rcases List.mem_cons.mp hmem with rfl | hmem
    · dsimp only
      omega
    · split at hmem
      · rename_i hle
        exact hnext { input with offset := input.data.length - rest.length + count }
          ⟨hin.data_eq, by rw [← hlength]; exact hle⟩ length hmem
      · exact fit_nil length hmem

theorem childLengths_fit (hcodec : codec.Lawful) (hdata : data.length < 2 ^ 63) (bitmap : Bitmap)
    (indices : List Nat) (input : ByteSliceInput) (hin : Within data input) :
    Fit 64 (childLengths codec bitmap indices input) := by
  induction indices generalizing input with
  | nil => exact fit_nil
  | cons i rest ih =>
    unfold childLengths
    split
    · exact announced_fit hcodec hdata hin ih
    · exact ih input hin

theorem readLengths_fit (hcodec : codec.Lawful) {hashLength : Nat}
    (h : Addressable 64 hashLength data) {input : ByteSliceInput} (hin : Within data input) :
    FitFrom 64 (readLengths codec 64 hashLength) input := by
  have hdata := h.data_lt
  have hends : Ends (readLengths codec 64 hashLength) input (fun lengths _ => Fit 64 lengths)
      (fun _ _ => True) := by
    refine .seq (header_ends h hin) ?_
    rintro header t ⟨ht, hcount⟩
    have hchildren := fun bitmap => childLengths_fit hcodec hdata bitmap (List.range 16)
    cases header with
    | null => exact fit_nil
    | hashedValueLeaf => exact fit_nil
    | leaf nibbleCount =>
      refine .seq (decodePartial_ends h ht hcount) ?_
      rintro partialKey u ⟨-, hu⟩
      exact announced_fit hcodec hdata hu fun _ _ => fit_nil
    | branch hasValue nibbleCount =>
      refine .seq (branchFront_ends h ht hcount) fun bitmap u hu => ?_
      cases hasValue with
      | true => exact announced_fit hcodec hdata hu (hchildren bitmap)
      | false => exact hchildren bitmap u hu
    | hashedValueBranch nibbleCount =>
      refine .seq (branchFront_ends h ht hcount) fun bitmap u hu => ?_
      refine .seq (take_ends hu (h.sum_lt hu.offset_le h.hash_lt.le)) ?_
      rintro range v ⟨-, hv, -⟩
      exact hchildren bitmap v hv
  intro lengths t hrun
  unfold Ends at hends
  rw [hrun] at hends
  exact hends

/-! ## All data -/

/-- Decoding ends without a panic, and the ranges of a plan that it returns lie inside the data
exactly where `usize` has 64 bits or no announced length wraps around. -/
theorem decodePlan_inBounds {width hashLength : Nat} {codec : CompactCodec}
    (hcodec : codec.Lawful) (data : List UInt8) (h : Addressable width hashLength data) :
    Ends (decodePlan width hashLength codec) (.new data)
      (fun plan _ => (∀ range ∈ plan.ranges, range.start ≤ range.stop ∧
          range.stop ≤ data.length) ↔
        width = 64 ∨ Fit width (announcedLengths codec width hashLength data))
      (fun _ _ => True) := by
  have hin : Within data (.new data) := ⟨rfl, Nat.zero_le _⟩
  have hfits : FitFrom width (readLengths codec width hashLength) (.new data) ↔
      Fit width (announcedLengths codec width hashLength data) := by
    unfold announcedLengths
    cases hrun : (readLengths codec width hashLength).run (.new data) with
    | ok lengths t => exact fitFrom_of_ok hrun
    | error _ _ => exact iff_of_true (fun _ _ heq => by rw [hrun] at heq; cases heq) nofun
  refine (decodePlan_ends h hin hcodec).imp fun plan _ hplan => ?_
  refine hplan.trans ⟨fun hfit => .inr (hfits.mp hfit), ?_⟩
  rintro (rfl | hfit)
  · exact readLengths_fit hcodec h hin
  · exact hfits.mpr hfit

theorem decodePlan_inBounds_leaf :
    Ends (decodePlan 32 32 scaleCompact) (.new [0x40, 4, 7])
      (fun plan _ => ∀ range ∈ plan.ranges, range.start ≤ range.stop ∧ range.stop ≤ 3)
      (fun _ _ => True) :=
  (decodePlan_inBounds StateMachine.scaleCompact_lawful [0x40, 4, 7]
    ⟨.inl rfl, by decide, by decide⟩).mono
      (fun _ _ hplan => hplan.mpr (.inr (by unfold Fit; decide))) fun _ _ _ => trivial

/-- With 32 bits the value of a leaf that announces `u32::MAX` bytes ends before it starts. -/
theorem decodePlan_reversed_range :
    Addressable 32 32 [0x40, 0x03, 0xFF, 0xFF, 0xFF, 0xFF] ∧
      (decodePlan 32 32 scaleCompact).run (.new [0x40, 0x03, 0xFF, 0xFF, 0xFF, 0xFF]) =
        .ok (.leaf ⟨⟨1, 1⟩, 0⟩ (.inline ⟨6, 5⟩)) ⟨[0x40, 0x03, 0xFF, 0xFF, 0xFF, 0xFF], 5⟩ ∧
      ⟨6, 5⟩ ∈ (NodePlan.leaf ⟨⟨1, 1⟩, 0⟩ (.inline ⟨6, 5⟩)).ranges ∧
      ¬ (Range.mk 6 5).start ≤ (Range.mk 6 5).stop :=
  ⟨⟨.inl rfl, by decide, by decide⟩, rfl, by decide, by decide⟩

end PolkadotSdk.Trie
