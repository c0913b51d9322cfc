import PolkadotSdk.ForkTree.Forest

/-! # The search for the deepest ancestor

The depth-first search keeps a stack of nodes, each with the index of its next child, and
turns round at the first ancestor of the block it meets. On a forest in which the ancestors
of the block lie on one path from a root, this is the deepest ancestor, and climbing back up
the stack visits exactly that path.
-/

namespace PolkadotSdk.ForkTree

variable {H N V E : Type}

/-! ## The path of ancestors -/

section Lineage

variable (ancestor : H → Bool)

mutual

def Node.lineage : Node H N V → List (Nat × Node H N V)
  | ⟨_, _, _, children⟩ => lineageFrom children 0

def lineageFrom : List (Node H N V) → Nat → List (Nat × Node H N V)
  | [], _ => []
  | node :: rest, i =>
    if ancestor node.hash then (i, node) :: node.lineage else lineageFrom rest (i + 1)

end

@[simp] theorem lineageFrom_nil (i : Nat) :
    lineageFrom ancestor ([] : List (Node H N V)) i = [] := rfl

theorem lineageFrom_cons (node : Node H N V) (rest : List (Node H N V)) (i : Nat) :
    lineageFrom ancestor (node :: rest) i =
      if ancestor node.hash then (i, node) :: lineageFrom ancestor node.children 0
      else lineageFrom ancestor rest (i + 1) := by
  cases node
  rfl

variable (predicate : V → Bool)

def deepestBelow : Node H N V → List (Nat × Node H N V) → Option (List Nat)
  | node, [] => if predicate node.data then some [] else none
  | node, (i, child) :: rest =>
    match deepestBelow child rest with
    | some path => some (i :: path)
    | none => if predicate node.data then some [] else none

def deepest : List (Nat × Node H N V) → Option (List Nat)
  | [] => none
  | (i, node) :: rest => (deepestBelow predicate node rest).map (i :: ·)

/-- The ancestors among the nodes of the forest are below the block and lie on one path. -/
inductive Lineal [LT N] (number : N) : List (Node H N V) → Prop
  | nil : Lineal number []
  | cons {node rest} (below : ancestor node.hash = true → node.number < number)
      (upward : ancestor node.hash = false → ∀ x ∈ nodesOf node.children, ancestor x.hash = false)
      (children : Lineal number node.children)
      (single : ancestor node.hash = true → ∀ x ∈ nodesOf rest, ancestor x.hash = false)
      (others : Lineal number rest) : Lineal number (node :: rest)

end Lineage

/-! ## The loop -/

section Loop

variable [LinearOrder N] {hash : H} {number : N} {isDescendentOf : H → H → Except E Bool}
  {predicate : V → Bool} {ancestor : H → Bool}

theorem findLoop_mono {fuel fuel' : Nat} (h : fuel ≤ fuel') {stack : List (Node H N V × Nat)}
    {isDescendent : Bool} {r : Except (Error E) (Bool × Bool × List (Node H N V × Nat))}
    (hr : findLoop hash number isDescendentOf predicate fuel stack isDescendent = some r) :
    findLoop hash number isDescendentOf predicate fuel' stack isDescendent = some r := by
  induction fuel generalizing fuel' stack isDescendent with
  | zero => simp [findLoop] at hr
  | succ fuel ih =>
    obtain ⟨fuel', rfl⟩ : ∃ k, fuel' = k + 1 := ⟨fuel' - 1, by omega⟩
    have hle : fuel ≤ fuel' := by omega
    match stack with
    | [] => exact hr
    | (node, i) :: stack =>
      simp only [findLoop] at hr ⊢
      split at hr
      · split_ifs at hr ⊢ with hchild <;> exact ih hle hr
      · split at hr
        · exact hr
        · split_ifs at hr ⊢ with hpredicate
          · exact hr
          · exact ih hle hr
        · exact ih hle hr

private theorem drop_eq_cons {α : Type} {xs rest : List α} {x : α} {i : Nat}
    (h : xs.drop i = x :: rest) : xs[i]? = some x ∧ xs.drop (i + 1) = rest := by
  constructor
  · have hhead : (xs.drop i)[0]? = some x := by simp [h]
    simpa [List.getElem?_drop] using hhead
  · simpa using congrArg List.tail h

theorem findLoop_skip (hanswer : ∀ x, isDescendentOf x hash = .ok (ancestor x))
    (forest : List (Node H N V)) : ∀ {node : Node H N V} {i : Nat}
      {stack : List (Node H N V × Nat)} {fuel : Nat}
      {r : Except (Error E) (Bool × Bool × List (Node H N V × Nat))},
      node.children.drop i = forest → ancestor node.hash = false →
      (∀ x ∈ nodesOf forest, ancestor x.hash = false) →
      findLoop hash number isDescendentOf predicate fuel stack false = some r →
      findLoop hash number isDescendentOf predicate (fuel + 2 * size forest + 1)
        ((node, i) :: stack) false = some r := by
  induction forest using forest_induction with
  | nil =>
    intro node i stack fuel r hdrop hnode _ hr
    have hnone : node.children[i]? = none := by
      simpa [List.getElem?_eq_none_iff] using hdrop
    simpa [findLoop, hnone, hanswer, hnode] using hr
  | cons child rest ihChildren ihRest =>
    intro node i stack fuel r hdrop hnode hnone hr
    obtain ⟨hget, hrest⟩ := drop_eq_cons hdrop
    have hnext := ihRest hrest hnode (fun x hx => hnone x (by simp [hx])) hr
    simp only [findLoop, Bool.false_eq_true, if_false, hget]
    split_ifs with hchild
    · have hsub := ihChildren (List.drop_zero) (hnone child (by simp))
        (fun x hx => hnone x (by simp [hx])) hnext
      refine findLoop_mono ?_ hsub
      simp only [size_cons]
      omega
    · refine findLoop_mono ?_ hnext
      simp only [size_cons]
      omega

def indices (stack : List (Node H N V × Nat)) : List Nat :=
  stack.reverse.map fun (_, i) => i - 1

omit [LinearOrder N] in
theorem indices_cons (node : Node H N V) (i : Nat) (stack : List (Node H N V × Nat)) :
    indices ((node, i) :: stack) = indices stack ++ [i - 1] := by
  simp [indices]

/-- With a path, the stack that is left spells it below `stack`; without one, the loop goes on from
`stack`. -/
def Delivers (loop next : Outcome E (Bool × Bool × List (Node H N V × Nat)))
    (stack : List (Node H N V × Nat)) : Option (List Nat) → Prop
  | some path =>
    ∃ left, loop = some (.ok (true, true, left)) ∧ indices left = indices stack ++ path
  | none => ∀ r, next = some r → loop = some r

omit [LinearOrder N] in
theorem Delivers.imp {loop loop' next next' : Outcome E (Bool × Bool × List (Node H N V × Nat))}
    {stack : List (Node H N V × Nat)} {found : Option (List Nat)}
    (h : Delivers loop next stack found) (hloop : ∀ r, loop = some r → loop' = some r)
    (hnext : ∀ r, next' = some r → next = some r) : Delivers loop' next' stack found := by
  cases found with
  | none => exact fun r hr => hloop r (h r (hnext r hr))
  | some path =>
    obtain ⟨left, hleft, hindices⟩ := h
    exact ⟨left, hloop _ hleft, hindices⟩

/-- Once an ancestor was met, the frame on top is checked against the predicate. -/
theorem findLoop_climb (node : Node H N V) (i fuel : Nat) (stack : List (Node H N V × Nat)) :
    Delivers (findLoop hash number isDescendentOf predicate (fuel + 1) ((node, i) :: stack) true)
      (findLoop hash number isDescendentOf predicate fuel stack true) stack
      (if predicate node.data then some [] else none) := by
  cases hdata : predicate node.data with
  | true => exact ⟨stack, by simp [findLoop, hdata], by simp⟩
  | false =>
    intro r hr
    simpa [findLoop, hdata] using hr

section

variable (hanswer : ∀ x, isDescendentOf x hash = .ok (ancestor x))
include hanswer

/-- From a frame whose node is an ancestor the loop finds the deepest ancestor that passes the
predicate, or climbs on. -/
theorem findLoop_hit (forest : List (Node H N V)) : ∀ {node : Node H N V} {i : Nat}
      (stack : List (Node H N V × Nat)) (fuel : Nat),
      node.children.drop i = forest → ancestor node.hash = true →
      Lineal ancestor number forest →
      Delivers
        (findLoop hash number isDescendentOf predicate (fuel + 2 * size forest + 1)
          ((node, i) :: stack) false)
        (findLoop hash number isDescendentOf predicate fuel stack true) stack
        (deepestBelow predicate node (lineageFrom ancestor forest i)) := by
  induction forest using forest_induction with
  | nil =>
    intro node i stack fuel hdrop hnode _
    have hnone : node.children[i]? = none := by
      simpa [List.getElem?_eq_none_iff] using hdrop
    cases hdata : predicate node.data with
    | true => simp [findLoop, hnone, hanswer, hnode, deepestBelow, hdata, Delivers]
    | false => simp [findLoop, hnone, hanswer, hnode, deepestBelow, hdata, Delivers]
  | cons child rest ihChildren ihRest =>
    intro node i stack fuel hdrop hnode hlineal
    obtain ⟨hget, hrest⟩ := drop_eq_cons hdrop
    cases hlineal with
    | cons below upward children single others =>
    rw [lineageFrom_cons]
    cases hchild : ancestor child.hash with
    | true =>
      have hsub := ihChildren ((node, i + 1) :: stack) (fuel + 2 * size rest + 1)
        List.drop_zero hchild children
      have hstep : ∀ r, findLoop hash number isDescendentOf predicate
          (fuel + 2 * size rest + 1 + 2 * size child.children + 1)
            ((child, 0) :: (node, i + 1) :: stack) false = some r →
          findLoop hash number isDescendentOf predicate
            (fuel + 2 * size (child :: rest) + 1) ((node, i) :: stack) false = some r := by
        intro r hr
        simp only [findLoop, Bool.false_eq_true, if_false, hget, if_pos (below hchild)]
        refine findLoop_mono ?_ hr
        simp only [size_cons]
        omega
      simp only [if_true, deepestBelow]
      cases hfound : deepestBelow predicate child (lineageFrom ancestor child.children 0) with
      | some path =>
        rw [hfound] at hsub
        obtain ⟨left, hleft, hindices⟩ := hsub
        exact ⟨left, hstep _ hleft, by simp [hindices, indices_cons]⟩
      | none =>
        rw [hfound] at hsub
        refine (findLoop_climb node (i + 1) (fuel + 2 * size rest) stack).imp
          (fun r hr => hstep r (hsub r hr)) ?_
        exact fun r hr => findLoop_mono (Nat.le_add_right _ _) hr
    | false =>
      simp only [Bool.false_eq_true, if_false]
      refine (ihRest stack fuel hrest hnode others).imp ?_ (fun _ hr => hr)
      intro r hr
      simp only [findLoop, Bool.false_eq_true, if_false, hget]
      split_ifs with hnumber
      · refine findLoop_mono ?_ (findLoop_skip hanswer child.children List.drop_zero hchild
          (upward hchild) hr)
        simp only [size_cons]
        omega
      · refine findLoop_mono ?_ hr
        simp only [size_cons]
        omega

/-- The search returns the path to the deepest ancestor that passes the predicate. -/
theorem findRoots_eq
    {roots : List (Node H N V)} (hlineal : Lineal ancestor number roots) (rootIdx : Nat) :
    findRoots hash number isDescendentOf predicate rootIdx roots =
      some (.ok (deepest predicate (lineageFrom ancestor roots rootIdx))) := by
  induction roots generalizing rootIdx with
  | nil => rfl
  | cons root rest ih =>
    cases hlineal with
    | cons below upward children single others =>
    have hfuel : 2 * size [root] = 1 + 2 * size root.children + 1 := by
      simp only [size_cons, size_nil]
      omega
    rw [lineageFrom_cons]
    cases hroot : ancestor root.hash with
    | true =>
      have hloop : Delivers
          (findLoop hash number isDescendentOf predicate (1 + 2 * size root.children + 1)
            [(root, 0)] false)
          (findLoop hash number isDescendentOf predicate 1 [] true) []
          (deepestBelow predicate root (lineageFrom ancestor root.children 0)) :=
        findLoop_hit hanswer root.children [] 1 List.drop_zero hroot children
      simp only [if_true, deepest, findRoots, if_neg (not_le.mpr (below hroot)), hfuel]
      cases hfound : deepestBelow predicate root (lineageFrom ancestor root.children 0) with
      | some path =>
        rw [hfound] at hloop
        obtain ⟨left, hleft, hindices⟩ := hloop
        have hpath : left.reverse.map (fun (_, i) => i - 1) = path := by
          simpa [indices] using hindices
        rw [hleft]
        simp [hpath]
      | none =>
        rw [hfound] at hloop
        rw [hloop _ rfl]
        rfl
    | false =>
      simp only [Bool.false_eq_true, if_false, findRoots]
      split_ifs with hnumber
      · exact ih others _
      · have hskip : findLoop hash number isDescendentOf predicate
            (1 + 2 * size root.children + 1) [(root, 0)] false = some (.ok (false, false, [])) :=
          findLoop_skip hanswer root.children List.drop_zero hroot (upward hroot) rfl
        rw [hfuel, hskip]
        simpa using ih others _

theorem findNodeIndexWhere_eq {roots : List (Node H N V)} (hlineal : Lineal ancestor number roots) :
    findNodeIndexWhere hash number isDescendentOf predicate roots =
      some (.ok (deepest predicate (lineageFrom ancestor roots 0))) :=
  findRoots_eq hanswer hlineal 0

end

end Loop

/-! ## What the search finds -/

section Found

variable {ancestor : H → Bool} {predicate : V → Bool}

variable {roots : List (Node H N V)}

theorem lineageFrom_eq_cons {i j : Nat} {node : Node H N V} {below : List (Nat × Node H N V)}
    (h : lineageFrom ancestor roots i = (j, node) :: below) :
    ∃ before after, roots = before ++ node :: after ∧ j = i + before.length ∧
      ancestor node.hash = true ∧ below = lineageFrom ancestor node.children 0 := by
  induction roots generalizing i with
  | nil => simp at h
  | cons root rest ih =>
    rw [lineageFrom_cons] at h
    split_ifs at h with hroot
    · obtain ⟨⟨rfl, rfl⟩, rfl⟩ : (i = j ∧ root = node) ∧ _ = below := by simpa using h
      exact ⟨[], rest, rfl, by simp, hroot, rfl⟩
    · obtain ⟨before, after, rfl, rfl, hnode, hbelow⟩ := ih h
      exact ⟨root :: before, after, rfl, by simp; omega, hnode, hbelow⟩

theorem lineageFrom_eq_nil {i : Nat} (h : lineageFrom ancestor roots i = []) :
    ∀ root ∈ roots, ancestor root.hash = false := by
  induction roots generalizing i with
  | nil => simp
  | cons root rest ih =>
    rw [lineageFrom_cons] at h
    split_ifs at h with hroot
    intro x hx
    rcases List.mem_cons.mp hx with rfl | hx
    · simpa using hroot
    · exact ih h x hx

theorem deepestBelow_eq (node : Node H N V) (below : List (Nat × Node H N V)) :
    deepestBelow predicate node below =
      (deepest predicate below).or (if predicate node.data then some [] else none) := by
  cases below with
  | nil => simp [deepestBelow, deepest]
  | cons entry rest =>
    obtain ⟨i, child⟩ := entry
    cases h : deepestBelow predicate child rest <;> simp [deepestBelow, deepest, h]

theorem nodeAt_cons {path : List Nat} (hpath : path ≠ []) (i : Nat) (roots : List (Node H N V)) :
    nodeAt (i :: path) roots = roots[i]?.bind fun node => nodeAt path node.children := by
  cases path with
  | nil => exact absurd rfl hpath
  | cons j path => rfl

namespace Lineal

variable [LT N] {number : N}

variable {roots : List (Node H N V)}

theorem no_ancestor (h : Lineal ancestor number roots)
    (hroots : ∀ root ∈ roots, ancestor root.hash = false) :
    ∀ x ∈ nodesOf roots, ancestor x.hash = false := by
  induction h with
  | nil => simp
  | cons _ upward _ _ _ _ ih =>
    intro x hx
    simp only [nodesOf_cons, List.mem_cons, List.mem_append] at hx
    rcases hx with rfl | hx | hx
    · exact hroots x (by simp)
    · exact upward (hroots _ (by simp)) x hx
    · exact ih (fun root hroot => hroots root (by simp [hroot])) x hx

theorem around {before after : List (Node H N V)} {node : Node H N V}
    (h : Lineal ancestor number (before ++ node :: after)) (hnode : ancestor node.hash = true) :
    Lineal ancestor number node.children ∧
      ∀ x ∈ nodesOf (before ++ after), ancestor x.hash = false := by
  induction before with
  | nil =>
    cases h with
    | cons _ _ children single _ => exact ⟨children, single hnode⟩
  | cons root before ih =>
    cases h with
    | cons _ upward _ single others =>
    obtain ⟨hchildren, hrest⟩ := ih others
    have hroot : ancestor root.hash = false := by
      cases hroot : ancestor root.hash with
      | false => rfl
      | true => simp [single hroot node (by simp)] at hnode
    refine ⟨hchildren, fun x hx => ?_⟩
    simp only [List.cons_append, nodesOf_cons, List.mem_cons, List.mem_append] at hx
    rcases hx with rfl | hx | hx
    · exact hroot
    · exact upward hroot x hx
    · exact hrest x hx

theorem deepest_none (h : Lineal ancestor number roots)
    (hnone : deepest predicate (lineageFrom ancestor roots 0) = none) :
    ∀ x ∈ nodesOf roots, ancestor x.hash = true → predicate x.data = false := by
  generalize hlineage : lineageFrom ancestor roots 0 = lineage at hnone
  induction lineage generalizing roots with
  | nil =>
    intro x hx hancestor
    simp [h.no_ancestor (lineageFrom_eq_nil hlineage) x hx] at hancestor
  | cons entry below ih =>
    obtain ⟨i, node⟩ := entry
    obtain ⟨before, after, rfl, rfl, hnode, rfl⟩ := lineageFrom_eq_cons hlineage
    obtain ⟨hchildren, haround⟩ := h.around hnode
    rw [deepest, deepestBelow_eq] at hnone
    simp only [Option.map_eq_none_iff, Option.or_eq_none_iff, ite_eq_right_iff, reduceCtorEq,
      imp_false, Bool.not_eq_true] at hnone
    intro x hx hancestor
    simp only [nodesOf_append, nodesOf_cons, List.mem_append, List.mem_cons] at hx
    rcases hx with hx | rfl | hx | hx
    · simp [haround x (by simp [hx])] at hancestor
    · exact hnone.2
    · exact ih hchildren rfl hnone.1 x hx hancestor
    · simp [haround x (by simp [hx])] at hancestor

/-- The path leads to an ancestor that passes the predicate, and no deeper one does. -/
theorem deepest_some (h : Lineal ancestor number roots) {path : List Nat}
    (hpath : deepest predicate (lineageFrom ancestor roots 0) = some path) :
    ∃ node, nodeAt path roots = some node ∧ node ∈ nodesOf roots ∧
      ancestor node.hash = true ∧ predicate node.data = true ∧
      ∀ x ∈ nodesOf node.children, ancestor x.hash = true → predicate x.data = false := by
  generalize hlineage : lineageFrom ancestor roots 0 = lineage at hpath
  induction lineage generalizing roots path with
  | nil => simp [deepest] at hpath
  | cons entry below ih =>
    obtain ⟨i, node⟩ := entry
    obtain ⟨before, after, rfl, rfl, hnode, rfl⟩ := lineageFrom_eq_cons hlineage
    obtain ⟨hchildren, -⟩ := h.around hnode
    have hget : (before ++ node :: after)[0 + before.length]? = some node := by simp
    rw [deepest, deepestBelow_eq, Option.map_eq_some_iff] at hpath
    obtain ⟨rest, hrest, rfl⟩ := hpath
    cases hbelow : deepest predicate (lineageFrom ancestor node.children 0) with
    | some path =>
      obtain rfl : path = rest := by simpa [hbelow] using hrest
      obtain ⟨x, hat, hmem, hx⟩ := ih hchildren rfl hbelow
      have hne : path ≠ [] := by
        rintro rfl
        simp [nodeAt] at hat
      refine ⟨x, ?_, ?_, hx⟩
      · rw [nodeAt_cons hne, hget]
        exact hat
      · exact mem_nodesOf_of_child (by simp) hmem
    | none =>
      obtain ⟨hdata, rfl⟩ : predicate node.data = true ∧ [] = rest := by
        simpa [hbelow] using hrest
      exact ⟨node, hget, by simp, hnode, hdata, hchildren.deepest_none hbelow⟩

theorem congr {ancestor' : H → Bool} (h : Lineal ancestor number roots)
    (hsame : ∀ x ∈ nodesOf roots, ancestor x.hash = ancestor' x.hash) :
    Lineal ancestor' number roots := by
  induction h with
  | nil => exact .nil
  | @cons node rest below upward _ single _ ihChildren ihRest =>
    have hnode := hsame node (by simp)
    have hchildren : ∀ x ∈ nodesOf node.children, ancestor x.hash = ancestor' x.hash :=
      fun x hx => hsame x (by simp [hx])
    have hrest : ∀ x ∈ nodesOf rest, ancestor x.hash = ancestor' x.hash :=
      fun x hx => hsame x (by simp [hx])
    refine .cons (hnode ▸ below) (fun h x hx => ?_) (ihChildren hchildren) (fun h x hx => ?_)
      (ihRest hrest)
    · exact hchildren x hx ▸ upward (hnode.trans h) x hx
    · exact hrest x hx ▸ single (hnode.trans h) x hx

end Lineal

/-- `find_node_where` returns the deepest ancestor that passes the predicate. -/
theorem findNodeWhere_spec [LinearOrder N] (predicate : V → Bool) {hash : H} {number : N}
    {isDescendentOf : H → H → Except E Bool}
    (hanswer : ∀ x, isDescendentOf x hash = .ok (ancestor x))
    (hlineal : Lineal ancestor number roots) :
    ∃ found, findNodeWhere hash number isDescendentOf predicate roots = some (.ok found) ∧
      (found = none → ∀ x ∈ nodesOf roots, ancestor x.hash = true → predicate x.data = false) ∧
      ∀ node, found = some node → node ∈ nodesOf roots ∧ ancestor node.hash = true ∧
        predicate node.data = true ∧
        ∀ x ∈ nodesOf node.children, ancestor x.hash = true → predicate x.data = false := by
  rw [findNodeWhere, findNodeIndexWhere_eq hanswer hlineal]
  cases hpath : deepest predicate (lineageFrom ancestor roots 0) with
  | none => exact ⟨none, rfl, fun _ => hlineal.deepest_none hpath, by simp⟩
  | some path =>
    obtain ⟨node, hat, hnode⟩ := hlineal.deepest_some hpath
    refine ⟨some node, by simp [Outcome.bind, hat], by simp, ?_⟩
    rintro _ ⟨⟩
    exact hnode

end Found

/-! ## Ancestors in a shaped forest -/

structure Line [LT N] (chain : Ancestry H N) (ancestor : H → Bool) (number : N) : Prop where
  upward : ∀ {a b}, chain.isDescendentOf a b = true → ancestor b = true → ancestor a = true
  chained : ∀ {a b}, ancestor a = true → ancestor b = true →
    a = b ∨ chain.isDescendentOf a b = true ∨ chain.isDescendentOf b a = true
  below : ∀ {a}, ancestor a = true → chain.number a < number

theorem Ancestry.line [LT N] (chain : Ancestry H N) (hash : H) :
    Line chain (fun x => chain.isDescendentOf x hash) (chain.number hash) where
  upward := chain.trans
  chained := chain.chain
  below := chain.number_lt

theorem Shaped.lineal [LT N] {chain : Ancestry H N} {ancestor : H → Bool} {number : N}
    {roots : List (Node H N V)} (h : Shaped chain roots) (hline : Line chain ancestor number) :
    Lineal ancestor number roots := by
  induction h with
  | nil => exact .nil
  | @cons node rest hnumber above _ separate _ ihChildren ihRest =>
    refine .cons (fun hnode => hnumber ▸ hline.below hnode) (fun hnode x hx => ?_) ihChildren
      (fun hnode x hx => ?_) ihRest
    · by_contra hancestor
      have := hline.upward (above x hx) (by simpa using hancestor)
      simp [hnode] at this
    · by_contra hancestor
      obtain ⟨hne, hdesc, hasc⟩ := separate node (by simp) x hx
      rcases hline.chained hnode (by simpa using hancestor) with heq | h | h
      · exact hne heq
      · simp [hdesc] at h
      · simp [hasc] at h

theorem andAlso_answer [LinearOrder N] {chain : Ancestry H N} (a b : H) :
    andAlso (chain.number a < chain.number b) (clientError (chain.answer E a b)) =
      .ok (chain.isDescendentOf a b) := by
  unfold andAlso Ancestry.answer clientError
  split_ifs with hnumber
  · rfl
  · cases hdescendent : chain.isDescendentOf a b with
    | false => rfl
    | true => exact absurd (chain.number_lt hdescendent) (by simpa using hnumber)

end PolkadotSdk.ForkTree
