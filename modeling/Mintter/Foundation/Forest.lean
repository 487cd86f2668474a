import Mintter.Foundation.Outcome

/-!
# Depth-first walks over a forest

A forest is given by its roots and by the list of children of every node.
`walkLoop` visits it with an explicit stack.  `preorder` is the list of nodes
in the order of that walk, for a forest whose depth is bounded.  When every
node other than the roots has one parent and the forest is finite, no node is
visited twice, a node is visited before its children, and the children of one
node are visited in their order.
-/

namespace Mintter.Foundation

variable {α β σ : Type}

/--
Visit the stack's top, push its children, and go on.  The callback stops the
walk by answering `false`.
-/
def walkLoop (kids : α → List α) (fn : σ → α → Outcome (σ × Bool)) :
    Nat → List α → σ → Outcome σ
  | _, [], state => pure state
  | 0, _ :: _, _ => .error .outOfFuel
  | fuel + 1, node :: stack, state => do
      let (state, more) ← fn state node
      if more then walkLoop kids fn fuel (kids node ++ stack) state
      else pure state

/-- The subtree below a node, cut off at the given depth. -/
def preorder (kids : α → List α) : Nat → α → List α
  | 0, node => [node]
  | depth + 1, node => node :: (kids node).flatMap (preorder kids depth)

/-- The subtree below a node has at most the given depth. -/
def DepthBound (kids : α → List α) : Nat → α → Prop
  | 0, node => kids node = []
  | depth + 1, node => ∀ child ∈ kids node, DepthBound kids depth child

/-- Looking deeper than the bound lists nothing new. -/
theorem DepthBound.preorder_succ {kids : α → List α} {depth : Nat} {node : α}
    (bound : DepthBound kids depth node) :
    preorder kids (depth + 1) node = preorder kids depth node := by
  induction depth generalizing node with
  | zero =>
      have leaf : kids node = [] := bound
      simp [preorder, leaf]
  | succ depth induction =>
      rw [preorder, preorder]
      congr 1
      refine List.flatMap_congr fun child member => ?_
      exact induction (bound child member)

theorem DepthBound.succ {kids : α → List α} {depth : Nat} {node : α}
    (bound : DepthBound kids depth node) :
    DepthBound kids (depth + 1) node := by
  induction depth generalizing node with
  | zero =>
      have leaf : kids node = [] := bound
      intro child member
      simp [leaf] at member
  | succ depth induction =>
      exact fun child member => induction (bound child member)

theorem DepthBound.child {kids : α → List α} {depth : Nat} {node child : α}
    (bound : DepthBound kids depth node) (member : child ∈ kids node) :
    DepthBound kids depth child := by
  cases depth with
  | zero =>
      have leaf : kids node = [] := bound
      simp [leaf] at member
  | succ depth => exact (bound child member).succ

theorem preorder_ne_nil (kids : α → List α) (depth : Nat) (node : α) :
    preorder kids depth node ≠ [] := by
  cases depth <;> simp [preorder]

/-- With enough fuel the stack walk visits the preorder list. -/
theorem walkLoop_eq_visit {kids : α → List α}
    (fn : σ → α → Outcome (σ × Bool)) {depth : Nat} {stack : List α}
    (bounded : ∀ node ∈ stack, DepthBound kids depth node)
    {fuel : Nat} (large : (stack.flatMap (preorder kids depth)).length ≤ fuel)
    (state : σ) :
    walkLoop kids fn fuel stack state =
      visit fn (stack.flatMap (preorder kids depth)) state := by
  induction fuel generalizing stack state with
  | zero =>
      cases stack with
      | nil => rfl
      | cons node stack =>
          have empty : preorder kids depth node = [] :=
            (by simpa using large : _ ∧ _).1
          exact absurd empty (preorder_ne_nil kids depth node)
  | succ fuel induction =>
      cases stack with
      | nil => rfl
      | cons node stack =>
          have unfolded :
              preorder kids depth node =
                node :: (kids node).flatMap (preorder kids depth) := by
            rw [← (bounded node List.mem_cons_self).preorder_succ, preorder]
          have kidsBounded :
              ∀ child ∈ kids node ++ stack, DepthBound kids depth child := by
            intro child member
            rcases List.mem_append.mp member with inKids | inStack
            · exact DepthBound.child (bounded node List.mem_cons_self) inKids
            · exact bounded child (List.mem_cons_of_mem _ inStack)
          rw [List.flatMap_cons, unfolded, List.cons_append, walkLoop, visit]
          congr 1
          funext result
          rcases result with ⟨next, more⟩
          cases more with
          | false => rfl
          | true =>
              simp only [↓reduceIte]
              rw [induction kidsBounded, List.flatMap_append]
              rw [List.flatMap_cons, unfolded] at large
              simp only [List.cons_append, List.length_cons,
                List.length_append] at large
              rw [List.flatMap_append, List.length_append]
              omega

/-- Lists with the same images are related item by item. -/
theorem forall₂_of_map_eq {α' γ : Type} {image : α → γ} {image' : α' → γ}
    {items : List α} {items' : List α'}
    (same : items.map image = items'.map image') :
    List.Forall₂ (fun item item' => item ∈ items ∧ item' ∈ items' ∧
      image item = image' item') items items' := by
  induction items generalizing items' with
  | nil =>
      obtain rfl : items' = [] := by simpa using same.symm
      exact .nil
  | cons item items induction =>
      cases items' with
      | nil => simp at same
      | cons item' items' =>
          obtain ⟨head, tail⟩ := List.cons.inj same
          refine .cons ⟨List.mem_cons_self, List.mem_cons_self, head⟩ ?_
          refine (induction tail).imp fun _ _ related => ?_
          exact ⟨List.mem_cons_of_mem _ related.1,
            List.mem_cons_of_mem _ related.2.1, related.2.2⟩

/-- Walks over related forests with matching callbacks have one outcome. -/
theorem walkLoop_congr {α' : Type} (Related : α → α' → Prop) {kids : α → List α} {kids' : α' → List α'}
    {fn : σ → α → Outcome (σ × Bool)} {fn' : σ → α' → Outcome (σ × Bool)}
    (kidsRelated : ∀ node node', Related node node' →
      List.Forall₂ Related (kids node) (kids' node'))
    (sameCall : ∀ state node node', Related node node' →
      fn state node = fn' state node')
    (fuel : Nat) {stack : List α} {stack' : List α'}
    (alike : List.Forall₂ Related stack stack') (state : σ) :
    walkLoop kids fn fuel stack state =
      walkLoop kids' fn' fuel stack' state := by
  induction fuel generalizing stack stack' state with
  | zero => cases alike <;> rfl
  | succ fuel induction =>
      cases alike with
      | nil => rfl
      | cons related rest =>
          rw [walkLoop, walkLoop, sameCall state _ _ related]
          congr 1
          funext result
          rcases result with ⟨next, more⟩
          cases more with
          | false => rfl
          | true =>
              exact induction
                (List.rel_append (kidsRelated _ _ related) rest) next

/-! ## Finite forests with unique parents -/

/--
A finite forest of nodes with distinct names, none of them the name of the
root.  `below` lists the nodes whose parent has the given name.
-/
structure Forest (α β : Type) where
  below : β → List α
  name : α → β
  above : α → β
  root : β
  nodes : List α
  below_above : ∀ {label node}, node ∈ below label → above node = label
  below_mem : ∀ {label node}, node ∈ below label → node ∈ nodes
  below_nodup : ∀ label, (below label).Nodup
  name_injective : ∀ {node node'}, node ∈ nodes → node' ∈ nodes →
    name node = name node' → node = node'
  name_ne_root : ∀ {node}, node ∈ nodes → name node ≠ root

namespace Forest

variable (forest : Forest α β)

/-- The nodes right below the root. -/
def roots : List α := forest.below forest.root

/-- The nodes right below a node. -/
def kids (node : α) : List α := forest.below (forest.name node)

/-- The nodes of the whole forest in depth-first order. -/
def walk : List α :=
  forest.roots.flatMap (preorder forest.kids forest.nodes.length)

/-- The nodes from the first one up to a root. -/
inductive Trail : List α → Prop where
  | root {node : α} (member : node ∈ forest.roots) : Trail [node]
  | down {node child : α} {path : List α}
      (member : child ∈ forest.kids node) (trail : Trail (node :: path)) :
      Trail (child :: node :: path)

variable {forest} {node child : α} {path path' : List α}

theorem Trail.mem_nodes (trail : forest.Trail path) :
    ∀ node ∈ path, node ∈ forest.nodes := by
  induction trail with
  | root member => simpa using forest.below_mem member
  | down member _ induction =>
      intro node inPath
      rcases List.mem_cons.mp inPath with rfl | rest
      · exact forest.below_mem member
      · exact induction node rest

/-- There is only one way up from a node. -/
theorem Trail.unique (trail : forest.Trail (node :: path))
    (trail' : forest.Trail (node :: path')) : path = path' := by
  induction path generalizing node path' with
  | nil =>
      cases trail with
      | root member =>
          cases trail' with
          | root _ => rfl
          | down member' above =>
              exfalso
              have inner := above.mem_nodes _ List.mem_cons_self
              exact forest.name_ne_root inner
                ((forest.below_above member').symm.trans
                  (forest.below_above member))
  | cons parent path induction =>
      cases trail with
      | down member above =>
          have inner := above.mem_nodes _ List.mem_cons_self
          cases trail' with
          | root member' =>
              exact absurd
                ((forest.below_above member).symm.trans
                  (forest.below_above member'))
                (forest.name_ne_root inner)
          | @down parent' _ _ member' above' =>
              have inner' := above'.mem_nodes _ List.mem_cons_self
              obtain rfl : parent = parent' :=
                forest.name_injective inner inner'
                  ((forest.below_above member).symm.trans
                    (forest.below_above member'))
              rw [induction above above']

theorem Trail.of_append {front : List α}
    (trail : forest.Trail (front ++ node :: path)) :
    forest.Trail (node :: path) := by
  induction front with
  | nil => exact trail
  | cons first front induction =>
      cases front with
      | nil =>
          cases trail with
          | down _ above => exact above
      | cons second front =>
          cases trail with
          | down _ above => exact induction above

/-- A trail never returns to a node. -/
theorem Trail.fresh (trail : forest.Trail (node :: path)) : node ∉ path := by
  intro again
  obtain ⟨front, back, rfl⟩ := List.append_of_mem again
  have whole : forest.Trail ((node :: front) ++ node :: back) := trail
  have tail := whole.of_append
  have same := trail.unique tail
  have := congrArg List.length same
  simp at this
  omega

/-- A trail meets no node twice. -/
theorem Trail.nodup (trail : forest.Trail path) : path.Nodup := by
  induction trail with
  | root _ => exact List.nodup_singleton _
  | down member above induction =>
      exact List.nodup_cons.mpr ⟨(Trail.down member above).fresh, induction⟩

/-- A trail is no longer than the forest has nodes. -/
theorem Trail.length_le (trail : forest.Trail path) :
    path.length ≤ forest.nodes.length :=
  (List.subperm_of_subset trail.nodup trail.mem_nodes).length_le

/-- Below a node on a long trail there is little depth left. -/
theorem Trail.depthBound {depth : Nat} (trail : forest.Trail (node :: path))
    (deep : forest.nodes.length ≤ depth + (node :: path).length) :
    DepthBound forest.kids depth node := by
  induction depth generalizing node path with
  | zero =>
      refine List.eq_nil_iff_forall_not_mem.mpr fun child member => ?_
      have longer := (Trail.down member trail).length_le
      simp only [List.length_cons] at longer deep
      omega
  | succ depth induction =>
      intro child member
      refine induction (Trail.down member trail) ?_
      simp only [List.length_cons] at deep ⊢
      omega

theorem depthBound_of_mem_roots (member : node ∈ forest.roots) :
    DepthBound forest.kids forest.nodes.length node :=
  (Trail.root member).depthBound (by simp)

/-- With enough fuel the stack walk visits the whole forest. -/
theorem walkLoop_roots (forest : Forest α β) (fn : σ → α → Outcome (σ × Bool))
    {fuel : Nat} (large : forest.walk.length ≤ fuel) (state : σ) :
    walkLoop forest.kids fn fuel forest.roots state =
      visit fn forest.walk state :=
  walkLoop_eq_visit fn (fun _ member => depthBound_of_mem_roots member)
    large state

/-! ## Order and multiplicity in the walk -/

/-- A node of a subtree has a trail through the subtree's top. -/
theorem Trail.extend {depth : Nat} {top : α}
    (trail : forest.Trail (top :: path))
    (member : node ∈ preorder forest.kids depth top) :
    ∃ front back, node :: back = front ++ top :: path ∧
      forest.Trail (node :: back) := by
  induction depth generalizing top path with
  | zero =>
      obtain rfl : node = top := by simpa [preorder] using member
      exact ⟨[], path, rfl, trail⟩
  | succ depth induction =>
      rw [preorder, List.mem_cons, List.mem_flatMap] at member
      rcases member with rfl | ⟨child, isKid, inSubtree⟩
      · exact ⟨[], path, rfl, trail⟩
      · obtain ⟨front, back, shape, longer⟩ :=
          induction (Trail.down isKid trail) inSubtree
        exact ⟨front ++ [child], back, by simpa using shape, longer⟩

/-- Every node that is walked has a trail to the root. -/
theorem exists_trail_of_mem_walk (member : node ∈ forest.walk) :
    ∃ path, forest.Trail (node :: path) := by
  obtain ⟨top, isRoot, inSubtree⟩ := List.mem_flatMap.mp member
  obtain ⟨_, back, _, trail⟩ := (Trail.root isRoot).extend inSubtree
  exact ⟨back, trail⟩

/-- Subtrees of different siblings share no node. -/
theorem Trail.siblings_disjoint {depth : Nat} {left right : α}
    (leftTrail : forest.Trail (left :: path))
    (rightTrail : forest.Trail (right :: path)) (differ : left ≠ right) :
    List.Disjoint (preorder forest.kids depth left)
      (preorder forest.kids depth right) := by
  intro node inLeft inRight
  obtain ⟨front, back, shape, trail⟩ := leftTrail.extend inLeft
  obtain ⟨front', back', shape', trail'⟩ := rightTrail.extend inRight
  obtain rfl := trail.unique trail'
  have sameLength : front.length = front'.length := by
    have lengths := congrArg List.length (shape.symm.trans shape')
    simp only [List.length_append, List.length_cons] at lengths
    omega
  have split := List.append_inj (shape.symm.trans shape') sameLength
  exact differ (List.cons.inj split.2).1

/-- A walk below a trail meets no node twice. -/
theorem Trail.preorder_nodup {depth : Nat} {top : α}
    (trail : forest.Trail (top :: path)) :
    (preorder forest.kids depth top).Nodup := by
  induction depth generalizing top path with
  | zero => exact List.nodup_singleton _
  | succ depth induction =>
      rw [preorder, List.nodup_cons]
      constructor
      · intro again
        obtain ⟨child, isKid, inSubtree⟩ := List.mem_flatMap.mp again
        obtain ⟨front, back, shape, around⟩ :=
          (Trail.down isKid trail).extend inSubtree
        obtain rfl := trail.unique around
        have lengths := congrArg List.length shape
        simp at lengths
        omega
      · refine List.nodup_flatMap.mpr
          ⟨fun child isKid => induction (Trail.down isKid trail), ?_⟩
        refine (forest.below_nodup _).imp_of_mem ?_
        intro left right isLeft isRight differ
        exact Trail.siblings_disjoint (Trail.down isLeft trail)
          (Trail.down isRight trail) differ

/-- No node is visited twice. -/
theorem walk_nodup (forest : Forest α β) : forest.walk.Nodup := by
  refine List.nodup_flatMap.mpr
    ⟨fun top isRoot => (Trail.root isRoot).preorder_nodup, ?_⟩
  refine (forest.below_nodup _).imp_of_mem ?_
  intro left right isLeft isRight differ
  exact Trail.siblings_disjoint (Trail.root isLeft) (Trail.root isRight) differ

theorem sublist_flatMap_self {next : α → List α}
    (starts : ∀ item, [item].Sublist (next item)) (items : List α) :
    items.Sublist (items.flatMap next) := by
  induction items with
  | nil => exact List.nil_sublist _
  | cons item rest induction => exact (starts item).append induction

theorem sublist_flatMap_of_mem {next : α → List α} {item : α}
    {items : List α} (member : item ∈ items) :
    (next item).Sublist (items.flatMap next) := by
  obtain ⟨front, back, rfl⟩ := List.append_of_mem member
  rw [List.flatMap_append, List.flatMap_cons]
  exact (List.sublist_append_left _ _).trans (List.sublist_append_right _ _)

theorem singleton_sublist_preorder (kids : α → List α) (depth : Nat)
    (node : α) : [node].Sublist (preorder kids depth node) := by
  cases depth <;> simp [preorder]

/-- A node is visited before its children, and these in their order. -/
theorem preorder_cons_kids_sublist {kids : α → List α} {depth : Nat}
    {top node : α} (bound : DepthBound kids depth top)
    (member : node ∈ preorder kids depth top) :
    (node :: kids node).Sublist (preorder kids depth top) := by
  induction depth generalizing top with
  | zero =>
      obtain rfl : node = top := by simpa [preorder] using member
      have leaf : kids node = [] := bound
      simp [preorder, leaf]
  | succ depth induction =>
      rw [preorder] at member ⊢
      rcases List.mem_cons.mp member with rfl | inKids
      · exact (sublist_flatMap_self
          (singleton_sublist_preorder kids depth) (kids node)).cons_cons node
      · obtain ⟨child, isKid, inSubtree⟩ := List.mem_flatMap.mp inKids
        exact ((induction (bound child isKid) inSubtree).trans
          (sublist_flatMap_of_mem isKid)).cons top

/-- A node is walked before its children, and these in their order. -/
theorem walk_cons_kids_sublist (member : node ∈ forest.walk) :
    (node :: forest.kids node).Sublist forest.walk := by
  obtain ⟨top, isRoot, inSubtree⟩ := List.mem_flatMap.mp member
  exact (preorder_cons_kids_sublist (depthBound_of_mem_roots isRoot)
    inSubtree).trans (sublist_flatMap_of_mem isRoot)

/-- The roots are walked in their order. -/
theorem roots_sublist_walk (forest : Forest α β) :
    forest.roots.Sublist forest.walk :=
  sublist_flatMap_self (singleton_sublist_preorder _ _) _

theorem mem_walk_of_mem_roots (member : node ∈ forest.roots) :
    node ∈ forest.walk :=
  (roots_sublist_walk forest).subset member

/-- With a node its children are walked. -/
theorem mem_walk_of_mem_kids (member : node ∈ forest.walk)
    (isKid : child ∈ forest.kids node) : child ∈ forest.walk :=
  (walk_cons_kids_sublist member).subset (List.mem_cons_of_mem _ isKid)

/-- Whatever has a trail is walked. -/
theorem Trail.mem_walk (trail : forest.Trail path) :
    ∀ node ∈ path, node ∈ forest.walk := by
  induction trail with
  | root member => simpa using mem_walk_of_mem_roots member
  | down member _ induction =>
      intro node inPath
      rcases List.mem_cons.mp inPath with rfl | rest
      · exact mem_walk_of_mem_kids (induction _ List.mem_cons_self) member
      · exact induction node rest

/-- A visited node is a root, or a child of a visited node. -/
theorem mem_walk_cases (member : node ∈ forest.walk) :
    node ∈ forest.roots ∨
      ∃ parent ∈ forest.walk, node ∈ forest.kids parent := by
  obtain ⟨path, trail⟩ := exists_trail_of_mem_walk member
  cases trail with
  | root isRoot => exact Or.inl isRoot
  | down isKid above =>
      exact Or.inr ⟨_, above.mem_walk _ List.mem_cons_self, isKid⟩

theorem mem_nodes_of_mem_walk (member : node ∈ forest.walk) :
    node ∈ forest.nodes := by
  obtain ⟨path, trail⟩ := exists_trail_of_mem_walk member
  exact trail.mem_nodes _ List.mem_cons_self

/-- What precedes a node in a duplicate-free list is in the prefix before it. -/
theorem mem_front_of_pair_sublist {items front back : List α}
    {first second : α} (nodup : items.Nodup)
    (split : items = front ++ second :: back)
    (ordered : [first, second].Sublist items) : first ∈ front := by
  subst split
  rcases List.sublist_append_iff.mp ordered with
    ⟨taken, rest, shape, inFront, inBack⟩
  cases taken with
  | cons head taken =>
      obtain ⟨rfl, -⟩ := List.cons.inj shape
      exact inFront.subset List.mem_cons_self
  | nil =>
      exfalso
      obtain rfl : rest = [first, second] := shape.symm
      have secondInBack : second ∈ back := by
        cases inBack with
        | cons _ both => exact both.subset (by simp)
        | cons_cons _ tail => exact tail.subset (by simp)
      have := (List.nodup_append.mp nodup).2.1
      exact (List.nodup_cons.mp this).1 secondInBack

/-- The parent of a visited node that is not a root comes before it. -/
theorem parent_mem_front {front back : List α} {parent : α}
    (split : forest.walk = front ++ node :: back)
    (visited : parent ∈ forest.walk) (isKid : node ∈ forest.kids parent) :
    parent ∈ front :=
  mem_front_of_pair_sublist (walk_nodup forest) split
    (((List.singleton_sublist.mpr isKid).cons_cons parent).trans
      (walk_cons_kids_sublist visited))

/-- The siblings to the left of a visited node come before it. -/
theorem sibling_mem_front {front back left right : List α} {sibling : α}
    {label : β} (split : forest.walk = front ++ node :: back)
    (visited : node ∈ forest.walk)
    (siblings : forest.below label = left ++ node :: right)
    (isLeft : sibling ∈ left) : sibling ∈ front := by
  refine mem_front_of_pair_sublist (walk_nodup forest) split ?_
  have pair : [sibling, node].Sublist (forest.below label) := by
    rw [siblings]
    exact (List.singleton_sublist.mpr isLeft).append
      (List.singleton_sublist.mpr List.mem_cons_self)
  refine pair.trans ?_
  have inBelow : node ∈ forest.below label := by simp [siblings]
  rcases mem_walk_cases visited with isRoot | ⟨parent, visitedParent, isKid⟩
  · obtain rfl : label = forest.root :=
      (forest.below_above inBelow).symm.trans (forest.below_above isRoot)
    exact roots_sublist_walk forest
  · obtain rfl : label = forest.name parent :=
      (forest.below_above inBelow).symm.trans (forest.below_above isKid)
    exact (List.sublist_cons_self _ _).trans
      (walk_cons_kids_sublist visitedParent)

end Forest

end Mintter.Foundation
