import Mintter.Foundation.Forest

/-!
# Depth-first walks that end

`Walks kids stack visited` says that the walk from a stack ends and which nodes it visits.
Unlike a forest it asks nothing of the nodes: they may be reached twice, and no bound on the
depth is given.  A node below itself is never part of a walk that ends.
-/

namespace Mintter.Foundation

variable {α β σ : Type} {kids kids' : α → List α} {stack stack' visited visited' : List α}
variable {node child : α}

/-- The walk from the stack visits the given nodes and ends. -/
inductive Walks (kids : α → List α) : List α → List α → Prop where
  | nil : Walks kids [] []
  | cons {node : α} {stack visited : List α}
      (rest : Walks kids (kids node ++ stack) visited) :
      Walks kids (node :: stack) (node :: visited)

namespace Walks

/-- There is one order in which a walk visits the nodes. -/
theorem unique (walks : Walks kids stack visited) (walks' : Walks kids stack visited') :
    visited = visited' := by
  induction walks generalizing visited' with
  | nil =>
      cases walks'
      rfl
  | cons _ induction =>
      cases walks' with
      | cons rest' => rw [induction rest']

/-- The walk finishes the front of the stack before it starts with the rest. -/
theorem of_append (walks : Walks kids (stack ++ stack') visited) :
    ∃ first rest, visited = first ++ rest ∧
      Walks kids stack first ∧ Walks kids stack' rest := by
  generalize whole : stack ++ stack' = all at walks
  induction walks generalizing stack with
  | nil =>
      rcases List.append_eq_nil_iff.mp whole with ⟨rfl, rfl⟩
      exact ⟨[], [], rfl, .nil, .nil⟩
  | @cons node below visited rest induction =>
      cases stack with
      | nil =>
          have start : stack' = node :: below := whole
          exact ⟨[], _, rfl, .nil, start ▸ .cons rest⟩
      | cons top stack =>
          rcases List.cons.inj whole with ⟨rfl, rfl⟩
          rcases induction (List.append_assoc _ _ _) with ⟨first, last, rfl, front, back⟩
          exact ⟨top :: first, last, rfl, .cons front, back⟩

/-- What is on the stack is visited. -/
theorem mem_of_mem_stack (walks : Walks kids stack visited) (member : node ∈ stack) :
    node ∈ visited := by
  induction walks with
  | nil => exact member
  | cons _ induction =>
      rcases List.mem_cons.mp member with rfl | later
      · exact List.mem_cons_self
      · exact List.mem_cons_of_mem _ (induction (List.mem_append_right _ later))

/-- With a node its children are visited. -/
theorem mem_of_mem_kids (walks : Walks kids stack visited) (member : node ∈ visited)
    (isKid : child ∈ kids node) : child ∈ visited := by
  induction walks with
  | nil => cases member
  | cons rest induction =>
      rcases List.mem_cons.mp member with rfl | later
      · exact List.mem_cons_of_mem _ (rest.mem_of_mem_stack (List.mem_append_left _ isKid))
      · exact List.mem_cons_of_mem _ (induction later)

/-- Below a visited node the walk ends earlier. -/
theorem exists_below (walks : Walks kids stack visited) (member : node ∈ visited) :
    ∃ below, Walks kids (kids node) below ∧ below.length < visited.length := by
  induction walks with
  | nil => cases member
  | cons rest induction =>
      rcases List.mem_cons.mp member with rfl | later
      · rcases rest.of_append with ⟨first, last, rfl, below, -⟩
        refine ⟨first, below, ?_⟩
        simp only [List.length_cons, List.length_append]
        omega
      · rcases induction later with ⟨below, ends, shorter⟩
        exact ⟨below, ends, shorter.trans (Nat.lt_succ_self _)⟩

/-- No visited node has the start of the walk below it. -/
theorem kids_ne_stack (walks : Walks kids stack visited) (member : node ∈ visited) :
    kids node ≠ stack := by
  intro again
  rcases walks.exists_below member with ⟨below, ends, shorter⟩
  rw [again] at ends
  rw [ends.unique walks] at shorter
  exact shorter.false

/-- A visited node was on the stack, or below a node that was visited before it. -/
theorem exists_parent (walks : Walks kids stack visited) {front back : List α}
    (split : visited = front ++ node :: back) :
    node ∈ stack ∨ ∃ parent ∈ front, node ∈ kids parent := by
  induction walks generalizing front with
  | nil => simp at split
  | @cons top stack _ _ induction =>
      cases front with
      | nil => exact .inl ((List.cons.inj split).1 ▸ List.mem_cons_self)
      | cons first front =>
          rcases List.cons.inj split with ⟨rfl, later⟩
          rcases induction later with onStack | ⟨parent, before, isKid⟩
          · rcases List.mem_append.mp onStack with isKid | below
            · exact .inr ⟨top, List.mem_cons_self, isKid⟩
            · exact .inl (List.mem_cons_of_mem _ below)
          · exact .inr ⟨parent, List.mem_cons_of_mem _ before, isKid⟩

/-- A walk does not see other children of nodes that it does not visit. -/
theorem congr (walks : Walks kids stack visited)
    (agree : ∀ node ∈ visited, kids' node = kids node) : Walks kids' stack visited := by
  induction walks with
  | nil => exact .nil
  | cons _ induction =>
      constructor
      rw [agree _ List.mem_cons_self]
      exact induction fun node member => agree node (List.mem_cons_of_mem _ member)

/-- Cutting off nodes with everything below them cuts them out of the walk. -/
theorem filterMap {image : α → Option β} {imageKids : β → List β}
    (walks : Walks kids stack visited)
    (kept : ∀ node ∈ visited, ∀ {result}, image node = some result →
      imageKids result = (kids node).filterMap image)
    (dropped : ∀ node ∈ visited, image node = none → (kids node).filterMap image = []) :
    Walks imageKids (stack.filterMap image) (visited.filterMap image) := by
  induction walks with
  | nil => exact .nil
  | @cons node stack visited _ induction =>
      have rest := induction
        (fun other member => kept other (List.mem_cons_of_mem _ member))
        (fun other member => dropped other (List.mem_cons_of_mem _ member))
      rw [List.filterMap_append] at rest
      cases shape : image node with
      | none =>
          rw [List.filterMap_cons_none shape, List.filterMap_cons_none shape]
          rwa [dropped node List.mem_cons_self shape, List.nil_append] at rest
      | some result =>
          rw [List.filterMap_cons_some shape, List.filterMap_cons_some shape]
          constructor
          rwa [kept node List.mem_cons_self shape]

/-- With enough fuel the stack walk visits these nodes. -/
theorem walkLoop_eq (walks : Walks kids stack visited) (fn : σ → α → Outcome (σ × Bool))
    {fuel : Nat} (large : visited.length ≤ fuel) (state : σ) :
    walkLoop kids fn fuel stack state = visit fn visited state := by
  induction walks generalizing fuel state with
  | nil => cases fuel <;> rfl
  | cons _ induction =>
      cases fuel with
      | zero => cases large
      | succ fuel =>
          rw [walkLoop, visit]
          congr 1
          funext result
          rcases result with ⟨next, more⟩
          cases more with
          | false => rfl
          | true => exact induction (Nat.le_of_succ_le_succ large) next

end Walks

/-! ## Listing a walk -/

/-- A callback that lists the nodes. -/
def listNode (seen : List α) (node : α) : Outcome (List α × Bool) :=
  pure (seen ++ [node], true)

/-- Visiting a list appends it to what was seen. -/
theorem visit_listNode (nodes seen : List α) :
    visit listNode nodes seen = .ok (seen ++ nodes) := by
  induction nodes generalizing seen with
  | nil => simp
  | cons node nodes induction =>
      rw [visit_cons_of_more (by rw [listNode]; rfl), induction]
      simp

/-- A walk that lists its nodes and returns has visited them. -/
theorem exists_walks {fuel : Nat} {before after : List α}
    (listed : walkLoop kids listNode fuel stack before = .ok after) :
    ∃ visited, after = before ++ visited ∧ Walks kids stack visited := by
  induction fuel generalizing stack before with
  | zero =>
      cases stack with
      | nil =>
          cases listed
          exact ⟨[], by simp, .nil⟩
      | cons node stack => cases listed
  | succ fuel induction =>
      cases stack with
      | nil =>
          cases listed
          exact ⟨[], by simp, .nil⟩
      | cons node stack =>
          rcases induction listed with ⟨visited, rfl, rest⟩
          exact ⟨node :: visited, by simp, .cons rest⟩

/-- The walk of a forest ends. -/
theorem Forest.walks (forest : Forest α β) : Walks forest.kids forest.roots forest.walk := by
  have listed := forest.walkLoop_roots listNode le_rfl []
  rw [visit_listNode] at listed
  rcases exists_walks listed with ⟨visited, same, walks⟩
  simp only [List.nil_append] at same
  exact same ▸ walks

namespace Forest

variable {forest : Forest α β}

/-- The nodes of the walk that lie under one name, in order. -/
theorem walk_filter_above [DecidableEq β] (forest : Forest α β) {label : β}
    (known : label = forest.root ∨ ∃ node ∈ forest.walk, forest.name node = label) :
    (forest.walk.filter fun node => forest.above node = label) = forest.below label := by
  have sublist : (forest.below label).Sublist forest.walk := by
    rcases known with rfl | ⟨node, member, rfl⟩
    · exact forest.roots_sublist_walk
    · exact (List.sublist_cons_self _ _).trans (walk_cons_kids_sublist member)
  have inside : (forest.below label).filter (fun node => forest.above node = label) =
      forest.below label :=
    List.filter_eq_self.mpr fun node member => by simpa using forest.below_above member
  have filtered := sublist.filter fun node => decide (forest.above node = label)
  rw [inside] at filtered
  refine (filtered.eq_of_length_le ?_).symm
  refine (List.subperm_of_subset (forest.walk_nodup.filter _) fun node member => ?_).length_le
  rcases List.mem_filter.mp member with ⟨visited, under⟩
  have above : forest.above node = label := by simpa using under
  rcases mem_walk_cases visited with isRoot | ⟨parent, -, isKid⟩
  · exact (forest.below_above isRoot).symm.trans above ▸ isRoot
  · exact (forest.below_above isKid).symm.trans above ▸ isKid

end Forest

end Mintter.Foundation
