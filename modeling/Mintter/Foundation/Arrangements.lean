import Mintter.Foundation.Rearranged
import Mathlib.Logic.Relation

/-!
# Arranging nodes in a tree

An arrangement lists the children of every node.  A placing puts a node behind one of the
children of its new parent.  A tree is built by placing its nodes parents first and siblings from
left to right; the nodes that are fixed stay where they are, and what is not in the tree is
removed at last.

Every such placing is possible at its turn.  The tree is reached exactly if the fixed nodes
already stand in their order.
-/

namespace Mintter.Foundation

variable {κ : Type*} [DecidableEq κ]

/-- The children of every node. -/
abbrev Arrangement (κ : Type*) := κ → List κ

/-- A node that is to stand under a parent, behind a sibling or first. -/
structure Placing (κ : Type*) where
  item : κ
  parent : κ
  left : Option κ

namespace Arrangement

/-- The item leaves its old list and stands behind its left neighbour below the new parent. -/
def place (kids : Arrangement κ) (p : Placing κ) : Arrangement κ := fun q =>
  if q = p.parent then insertBehind p.left p.item ((kids q).filter (· ≠ p.item))
  else (kids q).filter (· ≠ p.item)

/-- The item leaves all lists. -/
def remove (kids : Arrangement κ) (x : κ) : Arrangement κ := fun q =>
  (kids q).filter (· ≠ x)

/-- Place the nodes that are not fixed, one after another. -/
def placeAll (fixed : κ → Bool) (kids : Arrangement κ) : List (Placing κ) → Arrangement κ
  | [] => kids
  | p :: ps => placeAll fixed (if fixed p.item then kids else kids.place p) ps

/-- A node is above another one, or the same. -/
def Above (kids : Arrangement κ) : κ → κ → Prop :=
  Relation.ReflTransGen fun x y => y ∈ kids x

/-- The left sibling is where it is said to be, and no node comes to stand below itself. -/
structure Placeable (root : κ) (kids : Arrangement κ) (p : Placing κ) : Prop where
  left_here : ∀ l, p.left = some l → l ∈ kids p.parent ∧ l ≠ p.item
  parent_here : p.parent = root ∨ ∃ q, p.parent ∈ kids q
  not_above : ¬ kids.Above p.item p.parent

/-- Every node has one place, and the root has none. -/
structure Tree (root : κ) (kids : Arrangement κ) : Prop where
  root_free : ∀ q, root ∉ kids q
  parent_unique : ∀ {x p q}, x ∈ kids p → x ∈ kids q → p = q
  nodup : ∀ p, (kids p).Nodup

/-! ## One placing -/

section Place

variable {root x y q : κ} {kids : Arrangement κ} {p : Placing κ}

/-- After a placing the item stands below its parent only, and all others where they were. -/
theorem mem_place : y ∈ kids.place p q ↔
    y = p.item ∧ q = p.parent ∨ y ≠ p.item ∧ y ∈ kids q := by
  rw [place]
  split
  · rename_i here
    rw [mem_insertBehind, List.mem_filter, decide_eq_true_iff, and_comm (a := y ∈ kids q)]
    simp [here]
  · rename_i elsewhere
    rw [List.mem_filter, decide_eq_true_iff, and_comm]
    simp [elsewhere]

theorem mem_place_of_ne (other : y ≠ p.item) : y ∈ kids.place p q ↔ y ∈ kids q := by
  rw [mem_place]
  simp [other]

/-- Placing a node that is not the root keeps the tree. -/
theorem Tree.place (tree : Tree root kids) (notRoot : p.item ≠ root) :
    Tree root (kids.place p) where
  root_free := by
    intro q member
    rw [mem_place_of_ne notRoot.symm] at member
    exact tree.root_free q member
  parent_unique := by
    intro y q q' here there
    rcases mem_place.mp here with ⟨same, isParent⟩ | ⟨differs, here⟩
    · rcases mem_place.mp there with ⟨-, isParent'⟩ | ⟨differs, -⟩
      · exact isParent.trans isParent'.symm
      · exact absurd same differs
    · rw [mem_place_of_ne differs] at there
      exact tree.parent_unique here there
  nodup := by
    intro q
    rw [Arrangement.place]
    split
    · exact nodup_insertBehind (by simp) ((tree.nodup q).filter _)
    · exact (tree.nodup q).filter _

omit [DecidableEq κ] in
/-- Above a set of nodes that holds their parents there is only the set itself. -/
theorem Tree.above_mem (tree : Tree root kids) (within : κ → Prop) (atRoot : within root)
    (parents : ∀ y, within y → y ≠ root → ∃ q, within q ∧ y ∈ kids q)
    (above : kids.Above x y) (member : within y) : within x := by
  induction above using Relation.ReflTransGen.head_induction_on with
  | refl => exact member
  | head isChild below induction =>
      rename_i z child
      have notRoot : child ≠ root := by
        rintro rfl
        exact tree.root_free _ isChild
      rcases parents child induction notRoot with ⟨q, isWithin, here⟩
      rw [tree.parent_unique isChild here]
      exact isWithin

end Place

/-! ## The places of a tree -/

/-- The nodes under a parent, in the order in which they are placed. -/
def under (ps : List (Placing κ)) (q : κ) : List κ :=
  (ps.filter (·.parent = q)).map Placing.item

/-- Parents are placed before their children, and siblings from left to right. -/
def Planned (root : κ) : List (Placing κ) → List (Placing κ) → Prop
  | _, [] => True
  | done, p :: rest =>
      (p.parent = root ∨ p.parent ∈ done.map Placing.item) ∧
        p.left = (under done p.parent).getLast? ∧ Planned root (done ++ [p]) rest

section Planned

variable {root x q : κ} {kids : Arrangement κ} {fixed : κ → Bool} {p : Placing κ}
  {ps done rest : List (Placing κ)}

/-- Two plans are one plan if the second continues the first. -/
theorem planned_append {done ps ps' : List (Placing κ)} (first : Planned root done ps)
    (second : Planned root (done ++ ps) ps') : Planned root done (ps ++ ps') := by
  induction ps generalizing done with
  | nil =>
      rw [List.append_nil] at second
      exact second
  | cons p ps induction =>
      refine ⟨first.1, first.2.1, induction first.2.2 ?_⟩
      rw [List.append_assoc, List.singleton_append]
      exact second

/-- Below a parent are the items that are placed there. -/
theorem mem_under : x ∈ under ps q ↔ ∃ p ∈ ps, p.item = x ∧ p.parent = q := by
  rw [under, List.mem_map]
  constructor
  · rintro ⟨p, member, rfl⟩
    exact ⟨p, (List.mem_filter.mp member).1, rfl, of_decide_eq_true (List.mem_filter.mp member).2⟩
  · rintro ⟨p, member, rfl, here⟩
    exact ⟨p, List.mem_filter.mpr ⟨member, decide_eq_true here⟩, rfl⟩

theorem under_append (done rest : List (Placing κ)) (q : κ) :
    under (done ++ rest) q = under done q ++ under rest q := by
  rw [under, List.filter_append, List.map_append, ← under, ← under]

theorem under_cons (p : Placing κ) (ps : List (Placing κ)) (q : κ) :
    under (p :: ps) q = if p.parent = q then p.item :: under ps q else under ps q := by
  rw [under, List.filter_cons]
  by_cases here : p.parent = q
  · rw [if_pos (decide_eq_true here), if_pos here, List.map_cons, ← under]
  · rw [if_neg (by simpa using here), if_neg here, ← under]

theorem under_concat (done : List (Placing κ)) (p : Placing κ) (q : κ) :
    under (done ++ [p]) q = if p.parent = q then under done q ++ [p.item] else under done q := by
  rw [under_append, under_cons]
  split
  · rfl
  · exact List.append_nil _

/--
What holds when some nodes are done: these stand under their parents, and the fixed ones of
the others stand under theirs already.
-/
structure Progress (root : κ) (fixed : κ → Bool) (kids : Arrangement κ)
    (done rest : List (Placing κ)) : Prop where
  tree : Tree root kids
  named : ∀ p ∈ done ++ rest, p.item ≠ root
  distinct : ((done ++ rest).map Placing.item).Nodup
  done_here : ∀ p ∈ done, p.item ∈ kids p.parent
  parents_done : ∀ p ∈ done, p.parent = root ∨ p.parent ∈ done.map Placing.item
  fixed_here : ∀ p ∈ rest, fixed p.item = true → p.item ∈ kids p.parent

omit [DecidableEq κ] in
theorem Progress.notDone (progress : Progress root fixed kids done (p :: rest)) :
    p.item ∉ done.map Placing.item ∧ p.item ∉ rest.map Placing.item := by
  have distinct := progress.distinct
  rw [List.map_append, List.map_cons, List.nodup_middle, List.nodup_cons,
    List.mem_append, not_or] at distinct
  exact distinct.1

/-- The next node can be placed. -/
theorem Progress.placeable (progress : Progress root fixed kids done (p :: rest))
    (planned : Planned root done (p :: rest)) : Placeable root kids p where
  left_here := by
    intro l isLeft
    rw [planned.2.1] at isLeft
    rcases mem_under.mp (List.mem_of_getLast? isLeft) with ⟨d, isDone, rfl, isSibling⟩
    refine ⟨isSibling ▸ progress.done_here d isDone, fun same => progress.notDone.1 ?_⟩
    exact same ▸ List.mem_map_of_mem isDone
  parent_here := by
    apply planned.1.imp_right
    intro isDone
    rcases List.mem_map.mp isDone with ⟨d, isDone, isParent⟩
    exact ⟨d.parent, isParent ▸ progress.done_here d isDone⟩
  not_above := by
    intro above
    have parents : ∀ y, (y = root ∨ y ∈ done.map Placing.item) → y ≠ root →
        ∃ q, (q = root ∨ q ∈ done.map Placing.item) ∧ y ∈ kids q := by
      intro y member notRoot
      rcases List.mem_map.mp (member.resolve_left notRoot) with ⟨d, isDone, rfl⟩
      exact ⟨d.parent, progress.parents_done d isDone, progress.done_here d isDone⟩
    rcases progress.tree.above_mem _ (Or.inl rfl) parents above planned.1 with
      isRoot | isDone
    · exact progress.named p (by simp) isRoot
    · exact progress.notDone.1 isDone

/-- One placing of the plan makes progress, also when the item stays where it is. -/
theorem Progress.next (progress : Progress root fixed kids done (p :: rest))
    (planned : Planned root done (p :: rest)) :
    Progress root fixed (if fixed p.item then kids else kids.place p) (done ++ [p]) rest := by
  have shape : done ++ p :: rest = (done ++ [p]) ++ rest := by simp
  have differs : ∀ d ∈ done, d.item ≠ p.item := fun d isDone same =>
    progress.notDone.1 (same ▸ List.mem_map_of_mem isDone)
  have differs' : ∀ d ∈ rest, d.item ≠ p.item := fun d isLater same =>
    progress.notDone.2 (same ▸ List.mem_map_of_mem isLater)
  have keeps : ∀ {y q}, y ≠ p.item →
      (y ∈ (if fixed p.item then kids else kids.place p) q ↔ y ∈ kids q) := by
    intro y q other
    split
    · rfl
    · exact mem_place_of_ne other
  constructor
  · split
    · exact progress.tree
    · exact progress.tree.place (progress.named p (by simp))
  · exact shape ▸ progress.named
  · exact shape ▸ progress.distinct
  · intro d member
    rcases List.mem_append.mp member with isDone | isNow
    · exact (keeps (differs d isDone)).mpr (progress.done_here d isDone)
    · rw [List.mem_singleton.mp isNow]
      split
      · rename_i stays
        exact progress.fixed_here p List.mem_cons_self stays
      · exact mem_place.mpr (Or.inl ⟨rfl, rfl⟩)
  · intro d member
    rw [List.map_append, List.mem_append]
    rcases List.mem_append.mp member with isDone | isNow
    · exact (progress.parents_done d isDone).imp_right Or.inl
    · rw [List.mem_singleton.mp isNow]
      exact planned.1.imp_right Or.inl
  · intro d isLater stays
    exact (keeps (differs' d isLater)).mpr
      (progress.fixed_here d (List.mem_cons_of_mem p isLater) stays)

/-- A whole plan is carried out placing by placing. -/
theorem Progress.placeAll (progress : Progress root fixed kids done rest)
    (planned : Planned root done rest) :
    Progress root fixed (kids.placeAll fixed rest) (done ++ rest) [] := by
  induction rest generalizing kids done with
  | nil =>
      rw [List.append_nil]
      exact progress
  | cons p rest induction =>
      have finished := induction (progress.next planned) planned.2.2
      rw [List.append_assoc, List.singleton_append] at finished
      exact finished

end Planned

end Arrangement

end Mintter.Foundation
