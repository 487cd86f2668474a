import Mintter.Foundation.Reduction
import Mintter.Hyper.Graph

/-!
# The dependencies of the heads

`Deps` collects the direct dependencies of all heads and drops the redundant ones.  It
walks the graph towards the heads, but drops a node only when a collected node depends
on that node directly, not when one does over changes that were not collected.
-/

namespace Mintter.Hyper

open Mintter.Foundation
open Relation

/-- The order in which maps of indexes are visited: the collected ones, then the rest. -/
structure IndexOrder where
  visit : Nat → List Nat → List Nat
  perm : ∀ n indexes, (visit n indexes).Perm indexes

/-- The order in which the indexes are listed. -/
def IndexOrder.listed : IndexOrder := ⟨fun _ indexes => indexes, fun _ _ => .rfl⟩

/--
Push the reverse dependencies of a node that were not visited, up to one that was
collected; such a node is redundant.
-/
def scanRdeps (fullDeps visited : List Nat) (node : Nat) :
    List Nat → List Nat × List Nat → List Nat × List Nat
  | [], acc => acc
  | rdep :: rdeps, (stack, reducedDeps) =>
      let stack := if rdep ∈ visited then stack else rdep :: stack
      if rdep ∈ fullDeps then (stack, reducedDeps.filter (· ≠ node))
      else scanRdeps fullDeps visited node rdeps (stack, reducedDeps)

/-- The traversal; the stack has its top first. -/
def reduceLoop (rdepsOf : Nat → List Nat) (fullDeps : List Nat) :
    Nat → List Nat → List Nat → List Nat → Outcome (List Nat)
  | _, [], _, reducedDeps => pure reducedDeps
  | 0, _ :: _, _, _ => .error .outOfFuel
  | fuel + 1, node :: stack, visited, reducedDeps =>
      if node ∈ visited then reduceLoop rdepsOf fullDeps fuel stack visited reducedDeps
      else
        let (stack, reducedDeps) := scanRdeps fullDeps (node :: visited) node (rdepsOf node)
          (stack, reducedDeps)
        reduceLoop rdepsOf fullDeps fuel stack (node :: visited) reducedDeps

namespace Entity

/-- The direct dependencies of the heads. -/
def collectDeps (e : Entity) : List String → List Nat → Outcome (List Nat)
  | [], fullDeps => pure fullDeps
  | head :: heads, fullDeps =>
      match e.applied head with
      | none => panicWith "BUG: head change not applied"
      | some ihead =>
          match e.deps[ihead]? with
          | none => panicWith "index out of range"
          | some deps => e.collectDeps heads
              (deps.foldl (fun fullDeps dep => KeyedList.set (fun i => i) dep fullDeps)
                fullDeps)

/-- The method `Deps`. -/
def headDeps (fuel : Nat) (order : IndexOrder) (e : Entity) : Outcome (List String) :=
  match e.heads with
  | [] => pure []
  | [head] =>
      match e.changes[(e.applied head).getD 0]? with
      | none => panicWith "index out of range"
      | some change => pure change.2.deps
  | heads => do
      let fullDeps ← e.collectDeps heads []
      let reducedDeps ← reduceLoop e.rdepsOf fullDeps fuel (order.visit 0 fullDeps) [] fullDeps
      (order.visit 1 reducedDeps).mapM fun dep =>
        match e.changes[dep]? with
        | none => panicWith "index out of range"
        | some change => pure change.1

/-- One change depends directly on another one. -/
def DirectDep (e : Entity) (dep c : String) : Prop :=
  ∃ ch, (c, ch) ∈ e.changes ∧ dep ∈ ch.deps

/-- A direct dependency of a head. -/
def HeadDep (e : Entity) (dep : String) : Prop :=
  ∃ head ∈ e.heads, e.DirectDep dep head

/-- `Deps` returns the maximal dependencies of the heads, each once. -/
def ReducesDeps (order : IndexOrder) (e : Entity) : Prop :=
  ∃ out, Converges (fun fuel => e.headDeps fuel order) (.ok out) ∧ out.Nodup ∧
    (∀ dep, dep ∈ out ↔ IsMaximal e.DirectDep e.HeadDep dep) ∧
    (∀ dep ∈ out, ∀ dep' ∈ out, ¬ TransGen e.DirectDep dep dep') ∧
    ∀ dep, e.HeadDep dep → ∃ dep' ∈ out, ReflTransGen e.DirectDep dep dep'

end Entity

/-! ## The traversal -/

section Loop

variable {rdepsOf : Nat → List Nat} {fullDeps visited stack reducedDeps : List Nat}
variable {node n : Nat}

/-- A collected node depends directly on the node. -/
def HasCollected (rdepsOf : Nat → List Nat) (fullDeps : List Nat) (node : Nat) : Prop :=
  ∃ rdep ∈ rdepsOf node, rdep ∈ fullDeps

instance (rdepsOf : Nat → List Nat) (fullDeps : List Nat) (node : Nat) :
    Decidable (HasCollected rdepsOf fullDeps node) :=
  inferInstanceAs (Decidable (∃ rdep ∈ rdepsOf node, rdep ∈ fullDeps))

/-- Scanning pushes some nodes, and drops the node if a collected one depends on it. -/
theorem scanRdeps_spec (fullDeps visited : List Nat) (node : Nat)
    (stack reducedDeps rdeps : List Nat) :
    ∃ pushed, pushed.length ≤ rdeps.length ∧
      (scanRdeps fullDeps visited node rdeps (stack, reducedDeps)).1 = pushed ++ stack ∧
      (scanRdeps fullDeps visited node rdeps (stack, reducedDeps)).2 =
        if ∃ rdep ∈ rdeps, rdep ∈ fullDeps then reducedDeps.filter (· ≠ node)
        else reducedDeps := by
  induction rdeps generalizing stack with
  | nil => exact ⟨[], le_rfl, rfl, by simp [scanRdeps]⟩
  | cons rdep rdeps induction =>
      rw [scanRdeps]
      have pushes : ∃ pushed : List Nat, pushed.length ≤ 1 ∧
          (if rdep ∈ visited then stack else rdep :: stack) = pushed ++ stack := by
        split_ifs
        · exact ⟨[], Nat.zero_le _, rfl⟩
        · exact ⟨[rdep], le_rfl, rfl⟩
      rcases pushes with ⟨first, short, isFirst⟩
      simp only [isFirst]
      by_cases collected : rdep ∈ fullDeps
      · rw [if_pos collected, if_pos ⟨rdep, List.mem_cons_self .., collected⟩]
        exact ⟨first, by rw [List.length_cons]; omega, rfl, rfl⟩
      · rw [if_neg collected]
        rcases induction (first ++ stack) with ⟨pushed, bounded, stack_eq, kept⟩
        refine ⟨pushed ++ first, ?_, ?_, ?_⟩
        · rw [List.length_append, List.length_cons]
          omega
        · rw [stack_eq, List.append_assoc]
        · rw [kept]
          simp [collected]

/-- What the traversal has done so far. -/
structure Traversed (rdepsOf : Nat → List Nat) (fullDeps stack visited reducedDeps : List Nat) :
    Prop where
  reached : ∀ x ∈ fullDeps, x ∈ stack ∨ x ∈ visited
  mem_reduced : ∀ x, x ∈ reducedDeps ↔
    x ∈ fullDeps ∧ ¬ (x ∈ visited ∧ HasCollected rdepsOf fullDeps x)

/-- The nodes that may still be pushed, and those on the stack. -/
def stepsLeft (rdepsOf : Nat → List Nat) (n : Nat) (stack visited : List Nat) : Nat :=
  stack.length +
    ∑ i ∈ Finset.range n \ visited.toFinset, (rdepsOf i).length

/-- Visiting a node uses up its reverse dependencies. -/
theorem stepsLeft_visit (bounded : ∀ i, n ≤ i → rdepsOf i = []) (fresh : node ∉ visited) :
    ∑ i ∈ Finset.range n \ (node :: visited).toFinset, (rdepsOf i).length +
        (rdepsOf node).length =
      ∑ i ∈ Finset.range n \ visited.toFinset, (rdepsOf i).length := by
  rw [List.toFinset_cons, Finset.sdiff_insert]
  by_cases inside : node < n
  · apply Finset.sum_erase_add
    simp [inside, fresh]
  · rw [bounded node (not_lt.mp inside), Finset.erase_eq_of_notMem (by simp [inside])]
    exact rfl

theorem Traversed.pop
    (traversed : Traversed rdepsOf fullDeps (node :: stack) visited reducedDeps)
    (known : node ∈ visited) : Traversed rdepsOf fullDeps stack visited reducedDeps where
  reached x member := by
    rcases traversed.reached x member with isNext | isVisited
    · rcases List.mem_cons.mp isNext with rfl | inStack
      · exact .inr known
      · exact .inl inStack
    · exact .inr isVisited
  mem_reduced := traversed.mem_reduced

theorem Traversed.visit (pushed : List Nat)
    (traversed : Traversed rdepsOf fullDeps (node :: stack) visited reducedDeps) :
    Traversed rdepsOf fullDeps (pushed ++ stack) (node :: visited)
      (if ∃ rdep ∈ rdepsOf node, rdep ∈ fullDeps then reducedDeps.filter (· ≠ node)
        else reducedDeps) where
  reached x member := by
    rcases traversed.reached x member with isNext | isVisited
    · rcases List.mem_cons.mp isNext with rfl | inStack
      · exact .inr (List.mem_cons_self ..)
      · exact .inl (List.mem_append_right _ inStack)
    · exact .inr (List.mem_cons_of_mem _ isVisited)
  mem_reduced x := by
    have kept := traversed.mem_reduced x
    by_cases collected : ∃ rdep ∈ rdepsOf node, rdep ∈ fullDeps
    · rw [if_pos collected, List.mem_filter, kept, List.mem_cons]
      by_cases same : x = node
      · have isCollected : HasCollected rdepsOf fullDeps x := same ▸ collected
        simp [same, same ▸ isCollected]
      · simp [same]
    · rw [if_neg collected, kept, List.mem_cons]
      by_cases same : x = node
      · have notCollected : ¬ HasCollected rdepsOf fullDeps x := same ▸ collected
        simp [notCollected]
      · simp [same]

/-- At the end all collected nodes were visited. -/
theorem Traversed.finished (traversed : Traversed rdepsOf fullDeps [] visited reducedDeps) :
    reducedDeps.filter (fun x => ¬ HasCollected rdepsOf fullDeps x) = reducedDeps := by
  apply List.filter_eq_self.mpr
  intro x member
  rcases (traversed.mem_reduced x).mp member with ⟨isFull, kept⟩
  have isVisited := (traversed.reached x isFull).resolve_left List.not_mem_nil
  exact decide_eq_true fun collected => kept ⟨isVisited, collected⟩

/-- The traversal ends and keeps the nodes on which no collected one depends directly. -/
theorem reduceLoop_spec (bounded : ∀ i, n ≤ i → rdepsOf i = []) {fuel : Nat}
    (enough : stepsLeft rdepsOf n stack visited ≤ fuel)
    (traversed : Traversed rdepsOf fullDeps stack visited reducedDeps) :
    reduceLoop rdepsOf fullDeps fuel stack visited reducedDeps =
      .ok (reducedDeps.filter fun x => ¬ HasCollected rdepsOf fullDeps x) := by
  induction fuel generalizing stack visited reducedDeps with
  | zero =>
      cases stack with
      | nil =>
          rw [traversed.finished]
          exact rfl
      | cons node stack =>
          rw [stepsLeft, List.length_cons] at enough
          omega
  | succ fuel induction =>
      cases stack with
      | nil =>
          rw [traversed.finished]
          exact rfl
      | cons node stack =>
          rw [stepsLeft, List.length_cons] at enough
          rw [reduceLoop]
          by_cases known : node ∈ visited
          · rw [if_pos known]
            exact induction (by rw [stepsLeft]; omega) (traversed.pop known)
          · rw [if_neg known]
            rcases scanRdeps_spec fullDeps (node :: visited) node stack reducedDeps
              (rdepsOf node) with ⟨pushed, short, stack_eq, kept_eq⟩
            have uses := stepsLeft_visit bounded known
            simp only [stack_eq, kept_eq]
            rw [induction (by rw [stepsLeft, List.length_append]; omega)
              (traversed.visit pushed)]
            congr 1
            split_ifs with collected
            · rw [List.filter_filter]
              apply List.filter_congr
              intro x _
              by_cases same : x = node
              · simp [same, show HasCollected rdepsOf fullDeps node from collected]
              · simp [same]
            · exact rfl

end Loop

namespace Entity

/-! ## Indexes and changes -/

section Indexes

variable {e : Entity} {c dep : String} {i j : Nat}

theorem Graph.exists_index (graph : Graph e) {ch : Change} (member : (c, ch) ∈ e.changes) :
    ∃ i, e.changes[i]? = some (c, ch) ∧ e.applied c = some i := by
  rcases List.getElem?_of_mem member with ⟨i, found⟩
  exact ⟨i, found, (graph.applied_iff c i).mpr ⟨ch, found⟩⟩

/-- The recorded dependencies are the direct ones. -/
theorem Graph.directDep_iff (graph : Graph e) (isDep : e.applied dep = some j)
    (isChange : e.applied c = some i) : e.DirectDep dep c ↔ j ∈ e.depsOf i := by
  rw [graph.deps_iff, DependsOn]
  constructor
  · rintro ⟨ch, member, named⟩
    rcases graph.exists_index member with ⟨i', found, isIndex⟩
    rw [isChange, Option.some.injEq] at isIndex
    exact ⟨(c, ch), isIndex ▸ found, dep, named, isDep⟩
  · rintro ⟨⟨c', ch⟩, found, dep', named, isDep'⟩
    have same := graph.injective c c' i isChange ((graph.applied_iff c' i).mpr ⟨ch, found⟩)
    have same' := graph.injective dep dep' j isDep isDep'
    rw [same, same']
    exact ⟨ch, List.mem_of_getElem? found, named⟩

theorem Graph.indexes_of_directDep (graph : Graph e) (direct : e.DirectDep dep c) :
    ∃ i j, e.applied c = some i ∧ e.applied dep = some j ∧ j ∈ e.depsOf i ∧ j < i := by
  have isDirect := direct
  rcases isDirect with ⟨ch, member, named⟩
  rcases graph.exists_index member with ⟨i, -, isIndex⟩
  rcases Option.isSome_iff_exists.mp (graph.deps_applied _ member dep named) with ⟨j, isDep⟩
  have recorded := (graph.directDep_iff isDep isIndex).mp direct
  exact ⟨i, j, isIndex, isDep, recorded, graph.deps_lt i j recorded⟩

/-- What depends on a change has a greater index. -/
theorem Graph.lt_of_below (graph : Graph e) (below : TransGen e.DirectDep dep c) :
    ∃ i j, e.applied c = some i ∧ e.applied dep = some j ∧ j < i := by
  induction below with
  | single direct =>
      rcases graph.indexes_of_directDep direct with ⟨i, j, isChange, isDep, -, less⟩
      exact ⟨i, j, isChange, isDep, less⟩
  | tail _ direct induction =>
      rcases graph.indexes_of_directDep direct with ⟨i, j, isChange, isDep, -, less⟩
      rcases induction with ⟨j', k, isDep', isFirst, less'⟩
      rw [isDep, Option.some.injEq] at isDep'
      exact ⟨i, k, isChange, isFirst, by omega⟩

theorem Graph.wellFounded (graph : Graph e) :
    WellFounded fun a b => TransGen e.DirectDep b a := by
  apply Subrelation.wf _
    (measure fun c => e.changes.length - (e.applied c).getD 0).wf
  intro c dep below
  rcases graph.lt_of_below below with ⟨i, j, isChange, isDep, less⟩
  have := graph.lt_length isChange
  change e.changes.length - (e.applied c).getD 0 < e.changes.length - (e.applied dep).getD 0
  rw [isChange, isDep, Option.getD_some, Option.getD_some]
  omega

/-- A change is a dependency of a head when its index is recorded for one. -/
theorem Graph.headDep_iff (graph : Graph e) (isDep : e.applied dep = some j) :
    e.HeadDep dep ↔ ∃ head ∈ e.heads, ∃ i, e.applied head = some i ∧ j ∈ e.depsOf i := by
  constructor
  · rintro ⟨head, isHead, direct⟩
    rcases graph.indexes_of_directDep direct with ⟨i, j', isIndex, isDep', recorded, -⟩
    rw [isDep, Option.some.injEq] at isDep'
    exact ⟨head, isHead, i, isIndex, isDep' ▸ recorded⟩
  · rintro ⟨head, isHead, i, isIndex, recorded⟩
    exact ⟨head, isHead, (graph.directDep_iff isDep isIndex).mpr recorded⟩

end Indexes

/-! ## Collecting and returning -/

section Collect

variable {e : Entity}

theorem mem_foldl_set (deps : List Nat) {fullDeps : List Nat}
    (sorted : KeyedList.Sorted (fun i => i) fullDeps) :
    KeyedList.Sorted (fun i => i)
        (deps.foldl (fun fullDeps dep => KeyedList.set (fun i => i) dep fullDeps) fullDeps) ∧
      ∀ x, x ∈ deps.foldl (fun fullDeps dep => KeyedList.set (fun i => i) dep fullDeps)
        fullDeps ↔ x ∈ deps ∨ x ∈ fullDeps := by
  induction deps generalizing fullDeps with
  | nil => exact ⟨sorted, by simp⟩
  | cons dep deps induction =>
      rcases induction (KeyedList.sorted_set sorted dep) with ⟨sorted', mem_iff⟩
      refine ⟨sorted', fun x => ?_⟩
      rw [List.foldl_cons, mem_iff, KeyedList.mem_set_of_agree sorted fun _ _ same => same,
        List.mem_cons]
      tauto

/-- The collected indexes, each once. -/
theorem Graph.collectDeps (graph : Graph e) {heads : List String} {fullDeps : List Nat}
    (areApplied : ∀ head ∈ heads, (e.applied head).isSome)
    (sorted : KeyedList.Sorted (fun i => i) fullDeps) :
    ∃ collected, e.collectDeps heads fullDeps = .ok collected ∧ collected.Nodup ∧
      ∀ x, x ∈ collected ↔
        x ∈ fullDeps ∨ ∃ head ∈ heads, ∃ i, e.applied head = some i ∧ x ∈ e.depsOf i := by
  induction heads generalizing fullDeps with
  | nil => exact ⟨fullDeps, rfl, sorted.nodup, by simp⟩
  | cons head heads induction =>
      rw [List.forall_mem_cons] at areApplied
      rcases Option.isSome_iff_exists.mp areApplied.1 with ⟨ihead, isIndex⟩
      have inside : ihead < e.deps.length :=
        (graph.lt_length isIndex).trans_eq graph.deps_length.symm
      have row : e.depsOf ihead = e.deps[ihead] := by
        rw [depsOf, List.getD_eq_getElem?_getD, List.getElem?_eq_getElem inside]
        exact rfl
      rcases mem_foldl_set e.deps[ihead] sorted with ⟨sorted', mem_iff⟩
      rcases induction areApplied.2 sorted' with ⟨collected, returned, nodup, mem_collected⟩
      refine ⟨collected, ?_, nodup, fun x => ?_⟩
      · simp only [Entity.collectDeps, isIndex, List.getElem?_eq_getElem inside]
        exact returned
      · rw [mem_collected, mem_iff, ← row, List.exists_mem_cons_iff, isIndex]
        simp only [Option.some.injEq, exists_eq_left']
        tauto

/-- The CIDs of changes are those at their indexes. -/
theorem Graph.mapM_changes (graph : Graph e) {indexes : List Nat}
    (areChanges : ∀ i ∈ indexes, ∃ c, e.applied c = some i) (nodup : indexes.Nodup) :
    ∃ cids, (indexes.mapM fun dep : Nat =>
        (match e.changes[dep]? with
          | none => panicWith "index out of range"
          | some change => pure change.1 : Outcome String)) = .ok cids ∧
      cids.Nodup ∧ ∀ c, c ∈ cids ↔ ∃ i ∈ indexes, e.applied c = some i := by
  induction indexes with
  | nil => exact ⟨[], rfl, List.nodup_nil, by simp⟩
  | cons i indexes induction =>
      rw [List.forall_mem_cons] at areChanges
      rw [List.nodup_cons] at nodup
      rcases areChanges.1 with ⟨c, isIndex⟩
      rcases (graph.applied_iff c i).mp isIndex with ⟨ch, found⟩
      rcases induction areChanges.2 nodup.2 with ⟨cids, returned, nodup', mem_iff⟩
      refine ⟨c :: cids, ?_, ?_, fun c' => ?_⟩
      · rw [List.mapM_cons, found, returned]
        exact rfl
      · rw [List.nodup_cons]
        refine ⟨fun member => ?_, nodup'⟩
        rcases (mem_iff c).mp member with ⟨i', inRest, isIndex'⟩
        rw [isIndex, Option.some.injEq] at isIndex'
        exact nodup.1 (isIndex' ▸ inRest)
      · rw [List.mem_cons, mem_iff, List.exists_mem_cons_iff]
        apply or_congr_left
        constructor
        · rintro rfl
          exact isIndex
        · exact fun isIndex' => graph.injective c' c i isIndex' isIndex

theorem headDeps_of_several (fuel : Nat) (order : IndexOrder) (several : 2 ≤ e.heads.length) :
    e.headDeps fuel order = (do
      let fullDeps ← e.collectDeps e.heads []
      let reducedDeps ← reduceLoop e.rdepsOf fullDeps fuel (order.visit 0 fullDeps) [] fullDeps
      (order.visit 1 reducedDeps).mapM fun dep =>
        match e.changes[dep]? with
        | none => panicWith "index out of range"
        | some change => pure change.1) := by
  rw [headDeps]
  split
  · next none =>
      rw [none] at several
      cases several
  · next head single =>
      rw [single, List.length_singleton] at several
      omega
  · exact rfl

/-- A collected index is that of a dependency of a head. -/
theorem Graph.exists_headDep (graph : Graph e) {head : String} {i j : Nat}
    (isHead : head ∈ e.heads) (isIndex : e.applied head = some i) (recorded : j ∈ e.depsOf i) :
    ∃ dep, e.applied dep = some j ∧ e.HeadDep dep := by
  rcases (graph.deps_iff i j).mp recorded with ⟨change, found, dep, named, isDep⟩
  exact ⟨dep, isDep, (graph.headDep_iff isDep).mpr ⟨head, isHead, i, isIndex, recorded⟩⟩

/-- A collected change depends on one directly when this is so for their indexes. -/
theorem Graph.shadowed_iff (graph : Graph e) {fullDeps : List Nat}
    (mem_full : ∀ x, x ∈ fullDeps ↔
      ∃ head ∈ e.heads, ∃ i, e.applied head = some i ∧ x ∈ e.depsOf i)
    {dep : String} {j : Nat} (isDep : e.applied dep = some j) :
    IsShadowed e.DirectDep e.HeadDep dep ↔ HasCollected e.rdepsOf fullDeps j := by
  constructor
  · rintro ⟨c, isCollected, direct⟩
    rcases graph.indexes_of_directDep direct with ⟨i, j', isIndex, isDep', recorded, -⟩
    rw [isDep, Option.some.injEq] at isDep'
    exact ⟨i, (graph.rdeps_iff j i).mpr (isDep' ▸ recorded),
      (mem_full i).mpr ((graph.headDep_iff isIndex).mp isCollected)⟩
  · rintro ⟨i, recorded, isCollected⟩
    rcases (mem_full i).mp isCollected with ⟨head, isHead, k, isHeadIndex, below⟩
    rcases graph.exists_headDep isHead isHeadIndex below with ⟨c, isIndex, isHeadDep⟩
    exact ⟨c, isHeadDep,
      (graph.directDep_iff isDep isIndex).mpr ((graph.rdeps_iff j i).mp recorded)⟩

/-- The changes that `Deps` returns are those on which no collected one depends directly. -/
theorem Graph.headDeps_converges (graph : Graph e) (order : IndexOrder)
    (several : 2 ≤ e.heads.length) :
    ∃ out, Converges (fun fuel => e.headDeps fuel order) (.ok out) ∧ out.Nodup ∧
      ∀ dep, dep ∈ out ↔ e.HeadDep dep ∧ ¬ IsShadowed e.DirectDep e.HeadDep dep := by
  have areApplied : ∀ head ∈ e.heads, (e.applied head).isSome := fun head isHead =>
    ((graph.heads_iff head).mp isHead).1
  rcases graph.collectDeps areApplied .nil with ⟨fullDeps, collected, nodup, mem_full⟩
  simp only [List.not_mem_nil, false_or] at mem_full
  have bounded : ∀ i, e.changes.length ≤ i → e.rdepsOf i = [] := by
    intro i outside
    rw [rdepsOf, List.getD_eq_getElem?_getD,
      List.getElem?_eq_none (graph.rdeps_length.trans_le outside)]
    exact rfl
  have traversed : Traversed e.rdepsOf fullDeps (order.visit 0 fullDeps) [] fullDeps :=
    ⟨fun x member => .inl ((order.perm 0 fullDeps).mem_iff.mpr member), by simp⟩
  set reduced := fullDeps.filter fun x => ¬ HasCollected e.rdepsOf fullDeps x with reduced_eq
  have mem_visited : ∀ i, i ∈ order.visit 1 reduced ↔
      i ∈ fullDeps ∧ ¬ HasCollected e.rdepsOf fullDeps i := by
    intro i
    rw [(order.perm 1 reduced).mem_iff, reduced_eq, List.mem_filter, decide_eq_true_eq]
  have areChanges : ∀ i ∈ order.visit 1 reduced, ∃ c, e.applied c = some i := by
    intro i member
    rcases (mem_full i).mp ((mem_visited i).mp member).1 with
      ⟨head, isHead, k, isIndex, recorded⟩
    rcases graph.exists_headDep isHead isIndex recorded with ⟨dep, isDep, -⟩
    exact ⟨dep, isDep⟩
  have reducedNodup : (order.visit 1 reduced).Nodup :=
    (order.perm 1 reduced).nodup_iff.mpr (nodup.filter _)
  rcases graph.mapM_changes areChanges reducedNodup with ⟨out, returned, outNodup, mem_out⟩
  refine ⟨out, ⟨stepsLeft e.rdepsOf e.changes.length (order.visit 0 fullDeps) [], ?_⟩,
    outNodup, fun dep => ?_⟩
  · intro fuel enough
    have loop := reduceLoop_spec bounded enough traversed
    change e.headDeps fuel order = .ok out
    rw [headDeps_of_several fuel order several, collected, ok_bind, loop, ok_bind]
    exact returned
  · rw [mem_out]
    constructor
    · rintro ⟨j, member, isDep⟩
      rcases (mem_visited j).mp member with ⟨isFull, notCollected⟩
      rw [graph.headDep_iff isDep, graph.shadowed_iff mem_full isDep]
      exact ⟨(mem_full j).mp isFull, notCollected⟩
    · rintro ⟨isHeadDep, notShadowed⟩
      have isDirect := isHeadDep
      rcases isDirect with ⟨head, -, direct⟩
      rcases graph.indexes_of_directDep direct with ⟨i, j, -, isDep, -, -⟩
      rw [graph.headDep_iff isDep] at isHeadDep
      rw [graph.shadowed_iff mem_full isDep] at notShadowed
      exact ⟨j, (mem_visited j).mpr ⟨(mem_full j).mpr isHeadDep, notShadowed⟩, isDep⟩

end Collect

/-! ## Reduced dependencies -/

section Reduced

variable {e : Entity} {order : IndexOrder}

/--
`Deps` returns the reduced dependencies of two or more heads exactly when every collected
dependency that is an ancestor of another one is also a direct dependency of one.
-/
theorem reducesDeps_iff {encodeBlob : Change → Except String String} {id : String}
    (run : Reaches (call encodeBlob) (fun _ _ => True) (newEntity id) e)
    (several : 2 ≤ e.heads.length) :
    ReducesDeps order e ↔ ShadowsDirectly e.DirectDep e.HeadDep := by
  have graph := graph_of_reaches run
  rcases graph.headDeps_converges order several with ⟨out, returned, nodup, mem_out⟩
  rw [← unshadowed_iff_maximal]
  constructor
  · rintro ⟨out', returned', -, mem_iff, -⟩ dep
    have same := Except.ok.inj (returned.unique returned')
    rw [← mem_out, same, mem_iff]
  · intro same
    have mem_iff : ∀ dep, dep ∈ out ↔ IsMaximal e.DirectDep e.HeadDep dep := fun dep =>
      (mem_out dep).trans (same dep)
    refine ⟨out, returned, nodup, mem_iff, ?_, ?_⟩
    · intro dep member dep' member'
      exact ((mem_iff dep).mp member).2 dep' ((mem_iff dep').mp member').1
    · intro dep isDep
      rcases exists_maximal graph.wellFounded isDep with ⟨dep', maximal, above⟩
      exact ⟨dep', (mem_iff dep').mpr maximal, above⟩

end Reduced

/-! ## A sample -/

/--
Two heads with the dependencies `"c"` and `"a"`, where `"c"` depends on `"a"` over `"x"`,
which no head depends on.
-/
def skippedLink : List EntityCall :=
  [offered "a" [] 1, offered "x" ["a"] 2, offered "c" ["x"] 3, offered "d" ["c"] 4,
    offered "e" ["a"] 5]

theorem skippedLink_performed :
    (performAll (call fun _ => .error "") (newEntity "hm://d/doc") skippedLink).isSome := by
  decide +kernel

/-- An entity with two heads, of which one depends on the first change only. -/
def skippedEntity : Entity :=
  (performAll (call fun _ => .error "") (newEntity "hm://d/doc") skippedLink).get
    skippedLink_performed

theorem reducesDeps_iff_skipped :
    ReducesDeps .listed skippedEntity ↔
      ShadowsDirectly skippedEntity.DirectDep skippedEntity.HeadDep :=
  reducesDeps_iff (reaches_get skippedLink skippedLink_performed) (by decide +kernel)

/-- `Deps` returns two changes, of which one is an ancestor of the other. -/
theorem skipped_dep_is_returned :
    Reaches (call fun _ => .error "") (fun _ _ => True) (newEntity "hm://d/doc")
        skippedEntity ∧
      skippedEntity.heads = ["d", "e"] ∧
      Converges (fun fuel => skippedEntity.headDeps fuel .listed) (.ok ["a", "c"]) ∧
      ¬ ReducesDeps .listed skippedEntity := by
  have returned : Converges (fun fuel => skippedEntity.headDeps fuel .listed)
      (.ok ["a", "c"]) := .of_add 8 fun fuel => rfl
  refine ⟨reaches_get skippedLink skippedLink_performed, by decide +kernel, returned, ?_⟩
  rintro ⟨out, returned', -, -, separate, -⟩
  have same : ["a", "c"] = out := Except.ok.inj (returned.unique returned')
  have isX : skippedEntity.changes[1]? = some ("x", sampleUpdate ["a"] 2) := rfl
  have isC : skippedEntity.changes[2]? = some ("c", sampleUpdate ["x"] 3) := rfl
  apply separate "a" (by simp [← same]) "c" (by simp [← same])
  exact .tail (.single ⟨_, List.mem_of_getElem? isX, by simp [sampleUpdate]⟩)
    ⟨_, List.mem_of_getElem? isC, by simp [sampleUpdate]⟩

end Entity

end Mintter.Hyper
