import Mathlib.Data.Finset.Dedup
import Mintter.Docmodel.SampleKeys
import Mintter.Docmodel.VisibleTree

/-!
# Convergence of replicas

Replicas receive the same operations in different orders.  The siblings under
one parent are the causal insertion of the operations of that parent, and the
winners of the blocks are a function of the sorted log of operations.  Neither
depends on the order of arrival.
-/

namespace Mintter.Docmodel

open Mintter.Foundation
open TreeMutation

/-- Integrate operations in their order of arrival. -/
def integrateAll (K : Fracdex) :
    List MoveOp → TreeCRDT → Outcome (Except String TreeCRDT)
  | [], state => pure (.ok state)
  | op :: rest, state => do
      match ← state.integrateOp K op with
      | .error err => pure (.error err)
      | .ok state => integrateAll K rest state

/-! ## Winners of operations -/

/-- The winning operation of every block. -/
abbrev Winners := String → Option MoveOp

namespace Winners

/-- The parent below which a block was moved last. -/
def parentOf (winners : Winners) (block : String) : String :=
  ((winners block).map MoveOp.parent).getD ""

open Classical in
/-- The later operation of a block wins unless it makes a cycle. -/
noncomputable def step (winners : Winners) (op : MoveOp) : Winners :=
  if Climbs winners.parentOf TreeMutation.IsTop op.block
      (winners.parentOf op.parent) then winners
  else Function.update winners op.block (some op)

end Winners

/-- The winning operations of a replay. -/
def TreeMutation.winners (vt : TreeMutation) : Winners :=
  fun block => (vt.originalWinners block).map Move.op

section Winners

variable {seen : List Move} {vt : TreeMutation} {x : Move} {K : Fracdex}
    {state : TreeCRDT}

/-- After a replay the parents are those of the winners. -/
theorem TreeMutation.Replayed.parents_eq_winners (replayed : Replayed seen vt)
    (block : String) :
    vt.parents block = (vt.winners block).map MoveOp.parent := by
  rw [replayed.parents_eq, winners, Option.map_map]
  rfl

theorem TreeMutation.Replayed.parentOf_eq_winners (replayed : Replayed seen vt) :
    vt.parentOf = vt.winners.parentOf := by
  funext block
  rw [parentOf, replayed.parents_eq_winners]
  rfl

/-- One step of a replay is one step of the winners. -/
theorem TreeMutation.Replayed.winners_resolveStep (replayed : Replayed seen vt) :
    (vt.resolveStep x).winners = vt.winners.step x.op := by
  rw [TreeMutation.resolveStep, Winners.step, Above,
    replayed.parentOf_eq_winners, Move.op_block, Move.op_parent]
  split_ifs with above
  · rfl
  · funext block
    change (Function.update vt.originalWinners x.block (some x) block).map _ =
      Function.update vt.winners x.block (some x.op) block
    by_cases same : block = x.block
    · subst same
      simp
    · rw [Function.update_of_ne same, Function.update_of_ne same]
      rfl

/-- The winners depend on the operations of the log only. -/
theorem winners_resolve (valid : state.Valid K) (noSelf : state.NoSelfMove) :
    state.resolve.winners =
      (state.log.map Move.op).foldl Winners.step fun _ => none := by
  suffices general : ∀ (rest seen : List Move) (vt : TreeMutation),
      state.log = seen ++ rest → Replayed seen vt →
      (rest.foldl resolveStep vt).winners =
        (rest.map Move.op).foldl Winners.step vt.winners from
    general state.log [] state.blank rfl state.blank_replayed
  intro rest
  induction rest with
  | nil => exact fun _ _ _ _ => rfl
  | cons x rest induction =>
      intro seen vt split replayed
      have fresh : x ∉ seen := fun member =>
        (valid.later split x member).false
      rw [List.foldl_cons, induction (seen ++ [x]) _ (by simpa using split)
        (replayed.resolveStep fresh (noSelf x (by simp [split]))),
        replayed.winners_resolveStep]
      rfl

/-- A move is visible when its operation wins. -/
theorem invisible_iff_winners (valid : state.Valid K)
    (noSelf : state.NoSelfMove) (member : x ∈ state.log) :
    x ∈ state.resolve.originalInvisibleMoves ↔
      state.resolve.winners x.block ≠ some x.op := by
  have replayed := resolve_replayed valid noSelf
  rw [replayed.invisible_iff, winners]
  constructor
  · rintro ⟨_, hidden⟩ wins
    obtain ⟨y, isWinner, sameOp⟩ := Option.map_eq_some_iff.mp wins
    have inLog := (replayed.winner_mem isWinner).1
    obtain rfl := valid.log_sorted.key_injective inLog member
      (congrArg MoveOp.opID sameOp)
    exact hidden isWinner
  · refine fun hidden => ⟨member, fun wins => hidden ?_⟩
    rw [wins]
    rfl

/-- The operations of the visible children, as a function of operations. -/
theorem map_op_visibleChildren (valid : state.Valid K)
    (noSelf : state.NoSelfMove) (parent : String) :
    (state.resolve.settle.visibleChildren parent).map Move.op =
      ((siblings state.tree parent).map Move.op).filter fun op =>
        state.resolve.winners op.block = some op := by
  have tree_eq : state.resolve.settle.tree = state.tree := state.resolve_tree
  rw [visibleChildren_eq (tree_eq ▸ valid.treeIndex), visibleUnder, tree_eq,
    List.filter_map]
  congr 1
  refine List.filter_congr fun x member => ?_
  have inLog := valid.mem_tree.mp (mem_siblings.mp member).1
  have hidden := invisible_iff_winners valid noSelf inLog
  change decide (x ∉ state.resolve.originalInvisibleMoves) =
    decide (state.resolve.winners x.block = some x.op)
  simp [hidden]

end Winners

/-! ## States with the same operations -/

/-- Two states hold the same operations in the same places. -/
structure SameOperations (state state' : TreeCRDT) : Prop where
  log_eq : state.log.map Move.op = state'.log.map Move.op
  siblings_eq : ∀ parent, (siblings state.tree parent).map Move.op =
    (siblings state'.tree parent).map Move.op

section Same

variable {K : Fracdex} {state state' : TreeCRDT}

/-- States with the same operations have the same winners. -/
theorem SameOperations.winners_eq (same : SameOperations state state')
    (valid : state.Valid K) (valid' : state'.Valid K)
    (noSelf : state.NoSelfMove) (noSelf' : state'.NoSelfMove) :
    state.resolve.winners = state'.resolve.winners := by
  rw [winners_resolve valid noSelf, winners_resolve valid' noSelf', same.log_eq]

/-- States with the same operations have the same parents. -/
theorem SameOperations.parents_eq (same : SameOperations state state')
    (valid : state.Valid K) (valid' : state'.Valid K)
    (noSelf : state.NoSelfMove) (noSelf' : state'.NoSelfMove) :
    state.resolve.parents = state'.resolve.parents := by
  funext block
  rw [(resolve_replayed valid noSelf).parents_eq_winners,
    (resolve_replayed valid' noSelf').parents_eq_winners,
    same.winners_eq valid valid' noSelf noSelf']

/-- The walks over the visible trees meet the same operations. -/
theorem SameOperations.walkDFT_eq (same : SameOperations state state')
    (valid : state.Valid K) (valid' : state'.Valid K)
    (noSelf : state.NoSelfMove) (noSelf' : state'.NoSelfMove) {σ : Type}
    (fn : σ → MoveOp → Outcome (σ × Bool)) (fuel : Nat) (start : σ) :
    state.resolve.settle.walkDFT fuel (fun acc m => fn acc m.op) start =
      state'.resolve.settle.walkDFT fuel (fun acc m => fn acc m.op) start := by
  have children : ∀ parent, List.Forall₂ (fun x y : Move => x.op = y.op)
      (state.resolve.settle.visibleChildren parent)
      (state'.resolve.settle.visibleChildren parent) := by
    intro parent
    have mapped : (state.resolve.settle.visibleChildren parent).map Move.op =
        (state'.resolve.settle.visibleChildren parent).map Move.op := by
      rw [map_op_visibleChildren valid noSelf,
        map_op_visibleChildren valid' noSelf', same.siblings_eq,
        same.winners_eq valid valid' noSelf noSelf']
    rw [← List.forall₂_eq_eq_eq, List.forall₂_map_left_iff,
      List.forall₂_map_right_iff] at mapped
    exact mapped
  refine walkLoop_congr (fun x y => x.op = y.op) ?_ ?_ fuel
    (children "") start
  · intro x y related
    rw [show x.block = y.block from congrArg MoveOp.block related]
    exact children y.block
  · intro acc x y related
    rw [related]

end Same

/-! ## Deliveries -/

/--
Operations that replicas exchange: unique identifiers, one move for each block
and origin, no block under itself or in place of the trash, and every left
reference names an earlier operation under the same parent.
-/
structure Exchanged (ops : Finset MoveOp) : Prop where
  opID_injective : ∀ op ∈ ops, ∀ op' ∈ ops, op.opID = op'.opID → op = op'
  origin_named : ∀ {op}, op ∈ ops → op.opID.origin ≠ ""
  single : ∀ op ∈ ops, ∀ op' ∈ ops, op.block = op'.block →
    op.opID.origin = op'.opID.origin → op = op'
  noSelf : ∀ {op}, op ∈ ops → op.block ≠ op.parent
  block_ne_trash : ∀ {op}, op ∈ ops → op.block ≠ trashNodeID
  left_known : ∀ {op}, op ∈ ops → ¬ (op.left = "" ∧ op.leftOrigin = "") →
    ∃ target ∈ ops, target.parent = op.parent ∧ target.block = op.left ∧
      target.opID.origin = op.leftOrigin ∧ target.opID < op.opID

/-- Every operation arrives once, after the operation its left refers to. -/
structure Delivers (ops : Finset MoveOp) (order : List MoveOp) : Prop where
  nodup : order.Nodup
  toFinset_eq : order.toFinset = ops
  causal : ∀ {seen op rest}, order = seen ++ op :: rest →
    ∀ target ∈ ops, target.parent = op.parent → target.block = op.left →
      target.opID.origin = op.leftOrigin → target ∈ seen

section Delivery

variable {K : Fracdex} {ops : Finset MoveOp} {order : List MoveOp}

/-- A delivery has all operations and no others. -/
theorem Delivers.mem_iff (delivers : Delivers ops order) {op : MoveOp} :
    op ∈ order ↔ op ∈ ops := by
  rw [← delivers.toFinset_eq, List.mem_toFinset]

/-- The exchanged operations refer to each other without contradiction. -/
theorem Exchanged.coherent (exchanged : Exchanged ops) :
    siblingInsertion.Coherent (· ∈ ops) where
  id_injective := fun known known' => exchanged.opID_injective _ known _ known'
  ref_unique := by
    intro op first second _ isFirst isSecond refers refers'
    obtain ⟨_, block, origin⟩ := (siblingInsertion_refersTo op first).mp refers
    obtain ⟨_, block', origin'⟩ :=
      (siblingInsertion_refersTo op second).mp refers'
    exact exchanged.single _ isFirst _ isSecond (block.trans block'.symm)
      (origin.trans origin'.symm)

/-- The left reference of an arriving operation was integrated before. -/
theorem Delivers.exists_target (exchanged : Exchanged ops)
    (delivers : Delivers ops order) {seen rest : List MoveOp} {op : MoveOp}
    (split : order = seen ++ op :: rest)
    (notHead : ¬ (op.left = "" ∧ op.leftOrigin = "")) :
    ∃ target ∈ seen, siblingInsertion.refersTo op target ∧
      target.opID < op.opID := by
  have known : op ∈ ops := delivers.mem_iff.mp (by simp [split])
  obtain ⟨target, member, parent, block, origin, less⟩ :=
    exchanged.left_known known notHead
  exact ⟨target, delivers.causal split target member parent block origin,
    (siblingInsertion_refersTo op target).mpr ⟨parent, block, origin⟩, less⟩

/-- The state after the operations `seen` arrived. -/
structure Built (K : Fracdex) (seen : List MoveOp) (state : TreeCRDT) :
    Prop where
  valid : state.Valid K
  mem_log : ∀ {op}, op ∈ state.log.map Move.op ↔ op ∈ seen
  siblings_eq : ∀ parent, (siblings state.tree parent).map Move.op =
    siblingInsertion.build (seen.filter fun op => op.parent = parent)

theorem newTreeCRDT_built : Built K [] newTreeCRDT where
  valid := newTreeCRDT_valid K
  mem_log := by simp [newTreeCRDT]
  siblings_eq := fun _ => rfl

/-- An arriving operation can be integrated. -/
theorem Built.accepts {seen rest : List MoveOp} {op : MoveOp}
    {state : TreeCRDT} (built : Built K seen state)
    (exchanged : Exchanged ops) (delivers : Delivers ops order)
    (split : order = seen ++ op :: rest) : Accepts state op := by
  have known : op ∈ ops := delivers.mem_iff.mp (by simp [split])
  have seenKnown : ∀ x ∈ state.log, x.op ∈ seen ∧ x.op ∈ ops := by
    intro x member
    have inSeen := built.mem_log.mp (List.mem_map_of_mem member)
    exact ⟨inSeen, delivers.mem_iff.mp (by simp [split, inSeen])⟩
  have notSeen : op ∉ seen := by
    have nodup := delivers.nodup
    rw [split] at nodup
    exact fun member =>
      (List.nodup_append.mp nodup).2.2 op member op List.mem_cons_self rfl
  constructor
  · intro x member same
    obtain ⟨inSeen, isKnown⟩ := seenKnown x member
    exact notSeen (exchanged.opID_injective _ isKnown _ known same ▸ inSeen)
  · rintro x member ⟨block, origin⟩
    obtain ⟨inSeen, isKnown⟩ := seenKnown x member
    exact notSeen (exchanged.single _ isKnown _ known block origin ▸ inSeen)
  · intro isTrash
    have notHead : ¬ (op.left = "" ∧ op.leftOrigin = "") := by
      rw [isTrash]
      exact fun head => absurd head.1 (by decide)
    obtain ⟨target, member, _, block, -⟩ := exchanged.left_known known notHead
    exact exchanged.block_ne_trash member (block.trans isTrash)
  · intro named unset
    obtain ⟨target, member, _, _, origin, _⟩ :=
      exchanged.left_known known fun head => named head.1
    exact exchanged.origin_named member (origin.trans unset)
  · by_cases head : op.left = "" ∧ op.leftOrigin = ""
    · exact Or.inl ((siblingInsertion_isHead op).mpr head)
    · obtain ⟨target, inSeen, refers, -⟩ :=
        delivers.exists_target exchanged split head
      obtain ⟨x, member, rfl⟩ := List.mem_map.mp (built.mem_log.mpr inSeen)
      refine Or.inr ⟨x, mem_siblings.mpr ⟨built.valid.mem_tree.mpr member, ?_⟩,
        refers⟩
      exact ((siblingInsertion_refersTo op x.op).mp refers).1

/-- An operation that can be accepted is integrated at its place. -/
theorem Built.step {seen : List MoveOp} {op : MoveOp}
    {state : TreeCRDT} (built : Built K seen state)
    (accepts : Accepts state op) :
    ∃ state', state.integrateOp K op = .ok (.ok state') ∧
      Built K (seen ++ [op]) state' := by
  obtain ⟨x, state', returned, integrated⟩ :=
    integrate_spec built.valid accepts
  refine ⟨state', returned, integrated.valid, ?_, ?_⟩
  · intro op'
    rw [List.mem_append, List.mem_singleton, ← built.mem_log]
    simp only [List.mem_map, integrated.mem_log accepts]
    constructor
    · rintro ⟨y, rfl | old, rfl⟩
      · exact Or.inr integrated.op_eq
      · exact Or.inl ⟨y, old, rfl⟩
    · rintro (⟨y, old, rfl⟩ | rfl)
      · exact ⟨y, Or.inr old, rfl⟩
      · exact ⟨x, Or.inl rfl, integrated.op_eq⟩
  · intro parent
    rw [List.filter_append]
    by_cases here : op.parent = parent
    · subst here
      obtain ⟨before, after, split, split', inserted⟩ := integrated.inserted
      rw [built.siblings_eq] at inserted
      simp only [List.filter_cons, decide_true, ↓reduceIte, List.filter_nil]
      rw [CausalInsertion.build, List.foldl_append, List.foldl_cons,
        List.foldl_nil]
      rw [CausalInsertion.build] at inserted
      rw [inserted, split', List.map_append, List.map_cons, integrated.op_eq]
    · rw [integrated.others parent (Ne.symm here), built.siblings_eq]
      simp [here]

/-- A delivery is integrated without an error. -/
theorem integrateAll_built (exchanged : Exchanged ops)
    (delivers : Delivers ops order) :
    ∃ state, integrateAll K order newTreeCRDT = .ok (.ok state) ∧
      Built K order state := by
  suffices general : ∀ (rest seen : List MoveOp) (state : TreeCRDT),
      order = seen ++ rest → Built K seen state →
      ∃ state', integrateAll K rest state = .ok (.ok state') ∧
        Built K order state' from
    general order [] newTreeCRDT rfl newTreeCRDT_built
  intro rest
  induction rest with
  | nil =>
      intro seen state split built
      refine ⟨state, rfl, ?_⟩
      rwa [split, List.append_nil]
  | cons op rest induction =>
      intro seen state split built
      obtain ⟨next, returned, built'⟩ :=
        built.step (built.accepts exchanged delivers split)
      obtain ⟨final, reached, built''⟩ :=
        induction (seen ++ [op]) next (by simpa using split) built'
      exact ⟨final, by simp [integrateAll, returned, reached], built''⟩

/-- The operations of one parent arrive in a causal order. -/
theorem Delivers.causalOrder (exchanged : Exchanged ops)
    (delivers : Delivers ops order) (parent : String) :
    siblingInsertion.CausalOrder
      (order.filter fun op => op.parent = parent) where
  nodup := delivers.nodup.filter _
  ready := by
    intro seen op rest split
    obtain ⟨front, back, rfl, inFront, inBack⟩ :=
      List.filter_eq_append_iff.mp split
    obtain ⟨skipped, later, rfl, noneSkipped, under, rfl⟩ :=
      List.filter_eq_cons_iff.mp inBack
    have isUnder : op.parent = parent := by simpa using under
    by_cases head : op.left = "" ∧ op.leftOrigin = ""
    · exact Or.inl ((siblingInsertion_isHead op).mpr head)
    · refine Or.inr ⟨fun isHead =>
        head ((siblingInsertion_isHead op).mp isHead), ?_⟩
      obtain ⟨target, arrived, refers, less⟩ :=
        delivers.exists_target exchanged
          (show _ = (front ++ skipped) ++ op :: later by simp) head
      have sameParent : target.parent = parent :=
        ((siblingInsertion_refersTo op target).mp refers).1.trans isUnder
      refine ⟨target, ?_, refers, less⟩
      rcases List.mem_append.mp arrived with isFront | isSkipped
      · rw [← inFront]
        exact List.mem_filter.mpr ⟨isFront, by simpa using sameParent⟩
      · exact absurd (by simpa using sameParent) (noneSkipped target isSkipped)

/-- No block was moved below itself. -/
theorem Built.noSelfMove {state : TreeCRDT} (built : Built K order state)
    (exchanged : Exchanged ops) (delivers : Delivers ops order) :
    state.NoSelfMove := by
  intro x member
  have inOrder := built.mem_log.mp (List.mem_map_of_mem (f := Move.op) member)
  exact fun self => exchanged.noSelf (delivers.mem_iff.mp inOrder) self.1

/-- Two deliveries of the same operations build the same places. -/
theorem Built.sameOperations {order' : List MoveOp} {state state' : TreeCRDT}
    (built : Built K order state) (built' : Built K order' state')
    (exchanged : Exchanged ops) (delivers : Delivers ops order)
    (delivers' : Delivers ops order') : SameOperations state state' := by
  have members : ∀ op, op ∈ order ↔ op ∈ order' := fun op =>
    delivers.mem_iff.trans delivers'.mem_iff.symm
  have perm : order.Perm order' :=
    (List.perm_ext_iff_of_nodup delivers.nodup delivers'.nodup).mpr members
  constructor
  · have sorted : ∀ {moves : List Move}, KeyedList.Sorted Move.opID moves →
        KeyedList.Sorted MoveOp.opID (moves.map Move.op) :=
      fun ordered => List.pairwise_map.mpr ordered
    refine (sorted built.valid.log_sorted).eq_of_mem_iff
      (sorted built'.valid.log_sorted) ?_
    intro op
    rw [built.mem_log, built'.mem_log, members]
  · intro parent
    rw [built.siblings_eq, built'.siblings_eq]
    refine CausalInsertion.build_eq_of_perm exchanged.coherent ?_
      (delivers.causalOrder exchanged parent)
      (delivers'.causalOrder exchanged parent) (perm.filter _)
    exact fun op member => delivers.mem_iff.mp (List.mem_filter.mp member).1

/--
Replicas that receive the same operations in any two causal orders integrate
all of them and nothing else, put them in the same order under every parent, and
show the same visible tree.
-/
theorem replicas_converge (K : Fracdex) (exchanged : Exchanged ops)
    {order' : List MoveOp} (delivers : Delivers ops order)
    (delivers' : Delivers ops order') :
    ∃ state state' vt vt',
      integrateAll K order newTreeCRDT = .ok (.ok state) ∧
      integrateAll K order' newTreeCRDT = .ok (.ok state') ∧
      (∀ op, op ∈ state.log.map Move.op ↔ op ∈ ops) ∧
      (∀ op, op ∈ state'.log.map Move.op ↔ op ∈ ops) ∧
      (∀ parent, (siblings state.tree parent).map Move.op =
        (siblings state'.tree parent).map Move.op) ∧
      Converges (fun fuel => state.mutate fuel) (.ok vt) ∧
      Converges (fun fuel => state'.mutate fuel) (.ok vt') ∧
      vt.parents = vt'.parents ∧
      ∀ {σ : Type} (fn : σ → MoveOp → Outcome (σ × Bool)) (fuel : Nat)
        (start : σ),
        vt.walkDFT fuel (fun acc m => fn acc m.op) start =
          vt'.walkDFT fuel (fun acc m => fn acc m.op) start := by
  obtain ⟨state, integrated, built⟩ :=
    integrateAll_built (K := K) exchanged delivers
  obtain ⟨state', integrated', built'⟩ :=
    integrateAll_built (K := K) exchanged delivers'
  have same := built.sameOperations built' exchanged delivers delivers'
  have noSelf := built.noSelfMove exchanged delivers
  have noSelf' := built'.noSelfMove exchanged delivers'
  exact ⟨state, state', _, _, integrated, integrated',
    fun op => built.mem_log.trans delivers.mem_iff,
    fun op => built'.mem_log.trans delivers'.mem_iff, same.siblings_eq,
    mutate_converges built.valid noSelf, mutate_converges built'.valid noSelf',
    same.parents_eq built.valid built'.valid noSelf noSelf',
    fun fn fuel start =>
      same.walkDFT_eq built.valid built'.valid noSelf noSelf' fn fuel start⟩

end Delivery

/-! ## A sample delivery -/

namespace SampleDelivery

/-- Alice writes a block, Bob puts one after it, Carol one at the start. -/
def alice : MoveOp := ⟨⟨"alice", 1, 0⟩, "b1", "", "", ""⟩

/-- Bob puts a block behind the one of Alice. -/
def bob : MoveOp := ⟨⟨"bob", 2, 0⟩, "b2", "", "b1", "alice"⟩

/-- Carol puts a block at the start. -/
def carol : MoveOp := ⟨⟨"carol", 2, 0⟩, "b3", "", "", ""⟩

/-- The three operations. -/
def ops : Finset MoveOp := {alice, bob, carol}

/-- The three operations can be exchanged. -/
theorem exchanged : Exchanged ops where
  opID_injective := by decide
  origin_named := by decide
  single := by decide
  noSelf := by decide
  block_ne_trash := by decide
  left_known := by decide

/-- Only Bob's operation refers to another one. -/
theorem refers : ∀ op ∈ ops, ∀ target ∈ ops, target.block = op.left →
    op = bob ∧ target = alice := by decide

theorem delivers_of_split {order : List MoveOp} (nodup : order.Nodup)
    (same : order.toFinset = ops)
    (bobLater : ∀ seen rest, order = seen ++ bob :: rest → alice ∈ seen) :
    Delivers ops order where
  nodup := nodup
  toFinset_eq := same
  causal := by
    intro seen op rest split target member _ named _
    have known : op ∈ ops := by
      rw [← same, List.mem_toFinset]
      simp [split]
    obtain ⟨rfl, rfl⟩ := refers op known target member named
    exact bobLater seen rest split

end SampleDelivery

theorem replicas_converge_sample :
    ∃ state state' vt vt',
      integrateAll sampleFracdex
        [SampleDelivery.alice, SampleDelivery.bob, SampleDelivery.carol]
        newTreeCRDT = .ok (.ok state) ∧
      integrateAll sampleFracdex
        [SampleDelivery.carol, SampleDelivery.alice, SampleDelivery.bob]
        newTreeCRDT = .ok (.ok state') ∧
      (∀ op, op ∈ state.log.map Move.op ↔ op ∈ SampleDelivery.ops) ∧
      (∀ op, op ∈ state'.log.map Move.op ↔ op ∈ SampleDelivery.ops) ∧
      (∀ parent, (siblings state.tree parent).map Move.op =
        (siblings state'.tree parent).map Move.op) ∧
      Converges (fun fuel => state.mutate fuel) (.ok vt) ∧
      Converges (fun fuel => state'.mutate fuel) (.ok vt') ∧
      vt.parents = vt'.parents ∧
      ∀ {σ : Type} (fn : σ → MoveOp → Outcome (σ × Bool)) (fuel : Nat)
        (start : σ),
        vt.walkDFT fuel (fun acc m => fn acc m.op) start =
          vt'.walkDFT fuel (fun acc m => fn acc m.op) start := by
  refine replicas_converge sampleFracdex SampleDelivery.exchanged
    (SampleDelivery.delivers_of_split (by decide) (by decide) ?_)
    (SampleDelivery.delivers_of_split (by decide) (by decide) ?_)
  · intro seen rest split
    rcases seen with _ | ⟨first, seen⟩
    · exact absurd (List.cons.inj split).1 (by decide)
    · rw [← (List.cons.inj split).1]
      exact List.mem_cons_self
  · intro seen rest split
    rcases seen with _ | ⟨first, _ | ⟨second, seen⟩⟩
    · exact absurd (List.cons.inj split).1 (by decide)
    · exact absurd (List.cons.inj (List.cons.inj split).2).1 (by decide)
    · rw [← (List.cons.inj (List.cons.inj split).2).1]
      simp

end Mintter.Docmodel
