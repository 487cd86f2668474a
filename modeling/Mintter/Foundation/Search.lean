import Mathlib.Tactic
import Mintter.Foundation.Outcome

/-!
# Searching a graph without marks

A search for a node keeps a stack of lists of nodes, and does not note which nodes it has
seen.  In a graph whose edges go down in rank it ends nevertheless, although it may take many
steps, and it finds the node exactly when that can be reached.
-/

namespace Mintter.Foundation

open Relation

variable {α : Type} [DecidableEq α] {look : α → Outcome (List α)} {kids : α → List α}
variable {target node : α} {nodes : List α} {lists queue : List (List α)}

/-- Look at one node: stop at the target, and push what is below any other node. -/
def searchNode (look : α → Outcome (List α)) (target : α) (acc : Bool × List (List α))
    (node : α) : Outcome ((Bool × List (List α)) × Bool) :=
  if node = target then pure ((true, acc.2), false)
  else do
    let below ← look node
    if below ≠ [] then pure ((false, below :: acc.2), true) else pure ((false, acc.2), true)

/-- Search the lists on the stack, from the last one that was pushed. -/
def searchLoop (look : α → Outcome (List α)) (target : α) :
    Nat → List (List α) → Outcome Bool
  | _, [] => pure false
  | 0, _ :: _ => .error .outOfFuel
  | fuel + 1, nodes :: queue => do
      let (found, queue) ← visit (searchNode look target) nodes (false, queue)
      if found then pure true else searchLoop look target fuel queue

/-- The target is among the nodes or below one of them. -/
def Leads (kids : α → List α) (target : α) (nodes : List α) : Prop :=
  ∃ node ∈ nodes, ReflTransGen (fun a b => b ∈ kids a) node target

/-- A stretch of the search that takes some steps and adds the given answer. -/
def Answers (look : α → Outcome (List α)) (target : α) (lists : List (List α))
    (answer : Prop) : Prop :=
  ∃ cost, ∀ fuel queue,
    (answer → searchLoop look target (fuel + cost) (lists ++ queue) = .ok true) ∧
    (¬ answer → searchLoop look target (fuel + cost) (lists ++ queue) =
      searchLoop look target fuel queue)

/-- The lists of children that a scan pushes, the last one on top. -/
def pushed (kids : α → List α) (nodes : List α) : List (List α) :=
  ((nodes.map kids).filter (· ≠ [])).reverse

/-- The callback finds the target, or pushes the children of every node. -/
theorem visit_searchNode (target : α) (sees : ∀ node ∈ nodes, look node = .ok (kids node))
    (queue : List (List α)) :
    (target ∈ nodes → ∃ queue',
      visit (searchNode look target) nodes (false, queue) = .ok (true, queue')) ∧
    (target ∉ nodes →
      visit (searchNode look target) nodes (false, queue) =
        .ok (false, pushed kids nodes ++ queue)) := by
  induction nodes generalizing queue with
  | nil => simp [pushed]
  | cons node nodes induction =>
      have rest := induction fun other member => sees other (List.mem_cons_of_mem _ member)
      by_cases here : node = target
      · constructor
        · intro _
          refine ⟨queue, visit_cons_of_stop ?_⟩
          rw [searchNode, if_pos here]
          rfl
        · exact fun absent => absurd (here ▸ List.mem_cons_self) absent
      · have isNode := sees node List.mem_cons_self
        have further : target ∈ node :: nodes ↔ target ∈ nodes := by
          simp [Ne.symm here]
        rw [further]
        by_cases leaf : kids node = []
        · have stepped : searchNode look target (false, queue) node =
              .ok ((false, queue), true) := by
            simp [searchNode, here, isNode, leaf]
          have same : pushed kids (node :: nodes) = pushed kids nodes := by simp [pushed, leaf]
          rw [visit_cons_of_more stepped, same]
          exact rest queue
        · have stepped : searchNode look target (false, queue) node =
              .ok ((false, kids node :: queue), true) := by
            simp [searchNode, here, isNode, leaf]
          have more : pushed kids (node :: nodes) ++ queue =
              pushed kids nodes ++ kids node :: queue := by simp [pushed, leaf]
          rw [visit_cons_of_more stepped, more]
          exact rest (kids node :: queue)

omit [DecidableEq α] in
/-- The search leads to the target if it is here or below one of the lists that are pushed. -/
theorem leads_iff : Leads kids target nodes ↔
    target ∈ nodes ∨ ∃ list ∈ pushed kids nodes, Leads kids target list := by
  constructor
  · rintro ⟨node, member, path⟩
    rcases path.cases_head with rfl | ⟨kid, isKid, rest⟩
    · exact .inl member
    · refine .inr ⟨kids node, ?_, kid, isKid, rest⟩
      have inner : kids node ≠ [] := List.ne_nil_of_mem isKid
      simpa [pushed, inner] using ⟨node, member, rfl⟩
  · rintro (here | ⟨list, isPushed, kid, isKid, path⟩)
    · exact ⟨target, here, .refl⟩
    · rw [pushed, List.mem_reverse, List.mem_filter, List.mem_map] at isPushed
      rcases isPushed with ⟨⟨node, member, rfl⟩, -⟩
      exact ⟨node, member, .head isKid path⟩

/-- The lists on the stack answer one after the other. -/
theorem Answers.all (each : ∀ list ∈ lists, Answers look target [list] (Leads kids target list)) :
    Answers look target lists (∃ list ∈ lists, Leads kids target list) := by
  induction lists with
  | nil => exact ⟨0, fun fuel queue => ⟨by simp, fun _ => rfl⟩⟩
  | cons list lists induction =>
      rcases each list List.mem_cons_self with ⟨cost, first⟩
      rcases induction fun other member => each other (List.mem_cons_of_mem _ member) with
        ⟨cost', rest⟩
      refine ⟨cost' + cost, fun fuel queue => ?_⟩
      rcases first (fuel + cost') (lists ++ queue) with ⟨found, missed⟩
      rcases rest fuel queue with ⟨found', missed'⟩
      rw [← Nat.add_assoc]
      constructor
      · rintro ⟨other, member, leads⟩
        by_cases here : Leads kids target list
        · exact found here
        · rcases List.mem_cons.mp member with rfl | later
          · exact absurd leads here
          · exact (missed here).trans (found' ⟨other, later, leads⟩)
      · intro none
        have notHere : ¬ Leads kids target list :=
          fun leads => none ⟨list, List.mem_cons_self, leads⟩
        refine (missed notHere).trans (missed' ?_)
        rintro ⟨other, later, leads⟩
        exact none ⟨other, List.mem_cons_of_mem _ later, leads⟩

section Ranked

variable {known : α → Prop} (sees : ∀ node, known node → look node = .ok (kids node))
variable (closed : ∀ node, known node → ∀ kid ∈ kids node, known kid)
variable (rank : α → Nat) (lower : ∀ node, known node → ∀ kid ∈ kids node, rank kid < rank node)

include sees closed lower

/-- A search in which the ranks fall comes to an answer. -/
theorem answers_of_rank (target : α) (bound : Nat) :
    ∀ nodes : List α, (∀ node ∈ nodes, known node ∧ rank node < bound) →
      Answers look target [nodes] (Leads kids target nodes) := by
  induction bound with
  | zero =>
      intro nodes inside
      have empty : nodes = [] :=
        List.eq_nil_iff_forall_not_mem.mpr fun node member => absurd (inside node member).2 (by simp)
      subst empty
      refine ⟨1, fun fuel queue => ⟨?_, fun _ => rfl⟩⟩
      rintro ⟨node, member, -⟩
      cases member
  | succ bound induction =>
      intro nodes inside
      have below : Answers look target (pushed kids nodes)
          (∃ list ∈ pushed kids nodes, Leads kids target list) := by
        refine .all fun list isPushed => induction list fun kid isKid => ?_
        rw [pushed, List.mem_reverse, List.mem_filter, List.mem_map] at isPushed
        rcases isPushed with ⟨⟨node, member, rfl⟩, -⟩
        rcases inside node member with ⟨isKnown, small⟩
        exact ⟨closed node isKnown kid isKid,
          (lower node isKnown kid isKid).trans_le (Nat.le_of_lt_succ small)⟩
      rcases below with ⟨cost, below⟩
      refine ⟨cost + 1, fun fuel queue => ?_⟩
      rcases visit_searchNode target
        (fun node member => sees node (inside node member).1) queue with ⟨found, missed⟩
      rw [leads_iff, ← Nat.add_assoc, List.singleton_append, searchLoop]
      by_cases here : target ∈ nodes
      · rcases found here with ⟨queue', scanned⟩
        rw [scanned]
        exact ⟨fun _ => rfl, fun none => absurd (.inl here) none⟩
      · rw [missed here]
        refine ⟨fun leads => (below fuel queue).1 (leads.resolve_left here), fun none => ?_⟩
        exact (below fuel queue).2 fun leads => none (.inr leads)

/-- The search ends with the answer whether the target can be reached. -/
theorem searchLoop_converges (target : α) [Decidable (Leads kids target nodes)]
    (isKnown : ∀ node ∈ nodes, known node) :
    Converges (fun fuel => searchLoop look target fuel [nodes])
      (.ok (decide (Leads kids target nodes))) := by
  have bounded : ∃ bound, ∀ node ∈ nodes, rank node < bound := by
    refine ⟨(nodes.map rank).sum + 1, fun node member => Nat.lt_succ_of_le ?_⟩
    exact List.single_le_sum (by simp) _ (List.mem_map_of_mem member)
  rcases bounded with ⟨bound, bounded⟩
  rcases answers_of_rank sees closed rank lower target bound nodes
    (fun node member => ⟨isKnown node member, bounded node member⟩) with ⟨cost, answers⟩
  refine .of_add cost fun fuel => ?_
  rcases answers fuel [] with ⟨found, missed⟩
  rw [List.append_nil] at found missed
  by_cases leads : Leads kids target nodes
  · rw [found leads, decide_eq_true leads]
  · rw [missed leads, decide_eq_false leads]
    cases fuel <;> rfl

end Ranked

end Mintter.Foundation
