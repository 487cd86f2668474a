import Mathlib.Data.List.Dedup
import Mathlib.Logic.Relation

/-!
# What can be reached along a list of edges

A recursive query adds the targets of edges until there is nothing new.  Every
round that adds something reaches the target of another edge, so as many rounds
as there are edges are enough.
-/

namespace Mintter.Foundation

open Relation

variable {α : Type*} [DecidableEq α]

/-- The targets of the edges that leave what has been seen. -/
def successors (edges : List (α × α)) (seen : List α) : List α :=
  (edges.filter (·.1 ∈ seen)).map (·.2)

/-- Add the targets that are new. -/
def closeStep (edges : List (α × α)) (seen : List α) : List α :=
  seen ++ ((successors edges seen).filter (· ∉ seen)).dedup

/-- Add new targets a number of times. -/
def closeLoop (edges : List (α × α)) : Nat → List α → List α
  | 0, seen => seen
  | fuel + 1, seen => closeLoop edges fuel (closeStep edges seen)

/-- Everything that can be reached from the list. -/
def closure (edges : List (α × α)) (start : List α) : List α :=
  closeLoop edges edges.length start

section Closure

variable {edges : List (α × α)} {seen start : List α} {a b : α} {fuel : Nat}

theorem mem_successors :
    b ∈ successors edges seen ↔ ∃ a ∈ seen, (a, b) ∈ edges := by
  simp only [successors, List.mem_map, List.mem_filter, decide_eq_true_eq]
  constructor
  · rintro ⟨⟨a, b⟩, ⟨isEdge, isSeen⟩, rfl⟩
    exact ⟨a, isSeen, isEdge⟩
  · rintro ⟨a, isSeen, isEdge⟩
    exact ⟨(a, b), ⟨isEdge, isSeen⟩, rfl⟩

/-- One round adds the targets of the edges that leave what was seen. -/
theorem mem_closeStep :
    b ∈ closeStep edges seen ↔ b ∈ seen ∨ ∃ a ∈ seen, (a, b) ∈ edges := by
  rw [closeStep, List.mem_append, List.mem_dedup, List.mem_filter, mem_successors]
  by_cases isSeen : b ∈ seen <;> simp [isSeen]

theorem mem_closeLoop_of_mem (isSeen : a ∈ seen) : a ∈ closeLoop edges fuel seen := by
  induction fuel generalizing seen with
  | zero => exact isSeen
  | succ fuel induction => exact induction (mem_closeStep.mpr (.inl isSeen))

/-- Whatever is added can be reached. -/
theorem reached_of_mem_closeLoop (member : b ∈ closeLoop edges fuel seen) :
    ∃ a ∈ seen, ReflTransGen (fun a b => (a, b) ∈ edges) a b := by
  induction fuel generalizing seen with
  | zero => exact ⟨b, member, .refl⟩
  | succ fuel induction =>
      rcases induction member with ⟨a, isSeen, path⟩
      rcases mem_closeStep.mp isSeen with old | ⟨first, isFirst, isEdge⟩
      · exact ⟨a, old, path⟩
      · exact ⟨first, isFirst, .head isEdge path⟩

/-- The edges whose target has not been seen. -/
def missing (edges : List (α × α)) (seen : List α) : List (α × α) :=
  edges.filter (·.2 ∉ seen)

/-- A round that adds something reaches the target of another edge. -/
theorem length_missing_closeStep (isSeen : a ∈ seen) (isEdge : (a, b) ∈ edges)
    (isNew : b ∉ seen) :
    (missing edges (closeStep edges seen)).length < (missing edges seen).length := by
  have fewer : missing edges (closeStep edges seen) =
      (missing edges seen).filter (·.2 ∉ closeStep edges seen) := by
    rw [missing, missing, List.filter_filter]
    apply List.filter_congr
    intro edge _
    by_cases old : edge.2 ∈ seen <;> simp [mem_closeStep, old]
  rw [fewer]
  apply List.length_filter_lt_length_iff_exists.mpr
  refine ⟨(a, b), List.mem_filter.mpr ⟨isEdge, by simpa using isNew⟩, ?_⟩
  simp only [decide_eq_true_eq, not_not]
  exact mem_closeStep.mpr (.inr ⟨a, isSeen, isEdge⟩)

/-- The list contains the targets of all edges that leave it. -/
def Closed (edges : List (α × α)) (seen : List α) : Prop :=
  ∀ a ∈ seen, ∀ b, (a, b) ∈ edges → b ∈ seen

theorem Closed.closeStep (closed : Closed edges seen) :
    Closed edges (closeStep edges seen) := by
  have same : ∀ b, b ∈ Foundation.closeStep edges seen → b ∈ seen := by
    intro b member
    rcases mem_closeStep.mp member with old | ⟨a, isSeen, isEdge⟩
    · exact old
    · exact closed a isSeen b isEdge
  intro a isSeen b isEdge
  exact mem_closeStep.mpr (.inl (closed a (same a isSeen) b isEdge))

/-- Further rounds add nothing to what is closed. -/
theorem Closed.closeLoop (closed : Closed edges seen) (fuel : Nat) :
    Closed edges (closeLoop edges fuel seen) := by
  induction fuel generalizing seen with
  | zero => exact closed
  | succ fuel induction => exact induction closed.closeStep

/-- As many rounds as there are missing edges are enough. -/
theorem closed_closeLoop (enough : (missing edges seen).length ≤ fuel) :
    Closed edges (closeLoop edges fuel seen) := by
  induction fuel generalizing seen with
  | zero =>
      show Closed edges seen
      intro a isSeen b isEdge
      by_contra isNew
      have fewer := length_missing_closeStep isSeen isEdge isNew
      omega
  | succ fuel induction =>
      by_cases closed : Closed edges seen
      · exact closed.closeLoop (fuel + 1)
      · simp only [Closed, not_forall] at closed
        rcases closed with ⟨a, isSeen, b, isEdge, isNew⟩
        apply induction
        have fewer := length_missing_closeStep isSeen isEdge isNew
        omega

/-- Every edge that leaves the closure leads into it. -/
theorem closed_closure : Closed edges (closure edges start) :=
  closed_closeLoop (List.length_filter_le ..)

/-- The closure holds what it starts from. -/
theorem subset_closure : start ⊆ closure edges start :=
  fun _ isStart => mem_closeLoop_of_mem isStart

/-- The closure is what can be reached. -/
theorem mem_closure_iff :
    b ∈ closure edges start ↔
      ∃ a ∈ start, ReflTransGen (fun a b => (a, b) ∈ edges) a b := by
  refine ⟨reached_of_mem_closeLoop, ?_⟩
  rintro ⟨a, isStart, path⟩
  induction path with
  | refl => exact subset_closure isStart
  | tail _ isEdge induction => exact closed_closure _ induction _ isEdge

end Closure

end Mintter.Foundation
