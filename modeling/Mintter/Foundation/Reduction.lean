import Mathlib.Tactic

/-!
# Leaving out what is below something else

A set of nodes of a graph without cycles is reduced by leaving out the nodes from which
another node of the set can be reached.  It is cheaper to leave out only the nodes that
have a direct successor in the set.  This gives the same exactly when every node that is
below another one in some way is also directly below one.
-/

namespace Mintter.Foundation

open Relation

variable {α : Type*} {edge : α → α → Prop} {nodes : α → Prop} {a b : α}

/-- No other node of the set can be reached from this one. -/
def IsMaximal (edge : α → α → Prop) (nodes : α → Prop) (a : α) : Prop :=
  nodes a ∧ ∀ b, nodes b → ¬ TransGen edge a b

/-- Some node of the set is a direct successor. -/
def IsShadowed (edge : α → α → Prop) (nodes : α → Prop) (a : α) : Prop :=
  ∃ b, nodes b ∧ edge a b

/-- What is below a node of the set is directly below one. -/
def ShadowsDirectly (edge : α → α → Prop) (nodes : α → Prop) : Prop :=
  ∀ a b, nodes a → nodes b → TransGen edge a b → IsShadowed edge nodes a

/-- A maximal node has no direct successor in the set. -/
theorem IsMaximal.not_shadowed (maximal : IsMaximal edge nodes a) :
    ¬ IsShadowed edge nodes a := by
  rintro ⟨b, isNode, next⟩
  exact maximal.2 b isNode (.single next)

/-- Leaving out what has a direct successor leaves the maximal nodes. -/
theorem unshadowed_iff_maximal :
    (∀ a, nodes a ∧ ¬ IsShadowed edge nodes a ↔ IsMaximal edge nodes a) ↔
      ShadowsDirectly edge nodes := by
  constructor
  · intro same a b isNode isNode' below
    by_contra notShadowed
    exact ((same a).mp ⟨isNode, notShadowed⟩).2 b isNode' below
  · intro directly a
    constructor
    · rintro ⟨isNode, notShadowed⟩
      exact ⟨isNode, fun b isNode' below => notShadowed (directly a b isNode isNode' below)⟩
    · exact fun maximal => ⟨maximal.1, maximal.not_shadowed⟩

/-- In a graph without infinite paths every node of the set is below a maximal one. -/
theorem exists_maximal (finite : WellFounded fun a b => TransGen edge b a)
    (isNode : nodes a) :
    ∃ m, IsMaximal edge nodes m ∧ ReflTransGen edge a m := by
  induction a using finite.induction with
  | _ a induction =>
      by_cases isMaximal : ∀ b, nodes b → ¬ TransGen edge a b
      · exact ⟨a, ⟨isNode, isMaximal⟩, .refl⟩
      · push Not at isMaximal
        rcases isMaximal with ⟨b, isNode', below⟩
        rcases induction b below isNode' with ⟨m, maximal, above⟩
        exact ⟨m, maximal, below.to_reflTransGen.trans above⟩

end Mintter.Foundation
