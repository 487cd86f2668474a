import Mathlib.Logic.Relation

/-!
# Runs of a system that reads inputs

A system takes one step on each input and may refuse an input.  A run is
restricted to the inputs that are permitted in the state where they arrive, so
that a result about all runs whose steps meet a condition is a result about
the states that the restricted system reaches.
-/

namespace Mintter.Foundation

open Relation

section Reaches

variable {σ ι : Type*} {step : σ → ι → Option σ} {permitted : σ → ι → Prop}
variable {s t : σ}

/-- The states that a run of permitted inputs joins. -/
def Reaches (step : σ → ι → Option σ) (permitted : σ → ι → Prop) : σ → σ → Prop :=
  ReflTransGen fun before after =>
    ∃ input, permitted before input ∧ step before input = some after

/-- What holds at the start and is kept by every permitted step holds at the end. -/
theorem Reaches.invariant {kept : σ → Prop}
    (keeps : ∀ before input after, kept before → permitted before input →
      step before input = some after → kept after)
    (run : Reaches step permitted s t) (start : kept s) : kept t := by
  induction run with
  | refl => exact start
  | tail _ last induction =>
      rcases last with ⟨input, isPermitted, stepped⟩
      exact keeps _ input _ induction isPermitted stepped

/-- Perform the inputs one after the other. -/
def performAll (step : σ → ι → Option σ) (s : σ) : List ι → Option σ
  | [] => some s
  | input :: inputs => (step s input).bind (performAll step · inputs)

/-- Every input is permitted where it arrives. -/
def AllPermitted (step : σ → ι → Option σ) (permitted : σ → ι → Prop) (s : σ) :
    List ι → Prop
  | [] => True
  | input :: inputs =>
      permitted s input ∧
        ∀ next, step s input = some next → AllPermitted step permitted next inputs

/-- A list of permitted inputs that are not refused is a run. -/
theorem reaches_of_performAll {inputs : List ι}
    (allPermitted : AllPermitted step permitted s inputs)
    (performed : performAll step s inputs = some t) :
    Reaches step permitted s t := by
  induction inputs generalizing s with
  | nil =>
      rw [performAll, Option.some.injEq] at performed
      exact performed ▸ .refl
  | cons input inputs induction =>
      rcases Option.bind_eq_some_iff.mp performed with ⟨next, stepped, rest⟩
      exact .head ⟨input, allPermitted.1, stepped⟩
        (induction (allPermitted.2 next stepped) rest)

/-- Perform the inputs as long as they are permitted. -/
def performChecked (step : σ → ι → Option σ) (permitted : σ → ι → Prop)
    [∀ state input, Decidable (permitted state input)] : σ → List ι → Option σ :=
  performAll fun state input => if permitted state input then step state input else none

/-- Inputs that are checked and performed one by one make a run. -/
theorem reaches_of_performChecked [∀ state input, Decidable (permitted state input)]
    {inputs : List ι} (performed : performChecked step permitted s inputs = some t) :
    Reaches step permitted s t := by
  induction inputs generalizing s with
  | nil =>
      rw [performChecked, performAll, Option.some.injEq] at performed
      exact performed ▸ .refl
  | cons input inputs induction =>
      rcases Option.bind_eq_some_iff.mp performed with ⟨next, checked, rest⟩
      by_cases isPermitted : permitted s input
      · have stepped : step s input = some next := (if_pos isPermitted).symm.trans checked
        exact .head ⟨input, isPermitted, stepped⟩ (induction rest)
      · cases (if_neg isPermitted).symm.trans checked

/-- Every input is permitted if each one is in every state. -/
theorem allPermitted_of_forall {inputs : List ι}
    (isPermitted : ∀ input ∈ inputs, ∀ state, permitted state input) :
    AllPermitted step permitted s inputs := by
  induction inputs generalizing s with
  | nil => exact trivial
  | cons input inputs induction =>
      exact ⟨isPermitted input (List.mem_cons_self ..) s, fun _ _ =>
        induction fun other member =>
          isPermitted other (List.mem_cons_of_mem input member)⟩

theorem allPermitted_true (inputs : List ι) :
    AllPermitted step (fun _ _ => True) s inputs :=
  allPermitted_of_forall fun _ _ _ => trivial

/-- The state after a list of inputs none of which is refused. -/
theorem reaches_get (inputs : List ι)
    (performed : (performAll step s inputs).isSome = true) :
    Reaches step (fun _ _ => True) s ((performAll step s inputs).get performed) :=
  reaches_of_performAll (allPermitted_true inputs) (Option.some_get performed).symm

/-- A run goes on with a permitted step. -/
theorem Reaches.extend (run : Reaches step permitted s t) {input : ι} {u : σ}
    (isPermitted : permitted t input) (stepped : step t input = some u) :
    Reaches step permitted s u :=
  run.tail ⟨input, isPermitted, stepped⟩

/-! ## Results on fixed inputs -/

/-- A result that is there, with its value. -/
def Evaluated {α : Type*} (result : Option α) : Type _ := {value : α // result = some value}

/-- What is there can be named. -/
def Evaluated.of {α : Type*} {result : Option α} (there : result.isSome = true) :
    Evaluated result :=
  ⟨result.get there, (Option.some_get there).symm⟩

theorem Evaluated.isSome {α : Type*} {result : Option α} (evaluated : Evaluated result) :
    result.isSome = true :=
  Option.isSome_of_eq_some evaluated.property

/-! ## Moments of a run -/

/-- At some moment of a run from the start to the state the property held. -/
def Once (step : σ → ι → Option σ) (permitted : σ → ι → Prop) (start : σ)
    (property : σ → Prop) (s : σ) : Prop :=
  ∃ moment, Reaches step permitted start moment ∧ property moment ∧
    Reaches step permitted moment s

variable {start : σ} {property : σ → Prop}

/-- What holds now has held once. -/
theorem Once.now (run : Reaches step permitted start s) (holds : property s) :
    Once step permitted start property s :=
  ⟨s, run, holds, .refl⟩

/-- What has held once has held once later on. -/
theorem Once.later (once : Once step permitted start property s)
    (since : Reaches step permitted s t) : Once step permitted start property t := by
  rcases once with ⟨moment, before, holds, after⟩
  exact ⟨moment, before, holds, after.trans since⟩

end Reaches

end Mintter.Foundation
