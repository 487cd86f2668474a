import Mintter.Foundation.Reaches

/-!
# Calls that are interleaved

Calls share a state and perform one transaction at a time, in any order, while the
environment changes the shared state in between.  What is asserted of a call at each
of its stages holds in every run if the call establishes it with its own transactions
and no other step spoils it.
-/

namespace Mintter.Foundation

/-- The shared state and the stages of the calls, in the order in which they began. -/
structure System (δ τ : Type*) where
  shared : δ
  calls : List τ

/-- A call begins, or performs its next transaction, or something else happens. -/
inductive Turn (ρ ι ε : Type*) where
  | start (request : ρ)
  | advance (index : Nat) (input : ι)
  | environment (input : ε)

/-- How calls begin, what their transactions do and what the environment may do. -/
structure Program (δ τ ρ ι ε : Type*) where
  enter : ρ → τ
  perform : ι → δ → τ → δ × τ
  disturb : ε → δ → Option δ

namespace Program

variable {δ τ ρ ι ε : Type*} (P : Program δ τ ρ ι ε)

/-- One turn: a call begins, a call takes a step, or the environment does something. -/
def step (s : System δ τ) : Turn ρ ι ε → Option (System δ τ)
  | .start request => some { s with calls := s.calls ++ [P.enter request] }
  | .advance index input => s.calls[index]?.map fun call =>
      ⟨(P.perform input s.shared call).1,
        s.calls.set index (P.perform input s.shared call).2⟩
  | .environment input => (P.disturb input s.shared).map fun shared => { s with shared }

/-- The states that a run joins. -/
abbrev Runs : System δ τ → System δ τ → Prop := Reaches P.step fun _ _ => True

/-- The property held at some moment of a run from the start. -/
abbrev OnceIn (start : System δ τ) (property : System δ τ → Prop) (s : System δ τ) : Prop :=
  Once P.step (fun _ _ => True) start property s

section Step

variable {P} {s t : System δ τ} {index : Nat} {input : ι} {call : τ}

/-- A turn of a call changes the shared state and that call. -/
theorem step_advance (found : s.calls[index]? = some call) :
    P.step s (.advance index input) =
      some ⟨(P.perform input s.shared call).1,
        s.calls.set index (P.perform input s.shared call).2⟩ := by
  rw [step, found, Option.map_some]

/-- The shared state after a step. -/
theorem shared_of_step {turn : Turn ρ ι ε} (stepped : P.step s turn = some t) :
    t.shared = s.shared ∨
      (∃ index input call, turn = .advance index input ∧
        s.calls[index]? = some call ∧ t.shared = (P.perform input s.shared call).1) ∨
      ∃ input, turn = .environment input ∧ P.disturb input s.shared = some t.shared := by
  cases turn with
  | start request =>
      rcases Option.some.inj stepped with rfl
      exact .inl rfl
  | advance index input =>
      rcases Option.map_eq_some_iff.mp stepped with ⟨call, found, rfl⟩
      exact .inr (.inl ⟨index, input, call, rfl, found, rfl⟩)
  | environment input =>
      rcases Option.map_eq_some_iff.mp stepped with ⟨shared, disturbed, rfl⟩
      exact .inr (.inr ⟨input, rfl, disturbed⟩)

/-- A call after a step has just begun, has performed a transaction or is as it was. -/
theorem calls_of_step {turn : Turn ρ ι ε} (stepped : P.step s turn = some t)
    (found : t.calls[index]? = some call) :
    s.calls[index]? = some call ∨
      (∃ request, turn = .start request ∧ index = s.calls.length ∧
        call = P.enter request) ∨
      ∃ input before, turn = .advance index input ∧ s.calls[index]? = some before ∧
        call = (P.perform input s.shared before).2 := by
  cases turn with
  | start request =>
      rcases Option.some.inj stepped with rfl
      rcases Nat.lt_or_ge index s.calls.length with old | new
      · rw [List.getElem?_append_left old] at found
        exact .inl found
      · rw [List.getElem?_append_right new, List.getElem?_singleton] at found
        split at found
        · next isNext =>
            exact .inr (.inl ⟨request, rfl, by omega, (Option.some.inj found).symm⟩)
        · cases found
  | advance index' input =>
      rcases Option.map_eq_some_iff.mp stepped with ⟨before, isBefore, rfl⟩
      by_cases same : index' = index
      · rcases same with rfl
        have inside : index' < s.calls.length := List.getElem?_eq_some_iff.mp isBefore |>.1
        rw [List.getElem?_set_self inside] at found
        exact .inr (.inr ⟨input, before, rfl, isBefore, (Option.some.inj found).symm⟩)
      · rw [List.getElem?_set_ne same] at found
        exact .inl found
  | environment input =>
      rcases Option.map_eq_some_iff.mp stepped with ⟨shared, -, rfl⟩
      exact .inl found

theorem calls_advance (found : s.calls[index]? = some call)
    (stepped : P.step s (.advance index input) = some t) :
    t.shared = (P.perform input s.shared call).1 ∧
      t.calls[index]? = some (P.perform input s.shared call).2 := by
  rw [step_advance found] at stepped
  rcases Option.some.inj stepped with rfl
  exact ⟨rfl, List.getElem?_set_self (List.getElem?_eq_some_iff.mp found).1⟩

/--
What is asserted of the calls holds in every run: a call that begins satisfies its
assertion, every transaction of a call establishes the next one, and the other steps
keep it.
-/
theorem asserted_of_runs {start : System δ τ} {asserted : System δ τ → Nat → τ → Prop}
    (entered : ∀ s t request, P.Runs start s → P.step s (.start request) = some t →
      asserted t s.calls.length (P.enter request))
    (advanced : ∀ s t index input call, P.Runs start s → s.calls[index]? = some call →
      asserted s index call → P.step s (.advance index input) = some t →
      asserted t index (P.perform input s.shared call).2)
    (stable : ∀ s t turn index call, P.Runs start s → P.step s turn = some t →
      s.calls[index]? = some call → asserted s index call → asserted t index call)
    (noCalls : start.calls = []) (run : P.Runs start s)
    (found : s.calls[index]? = some call) : asserted s index call := by
  have all : ∀ index call, s.calls[index]? = some call → asserted s index call := by
    clear found
    induction run with
    | refl =>
        intro index call found
        rw [noCalls] at found
        cases found
    | @tail before after runs last induction =>
        rcases last with ⟨turn, -, stepped⟩
        intro index call found
        rcases calls_of_step stepped found with old | ⟨request, rfl, rfl, rfl⟩ |
          ⟨input, call, rfl, isBefore, rfl⟩
        · exact stable before after turn index call runs stepped old
            (induction index call old)
        · exact entered before after request runs stepped
        · exact advanced before after index input call runs isBefore
            (induction index call isBefore) stepped
  exact all index call found

end Step

end Program

end Mintter.Foundation
