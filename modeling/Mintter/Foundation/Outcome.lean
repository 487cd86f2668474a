import Mathlib.Tactic

/-!
# Calls that return, panic or keep running

A call of an imperative program either returns a value, aborts with a panic,
or is still running.  Loops without an evident bound are written with an
explicit number of iterations, and `outOfFuel` says that the loop needs more.
`Converges` removes the bound: a family of calls indexed by fuel converges to
a result when every sufficiently large fuel gives that result.

`visit` is the other loop shape: a callback is run over a finite list until it
asks to stop.
-/

namespace Mintter.Foundation

/-- Why a call delivers no value. -/
inductive Abort where
  | panic (message : String)
  | outOfFuel
deriving DecidableEq, Repr

/-- The outcome of a call with result type `α`. -/
abbrev Outcome (α : Type) := Except Abort α

/-- Abort the call with a panic. -/
def panicWith {α : Type} (message : String) : Outcome α :=
  .error (.panic message)

variable {α β σ : Type}

@[simp]
theorem ok_bind (value : α) (next : α → Outcome β) :
    ((.ok value : Outcome α) >>= next) = next value := rfl

@[simp]
theorem error_bind (abort : Abort) (next : α → Outcome β) :
    ((.error abort : Outcome α) >>= next) = .error abort := rfl

@[simp]
theorem pure_eq_ok (value : α) :
    (pure value : Outcome α) = .ok value := rfl

/-- A sequence returns if both parts do, the second on the value of the first. -/
theorem bind_eq_ok {call : Outcome α} {next : α → Outcome β} {result : β} :
    (call >>= next) = .ok result ↔
      ∃ value, call = .ok value ∧ next value = .ok result := by
  cases call <;> simp

/-! ## Enough fuel -/

/-- Every sufficiently large amount of fuel gives `result`. -/
def Converges (call : Nat → Outcome α) (result : Outcome α) : Prop :=
  ∃ enough, ∀ fuel, enough ≤ fuel → call fuel = result

/-- Some amount of fuel is enough for the call to return or to panic. -/
def Terminates (call : Nat → Outcome α) : Prop :=
  ∃ result, result ≠ .error .outOfFuel ∧ Converges call result

theorem Converges.const (result : Outcome α) :
    Converges (fun _ => result) result :=
  ⟨0, fun _ _ => rfl⟩

/-- A call that is answered from some fuel on converges to the answer. -/
theorem Converges.of_add {call : Nat → Outcome α} {result : Outcome α}
    (enough : Nat) (reached : ∀ fuel, call (fuel + enough) = result) :
    Converges call result := by
  refine ⟨enough, fun fuel large => ?_⟩
  obtain ⟨extra, rfl⟩ := Nat.exists_eq_add_of_le' large
  exact reached extra

/-- A call that spends one unit of fuel on its first step converges when the rest does. -/
theorem Converges.of_succ {call next : Nat → Outcome α} {result : Outcome α}
    (converges : Converges next result) (step : ∀ fuel, call (fuel + 1) = next fuel) :
    Converges call result := by
  rcases converges with ⟨enough, reached⟩
  refine ⟨enough + 1, fun fuel large => ?_⟩
  obtain ⟨fuel, rfl⟩ := Nat.exists_eq_add_of_le' (show 1 ≤ fuel by omega)
  rw [step fuel]
  exact reached fuel (by omega)

/-- A call converges to one result only. -/
theorem Converges.unique {call : Nat → Outcome α} {first second : Outcome α}
    (toFirst : Converges call first) (toSecond : Converges call second) :
    first = second := by
  obtain ⟨enough, first_eq⟩ := toFirst
  obtain ⟨enough', second_eq⟩ := toSecond
  rw [← first_eq (max enough enough') (le_max_left _ _),
    second_eq (max enough enough') (le_max_right _ _)]

theorem Converges.congr {call call' : Nat → Outcome α} {result : Outcome α}
    (same : ∀ fuel, call fuel = call' fuel)
    (converges : Converges call result) :
    Converges call' result := by
  obtain ⟨enough, reached⟩ := converges
  exact ⟨enough, fun fuel large => (same fuel).symm.trans (reached fuel large)⟩

/-- Sequencing: the continuation may spend the same fuel again. -/
theorem Converges.bind {call : Nat → Outcome α} {next : Nat → α → Outcome β}
    {value : α} {result : Outcome β}
    (first : Converges call (.ok value))
    (second : Converges (fun fuel => next fuel value) result) :
    Converges (fun fuel => call fuel >>= next fuel) result := by
  obtain ⟨enough, first_eq⟩ := first
  obtain ⟨enough', second_eq⟩ := second
  refine ⟨max enough enough', fun fuel large => ?_⟩
  simp only [first_eq fuel (le_of_max_le_left large), ok_bind,
    second_eq fuel (le_of_max_le_right large)]

/-- A view of a call converges to the view of its value. -/
theorem Converges.map {call : Nat → Outcome α} {value : α}
    (first : Converges call (.ok value)) (view : α → β) :
    Converges (fun fuel => call fuel >>= fun value => pure (view value))
      (.ok (view value)) :=
  first.bind (.const _)

/-- A sequence whose first part aborts converges to that abort. -/
theorem Converges.bind_abort {call : Nat → Outcome α} {next : Nat → α → Outcome β}
    {abort : Abort}
    (first : Converges call (.error abort)) :
    Converges (fun fuel => call fuel >>= next fuel) (.error abort) := by
  obtain ⟨enough, first_eq⟩ := first
  exact ⟨enough, fun fuel large => by simp [first_eq fuel large]⟩

/-- A call whose first part terminates terminates when the rest does. -/
theorem Terminates.bind {call : Nat → Outcome α} {next : Nat → α → Outcome β}
    (first : Terminates call)
    (second : ∀ value, Converges call (.ok value) →
      Terminates (fun fuel => next fuel value)) :
    Terminates (fun fuel => call fuel >>= next fuel) := by
  obtain ⟨result, notRunning, converges⟩ := first
  cases result with
  | error abort =>
      exact ⟨.error abort, by simpa using notRunning, converges.bind_abort⟩
  | ok value =>
      obtain ⟨final, finalNotRunning, finalConverges⟩ := second value converges
      exact ⟨final, finalNotRunning, converges.bind finalConverges⟩

/-! ## Visiting a finite list -/

/-- Run `fn` over the list until it answers `false`. -/
def visit (fn : σ → α → Outcome (σ × Bool)) : List α → σ → Outcome σ
  | [], state => pure state
  | item :: rest, state => do
      let (state, more) ← fn state item
      if more then visit fn rest state else pure state

@[simp]
theorem visit_nil (fn : σ → α → Outcome (σ × Bool)) (state : σ) :
    visit fn [] state = .ok state := rfl

/-- A callback that goes on visits the rest of the list. -/
theorem visit_cons_of_more {fn : σ → α → Outcome (σ × Bool)} {item : α}
    {rest : List α} {state state' : σ}
    (step : fn state item = .ok (state', true)) :
    visit fn (item :: rest) state = visit fn rest state' := by
  simp [visit, step]

/-- A callback that stops leaves the rest of the list. -/
theorem visit_cons_of_stop {fn : σ → α → Outcome (σ × Bool)} {item : α}
    {rest : List α} {state state' : σ}
    (step : fn state item = .ok (state', false)) :
    visit fn (item :: rest) state = .ok state' := by
  simp [visit, step]

/-- Items on which the callback only stops do not matter. -/
theorem visit_append_stop {fn : σ → α → Outcome (σ × Bool)} {rest : List α}
    (stop : ∀ state, ∀ item ∈ rest, fn state item = .ok (state, false))
    (items : List α) (state : σ) :
    visit fn (items ++ rest) state = visit fn items state := by
  induction items generalizing state with
  | nil =>
      cases rest with
      | nil => rfl
      | cons item rest =>
          exact visit_cons_of_stop (stop state item List.mem_cons_self)
  | cons item items induction =>
      rw [List.cons_append, visit, visit]
      simp only [induction]

/--
A property of the state and of the items already visited carries over the
whole list when one step of the callback keeps it.
-/
theorem visit_invariant {fn : σ → α → Outcome (σ × Bool)} {items : List α}
    (Inv : List α → σ → Prop)
    (step : ∀ seen item rest state, items = seen ++ item :: rest →
      Inv seen state →
      ∃ state', fn state item = .ok (state', true) ∧
        Inv (seen ++ [item]) state')
    {state : σ} (start : Inv [] state) :
    ∃ state', visit fn items state = .ok state' ∧ Inv items state' := by
  suffices general : ∀ (rest seen : List α) (state : σ),
      items = seen ++ rest → Inv seen state →
      ∃ state', visit fn rest state = .ok state' ∧ Inv items state' from
    general items [] state rfl start
  intro rest
  induction rest with
  | nil =>
      intro seen state split inv
      refine ⟨state, rfl, ?_⟩
      rwa [split, List.append_nil]
  | cons item rest induction =>
      intro seen state split inv
      obtain ⟨next, stepped, inv'⟩ := step seen item rest state split inv
      rw [visit_cons_of_more stepped]
      exact induction (seen ++ [item]) next (by simpa using split) inv'

/-- Whatever the loop does, what every call keeps holds in the end. -/
theorem visit_preserves {fn : σ → α → Outcome (σ × Bool)} {items : List α}
    (Inv : σ → Prop)
    (step : ∀ state item state' more, item ∈ items → Inv state →
      fn state item = .ok (state', more) → Inv state')
    {state state' : σ} (start : Inv state)
    (returned : visit fn items state = .ok state') : Inv state' := by
  induction items generalizing state with
  | nil =>
      obtain rfl := Except.ok.inj returned
      exact start
  | cons item rest induction =>
      obtain ⟨⟨next, more⟩, stepped, continued⟩ := bind_eq_ok.mp returned
      have inv := step state item next more List.mem_cons_self start stepped
      cases more with
      | false =>
          obtain rfl := Except.ok.inj continued
          exact inv
      | true =>
          exact induction (fun state item state' more member =>
            step state item state' more (List.mem_cons_of_mem _ member)) inv
            continued

/-- The same when the fold is known to return. -/
theorem foldlM_preserves {step : σ → α → Outcome σ} {items : List α}
    (Inv : List α → σ → Prop)
    (keep : ∀ seen item rest state state', items = seen ++ item :: rest →
      Inv seen state → step state item = .ok state' → Inv (seen ++ [item]) state')
    {state state' : σ} (start : Inv [] state)
    (returned : items.foldlM step state = .ok state') : Inv items state' := by
  suffices general : ∀ (rest seen : List α) (state : σ),
      items = seen ++ rest → Inv seen state →
      rest.foldlM step state = .ok state' → Inv items state' from
    general items [] state rfl start returned
  intro rest
  induction rest with
  | nil =>
      intro seen state split inv done
      obtain rfl := Except.ok.inj done
      rwa [split, List.append_nil]
  | cons item rest induction =>
      intro seen state split inv done
      rw [List.foldlM_cons] at done
      obtain ⟨next, stepped, continued⟩ := bind_eq_ok.mp done
      have inv' := keep seen item rest state next split inv stepped
      exact induction (seen ++ [item]) next (by simpa using split) inv' continued

/-- The same for calls that need fuel: the whole fold converges. -/
theorem Converges.foldlM {step : Nat → σ → α → Outcome σ} {items : List α}
    (Inv : List α → σ → Prop)
    (keep : ∀ seen item rest state, items = seen ++ item :: rest →
      Inv seen state →
      ∃ state', Converges (fun fuel => step fuel state item) (.ok state') ∧
        Inv (seen ++ [item]) state')
    {state : σ} (start : Inv [] state) :
    ∃ state', Converges (fun fuel => items.foldlM (step fuel) state)
        (.ok state') ∧ Inv items state' := by
  suffices general : ∀ (rest seen : List α) (state : σ),
      items = seen ++ rest → Inv seen state →
      ∃ state', Converges (fun fuel => rest.foldlM (step fuel) state)
          (.ok state') ∧ Inv items state' from
    general items [] state rfl start
  intro rest
  induction rest with
  | nil =>
      intro seen state split inv
      refine ⟨state, .const _, ?_⟩
      rwa [split, List.append_nil]
  | cons item rest induction =>
      intro seen state split inv
      obtain ⟨next, stepped, inv'⟩ := keep seen item rest state split inv
      obtain ⟨final, reached, inv''⟩ :=
        induction (seen ++ [item]) next (by simpa using split) inv'
      exact ⟨final, stepped.bind reached, inv''⟩

/-- A fold of calls that terminate terminates, and keeps what they keep. -/
theorem Terminates.foldlM {step : Nat → σ → α → Outcome σ} {items : List α}
    (Inv : σ → Prop)
    (running : ∀ item ∈ items, ∀ state, Inv state →
      Terminates fun fuel => step fuel state item)
    (keep : ∀ item ∈ items, ∀ state state', Inv state →
      Converges (fun fuel => step fuel state item) (.ok state') → Inv state')
    {state : σ} (start : Inv state) :
    ∃ outcome, outcome ≠ .error .outOfFuel ∧
      Converges (fun fuel => items.foldlM (step fuel) state) outcome ∧
      ∀ state', outcome = .ok state' → Inv state' := by
  induction items generalizing state with
  | nil =>
      refine ⟨.ok state, by simp, .const _, ?_⟩
      rintro state' ⟨rfl⟩
      exact start
  | cons item rest induction =>
      obtain ⟨first, notRunning, stepped⟩ :=
        running item List.mem_cons_self state start
      cases first with
      | error abort =>
          exact ⟨.error abort, by simpa using notRunning, stepped.bind_abort,
            by simp⟩
      | ok next =>
          obtain ⟨outcome, notRunning', reached, holds⟩ := induction
            (fun item member => running item (List.mem_cons_of_mem _ member))
            (fun item member => keep item (List.mem_cons_of_mem _ member))
            (keep item List.mem_cons_self state next start stepped)
          exact ⟨outcome, notRunning', stepped.bind reached, holds⟩

end Mintter.Foundation
