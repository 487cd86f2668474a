import Mathlib.Data.List.Basic
import Mathlib.Order.Nat

/-!
# The navigation history of a window

A window keeps a list of routes and the index of the one that it shows.  Going back leaves the
later routes in the list, so that the window can go forward again.

`backplace` cuts off the last route of the list instead of the routes from the shown one on,
so it shows its route only when the window is at one of the two ends of its history.
-/

namespace Mintter.Frontend

variable {NavRoute : Type}

/-- What can be done to the history of a window. -/
inductive NavAction (NavRoute : Type) where
  | push (route : NavRoute)
  | replace (route : NavRoute)
  | backplace (route : NavRoute)
  | closeBack
  | pop
  | forward
  | sidebarLocked (value : Bool)
deriving DecidableEq

/-- The types of actions. -/
inductive NavActionType where
  | push
  | replace
  | backplace
  | closeBack
  | pop
  | forward
  | sidebarLocked
deriving DecidableEq

/-- The type of an action. -/
def NavAction.type : NavAction NavRoute → NavActionType
  | .push _ => .push
  | .replace _ => .replace
  | .backplace _ => .backplace
  | .closeBack => .closeBack
  | .pop => .pop
  | .forward => .forward
  | .sidebarLocked _ => .sidebarLocked

/-- The route that an action is to show. -/
def NavAction.target : NavAction NavRoute → Option NavRoute
  | .push route | .replace route | .backplace route => some route
  | _ => none

/-- The routes of a window, and the one that it shows. -/
structure NavState (NavRoute : Type) where
  sidebarLocked : Option Bool
  routes : List NavRoute
  routeIndex : Nat
  lastAction : NavActionType
deriving DecidableEq

/-- The state after an action. -/
def navStateReducer (state : NavState NavRoute) (action : NavAction NavRoute) :
    NavState NavRoute :=
  match action with
  | .push route => { state with
      routes := state.routes.take (state.routeIndex + 1) ++ [route]
      routeIndex := state.routeIndex + 1
      lastAction := action.type }
  | .replace route => { state with
      routes := state.routes.take state.routeIndex ++ [route]
      lastAction := action.type }
  | .backplace route =>
      if state.routeIndex = 0 then { state with
        routes := [route]
        routeIndex := 0
        lastAction := action.type }
      else { state with
        routes := state.routes.take (state.routes.length - 1) ++ [route]
        lastAction := action.type }
  | .closeBack | .pop =>
      if state.routeIndex = 0 then state
      else { state with
        routeIndex := state.routeIndex - 1
        lastAction := action.type }
  | .forward => { state with
      routeIndex := min (state.routeIndex + 1) (state.routes.length - 1)
      lastAction := action.type }
  | .sidebarLocked value => { state with sidebarLocked := some value }

namespace NavState

/-- The state after a sequence of actions. -/
def run (state : NavState NavRoute) (actions : List (NavAction NavRoute)) :
    NavState NavRoute :=
  actions.foldl navStateReducer state

/-- The index is the one of a route. -/
def InRange (state : NavState NavRoute) : Prop := state.routeIndex < state.routes.length

instance (state : NavState NavRoute) : Decidable state.InRange :=
  inferInstanceAs (Decidable (state.routeIndex < state.routes.length))

/-- The route that the window shows. -/
def shown (state : NavState NavRoute) : Option NavRoute := state.routes[state.routeIndex]?

/--
What is to hold of an action: the index stays in range, the route of the action is shown, and
going forward undoes going back.
-/
structure Consistent (state : NavState NavRoute) (action : NavAction NavRoute) : Prop where
  inRange : (navStateReducer state action).InRange
  shows : ∀ route, action.target = some route →
    (navStateReducer state action).shown = some route
  restores : action = .pop → (navStateReducer state action).routeIndex ≠ state.routeIndex →
    (navStateReducer (navStateReducer state action) .forward).routes = state.routes ∧
      (navStateReducer (navStateReducer state action) .forward).routeIndex =
        state.routeIndex

/-- A window that goes back to a route shows the first or the last one, or this route. -/
def MayGoBack (state : NavState NavRoute) (action : NavAction NavRoute) : Prop :=
  ∀ route, action = .backplace route → state.routeIndex = 0 ∨
    state.routeIndex + 1 = state.routes.length ∨ state.shown = some route

variable {state : NavState NavRoute}

/-- Every action keeps the index in range. -/
theorem InRange.reduce (inRange : state.InRange) (action : NavAction NavRoute) :
    (navStateReducer state action).InRange := by
  rw [InRange] at inRange ⊢
  cases action with
  | push route =>
      simp only [navStateReducer, List.length_append, List.length_take, List.length_singleton]
      omega
  | replace route =>
      simp only [navStateReducer, List.length_append, List.length_take, List.length_singleton]
      omega
  | backplace route =>
      rw [navStateReducer]
      split
      · simp
      · simp only [List.length_append, List.length_take, List.length_singleton]
        omega
  | closeBack | pop =>
      rw [navStateReducer]
      split
      · exact inRange
      · exact lt_of_le_of_lt (Nat.sub_le _ _) inRange
  | forward =>
      simp only [navStateReducer]
      omega
  | sidebarLocked value => exact inRange

theorem shown_push (inRange : state.InRange) (route : NavRoute) :
    (navStateReducer state (.push route)).shown = some route := by
  have length : (state.routes.take (state.routeIndex + 1)).length = state.routeIndex + 1 :=
    List.length_take_of_le inRange
  change (state.routes.take (state.routeIndex + 1) ++ [route])[state.routeIndex + 1]? = _
  rw [List.getElem?_append_right length.le, length, Nat.sub_self]
  rfl

theorem shown_replace (inRange : state.InRange) (route : NavRoute) :
    (navStateReducer state (.replace route)).shown = some route := by
  have length : (state.routes.take state.routeIndex).length = state.routeIndex :=
    List.length_take_of_le inRange.le
  change (state.routes.take state.routeIndex ++ [route])[state.routeIndex]? = _
  rw [List.getElem?_append_right length.le, length, Nat.sub_self]
  rfl

/-- Going back to a route shows it exactly when it may. -/
theorem shown_backplace_iff (inRange : state.InRange) (route : NavRoute) :
    (navStateReducer state (.backplace route)).shown = some route ↔
      state.routeIndex = 0 ∨ state.routeIndex + 1 = state.routes.length ∨
        state.shown = some route := by
  rw [navStateReducer]
  by_cases first : state.routeIndex = 0
  · rw [if_pos first]
    exact iff_of_true rfl (.inl first)
  · rw [if_neg first, shown]
    have length : (state.routes.take (state.routes.length - 1)).length =
        state.routes.length - 1 := List.length_take_of_le (Nat.sub_le _ _)
    by_cases last : state.routeIndex + 1 = state.routes.length
    · have index : state.routeIndex = state.routes.length - 1 := by omega
      rw [List.getElem?_append_right (length.trans index.symm).le, length, index, Nat.sub_self]
      exact iff_of_true rfl (.inr (.inl (by omega)))
    · have before : state.routeIndex < state.routes.length - 1 := by
        rw [InRange] at inRange
        omega
      rw [List.getElem?_append_left (length.symm ▸ before), List.getElem?_take_of_lt before]
      simp only [first, last, false_or]
      exact .rfl

/-- Going forward undoes going back. -/
theorem forward_of_pop (inRange : state.InRange)
    (moved : (navStateReducer state .pop).routeIndex ≠ state.routeIndex) :
    (navStateReducer (navStateReducer state .pop) .forward).routes = state.routes ∧
      (navStateReducer (navStateReducer state .pop) .forward).routeIndex =
        state.routeIndex := by
  rw [InRange] at inRange
  have notFirst : state.routeIndex ≠ 0 := by
    intro first
    rw [navStateReducer, if_pos first] at moved
    exact moved rfl
  simp only [navStateReducer, if_neg notFirst, true_and]
  omega

/-- One action does what it is to do exactly when the window may go back. -/
theorem consistent_iff (inRange : state.InRange) (action : NavAction NavRoute) :
    state.Consistent action ↔ state.MayGoBack action := by
  constructor
  · rintro consistent route rfl
    exact (shown_backplace_iff inRange route).mp (consistent.shows route rfl)
  · intro may
    constructor
    · exact inRange.reduce action
    · intro route isTarget
      cases action with
      | push _ =>
          cases isTarget
          exact shown_push inRange route
      | replace _ =>
          cases isTarget
          exact shown_replace inRange route
      | backplace _ =>
          cases isTarget
          exact (shown_backplace_iff inRange route).mpr (may route rfl)
      | closeBack | pop | forward | sidebarLocked _ => cases isTarget
    · rintro rfl moved
      exact forward_of_pop inRange moved

theorem InRange.run (inRange : state.InRange) (actions : List (NavAction NavRoute)) :
    (state.run actions).InRange := by
  induction actions generalizing state with
  | nil => exact inRange
  | cons action actions induction => exact induction (inRange.reduce action)

/-- The history is consistent in a run exactly when the window may always go back. -/
theorem history_consistent_iff (inRange : state.InRange) (actions : List (NavAction NavRoute)) :
    (∀ seen action rest, actions = seen ++ action :: rest →
      (state.run seen).InRange ∧ (state.run seen).Consistent action) ↔
    ∀ seen action rest, actions = seen ++ action :: rest →
      (state.run seen).MayGoBack action := by
  constructor
  · intro consistent seen action rest split
    exact (consistent_iff (inRange.run seen) action).mp (consistent seen action rest split).2
  · intro may seen action rest split
    exact ⟨inRange.run seen,
      (consistent_iff (inRange.run seen) action).mpr (may seen action rest split)⟩

/-- A window that has shown the routes 0, 1 and 2. -/
def threeRoutes : NavState Nat where
  sidebarLocked := none
  routes := [0, 1, 2]
  routeIndex := 2
  lastAction := .push

theorem history_consistent_iff_threeRoutes :
    threeRoutes.InRange ∧
      ∀ seen action rest, [.backplace 3, .pop, .push 4] = seen ++ action :: rest →
        (threeRoutes.run seen).InRange ∧ (threeRoutes.run seen).Consistent action := by
  have inRange : threeRoutes.InRange := by decide
  constructor
  · exact inRange
  · apply (history_consistent_iff inRange _).mpr
    rintro seen _ rest split route rfl
    cases seen with
    | nil =>
        right
        left
        rfl
    | cons first seen =>
        have later : [.pop, .push 4] = seen ++ NavAction.backplace route :: rest :=
          List.tail_eq_of_cons_eq split
        have isLater : NavAction.backplace route ∈ [NavAction.pop, .push 4] := by
          rw [later]
          exact List.mem_append_cons_self
        rcases List.mem_pair.mp isLater with isPop | isPush
        · cases isPop
        · cases isPush

/-- After going back, `backplace` replaces a route that is not shown. -/
theorem backplace_shows_other_route :
    threeRoutes.InRange ∧ ¬ ((threeRoutes.run [.pop]).Consistent (.backplace 3)) := by
  constructor
  · decide
  · intro consistent
    have shows := consistent.shows 3 rfl
    revert shows
    decide

end NavState

end Mintter.Frontend
