import Mintter.Foundation.Outcome

/-!
# Calls that may also return an error

An attempt returns a value or an error, or it aborts.  `Returns` says which
value a call returns, and `Quiet` that it does not abort; both are computed
through sequences of calls, so that a call is known by the checks it passes.
-/

namespace Mintter.Foundation

/-- A call that returns a value or an error message, unless it aborts. -/
abbrev Attempt (α : Type) := ExceptT String Outcome α

namespace Attempt

section Basic

variable {α β : Type}

/-- The call panics. -/
def abort (message : String) : Attempt α :=
  ExceptT.mk (panicWith message)

/-- A result without an abort. -/
def ofExcept (result : Except String α) : Attempt α :=
  ExceptT.mk (.ok result)

/-- Fail unless the condition is false. -/
def check (bad : Prop) [Decidable bad] (message : String) : Attempt Unit :=
  if bad then throw message else pure ()

/-- The call returns this value. -/
def Returns (call : Attempt α) (value : α) : Prop :=
  call.run = .ok (.ok value)

instance [DecidableEq α] (call : Attempt α) (value : α) :
    Decidable (call.Returns value) :=
  inferInstanceAs (Decidable (call.run = .ok (.ok value)))

/-- The call returns a value or an error. -/
def Quiet (call : Attempt α) : Prop :=
  ∃ result, call.run = .ok result

theorem not_quiet_of_error {call : Attempt α} {abort : Abort}
    (aborts : call.run = .error abort) : ¬ call.Quiet := by
  rintro ⟨result, isOk⟩
  exact absurd (aborts.symm.trans isOk) nofun

/-- Whether the call returns no value. -/
def fails (call : Attempt α) : Bool :=
  match call.run with
  | .ok (.ok _) => false
  | _ => true

theorem not_returns_of_fails {call : Attempt α} (isFailure : call.fails = true)
    (value : α) : ¬ call.Returns value := by
  intro returns
  rw [Returns] at returns
  rw [fails, returns] at isFailure
  cases isFailure

/-- A call that returns does not panic. -/
theorem Returns.quiet {call : Attempt α} {value : α}
    (returns : call.Returns value) : call.Quiet :=
  ⟨_, returns⟩

/-- A call returns one value at most. -/
theorem Returns.unique {call : Attempt α} {value value' : α}
    (first : call.Returns value) (second : call.Returns value') :
    value = value' :=
  Except.ok.inj (Except.ok.inj (Eq.trans (Eq.symm first) second))

/-- The value that the call returns, if it returns one. -/
def returned (call : Attempt α) : Option α :=
  match call.run with
  | .ok (.ok value) => some value
  | _ => none

/-- The value that is computed is the one that the call returns. -/
theorem returned_eq_some {call : Attempt α} {value : α} :
    call.returned = some value ↔ call.Returns value := by
  rw [returned, Returns]
  constructor
  · intro isValue
    split at isValue
    · next value' isOk => rw [isOk, Option.some.inj isValue]
    · cases isValue
  · intro isOk
    rw [isOk]

/-- A value returns itself. -/
@[simp]
theorem returns_pure {value value' : α} :
    (pure value : Attempt α).Returns value' ↔ value = value' := by
  constructor
  · exact fun returns => Except.ok.inj (Except.ok.inj returns)
  · rintro rfl
    exact rfl

@[simp]
theorem quiet_pure (value : α) : (pure value : Attempt α).Quiet :=
  ⟨_, rfl⟩

@[simp]
theorem not_returns_throw {message : String} {value : α} :
    ¬ (throw message : Attempt α).Returns value :=
  fun returns => nomatch Except.ok.inj returns

@[simp]
theorem quiet_throw (message : String) : (throw message : Attempt α).Quiet :=
  ⟨_, rfl⟩

@[simp]
theorem not_returns_abort {message : String} {value : α} :
    ¬ (abort message : Attempt α).Returns value :=
  fun returns => nomatch (show Except.error _ = Except.ok _ from returns)

@[simp]
theorem not_quiet_abort {message : String} : ¬ (abort message : Attempt α).Quiet :=
  fun ⟨_, quiet⟩ => nomatch (show Except.error _ = Except.ok _ from quiet)

/-- Change the error that the call returns. -/
def wrapError (call : Attempt α) (wrap : String → String) : Attempt α :=
  ExceptT.mk (call.run.map (·.mapError wrap))

/-- Another text for the errors does not change what is returned. -/
@[simp]
theorem returns_wrapError {call : Attempt α} {wrap : String → String} {value : α} :
    (call.wrapError wrap).Returns value ↔ call.Returns value := by
  rw [Returns, Returns, wrapError, ExceptT.run_mk]
  rcases call.run with abort | (message | value') <;> simp [Except.map, Except.mapError]

/-- A result returns its value. -/
@[simp]
theorem returns_ofExcept {result : Except String α} {value : α} :
    (ofExcept result).Returns value ↔ result = .ok value :=
  ⟨fun returns => Except.ok.inj returns, fun isOk => congrArg Except.ok isOk⟩

@[simp]
theorem quiet_ofExcept (result : Except String α) : (ofExcept result).Quiet :=
  ⟨_, rfl⟩

/-- A check passes if nothing is bad. -/
@[simp]
theorem returns_check {bad : Prop} [Decidable bad] {message : String}
    {value : Unit} : (check bad message).Returns value ↔ ¬ bad := by
  rw [check]
  split
  · next isBad => exact iff_of_false not_returns_throw (not_not.mpr isBad)
  · next isGood => exact iff_of_true (returns_pure.mpr rfl) isGood

@[simp]
theorem quiet_check (bad : Prop) [Decidable bad] (message : String) :
    (check bad message).Quiet := by
  rw [check]
  split
  · exact quiet_throw message
  · exact quiet_pure ()

/-- The rest of a call runs on the value of the first part, which may also fail or panic. -/
theorem run_bind (call : Attempt α) (next : α → Attempt β) :
    (call >>= next).run =
      match call.run with
      | .error abort => .error abort
      | .ok (.error message) => .ok (.error message)
      | .ok (.ok value) => (next value).run := by
  show Except.bind call.run (ExceptT.bindCont next) = _
  rcases call.run with abort | (message | value) <;> rfl

/-- A sequence returns what its second part returns on the value of the first. -/
@[simp]
theorem returns_bind {call : Attempt α} {next : α → Attempt β} {result : β} :
    (call >>= next).Returns result ↔
      ∃ value, call.Returns value ∧ (next value).Returns result := by
  rw [Returns, run_bind]
  simp only [Returns]
  rcases call.run with abort | (message | value) <;> simp

/-- A sequence of calls does not abort when each one that is reached does not. -/
@[simp]
theorem quiet_bind {call : Attempt α} {next : α → Attempt β} :
    (call >>= next).Quiet ↔
      call.Quiet ∧ ∀ value, call.Returns value → (next value).Quiet := by
  rw [Quiet, run_bind]
  simp only [Quiet, Returns]
  rcases call.run with abort | (message | value) <;> simp

/-- A view of a call returns the view of its value. -/
@[simp]
theorem returns_map {call : Attempt α} {view : α → β} {result : β} :
    (view <$> call).Returns result ↔
      ∃ value, call.Returns value ∧ view value = result := by
  rw [map_eq_pure_bind, returns_bind]
  simp only [returns_pure]

@[simp]
theorem quiet_map {call : Attempt α} {view : α → β} :
    (view <$> call).Quiet ↔ call.Quiet := by
  rw [map_eq_pure_bind, quiet_bind]
  simp only [quiet_pure, implies_true, and_true]

/-! ## Calls with fuel -/

/-- With enough fuel the call returns this value. -/
def Settles (call : Nat → Attempt α) (value : α) : Prop :=
  ∃ enough, ∀ fuel, enough ≤ fuel → (call fuel).Returns value

theorem Settles.const {call : Attempt α} {value : α} (returns : call.Returns value) :
    Settles (fun _ => call) value :=
  ⟨0, fun _ _ => returns⟩

theorem Settles.lift {call : Nat → Outcome α} {value : α} (converges : Converges call (.ok value)) :
    Settles (fun fuel => ExceptT.lift (call fuel)) value := by
  rcases converges with ⟨enough, converges⟩
  refine ⟨enough, fun fuel large => ?_⟩
  rw [Returns, ExceptT.run_lift, converges fuel large]
  rfl

/-- Two values to which the same call settles are equal. -/
theorem Settles.unique {call : Nat → Attempt α} {value value' : α} (settles : Settles call value)
    (settles' : Settles call value') : value = value' := by
  rcases settles with ⟨enough, settles⟩
  rcases settles' with ⟨enough', settles'⟩
  exact (settles (max enough enough') (le_max_left _ _)).unique
    (settles' (max enough enough') (le_max_right _ _))

/-- After a call that settles the rest goes on with its value. -/
theorem Settles.bind_iff {call : Nat → Attempt α} {next : Nat → α → Attempt β} {value : α}
    {result : β} (first : Settles call value) :
    Settles (fun fuel => call fuel >>= next fuel) result ↔
      Settles (fun fuel => next fuel value) result := by
  rcases first with ⟨enough, first⟩
  constructor
  · rintro ⟨enough', whole⟩
    refine ⟨max enough enough', fun fuel large => ?_⟩
    rcases returns_bind.mp (whole fuel (le_trans (le_max_right _ _) large)) with
      ⟨value', returns, rest⟩
    cases (first fuel (le_trans (le_max_left _ _) large)).unique returns
    exact rest
  · rintro ⟨enough', rest⟩
    refine ⟨max enough enough', fun fuel large => returns_bind.mpr ⟨value, ?_, ?_⟩⟩
    · exact first fuel (le_trans (le_max_left _ _) large)
    · exact rest fuel (le_trans (le_max_right _ _) large)

end Basic

/-! ## Loops -/

section Loop

variable {σ β : Type} {step : σ → β → Attempt σ} {s t : σ}

/-- What every step of a loop keeps is kept by the loop. -/
theorem Returns.foldlM_invariant {kept : σ → Prop} {items : List β}
    (keeps : ∀ s item t, item ∈ items → kept s → (step s item).Returns t → kept t)
    (returns : (items.foldlM step s).Returns t) (start : kept s) : kept t := by
  induction items generalizing s with
  | nil =>
      rw [List.foldlM_nil, returns_pure] at returns
      exact returns ▸ start
  | cons item items induction =>
      rw [List.foldlM_cons, returns_bind] at returns
      rcases returns with ⟨next, first, rest⟩
      exact induction
        (fun s other t member => keeps s other t (List.mem_cons_of_mem item member))
        rest (keeps s item next (List.mem_cons_self ..) start first)

/-- A loop is quiet when every step is. -/
theorem quiet_foldlM {items : List β}
    (quiet : ∀ s, ∀ item ∈ items, (step s item).Quiet) (s : σ) :
    (items.foldlM step s).Quiet := by
  induction items generalizing s with
  | nil => exact quiet_pure s
  | cons item items induction =>
      rw [List.foldlM_cons, quiet_bind]
      exact ⟨quiet s item (List.mem_cons_self ..), fun next _ =>
        induction (fun s other member =>
          quiet s other (List.mem_cons_of_mem item member)) next⟩

/-- A loop returns when every step does. -/
theorem returns_foldlM {items : List β}
    (returns : ∀ s, ∀ item ∈ items, ∃ t, (step s item).Returns t) (s : σ) :
    ∃ t, (items.foldlM step s).Returns t := by
  induction items generalizing s with
  | nil => exact ⟨s, returns_pure.mpr rfl⟩
  | cons item items induction =>
      rcases returns s item (List.mem_cons_self ..) with ⟨next, first⟩
      rcases induction (fun s other member =>
        returns s other (List.mem_cons_of_mem item member)) next with ⟨t, rest⟩
      refine ⟨t, ?_⟩
      rw [List.foldlM_cons, returns_bind]
      exact ⟨next, first, rest⟩

/-- In a loop that returns, every step has returned. -/
theorem Returns.step_of_foldlM {items : List β} {item : β}
    (returns : (items.foldlM step s).Returns t) (member : item ∈ items) :
    ∃ before after, (step before item).Returns after := by
  induction items generalizing s with
  | nil => cases member
  | cons other items induction =>
      rw [List.foldlM_cons, returns_bind] at returns
      rcases returns with ⟨next, first, rest⟩
      rcases List.mem_cons.mp member with rfl | later
      · exact ⟨s, next, first⟩
      · exact induction rest later

/-- Items that a loop skips can be left out. -/
theorem foldlM_filter {kept : β → Bool} {items : List β}
    (skips : ∀ s, ∀ item ∈ items, kept item = false → step s item = pure s) (s : σ) :
    (items.filter kept).foldlM step s = items.foldlM step s := by
  induction items generalizing s with
  | nil => rfl
  | cons item items induction =>
      have rest := induction fun s other member =>
        skips s other (List.mem_cons_of_mem item member)
      cases isKept : kept item with
      | true =>
          rw [List.filter_cons_of_pos isKept, List.foldlM_cons, List.foldlM_cons]
          exact congrArg _ (funext rest)
      | false =>
          rw [List.filter_cons_of_neg (by simp [isKept]), List.foldlM_cons,
            skips s item (List.mem_cons_self ..) isKept, pure_bind, rest]

/-- A list of calls returns values with the keys that were asked for. -/
theorem returns_mapM {α β : Type} {call : α → Attempt β} (key : β → α) {fine : β → Prop}
    {items : List α} (returns : ∀ item ∈ items,
      ∃ value, (call item).Returns value ∧ key value = item ∧ fine value) :
    ∃ values, (items.mapM call).Returns values ∧ values.map key = items ∧
      ∀ value ∈ values, fine value := by
  induction items with
  | nil => exact ⟨[], returns_pure.mpr rfl, rfl, by simp⟩
  | cons item items induction =>
      rcases returns item List.mem_cons_self with ⟨value, first, isItem, isFine⟩
      rcases induction fun other member => returns other (List.mem_cons_of_mem _ member) with
        ⟨values, rest, areItems, areFine⟩
      refine ⟨value :: values, ?_, ?_, ?_⟩
      · rw [List.mapM_cons, returns_bind]
        refine ⟨value, first, ?_⟩
        rw [returns_bind]
        exact ⟨values, rest, returns_pure.mpr rfl⟩
      · rw [List.map_cons, isItem, areItems]
      · intro other member
        rcases List.mem_cons.mp member with rfl | later
        · exact isFine
        · exact areFine other later

section Order

variable {same : σ → σ → Prop} {items items' : List β}

/-- Two steps can be made in the other order, up to the relation. -/
def Swaps (step : σ → β → Attempt σ) (same : σ → σ → Prop) (first second : β) :
    Prop :=
  ∀ s next t, (step s first).Returns next → (step next second).Returns t →
    ∃ next' t', (step s second).Returns next' ∧ (step next' first).Returns t' ∧
      same t t'

/-- A loop follows another one when each of its steps does. -/
theorem Returns.foldlM_follows
    (follows : ∀ item ∈ items, ∀ s t s', same s s' → (step s item).Returns t →
      ∃ t', (step s' item).Returns t' ∧ same t t')
    {s s' : σ} (start : same s s') (returns : (items.foldlM step s).Returns t) :
    ∃ t', (items.foldlM step s').Returns t' ∧ same t t' := by
  induction items generalizing s s' with
  | nil =>
      rw [List.foldlM_nil, returns_pure] at returns
      exact ⟨s', returns_pure.mpr rfl, returns ▸ start⟩
  | cons item items induction =>
      rw [List.foldlM_cons, returns_bind] at returns
      rcases returns with ⟨next, first, rest⟩
      rcases follows item (List.mem_cons_self ..) s next s' start first with
        ⟨next', first', same'⟩
      rcases induction (fun other member =>
        follows other (List.mem_cons_of_mem item member)) same' rest with
        ⟨t', rest', related⟩
      refine ⟨t', ?_, related⟩
      rw [List.foldlM_cons, returns_bind]
      exact ⟨next', first', rest'⟩

/-- The items of a loop can be visited in any order when its steps can be swapped. -/
theorem Returns.foldlM_perm (perm : items.Perm items') (refl : ∀ s, same s s)
    (trans : ∀ s t u, same s t → same t u → same s u)
    (follows : ∀ item ∈ items, ∀ s t s', same s s' → (step s item).Returns t →
      ∃ t', (step s' item).Returns t' ∧ same t t')
    (swaps : items.Pairwise fun first second =>
      Swaps step same first second ∧ Swaps step same second first)
    (returns : (items.foldlM step s).Returns t) :
    ∃ t', (items'.foldlM step s).Returns t' ∧ same t t' := by
  induction perm generalizing s t with
  | nil => exact ⟨t, returns, refl t⟩
  | cons item _ induction =>
      rw [List.foldlM_cons, returns_bind] at returns
      rcases returns with ⟨next, first, rest⟩
      rcases induction (fun other member =>
        follows other (List.mem_cons_of_mem item member))
        (List.pairwise_cons.mp swaps).2 rest with ⟨t', rest', related⟩
      refine ⟨t', ?_, related⟩
      rw [List.foldlM_cons, returns_bind]
      exact ⟨next, first, rest'⟩
  | swap second first rest =>
      simp only [List.foldlM_cons, returns_bind] at returns
      rcases returns with ⟨next, isFirst, next₂, isSecond, others⟩
      have both := (List.pairwise_cons.mp swaps).1 second (List.mem_cons_self ..)
      rcases both.1 s next next₂ isFirst isSecond with
        ⟨next', next₂', isSecond', isFirst', swapped⟩
      rcases others.foldlM_follows (fun other member => follows other
        (List.mem_cons_of_mem _ (List.mem_cons_of_mem _ member))) swapped with
        ⟨t', others', related⟩
      refine ⟨t', ?_, related⟩
      simp only [List.foldlM_cons, returns_bind]
      exact ⟨next', isSecond', next₂', isFirst', others'⟩
  | trans perm perm' induction induction' =>
      rcases induction follows swaps returns with ⟨t₁, returns₁, related₁⟩
      have swaps₁ := (perm.pairwise_iff fun both => And.symm both).mp swaps
      rcases induction' (fun item member => follows item (perm.mem_iff.mpr member))
        swaps₁ returns₁ with ⟨t₂, returns₂, related₂⟩
      exact ⟨t₂, returns₂, trans t t₁ t₂ related₁ related₂⟩

end Order

end Loop

end Attempt

end Mintter.Foundation
