import Mintter.Docmodel.Commit
import Mintter.Docmodel.Runs

/-!
# What a commit reports

`commit` always returns nil: the error of an integration is assigned to a variable of the
callback, which hides the named result.  So it reports what happened exactly when no
integration fails.  The operations that `forEachMove` hands out are the same for every
callback that takes them all.
-/

namespace Mintter.Docmodel

open Mintter.Foundation
open TreeMutation

/-- An operation as it is handed out. -/
structure HandedOut where
  block : String
  parent : String
  left : String
  leftOrigin : String

/-- A callback that takes the arguments one by one. -/
abbrev takeOp {σ : Type} (fn : σ → String → String → String → String → Outcome (σ × Bool))
    (state : σ) (op : HandedOut) : Outcome (σ × Bool) :=
  fn state op.block op.parent op.left op.leftOrigin

/-- The callback takes all the operations, one after the other. -/
inductive Takes {σ : Type} (fn : σ → String → String → String → String → Outcome (σ × Bool)) :
    List HandedOut → σ → σ → Prop where
  | nil {state : σ} : Takes fn [] state state
  | cons {op : HandedOut} {ops : List HandedOut} {state next last : σ}
      (first : takeOp fn state op = .ok (next, true)) (rest : Takes fn ops next last) :
      Takes fn (op :: ops) state last

namespace TreeMutation

/-- A callback that collects the operations. -/
def collectMove (ops : List HandedOut) (block parent left leftOrigin : String) :
    Outcome (List HandedOut × Bool) :=
  pure (ops ++ [⟨block, parent, left, leftOrigin⟩], true)

/-- All operations that `forEachMove` produces. -/
def handedOut (fuel : Nat) (vt : TreeMutation) : Outcome (List HandedOut) :=
  vt.forEachMove fuel collectMove []

end TreeMutation

section Takes

variable {σ : Type} {fn : σ → String → String → String → String → Outcome (σ × Bool)}
variable {ops more : List HandedOut} {op : HandedOut} {state last : σ} {vt : TreeMutation}

/-- Two lists of operations are taken one after the other. -/
theorem takes_append_iff :
    Takes fn (ops ++ more) state last ↔ ∃ next, Takes fn ops state next ∧ Takes fn more next last := by
  induction ops generalizing state with
  | nil =>
      constructor
      · exact fun takes => ⟨state, .nil, takes⟩
      · rintro ⟨next, first, rest⟩
        cases first
        exact rest
  | cons op ops induction =>
      constructor
      · intro takes
        cases takes with
        | cons first rest =>
            rcases induction.mp rest with ⟨next, before, after⟩
            exact ⟨next, .cons first before, after⟩
      · rintro ⟨next, before, after⟩
        cases before with
        | cons first rest => exact .cons first (induction.mpr ⟨next, rest, after⟩)

/-- One operation more is taken at the end. -/
theorem takes_concat_iff : Takes fn (ops ++ [op]) state last ↔
    ∃ next, Takes fn ops state next ∧ takeOp fn next op = .ok (last, true) := by
  rw [takes_append_iff]
  refine exists_congr fun next => and_congr_right fun _ => ?_
  constructor
  · intro takes
    cases takes with
    | cons first rest =>
        cases rest
        exact first
  · exact fun taken => .cons taken .nil

namespace TreeMutation

/-- What one move of the walk hands out. -/
theorem reportMove_collect {m : Move} {before after : List HandedOut} {goOn : Bool}
    (collected : vt.reportMove collectMove before m = .ok (after, goOn)) :
    goOn = true ∧ ∃ ops, after = before ++ ops ∧
      ∀ {σ : Type} {fn : σ → String → String → String → String → Outcome (σ × Bool)}
        {state last : σ}, Takes fn ops state last →
          vt.reportMove fn state m = .ok (last, true) := by
  by_cases own : m.IsOwn
  · by_cases isTrash : m.parent = trashNodeID
    · have unset : m.opID.origin = "" := own
      simp [reportMove, unset, isTrash, panicWith] at collected
    · rw [reportMove_of_own own isTrash] at collected
      cases collected
      refine ⟨rfl, [_], rfl, fun takes => ?_⟩
      rw [reportMove_of_own own isTrash]
      cases takes with
      | cons first rest =>
          cases rest
          exact first
  · rw [reportMove_of_not_own own] at collected
    cases collected
    refine ⟨rfl, [], by simp, fun takes => ?_⟩
    rw [reportMove_of_not_own own]
    cases takes
    exact rfl

theorem reportDelete_collect {m : Move} {before after : List HandedOut} {goOn : Bool}
    (collected : reportDelete collectMove before m = .ok (after, goOn)) :
    goOn = true ∧ ∃ ops, after = before ++ ops ∧
      ∀ {σ : Type} {fn : σ → String → String → String → String → Outcome (σ × Bool)}
        {state last : σ}, Takes fn ops state last →
          reportDelete fn state m = .ok (last, true) := by
  by_cases isDelete : m.IsOwn ∧ m.parent = trashNodeID
  · rw [reportDelete_of_own isDelete.1 isDelete.2] at collected
    cases collected
    refine ⟨rfl, [_], rfl, fun takes => ?_⟩
    rw [reportDelete_of_own isDelete.1 isDelete.2]
    cases takes with
    | cons first rest =>
        cases rest
        exact first
  · rw [reportDelete_of_other isDelete] at collected
    cases collected
    refine ⟨rfl, [], by simp, fun takes => ?_⟩
    rw [reportDelete_of_other isDelete]
    cases takes
    exact rfl

/-- The walk hands the same operations to every callback that takes them. -/
theorem walkLoop_collect {kids : Move → List Move} {fuel : Nat} {stack : List Move}
    {before after : List HandedOut}
    (collected : walkLoop kids (vt.reportMove collectMove) fuel stack before = .ok after) :
    ∃ ops, after = before ++ ops ∧
      ∀ {σ : Type} {fn : σ → String → String → String → String → Outcome (σ × Bool)}
        {state last : σ}, Takes fn ops state last →
          walkLoop kids (vt.reportMove fn) fuel stack state = .ok last := by
  induction fuel generalizing stack before with
  | zero =>
      cases stack with
      | nil =>
          cases collected
          refine ⟨[], by simp, fun takes => ?_⟩
          cases takes
          exact rfl
      | cons m stack => cases collected
  | succ fuel induction =>
      cases stack with
      | nil =>
          cases collected
          refine ⟨[], by simp, fun takes => ?_⟩
          cases takes
          exact rfl
      | cons m stack =>
          rw [walkLoop] at collected
          rcases bind_eq_ok.mp collected with ⟨⟨next, goOn⟩, first, rest⟩
          rcases reportMove_collect first with ⟨rfl, ops, rfl, report⟩
          rcases induction rest with ⟨more, rfl, walk⟩
          refine ⟨ops ++ more, by simp, fun takes => ?_⟩
          rcases takes_append_iff.mp takes with ⟨between, takesFirst, takesRest⟩
          rw [walkLoop, report takesFirst, ok_bind]
          exact walk takesRest

/-- What the visit collects is handed out in the same order. -/
theorem visit_collect {items : List Move} {before after : List HandedOut}
    (collected : visit (reportDelete collectMove) items before = .ok after) :
    ∃ ops, after = before ++ ops ∧
      ∀ {σ : Type} {fn : σ → String → String → String → String → Outcome (σ × Bool)}
        {state last : σ}, Takes fn ops state last →
          visit (reportDelete fn) items state = .ok last := by
  induction items generalizing before with
  | nil =>
      cases collected
      refine ⟨[], by simp, fun takes => ?_⟩
      cases takes
      exact rfl
  | cons m items induction =>
      rw [visit] at collected
      rcases bind_eq_ok.mp collected with ⟨⟨next, goOn⟩, first, rest⟩
      rcases reportDelete_collect first with ⟨rfl, ops, rfl, report⟩
      rcases induction rest with ⟨more, rfl, walk⟩
      refine ⟨ops ++ more, by simp, fun takes => ?_⟩
      rcases takes_append_iff.mp takes with ⟨between, takesFirst, takesRest⟩
      rw [visit_cons_of_more (report takesFirst)]
      exact walk takesRest

/-- A callback that takes all operations that are produced is run on them. -/
theorem forEachMove_of_takes {fuel : Nat} (collected : vt.handedOut fuel = .ok ops)
    (takes : Takes fn ops state last) : vt.forEachMove fuel fn state = .ok last := by
  rw [handedOut, forEachMove] at collected
  rcases bind_eq_ok.mp collected with ⟨between, walked, deleted⟩
  rcases walkLoop_collect walked with ⟨first, rfl, walk⟩
  rcases visit_collect deleted with ⟨rest, rfl, visits⟩
  rcases takes_append_iff.mp takes with ⟨next, takesFirst, takesRest⟩
  rw [forEachMove, walkDFT, walk takesFirst, ok_bind]
  exact visits takesRest

end TreeMutation

end Takes

/-! ## Integrating all operations -/

/-- What has to hold of an operation, after `before` were integrated. -/
structure Fits (state : TreeCRDT) (origin : String) (ts : Int) (before : List HandedOut)
    (op : HandedOut) : Prop where
  numbered : ∀ x ∈ state.log, x.opID ≠ ⟨origin, ts, before.length⟩
  fresh : state.origins op.block origin = none
  distinct : ∀ earlier ∈ before, earlier.block ≠ op.block
  left_ne_trash : op.left ≠ trashNodeID
  left_named : op.left ≠ "" → leftOriginOf origin op.left op.leftOrigin ≠ ""
  anchored : (op.left = "" ∧ op.leftOrigin = "") ∨
    (∃ x ∈ state.log, x.parent = op.parent ∧ x.block = op.left ∧
      x.opID.origin = leftOriginOf origin op.left op.leftOrigin) ∨
    ∃ earlier ∈ before, earlier.parent = op.parent ∧ earlier.block = op.left ∧
      origin = leftOriginOf origin op.left op.leftOrigin

/-- The operations can be integrated one after the other. -/
def Integrable (state : TreeCRDT) (origin : String) (ts : Int) (ops : List HandedOut) : Prop :=
  ∀ before op after, ops = before ++ op :: after → Fits state origin ts before op

theorem integrable_nil (state : TreeCRDT) (origin : String) (ts : Int) :
    Integrable state origin ts [] := by
  intro before op after same
  simp at same

/-- One operation more can be integrated if it fits behind the others. -/
theorem integrable_concat_iff {state : TreeCRDT} {origin : String} {ts : Int}
    {ops : List HandedOut} {op : HandedOut} : Integrable state origin ts (ops ++ [op]) ↔
      Integrable state origin ts ops ∧ Fits state origin ts ops op := by
  constructor
  · intro integrable
    refine ⟨fun before op' after same => ?_, integrable ops op [] rfl⟩
    exact integrable before op' (after ++ [op]) (by simp [same])
  · rintro ⟨integrable, fits⟩ before op' after same
    rcases concat_eq_append_cons_iff.mp same with ⟨rfl, rfl, -⟩ | ⟨between, -, rfl⟩
    · exact fits
    · exact integrable before op' between rfl

/-- The operation that is integrated with a number. -/
def HandedOut.numbered (op : HandedOut) (origin : String) (ts idx : Int) : MoveOp :=
  ⟨⟨origin, ts, idx⟩, op.block, op.parent, op.left, leftOriginOf origin op.left op.leftOrigin⟩

/-- The state after the operations were integrated, and their number. -/
structure Enlarged (K : Fracdex) (state : TreeCRDT) (origin : String) (ts : Int)
    (ops : List HandedOut) (acc : TreeCRDT × Int) : Prop where
  valid : acc.1.Valid K
  count : acc.2 = ops.length
  kept : ∀ x ∈ state.log, x ∈ acc.1.log
  added : ∀ before op after, ops = before ++ op :: after →
    ∃ x ∈ acc.1.log, x.op = op.numbered origin ts before.length
  cases : ∀ x ∈ acc.1.log, x ∈ state.log ∨ ∃ before op after,
    ops = before ++ op :: after ∧ x.op = op.numbered origin ts before.length

/-- What a commit promises: nil is returned after all operations were integrated. -/
def ReportsFailures (K : Fracdex) (vt : TreeMutation) (origin : String) (ts : Int)
    (state state' : TreeCRDT) (err : Option String) : Prop :=
  err = none → ∃ ops count,
    Converges (fun fuel => vt.handedOut fuel) (.ok ops) ∧
    Takes (commitMove K origin ts) ops (state, 0) (state', count) ∧
    (ops.map HandedOut.block).Nodup ∧
    (∀ op ∈ ops, state.origins op.block origin = none) ∧
    ∀ block author, (state'.origins block author).isSome ↔
      (state.origins block author).isSome ∨ author = origin ∧ block ∈ ops.map HandedOut.block

section Integration

variable {K : Fracdex} {state state' : TreeCRDT} {origin : String} {ts : Int}
variable {ops : List HandedOut} {op : HandedOut} {acc acc' : TreeCRDT × Int}

/-- The callback takes an operation that is integrated. -/
theorem commitMove_iff : takeOp (commitMove K origin ts) acc op = .ok (acc', true) ↔
    ∃ next, acc.1.integrateOp K (op.numbered origin ts acc.2) = .ok (.ok next) ∧
      acc' = (next, acc.2 + 1) := by
  rw [takeOp, commitMove]
  change (acc.1.integrateOp K (op.numbered origin ts acc.2) >>= _) = _ ↔ _
  cases acc.1.integrateOp K (op.numbered origin ts acc.2) with
  | error abort => simp
  | ok result =>
      cases result with
      | error err => simp
      | ok next => simp [eq_comm]

theorem leftOriginOf_empty {leftOrigin : String} :
    leftOriginOf origin "" leftOrigin = leftOrigin := by
  simp [leftOriginOf]

/-- Before anything is taken, the state is the old one. -/
theorem enlarged_start (valid : state.Valid K) : Enlarged K state origin ts [] (state, 0) where
  valid := valid
  count := rfl
  kept := fun _ member => member
  added := fun before op after same => by simp at same
  cases := fun _ member => .inl member

/-- What is acceptable next is what fits. -/
theorem Enlarged.accepts_iff (valid : state.Valid K) (enlarged : Enlarged K state origin ts ops acc) :
    Accepts acc.1 (op.numbered origin ts acc.2) ↔ Fits state origin ts ops op := by
  constructor
  · intro accepts
    constructor
    · intro x member
      rw [← enlarged.count]
      exact accepts.fresh x (enlarged.kept x member)
    · rw [Option.eq_none_iff_forall_ne_some]
      intro x found
      rcases valid.origins_eq.mp found with ⟨member, sameBlock, sameOrigin⟩
      exact accepts.single x (enlarged.kept x member) ⟨sameBlock, sameOrigin⟩
    · intro earlier member same
      rcases List.append_of_mem member with ⟨before, after, split⟩
      rcases enlarged.added before earlier after split with ⟨x, inLog, op_eq⟩
      apply accepts.single x inLog
      exact ⟨(congrArg MoveOp.block op_eq).trans same, congrArg (OpID.origin ∘ MoveOp.opID) op_eq⟩
    · exact accepts.left_ne_trash
    · exact accepts.left_named
    · rcases accepts.anchored with isHead | ⟨x, isSibling, refers⟩
      · rcases (siblingInsertion_isHead _).mp isHead with ⟨noLeft, noOrigin⟩
        change op.left = "" at noLeft
        change leftOriginOf origin op.left op.leftOrigin = "" at noOrigin
        rw [noLeft, leftOriginOf_empty] at noOrigin
        exact .inl ⟨noLeft, noOrigin⟩
      · have named := (siblingInsertion_refersTo _ _).mp refers
        have inLog := enlarged.valid.mem_tree.mp (mem_siblings.mp isSibling).1
        rcases enlarged.cases x inLog with old | ⟨before, earlier, after, split, op_eq⟩
        · exact .inr (.inl ⟨x, old, named⟩)
        · rw [op_eq] at named
          exact .inr (.inr ⟨earlier, by simp [split], named⟩)
  · intro fits
    constructor
    · intro x member same
      rcases enlarged.cases x member with old | ⟨before, earlier, after, split, op_eq⟩
      · rw [enlarged.count] at same
        exact fits.numbered x old same
      · have sameID := (congrArg MoveOp.opID op_eq).symm.trans same
        have sameIdx : (before.length : Int) = acc.2 := congrArg OpID.idx sameID
        rw [enlarged.count, split] at sameIdx
        simp at sameIdx
        omega
    · rintro x member ⟨sameBlock, sameOrigin⟩
      rcases enlarged.cases x member with old | ⟨before, earlier, after, split, op_eq⟩
      · have found := valid.origins_eq.mpr ⟨old, sameBlock, sameOrigin⟩
        change state.origins op.block origin = some x at found
        rw [fits.fresh] at found
        cases found
      · apply fits.distinct earlier (by simp [split])
        exact (congrArg MoveOp.block op_eq).symm.trans sameBlock
    · exact fits.left_ne_trash
    · exact fits.left_named
    · rcases fits.anchored with ⟨noLeft, noOrigin⟩ | ⟨x, old, named⟩ | ⟨earlier, member, named⟩
      · apply Or.inl
        apply (siblingInsertion_isHead _).mpr
        refine ⟨noLeft, ?_⟩
        change leftOriginOf origin op.left op.leftOrigin = ""
        rw [noLeft, leftOriginOf_empty, noOrigin]
      · refine .inr ⟨x, mem_siblings.mpr ⟨?_, named.1⟩, (siblingInsertion_refersTo _ _).mpr named⟩
        exact enlarged.valid.mem_tree.mpr (enlarged.kept x old)
      · rcases List.append_of_mem member with ⟨before, after, split⟩
        rcases enlarged.added before earlier after split with ⟨x, inLog, op_eq⟩
        have under : x.parent = op.parent := (congrArg MoveOp.parent op_eq).trans named.1
        refine .inr ⟨x, mem_siblings.mpr ⟨enlarged.valid.mem_tree.mpr inLog, under⟩, ?_⟩
        rw [siblingInsertion_refersTo, op_eq]
        exact named

/-- Integrating one more operation. -/
theorem Enlarged.step (enlarged : Enlarged K state origin ts ops acc)
    (taken : takeOp (commitMove K origin ts) acc op = .ok (acc', true)) :
    Enlarged K state origin ts (ops ++ [op]) acc' := by
  rcases commitMove_iff.mp taken with ⟨next, success, rfl⟩
  have accepts := accepts_of_integrate_eq_ok enlarged.valid success
  rcases integrated_of_integrate_eq_ok enlarged.valid success with ⟨x, integrated⟩
  have number : op.numbered origin ts acc.2 = op.numbered origin ts ops.length := by
    rw [enlarged.count]
  constructor
  · exact integrated.valid
  · simp [enlarged.count]
  · exact fun y member => (integrated.mem_log accepts).mpr (.inr (enlarged.kept y member))
  · intro before op' after same
    rcases concat_eq_append_cons_iff.mp same with ⟨rfl, rfl, -⟩ | ⟨between, -, split⟩
    · exact ⟨x, (integrated.mem_log accepts).mpr (.inl rfl), integrated.op_eq.trans number⟩
    · rcases enlarged.added before op' between split with ⟨y, inLog, op_eq⟩
      exact ⟨y, (integrated.mem_log accepts).mpr (.inr inLog), op_eq⟩
  · intro y member
    rcases (integrated.mem_log accepts).mp member with rfl | inLog
    · exact .inr ⟨ops, op, [], rfl, integrated.op_eq.trans number⟩
    · rcases enlarged.cases y inLog with old | ⟨before, op', after, split, op_eq⟩
      · exact .inl old
      · exact .inr ⟨before, op', after ++ [op], by simp [split], op_eq⟩

/-- What was taken has enlarged the state. -/
theorem enlarged_of_takes (valid : state.Valid K)
    (takes : Takes (commitMove K origin ts) ops (state, 0) acc) :
    Enlarged K state origin ts ops acc := by
  induction ops using List.reverseRecOn generalizing acc with
  | nil =>
      cases takes
      exact enlarged_start valid
  | append_singleton ops op induction =>
      rcases takes_concat_iff.mp takes with ⟨next, before, taken⟩
      exact (induction before).step taken

/-- The callback takes all operations when they can be integrated. -/
theorem takes_iff_integrable (valid : state.Valid K) :
    (∃ acc, Takes (commitMove K origin ts) ops (state, 0) acc) ↔
      Integrable state origin ts ops := by
  induction ops using List.reverseRecOn with
  | nil => exact ⟨fun _ => integrable_nil state origin ts, fun _ => ⟨_, .nil⟩⟩
  | append_singleton ops op induction =>
      rw [integrable_concat_iff, ← induction]
      constructor
      · rintro ⟨acc, takes⟩
        rcases takes_concat_iff.mp takes with ⟨next, before, taken⟩
        have enlarged := enlarged_of_takes valid before
        rcases commitMove_iff.mp taken with ⟨_, success, -⟩
        exact ⟨⟨next, before⟩, (enlarged.accepts_iff valid).mp
          (accepts_of_integrate_eq_ok enlarged.valid success)⟩
      · rintro ⟨⟨next, before⟩, fits⟩
        have enlarged := enlarged_of_takes valid before
        rcases integrate_spec enlarged.valid ((enlarged.accepts_iff valid).mpr fits) with
          ⟨_, state', success, -⟩
        exact ⟨_, takes_concat_iff.mpr ⟨next, before, commitMove_iff.mpr ⟨state', success, rfl⟩⟩⟩

/-- The blocks of the operations and their origins are recorded. -/
theorem Enlarged.origins_iff (valid : state.Valid K)
    (enlarged : Enlarged K state origin ts ops acc) (block author : String) :
    (acc.1.origins block author).isSome ↔
      (state.origins block author).isSome ∨ author = origin ∧ block ∈ ops.map HandedOut.block := by
  constructor
  · intro found
    rcases Option.isSome_iff_exists.mp found with ⟨x, isX⟩
    rcases enlarged.valid.origins_eq.mp isX with ⟨inLog, rfl, rfl⟩
    rcases enlarged.cases x inLog with old | ⟨before, op, after, split, op_eq⟩
    · exact .inl (Option.isSome_of_eq_some (valid.origins_eq.mpr ⟨old, rfl, rfl⟩))
    · refine .inr ⟨congrArg (OpID.origin ∘ MoveOp.opID) op_eq, ?_⟩
      exact List.mem_map.mpr ⟨op, by simp [split], (congrArg MoveOp.block op_eq).symm⟩
  · rintro (found | ⟨rfl, member⟩)
    · rcases Option.isSome_iff_exists.mp found with ⟨x, isX⟩
      rcases valid.origins_eq.mp isX with ⟨old, named⟩
      exact Option.isSome_of_eq_some (enlarged.valid.origins_eq.mpr ⟨enlarged.kept x old, named⟩)
    · rcases List.mem_map.mp member with ⟨op, isOp, rfl⟩
      rcases List.append_of_mem isOp with ⟨before, after, split⟩
      rcases enlarged.added before op after split with ⟨x, inLog, op_eq⟩
      apply Option.isSome_of_eq_some
      exact enlarged.valid.origins_eq.mpr
        ⟨inLog, congrArg MoveOp.block op_eq, congrArg (OpID.origin ∘ MoveOp.opID) op_eq⟩

/-- Operations that can be integrated name no block twice. -/
theorem Integrable.nodup (integrable : Integrable state origin ts ops) :
    (ops.map HandedOut.block).Nodup := by
  induction ops using List.reverseRecOn with
  | nil => exact .nil
  | append_singleton ops op induction =>
      rcases integrable_concat_iff.mp integrable with ⟨before, fits⟩
      rw [List.map_append, List.map_singleton, ← List.concat_eq_append]
      refine (induction before).concat fun member => ?_
      rcases List.mem_map.mp member with ⟨earlier, isEarlier, same⟩
      exact fits.distinct earlier isEarlier same

/--
A commit reports what happened exactly when the operations that it is to integrate come
to an end and can be integrated.
-/
theorem commit_reports_iff {vt : TreeMutation} {err : Option String}
    (received : Received K (fun _ => True) state)
    (returned : Converges (fun fuel => vt.commit K fuel origin ts state) (.ok (state', err))) :
    ReportsFailures K vt origin ts state state' err ↔
      ∃ ops, Converges (fun fuel => vt.handedOut fuel) (.ok ops) ∧
        Integrable state origin ts ops := by
  have valid := received.valid.1
  constructor
  · intro reports
    have silent : err = none := by
      rcases returned with ⟨fuel, enough⟩
      rcases bind_eq_ok.mp (enough fuel le_rfl) with ⟨acc, -, last⟩
      cases last
      exact rfl
    rcases reports silent with ⟨ops, count, handedOut, takes, -⟩
    exact ⟨ops, handedOut, (takes_iff_integrable valid).mp ⟨_, takes⟩⟩
  · rintro ⟨ops, ⟨enough, handedOut⟩, integrable⟩ -
    rcases (takes_iff_integrable valid).mpr integrable with ⟨acc, takes⟩
    have committed : Converges (fun fuel => vt.commit K fuel origin ts state)
        (.ok (acc.1, none)) := by
      refine ⟨enough, fun fuel more => ?_⟩
      simp only [TreeMutation.commit, forEachMove_of_takes (handedOut fuel more) takes, ok_bind,
        pure_eq_ok]
    cases returned.unique committed
    have enlarged := enlarged_of_takes valid takes
    refine ⟨ops, acc.2, ⟨enough, handedOut⟩, takes, integrable.nodup, fun op member => ?_,
      enlarged.origins_iff valid⟩
    rcases List.append_of_mem member with ⟨before, after, split⟩
    exact (integrable before op after split).fresh

end Integration

/-! ## Sample commits -/

/-- The second block moves before the first one. -/
def swapped : List Call := [⟨"b2", "", ""⟩]

theorem commit_reports_iff_twoBlocks : ∃ vt state',
    Converges (fun fuel => edit sampleFracdex fuel twoBlocks swapped) (.ok vt) ∧
      (ReportsFailures sampleFracdex vt "bob" 2 twoBlocks state' none ↔
        ∃ ops, Converges (fun fuel => vt.handedOut fuel) (.ok ops) ∧
          Integrable twoBlocks "bob" 2 ops) :=
  ⟨_, _, .of_add 8 fun _ => rfl,
    commit_reports_iff twoBlocks_received (.of_add 8 fun _ => rfl)⟩

/-- A move of a block that the origin has moved before is dropped, and nil returned. -/
theorem failed_commit_returns_nil : ∃ vt,
    Converges (fun fuel => edit sampleFracdex fuel twoBlocks swapped) (.ok vt) ∧
      Converges (fun fuel => vt.handedOut fuel) (.ok [⟨"b2", "", "", ""⟩]) ∧
      Converges (fun fuel => vt.commit sampleFracdex fuel "alice" 2 twoBlocks)
        (.ok (twoBlocks, none)) ∧
      ¬ ReportsFailures sampleFracdex vt "alice" 2 twoBlocks twoBlocks none := by
  have handed : ∃ vt, (∀ fuel, edit sampleFracdex (fuel + 8) twoBlocks swapped = .ok vt) ∧
      (∀ fuel, vt.handedOut (fuel + 8) = .ok [⟨"b2", "", "", ""⟩]) ∧
      ∀ fuel, vt.commit sampleFracdex (fuel + 8) "alice" 2 twoBlocks = .ok (twoBlocks, none) :=
    ⟨_, fun _ => rfl, fun _ => rfl, fun _ => rfl⟩
  rcases handed with ⟨vt, edited, handed, committed⟩
  have handed' : Converges (fun fuel => vt.handedOut fuel) _ := .of_add 8 handed
  refine ⟨vt, .of_add 8 edited, handed', .of_add 8 committed, fun reports => ?_⟩
  rcases reports rfl with ⟨ops, count, all, -, -, fresh, -⟩
  cases handed'.unique all
  exact absurd (fresh _ (List.mem_singleton_self _)) (by decide)

end Mintter.Docmodel
