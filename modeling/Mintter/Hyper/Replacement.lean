import Mintter.Hyper.HeadDeps

/-!
# Replacing the head of an entity

`ReplaceChange` takes the head of an entity back and applies a new change in its place.
It forgets what the head wrote and that it was applied.  The head stays in the list of
changes, and it is gone also when the new change cannot be applied.
-/

namespace Mintter.Crdt2.Map

open Mintter.Foundation

/-- Delete a node by its key. -/
def forgetNode (m : Map) (node : MapNode) : Outcome Map :=
  if m.state.any fun other => (m.read other).key = (m.read node).key then
    pure { m with
      state := KeyedList.delete (fun other => (m.read other).key) (m.read node).key m.state }
  else panicWith "BUG: failed to delete map node"

/-- Delete what was written at a time by an origin. -/
def forgetState (m : Map) (time : Int) (origin : String) : Outcome Map :=
  (m.state.filter fun node => node.time = time ∧ node.origin = origin).foldlM forgetNode m

end Mintter.Crdt2.Map

namespace Mintter.Hyper

open Mintter.Foundation
open Mintter.Crdt2

/-- Sort CIDs, here by their texts. -/
def sortCIDs (cids : List String) : List String := cids.mergeSort fun c c' => c ≤ c'

/-- What a new change is made of. -/
structure NewChange where
  ts : Int
  signer : KeyPair
  delegation : String
  patch : Object
  action : String

namespace Entity

/--
The entity without its head, of which `prev` is the change at index `idx`.  The
dependencies of the head are sorted in place when they become those of the new change.
-/
def takeBack (e : Entity) (old : String) (idx : Nat) (state : Map) : Entity :=
  { e with
    state := state
    applied := Function.update e.applied old none
    heads := e.heads.filter (· ≠ old)
    changes := e.changes.modify idx fun change =>
      (change.1, { change.2 with deps := sortCIDs change.2.deps }) }

/-- Replace the only head of an entity by a new change. -/
def replaceChange (encodeBlob : Change → Except String String) (e : Entity) (old : String)
    (new : NewChange) (wall : Int) : Outcome (Entity × Except String (String × Change)) :=
  if e.heads.length ≠ 1 then
    pure (e, .error "must only have one head change to replace")
  else if old ∉ e.heads then
    pure (e, .error "change to replace must be the current head")
  else
    match e.applied old with
    | none => pure (e, .error "change to be replaced must be applied")
    | some idx =>
        match e.changes[idx]? with
        | none => panicWith "index out of range"
        | some (_, prev) => do
            let state ← e.state.forgetState prev.hlcTime (originFromCID old)
            let e := e.takeBack old idx state
            match newChange encodeBlob e.id (sortCIDs prev.deps) new.ts new.signer
              new.delegation new.patch new.action with
            | .error err => pure (e, .error err)
            | .ok (c, ch) => do
                let (e, result) ← e.applyChange c ch wall
                pure (e, result.map fun _ => (c, ch))

/-- A call of an entity that is edited. -/
inductive EditCall where
  | grow (call : EntityCall)
  | replaceChange (old : String) (new : NewChange) (wall : Int)

/-- The entity after a call that returns. -/
def editCall (encodeBlob : Change → Except String String) (e : Entity) :
    EditCall → Option Entity
  | .grow input => e.call encodeBlob input
  | .replaceChange old new wall =>
      (e.replaceChange encodeBlob old new wall).toOption.map Prod.fst

/-- The changes but the replaced one, and then the new one, make up the entity. -/
def Rewritten (e : Entity) (old c : String) (ch : Change) (fresh : Entity) : Prop :=
  ∃ offers results, (newEntity e.id).offerAll offers = .ok (fresh, results) ∧
    (∀ result ∈ results, result = true) ∧
    (offers.map fun offer => (offer.c, offer.ch)) =
      (e.changes.filter fun change => change.1 ≠ old) ++ [(c, ch)]

/-- The entities read the same. -/
structure ReadsAs (e e' : Entity) : Prop where
  get : ∀ path, e.state.get path = e'.state.get path
  changes : e.changes = e'.changes
  heads : e.heads = e'.heads
  deps : ∀ order outcome, Converges (fun fuel => e.headDeps fuel order) outcome ↔
    Converges (fun fuel => e'.headDeps fuel order) outcome

/-- What replacing promises: a rewritten history, or an unchanged entity. -/
def ReplacesCleanly (e : Entity) (old : String) (e' : Entity) :
    Except String (String × Change) → Prop
  | .ok (c, ch) => ∃ fresh, Rewritten e old c ch fresh ∧ ReadsAs e' fresh
  | .error _ => e' = e

section Replace

variable {encodeBlob : Change → Except String String} {e e' : Entity} {old c : String}
variable {ch : Change} {new : NewChange} {wall : Int}
variable {result : Except String (String × Change)}

/-- The heads are among the changes. -/
def HeadsListed (e : Entity) : Prop :=
  ∀ head ∈ e.heads, ∃ i ch, e.applied head = some i ∧ e.changes[i]? = some (head, ch)

theorem HeadsListed.applied (listed : HeadsListed e)
    (success : e.applyChange c ch wall = .ok (e', .ok ())) : HeadsListed e' := by
  have applied := applied_of_applyChange_eq_ok success
  intro head isHead
  rw [applied.applied_eq, applied.changes_eq, Function.update_apply]
  split_ifs with same
  · exact ⟨_, ch, rfl, by rw [same]; simp⟩
  · rcases listed head ((applied.heads_sub head isHead).resolve_left same) with
      ⟨i, ch', isIndex, found⟩
    exact ⟨i, ch', isIndex, getElem?_concat_iff.mpr (.inl found)⟩

theorem HeadsListed.withVector (listed : HeadsListed e) (vector : Principal → Int) :
    HeadsListed (e.withVector vector) := listed

/-- The other heads stay among the changes when one is taken back. -/
theorem HeadsListed.takeBack (listed : HeadsListed e) (idx : Nat) (state : Map) :
    HeadsListed (e.takeBack old idx state) := by
  intro head isHead
  rcases List.mem_filter.mp isHead with ⟨wasHead, differs⟩
  rcases listed head wasHead with ⟨i, ch, isIndex, found⟩
  have same : Function.update e.applied old none head = some i := by
    rw [Function.update_of_ne (by simpa using differs), isIndex]
  by_cases replaced : idx = i
  · exact ⟨i, { ch with deps := sortCIDs ch.deps }, same, by
      simp [Entity.takeBack, replaced, found]⟩
  · exact ⟨i, ch, same, by simp [Entity.takeBack, replaced, found]⟩

/-- A change that is applied, or an error, in the place of the head. -/
theorem replaceChange_cases (single : e.heads = [old]) (listed : HeadsListed e)
    (returned : e.replaceChange encodeBlob old new wall = .ok (e', result)) :
    ∃ idx state, (∃ ch, e.changes[idx]? = some (old, ch)) ∧
      ((∃ err vector, result = .error err ∧
          e' = (e.takeBack old idx state).withVector vector) ∨
        ∃ c ch, result = .ok (c, ch) ∧
          (e.takeBack old idx state).applyChange c ch wall = .ok (e', .ok ())) := by
  rcases listed old (by simp [single]) with ⟨idx, prev, isIndex, found⟩
  rw [replaceChange, single, if_neg (by simp), if_neg (by simp), isIndex] at returned
  simp only [found] at returned
  rcases bind_eq_ok.mp returned with ⟨state, -, replaced⟩
  refine ⟨idx, state, ⟨prev, found⟩, ?_⟩
  split at replaced
  · next err _ =>
      cases replaced
      exact .inl ⟨err, _, rfl, rfl⟩
  · next c ch _ =>
      rcases bind_eq_ok.mp replaced with ⟨⟨next, outcome⟩, applied, last⟩
      cases last
      cases outcome with
      | ok => exact .inr ⟨c, ch, rfl, applied⟩
      | error err =>
          rcases rejected_cases applied with ⟨rfl, -⟩ | ⟨-, -, -, -, rfl⟩
          · exact .inl ⟨err, _, rfl, rfl⟩
          · exact .inl ⟨err, _, rfl, rfl⟩

/-- Nothing is done unless the replaced change is the only head. -/
theorem unchanged_or_single
    (returned : e.replaceChange encodeBlob old new wall = .ok (e', result)) :
    e' = e ∨ e.heads = [old] := by
  rw [replaceChange] at returned
  by_cases several : e.heads.length ≠ 1
  · rw [if_pos several] at returned
    cases returned
    exact .inl rfl
  · by_cases other : old ∉ e.heads
    · rw [if_neg several, if_pos other] at returned
      cases returned
      exact .inl rfl
    · rcases List.length_eq_one_iff.mp (not_not.mp several) with ⟨head, single⟩
      rw [not_not, single, List.mem_singleton] at other
      exact .inr (other ▸ single)

/-- Applying only what succeeds lists all the changes. -/
theorem changes_of_offerAll {offers : List Offer} {results : List Bool}
    (offered : e.offerAll offers = .ok (e', results))
    (all : ∀ result ∈ results, result = true) :
    e'.changes = e.changes ++ offers.map fun offer => (offer.c, offer.ch) := by
  induction offers generalizing e results with
  | nil =>
      cases offered
      simp
  | cons offer offers induction =>
      rw [offerAll] at offered
      rcases bind_eq_ok.mp offered with ⟨⟨next, first⟩, applied, offered⟩
      rcases bind_eq_ok.mp offered with ⟨⟨last, rest⟩, offeredRest, returned⟩
      cases returned
      rw [List.forall_mem_cons] at all
      cases first with
      | error err => cases all.1
      | ok =>
          rw [induction offeredRest all.2, (applied_of_applyChange_eq_ok applied).changes_eq,
            List.map_cons, List.append_assoc]
          exact rfl

/-- The listed heads stay listed in every run. -/
theorem headsListed_of_reaches {id : String}
    (run : Reaches (editCall encodeBlob) (fun _ _ => True) (newEntity id) e) :
    HeadsListed e := by
  refine run.invariant (fun before input after listed _ called => ?_) nofun
  cases input with
  | grow input =>
      rcases call_cases called with ⟨vector, rfl⟩ | ⟨c, ch, wall, success⟩
      · exact listed.withVector vector
      · exact listed.applied success
  | replaceChange old new wall =>
      rcases Option.map_eq_some_iff.mp called with ⟨⟨_, result⟩, returned, rfl⟩
      rw [toOption_eq_some_iff] at returned
      rcases unchanged_or_single returned with rfl | single
      · exact listed
      · rcases replaceChange_cases single listed returned with
          ⟨idx, state, -, ⟨err, vector, -, rfl⟩ | ⟨c, ch, -, applied⟩⟩
        · exact (listed.takeBack idx state).withVector vector
        · exact (listed.takeBack idx state).applied applied

/--
Replacing never leaves what it promises: after a success the old change is still listed,
and after an error the entity has no head.
-/
theorem replaceChange_not_clean {id : String}
    (run : Reaches (editCall encodeBlob) (fun _ _ => True) (newEntity id) e)
    (single : e.heads = [old])
    (returned : e.replaceChange encodeBlob old new wall = .ok (e', result)) :
    ¬ ReplacesCleanly e old e' result := by
  have listed := headsListed_of_reaches run
  rcases replaceChange_cases single listed returned with
    ⟨idx, state, ⟨prev, found⟩, ⟨err, vector, rfl, rfl⟩ | ⟨c, ch, rfl, applied⟩⟩
  · intro unchanged
    have heads := congrArg Entity.heads unchanged
    rw [single] at heads
    change e.heads.filter (· ≠ old) = [old] at heads
    rw [single] at heads
    simp at heads
  · rintro ⟨fresh, ⟨offers, results, offered, all, changes_eq⟩, same⟩
    have count := congrArg List.length same.changes
    rw [(applied_of_applyChange_eq_ok applied).changes_eq, changes_of_offerAll offered all,
      changes_eq] at count
    have fewer : (e.changes.filter fun change => change.1 ≠ old).length < e.changes.length :=
      List.length_filter_lt_length_iff_exists.mpr
        ⟨(old, prev), List.mem_of_getElem? found, by simp⟩
    simp only [takeBack, newEntity, newEntityWithClock, List.length_append, List.length_modify,
      List.nil_append, List.length_singleton] at count
    omega

end Replace

/-! ## A sample -/

/-- A key pair of the sample, which signs everything. -/
def sampleSigner : KeyPair := ⟨[1], fun _ => .ok "sig"⟩

/-- The draft "b" after the change "a". -/
def draftedEdits : List EditCall :=
  [.grow (offered "a" [] 1), .grow (offered "b" ["a"] 2)]

theorem draftedEdits_performed :
    (performAll (editCall fun _ => .ok "c") (newEntity "hm://d/doc") draftedEdits).isSome := by
  decide +kernel

/-- An entity with a change that is a draft. -/
def draftedEntity : Entity :=
  (performAll (editCall fun _ => .ok "c") (newEntity "hm://d/doc") draftedEdits).get
    draftedEdits_performed

/-- A change at the given time that sets the title. -/
def titleChange (ts : Int) : NewChange :=
  ⟨ts, sampleSigner, "bafydelegation", [("title", .string "Draft")], "Update"⟩

/-- The replaced draft is listed beside the new one, as one of three changes. -/
theorem replaced_draft_is_listed :
    draftedEntity.heads = ["b"] ∧
      ∃ e' c ch, draftedEntity.replaceChange (fun _ => .ok "c") "b" (titleChange 3) 3 =
          .ok (e', .ok (c, ch)) ∧
        e'.changes.map Prod.fst = ["a", "b", "c"] ∧
        ¬ ReplacesCleanly draftedEntity "b" e' (.ok (c, ch)) := by
  have listed : (draftedEntity.replaceChange (fun _ => .ok "c") "b" (titleChange 3) 3).map
      (fun done => (done.1.changes.map Prod.fst, done.2.isOk)) =
        .ok (["a", "b", "c"], true) := by
    decide +kernel
  refine ⟨by decide +kernel, ?_⟩
  cases returned : draftedEntity.replaceChange (fun _ => .ok "c") "b" (titleChange 3) 3 with
  | error abort =>
      rw [returned] at listed
      cases listed
  | ok done =>
      rw [returned, Except.map, Except.ok.injEq, Prod.mk.injEq] at listed
      rcases done with ⟨e', err | ⟨c, ch⟩⟩
      · cases listed.2
      · refine ⟨e', c, ch, rfl, listed.1, ?_⟩
        rintro ⟨fresh, ⟨offers, results, offered, all, changes_eq⟩, same⟩
        have count := congrArg (fun changes => (changes.map Prod.fst).length) same.changes
        simp only [listed.1] at count
        rw [changes_of_offerAll offered all, changes_eq] at count
        have others : (draftedEntity.changes.filter fun change => change.1 ≠ "b").length = 1 := by
          decide +kernel
        simp only [newEntity, newEntityWithClock, List.nil_append, List.length_map,
          List.length_append, others] at count
        cases count

theorem replaceChange_not_clean_drafted :
    ∃ e' result, draftedEntity.replaceChange (fun _ => .ok "c") "b" (titleChange 1) 3 =
      .ok (e', result) ∧ ¬ ReplacesCleanly draftedEntity "b" e' result := by
  have returned : ∃ e' result,
      draftedEntity.replaceChange (fun _ => .ok "c") "b" (titleChange 1) 3 =
        .ok (e', result) := ⟨_, _, rfl⟩
  rcases returned with ⟨e', result, returned⟩
  exact ⟨e', result, returned, replaceChange_not_clean
    (reaches_get draftedEdits draftedEdits_performed) (by decide +kernel) returned⟩

end Entity

end Mintter.Hyper
