import Mintter.Foundation.Interleaving
import Mintter.Hyper.Cursors
import Mintter.Hyper.Handshakes

/-!
# Sites

A site serves one group.  It is initialised by a caller who knows its setup secret,
and publishes the blobs that members of the group bring.  The calls of all callers
are interleaved transaction by transaction, with blobs that arrive in between.
-/

namespace Mintter.Hyper

open Mintter.Foundation
open Mintter.Crdt2

variable {Data : Type}

/-! ## Keys and values -/

/-- Under what the group of a site is stored. -/
def keySiteGroup : String := "site_group_id"

/-- Under what the owner of a site is stored. -/
def keySiteOwner : String := "site_owner_id"

/-- The rows of the table, whose key is unique. -/
abbrev KV := List (String × String)

/-- The value of a key; a missing one is empty. -/
def getKV (kv : KV) (key : String) : String :=
  ((kv.find? (·.1 == key)).map (·.2)).getD ""

/-- Set a value once, or replace it. -/
def setKV (kv : KV) (key value : String) (replace : Bool) : Attempt KV :=
  if replace then pure (kv.filter (·.1 ≠ key) ++ [(key, value)])
  else if kv.any (·.1 == key) then throw "UNIQUE constraint failed: kv.key"
  else pure (kv ++ [(key, value)])

/-! ## Calls of a site -/

/-- The tables of a site. -/
structure SiteDB (Data : Type) where
  store : Store Data
  kv : KV

/-- A request to set a site up for a group. -/
structure InitializeServerRequest where
  groupID : String
  secret : String
  /-- The device of the caller. -/
  pid : String

/-- What a call still has to do, from its next transaction on. -/
inductive SiteCall where
  | readGroupID (req : InitializeServerRequest)
  | findOwner (req : InitializeServerRequest)
  | saveSetup (req : InitializeServerRequest) (owner : Principal)
  | identify (pid : String) (blobs : List String)
  | checkRole (pid : String) (account : Principal) (blobs : List String)
  | lookUp (pid : String) (account : Principal) (blobs want : List String)
  | pull (pid : String) (account : Principal) (want : List String)
  | finished
  | failed (err : String)

/-- A call that a site receives, when its node is ready or not yet. -/
inductive SiteRequest where
  | initializeServer (nodeReady : Bool) (req : InitializeServerRequest)
  | publishBlobs (nodeReady : Bool) (pid : String) (blobs : List String)

/-- The block that is fetched, and how queries and maps are ordered. -/
structure SiteInput (Data : Type) where
  queryOrder : QueryOrder
  order : FieldOrder
  block : Option Data

/-- A site: its node, the URL with its secret, and whether everybody may push. -/
structure Website (F : Formats Data) where
  node : Node F
  setupURL : String
  allowPush : Bool

section Site

variable (F : Formats Data) (W : Website F)

/-- The first stage of a request. -/
def enterCall : SiteRequest → SiteCall
  | .initializeServer nodeReady req =>
      if nodeReady = false then .failed "P2P node is not ready yet"
      else if req.groupID = "" then .failed "group ID is required"
      else .readGroupID req
  | .publishBlobs nodeReady pid blobs =>
      if nodeReady = false then .failed "P2P node is not ready yet"
      else .identify pid blobs

/-- The role of the caller: that of the owner, or the one in the group. -/
def siteRole (db : SiteDB Data) (account : Principal) : Attempt Int := do
  let groupID := getKV db.kv keySiteGroup
  Attempt.check (groupID = "")
    "error getting groupID on the site, is the site initialized?"
  let groupOwner := getKV db.kv keySiteOwner
  Attempt.check (groupOwner = "")
    "error getting group owner on the site, is the site initialized?"
  if groupOwner = F.principalString account then pure roleOwner
  else do
    let r ← db.store.getGroupRole groupID (F.accountIRI account)
    pure (toRole r)

/-- The next transaction of a call: the tables, and what is left to do. -/
def transact (input : SiteInput Data) (db : SiteDB Data) :
    SiteCall → Attempt (SiteDB Data × SiteCall)
  | .readGroupID req => do
      Attempt.check (getKV db.kv keySiteGroup ≠ "") "site is already initialized"
      Attempt.check (W.setupURL ≠ req.secret) "provided setup secret is not valid"
      pure (db, .findOwner req)
  | .findOwner req => do
      let owner ← (accountForDevice F W.node db.store input.queryOrder req.pid).wrapError
        (s!"couldn't get account ID from device [{req.pid}]: {·}")
      pure (db, .saveSetup req owner)
  | .saveSetup req owner => do
      let kv ← (setKV db.kv keySiteGroup req.groupID false).wrapError
        fun _ => "failed to save group ID"
      let kv ← (setKV kv keySiteOwner (F.principalString owner) false).wrapError
        fun _ => "failed to save owner"
      pure (⟨db.store.ensureResource req.groupID, kv⟩, .finished)
  | .identify pid blobs => do
      let account ← (accountForDevice F W.node db.store input.queryOrder pid).wrapError
        (s!"couldn't get account ID from device [{pid}]: {·}")
      pure (db, if W.allowPush then .lookUp pid account blobs []
        else .checkRole pid account blobs)
  | .checkRole pid account blobs => do
      let role ← siteRole F db account
      Attempt.check (role ≠ roleOwner ∧ role ≠ roleEditor)
        s!"Caller {F.principalString account} does not have enough permissions to publish to this site."
      pure (db, .lookUp pid account blobs [])
  | .lookUp pid account [] want => pure (db, .pull pid account want)
  | .lookUp pid account (x :: blobs) want => do
      let c ← (Attempt.ofExcept (F.parseCid x)).wrapError
        (s!"failed to parse CID {x}: {·}")
      pure (db, .lookUp pid account blobs
        (if db.store.hasBlobData F c then want else want ++ [c]))
  | .pull _ _ [] => pure (db, .finished)
  | .pull pid account (c :: want) =>
      match input.block with
      | none => throw s!"could not get block {c}"
      | some data => do
          let store ← (put F input.order db.store c data).wrapError
            (s!"could not store block {c}: {·}")
          pure ({ db with store }, .pull pid account want)
  | .finished => pure (db, .finished)
  | .failed err => pure (db, .failed err)

/-- A transaction that fails or panics ends the call and changes nothing. -/
def performTransaction (input : SiteInput Data) (db : SiteDB Data) (siteCall : SiteCall) :
    SiteDB Data × SiteCall :=
  match (transact F W input db siteCall).run with
  | .ok (.ok (db', next)) => (db', next)
  | .ok (.error err) => (db, .failed err)
  | .error _ => (db, .failed "panic")

/-- The calls of a site; meanwhile the blobs change. -/
def site :
    Program (SiteDB Data) SiteCall SiteRequest (SiteInput Data) (StoreCall Data) where
  enter := enterCall
  perform := performTransaction F W
  disturb storeCall db := (call F db.store storeCall).map fun store => { db with store }

end Site

/-! ## What a site promises -/

section Promises

variable (F : Formats Data) (W : Website F)

/-- There is a row for the key. -/
def hasKey (kv : KV) (key : String) : Bool := kv.any (·.1 == key)

/-- The account owns the site, or is an owner or an editor in its group. -/
def MayPublish (db : SiteDB Data) (account : Principal) : Prop :=
  getKV db.kv keySiteGroup ≠ "" ∧ getKV db.kv keySiteOwner ≠ "" ∧
    (getKV db.kv keySiteOwner = F.principalString account ∨
      ∃ r, (db.store.getGroupRole (getKV db.kv keySiteGroup)
          (F.accountIRI account)).Returns r ∧
        (toRole r = roleOwner ∨ toRole r = roleEditor))

/-- The data of a site, and the requests in progress. -/
abbrev SiteState (Data : Type) := System (SiteDB Data) SiteCall

/-- The device is one of the account. -/
def Resolves (s : SiteState Data) (pid : String) (account : Principal) : Prop :=
  ∃ queryOrder, (accountForDevice F W.node s.shared.store queryOrder pid).Returns account

/-- What is known of a call before its next transaction. -/
def Asserted (start s : SiteState Data) (index : Nat) : SiteCall → Prop
  | .readGroupID req => req.groupID ≠ ""
  | .findOwner req => req.groupID ≠ "" ∧ req.secret = W.setupURL
  | .saveSetup req owner => req.groupID ≠ "" ∧ req.secret = W.setupURL ∧
      (site F W).OnceIn start (fun moment =>
        moment.calls[index]? = some (.findOwner req) ∧
          Resolves F W moment req.pid owner) s
  | .checkRole pid account _ =>
      (site F W).OnceIn start (fun moment => Resolves F W moment pid account) s
  | .lookUp pid account _ _ | .pull pid account _ =>
      (site F W).OnceIn start (fun moment => Resolves F W moment pid account) s ∧
        (W.allowPush = false → (site F W).OnceIn start (fun moment =>
          (∃ blobs, moment.calls[index]? = some (.checkRole pid account blobs)) ∧
            MayPublish F moment.shared account) s)
  | _ => True

end Promises

section Stages

variable {F : Formats Data} {W : Website F} {start s t : SiteState Data}
variable {db db' : SiteDB Data} {account : Principal} {input : SiteInput Data}
variable {siteCall next : SiteCall}

theorem performTransaction_cases (F : Formats Data) (W : Website F)
    (input : SiteInput Data) (db : SiteDB Data) (siteCall : SiteCall) :
    (transact F W input db siteCall).Returns (performTransaction F W input db siteCall) ∨
      ∃ err, performTransaction F W input db siteCall = (db, .failed err) := by
  rw [performTransaction]
  split
  · next isOk => exact .inl isOk
  · next err _ => exact .inr ⟨err, rfl⟩
  · exact .inr ⟨"panic", rfl⟩

/-- The check of the role passes for those who may publish, and only for them. -/
theorem siteRole_iff :
    (∃ role, (siteRole F db account).Returns role ∧
        ¬ (role ≠ roleOwner ∧ role ≠ roleEditor)) ↔ MayPublish F db account := by
  simp only [siteRole, Attempt.returns_bind, Attempt.returns_check, MayPublish]
  constructor
  · rintro ⟨role, ⟨-, hasGroup, -, hasOwner, returns⟩, isMember⟩
    refine ⟨hasGroup, hasOwner, ?_⟩
    split at returns
    · next isOwner => exact .inl isOwner
    · rcases Attempt.returns_bind.mp returns with ⟨r, isRole, returns⟩
      rcases Attempt.returns_pure.mp returns with rfl
      exact .inr ⟨r, isRole, by tauto⟩
  · rintro ⟨hasGroup, hasOwner, mayPublish⟩
    by_cases isOwner : getKV db.kv keySiteOwner = F.principalString account
    · refine ⟨roleOwner, ⟨(), hasGroup, (), hasOwner, ?_⟩, by simp⟩
      rw [if_pos isOwner]
      exact Attempt.returns_pure.mpr rfl
    · rcases mayPublish with same | ⟨r, isRole, isMember⟩
      · exact absurd same isOwner
      · refine ⟨toRole r, ⟨(), hasGroup, (), hasOwner, ?_⟩, by tauto⟩
        rw [if_neg isOwner]
        exact Attempt.returns_bind.mpr ⟨r, isRole, Attempt.returns_pure.mpr rfl⟩

theorem returns_setKV {kv kv' : KV} {key value : String} :
    (setKV kv key value false).Returns kv' ↔
      hasKey kv key = false ∧ kv' = kv ++ [(key, value)] := by
  rw [setKV, if_neg Bool.false_ne_true, hasKey]
  split
  · next there => simp [there]
  · next absent => simp [Bool.eq_false_iff.mpr absent, eq_comm]

/-- The setup is saved when neither key was set. -/
theorem returns_saveSetup {req : InitializeServerRequest} {owner : Principal}
    {after : SiteDB Data × SiteCall} :
    (transact F W input db (.saveSetup req owner)).Returns after ↔
      hasKey db.kv keySiteGroup = false ∧ hasKey db.kv keySiteOwner = false ∧
        after = (⟨db.store.ensureResource req.groupID, db.kv ++
          [(keySiteGroup, req.groupID), (keySiteOwner, F.principalString owner)]⟩,
          .finished) := by
  simp only [transact, Attempt.returns_bind, Attempt.returns_wrapError, returns_setKV,
    Attempt.returns_pure]
  have other : hasKey (db.kv ++ [(keySiteGroup, req.groupID)]) keySiteOwner =
      hasKey db.kv keySiteOwner := by
    rw [hasKey, List.any_append, hasKey]
    simp [keySiteGroup, keySiteOwner]
  constructor
  · rintro ⟨_, ⟨noGroup, rfl⟩, _, ⟨noOwner, rfl⟩, rfl⟩
    rw [other] at noOwner
    exact ⟨noGroup, noOwner, by rw [List.append_assoc]; rfl⟩
  · rintro ⟨noGroup, noOwner, rfl⟩
    refine ⟨_, ⟨noGroup, rfl⟩, _, ⟨other.trans noOwner, rfl⟩, ?_⟩
    rw [List.append_assoc]
    exact rfl

/-- The only transactions that change something: saving the setup and pulling a blob. -/
theorem db_of_performTransaction (F : Formats Data) (W : Website F)
    (input : SiteInput Data) (db : SiteDB Data) (siteCall : SiteCall) :
    (performTransaction F W input db siteCall).1 = db ∨
      (∃ req owner, siteCall = .saveSetup req owner ∧
        hasKey db.kv keySiteGroup = false ∧ hasKey db.kv keySiteOwner = false ∧
        (performTransaction F W input db siteCall).1 =
          ⟨db.store.ensureResource req.groupID, db.kv ++
            [(keySiteGroup, req.groupID), (keySiteOwner, F.principalString owner)]⟩) ∨
      ∃ pid account want store, siteCall = .pull pid account want ∧
        (performTransaction F W input db siteCall).1 = { db with store } := by
  rcases performTransaction_cases F W input db siteCall with returns | ⟨err, failed⟩
  · generalize performTransaction F W input db siteCall = after at returns ⊢
    cases siteCall with
    | readGroupID req =>
        simp only [transact, Attempt.returns_bind, Attempt.returns_pure] at returns
        rcases returns with ⟨-, -, -, -, rfl⟩
        exact .inl rfl
    | findOwner req =>
        simp only [transact, Attempt.returns_bind, Attempt.returns_pure] at returns
        rcases returns with ⟨-, -, rfl⟩
        exact .inl rfl
    | saveSetup req owner =>
        rcases returns_saveSetup.mp returns with ⟨noGroup, noOwner, rfl⟩
        exact .inr (.inl ⟨req, owner, rfl, noGroup, noOwner, rfl⟩)
    | identify pid blobs =>
        simp only [transact, Attempt.returns_bind, Attempt.returns_pure] at returns
        rcases returns with ⟨-, -, rfl⟩
        exact .inl rfl
    | checkRole pid account blobs =>
        simp only [transact, Attempt.returns_bind, Attempt.returns_pure] at returns
        rcases returns with ⟨-, -, -, -, rfl⟩
        exact .inl rfl
    | lookUp pid account blobs want =>
        cases blobs with
        | nil => exact .inl (congrArg Prod.fst (Attempt.returns_pure.mp returns).symm)
        | cons x blobs =>
            simp only [transact, Attempt.returns_bind, Attempt.returns_pure] at returns
            rcases returns with ⟨-, -, rfl⟩
            exact .inl rfl
    | pull pid account want =>
        cases want with
        | nil => exact .inl (congrArg Prod.fst (Attempt.returns_pure.mp returns).symm)
        | cons c want =>
            rw [transact] at returns
            split at returns
            · exact absurd returns Attempt.not_returns_throw
            · rcases Attempt.returns_bind.mp returns with ⟨store, -, returns⟩
              rcases Attempt.returns_pure.mp returns with rfl
              exact .inr (.inr ⟨pid, account, c :: want, store, rfl, rfl⟩)
    | finished => exact .inl (congrArg Prod.fst (Attempt.returns_pure.mp returns).symm)
    | failed err => exact .inl (congrArg Prod.fst (Attempt.returns_pure.mp returns).symm)
  · exact .inl (by rw [failed])

/-- What was known of a call is known of it later. -/
theorem Asserted.later {index : Nat} (asserted : Asserted F W start s index siteCall)
    (since : (site F W).Runs s t) : Asserted F W start t index siteCall := by
  cases siteCall with
  | readGroupID req => exact asserted
  | findOwner req => exact asserted
  | saveSetup req owner =>
      exact ⟨asserted.1, asserted.2.1, asserted.2.2.later since⟩
  | identify pid blobs => exact trivial
  | checkRole pid account blobs => exact Once.later asserted since
  | lookUp pid account blobs want =>
      exact ⟨asserted.1.later since, fun noPush => (asserted.2 noPush).later since⟩
  | pull pid account want =>
      exact ⟨asserted.1.later since, fun noPush => (asserted.2 noPush).later since⟩
  | finished => exact trivial
  | failed err => exact trivial

/-- Every transaction establishes what is known before the next one. -/
theorem Asserted.advance {index : Nat} (run : (site F W).Runs start s)
    (found : s.calls[index]? = some siteCall)
    (asserted : Asserted F W start s index siteCall)
    (returns : (transact F W input s.shared siteCall).Returns (db', next)) :
    Asserted F W start s index next := by
  cases siteCall with
  | readGroupID req =>
      simp only [transact, Attempt.returns_bind, Attempt.returns_pure,
        Attempt.returns_check] at returns
      rcases returns with ⟨-, -, -, isSecret, same⟩
      cases same
      exact ⟨asserted, (not_not.mp isSecret).symm⟩
  | findOwner req =>
      simp only [transact, Attempt.returns_bind, Attempt.returns_pure,
        Attempt.returns_wrapError] at returns
      rcases returns with ⟨owner, isOwner, same⟩
      cases same
      exact ⟨asserted.1, asserted.2, .now run ⟨found, input.queryOrder, isOwner⟩⟩
  | saveSetup req owner =>
      rcases returns_saveSetup.mp returns with ⟨-, -, same⟩
      cases same
      exact trivial
  | identify pid blobs =>
      simp only [transact, Attempt.returns_bind, Attempt.returns_pure,
        Attempt.returns_wrapError] at returns
      rcases returns with ⟨account, isAccount, same⟩
      have resolved : (site F W).OnceIn start
          (fun moment => Resolves F W moment pid account) s :=
        .now run ⟨input.queryOrder, isAccount⟩
      split at same
      · next push =>
          cases same
          exact ⟨resolved, fun noPush => absurd (push.symm.trans noPush) (by decide)⟩
      · cases same
        exact resolved
  | checkRole pid account blobs =>
      simp only [transact, Attempt.returns_bind, Attempt.returns_pure,
        Attempt.returns_check] at returns
      rcases returns with ⟨role, isRole, -, isMember, same⟩
      cases same
      exact ⟨asserted, fun _ => .now run
        ⟨⟨blobs, found⟩, siteRole_iff.mp ⟨role, isRole, isMember⟩⟩⟩
  | lookUp pid account blobs want =>
      cases blobs with
      | nil =>
          cases Attempt.returns_pure.mp returns
          exact asserted
      | cons x blobs =>
          simp only [transact, Attempt.returns_bind, Attempt.returns_pure] at returns
          rcases returns with ⟨c, -, same⟩
          cases same
          exact asserted
  | pull pid account want =>
      cases want with
      | nil =>
          cases Attempt.returns_pure.mp returns
          exact trivial
      | cons c want =>
          rw [transact] at returns
          split at returns
          · exact absurd returns Attempt.not_returns_throw
          · rcases Attempt.returns_bind.mp returns with ⟨store, -, returns⟩
            cases Attempt.returns_pure.mp returns
            exact asserted
  | finished =>
      cases Attempt.returns_pure.mp returns
      exact trivial
  | failed err =>
      cases Attempt.returns_pure.mp returns
      exact trivial

/-- Everything that is asserted of the calls of a site holds in every run. -/
theorem asserted_of_site {index : Nat} (noCalls : start.calls = [])
    (run : (site F W).Runs start s) (found : s.calls[index]? = some siteCall) :
    Asserted F W start s index siteCall := by
  apply Program.asserted_of_runs _ _ _ noCalls run found
  · intro s t request _ _
    cases request with
    | initializeServer nodeReady req =>
        simp only [site, enterCall]
        split
        · exact trivial
        · split
          · exact trivial
          · next nonempty => exact nonempty
    | publishBlobs nodeReady pid blobs =>
        simp only [site, enterCall]
        split <;> exact trivial
  · intro s t index input siteCall run found asserted stepped
    have step : (site F W).Runs s t := .single ⟨_, trivial, stepped⟩
    rcases performTransaction_cases F W input s.shared siteCall with returns | ⟨err, failed⟩
    · exact (asserted.advance run found returns).later step
    · simp only [site, failed]
      exact trivial
  · intro s t turn index siteCall _ stepped _ asserted
    exact asserted.later (.single ⟨turn, trivial, stepped⟩)

/-! ## The keys of the site -/

/-- A key keeps its value when rows are added behind. -/
theorem getKV_append {kv rows : KV} {key : String} (there : hasKey kv key = true) :
    hasKey (kv ++ rows) key = true ∧ getKV (kv ++ rows) key = getKV kv key := by
  rw [hasKey] at there
  have found : (kv.find? (·.1 == key)).isSome = true := by
    rw [List.find?_isSome]
    exact List.any_eq_true.mp there
  constructor
  · rw [hasKey, List.any_append, there]
    exact rfl
  · rcases Option.isSome_iff_exists.mp found with ⟨row, isRow⟩
    rw [getKV, getKV, List.find?_append, isRow]
    exact rfl

/-- A row that is added for a new key has its value. -/
theorem getKV_append_new {kv rows : KV} {key value : String}
    (absent : hasKey kv key = false) : getKV (kv ++ (key, value) :: rows) key = value := by
  have notFound : kv.find? (·.1 == key) = none := by
    rw [List.find?_eq_none]
    intro row isRow same
    rw [hasKey, List.any_eq_false] at absent
    exact absent row isRow same
  rw [getKV, List.find?_append, notFound, Option.none_or, List.find?_cons_of_pos (by simp)]
  exact rfl

/-- A step leaves the keys alone, or a call sets both of them, which were not set. -/
theorem kv_of_step {turn : Turn SiteRequest (SiteInput Data) (StoreCall Data)}
    (stepped : (site F W).step s turn = some t) :
    t.shared.kv = s.shared.kv ∨
      ∃ index input req owner, turn = .advance index input ∧
        s.calls[index]? = some (.saveSetup req owner) ∧
        hasKey s.shared.kv keySiteGroup = false ∧
        hasKey s.shared.kv keySiteOwner = false ∧
        t.shared.kv = s.shared.kv ++
          [(keySiteGroup, req.groupID), (keySiteOwner, F.principalString owner)] := by
  rcases Program.shared_of_step stepped with same |
    ⟨index, input, siteCall, rfl, found, same⟩ | ⟨storeCall, rfl, disturbed⟩
  · exact .inl (by rw [same])
  · rcases db_of_performTransaction F W input s.shared siteCall with unchanged |
      ⟨req, owner, rfl, noGroup, noOwner, saved⟩ | ⟨pid, account, want, store, rfl, pulled⟩
    · exact .inl (congrArg SiteDB.kv (same.trans unchanged))
    · exact .inr ⟨index, input, req, owner, rfl, found, noGroup, noOwner,
        congrArg SiteDB.kv (same.trans saved)⟩
    · have kept := congrArg SiteDB.kv (same.trans pulled)
      exact .inl kept
  · rcases Option.map_eq_some_iff.mp disturbed with ⟨store, -, isShared⟩
    exact .inl (by rw [← isShared])

/-- A key that is set stays as it is in every run. -/
theorem kept_of_runs {key : String} (there : hasKey s.shared.kv key = true)
    (run : (site F W).Runs s t) :
    hasKey t.shared.kv key = true ∧ getKV t.shared.kv key = getKV s.shared.kv key := by
  induction run with
  | refl => exact ⟨there, rfl⟩
  | tail _ last induction =>
      rcases last with ⟨turn, -, stepped⟩
      rcases kv_of_step stepped with same |
        ⟨index, input, req, owner, rfl, -, -, -, same⟩
      · rw [same]
        exact induction
      · rw [same, ← induction.2]
        exact getKV_append induction.1

/-- Both keys are set or none is. -/
theorem together_of_runs
    (start_eq : hasKey start.shared.kv keySiteGroup = hasKey start.shared.kv keySiteOwner)
    (run : (site F W).Runs start s) :
    hasKey s.shared.kv keySiteGroup = hasKey s.shared.kv keySiteOwner := by
  induction run with
  | refl => exact start_eq
  | tail _ last induction =>
      rcases last with ⟨turn, -, stepped⟩
      rcases kv_of_step stepped with same |
        ⟨index, input, req, owner, rfl, -, -, -, same⟩
      · rw [same]
        exact induction
      · rw [same, hasKey, hasKey, List.any_append, List.any_append]
        simp

end Stages

/-! ## Access control -/

/-- Calls that begin or advance, and blobs that change. -/
abbrev SiteTurn (Data : Type) := Turn SiteRequest (SiteInput Data) (StoreCall Data)

/-- The call is `PublishBlobs`, and not over yet. -/
def IsPublish : SiteCall → Prop
  | .identify .. | .checkRole .. | .lookUp .. | .pull .. => True
  | _ => False

/-- What holds in a state that a run of a site reaches. -/
structure AccessControlled (F : Formats Data) (W : Website F) (start s : SiteState Data) :
    Prop where
  together : hasKey s.shared.kv keySiteGroup = hasKey s.shared.kv keySiteOwner
  /-- A key that is set is never set again. -/
  kept : ∀ t, (site F W).Runs s t → ∀ key, hasKey s.shared.kv key = true →
    hasKey t.shared.kv key = true ∧ getKV t.shared.kv key = getKV s.shared.kv key
  /-- The call that sets the keys has presented the secret. -/
  setBy : ∀ (turn : SiteTurn Data) t, (site F W).step s turn = some t →
    hasKey s.shared.kv keySiteGroup = false → hasKey t.shared.kv keySiteGroup = true →
    ∃ index input req owner, turn = .advance index input ∧
      s.calls[index]? = some (.saveSetup req owner) ∧ req.secret = W.setupURL ∧
      getKV t.shared.kv keySiteGroup = req.groupID ∧ req.groupID ≠ "" ∧
      getKV t.shared.kv keySiteOwner = F.principalString owner ∧
      (site F W).OnceIn start (fun moment =>
        moment.calls[index]? = some (.findOwner req) ∧
          Resolves F W moment req.pid owner) s
  /-- A call that stores a blob has passed its check. -/
  stored : W.allowPush = false → ∀ index input t siteCall,
    (site F W).step s (.advance index input) = some t →
    s.calls[index]? = some siteCall → IsPublish siteCall →
    t.shared.store ≠ s.shared.store →
    ∃ pid account want, siteCall = .pull pid account want ∧
      (site F W).OnceIn start (fun moment => Resolves F W moment pid account) s ∧
      (site F W).OnceIn start (fun moment =>
        (∃ blobs, moment.calls[index]? = some (.checkRole pid account blobs)) ∧
          MayPublish F moment.shared account) s
  /-- The check fails for everyone else, and changes nothing. -/
  denied : ∀ index input t pid account blobs,
    (site F W).step s (.advance index input) = some t →
    s.calls[index]? = some (.checkRole pid account blobs) →
    ¬ MayPublish F s.shared account →
    t.shared = s.shared ∧ ∃ err, t.calls[index]? = some (.failed err)
  /-- A call that has failed does nothing. -/
  ended : ∀ index input t err, (site F W).step s (.advance index input) = some t →
    s.calls[index]? = some (.failed err) → t = s

section Access

variable {F : Formats Data} {W : Website F} {start s : SiteState Data}

/--
In every run of a site, with calls of any callers in any order and blobs that change in
between, only the setup secret sets the keys, once and for the account of the caller,
and only members that have passed the check store blobs.
-/
theorem site_access_control
    (together : hasKey start.shared.kv keySiteGroup = hasKey start.shared.kv keySiteOwner)
    (noCalls : start.calls = []) (run : (site F W).Runs start s) :
    AccessControlled F W start s where
  together := together_of_runs together run
  kept := fun _ since _ there => kept_of_runs there since
  setBy := by
    intro turn t stepped unset isSet
    rcases kv_of_step stepped with same |
      ⟨index, input, req, owner, rfl, found, noGroup, noOwner, same⟩
    · rw [same, unset] at isSet
      cases isSet
    · rcases asserted_of_site noCalls run found with ⟨nonempty, isSecret, resolved⟩
      refine ⟨index, input, req, owner, rfl, found, isSecret, ?_, nonempty, ?_, resolved⟩
      · rw [same]
        exact getKV_append_new noGroup
      · rw [same, ← List.singleton_append, ← List.append_assoc]
        apply getKV_append_new
        rw [hasKey, List.any_append, ← hasKey, noOwner]
        exact rfl
  stored := by
    intro noPush index input t siteCall stepped found isPublish changed
    rw [(Program.calls_advance found stepped).1] at changed
    rcases db_of_performTransaction F W input s.shared siteCall with unchanged |
      ⟨req, owner, rfl, -⟩ | ⟨pid, account, want, store, rfl, -⟩
    · exact absurd (congrArg SiteDB.store unchanged) changed
    · exact absurd isPublish id
    · rcases asserted_of_site noCalls run found with ⟨resolved, passed⟩
      exact ⟨pid, account, want, rfl, resolved, passed noPush⟩
  denied := by
    intro index input t pid account blobs stepped found denied
    have after := Program.calls_advance found stepped
    rcases performTransaction_cases F W input s.shared (.checkRole pid account blobs) with returns | ⟨err, failed⟩
    · simp only [transact, Attempt.returns_bind, Attempt.returns_check] at returns
      rcases returns with ⟨role, isRole, -, isMember, -⟩
      exact absurd (siteRole_iff.mp ⟨role, isRole, isMember⟩) denied
    · simp only [site, failed] at after
      exact ⟨after.1, err, after.2⟩
  ended := by
    intro index input t err stepped found
    rw [Program.step_advance found] at stepped
    rcases Option.some.inj stepped with rfl
    rcases List.getElem?_eq_some_iff.mp found with ⟨inside, isCall⟩
    have same : s.calls.set index (.failed err) = s.calls := by
      rw [← isCall]
      exact List.set_getElem_self inside
    have isPerformed : performTransaction F W input s.shared (.failed err) =
        (s.shared, .failed err) := rfl
    simp only [site, isPerformed, same]

end Access

/-! ## A site of the first account -/

section Samples

/-- A site that waits to be set up. -/
def sampleWebsite : Website (sampleFormats sampleSha256) where
  node := sampleNode
  setupURL := "https://site/secret-invite/secret"
  allowPush := false

/-- The site before any request. -/
def freshSite : SiteState DecodedBlob := ⟨⟨sampleServer, []⟩, []⟩

/-- What a step reads, when rows are returned as they are stored. -/
def sampleInput (block : Option DecodedBlob) : SiteInput DecodedBlob :=
  ⟨listedRows, .listed, block⟩

/-- The owner sets up the site while another caller tries, and publishes the group. -/
def siteTurns : List (SiteTurn DecodedBlob) :=
  let advance index := .advance index (sampleInput (some (.change sampleCreate)))
  [.start (.initializeServer true
      ⟨sampleGroup, "https://site/secret-invite/secret", "device"⟩),
    .start (.initializeServer true ⟨sampleGroup, "https://site/secret-invite/", "other"⟩),
    advance 0, advance 1, advance 0, advance 0,
    .start (.publishBlobs true "device" ["ccreate"]),
    advance 2, advance 2, advance 2, advance 2, advance 2, advance 2]

def siteTurnsResult : Evaluated (performAll (site (sampleFormats sampleSha256)
    sampleWebsite).step freshSite siteTurns) :=
  .of (by decide +kernel)

theorem siteTurns_succeed : (performAll (site (sampleFormats sampleSha256)
    sampleWebsite).step freshSite siteTurns).isSome = true :=
  siteTurnsResult.isSome

/-- The site after it was set up and published to. -/
def publishedSite : SiteState DecodedBlob :=
  (performAll (site (sampleFormats sampleSha256) sampleWebsite).step freshSite
    siteTurns).get siteTurns_succeed

theorem site_access_control_publishedSite :
    AccessControlled (sampleFormats sampleSha256) sampleWebsite freshSite publishedSite :=
  site_access_control (by exact rfl) (by exact rfl)
    (reaches_get siteTurns siteTurns_succeed)

example : publishedSite.shared.store.hasBlobData (sampleFormats sampleSha256) "ccreate" =
    true := by decide +kernel

end Samples

end Mintter.Hyper
