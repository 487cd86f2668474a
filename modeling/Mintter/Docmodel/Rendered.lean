import Mintter.Docmodel.Hydrated
import Mintter.Docmodel.SampleKeys
import Mintter.Hyper.Replicas

/-!
# Rendering documents

`Hydrate` makes the message of a document that has just been opened: its identifier and its
versions, when it was created and by whom, its title, the accounts that wrote it, and the
blocks of its visible tree.

Two nodes that load the same changes make the same message, whatever the order of the changes of
one time (`replicas_render_alike`).  What is read of the first change only is the same when the
changes without dependencies agree on it.
-/

namespace Mintter.Docmodel

open Mintter.Foundation
open Mintter.Crdt2
open Mintter.Hyper

variable {β Data : Type}

/-- The message of a document; times are numbers. -/
structure DocumentMessage (β : Type) where
  id : String
  createTime : Int
  author : String
  version : String
  previousVersion : String
  updateTime : Int
  title : String
  editors : List String
  children : List (BlockNode β)

/-- The abbreviated origins of changes with their CIDs; a later change replaces an earlier one. -/
def originsOf (changes : List (String × Hyper.Change)) : String → String :=
  changes.foldl (fun origins change =>
    Function.update origins (originFromCID change.1) change.1) fun _ => ""

section Hydrate

variable (F : Formats Data) (s : Store Data) (unmarshal : Object → Except String β)
variable (order : IndexOrder) (fuel : Nat)

/-- Load a blob that is a key delegation. -/
def loadKeyDelegation (c : String) : Attempt KeyDelegation := do
  Attempt.check (F.cidCodec c ≠ dagCbor) "TODO: can't load non-cbor blobs"
  let data ← s.getBlock (F.cidHash c)
  Attempt.ofExcept (F.decodeKeyDelegation data)

/-- The accounts that were found, which are also those seen, and the delegations seen. -/
structure EditorSearch where
  editors : List String
  seenDelegations : List String

/-- A delegation of an account that was found before is loaded again the next time. -/
def addEditor (found : EditorSearch) (change : String × Hyper.Change) : Attempt EditorSearch := do
  Attempt.check (change.2.delegation = "") "all document changes must have delegations"
  if change.2.delegation ∈ found.seenDelegations then pure found
  else do
    let kd ← (loadKeyDelegation F s change.2.delegation).wrapError
      (s!"failed to load key delegation: {·}")
    let acc := F.principalString kd.issuer
    if acc ∈ found.editors then pure found
    else pure ⟨found.editors ++ [acc], change.2.delegation :: found.seenDelegations⟩

/-- A number in the patch of the first change. -/
def createTimeOf (patch : Object) : Attempt Int :=
  match patch.get "createTime" with
  | some (.int time) => pure time
  | _ => throw "document must have createTime field"

/-- The owner that a patch names. -/
def ownerOf (patch : Object) : Attempt Principal :=
  match patch.get "owner" with
  | some (.bytes owner) => pure owner
  | _ => throw "document must have owner field"

/-- The title, which must be text if there is one. -/
def titleOf (state : Map) : Outcome String :=
  match state.get ["title"] with
  | none => pure ""
  | some v => assertType Value.asString (some v)

/-- What the callback of the walk knows about a document that was not restored. -/
def hydration (dm : Document) : Hydration β where
  unmarshal := unmarshal
  state := dm.e.state
  origins := originsOf dm.e.changes
  oldDraft := ""

/-- The method `Hydrate`, of a document that `new` has returned. -/
def Document.hydrate (dm : Document) : Attempt (DocumentMessage β) :=
  if dm.mutation.isSome then .abort "BUG: can't hydrate a document with uncommitted changes"
  else match dm.e.changes with
    | [] => .abort emptySlice
    | first :: _ => do
        let createTime ← createTimeOf first.2.patch
        let owner ← ownerOf first.2.patch
        let deps ← ofOutcome (dm.e.headDeps fuel order)
        let title ← ofOutcome (titleOf dm.e.state)
        let found ← dm.e.changes.foldlM (addEditor F s) ⟨[], []⟩
        let children ← ExceptT.mk ((hydration unmarshal dm).hydrateChildren fuel dm.tree)
        pure {
          id := dm.e.id
          createTime := createTime
          author := F.principalString owner
          version := newVersion dm.e.heads
          previousVersion := newVersion deps
          updateTime := dm.e.maxClock.maxTime
          title := title
          editors := found.editors.mergeSort (· ≤ ·)
          children := children }

/-- Open the document of an entity and make its message. -/
def renderEntity (K : Fracdex) (e : Entity) (signer : KeyPair) (delegation : String) :
    Attempt (DocumentMessage β) := do
  let dm ← ExceptT.mk (Document.new K e signer delegation)
  dm.hydrate F s unmarshal order fuel

end Hydrate

/-! ## The parts of the message -/

section Parts

variable {F : Formats Data} {s s' : Store Data} {changes changes' : List (String × Hyper.Change)}

/-- Sorted lists of the same texts are the same. -/
theorem mergeSort_eq_of_perm {texts texts' : List String} (perm : texts.Perm texts') :
    texts.mergeSort (· ≤ ·) = texts'.mergeSort (· ≤ ·) := by
  have sorted : ∀ texts : List String, (texts.mergeSort (· ≤ ·)).Pairwise (· ≤ ·) := by
    intro texts
    apply (List.pairwise_mergeSort (fun a b c => by simpa using le_trans)
      (fun a b => by simpa using le_total a b) texts).imp
    intro a b
    exact of_decide_eq_true
  apply List.Perm.eq_of_pairwise _ (sorted texts) (sorted texts')
  · exact ((List.mergeSort_perm texts _).trans perm).trans (List.mergeSort_perm texts' _).symm
  · exact fun _ _ _ _ => le_antisymm

/-- A version does not depend on the order of its heads. -/
theorem newVersion_eq_of_perm {cids cids' : List String} (perm : cids.Perm cids') :
    newVersion cids = newVersion cids' := by
  rw [newVersion, newVersion, mergeSort_eq_of_perm perm]

/-- The origins of different changes differ. -/
def OriginsApart (changes : List (String × Hyper.Change)) : Prop :=
  (changes.map fun change => originFromCID change.1).Nodup

theorem foldl_origins (changes : List (String × Hyper.Change)) (start : String → String)
    (origin : String) :
    (origin ∉ changes.map (fun change => originFromCID change.1) →
      changes.foldl (fun origins change =>
        Function.update origins (originFromCID change.1) change.1) start origin = start origin) ∧
    (OriginsApart changes → ∀ change ∈ changes, originFromCID change.1 = origin →
      changes.foldl (fun origins change =>
        Function.update origins (originFromCID change.1) change.1) start origin = change.1) := by
  induction changes generalizing start with
  | nil => simp
  | cons change changes induction =>
      rcases induction (Function.update start (originFromCID change.1) change.1) with
        ⟨unknown, known⟩
      constructor
      · intro absent
        rw [List.map_cons, List.mem_cons, not_or] at absent
        rw [List.foldl_cons, unknown absent.2, Function.update_of_ne absent.1]
      · intro apart other member isOrigin
        rw [OriginsApart, List.map_cons, List.nodup_cons] at apart
        rw [List.foldl_cons]
        rcases List.mem_cons.mp member with rfl | later
        · rw [unknown (isOrigin ▸ apart.1), ← isOrigin, Function.update_self]
        · exact known apart.2 other later isOrigin

/-- With different origins the order of the changes does not matter. -/
theorem originsOf_eq_of_perm (apart : OriginsApart changes) (perm : changes.Perm changes') :
    originsOf changes = originsOf changes' := by
  funext origin
  have apart' : OriginsApart changes' := (perm.map _).nodup_iff.mp apart
  rcases foldl_origins changes (fun _ => "") origin with ⟨unknown, known⟩
  rcases foldl_origins changes' (fun _ => "") origin with ⟨unknown', known'⟩
  by_cases there : origin ∈ changes.map (fun change => originFromCID change.1)
  · rcases List.mem_map.mp there with ⟨change, member, isOrigin⟩
    exact (known apart change member isOrigin).trans
      (known' apart' change (perm.mem_iff.mp member) isOrigin).symm
  · have absent : origin ∉ changes'.map (fun change => originFromCID change.1) := by
      rwa [← (perm.map _).mem_iff]
    exact (unknown there).trans (unknown' absent).symm

/-- An account that has delegated to the signer of the change. -/
def IsEditor (F : Formats Data) (s : Store Data) (change : String × Hyper.Change)
    (acc : String) : Prop :=
  ∃ kd, (loadKeyDelegation F s change.2.delegation).Returns kd ∧
    acc = F.principalString kd.issuer

/-- The delegations that are not loaded again belong to accounts that were found. -/
def EditorSearch.Sees (F : Formats Data) (s : Store Data) (found : EditorSearch) : Prop :=
  ∀ del ∈ found.seenDelegations, ∃ kd, (loadKeyDelegation F s del).Returns kd ∧
    F.principalString kd.issuer ∈ found.editors

/-- What a search for the editors of some changes has found. -/
structure Finds (F : Formats Data) (s : Store Data) (changes : List (String × Hyper.Change))
    (found : EditorSearch) : Prop where
  sees : found.Sees F s
  nodup : found.editors.Nodup
  mem_iff : ∀ acc, acc ∈ found.editors ↔ ∃ change ∈ changes, IsEditor F s change acc

theorem finds_nil : Finds F s [] ⟨[], []⟩ where
  sees := fun _ member => absurd member List.not_mem_nil
  nodup := List.nodup_nil
  mem_iff := by simp

variable {found found' : EditorSearch} {change : String × Hyper.Change}

/-- The delegation of the change can be loaded. -/
def HasDelegation (F : Formats Data) (s : Store Data) (change : String × Hyper.Change) : Prop :=
  change.2.delegation ≠ "" ∧ ∃ kd, (loadKeyDelegation F s change.2.delegation).Returns kd

/-- Nothing is added for a change whose editor was found. -/
theorem Finds.known (finds : Finds F s changes found) {kd : KeyDelegation}
    (loaded : (loadKeyDelegation F s change.2.delegation).Returns kd)
    (isKnown : F.principalString kd.issuer ∈ found.editors) :
    Finds F s (changes ++ [change]) found where
  sees := finds.sees
  nodup := finds.nodup
  mem_iff := by
    intro acc
    rw [finds.mem_iff]
    constructor
    · rintro ⟨other, member, isEditor⟩
      exact ⟨other, List.mem_append_left _ member, isEditor⟩
    · rintro ⟨other, member, kd', loaded', rfl⟩
      rcases List.mem_append.mp member with old | new
      · exact ⟨other, old, kd', loaded', rfl⟩
      · rw [List.mem_singleton.mp new] at loaded'
        rw [loaded'.unique loaded]
        exact (finds.mem_iff _).mp isKnown

theorem Finds.add (finds : Finds F s changes found) {kd : KeyDelegation}
    (loaded : (loadKeyDelegation F s change.2.delegation).Returns kd)
    (isNew : F.principalString kd.issuer ∉ found.editors) :
    Finds F s (changes ++ [change]) ⟨found.editors ++ [F.principalString kd.issuer],
      change.2.delegation :: found.seenDelegations⟩ where
  sees := by
    intro del member
    rcases List.mem_cons.mp member with rfl | old
    · exact ⟨kd, loaded, by simp⟩
    · rcases finds.sees del old with ⟨kd', loaded', isFound⟩
      exact ⟨kd', loaded', List.mem_append_left _ isFound⟩
  nodup := by
    rw [List.nodup_append]
    refine ⟨finds.nodup, List.nodup_singleton _, ?_⟩
    rintro acc isFound _ isAdded rfl
    exact isNew (List.mem_singleton.mp isAdded ▸ isFound)
  mem_iff := by
    intro acc
    rw [List.mem_append, List.mem_singleton, finds.mem_iff]
    constructor
    · rintro (⟨other, member, isEditor⟩ | rfl)
      · exact ⟨other, List.mem_append_left _ member, isEditor⟩
      · exact ⟨change, by simp, kd, loaded, rfl⟩
    · rintro ⟨other, member, kd', loaded', rfl⟩
      rcases List.mem_append.mp member with old | new
      · exact .inl ⟨other, old, kd', loaded', rfl⟩
      · rw [List.mem_singleton.mp new] at loaded'
        rw [loaded'.unique loaded]
        exact .inr rfl

/-- Adding the editor of one more change. -/
theorem Finds.addEditor (finds : Finds F s changes found) (change : String × Hyper.Change) :
    (∀ found', (addEditor F s found change).Returns found' →
      HasDelegation F s change ∧ Finds F s (changes ++ [change]) found') ∧
    (HasDelegation F s change → ∃ found', (addEditor F s found change).Returns found') := by
  by_cases seen : change.2.delegation ∈ found.seenDelegations
  · rcases finds.sees _ seen with ⟨kd, loaded, isFound⟩
    constructor
    · intro found' returns
      simp only [Docmodel.addEditor, if_pos seen, Attempt.returns_bind, Attempt.returns_check,
        Attempt.returns_pure] at returns
      rcases returns with ⟨_, named, rfl⟩
      exact ⟨⟨named, kd, loaded⟩, finds.known loaded isFound⟩
    · rintro ⟨named, -⟩
      refine ⟨found, ?_⟩
      simp [Docmodel.addEditor, seen, named]
  · constructor
    · intro found' returns
      simp only [Docmodel.addEditor, if_neg seen, Attempt.returns_bind, Attempt.returns_check,
        Attempt.returns_wrapError] at returns
      rcases returns with ⟨_, named, kd, loaded, returned⟩
      split_ifs at returned with isFound
      · cases Attempt.returns_pure.mp returned
        exact ⟨⟨named, kd, loaded⟩, finds.known loaded isFound⟩
      · cases Attempt.returns_pure.mp returned
        exact ⟨⟨named, kd, loaded⟩, finds.add loaded isFound⟩
    · rintro ⟨named, kd, loaded⟩
      simp only [Docmodel.addEditor, if_neg seen, Attempt.returns_bind, Attempt.returns_check,
        Attempt.returns_wrapError]
      by_cases isFound : F.principalString kd.issuer ∈ found.editors
      · exact ⟨found, (), named, kd, loaded, by simp [isFound]⟩
      · exact ⟨_, (), named, kd, loaded, by rw [if_neg isFound]; exact Attempt.returns_pure.mpr rfl⟩

/-- The search returns when all delegations can be loaded, and finds all their issuers. -/
theorem foldlM_addEditor {done : List (String × Hyper.Change)} (finds : Finds F s done found) :
    (∀ found', (changes.foldlM (addEditor F s) found).Returns found' →
      (∀ change ∈ changes, HasDelegation F s change) ∧ Finds F s (done ++ changes) found') ∧
    ((∀ change ∈ changes, HasDelegation F s change) →
      ∃ found', (changes.foldlM (addEditor F s) found).Returns found') := by
  induction changes generalizing done found with
  | nil => simp [finds]
  | cons change changes induction =>
      have step := finds.addEditor change
      constructor
      · intro found' returns
        rw [List.foldlM_cons, Attempt.returns_bind] at returns
        rcases returns with ⟨next, first, rest⟩
        rcases step.1 next first with ⟨has, finds'⟩
        rcases (induction finds').1 found' rest with ⟨others, all⟩
        refine ⟨List.forall_mem_cons.mpr ⟨has, others⟩, ?_⟩
        rwa [List.append_assoc, List.singleton_append] at all
      · intro all
        rcases step.2 (all change (List.mem_cons_self ..)) with ⟨next, first⟩
        rcases (induction (step.1 next first).2).2
          fun other member => all other (List.mem_cons_of_mem _ member) with ⟨found', rest⟩
        refine ⟨found', ?_⟩
        rw [List.foldlM_cons, Attempt.returns_bind]
        exact ⟨next, first, rest⟩

end Parts

/-! ## Two nodes -/

section Nodes

variable {F : Formats Data} {K : Fracdex} {s s' : Store Data}
variable {unmarshal : Object → Except String β} {order order' : IndexOrder} {fuel : Nat}
variable {e e' : Entity} {signer signer' : KeyPair} {delegation delegation' : String}
variable {dm : Document} {msg : DocumentMessage β} {id : String}

/-- The document that is opened when the moves of the entity give this tree. -/
def opened (e : Entity) (signer : KeyPair) (delegation : String) (tree : TreeCRDT) : Document where
  e := e
  signer := signer
  delegation := delegation
  tree := tree
  mutation := none
  patch := []
  oldAction := ""
  done := false
  nextHLC := 0
  createdBlocks := []
  deletedBlocks := []

/-- A document is loaded if it has a delegation and its moves can be replayed. -/
theorem returns_new_iff :
    Attempt.Returns (ExceptT.mk (Document.new K e signer delegation)) dm ↔
    delegation ≠ "" ∧ ∃ tree, replayMoves K e = .ok (.ok tree) ∧
      dm = opened e signer delegation tree := by
  rw [Attempt.Returns, ExceptT.run_mk, Document.new]
  split_ifs with unnamed
  · simp [unnamed]
  · rcases replayMoves K e with abort | (err | tree)
    · simp [unnamed]
    · simp [unnamed]
    · simp [unnamed, opened, eq_comm]

/-- The parts of a message that is made. -/
structure Hydrates (F : Formats Data) (s : Store Data) (unmarshal : Object → Except String β)
    (e : Entity) (first : Hyper.Change) (deps : List String) (found : EditorSearch)
    (msg : DocumentMessage β) : Prop where
  id : msg.id = e.id
  createTime : (createTimeOf first.patch).Returns msg.createTime
  author : ∃ owner, (ownerOf first.patch).Returns owner ∧ msg.author = F.principalString owner
  version : msg.version = newVersion e.heads
  previousVersion : msg.previousVersion = newVersion deps
  updateTime : msg.updateTime = e.maxClock.maxTime
  title : titleOf e.state = .ok msg.title
  search : (e.changes.foldlM (addEditor F s) ⟨[], []⟩).Returns found
  editors : msg.editors = found.editors.mergeSort (· ≤ ·)

theorem returns_hydrate_iff {tree : TreeCRDT} {first : String × Hyper.Change}
    {rest : List (String × Hyper.Change)} {deps : List String} (isFirst : e.changes = first :: rest)
    (areDeps : e.headDeps fuel order = .ok deps) :
    ((opened e signer delegation tree).hydrate F s unmarshal order fuel).Returns msg ↔
      (∃ found, Hydrates F s unmarshal e first.2 deps found msg) ∧
        (hydration unmarshal (opened e signer delegation tree)).hydrateChildren fuel tree =
          .ok (.ok msg.children) := by
  have areDeps' : (ofOutcome (e.headDeps fuel order)).Returns deps := by
    rw [areDeps]
    exact rfl
  have title_iff : ∀ title, (ofOutcome (titleOf e.state)).Returns title ↔
      titleOf e.state = .ok title := by
    intro title
    rw [Attempt.Returns, ofOutcome, ExceptT.run_lift]
    cases titleOf e.state <;> simp
  simp only [Document.hydrate, opened, isFirst, Option.isSome_none, Bool.false_eq_true, if_false,
    Attempt.returns_bind, Attempt.returns_pure, title_iff]
  constructor
  · rintro ⟨createTime, isTime, owner, isOwner, deps', returned, title, isTitle, found, search,
      children, hydrated, rfl⟩
    cases areDeps'.unique returned
    refine ⟨⟨found, rfl, isTime, ⟨owner, isOwner, rfl⟩, rfl, rfl, rfl, isTitle, ?_, rfl⟩,
      hydrated⟩
    rwa [isFirst]
  · rintro ⟨⟨found, parts⟩, hydrated⟩
    rcases parts.author with ⟨owner, isOwner, author⟩
    refine ⟨_, parts.createTime, owner, isOwner, deps, areDeps', _, parts.title, found, ?_, _,
      hydrated, ?_⟩
    · rw [← isFirst]
      exact parts.search
    · rw [← parts.id, ← author, ← parts.version, ← parts.previousVersion, ← parts.updateTime,
        ← parts.editors]

/-- The walk reads the contents of blocks only. -/
theorem hydrateChildren_congr {h h' : Hydration β} (unmarshal_eq : h.unmarshal = h'.unmarshal)
    (origins_eq : h.origins = h'.origins) (oldDraft_eq : h.oldDraft = h'.oldDraft)
    (contents : ∀ block, h.state.getWithOrigin ["blocks", block] =
      h'.state.getWithOrigin ["blocks", block]) (fuel : Nat) (tree : TreeCRDT) :
    h.hydrateChildren fuel tree = h'.hydrateChildren fuel tree := by
  have move_eq : h.hydrateMove = h'.hydrateMove := by
    funext acc m
    rw [Hydration.hydrateMove, Hydration.hydrateMove, contents, unmarshal_eq]
    simp only [Hydration.revision, origins_eq, oldDraft_eq]
  rw [Hydration.hydrateChildren, Hydration.hydrateChildren, move_eq]

/-- The first change that was applied depends on no other. -/
theorem deps_of_first (loaded : Loaded id e) {first : String × Hyper.Change}
    {rest : List (String × Hyper.Change)} (isFirst : e.changes = first :: rest) :
    first.2.deps = [] := by
  have graph := graph_of_loaded loaded
  apply List.eq_nil_iff_forall_not_mem.mpr
  intro dep isDep
  have member : first ∈ e.changes := by simp [isFirst]
  rcases Option.isSome_iff_exists.mp (graph.deps_applied first member dep isDep) with ⟨j, isIndex⟩
  have recorded : j ∈ e.depsOf 0 :=
    (graph.deps_iff 0 j).mpr ⟨first, by simp [isFirst], dep, isDep, isIndex⟩
  exact absurd (graph.deps_lt 0 j recorded) (Nat.not_lt_zero j)

/-- The changes without dependencies say the same about when and by whom it was created. -/
def RootsAgree (changes : List (String × Hyper.Change)) : Prop :=
  ∀ root ∈ changes, ∀ root' ∈ changes, root.2.deps = [] → root'.2.deps = [] →
    root.2.patch.get "createTime" = root'.2.patch.get "createTime" ∧
      root.2.patch.get "owner" = root'.2.patch.get "owner"

/-- The stores hold the same delegations of these changes. -/
def SameDelegations (F : Formats Data) (s s' : Store Data)
    (changes : List (String × Hyper.Change)) : Prop :=
  ∀ change ∈ changes, ∀ kd, (loadKeyDelegation F s change.2.delegation).Returns kd ↔
    (loadKeyDelegation F s' change.2.delegation).Returns kd

/-- The stores find the same editors of the same changes. -/
theorem editors_eq_of_perm {changes changes' : List (String × Hyper.Change)}
    {found : EditorSearch} (perm : changes.Perm changes')
    (same : SameDelegations F s s' changes)
    (search : (changes.foldlM (addEditor F s) ⟨[], []⟩).Returns found) :
    ∃ found', (changes'.foldlM (addEditor F s') ⟨[], []⟩).Returns found' ∧
      found.editors.mergeSort (· ≤ ·) = found'.editors.mergeSort (· ≤ ·) := by
  rcases (foldlM_addEditor finds_nil).1 found search with ⟨all, finds⟩
  have all' : ∀ change ∈ changes', HasDelegation F s' change := by
    intro change member
    have old := perm.mem_iff.mpr member
    rcases all change old with ⟨named, kd, loaded⟩
    exact ⟨named, kd, (same change old kd).mp loaded⟩
  rcases (foldlM_addEditor finds_nil).2 all' with ⟨found', search'⟩
  refine ⟨found', search', mergeSort_eq_of_perm ?_⟩
  have finds' := ((foldlM_addEditor finds_nil).1 found' search').2
  apply (List.perm_ext_iff_of_nodup finds.nodup finds'.nodup).mpr
  intro acc
  rw [finds.mem_iff, finds'.mem_iff]
  simp only [List.nil_append, IsEditor]
  constructor
  · rintro ⟨change, member, kd, loaded, isAcc⟩
    exact ⟨change, perm.mem_iff.mp member, kd, (same change member kd).mp loaded, isAcc⟩
  · rintro ⟨change, member, kd, loaded, isAcc⟩
    have old := perm.mem_iff.mpr member
    exact ⟨change, old, kd, (same change old kd).mpr loaded, isAcc⟩

/-- Changes with different origins write apart. -/
theorem writesApart_of_originsApart {changes : List (String × Hyper.Change)}
    (apart : OriginsApart changes) (decoded : ∀ change ∈ changes, Decoded change.2.patch) :
    WritesApart changes where
  stamps := by
    apply List.Nodup.of_map (fun stamp => (ofLex stamp).2)
    rw [List.map_map]
    exact apart
  decoded := decoded

/-- With the same changes, what a node makes of an entity is what another one makes of it. -/
theorem settles_of_perm (loaded : Loaded id e) (loaded' : Loaded id e')
    (perm : e.changes.Perm e'.changes) (apart : OriginsApart e.changes)
    (decoded : ∀ change ∈ e.changes, Decoded change.2.patch) (roots : RootsAgree e.changes)
    (same : SameDelegations F s s' e.changes) (named : delegation' ≠ "")
    (settles : Attempt.Settles
      (fun fuel => renderEntity F s unmarshal order fuel K e signer delegation) msg) :
    Attempt.Settles
      (fun fuel => renderEntity F s' unmarshal order' fuel K e' signer' delegation') msg := by
  have agree := agree_of_perm loaded loaded' perm (writesApart_of_originsApart apart decoded)
  have replay_eq : replayMoves K e = replayMoves K e' := by
    rw [replayMoves, replayMoves, agree.state.forEachListChunk ["moves"] (by simp)]
  rcases agree.deps order order' with ⟨deps, deps', ⟨bound, areDeps⟩, ⟨bound', areDeps'⟩, permDeps⟩
  rcases settles with ⟨enough, settles⟩
  refine ⟨max enough (max bound bound'), fun fuel large => ?_⟩
  have rendered := settles fuel (le_trans (le_max_left _ _) large)
  have areDeps := areDeps fuel (le_trans (le_trans (le_max_left _ _) (le_max_right _ _)) large)
  have areDeps' := areDeps' fuel (le_trans (le_trans (le_max_right _ _) (le_max_right _ _)) large)
  rcases Attempt.returns_bind.mp rendered with ⟨dm, isOpened, hydrated⟩
  rcases returns_new_iff.mp isOpened with ⟨-, tree, replayed, rfl⟩
  rcases isChanges : e.changes with _ | ⟨first, rest⟩
  · simp [Document.hydrate, opened, isChanges] at hydrated
  rcases isChanges' : e'.changes with _ | ⟨first', rest'⟩
  · rw [isChanges, isChanges'] at perm
    simp at perm
  rcases (returns_hydrate_iff isChanges areDeps).mp hydrated with ⟨⟨found, parts⟩, children⟩
  rcases editors_eq_of_perm perm same parts.search with ⟨found', search', editors_eq⟩
  have rootFields := roots first (by simp [isChanges]) first'
    (perm.mem_iff.mpr (by simp [isChanges'])) (deps_of_first loaded isChanges)
    (deps_of_first loaded' isChanges')
  apply Attempt.returns_bind.mpr
  refine ⟨_, returns_new_iff.mpr ⟨named, tree, replay_eq ▸ replayed, rfl⟩, ?_⟩
  apply (returns_hydrate_iff isChanges' areDeps').mpr
  constructor
  · refine ⟨found', ?_⟩
    constructor
    · rw [parts.id, (Entity.sound_of_loaded loaded).2, (Entity.sound_of_loaded loaded').2]
    · have createTime := parts.createTime
      rwa [createTimeOf, rootFields.1] at createTime
    · rcases parts.author with ⟨owner, isOwner, author⟩
      refine ⟨owner, ?_, author⟩
      rwa [ownerOf, rootFields.2] at isOwner
    · rw [parts.version, agree.heads]
    · rw [parts.previousVersion, newVersion_eq_of_perm permDeps]
    · rw [parts.updateTime, agree.maxClock]
    · rw [← parts.title, titleOf, titleOf, agree.state.get ["title"] (by simp)]
    · exact search'
    · rw [parts.editors, editors_eq]
  · rw [← children]
    apply hydrateChildren_congr
    · exact rfl
    · exact (originsOf_eq_of_perm apart perm).symm
    · exact rfl
    · exact fun block => (agree.state.getWithOrigin ["blocks", block] (by simp)).symm

theorem OriginsApart.perm {changes changes' : List (String × Hyper.Change)}
    (apart : OriginsApart changes) (perm : changes.Perm changes') : OriginsApart changes' :=
  (perm.map _).nodup_iff.mp apart

theorem RootsAgree.perm {changes changes' : List (String × Hyper.Change)}
    (roots : RootsAgree changes) (perm : changes.Perm changes') : RootsAgree changes' :=
  fun root member root' member' =>
    roots root (perm.mem_iff.mpr member) root' (perm.mem_iff.mpr member')

/-- Both stores have the same delegations. -/
theorem SameDelegations.symm {changes changes' : List (String × Hyper.Change)}
    (same : SameDelegations F s s' changes) (perm : changes.Perm changes') :
    SameDelegations F s' s changes' :=
  fun change member kd => (same change (perm.mem_iff.mpr member) kd).symm

/--
Two nodes that load the same changes of a document make the same message of it: neither the
order of the changes of one time nor the keys of the nodes nor their other blobs are seen.
-/
theorem replicas_render_alike {rows rows' : RowOrder} {wall wall' : Nat → Int}
    {selected selected' : StructuralBlobRow → Bool}
    (returns : (loadSelected F rows s wall id selected).Returns (some e))
    (returns' : (loadSelected F rows' s' wall' id selected').Returns (some e'))
    (selects : ∀ change, Selects F s selected change ↔ Selects F s' selected' change)
    (apart : OriginsApart e.changes) (decoded : ∀ change ∈ e.changes, Decoded change.2.patch)
    (roots : RootsAgree e.changes) (same : SameDelegations F s s' e.changes)
    (named : delegation ≠ "") (named' : delegation' ≠ "") :
    Attempt.Settles
        (fun fuel => renderEntity F s unmarshal order fuel K e signer delegation) msg ↔
      Attempt.Settles
        (fun fuel => renderEntity F s' unmarshal order' fuel K e' signer' delegation') msg := by
  have loaded := (loaded_of_loadSelected returns).1
  have loaded' := (loaded_of_loadSelected returns').1
  have perm := perm_of_loadSelected returns returns' selects
  constructor
  · exact settles_of_perm loaded loaded' perm apart decoded roots same named'
  · apply settles_of_perm loaded' loaded perm.symm (apart.perm perm) _ (roots.perm perm)
      (same.symm perm) named
    exact fun change member => decoded change (perm.mem_iff.mpr member)

end Nodes

/-! ## A document that two devices edit at one time -/

theorem decoded_of_nested {patch : Object} (unique : (patch.map Prod.fst).Nodup)
    (inner : ∀ next ∈ Map.nestedFields [] patch, (next.1.map Prod.fst).Nodup ∧
      Map.nestedFields next.2 next.1 = []) : Decoded patch := by
  intro front reached
  rcases below_iff.mp reached with rfl | ⟨next, member, below⟩
  · exact unique
  · rcases below_iff.mp below with rfl | ⟨deeper, isDeeper, -⟩
    · exact (inner _ member).1
    · rw [(inner _ member).2] at isDeeper
      exact absurd isDeeper List.not_mem_nil

/-- A list of one move to the beginning. -/
def movedTo (block parent : String) : Value :=
  .map [("#list", .map [("#ins", .list [.map [("b", .string block), ("l", .string ""),
    ("p", .string parent)]])])]

/-- The text of a block, as it is written into a patch. -/
def blockText (block text : String) : Value :=
  .map [(block, .map [("#map", .map [("text", .string text)])])]

/-- A change of the document by one of the devices. -/
def deviceChange (device : UInt8) (deps : List String) (hlcTime : Int) (patch : Object) :
    Hyper.Change where
  deps := deps
  delegation := "cdelegation1"
  action := "Update"
  hlcTime := hlcTime
  entity := "hm://d/doc"
  patch := patch
  signer := samplePrincipal device
  sig := ""

/-- The document with one block, a second block and another title at one time. -/
def documentChanges : List (String × Hyper.Change) :=
  [("croot12345", deviceChange 11 [] 5 [("blocks", blockText "b1" "one"), ("createTime", .int 1),
      ("moves", movedTo "b1" ""), ("owner", .bytes (samplePrincipal 1)),
      ("title", .string "Title")]),
    ("cleft12345", deviceChange 11 ["croot12345"] 6 [("blocks", blockText "b2" "two"),
      ("moves", movedTo "b2" "b1"), ("title", .string "Left")]),
    ("cright1234", deviceChange 12 ["croot12345"] 6 [("title", .string "Right")])]

theorem documentChanges_decoded : ∀ change ∈ documentChanges, Decoded change.2.patch := by
  intro change member
  simp only [documentChanges, List.mem_cons, List.not_mem_nil, or_false] at member
  rcases member with rfl | rfl | rfl <;> exact decoded_of_nested (by decide) (by decide)

theorem documentChanges_roots : RootsAgree documentChanges := by
  intro root member root' member' isRoot isRoot'
  simp only [documentChanges, List.mem_cons, List.not_mem_nil, or_false] at member member'
  rcases member with rfl | rfl | rfl
  · rcases member' with rfl | rfl | rfl
    · exact ⟨rfl, rfl⟩
    · cases isRoot'
    · cases isRoot'
  · cases isRoot
  · cases isRoot

/-- A store with the document and the delegations of its devices. -/
def documentStore : Store DecodedBlob :=
  { storeOf documentChanges with
    blobs := (storeOf documentChanges).blobs ++
      [⟨3, "delegation1", dagCbor, some (.keyDelegation (sampleDelegation 1 11)), 1⟩] }

theorem sameDelegations_reversed (F : Formats DecodedBlob) (s : Store DecodedBlob)
    (changes : List (String × Hyper.Change)) : SameDelegations F s s.reversed changes :=
  fun _ _ _ => Iff.rfl

/-- The document, loaded as the rows are stored. -/
def titledLast : LoadedFrom documentStore := .of (by decide +kernel)

/-- The document, loaded from the rows in reverse order. -/
def titledFirst : LoadedFrom documentStore.reversed := .of (by decide +kernel)

/-- What a device of a node makes of a document. -/
def renderedBy (device : UInt8) (s : Store DecodedBlob) (e : Entity) (fuel : Nat) :
    Attempt (DocumentMessage Object) :=
  renderEntity (sampleFormats sampleSha256) s (fun object => .ok object) .listed fuel
    sampleFracdex e ⟨samplePrincipal device, fun _ => .ok "sig"⟩ "cdelegation1"

theorem replicas_render_alike_documentStore :
    titledLast.val.changes ≠ titledFirst.val.changes ∧
      (renderedBy 11 documentStore titledLast.val 20).returned.map DocumentMessage.title =
        some "Right" ∧
      ∀ msg, Attempt.Settles (renderedBy 11 documentStore titledLast.val) msg ↔
        Attempt.Settles (renderedBy 12 documentStore.reversed titledFirst.val) msg := by
  have changes_eq : titledLast.val.changes = documentChanges := by decide +kernel
  refine ⟨by decide +kernel, by decide +kernel, fun msg => ?_⟩
  apply replicas_render_alike titledLast.returns titledFirst.returns selects_reversed_iff
  · rw [changes_eq, OriginsApart]
    decide +kernel
  · rw [changes_eq]
    exact documentChanges_decoded
  · rw [changes_eq]
    exact documentChanges_roots
  · exact sameDelegations_reversed _ _ _
  · decide
  · decide

end Mintter.Docmodel
