import Mintter.Foundation.Reaches

/-!
# Saving a draft while it is edited

The draft machine waits for a pause in the changes, then saves the draft: it
sends the title of its context and the blocks of the editor to the backend.
Changes that arrive during a save are noted in the context, and the save is
repeated.

The blocks, their comparison with the blocks of the draft and the backend's
meaning of a change of blocks are parameters: the machine only hands them on.
-/

namespace Mintter.Frontend

open Mintter.Foundation

section Machine

variable (Blocks BlocksMap BlockChange : Type)

/-- What a save needs of the blocks. -/
structure BlockService where
  /-- The map of a tree of blocks, with `''` as the parent of its roots. -/
  createBlocksMap : Blocks → BlocksMap
  noBlocks : BlocksMap
  /-- The changes of `compareBlocksWithMap` and then those of `extractDeletes`. -/
  compareBlocks : BlocksMap → Blocks → List BlockChange
  /-- The backend's meaning of a change, unless it refuses the change. -/
  applyChange : Blocks → BlockChange → Option Blocks

/-- A draft, as far as the machine reads it. -/
structure Document where
  title : String
  children : Blocks
deriving DecidableEq

/-- What an edit changes: the title or a block. -/
inductive DocumentChange where
  | setTitle (title : String)
  | block (change : BlockChange)
deriving DecidableEq

/-- What `updateDraft` resolves with. -/
inductive UpdateDraftOutput where
  | response (updatedDocument : Document Blocks)
  | text (message : String)

/-- The context of the machine. -/
structure Context where
  blocksMap : BlocksMap
  hasChangedWhileSaving : Bool
  draft : Option (Document Blocks)
  title : String
  errorMessage : String
  restoreTries : Nat
  changed : Option Bool

/-- The states of the machine; the last six are the states of `ready`. -/
inductive DraftState where
  | fetching
  | mountingEditor
  | error
  | idle
  | changed
  | saving
  | saveError
  | restoring
  | resetting
deriving DecidableEq

/--
The events of the machine, with the ends of its delays and of its actors.  The
events that only reload the page or leave it are left out.
-/
inductive DraftEvent where
  | change (title : Option String)
  | resetDraft
  | restoreDraft
  | getDraftError
  | getDraftRetry
  | getDraftSuccess (draft : Document Blocks)
  | saveOnExit
  | editorMounted
  | autosaveTimeout
  | updateDraftDone (output : UpdateDraftOutput Blocks)
  | updateDraftError
  | restoreDraftError
  | resetDraftError

/-- The actors that a state invokes when it is entered. -/
inductive Actor where
  | updateDraft
  | restoreDraft
  | resetDraft
deriving DecidableEq

/-- The state of the machine and its context. -/
structure Machine where
  state : DraftState
  context : Context Blocks BlocksMap

end Machine

variable {Blocks BlocksMap BlockChange : Type}

/-! ## The actions -/

namespace Context

variable (context : Context Blocks BlocksMap)

/-- Note that the editor changed while a draft is being saved. -/
def setHasChangedWhileSaving : Context Blocks BlocksMap :=
  { context with hasChangedWhileSaving := true }

/-- Forget that the editor changed. -/
def resetChangeWhileSaving : Context Blocks BlocksMap :=
  { context with hasChangedWhileSaving := false }

/-- The assigned value is undefined when the context is already changed. -/
def setchanged : Context Blocks BlocksMap :=
  { context with
    changed := if context.changed = some true then none else some true }

/-- An empty title is false in a condition, so it is treated as a missing one. -/
def setTitle (title : Option String) : Context Blocks BlocksMap :=
  match title with
  | some title => if title = "" then context else { context with title }
  | none => context

@[simp]
theorem setTitle_draft (title : Option String) :
    (context.setTitle title).draft = context.draft := by
  cases title with
  | none => rfl
  | some title =>
      rw [setTitle]
      split <;> rfl

@[simp]
theorem setTitle_hasChangedWhileSaving (title : Option String) :
    (context.setTitle title).hasChangedWhileSaving =
      context.hasChangedWhileSaving := by
  cases title with
  | none => rfl
  | some title =>
      rw [setTitle]
      split <;> rfl

theorem setTitle_title (title : Option String) :
    (context.setTitle title).title =
      if title.getD "" = "" then context.title else title.getD "" := by
  cases title with
  | none => rfl
  | some title =>
      rw [setTitle]
      split
      · next isEmpty => exact (if_pos isEmpty).symm
      · next nonempty => exact (if_neg nonempty).symm

/-- Take the draft that was fetched. -/
def setCurrentDraft (draft : Document Blocks) : Context Blocks BlocksMap :=
  { context with draft := some draft }

/-- Take the blocks and the title of the draft as the ones that are saved. -/
def setCurrentBlocksmap (S : BlockService Blocks BlocksMap BlockChange)
    (draft : Document Blocks) : Context Blocks BlocksMap :=
  { context with
    blocksMap := S.createBlocksMap draft.children
    title := draft.title }

/-- Take the answer of the server as what is saved. -/
def updateContextAfterSave (S : BlockService Blocks BlocksMap BlockChange) :
    UpdateDraftOutput Blocks → Context Blocks BlocksMap
  | .response updatedDocument =>
      { context with
        blocksMap := S.createBlocksMap updatedDocument.children
        draft := some updatedDocument
        hasChangedWhileSaving := false
        title := updatedDocument.title }
  | .text _ => context

/-- Show an error; the text of the error itself is not in it. -/
def setError : Context Blocks BlocksMap :=
  { context with errorMessage := "ERROR: " }

/-- Count one try more to restore the draft. -/
def incrementRestoreTries : Context Blocks BlocksMap :=
  { context with restoreTries := context.restoreTries + 1 }

end Context

/-! ## The transitions -/

namespace Machine

variable (S : BlockService Blocks BlocksMap BlockChange)

/-- The machine before the draft was fetched. -/
def initial : Machine Blocks BlocksMap :=
  ⟨.fetching, ⟨S.noBlocks, false, none, "", "", 0, some false⟩⟩

/-- Enter `changed`, which starts the delay of the autosave anew. -/
def enterChanged (context : Context Blocks BlocksMap) :
    Machine Blocks BlocksMap × Option Actor :=
  (⟨.changed, context.setchanged⟩, none)

/-- Enter `saving`: the flag is reset before the save reads the context. -/
def enterSaving (context : Context Blocks BlocksMap) :
    Machine Blocks BlocksMap × Option Actor :=
  (⟨.saving, context.resetChangeWhileSaving⟩, some .updateDraft)

/--
Take one event: the next state and context and the actor that is invoked, whose
input is the next context.  Events without a transition are dropped.
-/
def send (m : Machine Blocks BlocksMap) :
    DraftEvent Blocks → Machine Blocks BlocksMap × Option Actor
  | .getDraftSuccess draft =>
      (⟨.mountingEditor,
        (m.context.setCurrentDraft draft).setCurrentBlocksmap S draft⟩, none)
  | .getDraftError => (⟨.error, m.context.setError⟩, none)
  | .saveOnExit => enterSaving m.context
  | .getDraftRetry =>
      if m.state = .error then
        (⟨.fetching, { m.context with
          blocksMap := S.noBlocks
          hasChangedWhileSaving := false
          draft := none }⟩, none)
      else (m, none)
  | .editorMounted =>
      if m.state = .mountingEditor then (⟨.idle, m.context⟩, none)
      else (m, none)
  | .change title =>
      match m.state with
      | .idle | .changed => enterChanged (m.context.setTitle title)
      | .saving =>
          (⟨.saving, m.context.setHasChangedWhileSaving.setTitle title⟩, none)
      | _ => (m, none)
  | .autosaveTimeout =>
      if m.state = .changed then enterSaving m.context else (m, none)
  | .updateDraftDone output =>
      if m.state = .saving then
        if m.context.hasChangedWhileSaving then
          enterSaving (m.context.updateContextAfterSave S output)
        else
          match output with
          | .text _ => (⟨.idle, m.context⟩, none)
          | .response updatedDocument =>
              (⟨.idle, m.context.updateContextAfterSave S
                (.response updatedDocument)⟩, none)
      else (m, none)
  | .updateDraftError =>
      if m.state = .saving then (⟨.saveError, m.context⟩, none) else (m, none)
  | .resetDraft =>
      if m.state = .saveError then
        (⟨.resetting, m.context⟩, some .resetDraft)
      else (m, none)
  | .restoreDraft =>
      if m.state = .saveError then
        (⟨.restoring, m.context.incrementRestoreTries⟩, some .restoreDraft)
      else (m, none)
  | .restoreDraftError =>
      if m.state = .restoring then (⟨.saveError, m.context⟩, none)
      else (m, none)
  | .resetDraftError =>
      if m.state = .resetting then (⟨.saveError, m.context⟩, none)
      else (m, none)

end Machine

/-! ## Sessions of the editor -/

section Session

variable (Blocks BlocksMap BlockChange)

/-- A save: the title it sends, how many of the editor's changes it has read,
and the changes it sends. -/
structure Save where
  title : String
  editorChanges : Nat
  changes : List (DocumentChange BlockChange)
deriving DecidableEq

/-- The machine, the editor and the backend's draft, with the save in flight. -/
structure Session where
  machine : Machine Blocks BlocksMap
  editor : Blocks
  backend : Document Blocks
  running : Option (Save BlockChange)
  /-- How many changes the editor has reported. -/
  editorChanges : Nat
  /-- The title of the last change that carried one. -/
  lastTitle : Option String
  /-- The saves that succeeded, the newest first. -/
  succeeded : List (Save BlockChange)

/-- What happens in a session. -/
inductive SessionEvent where
  | edit (blocks : Blocks)
  | typeTitle (title : String)
  | timer
  | completed
  | failed

end Session

variable (S : BlockService Blocks BlocksMap BlockChange)

/-- The backend's meaning of one change. -/
def Document.applyChange (doc : Document Blocks) :
    DocumentChange BlockChange → Option (Document Blocks)
  | .setTitle title => some { doc with title }
  | .block change =>
      (S.applyChange doc.children change).map fun children =>
        { doc with children }

/-- The changes that `updateDraft` sends. -/
def updateDraft (context : Context Blocks BlocksMap) (editor : Blocks) :
    List (DocumentChange BlockChange) :=
  let changes := (S.compareBlocks context.blocksMap editor).map .block
  if context.draft.map (·.title) ≠ some context.title then
    .setTitle context.title :: changes
  else changes

namespace Session

/-- The machine takes an event; entering `saving` starts a save. -/
def send (s : Session Blocks BlocksMap BlockChange) (event : DraftEvent Blocks) :
    Session Blocks BlocksMap BlockChange :=
  match s.machine.send S event with
  | (machine, some .updateDraft) =>
      { s with
        machine
        running := some ⟨machine.context.title, s.editorChanges,
          updateDraft S machine.context s.editor⟩ }
  | (machine, _) => { s with machine }

/-- A save has succeeded and leaves the backend with the draft `doc`. -/
def finished (s : Session Blocks BlocksMap BlockChange) (save : Save BlockChange)
    (doc : Document Blocks) : Session Blocks BlocksMap BlockChange :=
  { s with backend := doc, running := none, succeeded := save :: s.succeeded }

/-- One thing happens, unless it cannot happen in this state. -/
def step (s : Session Blocks BlocksMap BlockChange) :
    SessionEvent Blocks → Option (Session Blocks BlocksMap BlockChange)
  | .edit blocks =>
      some (send S { s with editor := blocks, editorChanges := s.editorChanges + 1 }
        (.change none))
  | .typeTitle title =>
      some (send S { s with lastTitle := some title } (.change (some title)))
  | .timer =>
      if s.machine.state = .changed then some (send S s .autosaveTimeout)
      else none
  | .completed =>
      s.running.bind fun save =>
        if save.changes.isEmpty then
          some (send S (s.finished save s.backend)
            (.updateDraftDone (.text "No changes applied.")))
        else
          (save.changes.foldlM (Document.applyChange S) s.backend).map fun doc =>
            send S (s.finished save doc) (.updateDraftDone (.response doc))
  | .failed =>
      s.running.map fun _ =>
        send S { s with running := none } .updateDraftError

/-- The editor has loaded the backend's draft and waits for the first change. -/
def opened (draft : Document Blocks) (editor : Blocks) :
    Session Blocks BlocksMap BlockChange where
  machine :=
    (((Machine.initial S).send S (.getDraftSuccess draft)).1.send S
      .editorMounted).1
  editor
  backend := draft
  running := none
  editorChanges := 0
  lastTitle := none
  succeeded := []

end Session

/-! ## Nothing is lost -/

section Saved

variable {S : BlockService Blocks BlocksMap BlockChange}
variable {s t : Session Blocks BlocksMap BlockChange}
variable {save : Save BlockChange} {doc doc' : Document Blocks}

/-- Every change of the editor was read by a save that succeeded. -/
def Session.EditsSaved (s : Session Blocks BlocksMap BlockChange) : Prop :=
  ∀ change < s.editorChanges, ∃ save ∈ s.succeeded, change < save.editorChanges

/--
The title of the last change that carried one is the title of the last save
that succeeded, and the title that the backend has.
-/
def Session.TitleSaved (s : Session Blocks BlocksMap BlockChange) : Prop :=
  ∀ title, s.lastTitle = some title →
    s.backend.title = title ∧ s.succeeded.head?.map (·.title) = some title

/--
A title that is typed is the one the context has, or it is not empty and no save
that sends changes is in flight.
-/
def Session.KeepsTitle (s : Session Blocks BlocksMap BlockChange) :
    SessionEvent Blocks → Prop
  | .typeTitle title =>
      title = s.machine.context.title ∨
        (title ≠ "" ∧ ∀ save, s.running = some save → save.changes = [])
  | _ => True

/-! ### What the events do -/

/-- Enter `saving` and start a save. -/
def Session.startSave (S : BlockService Blocks BlocksMap BlockChange)
    (s : Session Blocks BlocksMap BlockChange)
    (context : Context Blocks BlocksMap) :
    Session Blocks BlocksMap BlockChange :=
  { s with
    machine := ⟨.saving, context.resetChangeWhileSaving⟩
    running := some ⟨context.title, s.editorChanges,
      updateDraft S context.resetChangeWhileSaving s.editor⟩ }

namespace Session

theorem send_change_waiting
    (waiting : s.machine.state = .idle ∨ s.machine.state = .changed)
    (title : Option String) :
    s.send S (.change title) =
      { s with
        machine := ⟨.changed, (s.machine.context.setTitle title).setchanged⟩ } := by
  rcases waiting with state | state <;>
    simp only [send, Machine.send, state, Machine.enterChanged]

theorem send_change_saving (state : s.machine.state = .saving)
    (title : Option String) :
    s.send S (.change title) =
      { s with
        machine := ⟨.saving,
          s.machine.context.setHasChangedWhileSaving.setTitle title⟩ } := by
  simp only [send, Machine.send, state]

theorem send_change_saveError (state : s.machine.state = .saveError)
    (title : Option String) : s.send S (.change title) = s := by
  simp only [send, Machine.send, state]

theorem send_autosaveTimeout (state : s.machine.state = .changed) :
    s.send S .autosaveTimeout = s.startSave S s.machine.context := by
  simp only [send, Machine.send, state, if_true]
  rfl

/-- The save is repeated when something changed meanwhile. -/
theorem send_done_again (state : s.machine.state = .saving)
    (noted : s.machine.context.hasChangedWhileSaving = true)
    (output : UpdateDraftOutput Blocks) :
    s.send S (.updateDraftDone output) =
      s.startSave S (s.machine.context.updateContextAfterSave S output) := by
  simp only [send, Machine.send, state, noted, if_true]
  rfl

theorem send_done_idle (state : s.machine.state = .saving)
    (unnoted : s.machine.context.hasChangedWhileSaving = false)
    (output : UpdateDraftOutput Blocks) :
    s.send S (.updateDraftDone output) =
      { s with
        machine := ⟨.idle,
          s.machine.context.updateContextAfterSave S output⟩ } := by
  cases output <;>
    simp [send, Machine.send, state, unnoted, Context.updateContextAfterSave]

theorem send_failed (state : s.machine.state = .saving) :
    s.send S .updateDraftError =
      { s with machine := ⟨.saveError, s.machine.context⟩ } := by
  simp only [send, Machine.send, state, if_true]

/-- The backend's draft after a save and the output of the save. -/
inductive Replies (S : BlockService Blocks BlocksMap BlockChange)
    (backend : Document Blocks) (save : Save BlockChange) :
    Document Blocks → UpdateDraftOutput Blocks → Prop where
  | unchanged (nothing : save.changes = []) :
      Replies S backend save backend (.text "No changes applied.")
  | changed {after : Document Blocks} (something : save.changes ≠ [])
      (applied :
        save.changes.foldlM (Document.applyChange S) backend = some after) :
      Replies S backend save after (.response after)

theorem completed_cases (stepped : s.step S .completed = some t) :
    ∃ save doc output,
      s.running = some save ∧ Replies S s.backend save doc output ∧
        t = send S (s.finished save doc) (.updateDraftDone output) := by
  rw [step] at stepped
  rcases Option.bind_eq_some_iff.mp stepped with ⟨save, running, replied⟩
  split at replied
  · next nothing =>
      exact ⟨save, s.backend, _, running,
        .unchanged (List.isEmpty_iff.mp nothing), (Option.some.inj replied).symm⟩
  · next something =>
      rcases Option.map_eq_some_iff.mp replied with ⟨doc, applied, isNext⟩
      exact ⟨save, doc, _, running,
        .changed (fun none => something (List.isEmpty_iff.mpr none)) applied,
        isNext.symm⟩

end Session

/-! ### The changes of the editor -/

/-- What a run keeps about the changes of the editor. -/
def Session.EditsTracked (s : Session Blocks BlocksMap BlockChange) : Prop :=
  match s.machine.state with
  | .idle => s.running = none ∧ s.EditsSaved
  | .changed | .saveError => s.running = none
  | .saving =>
      ∃ save, s.running = some save ∧
        (s.machine.context.hasChangedWhileSaving = false →
          save.editorChanges = s.editorChanges)
  | _ => False


namespace Session

/-- The editor reported a change: every state but `saveError` leads to a save. -/
theorem EditsTracked.change {title : Option String}
    (tracked : s.EditsTracked) (editor : Blocks) (lastTitle : Option String)
    {editorChanges : Nat} :
    (send S { s with editor, editorChanges, lastTitle }
      (.change title)).EditsTracked := by
  let next : Session Blocks BlocksMap BlockChange :=
    { s with editor, editorChanges, lastTitle }
  cases state : s.machine.state <;>
    simp only [EditsTracked, state] at tracked
  case idle =>
    rw [send_change_waiting (s := next) (.inl state)]
    exact tracked.1
  case changed =>
    rw [send_change_waiting (s := next) (.inr state)]
    exact tracked
  case saving =>
    rcases tracked with ⟨save, running, -⟩
    rw [send_change_saving (s := next) state]
    refine ⟨save, running, fun unnoted => ?_⟩
    rw [Context.setTitle_hasChangedWhileSaving] at unnoted
    cases unnoted
  case saveError =>
    rw [send_change_saveError (s := next) state]
    simpa only [EditsTracked, next, state] using tracked

theorem EditsTracked.step {event : SessionEvent Blocks}
    (tracked : s.EditsTracked) (stepped : s.step S event = some t) :
    t.EditsTracked := by
  cases event with
  | edit blocks =>
      rw [← Option.some.inj stepped]
      exact tracked.change blocks s.lastTitle
  | typeTitle title =>
      rw [← Option.some.inj stepped]
      exact tracked.change s.editor (some title)
  | timer =>
      rw [Session.step] at stepped
      split at stepped
      · next state =>
          rw [← Option.some.inj stepped, send_autosaveTimeout state]
          exact ⟨_, rfl, fun _ => rfl⟩
      · cases stepped
  | completed =>
      rcases completed_cases stepped with ⟨save, doc, output, running, -, rfl⟩
      have state : s.machine.state = .saving := by
        cases state : s.machine.state <;>
          simp_all [EditsTracked]
      simp only [EditsTracked, state] at tracked
      rcases tracked with ⟨save', running', readAll⟩
      cases running.symm.trans running'
      cases noted : s.machine.context.hasChangedWhileSaving with
      | true =>
          rw [send_done_again (s := s.finished save doc) state noted]
          exact ⟨_, rfl, fun _ => rfl⟩
      | false =>
          rw [send_done_idle (s := s.finished save doc) state noted]
          exact ⟨rfl, fun change before =>
            ⟨save, List.mem_cons_self .., (readAll noted).symm ▸ before⟩⟩
  | failed =>
      rcases Option.map_eq_some_iff.mp stepped with ⟨save, running, rfl⟩
      have state : s.machine.state = .saving := by
        cases state : s.machine.state <;>
          simp_all [EditsTracked]
      rw [send_failed (s := { s with running := none }) state]
      exact rfl

end Session

/-! ### The title -/

theorem title_of_blockChanges {changes : List BlockChange}
    (applied : (changes.map DocumentChange.block).foldlM
      (Document.applyChange S) doc = some doc') :
    doc'.title = doc.title := by
  induction changes generalizing doc with
  | nil =>
      rw [List.map_nil, List.foldlM_nil] at applied
      exact (Option.some.inj applied) ▸ rfl
  | cons change changes induction =>
      rw [List.map_cons, List.foldlM_cons] at applied
      rcases Option.bind_eq_some_iff.mp applied with ⟨next, first, rest⟩
      rcases Option.map_eq_some_iff.mp first with ⟨children, -, rfl⟩
      have sameTitle := induction rest
      exact sameTitle

/-- After the changes of a save the draft has the title of the context. -/
theorem updateDraft_title (context : Context Blocks BlocksMap) {editor : Blocks}
    (draft : context.draft = some doc)
    (applied : (updateDraft S context editor).foldlM
      (Document.applyChange S) doc = some doc') :
    doc'.title = context.title := by
  rw [updateDraft, draft] at applied
  simp only [Option.map_some, ne_eq, Option.some.injEq] at applied
  split at applied
  · rw [List.foldlM_cons] at applied
    exact title_of_blockChanges applied
  · next same => rw [title_of_blockChanges applied, Classical.not_not.mp same]

/-- The context has the backend's draft and the title that was typed last. -/
structure Session.InContext (s : Session Blocks BlocksMap BlockChange) : Prop where
  draft : s.machine.context.draft = some s.backend
  title : ∀ title, s.lastTitle = some title → s.machine.context.title = title

/-- What a run keeps about the title. -/
def Session.TitleTracked (S : BlockService Blocks BlocksMap BlockChange)
    (s : Session Blocks BlocksMap BlockChange) : Prop :=
  match s.machine.state with
  | .idle => s.InContext ∧ s.running = none ∧ s.TitleSaved
  | .changed => s.InContext ∧ s.running = none
  | .saving =>
      s.InContext ∧ ∃ save, s.running = some save ∧
        (∀ doc, save.changes.foldlM (Document.applyChange S) s.backend = some doc →
          doc.title = save.title) ∧
        (s.machine.context.hasChangedWhileSaving = false ∨ save.changes ≠ [] →
          s.machine.context.title = save.title)
  | .saveError => s.running = none
  | _ => False

namespace Session

theorem InContext.startSave {context : Context Blocks BlocksMap}
    (draft : context.draft = some s.backend)
    (title : ∀ title, s.lastTitle = some title → context.title = title) :
    (s.startSave S context).TitleTracked S :=
  ⟨⟨draft, title⟩, _, rfl, fun _ applied => updateDraft_title (S := S)
    context.resetChangeWhileSaving draft applied, fun _ => rfl⟩

/-- The title of the context after a change that keeps titles. -/
theorem InContext.change {title : Option String} (inContext : s.InContext)
    (kept : ∀ typed, title = some typed →
      typed = s.machine.context.title ∨ typed ≠ "") :
    (s.machine.context.setTitle title).draft = some s.backend ∧
      ∀ typed, title.or s.lastTitle = some typed →
        (s.machine.context.setTitle title).title = typed := by
  refine ⟨(Context.setTitle_draft ..).trans inContext.draft, ?_⟩
  intro typed isLast
  rw [Context.setTitle_title]
  cases title with
  | none => exact inContext.title typed isLast
  | some title =>
      cases isLast
      show (if typed = "" then s.machine.context.title else typed) = typed
      split
      · next isEmpty =>
          rcases kept typed rfl with same | nonempty
          · exact same.symm
          · exact absurd isEmpty nonempty
      · rfl

theorem TitleTracked.change {title : Option String}
    (tracked : s.TitleTracked S) (editor : Blocks) (editorChanges : Nat)
    (kept : ∀ typed, title = some typed → s.KeepsTitle (.typeTitle typed)) :
    (send S
      { s with editor, editorChanges, lastTitle := title.or s.lastTitle }
      (.change title)).TitleTracked S := by
  let next : Session Blocks BlocksMap BlockChange :=
    { s with editor, editorChanges, lastTitle := title.or s.lastTitle }
  have kept' : ∀ typed, title = some typed →
      typed = s.machine.context.title ∨ typed ≠ "" :=
    fun typed isTyped => (kept typed isTyped).imp_right And.left
  cases state : s.machine.state <;>
    simp only [TitleTracked, state] at tracked
  case idle =>
    rcases tracked with ⟨inContext, idle, -⟩
    rcases inContext.change kept' with ⟨draft, isTitle⟩
    rw [send_change_waiting (s := next) (.inl state)]
    exact ⟨⟨draft, isTitle⟩, idle⟩
  case changed =>
    rcases tracked with ⟨inContext, idle⟩
    rcases inContext.change kept' with ⟨draft, isTitle⟩
    rw [send_change_waiting (s := next) (.inr state)]
    exact ⟨⟨draft, isTitle⟩, idle⟩
  case saving =>
    rcases tracked with ⟨inContext, save, running, sends, isSent⟩
    rcases inContext.change kept' with ⟨draft, isTitle⟩
    rw [send_change_saving (s := next) state]
    have title_eq :
        (s.machine.context.setHasChangedWhileSaving.setTitle title).title =
          (s.machine.context.setTitle title).title := by
      rw [Context.setTitle_title, Context.setTitle_title]
      rfl
    have draft_eq :
        (s.machine.context.setHasChangedWhileSaving.setTitle title).draft =
          some s.backend :=
      (Context.setTitle_draft ..).trans inContext.draft
    refine ⟨⟨draft_eq, fun typed isLast => title_eq.trans (isTitle typed isLast)⟩,
      save, running, sends, ?_⟩
    rintro (unnoted | something)
    · rw [Context.setTitle_hasChangedWhileSaving] at unnoted
      cases unnoted
    · -- A save that sends changes is in flight, so the title is the old one.
      rw [title_eq, ← isSent (.inr something), Context.setTitle_title]
      split
      · rfl
      · next nonempty =>
          cases title with
          | none => exact absurd rfl nonempty
          | some title =>
              rcases kept title rfl with same | ⟨-, nothing⟩
              · exact same
              · exact absurd (nothing save running) something
  case saveError =>
    rw [send_change_saveError (s := next) state]
    simpa only [TitleTracked, next, state] using tracked

/-- The title after a save that replied. -/
theorem TitleTracked.replied {output : UpdateDraftOutput Blocks}
    (tracked : s.TitleTracked S) (state : s.machine.state = .saving)
    (running : s.running = some save)
    (replies : Replies S s.backend save doc output) :
    doc.title = save.title ∧
      (s.machine.context.updateContextAfterSave S output).draft = some doc ∧
      ∀ title, s.lastTitle = some title →
        (s.machine.context.updateContextAfterSave S output).title = title := by
  simp only [TitleTracked, state] at tracked
  rcases tracked with ⟨inContext, save', running', sends, isSent⟩
  cases running.symm.trans running'
  cases replies with
  | unchanged nothing =>
      refine ⟨sends _ ?_, inContext.draft, inContext.title⟩
      rw [nothing, List.foldlM_nil]
      rfl
  | changed something applied =>
      have sent := sends _ applied
      exact ⟨sent, rfl, fun title isLast =>
        (sent.trans (isSent (.inr something)).symm).trans
          (inContext.title title isLast)⟩

theorem TitleTracked.step {event : SessionEvent Blocks}
    (tracked : s.TitleTracked S) (kept : s.KeepsTitle event)
    (stepped : s.step S event = some t) : t.TitleTracked S := by
  cases event with
  | edit blocks =>
      rw [← Option.some.inj stepped]
      exact tracked.change blocks _ fun _ isTyped => nomatch isTyped
  | typeTitle title =>
      rw [← Option.some.inj stepped]
      exact tracked.change s.editor _ fun _ isTyped => Option.some.inj isTyped ▸ kept
  | timer =>
      rw [Session.step] at stepped
      split at stepped
      · next state =>
          simp only [TitleTracked, state] at tracked
          rw [← Option.some.inj stepped, send_autosaveTimeout state]
          exact InContext.startSave tracked.1.draft tracked.1.title
      · cases stepped
  | completed =>
      rcases completed_cases stepped with ⟨save, doc, output, running, replies, rfl⟩
      have state : s.machine.state = .saving := by
        cases state : s.machine.state <;>
          simp_all [TitleTracked]
      rcases tracked.replied state running replies with ⟨sent, draft, isTitle⟩
      cases noted : s.machine.context.hasChangedWhileSaving with
      | true =>
          rw [send_done_again (s := s.finished save doc) state noted]
          exact InContext.startSave draft isTitle
      | false =>
          rw [send_done_idle (s := s.finished save doc) state noted]
          simp only [TitleTracked, state] at tracked
          rcases tracked with ⟨inContext, save', running', -, isSent⟩
          cases running.symm.trans running'
          refine ⟨⟨draft, isTitle⟩, rfl, fun title isLast => ?_⟩
          have isSaved : save.title = title :=
            (isSent (.inl noted)).symm.trans (inContext.title title isLast)
          exact ⟨sent.trans isSaved, congrArg some isSaved⟩
  | failed =>
      rcases Option.map_eq_some_iff.mp stepped with ⟨save, running, rfl⟩
      have state : s.machine.state = .saving := by
        cases state : s.machine.state <;>
          simp_all [TitleTracked]
      rw [send_failed (s := { s with running := none }) state]
      exact rfl

end Session

/-! ### Whole sessions -/

/--
Whenever no change waits and no save is in flight, every change of the editor
was saved; in the sessions whose typed titles are all kept, so was the last
title.
-/
theorem autosave_saves (S : BlockService Blocks BlocksMap BlockChange)
    (draft : Document Blocks) (editor : Blocks) :
    (∀ s, Reaches (Session.step S) (fun _ _ => True)
        (Session.opened S draft editor) s →
      s.machine.state = .idle → s.running = none ∧ s.EditsSaved) ∧
    ∀ s, Reaches (Session.step S) Session.KeepsTitle
        (Session.opened S draft editor) s →
      s.machine.state = .idle → s.TitleSaved := by
  constructor
  · intro s run state
    have tracked : s.EditsTracked := by
      apply run.invariant
      · exact fun _ _ _ tracked _ stepped => tracked.step stepped
      · exact ⟨rfl, fun change before => absurd before (Nat.not_lt_zero change)⟩
    simpa only [Session.EditsTracked, state] using tracked
  · intro s run state
    have tracked : s.TitleTracked S := by
      apply run.invariant
      · exact fun _ _ _ tracked kept stepped => tracked.step kept stepped
      · exact ⟨⟨rfl, fun _ isLast => nomatch isLast⟩, rfl,
          fun _ isLast => nomatch isLast⟩
    simp only [Session.TitleTracked, state] at tracked
    exact tracked.2.2

end Saved

/-! ### Two sessions -/

/-- Blocks that are saved as a whole. -/
def wholeBlocks : BlockService (List String) (List String) (List String) where
  createBlocksMap := id
  noBlocks := []
  compareBlocks old new := if old = new then [] else [new]
  applyChange _ new := some new

/-- A draft with a title and no blocks. -/
def openedDraft : Session (List String) (List String) (List String) :=
  .opened wholeBlocks ⟨"Draft", []⟩ []

/-- A title, and then a block while the title is being saved. -/
def titleThenBlock : List (SessionEvent (List String)) :=
  [.typeTitle "Notes", .timer, .edit ["b1"], .completed, .completed]

theorem titleThenBlock_permitted :
    AllPermitted (Session.step wholeBlocks) Session.KeepsTitle openedDraft
      titleThenBlock :=
  ⟨.inr ⟨by decide, fun _ running => nomatch running⟩, fun _ _ =>
    ⟨trivial, fun _ _ => ⟨trivial, fun _ _ => ⟨trivial, fun _ _ =>
      ⟨trivial, fun _ _ => trivial⟩⟩⟩⟩⟩

theorem autosave_saves_openedDraft :
    ∃ s, performAll (Session.step wholeBlocks) openedDraft titleThenBlock =
        some s ∧
      (s.running = none ∧ s.EditsSaved) ∧ s.TitleSaved :=
  ⟨_, rfl,
    (autosave_saves wholeBlocks ⟨"Draft", []⟩ []).1 _
      (reaches_of_performAll (allPermitted_true titleThenBlock) rfl) rfl,
    (autosave_saves wholeBlocks ⟨"Draft", []⟩ []).2 _
      (reaches_of_performAll titleThenBlock_permitted rfl) rfl⟩

/--
An empty title is not taken into the context, and a title that is typed during a
save is overwritten when the save replies.
-/
theorem typed_titles_are_lost :
    (∃ s, Reaches (Session.step wholeBlocks) (fun _ _ => True) openedDraft s ∧
      s.machine.state = .idle ∧ s.lastTitle = some "" ∧ ¬ s.TitleSaved) ∧
    ∃ s, Reaches (Session.step wholeBlocks) (fun _ _ => True) openedDraft s ∧
      s.machine.state = .idle ∧ s.lastTitle = some "Notes" ∧ ¬ s.TitleSaved := by
  constructor
  · refine ⟨_, reaches_of_performAll (allPermitted_true
      [.typeTitle "", .timer, .completed]) rfl, rfl, rfl, fun saved => ?_⟩
    exact absurd (saved "" rfl).1 (by decide)
  · refine ⟨_, reaches_of_performAll (allPermitted_true
      [.typeTitle "Note", .timer, .typeTitle "Notes", .completed, .completed])
      rfl, rfl, rfl, fun saved => ?_⟩
    exact absurd (saved "Notes" rfl).1 (by decide)

end Mintter.Frontend
