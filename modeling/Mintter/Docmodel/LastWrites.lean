import Mintter.Crdt2.Journal
import Mintter.Docmodel.Contents

/-!
# The last writes of a mutation

A draft is opened, edited and saved again as a change of its entity.  The edits compare what they
write with the state that the draft was put into, and the change is applied to an entity that
never saw the draft.

Both read the same: a patch that is newer than all that an entity has decides what is read at its
paths (`Sound.get_applyPatch`).  So a title or a content is the last one that differed from what
the draft showed, or what it showed (`change_reads_last_new_writes`).
-/

namespace Mintter.Crdt2

open Mintter.Foundation

/-- An object that is no tag is stored as it is. -/
theorem unwrap_map {fields : Object}
    (plain : ∀ key value, fields = [(key, value)] → key ≠ "#list" ∧ key ≠ "#map" ∧ key ≠ "#rga") :
    unwrap (.map fields) = .ok (.primitive, .map fields, some fields) := by
  unfold unwrap
  split
  · next same => exact absurd rfl (plain _ _ (Value.map.inj same)).1
  · next same => exact absurd rfl (plain _ _ (Value.map.inj same)).2.1
  · next same => exact absurd rfl (plain _ _ (Value.map.inj same)).2.2
  · next same =>
      rw [← Value.map.inj same]
      exact rfl
  · next isMap => exact absurd rfl (isMap fields)

namespace Map

section Newest

variable {m m' : Map} {time : Int} {origin : String} {patch : Object} {p : List String}

/-- What is listed is what the patch writes. -/
theorem mem_writes {ws : List Write} (listed : writes patch = .ok ws) (w : Write) :
    w ∈ ws ↔ Writes patch w := by
  rw [writes, ← writesLoopIn_listed] at listed
  rw [mem_writesLoopIn listed]
  simp [Writes, Reached]

/-- The write of a patch at a path, if there is one, is the last one there. -/
theorem getLast?_writes {ws : List Write} (listed : writes patch = .ok ws)
    (decoded : Decoded patch) {w : Write} (made : Writes patch w) (isPath : w.path = p) :
    (ws.filter fun w => w.path = p).getLast? = some w := by
  have member : w ∈ ws.filter fun w => w.path = p := by
    simpa [isPath] using (mem_writes listed w).mpr made
  cases last : (ws.filter fun w => w.path = p).getLast? with
  | none =>
      rw [List.getLast?_eq_none_iff.mp last] at member
      exact absurd member List.not_mem_nil
  | some w' =>
      rcases List.mem_filter.mp (List.mem_of_getLast? last) with ⟨member', isPath'⟩
      have same := made.eq_of_path_eq decoded ((mem_writes listed w').mp member')
        (isPath.trans (of_decide_eq_true isPath').symm)
      rw [same]

/-- A map that has taken a patch is sound again, and the patch can be written. -/
theorem Sound.of_applyPatch (sound : m.Sound)
    (applied : m.applyPatch time origin patch = .ok m') :
    ∃ ws, writes patch = .ok ws ∧ m'.Sound ∧ ∀ p : List String, p.length ≤ 3 →
      m'.versions p = overwrite time origin p ws (m.versions p) := by
  have spec := applyPatch_spec sound time origin patch
  rw [applied] at spec
  cases listed : writes patch with
  | error abort => simp [listed] at spec
  | ok ws =>
      simp only [listed] at spec
      rcases spec with ⟨_, ⟨rfl⟩, sound', versions_eq⟩
      exact ⟨ws, rfl, sound', versions_eq⟩

/-- Every sound map takes a patch that can be written. -/
theorem Sound.takes (sound : m.Sound) {ws : List Write} (listed : writes patch = .ok ws)
    (time : Int) (origin : String) : ∃ m', m.applyPatch time origin patch = .ok m' := by
  have spec := applyPatch_spec sound time origin patch
  simp only [listed] at spec
  rcases spec with ⟨m', applied, -⟩
  exact ⟨m', applied⟩

/-- A patch that is newer than all that a map has at a path decides what is read there. -/
theorem Sound.get_applyPatch (sound : m.Sound) (short : p.length ≤ 3) (named : p ≠ [])
    (decoded : Decoded patch) (future : time < maxInt64) (older : ∀ e ∈ m.versions p, e.time < time)
    (applied : m.applyPatch time origin patch = .ok m') :
    (∀ w, Writes patch w → w.path = p → m'.get p = (w.entry time origin).readable) ∧
      ((∀ w, Writes patch w → w.path ≠ p) → m'.get p = m.get p) := by
  rcases sound.of_applyPatch applied with ⟨ws, listed, sound', versions_eq⟩
  have newest : ∀ e ∈ m.versions p, e.path = p ∧ e.stamp < toLex (time, origin) :=
    fun e member => ⟨(mem_versions.mp member).2, Prod.Lex.lt_iff.mpr (.inl (older e member))⟩
  have inTime : ∀ e ∈ m'.versions p, e.time < maxInt64 := by
    intro e member
    rw [versions_eq p short] at member
    rcases mem_overwrite member with old | isTime
    · exact (older e old).trans future
    · rwa [isTime]
  have reads := sound'.get_eq short named inTime
  rw [versions_eq p short, overwrite_newest newest] at reads
  constructor
  · intro w made isPath
    rw [reads, getLast?_writes listed decoded made isPath]
    simp
  · intro nothing
    have none_there : (ws.filter fun w => w.path = p) = [] := by
      rw [List.filter_eq_nil_iff]
      intro w member isPath
      exact nothing w ((mem_writes listed w).mp member) (of_decide_eq_true isPath)
    rw [reads, none_there, sound.get_eq short named fun e member =>
      (older e member).trans future]
    simp

end Newest

end Map

end Mintter.Crdt2

namespace Mintter.Docmodel

open Mintter.Foundation
open Mintter.Crdt2
open Mintter.Hyper

/-! ## Reading tidy patches -/

/-- The keys that the map takes for tags of a value. -/
def tagKeys : List String := ["#list", "#map", "#rga"]

/-- No block of the patch is named like a tag. -/
def PlainBlocks (patch : Object) : Prop := ∀ tag ∈ tagKeys, contentIn patch tag = none

section Reads

variable {patch : Object} {front : Pending} {m m' : Map} {time : Int} {origin : String}

theorem unwrap_tagged (content : Object) :
    unwrap (tagged content) = .ok (.atomicMap, .map content, none) := rfl

theorem TidyPatch.not_nested (tidy : TidyPatch patch) {field : String × Value}
    (member : field ∈ Docmodel.blocksIn patch) {valueType : MapValueType} {stored : Value}
    {inner : Object} : unwrap field.2 ≠ .ok (valueType, stored, some inner) := by
  rcases tidy.blocksIn.2 field member with ⟨content, isTagged⟩
  rw [isTagged, unwrap_tagged]
  simp

/-- Only the patch and its object of blocks are walked. -/
theorem TidyPatch.reached (tidy : TidyPatch patch) (reached : Reached patch front) :
    front = (patch, []) ∨ front = (Docmodel.blocksIn patch, ["blocks"]) := by
  induction reached with
  | refl => exact .inl rfl
  | @tail above front _ child induction =>
      rcases child with ⟨key, value, valueType, stored, member, unwrapped, path_eq⟩
      rcases induction with rfl | rfl
      · have found := tidy.sorted.mem_iff.mp member
        rw [Map.eq_map_of_unwrap unwrapped] at found
        by_cases isBlocks : key = "blocks"
        · subst isBlocks
          apply Or.inr
          apply Prod.ext
          · simp [Docmodel.blocksIn, found]
          · rw [path_eq, List.nil_append]
        · by_cases isMoves : key = "moves"
          · subst isMoves
            rcases tidy.moves _ found with ⟨moves, isTagged⟩
            rw [Map.eq_map_of_unwrap unwrapped, isTagged] at unwrapped
            cases unwrapped
          · cases tidy.others key _ found isBlocks isMoves
      · exact absurd unwrapped (tidy.not_nested member)

theorem nodup_keys {object : Object} (sorted : object.Sorted) :
    (object.map Prod.fst).Nodup :=
  (List.pairwise_map.mpr sorted).imp fun less => ne_of_lt less

/-- A tidy patch repeats no key. -/
theorem TidyPatch.decoded (tidy : TidyPatch patch) : Decoded patch := by
  intro front reached
  rcases tidy.reached reached with rfl | rfl
  · exact nodup_keys tidy.sorted
  · exact nodup_keys tidy.blocksIn.1

theorem TidyPatch.writes_iff (tidy : TidyPatch patch) {w : Write} : Writes patch w →
    (∃ key value nested, patch.get key = some value ∧
        unwrap value = .ok (w.valueType, w.value, nested) ∧ w.path = [key]) ∨
      ∃ block content, contentIn patch block = some content ∧
        w = ⟨["blocks", block], .atomicMap, .map content⟩ := by
  rintro ⟨front, reached, key, value, nested, member, unwrapped, path_eq⟩
  rcases tidy.reached reached with rfl | rfl
  · exact .inl ⟨key, value, nested, tidy.sorted.mem_iff.mp member, unwrapped, path_eq⟩
  · rcases tidy.blocksIn.2 _ member with ⟨content, isTagged⟩
    simp only at isTagged
    subst isTagged
    rw [unwrap_tagged] at unwrapped
    apply Or.inr
    refine ⟨key, content, (contentIn_eq_some tidy).mpr (tidy.blocksIn.1.mem_iff.mp member), ?_⟩
    cases w
    cases unwrapped
    simp only at path_eq
    rw [path_eq]
    exact rfl

theorem TidyPatch.writes_title (tidy : TidyPatch patch) {title : String}
    (found : patch.get "title" = some (.string title)) :
    Writes patch ⟨["title"], .primitive, .string title⟩ :=
  ⟨(patch, []), .refl, "title", .string title, none, tidy.sorted.mem_iff.mpr found, rfl, rfl⟩

/-- The object of blocks is walked when none of them is named like a tag. -/
theorem TidyPatch.writes_content (tidy : TidyPatch patch) (plain : PlainBlocks patch)
    {block : String} {content : Object} (found : contentIn patch block = some content) :
    Writes patch ⟨["blocks", block], .atomicMap, .map content⟩ := by
  have member := tidy.blocksIn.1.mem_iff.mpr ((contentIn_eq_some tidy).mp found)
  have isThere : patch.get "blocks" = some (.map (Docmodel.blocksIn patch)) := by
    rcases tidy.get_blocks with ⟨-, empty⟩ | isThere
    · rw [empty] at member
      exact absurd member List.not_mem_nil
    · exact isThere
  have walked : unwrap (.map (Docmodel.blocksIn patch)) =
      .ok (.primitive, .map (Docmodel.blocksIn patch), some (Docmodel.blocksIn patch)) := by
    apply unwrap_map
    intro key value alone
    have single : (key, value) ∈ Docmodel.blocksIn patch := by simp [alone]
    have differs : ∀ tag ∈ tagKeys, key ≠ tag := by
      rintro tag isTag rfl
      rcases tidy.blocksIn.2 _ single with ⟨content', isTagged⟩
      have none_there := (contentIn_eq_none tidy).mp (plain key isTag)
      rw [tidy.blocksIn.1.mem_iff.mp single] at none_there
      cases none_there
    exact ⟨differs _ (by simp [tagKeys]), differs _ (by simp [tagKeys]),
      differs _ (by simp [tagKeys])⟩
  refine ⟨(Docmodel.blocksIn patch, ["blocks"]), .single ?_, block, tagged content, none, member,
    rfl, rfl⟩
  exact ⟨"blocks", _, _, _, tidy.sorted.mem_iff.mpr isThere, walked, rfl⟩

/-- After a tidy patch the title is the one of the patch, if it has one. -/
theorem TidyPatch.get_title (tidy : TidyPatch patch) (sound : m.Sound)
    (future : time < Crdt2.maxInt64)
    (older : ∀ e ∈ m.versions ["title"], e.time < time)
    (applied : m.applyPatch time origin patch = .ok m') :
    m'.get ["title"] = (patch.get "title").or (m.get ["title"]) := by
  have reads := sound.get_applyPatch (by simp) (by simp) tidy.decoded future older applied
  cases found : patch.get "title" with
  | some v =>
      rcases tidy.title v found with ⟨title, rfl⟩
      rw [reads.1 _ (tidy.writes_title found) rfl]
      simp [Write.entry, Entry.readable]
  | none =>
      rw [Option.none_or]
      apply reads.2
      intro w made isTitle
      rcases tidy.writes_iff made with ⟨key, value, nested, there, -, path_eq⟩ | ⟨_, _, -, rfl⟩
      · rw [List.singleton_inj.mp (path_eq.symm.trans isTitle), found] at there
        cases there
      · simp at isTitle

/-- After a tidy patch a block has the content of the patch, if it has one. -/
theorem TidyPatch.get_content (tidy : TidyPatch patch) (plain : PlainBlocks patch)
    (sound : m.Sound) (future : time < Crdt2.maxInt64) {block : String}
    (older : ∀ e ∈ m.versions ["blocks", block], e.time < time)
    (applied : m.applyPatch time origin patch = .ok m') :
    m'.get ["blocks", block] =
      ((contentIn patch block).map Value.map).or (m.get ["blocks", block]) := by
  have reads := sound.get_applyPatch (by simp) (by simp) tidy.decoded future older applied
  cases found : contentIn patch block with
  | some content =>
      rw [reads.1 _ (tidy.writes_content plain found) rfl]
      simp [Write.entry, Entry.readable]
  | none =>
      rw [Option.map_none, Option.none_or]
      apply reads.2
      intro w made isBlock
      rcases tidy.writes_iff made with ⟨key, value, nested, -, -, path_eq⟩ |
        ⟨other, content, there, rfl⟩
      · cases path_eq.symm.trans isBlock
      · rw [List.singleton_inj.mp (List.cons.inj isBlock).2, found] at there
        cases there

end Reads

/-! ## What edits leave in the patch -/

section Runs

variable {K : Fracdex} {F : BlockFormat} {start dm dm' : Document} {done done' : List (Edit F)}
    {fuel : Nat}

/-- What the patch holds after edits of a document, which may have pending moves. -/
structure Patched (start : Document) (done : List (Edit F)) (dm : Document) : Prop where
  same : SameBase start dm
  tidy : TidyPatch dm.patch
  content : ∀ block, contentIn dm.patch block =
    (lastNew (fun content => start.e.state.get ["blocks", block] = some (.map content))
      (Edit.writes done block)).or (contentIn start.patch block)
  title : dm.patch.get "title" =
    ((lastNew (fun title => start.e.state.get ["title"] = some (.string title))
      (Edit.titles done)).map Value.string).or (start.patch.get "title")

/-- Before any edit the patch is that of the start. -/
theorem patched_start (tidy : TidyPatch start.patch) :
    Patched start ([] : List (Edit F)) start where
  same := .refl start
  tidy := tidy
  content := fun _ => by simp [Edit.writes, lastNew]
  title := by simp [Edit.titles, lastNew]

/-- A call that leaves the patch and what it was made from alone. -/
structure Untouched (dm dm' : Document) : Prop where
  same : SameBase dm dm'
  patch : dm'.patch = dm.patch

theorem Untouched.trans {dm'' : Document} (first : Untouched dm dm')
    (second : Untouched dm' dm'') : Untouched dm dm'' :=
  ⟨first.same.trans second.same, second.patch.trans first.patch⟩

theorem Patched.keep (patched : Patched start done dm) (untouched : Untouched dm dm')
    (writes_eq : ∀ block, Edit.writes done' block = Edit.writes done block)
    (titles_eq : Edit.titles done' = Edit.titles done) : Patched start done' dm' where
  same := patched.same.trans untouched.same
  tidy := untouched.patch ▸ patched.tidy
  content := fun block => by rw [untouched.patch, writes_eq, patched.content]
  title := by rw [untouched.patch, titles_eq, patched.title]

/-- Moving a block does not touch the patch. -/
theorem moving_untouched {block parent left : String} {result : Except String MoveEffect}
    (returned : dm.moving K fuel block parent left = .ok (dm', result)) : Untouched dm dm' := by
  rw [Document.moving] at returned
  rcases bind_eq_ok.mp returned with ⟨⟨dm₁, vt⟩, started, rest⟩
  rcases bind_eq_ok.mp rest with ⟨⟨vt', result'⟩, -, ⟨⟩⟩
  rw [Document.ensureMutation] at started
  split at started
  · cases started
    exact ⟨⟨rfl, rfl, rfl, rfl, rfl, rfl, rfl⟩, rfl⟩
  · rcases bind_eq_ok.mp started with ⟨vt₁, -, ⟨⟩⟩
    exact ⟨⟨rfl, rfl, rfl, rfl, rfl, rfl, rfl⟩, rfl⟩

/-- Deleting a block does not touch the patch. -/
theorem deleteBlock_untouched {block : String} {result : Except String Unit}
    (returned : dm.deleteBlock K fuel block = .ok (dm', result)) : Untouched dm dm' := by
  rw [Document.deleteBlock] at returned
  rcases bind_eq_ok.mp returned with ⟨⟨dm₁, effect⟩, moved, rest⟩
  apply (moving_untouched moved).trans
  rcases effect with err | _ | _ | _ <;> cases rest <;>
    exact ⟨⟨rfl, rfl, rfl, rfl, rfl, rfl, rfl⟩, rfl⟩

theorem moveBlock_untouched {block parent left : String} {result : Except String Unit}
    (returned : dm.moveBlock K fuel block parent left = .ok (dm', result)) : Untouched dm dm' := by
  rw [Document.moveBlock] at returned
  split_ifs at returned
  · cases returned
  · rcases bind_eq_ok.mp returned with ⟨⟨dm₁, effect⟩, moved, rest⟩
    apply (moving_untouched moved).trans
    rcases effect with err | _ | _ | _ <;> cases rest <;>
      exact ⟨⟨rfl, rfl, rfl, rfl, rfl, rfl, rfl⟩, rfl⟩

/-- A title is written when it is not the one of the state. -/
theorem setTitle_cases {title : String} (returned : dm.setTitle title = .ok dm') :
    (dm.e.state.get ["title"] = some (.string title) ∧ dm' = dm) ∨
      (dm.e.state.get ["title"] ≠ some (.string title) ∧
        dm' = { dm with patch := dm.patch.set "title" (.string title) }) := by
  rw [Document.setTitle] at returned
  cases found : dm.e.state.get ["title"] with
  | none =>
      simp only [found, pure_eq_ok] at returned
      exact .inr ⟨by simp, (Except.ok.inj returned).symm⟩
  | some v =>
      simp only [found] at returned
      rcases bind_eq_ok.mp returned with ⟨current, isString, rest⟩
      have v_eq : v = .string current := by
        cases v <;> simp [assertType, Value.asString, panicWith] at isString
        rw [isString]
      split_ifs at rest with same
      · exact .inl ⟨by rw [v_eq, same], (Except.ok.inj rest).symm⟩
      · exact .inr ⟨by simpa [v_eq] using same, (Except.ok.inj rest).symm⟩

/-- A new title is written into the patch. -/
theorem Patched.setTitle (patched : Patched start done dm) {title : String}
    (returned : dm.setTitle title = .ok dm') : Patched start (done ++ [.setTitle title]) dm' := by
  have sameState : dm.e.state = start.e.state := by rw [patched.same.e]
  have writes_eq : ∀ block, Edit.writes (done ++ [Edit.setTitle title]) block =
      Edit.writes done block := by simp [Edit.writes]
  have titles_eq : Edit.titles (done ++ [Edit.setTitle title]) =
      Edit.titles done ++ [title] := by simp [Edit.titles]
  rcases setTitle_cases returned with ⟨isOld, rfl⟩ | ⟨isNew, rfl⟩
  · rw [sameState] at isOld
    constructor
    · exact patched.same
    · exact patched.tidy
    · intro block
      rw [writes_eq, patched.content]
    · rw [titles_eq, lastNew_append, if_pos isOld, patched.title]
  · rw [sameState] at isNew
    constructor
    · exact patched.same.trans ⟨rfl, rfl, rfl, rfl, rfl, rfl, rfl⟩
    · exact patched.tidy.set (by decide) (fun _ => ⟨title, rfl⟩)
        (fun same => absurd same (by decide)) fun _ => rfl
    · intro block
      have same : (dm.patch.set "title" (.string title)).get "blocks" = dm.patch.get "blocks" :=
        Object.get_set_of_ne (by decide)
      rw [contentIn_congr same, patched.content, writes_eq]
    · rw [Object.get_set_self, titles_eq, lastNew_append, if_neg isNew]
      exact rfl

/-- A new content is written into the patch. -/
theorem Patched.replaceBlock (patched : Patched start done dm) {blk : F.Block}
    {result : Except String Unit} (returned : dm.replaceBlock F blk = .ok (dm', result)) :
    Patched start (if result = .ok () then done ++ [.replaceBlock blk] else done) dm' := by
  rw [Document.replaceBlock] at returned
  split_ifs at returned with unnamed
  · cases returned
    exact patched
  cases converted : F.blockToMap blk with
  | error err =>
      simp only [converted] at returned
      cases returned
      exact patched
  | ok blockMap =>
      simp only [converted] at returned
      have writes_eq : ∀ block, Edit.writes (done ++ [Edit.replaceBlock blk]) block =
          Edit.writes done block ++ if F.blockId blk = block then [blockMap] else [] := by
        intro block
        by_cases same : F.blockId blk = block <;>
          simp [Edit.writes, same, converted, Except.toOption]
      have titles_eq : Edit.titles (done ++ [Edit.replaceBlock blk]) = Edit.titles done := by
        simp [Edit.titles]
      have sameState : dm.e.state = start.e.state := by rw [patched.same.e]
      rw [sameState] at returned
      split_ifs at returned with isOld
      · cases returned
        rw [if_pos rfl]
        constructor
        · exact patched.same
        · exact patched.tidy
        · intro block
          rw [writes_eq, patched.content]
          split_ifs with same
          · rw [lastNew_append, if_pos (same ▸ isOld)]
          · rw [List.append_nil]
        · rw [titles_eq, patched.title]
      · rcases patched.tidy.objectSet_content (F.blockId blk) blockMap with
          ⟨patch, written, tidy, content, others⟩
        rw [written, ok_bind] at returned
        cases returned
        rw [if_pos rfl]
        constructor
        · exact patched.same.trans ⟨rfl, rfl, rfl, rfl, rfl, rfl, rfl⟩
        · exact tidy
        · intro block
          rw [content, writes_eq]
          by_cases same : F.blockId blk = block
          · rw [if_pos same, if_pos same.symm, lastNew_append, if_neg (same ▸ isOld)]
            exact rfl
          · rw [if_neg same, if_neg (Ne.symm same), List.append_nil, patched.content]
        · rw [others "title" (by decide), titles_eq, patched.title]

/-- One edit of a run, which is noted when it succeeds. -/
theorem Patched.performNext (patched : Patched start done dm) {edit : Edit F}
    (returned : Document.performNext K F fuel (dm, done) edit = .ok (dm', done')) :
    Patched start done' dm' := by
  rw [Document.performNext] at returned
  rcases bind_eq_ok.mp returned with ⟨⟨next, result⟩, performed, noted⟩
  cases edit with
  | setTitle title =>
      rcases bind_eq_ok.mp performed with ⟨next', isSet, ⟨⟩⟩
      cases noted
      exact patched.setTitle isSet
  | replaceBlock blk =>
      have replaced := patched.replaceBlock performed
      cases result with
      | error err =>
          cases noted
          exact replaced
      | ok _ =>
          cases noted
          exact replaced
  | moveBlock block parent left =>
      have untouched := moveBlock_untouched performed
      cases result with
      | error err =>
          cases noted
          exact patched.keep untouched (fun _ => rfl) rfl
      | ok _ =>
          cases noted
          exact patched.keep untouched (fun _ => by simp [Edit.writes]) (by simp [Edit.titles])
  | deleteBlock block =>
      have untouched := deleteBlock_untouched performed
      cases result with
      | error err =>
          cases noted
          exact patched.keep untouched (fun _ => rfl) rfl
      | ok _ =>
          cases noted
          exact patched.keep untouched (fun _ => by simp [Edit.writes]) (by simp [Edit.titles])

/-- After any edits the patch has the last new title and contents. -/
theorem Patched.performAll {edits : List (Edit F)} (tidy : TidyPatch start.patch)
    (returned : start.performAll K F fuel edits = .ok (dm, done)) : Patched start done dm :=
  foldlM_preserves (fun _ acc => Patched start acc.2 acc.1)
    (fun _ _ _ _ _ _ patched stepped => patched.performNext stepped) (patched_start tidy) returned

end Runs

/-! ## Restoring and changing -/

section Change

variable {K : Fracdex} {F : BlockFormat} {dm dm' start : Document} {fuel : Nat}
    {encodeBlob : Hyper.Change → Except String String} {ch : Hyper.Change} {c : String} {wall : Int}

theorem restoreMove_untouched {acc acc' : Document × Except String Unit} {move : Value}
    {more : Bool} (returned : Document.restoreMove K fuel acc move = .ok (acc', more)) :
    Untouched acc.1 acc'.1 := by
  rw [Document.restoreMove] at returned
  rcases bind_eq_ok.mp returned with ⟨mm, -, returned⟩
  rcases bind_eq_ok.mp returned with ⟨block, -, returned⟩
  rcases bind_eq_ok.mp returned with ⟨parent, -, returned⟩
  rcases bind_eq_ok.mp returned with ⟨left, -, returned⟩
  split_ifs at returned
  · rcases bind_eq_ok.mp returned with ⟨⟨next, result⟩, deleted, noted⟩
    cases result <;> cases noted <;> exact deleteBlock_untouched deleted
  · rcases bind_eq_ok.mp returned with ⟨⟨next, result⟩, moved, noted⟩
    cases result <;> cases noted <;> exact moveBlock_untouched moved

/-- A new timestamp comes from the clock of the entity. -/
theorem nextTimestamp_eq_ok {e e' : Entity} {ts : Int}
    (stamped : e.nextTimestamp wall = .ok (ts, e')) :
    ∃ clock, e.maxClock.now wall = .ok (ts, clock) ∧ e' = { e with maxClock := clock } := by
  unfold Entity.nextTimestamp at stamped
  generalize e.maxClock.now wall = reading at stamped ⊢
  cases reading with
  | error err => simp [panicWith] at stamped
  | ok stamp =>
      simp only [pure_eq_ok, Except.ok.injEq, Prod.mk.injEq] at stamped
      rcases stamped with ⟨rfl, rfl⟩
      exact ⟨stamp.2, rfl, rfl⟩

/-- A restored draft: its patch without the moves is in the state and in the patch. -/
structure Restored (dm : Document) (ch : Hyper.Change) (wall : Int) (clock : Clock) (state : Map)
    (start : Document) : Prop where
  stamped : dm.e.maxClock.now wall = .ok (start.nextHLC, clock)
  entity : start.e = { dm.e with maxClock := clock, state := state }
  state : dm.e.state.applyPatch start.nextHLC "" (ch.patch.delete "moves") = .ok state
  patch : start.patch = ch.patch.delete "moves"

theorem Restored.untouched {clock : Clock} {state : Map} {start' : Document}
    (restored : Restored dm ch wall clock state start) (untouched : Untouched start start') :
    Restored dm ch wall clock state start' := by
  constructor
  · rw [untouched.same.nextHLC]
    exact restored.stamped
  · rw [untouched.same.e]
    exact restored.entity
  · rw [untouched.same.nextHLC]
    exact restored.state
  · rw [untouched.patch]
    exact restored.patch

/-- What a successful restoring has done. -/
theorem restored_of_returned
    (returned : dm.restoreDraft K fuel ch wall = .ok (start, .ok ())) :
    ∃ clock state, Restored dm ch wall clock state start := by
  rw [Document.restoreDraft] at returned
  split_ifs at returned
  · cases returned
  simp only at returned
  split_ifs at returned
  · simp at returned
  split at returned
  · simp at returned
  rcases bind_eq_ok.mp returned with ⟨⟨ts, e⟩, stamped, rest⟩
  rcases bind_eq_ok.mp rest with ⟨state, applied, moved⟩
  rcases nextTimestamp_eq_ok stamped with ⟨clock, isNow, rfl⟩
  refine ⟨clock, state, ?_⟩
  simp only at moved
  split at moved
  · obtain ⟨rfl, -⟩ := Prod.mk.inj (Except.ok.inj moved)
    exact ⟨isNow, rfl, applied, rfl⟩
  · rcases bind_eq_ok.mp moved with ⟨ops, -, visited⟩
    exact visit_preserves
      (fun acc : Document × Except String Unit => Restored dm ch wall clock state acc.1)
      (fun _ _ _ _ _ restored stepped => restored.untouched (restoreMove_untouched stepped))
      ⟨isNow, rfl, applied, rfl⟩ visited

/-- Whatever the moves are, the cleanup keeps the contents that are not forgotten. -/
theorem cleanedUp_of_returned (tidy : TidyPatch dm.patch)
    (returned : dm.cleanupPatch fuel = .ok dm') : ∃ moves, CleanedUp dm moves dm' := by
  rw [Document.cleanupPatch] at returned
  split at returned
  · next started =>
      cases returned
      refine ⟨[], .refl dm, rfl, tidy, fun block => ?_, rfl, fun _ _ _ => rfl⟩
      simp [started]
  · next vt started =>
      rcases bind_eq_ok.mp returned with ⟨moves, -, rest⟩
      have others₁ : ∀ key, key ≠ "moves" → Object.get
          (if moves = [] then dm.patch else dm.patch.set "moves" (taggedMoves moves)) key =
            dm.patch.get key := by
        intro key differs
        split_ifs
        · rfl
        · exact Object.get_set_of_ne differs
      have tidy₁ : TidyPatch
          (if moves = [] then dm.patch else dm.patch.set "moves" (taggedMoves moves)) := by
        split_ifs
        · exact tidy
        · exact tidy.set (by decide) (fun same => absurd same (by decide))
            (fun _ => ⟨moves, rfl⟩) fun other => absurd rfl other
      rcases tidy₁.forgetBlocks dm.createdBlocks dm.deletedBlocks with
        ⟨patch₂, forgot, tidy₂, content₂, others₂⟩
      rcases tidy₂.dropEmptyBlocks with ⟨tidy₃, content₃, others₃⟩
      rcases bind_eq_ok.mp rest with ⟨patch, isPatch, ⟨⟩⟩
      rw [taggedMoves] at forgot
      obtain rfl : patch = patch₂ := Except.ok.inj (isPatch.symm.trans forgot)
      refine ⟨moves, ⟨rfl, rfl, rfl, rfl, rfl, rfl, rfl⟩, rfl, tidy₃, fun block => ?_, ?_,
        fun key notBlocks notMoves => ?_⟩
      · rw [content₃, content₂, contentIn_congr (others₁ "blocks" (by decide))]
        simp [started]
      · rw [others₃ "moves" (by decide), others₂ "moves" (by decide)]
        split_ifs
        · rfl
        · exact Object.get_set_self
      · rw [others₃ key notBlocks, others₂ key notBlocks, others₁ key notMoves]

theorem tidyPatch_dummy : TidyPatch [("isDraft", .bool true)] :=
  TidyPatch.nil.set (by decide) (fun same => absurd same (by decide))
    (fun same => absurd same (by decide)) fun _ => rfl

/-- Marking a patch as a draft keeps it tidy, and its other keys. -/
theorem TidyPatch.markDraft {patch : Object} (tidy : TidyPatch patch) :
    TidyPatch (Document.markDraft patch) ∧
      ∀ key, key ≠ "isDraft" → (Document.markDraft patch).get key = patch.get key := by
  by_cases empty : patch = []
  · have dummy : Document.markDraft patch = [("isDraft", .bool true)] := by
      rw [Document.markDraft, if_pos empty]
      exact rfl
    rw [dummy]
    refine ⟨tidyPatch_dummy, fun key differs => ?_⟩
    rw [empty, Object.get_cons, if_neg (Ne.symm differs)]
  · simp only [Document.markDraft, if_neg empty]
    split_ifs
    · refine ⟨tidy.delete _, fun key differs => ?_⟩
      rw [Object.get_delete, if_neg differs]
    · exact ⟨tidy, fun _ _ => rfl⟩

/-- What a change that was produced holds. -/
structure Changed (dm : Document) (c : String) (ch : Hyper.Change) (wall : Int) : Prop where
  tidy : TidyPatch ch.patch
  title : ch.patch.get "title" = dm.patch.get "title"
  content : ∀ block, contentIn ch.patch block =
    if dm.mutation.isSome ∧ block ∈ dm.createdBlocks ∧ block ∈ dm.deletedBlocks then none
    else contentIn dm.patch block
  hlcTime : ch.hlcTime = dm.nextHLC
  applied : ∃ e', Entity.Applied dm.e c ch wall e'

theorem newChange_fields {eid delegation action : String} {deps : List String} {ts : Int}
    {signer : KeyPair} {patch : Object}
    (isNew : newChange encodeBlob eid deps ts signer delegation patch action = .ok (c, ch)) :
    ch.patch = patch ∧ ch.hlcTime = ts := by
  rw [newChange] at isNew
  split_ifs at isNew
  simp only at isNew
  split at isNew
  · cases isNew
  split at isNew
  · cases isNew
  · cases isNew
    exact ⟨rfl, rfl⟩

/-- What making a change has done. -/
theorem changed_of_returned (tidy : TidyPatch dm.patch)
    (returned : dm.change encodeBlob fuel wall = .ok (dm', .ok (c, ch))) :
    Changed dm c ch wall := by
  rw [Document.change] at returned
  split_ifs at returned
  · cases returned
  · cases returned
  rcases bind_eq_ok.mp returned with ⟨dm₁, cleaned, rest⟩
  have cleanedUp : ∃ moves, CleanedUp { dm with done := true } moves dm₁ :=
    cleanedUp_of_returned tidy cleaned
  rcases cleanedUp with ⟨moves, spec⟩
  rcases bind_eq_ok.mp rest with ⟨⟨e', result⟩, created, isResult⟩
  obtain ⟨-, rfl⟩ := Prod.mk.inj (Except.ok.inj isResult)
  rcases spec.tidy.markDraft with ⟨tidy', others⟩
  rw [Entity.createChange] at created
  split at created
  · cases created
  next c' ch' isNew =>
  rcases bind_eq_ok.mp created with ⟨⟨e₂, applied⟩, success, isApplied⟩
  rcases Prod.mk.inj (Except.ok.inj isApplied) with ⟨rfl, isOk⟩
  cases applied with
  | error err => simp [Except.map] at isOk
  | ok _ =>
      obtain ⟨rfl, rfl⟩ : c' = c ∧ ch' = ch := by simpa [Except.map] using isOk
      have fields := newChange_fields isNew
      simp only at fields
      rw [show dm₁.e = dm.e from spec.same.e] at success
      constructor
      · rw [fields.1]
        exact tidy'
      · rw [fields.1, others "title" (by decide), spec.others "title" (by decide) (by decide)]
      · intro block
        rw [fields.1, contentIn_congr (others "blocks" (by decide)), spec.content]
      · rw [fields.2, spec.same.nextHLC]
      · exact ⟨_, Entity.applied_of_applyChange_eq_ok success⟩

end Change

/-! ## Drafts -/

/-- The fields of the first change of a document. -/
def creationPatch (nonce : List UInt8) (createTime : Int) (owner : List UInt8) : Object :=
  ((Object.set [] "nonce" (.bytes nonce)).set "createTime" (.int createTime)).set "owner"
    (.bytes owner)

theorem tidyPatch_creation (nonce : List UInt8) (createTime : Int) (owner : List UInt8) :
    TidyPatch (creationPatch nonce createTime owner) := by
  have plain : ∀ {patch : Object} {key : String} {v : Value}, TidyPatch patch →
      key ≠ "blocks" → key ≠ "title" → key ≠ "moves" → v.asMap = none →
        TidyPatch (patch.set key v) :=
    fun tidy notBlocks notTitle notMoves noMap => tidy.set notBlocks
      (fun same => absurd same notTitle) (fun same => absurd same notMoves) fun _ => noMap
  apply plain (plain (plain .nil ?_ ?_ ?_ ?_) ?_ ?_ ?_ ?_) <;> first | decide | rfl

/--
The drafts that documents save: of a new document, of a publication that is edited again, and
of a draft that was restored and edited.
-/
inductive SavedDraft (K : Fracdex) (F : BlockFormat)
    (encodeBlob : Hyper.Change → Except String String) : Hyper.Change → Prop where
  | begun {ch : Hyper.Change} (dummy : ch.patch = [("isDraft", .bool true)]) :
      SavedDraft K F encodeBlob ch
  | created {dm dm' : Document} {nonce owner : List UInt8} {createTime wall : Int} {fuel : Nat}
      {c : String} {ch : Hyper.Change} (fields : dm.patch = creationPatch nonce createTime owner)
      (changed : dm.change encodeBlob fuel wall = .ok (dm', .ok (c, ch))) :
      SavedDraft K F encodeBlob ch
  | updated {dm start next dm' : Document} {old ch : Hyper.Change} {wall wall' : Int} {fuel : Nat}
      {edits done : List (Edit F)} {c : String} (saved : SavedDraft K F encodeBlob old)
      (restored : dm.restoreDraft K fuel old wall = .ok (start, .ok ()))
      (edited : start.performAll K F fuel edits = .ok (next, done))
      (changed : next.change encodeBlob fuel wall' = .ok (dm', .ok (c, ch))) :
      SavedDraft K F encodeBlob ch

section Drafts

variable {K : Fracdex} {F : BlockFormat} {encodeBlob : Hyper.Change → Except String String}
    {ch : Hyper.Change}

/-- The patch of a saved draft is tidy. -/
theorem SavedDraft.tidy (saved : SavedDraft K F encodeBlob ch) : TidyPatch ch.patch := by
  induction saved with
  | begun dummy => exact dummy ▸ tidyPatch_dummy
  | created fields changed =>
      exact (changed_of_returned (fields ▸ tidyPatch_creation ..) changed).tidy
  | updated _ restored edited changed induction =>
      rcases restored_of_returned restored with ⟨clock, state, spec⟩
      have tidy := spec.patch ▸ induction.delete "moves"
      exact (changed_of_returned (Patched.performAll tidy edited).tidy changed).tidy

/-- A loaded document keeps its entity. -/
theorem e_of_new {e : Entity} {signer : KeyPair} {delegation : String} {dm : Document}
    (opened : Document.new K e signer delegation = .ok (.ok dm)) : dm.e = e := by
  rw [Document.new] at opened
  split_ifs at opened
  · cases opened
  rcases bind_eq_ok.mp opened with ⟨result, -, returned⟩
  cases result <;> cases returned
  rfl

/-- The title of an entity with a draft. -/
def draftTitle (e : Entity) (ch : Hyper.Change) : Option Value :=
  (ch.patch.get "title").or (e.state.get ["title"])

/-- The content of a block of an entity with a draft. -/
def draftContent (e : Entity) (ch : Hyper.Change) (block : String) : Option Value :=
  ((contentIn ch.patch block).map Value.map).or (e.state.get ["blocks", block])

/-- No block that the draft holds or that was written is named like a tag. -/
def PlainNames (ch : Hyper.Change) (done : List (Edit F)) : Prop :=
  ∀ tag ∈ tagKeys, contentIn ch.patch tag = none ∧ Edit.writes done tag = []

/-- The state of a restored draft reads as the entity with the draft. -/
theorem Restored.reads {dm start : Document} {wall : Int} {clock : Clock} {state : Map}
    (restored : Restored dm ch wall clock state start) (sound : dm.e.state.Sound)
    (tidy : TidyPatch ch.patch) (future : start.nextHLC < Crdt2.maxInt64)
    (older : ∀ p : List String, p.length ≤ 3 →
      ∀ entry ∈ dm.e.state.versions p, entry.time < start.nextHLC) :
    state.get ["title"] = draftTitle dm.e ch ∧
      (PlainBlocks ch.patch → ∀ block,
        state.get ["blocks", block] = draftContent dm.e ch block) := by
  have tidy' := tidy.delete "moves"
  have sameKey : ∀ key, key ≠ "moves" → (ch.patch.delete "moves").get key = ch.patch.get key := by
    intro key differs
    rw [Object.get_delete, if_neg differs]
  have sameContent : ∀ block, contentIn (ch.patch.delete "moves") block =
      contentIn ch.patch block := contentIn_congr (sameKey "blocks" (by decide))
  constructor
  · rw [tidy'.get_title sound future (older _ (by simp)) restored.state, draftTitle,
      sameKey "title" (by decide)]
  · intro plain block
    have plain' : PlainBlocks (ch.patch.delete "moves") := fun tag isTag => by
      rw [sameContent, plain tag isTag]
    rw [tidy'.get_content plain' sound future (older _ (by simp)) restored.state, draftContent,
      sameContent]

/-- What a document takes on top of a draft, its entity takes without the draft. -/
theorem applies_without_draft {e e₂ : Entity} {clock : Clock} {state : Map} {c : String}
    {wall : Int} (sound : e.state.Sound) (sound' : state.Sound)
    (made : Entity.Applied { e with maxClock := clock, state := state } c ch wall e₂)
    (later : e.maxClock.maxTime ≤ ch.hlcTime) :
    ∃ e', e.applyChange c ch wall = .ok (e', .ok ()) := by
  have admits : e.Admits c ch :=
    ⟨made.admits.entity_eq, made.admits.fresh, made.admits.signed, made.admits.actor_le, later,
      made.admits.deps_applied⟩
  have tracked : ∃ clock, e.maxClock.track ch.hlcTime wall = .ok clock := by
    have := made.tracked
    rw [Clock.track] at this ⊢
    split at this
    · cases this
    · exact ⟨_, rfl⟩
  rcases tracked with ⟨clock, tracked⟩
  rcases sound'.of_applyPatch made.state_eq with ⟨ws, listed, -⟩
  rcases sound.takes listed ch.hlcTime (originFromCID c) with ⟨next, patched⟩
  exact Entity.applyChange_of_admits admits tracked patched

/--
The change of a restored and edited draft can be applied to the entity that the draft was made
from.  The title and the contents are then the last ones that differed from what the draft
showed, or else what the draft showed.
-/
theorem change_reads_last_new_writes {id delegation c : String} {e : Entity} {signer : KeyPair}
    {dm start next dm' : Document} {edits done : List (Edit F)} {fuel : Nat} {wall wall' : Int}
    {ch' : Hyper.Change} (loaded : Loaded id e) (inStep : InStep e.maxClock.maxTime wall)
    (saved : SavedDraft K F encodeBlob ch)
    (opened : Document.new K e signer delegation = .ok (.ok dm))
    (restored : dm.restoreDraft K fuel ch wall = .ok (start, .ok ()))
    (edited : start.performAll K F fuel edits = .ok (next, done))
    (changed : next.change encodeBlob fuel wall' = .ok (dm', .ok (c, ch')))
    (plain : PlainNames ch done) :
    ∃ e', e.applyChange c ch' wall' = .ok (e', .ok ()) ∧
      e'.state.get ["title"] =
        ((lastNew (fun title => draftTitle e ch = some (.string title))
          (Edit.titles done)).map Value.string).or (draftTitle e ch) ∧
      ∀ block, ¬ (block ∈ next.createdBlocks ∧ block ∈ next.deletedBlocks) →
        e'.state.get ["blocks", block] =
          ((lastNew (fun content => draftContent e ch block = some (.map content))
            (Edit.writes done block)).map Value.map).or (draftContent e ch block) := by
  have sound := (Entity.sound_of_loaded loaded).1
  have isBase : dm.e = e := e_of_new opened
  rcases restored_of_returned restored with ⟨clock, state, spec⟩
  rcases inStep.now_spec with ⟨ts, isNow, later, -, -, soon⟩
  have stamped := spec.stamped
  rw [isBase, isNow] at stamped
  rcases Prod.mk.inj (Except.ok.inj stamped) with ⟨ts_eq, rfl⟩
  have future : ts < Crdt2.maxInt64 := soon.trans_lt (by
    have := inStep.wall_le
    simp only [Crdt2.maxInt64]
    omega)
  have older : ∀ p : List String, p.length ≤ 3 → ∀ entry ∈ e.state.versions p, entry.time < ts :=
    fun p short entry member => (sound.inTime p short entry member).2.trans_lt later
  -- The draft shows its own title and contents, and else those of the entity.
  have shown := spec.reads (isBase ▸ sound.map_sound) saved.tidy (ts_eq ▸ future)
    (ts_eq ▸ isBase ▸ older)
  rw [isBase] at shown
  have startSound : state.Sound := by
    rcases sound.map_sound.of_applyPatch (isBase ▸ spec.state) with ⟨-, -, isSound, -⟩
    exact isSound
  have sameKey : ∀ key, key ≠ "moves" → start.patch.get key = ch.patch.get key := by
    intro key differs
    rw [spec.patch, Object.get_delete, if_neg differs]
  have sameContent : ∀ block, contentIn start.patch block = contentIn ch.patch block :=
    contentIn_congr (sameKey "blocks" (by decide))
  have start_state : start.e.state = state := by rw [spec.entity]
  have patched := Patched.performAll (spec.patch ▸ saved.tidy.delete "moves") edited
  rcases changed_of_returned patched.tidy changed with
    ⟨tidy', title_eq, content_eq, time_eq, e₂, made⟩
  have time_ts : ch'.hlcTime = ts := by rw [time_eq, patched.same.nextHLC, ts_eq]
  rw [patched.same.e, spec.entity, isBase] at made
  rcases applies_without_draft sound.map_sound startSound made (time_ts ▸ later.le) with
    ⟨e', success⟩
  have state_eq := (Entity.applied_of_applyChange_eq_ok success).state_eq
  have future' : ch'.hlcTime < Crdt2.maxInt64 := time_ts ▸ future
  have older' : ∀ p : List String, p.length ≤ 3 → ∀ entry ∈ e.state.versions p,
      entry.time < ch'.hlcTime := time_ts ▸ older
  refine ⟨e', success, ?_, fun block kept => ?_⟩
  · rw [tidy'.get_title sound.map_sound future' (older' _ (by simp)) state_eq, title_eq,
      patched.title, start_state, shown.1, Option.or_assoc, sameKey "title" (by decide)]
    rfl
  · have kept' : ¬ (next.mutation.isSome ∧ block ∈ next.createdBlocks ∧
        block ∈ next.deletedBlocks) := fun both => kept both.2
    have plain' : PlainBlocks ch'.patch := by
      intro tag isTag
      rw [content_eq, patched.content, (plain tag isTag).2, sameContent, (plain tag isTag).1]
      simp [lastNew]
    have shownContent := shown.2 (fun tag isTag => (plain tag isTag).1) block
    rw [tidy'.get_content plain' sound.map_sound future' (older' _ (by simp)) state_eq,
      content_eq, if_neg kept', patched.content, start_state, shownContent, sameContent,
      Option.map_or, Option.or_assoc]
    rfl

end Drafts

/-! ## A sample mutation -/

/-- A draft of an entity that has no changes yet. -/
def sampleDraft : Hyper.Change where
  deps := []
  delegation := "delegation"
  action := "Update"
  hlcTime := 1
  entity := "doc"
  patch := [("isDraft", .bool true)]
  signer := [0xed, 0x01, 1]
  sig := "signature"

/-- The title goes there and back, and so does the content of a block. -/
def sampleEdits : List (Edit sampleFormat) :=
  [.setTitle "one", .replaceBlock ("b1", "one"), .moveBlock "b1" "" "", .setTitle "two",
    .replaceBlock ("b1", "two"), .setTitle "one"]

/-- A coder that knows one change. -/
def sampleEncode (_ : Hyper.Change) : Except String String := .ok "bafychange"

/-- The change that the edits make of the draft, with the document they left and those made. -/
def sampleChange : Option (Document × Document × List (Edit sampleFormat) × Hyper.Change) :=
  match sampleDocument.restoreDraft sampleFracdex 20 sampleDraft 1000 with
  | .ok (start, .ok ()) =>
      match start.performAll sampleFracdex sampleFormat 20 sampleEdits with
      | .ok (next, done) =>
          match next.change sampleEncode 20 1000 with
          | .ok (_, .ok (_, ch)) => some (start, next, done, ch)
          | _ => none
      | _ => none
  | _ => none

theorem sampleChange_eq_some {start next : Document} {done : List (Edit sampleFormat)}
    {ch : Hyper.Change} (made : sampleChange = some (start, next, done, ch)) :
    sampleDocument.restoreDraft sampleFracdex 20 sampleDraft 1000 = .ok (start, .ok ()) ∧
      start.performAll sampleFracdex sampleFormat 20 sampleEdits = .ok (next, done) ∧
      ∃ dm c, next.change sampleEncode 20 1000 = .ok (dm, .ok (c, ch)) := by
  unfold sampleChange at made
  split at made
  · next restored =>
      split at made
      · next edited =>
          split at made
          · next changed =>
              cases made
              exact ⟨restored, edited, _, _, changed⟩
          · cases made
      · cases made
  · cases made

theorem change_reads_last_new_writes_sample :
    ∃ (c : String) (ch : Hyper.Change) (e : Entity),
      (newEntity "doc").applyChange c ch 1000 = .ok (e, .ok ()) ∧
        e.state.get ["title"] = some (.string "one") ∧
        e.state.get ["blocks", "b1"] = some (.map [("text", .string "two")]) := by
  have made : sampleChange.any (fun run => run.2.1.deletedBlocks = [] ∧
      (∀ tag ∈ tagKeys, Edit.writes run.2.2.1 tag = []) ∧
      Edit.titles run.2.2.1 = ["one", "two", "one"] ∧ Edit.writes run.2.2.1 "b1" =
        [[("text", .string "one")], [("text", .string "two")]]) = true := by
    decide +kernel
  rcases (Option.any_eq_true ..).mp made with ⟨⟨start, next, done, ch⟩, isRun, facts⟩
  rcases of_decide_eq_true facts with ⟨nothing, untagged, titles, contents⟩
  rcases sampleChange_eq_some isRun with ⟨restored, edited, dm', c, changed⟩
  have plain : PlainNames sampleDraft done := by
    intro tag isTag
    refine ⟨?_, untagged tag isTag⟩
    simp only [tagKeys, List.mem_cons, List.not_mem_nil, or_false] at isTag
    rcases isTag with rfl | rfl | rfl <;> exact rfl
  rcases change_reads_last_new_writes .new (by decide) (.begun rfl) new_sampleDocument restored
    edited changed plain with ⟨e, applied, title, content⟩
  rw [titles] at title
  have block := content "b1" (by rw [nothing]; simp)
  rw [contents] at block
  exact ⟨c, ch, e, applied, title.trans rfl, block.trans rfl⟩

end Mintter.Docmodel
