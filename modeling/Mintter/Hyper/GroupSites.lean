import Mintter.Crdt2.Journal
import Mintter.Foundation.Latest
import Mintter.Hyper.Causality
import Mintter.Hyper.Membership

/-!
# The site of a group

The URL of the site of a group is kept twice: in a table that is written when a change is
indexed, and in the map of the entity.  Both keep the value with the greatest time and origin.

The table keeps the first of several values with one time and origin, and the map the last one
that is applied; the map does not find a value with the greatest time there is.
-/

namespace Mintter.Hyper

open Mintter.Foundation
open Mintter.Crdt2

variable {Data : Type}

/-! ## The table -/

/-- The record of the site of a group. -/
def Store.groupSite (s : Store Data) (group : String) : Option GroupSiteRow :=
  s.groupSites.find? (·.group == group)

/-- Time and origin of what a record says. -/
def GroupSiteRow.stamp (row : GroupSiteRow) : Int ×ₗ String :=
  toLex (row.hlcTime, row.hlcOrigin)

/-- What a change says about the site. -/
def siteRow (change : String × Change) : Option GroupSiteRow :=
  match Object.get change.2.patch "siteURL" with
  | some (.string siteURL) =>
      some ⟨change.2.entity, siteURL, change.2.hlcTime, originFromCID change.1⟩
  | _ => none

theorem siteRow_eq_some_iff {change : String × Change} {row : GroupSiteRow} :
    siteRow change = some row ↔ Object.get change.2.patch "siteURL" = some (.string row.url) ∧
      row.group = change.2.entity ∧ row.hlcTime = change.2.hlcTime ∧
      row.hlcOrigin = originFromCID change.1 := by
  rw [siteRow]
  rcases row with ⟨group, url, hlcTime, hlcOrigin⟩
  split
  · next siteURL isSite =>
      rw [isSite, Option.some.injEq, GroupSiteRow.mk.injEq, Option.some.injEq,
        Value.string.injEq]
      constructor
      · rintro ⟨rfl, rfl, rfl, rfl⟩
        exact ⟨rfl, rfl, rfl, rfl⟩
      · rintro ⟨rfl, rfl, rfl, rfl⟩
        exact ⟨rfl, rfl, rfl, rfl⟩
  · next noSite =>
      constructor
      · nofun
      · rintro ⟨isSite, -⟩
        exact absurd isSite (noSite url)

/-- The record of a group after a change that says something about a site. -/
def keepSite (group : String) (current : Option GroupSiteRow) (change : String × Change) :
    Option GroupSiteRow :=
  match siteRow change with
  | none => current
  | some site =>
      if site.group = group then keepGreatest GroupSiteRow.stamp current site else current

section Table

variable {s t : Store Data} {site : GroupSiteRow} {group : String}

theorem groupSite_sitesInsertOrIgnore : (s.sitesInsertOrIgnore site).groupSite group =
    if site.group = group then keepGreatest GroupSiteRow.stamp (s.groupSite group) site
    else s.groupSite group := by
  rw [Store.sitesInsertOrIgnore]
  by_cases same : site.group = group
  · subst same
    rw [if_pos rfl, Store.groupSite, Store.groupSite]
    cases found : s.groupSites.find? (·.group == site.group) with
    | none =>
        rw [List.find?_append, found]
        simp [keepGreatest]
    | some row =>
        rw [keepGreatest]
        by_cases less : row.stamp < site.stamp
        · rw [if_pos less]
          have less' : toLex (row.hlcTime, row.hlcOrigin) <
              toLex (site.hlcTime, site.hlcOrigin) := less
          simp only [if_pos less', List.find?_map]
          have sameGroup : ((fun row : GroupSiteRow => row.group == site.group) ∘
              fun row => if row.group = site.group then site else row) =
                fun row => row.group == site.group := by
            funext row
            by_cases isGroup : row.group = site.group
            · simp [isGroup]
            · simp [isGroup]
          have isGroup : row.group = site.group := by simpa using List.find?_some found
          rw [sameGroup, found, Option.map_some, if_pos isGroup]
        · rw [if_neg less]
          have less' : ¬ toLex (row.hlcTime, row.hlcOrigin) <
              toLex (site.hlcTime, site.hlcOrigin) := less
          simp only [if_neg less']
          exact found
  · rw [if_neg same, Store.groupSite, Store.groupSite]
    split
    · rw [List.find?_append]
      simp [same]
    · split
      · rw [List.find?_map]
        have sameGroup : ((fun row : GroupSiteRow => row.group == group) ∘
            fun row => if row.group = site.group then site else row) =
              fun row => row.group == group := by
          funext row
          by_cases isGroup : row.group = site.group
          · simp [isGroup]
          · simp [isGroup]
        rw [sameGroup]
        cases found : s.groupSites.find? (·.group == group) with
        | none => rfl
        | some row =>
            have isGroup : row.group = group := by simpa using List.find?_some found
            rw [Option.map_some, if_neg]
            rw [isGroup]
            exact Ne.symm same
      · rfl

theorem groupSite_congr (same : t.groupSites = s.groupSites) (group : String) :
    t.groupSite group = s.groupSite group := by
  rw [Store.groupSite, same]
  rfl

end Table

/-! ## Indexing -/

section Indexing

variable {F : Formats Data} {order : FieldOrder} {s t : Store Data} {c : String}
variable {v : Change} {patch : Object} {author : Principal} {sb sb' : StructuralBlob}

theorem groupSite_of_indexSite (returns : (indexSite F s c v v.patch).Returns t)
    (group : String) : t.groupSite group = keepSite group (s.groupSite group) (c, v) := by
  by_cases isSite : ∃ siteURL, Object.get v.patch "siteURL" = some (.string siteURL)
  · rcases isSite with ⟨siteURL, isSite⟩
    rw [indexSite, isSite] at returns
    rw [keepSite, siteRow, isSite]
    simp only [Attempt.returns_bind, Attempt.returns_pure] at returns
    rcases returns with ⟨-, -, rfl⟩
    exact groupSite_sitesInsertOrIgnore
  · have unchanged : indexSite F s c v v.patch = pure s := by
      rw [indexSite]
      split
      · next siteURL found => exact absurd ⟨siteURL, found⟩ isSite
      · rfl
    have noRow : siteRow (c, v) = none := by
      rw [siteRow]
      split
      · next siteURL found => exact absurd ⟨siteURL, found⟩ isSite
      · rfl
    rw [unchanged, Attempt.returns_pure] at returns
    rw [← returns, keepSite, noRow]

theorem groupSites_of_indexMembers
    (returns : (indexMembers F order s patch sb).Returns (t, sb')) :
    t.groupSites = s.groupSites := by
  rw [indexMembers] at returns
  split at returns
  · next members isMembers =>
      have keeps : ∀ (state : Store Data × StructuralBlob) entry next,
          entry ∈ order.fields 2 members → state.1.groupSites = s.groupSites →
          (indexMember F state entry).Returns next → next.1.groupSites = s.groupSites := by
        intro state entry next _ kept added
        rw [indexMember, Attempt.returns_bind] at added
        rcases added with ⟨acc, -, added⟩
        split at added
        · simp only [Attempt.returns_bind, Attempt.returns_check,
            Attempt.returns_pure] at added
          rcases added with ⟨-, -, -, -, s', ensured, rfl⟩
          exact (owned_ensureAccount ensured).same.groupSites.trans kept
        · exact absurd added Attempt.not_returns_throw
      have kept := returns.foldlM_invariant keeps rfl
      exact kept
  · cases Attempt.returns_pure.mp returns
    rfl

theorem groupSites_of_indexAuthorRole {role : Int}
    (returns : (indexAuthorRole F s v author sb).Returns (t, sb', role)) :
    t.groupSites = s.groupSites := by
  rw [indexAuthorRole] at returns
  split at returns
  · cases Attempt.returns_pure.mp returns
    rfl
  · simp only [Attempt.returns_bind, Attempt.returns_pure] at returns
    rcases returns with ⟨_, -, same⟩
    cases same
    exact (owned_ensureResource s v.entity).same.groupSites

theorem groupSite_of_indexGroup
    (returns : (indexGroup F order s c v v.patch author sb).Returns (t, sb'))
    (group : String) : t.groupSite group = keepSite group (s.groupSite group) (c, v) := by
  simp only [indexGroup, Attempt.returns_bind] at returns
  rcases returns with ⟨-, -, ⟨s₁, sb₁, role⟩, authorRole, -, -, s₂, site, sb₂, -, members⟩
  rw [groupSite_congr (groupSites_of_indexMembers members), groupSite_of_indexSite site,
    groupSite_congr (groupSites_of_indexAuthorRole authorRole)]

/-- The entity of a change is of one kind. -/
theorem not_hasPrefix_of_isGroup {iri start : String} (isGroup : IsGroup iri)
    (sameLength : start.toList.length = 7) (other : start ≠ "hm://g/") :
    hasPrefix iri start = false := by
  apply Bool.eq_false_iff.mpr
  intro isStart
  exact other (eq_of_hasPrefix isStart isGroup sameLength)

/-- Changes of other entities say nothing about a group. -/
theorem keepSite_of_other {group : String} (other : v.entity ≠ group)
    (current : Option GroupSiteRow) : keepSite group current (c, v) = current := by
  rw [keepSite]
  split
  · rfl
  · next site isSite =>
      rw [if_neg]
      rw [(siteRow_eq_some_iff.mp isSite).2.1]
      exact other

/-- What indexing a change leaves for a group. -/
theorem groupSite_of_indexEntity
    (returns : (indexEntity F order s c v v.patch author sb).Returns (t, sb'))
    {group : String} (isGroup : IsGroup group) :
    t.groupSite group = keepSite group (s.groupSite group) (c, v) := by
  by_cases isEntity : v.entity = group
  · subst isEntity
    have isPrefix : hasPrefix v.entity "hm://g/" = true := isGroup
    rw [indexEntity, if_neg, if_neg, if_pos isPrefix] at returns
    · exact groupSite_of_indexGroup returns _
    · rw [not_hasPrefix_of_isGroup isGroup (by decide) (by decide)]
      exact Bool.false_ne_true
    · rw [not_hasPrefix_of_isGroup isGroup (by decide) (by decide)]
      exact Bool.false_ne_true
  · rw [keepSite_of_other isEntity]
    rw [indexEntity] at returns
    split at returns
    · rcases Attempt.returns_bind.mp returns with ⟨sb₁, -, same⟩
      cases Attempt.returns_pure.mp same
      rfl
    · split at returns
      · rcases Attempt.returns_bind.mp returns with ⟨sb₁, -, same⟩
        cases Attempt.returns_pure.mp same
        rfl
      · split at returns
        · rw [groupSite_of_indexGroup returns, keepSite_of_other isEntity]
        · cases Attempt.returns_pure.mp returns
          rfl

end Indexing

/-! ## Runs -/

/-- The change that a blob brings when it is new. -/
def broughtChange (F : Formats Data) (s : Store Data) (arrival : Arrival Data) :
    Option (String × Change) :=
  match (s.putBlock F 0 (F.cidCodec arrival.c) (F.cidHash arrival.c) arrival.data).run with
  | .ok (.ok (false, _)) =>
      match F.decodeBlob (F.cidCodec arrival.c) arrival.data with
      | .ok (.change v) => some (arrival.c, v)
      | _ => none
  | _ => none

/-- Accept a blob, and remember the change that it brings. -/
def acceptChange (F : Formats Data) (state : Store Data × List (String × Change))
    (arrival : Arrival Data) : Option (Store Data × List (String × Change)) :=
  (accept F state.1 arrival).map fun t =>
    (t, state.2 ++ (broughtChange F state.1 arrival).toList)

section Runs

variable {F : Formats Data} {s t : Store Data} {arrival : Arrival Data} {group : String}
variable {journal : List (String × Change)}

/-- Indexing a blob that is no change leaves the sites alone. -/
theorem groupSites_of_indexBlob {order : FieldOrder} {c : String} {blob : DecodedBlob}
    (indexed : (indexBlob F order s c blob).Returns t)
    (notChange : ∀ v, blob ≠ .change v) : t.groupSites = s.groupSites := by
  have isIndexed := indexedBlob_of_returns indexed
  cases blob with
  | dagPB links => exact isIndexed.groupSites
  | keyDelegation kd =>
      rw [isIndexed.saved.groupSites, Store.keyDelegationsInsertOrIgnore]
      split
      · rfl
      · rfl
  | change v => exact absurd rfl (notChange v)
  | comment cm =>
      rcases isIndexed with ⟨author, sb, isComment⟩
      exact isComment.saved.groupSites

theorem groupSite_of_indexChange {order : FieldOrder} {c : String} {v : Change}
    (indexed : (indexBlob F order s c (.change v)).Returns t) (isGroup : IsGroup group) :
    t.groupSite group = keepSite group (s.groupSite group) (c, v) := by
  rcases indexedChange_of_returns indexed with ⟨author, sb, s₁, isChange⟩
  rw [groupSite_congr isChange.saved.groupSites,
    groupSite_of_indexEntity isChange.entity isGroup]

theorem groupSite_of_accept (accepted : accept F s arrival = some t)
    (isGroup : IsGroup group) : t.groupSite group =
      (broughtChange F s arrival).toList.foldl (keepSite group) (s.groupSite group) := by
  rcases put_of_returns (returns_of_accept accepted) with ⟨found, s₁, isPut⟩
  have received := groupSite_congr isPut.block.received.same.groupSites group
  have stored : (s.putBlock F 0 (F.cidCodec arrival.c) (F.cidHash arrival.c)
    arrival.data).run = .ok (.ok (found, s₁)) := isPut.stored
  rw [broughtChange, stored]
  cases found with
  | true =>
      rw [isPut.skipped rfl]
      exact received
  | false =>
      cases decoded : F.decodeBlob (F.cidCodec arrival.c) arrival.data with
      | error err =>
          cases skips : !isIndexable (F.cidCodec arrival.c) with
          | true =>
              rw [isPut.skipped (by rw [skips]; rfl)]
              exact received
          | false =>
              rcases isPut.indexed (by rw [skips]; rfl) with ⟨blob, isBlob, -⟩
              cases decoded.symm.trans isBlob
      | ok blob =>
          rcases isPut.indexed (by rw [isIndexable_of_decodeBlob decoded]; rfl) with
            ⟨blob', isBlob, indexed⟩
          cases decoded.symm.trans isBlob
          by_cases isChange : ∃ v, blob = .change v
          · rcases isChange with ⟨v, rfl⟩
            rw [groupSite_of_indexChange indexed isGroup, received]
            rfl
          · have same := groupSites_of_indexBlob indexed
              fun v isV => isChange ⟨v, isV⟩
            rw [groupSite_congr same, received]
            cases blob with
            | change v => exact absurd ⟨v, rfl⟩ isChange
            | dagPB _ | keyDelegation _ | comment _ => rfl

/-- The table holds what the accepted changes say, in their order. -/
def Recorded (group : String) (state : Store Data × List (String × Change)) : Prop :=
  state.1.groupSite group = state.2.foldl (keepSite group) none

theorem recorded_of_run {state : Store Data × List (String × Change)}
    (run : Reaches (acceptChange F) (fun _ _ => True) (.empty, []) state)
    (isGroup : IsGroup group) : Recorded group state := by
  apply run.invariant
  · intro before arrival after kept _ stepped
    rcases Option.map_eq_some_iff.mp stepped with ⟨s, accepted, rfl⟩
    rw [Recorded, List.foldl_append, ← kept]
    exact groupSite_of_accept accepted isGroup
  · rfl

/-- What the changes of a group say about its site. -/
def sitesOf (group : String) (changes : List (String × Change)) : List GroupSiteRow :=
  (changes.filterMap siteRow).filter fun row => row.group = group

theorem foldl_keepSite (changes : List (String × Change)) (current : Option GroupSiteRow) :
    changes.foldl (keepSite group) current =
      (sitesOf group changes).foldl (keepGreatest GroupSiteRow.stamp) current := by
  induction changes generalizing current with
  | nil => rfl
  | cons change changes induction =>
      rw [List.foldl_cons, induction, keepSite, sitesOf, sitesOf, List.filterMap_cons]
      cases isRow : siteRow change with
      | none => rfl
      | some row =>
          by_cases isGroup : row.group = group
          · simp [isGroup]
          · simp [isGroup]

end Runs

/-! ## The map -/

section Applied

variable {e : Entity} {group : String}

/-- Applying a change as a call that writes to the map. -/
def patchCall (change : String × Change) : MapCall :=
  .applyPatch .listed change.2.hlcTime (originFromCID change.1) change.2.patch

/-- The map of an entity is written by its changes. -/
theorem performCalls_of_loaded (loaded : Loaded group e) :
    newMap.performCalls (e.changes.map patchCall) = .ok e.state := by
  induction loaded with
  | new => rfl
  | apply c ch wall _ success induction =>
      have applied := Entity.applied_of_applyChange_eq_ok success
      rw [applied.changes_eq, List.map_append, Map.performCalls, List.foldlM_append]
      change Map.performCalls newMap _ >>= _ = _
      rw [induction, ok_bind]
      change Map.applyPatch _ _ _ _ >>= _ = _
      rw [applied.state_eq]
      rfl

/-- What a change says about the site is text, as far as it says anything. -/
def SiteIsText (patch : Object) : Prop :=
  ∀ value, Object.get patch "siteURL" = some value → ∃ siteURL, value = .string siteURL

/-- The entry of what a change says. -/
def GroupSiteRow.entry (row : GroupSiteRow) : Entry :=
  ⟨["siteURL"], row.hlcTime, row.hlcOrigin, .primitive, .string row.url⟩

theorem get_eq_some_iff_mem {patch : Object} (unique : (patch.map Prod.fst).Nodup)
    {key : String} {value : Value} :
    Object.get patch key = some value ↔ (key, value) ∈ patch := by
  rw [Object.get, Option.map_eq_some_iff]
  constructor
  · rintro ⟨field, found, rfl⟩
    have isKey : field.1 = key := by simpa using List.find?_some found
    rw [← isKey]
    exact List.mem_of_find?_eq_some found
  · intro member
    have isSome : (patch.find? fun field => field.1 = key).isSome := by
      rw [List.find?_isSome]
      exact ⟨_, member, by simp⟩
    rcases Option.isSome_iff_exists.mp isSome with ⟨⟨key', value'⟩, found⟩
    have isKey : key' = key := by simpa using List.find?_some found
    subst isKey
    exact ⟨_, found, value_eq_of_mem unique (List.mem_of_find?_eq_some found) member⟩

theorem writesEntry_siteURL_iff {change : String × Change} (decoded : Decoded change.2.patch)
    (isText : SiteIsText change.2.patch) {entry : Entry} :
    (patchCall change).WritesEntry entry ∧ entry.path = ["siteURL"] ↔
      ∃ row, siteRow change = some row ∧ entry = row.entry := by
  have unique := decoded _ .refl
  constructor
  · rintro ⟨⟨⟨path, valueType, kept⟩, ⟨front, reached, key, value, nested, member, stored,
      isPath⟩, rfl⟩, named⟩
    have isSite : front.2 ++ [key] = [] ++ ["siteURL"] := isPath.symm.trans named
    rcases List.append_inj' isSite rfl with ⟨atTop, isKey⟩
    cases isKey
    cases reached.eq_of_path_eq decoded .refl atTop
    have found := (get_eq_some_iff_mem unique).mpr member
    rcases isText value found with ⟨siteURL, rfl⟩
    cases stored
    refine ⟨⟨change.2.entity, siteURL, change.2.hlcTime, originFromCID change.1⟩, ?_, ?_⟩
    · exact siteRow_eq_some_iff.mpr ⟨found, rfl, rfl, rfl⟩
    · cases isPath
      rfl
  · rintro ⟨row, isRow, rfl⟩
    rcases siteRow_eq_some_iff.mp isRow with ⟨found, -, isTime, isOrigin⟩
    refine ⟨⟨⟨["siteURL"], .primitive, .string row.url⟩, ?_, ?_⟩, rfl⟩
    · exact ⟨_, .refl, "siteURL", _, _, (get_eq_some_iff_mem unique).mp found, rfl, rfl⟩
    · rw [GroupSiteRow.entry, isTime, isOrigin]
      rfl

/-- What the changes say that `Get` can find: its pivot ends before the greatest time. -/
def reachedSites (group : String) (changes : List (String × Change)) : List GroupSiteRow :=
  (sitesOf group changes).filter fun row => row.stamp ≤ toLex (Crdt2.maxInt64, "")

/-- One change says what `Get` can find about the group. -/
def reachedSite (group : String) (change : String × Change) : Option GroupSiteRow :=
  (siteRow change).filter fun row =>
    decide (row.stamp ≤ toLex (Crdt2.maxInt64, "")) && decide (row.group = group)

theorem reachedSites_eq (group : String) (changes : List (String × Change)) :
    reachedSites group changes = changes.filterMap (reachedSite group) := by
  rw [reachedSites, sitesOf, List.filter_filter, List.filter_filterMap]
  rfl

theorem mem_reachedSites {changes : List (String × Change)} {row : GroupSiteRow} :
    row ∈ reachedSites group changes ↔ ∃ change ∈ changes, siteRow change = some row ∧
      row.stamp ≤ toLex (Crdt2.maxInt64, "") ∧ row.group = group := by
  rw [reachedSites_eq, List.mem_filterMap]
  simp only [reachedSite, Option.filter_eq_some_iff, Bool.and_eq_true, decide_eq_true_eq]

theorem entry_key_le_iff {row row' : GroupSiteRow} :
    row.entry.key ≤ row'.entry.key ↔ row.stamp ≤ row'.stamp := by
  rw [Prod.Lex.le_iff]
  constructor
  · rintro (less | ⟨-, le⟩)
    · exact absurd less (lt_irrefl _)
    · exact le
  · intro le
    exact .inr ⟨rfl, le⟩

/-- The patches of the changes, as far as their site goes, are as in a decoded change. -/
def SitesFit (changes : List (String × Change)) : Prop :=
  ∀ change ∈ changes, Decoded change.2.patch ∧ SiteIsText change.2.patch

/-- The last of the greatest entries is not overwritten. -/
theorem stands_of_lastGreatest (fits : SitesFit e.changes)
    (own : ∀ change ∈ e.changes, change.2.entity = group) {row : GroupSiteRow}
    (greatest : LastGreatest GroupSiteRow.stamp (reachedSites group e.changes) row) :
    Stands (e.changes.map patchCall) row.entry := by
  rcases greatest with ⟨before, after, split, -, smaller⟩
  rw [reachedSites_eq] at split
  rcases List.filterMap_eq_append_iff.mp split with ⟨first, second, changes, rfl, rest⟩
  rcases List.filterMap_eq_cons_iff.mp rest with ⟨skipped, change, later, rfl, -, isRow, rfl⟩
  have isChange : change ∈ e.changes := by
    rw [changes]
    simp
  rcases Option.filter_eq_some_iff.mp isRow with ⟨isSite, isReached⟩
  rcases fits change isChange with ⟨decoded, isText⟩
  refine ⟨(first ++ skipped).map patchCall, patchCall change, later.map patchCall, ?_, ?_, ?_⟩
  · rw [changes]
    simp
  · exact ((writesEntry_siteURL_iff decoded isText).mpr ⟨row, isSite, rfl⟩).1
  · intro call isLater entry writes same
    rcases List.mem_map.mp isLater with ⟨other, member, rfl⟩
    have isOther : other ∈ e.changes := by
      rw [changes]
      simp [member]
    rcases fits other isOther with ⟨decoded', isText'⟩
    have isPath : entry.path = ["siteURL"] := Map.path_eq_of_key_eq same
    rcases (writesEntry_siteURL_iff decoded' isText').mp ⟨writes, isPath⟩ with
      ⟨row', isSite', rfl⟩
    have sameStamp : row'.stamp = row.stamp :=
      le_antisymm (entry_key_le_iff.mp same.le) (entry_key_le_iff.mp same.ge)
    have isGroup : row'.group = group := by
      rw [(siteRow_eq_some_iff.mp isSite').2.1]
      exact own other isOther
    have inAfter : row' ∈ later.filterMap (reachedSite group) := by
      rw [List.mem_filterMap]
      refine ⟨other, member, Option.filter_eq_some_iff.mpr ⟨isSite', ?_⟩⟩
      rw [sameStamp, isGroup]
      rw [Bool.and_eq_true] at isReached
      rw [isReached.1, decide_eq_true rfl]
      rfl
    exact absurd sameStamp (smaller row' inAfter).ne

theorem get_site_eq (loaded : Loaded group e) : e.state.get ["siteURL"] =
    ((e.state.versions ["siteURL"]).filter fun entry =>
      entry.stamp ≤ toLex (Crdt2.maxInt64, "")).getLast?.bind Entry.readable :=
  (Entity.sound_of_loaded loaded).1.map_sound.get_eq_reached (by decide) (by decide)

section Read

variable (loaded : Loaded group e) (fits : SitesFit e.changes)
  (own : ∀ change ∈ e.changes, change.2.entity = group)

include loaded fits

theorem versions_site : e.state.SortedAt ["siteURL"] ∧
    ∀ entry, entry ∈ e.state.versions ["siteURL"] ↔
      Stands (e.changes.map patchCall) entry ∧ entry.path = ["siteURL"] := by
  apply Map.mem_versions_iff_stands _ (.inl (by decide)) (performCalls_of_loaded loaded)
  intro call member
  rcases List.mem_map.mp member with ⟨change, isChange, rfl⟩
  exact (fits change isChange).1

include own

/-- An entry that is read comes from a change. -/
theorem exists_reachedSite {entry : Entry} (member : entry ∈ e.state.versions ["siteURL"])
    (reached : entry.stamp ≤ toLex (Crdt2.maxInt64, "")) :
    ∃ row ∈ reachedSites group e.changes, entry = row.entry := by
  rcases ((versions_site loaded fits).2 entry).mp member with ⟨stands, isPath⟩
  rcases stands.written with ⟨call, isCall, writes⟩
  rcases List.mem_map.mp isCall with ⟨change, isChange, rfl⟩
  rcases fits change isChange with ⟨decoded, isText⟩
  rcases (writesEntry_siteURL_iff decoded isText).mp ⟨writes, isPath⟩ with ⟨row, isRow, rfl⟩
  refine ⟨row, mem_reachedSites.mpr ⟨change, isChange, isRow, reached, ?_⟩, rfl⟩
  rw [(siteRow_eq_some_iff.mp isRow).2.1]
  exact own change isChange

/-- `Get` finds the last of the greatest values that it can find. -/
theorem get_site_of_lastGreatest {row : GroupSiteRow}
    (greatest : LastGreatest GroupSiteRow.stamp (reachedSites group e.changes) row) :
    e.state.get ["siteURL"] = some (.string row.url) := by
  rcases versions_site loaded fits with ⟨sorted, mem_iff⟩
  rcases mem_reachedSites.mp greatest.mem with ⟨-, -, -, reached, -⟩
  have isVersion : row.entry ∈ e.state.versions ["siteURL"] :=
    (mem_iff _).mpr ⟨stands_of_lastGreatest fits own greatest, rfl⟩
  have last : ((e.state.versions ["siteURL"]).filter fun entry =>
      entry.stamp ≤ toLex (Crdt2.maxInt64, "")).getLast? = some row.entry := by
    apply getLast?_of_greatest (sorted.versions.filter _)
    · exact List.mem_filter.mpr ⟨isVersion, decide_eq_true reached⟩
    · intro entry member
      rcases List.mem_filter.mp member with ⟨isEntry, inReach⟩
      rcases exists_reachedSite loaded fits own isEntry (of_decide_eq_true inReach) with
        ⟨other, isOther, rfl⟩
      exact entry_key_le_iff.mpr (greatest.le isOther)
  rw [get_site_eq loaded, last]
  rfl

theorem get_site_of_nothing (nothing : reachedSites group e.changes = []) :
    e.state.get ["siteURL"] = none := by
  have empty : (e.state.versions ["siteURL"]).filter (fun entry =>
      entry.stamp ≤ toLex (Crdt2.maxInt64, "")) = [] := by
    apply List.filter_eq_nil_iff.mpr
    intro entry isEntry inReach
    rcases exists_reachedSite loaded fits own isEntry (of_decide_eq_true inReach) with
      ⟨other, isOther, -⟩
    rw [nothing] at isOther
    cases isOther
  rw [get_site_eq loaded, empty]
  rfl

end Read

end Applied

/-! ## Agreement -/

/--
The first indexed of the changes with the greatest time and origin sets the same URL as the
last applied of those with the greatest time and origin that `Get` can find.
-/
def SameSite (group : String) (indexed applied : List (String × Change)) : Prop :=
  ∀ row, FirstGreatest GroupSiteRow.stamp (sitesOf group indexed) row →
    ∃ row', LastGreatest GroupSiteRow.stamp (reachedSites group applied) row' ∧
      row'.url = row.url

section Agreement

variable {F : Formats Data} {t : Store Data} {e : Entity} {group : String}
variable {journal : List (String × Change)}

theorem groupSite_eq (recorded : Recorded group (t, journal)) :
    match t.groupSite group with
    | none => sitesOf group journal = []
    | some row => FirstGreatest GroupSiteRow.stamp (sitesOf group journal) row := by
  have holds := foldl_keepGreatest GroupSiteRow.stamp (sitesOf group journal)
  have isRecord : t.groupSite group = journal.foldl (keepSite group) none := recorded
  rw [← foldl_keepSite, ← isRecord] at holds
  cases record : t.groupSite group with
  | none =>
      rw [record] at holds
      exact holds
  | some row =>
      rw [record] at holds
      exact holds

/--
Without a change that sets the URL of the site no record exists; otherwise the record and the
entity with the same changes have the same URL exactly when they take it from such changes.
-/
theorem groupSite_agrees_iff
    (run : Reaches (acceptChange F) (fun _ _ => True) (.empty, []) (t, journal))
    (isGroup : IsGroup group) (loaded : Loaded group e)
    (same : e.changes.Perm (journal.filter fun change => change.2.entity = group))
    (fits : SitesFit e.changes) :
    ((∀ change ∈ e.changes, Object.get change.2.patch "siteURL" = none) →
      t.groupSite group = none) ∧
    ((t.groupSite group).map (fun row => Value.string row.url) = e.state.get ["siteURL"] ↔
      SameSite group journal e.changes) := by
  have record := groupSite_eq (recorded_of_run run isGroup)
  have mem_changes : ∀ change, change ∈ e.changes ↔
      change ∈ journal ∧ change.2.entity = group := by
    intro change
    rw [same.mem_iff, List.mem_filter, decide_eq_true_eq]
  have own : ∀ change ∈ e.changes, change.2.entity = group := by
    intro change member
    exact ((mem_changes change).mp member).2
  have mem_sites : ∀ row, row ∈ sitesOf group journal ↔
      ∃ change ∈ e.changes, siteRow change = some row := by
    intro row
    rw [sitesOf, List.mem_filter, List.mem_filterMap, decide_eq_true_eq]
    constructor
    · rintro ⟨⟨change, isIndexed, isRow⟩, isOwn⟩
      refine ⟨change, (mem_changes change).mpr ⟨isIndexed, ?_⟩, isRow⟩
      rw [← (siteRow_eq_some_iff.mp isRow).2.1, isOwn]
    · rintro ⟨change, member, isRow⟩
      refine ⟨⟨change, ((mem_changes change).mp member).1, isRow⟩, ?_⟩
      rw [(siteRow_eq_some_iff.mp isRow).2.1, own change member]
  constructor
  · intro noSite
    cases isRecord : t.groupSite group with
    | none => rfl
    | some row =>
        rw [isRecord] at record
        rcases (mem_sites row).mp record.mem with ⟨change, member, isRow⟩
        have isSite := (siteRow_eq_some_iff.mp isRow).1
        rw [noSite change member] at isSite
        cases isSite
  · cases isRecord : t.groupSite group with
    | none =>
        rw [isRecord] at record
        have nothing : reachedSites group e.changes = [] := by
          apply List.eq_nil_iff_forall_not_mem.mpr
          intro row member
          rcases mem_reachedSites.mp member with ⟨change, isChange, isRow, -⟩
          have isSite := (mem_sites row).mpr ⟨change, isChange, isRow⟩
          rw [record] at isSite
          cases isSite
        rw [get_site_of_nothing loaded fits own nothing]
        apply iff_of_true rfl
        intro row greatest
        rw [record] at greatest
        cases greatest.mem
    | some row =>
        rw [isRecord] at record
        rw [Option.map_some]
        constructor
        · intro agrees row' greatest
          cases record.unique greatest
          have found : reachedSites group e.changes ≠ [] := by
            intro nothing
            rw [get_site_of_nothing loaded fits own nothing] at agrees
            cases agrees
          rcases exists_lastGreatest GroupSiteRow.stamp found with ⟨last, isLast⟩
          rw [get_site_of_lastGreatest loaded fits own isLast] at agrees
          exact ⟨last, isLast, (Value.string.inj (Option.some.inj agrees)).symm⟩
        · intro sameSite
          rcases sameSite row record with ⟨last, isLast, sameURL⟩
          rw [get_site_of_lastGreatest loaded fits own isLast, sameURL]

end Agreement

/-! ## A site with a late time -/

deriving instance DecidableEq for Change

/-- A patch without nested objects. -/
theorem decoded_of_flat {patch : Object} (flat : Map.nestedFields [] patch = [])
    (unique : (patch.map Prod.fst).Nodup) : Decoded patch := by
  intro front reached
  rcases Relation.ReflTransGen.cases_head reached with rfl | ⟨next, child, -⟩
  · exact unique
  · have member := Map.mem_nestedFields.mpr child
    rw [flat] at member
    cases member

/-- The owner of the group gives it a site. -/
def siteChange (time : Int) : Change where
  deps := ["ccreate"]
  delegation := "cdelegation1"
  action := "Update"
  hlcTime := time
  entity := sampleGroup
  patch := [("siteURL", .string "https://site")]
  signer := samplePrincipal 11
  sig := "signature"

/-- A group is created and gets a site. -/
def siteArrivals (time : Int) : List (Arrival DecodedBlob) :=
  [⟨.listed, "cdelegation1", .keyDelegation (sampleDelegation 1 11)⟩, createArrival,
    ⟨.listed, "csite", .change (siteChange time)⟩]

/-- The store and the changes of the group after these arrivals. -/
def siteRun (time : Int) : Option (Store DecodedBlob × List (String × Change)) :=
  performAll (acceptChange (urlFormats sampleSha256)) (.empty, []) (siteArrivals time)

/-- The same changes, as they are applied to the entity. -/
def siteOffers (time : Int) : List Offer :=
  [⟨"ccreate", sampleCreate, 1700000004000000⟩, ⟨"csite", siteChange time, 1700000004000000⟩]

/-- The entity that these changes lead to. -/
def siteEntity (time : Int) : Option Entity :=
  performAll Entity.applyOffer (newEntity sampleGroup) (siteOffers time)

theorem loaded_of_performAll {group : String} {e e' : Entity} {offers : List Offer}
    (loaded : Loaded group e) (performed : performAll Entity.applyOffer e offers = some e') :
    Loaded group e' := by
  induction offers generalizing e with
  | nil => exact Option.some.inj performed ▸ loaded
  | cons offer offers induction =>
      rcases Option.bind_eq_some_iff.mp performed with ⟨next, applied, rest⟩
      exact induction (.apply _ _ _ loaded (Entity.applyOffer_eq_some applied)) rest

theorem sitesFit_siteChange (time : Int) :
    SitesFit [("ccreate", sampleCreate), ("csite", siteChange time)] := by
  intro change member
  rcases List.mem_pair.mp member with rfl | rfl
  · constructor
    · exact decoded_of_flat rfl (by decide)
    · intro value isSite
      cases isSite
  · constructor
    · exact decoded_of_flat rfl (by simp [siteChange])
    · intro value isSite
      exact ⟨"https://site", (Option.some.inj isSite).symm⟩

/-- A run of the store and one of the entity, with the changes that both have seen. -/
structure SiteSample (time : Int) where
  run : Evaluated (siteRun time)
  entity : Evaluated (siteEntity time)
  indexed : run.val.2 = [("ccreate", sampleCreate), ("csite", siteChange time)]
  applied : entity.val.changes = [("ccreate", sampleCreate), ("csite", siteChange time)]

namespace SiteSample

variable {time : Int} (sample : SiteSample time)

theorem reaches : Reaches (acceptChange (urlFormats sampleSha256)) (fun _ _ => True)
    (.empty, []) (sample.run.val.1, sample.run.val.2) :=
  reaches_of_performAll (allPermitted_true _) sample.run.property

theorem loaded : Loaded sampleGroup sample.entity.val :=
  loaded_of_performAll .new sample.entity.property

theorem fits : SitesFit sample.entity.val.changes := by
  rw [sample.applied]
  exact sitesFit_siteChange time

theorem same : sample.entity.val.changes.Perm
    (sample.run.val.2.filter fun change => change.2.entity = sampleGroup) := by
  rw [sample.applied, sample.indexed]
  exact List.Perm.of_eq (by simp [sampleCreate, siteChange])

end SiteSample

/-- A site that is set before the greatest time. -/
def siteSample : SiteSample 1700000002000000 where
  run := .of (by decide +kernel)
  entity := .of (by decide +kernel)
  indexed := by decide +kernel
  applied := by decide +kernel

theorem groupSite_agrees_iff_siteSample :
    ((∀ change ∈ siteSample.entity.val.changes,
        Object.get change.2.patch "siteURL" = none) →
      siteSample.run.val.1.groupSite sampleGroup = none) ∧
    ((siteSample.run.val.1.groupSite sampleGroup).map (fun row => Value.string row.url) =
        siteSample.entity.val.state.get ["siteURL"] ↔
      SameSite sampleGroup siteSample.run.val.2 siteSample.entity.val.changes) :=
  groupSite_agrees_iff siteSample.reaches (by decide) siteSample.loaded siteSample.same
    siteSample.fits

/-- The site is set at the greatest time there is. -/
def lastSample : SiteSample Crdt2.maxInt64 where
  run := .of (by decide +kernel)
  entity := .of (by decide +kernel)
  indexed := by decide +kernel
  applied := by decide +kernel

/-- The table has the site of a change with the greatest time, which the entity does not find. -/
theorem last_site_is_not_found :
    Reaches (acceptChange (urlFormats sampleSha256)) (fun _ _ => True) (.empty, [])
        lastSample.run.val ∧
      Loaded sampleGroup lastSample.entity.val ∧
      lastSample.entity.val.changes.Perm
        (lastSample.run.val.2.filter fun change => change.2.entity = sampleGroup) ∧
      SitesFit lastSample.entity.val.changes ∧
      (lastSample.run.val.1.groupSite sampleGroup).map (fun row => Value.string row.url) =
        some (.string "https://site") ∧
      lastSample.entity.val.state.get ["siteURL"] = none :=
  ⟨lastSample.reaches, lastSample.loaded, lastSample.same, lastSample.fits,
    by decide +kernel, by decide +kernel⟩

end Mintter.Hyper
