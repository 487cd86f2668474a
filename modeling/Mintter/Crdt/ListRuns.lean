import Mintter.Crdt.List

/-!
# Lists agree in every causal order

Insertions arrive one after the other, each behind a position that is known by then.  An
insertion that carries an identifier of the root is refused, whenever it arrives; what is
integrated is the causal insertion of the other ones.
-/

namespace Mintter.Crdt

open Mintter.Foundation

variable {V : Type}

/-- An operation that arrives: what it inserts, and behind what. -/
structure Insertion (V : Type) where
  id : ID
  ref : ID
  value : Option V
deriving DecidableEq, Repr

namespace ListCRDT

/-- Integrate behind the position of the ref. -/
def insert (l : ListCRDT V) (new : Insertion V) (fuel : Nat) :
    Outcome (Except String (ListCRDT V)) :=
  match l.findPos new.ref with
  | .error err => pure (.error err)
  | .ok parent => do
      match ← l.integrate new.id parent new.value fuel with
      | .error err => pure (.error err)
      | .ok (_, l) => pure (.ok l)

/-- Integrate in the order of arrival; what is refused changes nothing. -/
def integrateAll : List (Insertion V) → ListCRDT V → Nat → Outcome (ListCRDT V)
  | [], l, _ => pure l
  | new :: rest, l, fuel => do
      match ← l.insert new fuel with
      | .error _ => integrateAll rest l fuel
      | .ok l => integrateAll rest l fuel

end ListCRDT

/-- Identifiers are distinct, and a ref is the start of the list or a smaller one that is there. -/
structure Causal (order : List (Insertion V)) : Prop where
  distinct : (order.map Insertion.id).Nodup
  refs : ∀ n (inRange : n < order.length), IsSentinel order[n].ref ∨
    ∃ target ∈ order.take n, target.id = order[n].ref ∧ target.id < order[n].id

/--
A consistent list: the walk to the right lists what was integrated, each identifier once, and
the links to the left and to the right undo each other.
-/
structure ListCRDT.Consistent (l : ListCRDT V) (ids : List ID) : Prop where
  walk : Converges l.ids (.ok ids)
  nodup : ids.Nodup
  mem_iff : ∀ id, id ∈ ids ↔ l.items id = some (.position id)
  left_right : ∀ id pos, l.items id = some pos → (l.cell (l.cell pos).right).left = pos
  right_left : ∀ id pos, l.items id = some pos → (l.cell (l.cell pos).left).right = pos

namespace ListCRDT.Represents

variable {l : ListCRDT V} {elements before after : List Element}

/-- The walk to the right lists the elements that follow. -/
theorem idsFrom_converges (represents : l.Represents (before ++ after)) :
    Converges (fun fuel => l.idsFrom fuel ((pointers after).headD .root))
      (.ok (after.map Element.id)) := by
  induction after generalizing before with
  | nil =>
      apply (Converges.const _).of_succ
      intro fuel
      rfl
  | cons element after induction =>
      rw [← List.singleton_append, ← List.append_assoc] at represents
      have right := represents.right_getLastD
      rw [getLastD_concat] at right
      apply ((induction represents).map fun rest => element.id :: rest).of_succ
      intro fuel
      change ListCRDT.idsFrom l (fuel + 1) (.position element.id) = _
      rw [idsFrom, if_neg Pointer.noConfusion, right, (represents.cells element (by simp)).1]

theorem consistent (represents : l.Represents elements) :
    l.Consistent (elements.map Element.id) := by
  have known : ∀ id pos, l.items id = some pos → pos ∈ Pointer.root :: pointers elements := by
    intro id pos isItem
    rw [represents.items] at isItem
    split at isItem
    · cases isItem
      exact List.mem_cons_self
    · split at isItem
      · rename_i member
        cases isItem
        exact List.mem_cons_of_mem _ (position_mem_pointers.mpr member)
      · cases isItem
  constructor
  · have all : l.Represents ([] ++ elements) := represents
    have right : (l.cell .root).right = (pointers elements).headD .root :=
      all.right_getLastD
    apply all.idsFrom_converges.congr
    intro fuel
    rw [ids, right]
  · exact represents.nodup
  · intro id
    rw [represents.items]
    constructor
    · intro member
      rcases List.mem_map.mp member with ⟨element, isElement, rfl⟩
      rw [if_neg (represents.proper element isElement), if_pos member]
    · intro isItem
      split at isItem
      · cases isItem
      · split at isItem
        · assumption
        · cases isItem
  · intro id pos isItem
    exact represents.ring.left_right (known id pos isItem)
  · intro id pos isItem
    exact represents.ring.right_left (known id pos isItem)

end ListCRDT.Represents

/-! ## The elements of the insertions -/

/-- The element of an insertion; the root is known to it as the start of the list. -/
def Insertion.element (new : Insertion V) : Element :=
  ⟨new.id, if IsSentinel new.ref then listStart else new.ref⟩

/-- The elements of the insertions that are not refused. -/
def placed (order : List (Insertion V)) : List Element :=
  (order.filter fun new => ¬ IsSentinel new.id).map Insertion.element

/-- What is placed are the elements of the insertions, but for the sentinels. -/
theorem mem_placed {order : List (Insertion V)} {element : Element} :
    element ∈ placed order ↔
      ∃ new ∈ order, ¬ IsSentinel new.id ∧ new.element = element := by
  simp [placed, and_assoc]

namespace Causal

variable {order seen rest : List (Insertion V)} {new : Insertion V}

/-- An insertion refers to a sentinel or to a smaller one that came before. -/
theorem ref_known (causal : Causal order) (split : order = seen ++ new :: rest) :
    IsSentinel new.ref ∨ ∃ target ∈ seen, target.id = new.ref ∧ target.id < new.id := by
  subst split
  have known := causal.refs seen.length (by simp)
  simpa using known

theorem of_append (causal : Causal (seen ++ rest)) : Causal seen := by
  constructor
  · have distinct := causal.distinct
    rw [List.map_append] at distinct
    exact (List.nodup_append.mp distinct).1
  · intro n inRange
    have known := causal.refs n (by rw [List.length_append]; omega)
    rwa [List.getElem_append_left inRange, List.take_append_of_le_length inRange.le] at known

/-- No element is placed twice. -/
theorem placed_ids_nodup (causal : Causal order) : ((placed order).map Element.id).Nodup := by
  have ids : (placed order).map Element.id =
      (order.filter fun new => ¬ IsSentinel new.id).map Insertion.id := by
    rw [placed, List.map_map]
    rfl
  rw [ids]
  exact (List.filter_sublist.map Insertion.id).nodup causal.distinct

/-- Elements of distinct insertions can be told from each other. -/
theorem coherent (causal : Causal order) : rga.Coherent (· ∈ placed order) := by
  have injective : ∀ {item other}, item ∈ placed order → other ∈ placed order →
      item.id = other.id → item = other := by
    intro item other isItem isOther same
    exact List.inj_on_of_nodup_map causal.placed_ids_nodup isItem isOther same
  constructor
  · exact injective
  · intro item first second _ isFirst isSecond refers refers'
    apply injective isFirst isSecond
    exact (of_decide_eq_true refers).symm.trans (of_decide_eq_true refers')

theorem ready (causal : Causal order) {before after : List Element} {element : Element}
    (split : placed order = before ++ element :: after) : rga.Ready before element := by
  rcases List.map_eq_append_iff.mp split with ⟨first, last, filtered, rfl, mapped⟩
  rcases List.map_eq_cons_iff.mp mapped with ⟨new, kept, rfl, rfl, rfl⟩
  rcases List.filter_eq_append_iff.mp filtered with ⟨seen, rest, rfl, rfl, filtered'⟩
  rcases List.filter_eq_cons_iff.mp filtered' with ⟨skipped, rest, rfl, refused, isKept, rfl⟩
  have whole : seen ++ (skipped ++ new :: rest) = (seen ++ skipped) ++ new :: rest :=
    (List.append_assoc _ _ _).symm
  rcases causal.ref_known whole with
    isSentinel | ⟨target, isSeen, isRef, less⟩
  · left
    apply decide_eq_true
    exact if_pos isSentinel
  · by_cases isSentinel : IsSentinel new.ref
    · left
      apply decide_eq_true
      exact if_pos isSentinel
    · have elementRef : new.element.ref = new.ref := if_neg isSentinel
      right
      constructor
      · intro isHead
        exact isSentinel (.inl (elementRef.symm.trans (of_decide_eq_true isHead)))
      · refine ⟨target.element, ?_, decide_eq_true (elementRef.trans isRef.symm), less⟩
        have proper : ¬ IsSentinel target.id := isRef ▸ isSentinel
        rcases List.mem_append.mp isSeen with isFirst | isSkipped
        · exact mem_placed.mpr ⟨target, isFirst, proper, rfl⟩
        · exact absurd (decide_eq_true proper) (refused target isSkipped)

/-- The placed elements come in a causal order. -/
theorem causalOrder (causal : Causal order) : rga.CausalOrder (placed order) := by
  constructor
  · exact List.Nodup.of_map Element.id causal.placed_ids_nodup
  · intro before element after split
    exact causal.ready split

/-- The elements that arrived in a causal order are arranged by their paths. -/
theorem arranged (causal : Causal order) :
    rga.Arranged (· ∈ placed order) (rga.build (placed order)) ∧
      (rga.build (placed order)).Perm (placed order) :=
  CausalInsertion.build_arranged causal.coherent (fun _ member => member) causal.causalOrder

end Causal

theorem placed_concat (seen : List (Insertion V)) (new : Insertion V) :
    placed (seen ++ [new]) = if IsSentinel new.id then placed seen
      else placed seen ++ [new.element] := by
  by_cases isSentinel : IsSentinel new.id
  · simp [placed, isSentinel]
  · simp [placed, isSentinel]

/-! ## Runs -/

namespace ListCRDT

variable {l : ListCRDT V} {order order' seen rest : List (Insertion V)} {new : Insertion V}

/-- The position of a ref is known when it is delivered before. -/
theorem findPos_ref (causal : Causal (seen ++ [new]))
    (represents : l.Represents (rga.build (placed seen))) :
    ∃ parent, l.findPos new.ref = .ok parent ∧
      Represents.Knows (rga.build (placed seen)) parent ∧
      (l.cell parent).id = new.element.ref := by
  by_cases isSentinel : IsSentinel new.ref
  · refine ⟨.root, ?_, .inl rfl, ?_⟩
    · rw [findPos, represents.items, if_pos isSentinel]
    · rw [represents.root]
      exact (if_pos isSentinel).symm
  · rcases causal.ref_known rfl with isSentinel' | ⟨target, isSeen, isRef, -⟩
    · exact absurd isSentinel' isSentinel
    · have placed : target.element ∈ rga.build (placed seen) := by
        rw [causal.of_append.arranged.2.mem_iff]
        exact mem_placed.mpr ⟨target, isSeen, isRef ▸ isSentinel, rfl⟩
      have isItem : l.items target.id = some (.position target.id) :=
        represents.items_of_mem placed
      have targetId : (l.cell (.position target.id)).id = target.id :=
        (represents.cells _ placed).1
      refine ⟨.position target.id, ?_, .inr ⟨_, placed, rfl⟩, ?_⟩
      · rw [findPos, ← isRef, isItem]
      · rw [targetId, isRef]
        exact (if_neg isSentinel).symm

/-- What is there already is rejected. -/
theorem integrate_known {id : ID} (isKnown : (l.items id).isSome) (parent : Pointer)
    (v : Option V) : ∃ err, ∀ fuel, l.integrate id parent v fuel = .ok (.error err) := by
  exact ⟨_, fun _ => if_pos isKnown⟩

/-- An insertion that may arrive is a rejected sentinel, or goes where its path says. -/
theorem insert_converges (causal : Causal (seen ++ [new]))
    (represents : l.Represents (rga.build (placed seen))) :
    (IsSentinel new.id ∧ ∃ err, Converges (l.insert new) (.ok (.error err))) ∨
      ∃ l', Converges (l.insert new) (.ok (.ok l')) ∧
        l'.Represents (rga.build (placed (seen ++ [new]))) := by
  rcases findPos_ref causal represents with ⟨parent, found, known, refId⟩
  by_cases isSentinel : IsSentinel new.id
  · left
    have isKnown : (l.items new.id).isSome = true := by
      rw [represents.items, if_pos isSentinel]
      rfl
    rcases integrate_known isKnown parent new.value with ⟨err, refused⟩
    have refuses : ∀ fuel, l.insert new fuel = .ok (.error err) := by
      intro fuel
      rw [insert, found]
      simp only [refused, ok_bind]
      rfl
    exact ⟨isSentinel, err, (Converges.const _).congr fun fuel => (refuses fuel).symm⟩
  · right
    have notIn : new.id ∉ (rga.build (placed seen)).map Element.id := by
      rw [(causal.of_append.arranged.2.map Element.id).mem_iff]
      intro member
      have distinct := causal.placed_ids_nodup
      rw [placed_concat, if_neg isSentinel, List.map_append] at distinct
      exact (List.nodup_append.mp distinct).2.2 _ member _ List.mem_cons_self rfl
    rcases represents.integrate_converges known
      (represents.items_eq_none isSentinel notIn) new.value with ⟨l', converges, integrated⟩
    refine ⟨l', ?_, ?_⟩
    · have inserts : l.insert new = fun fuel =>
          l.integrate new.id parent new.value fuel >>= fun result =>
            match result with
            | .error err => pure (.error err)
            | .ok (_, l) => pure (.ok l) := by
        funext fuel
        rw [insert, found]
      rw [inserts]
      exact converges.bind (.const _)
    · have built := integrated.represents
      rw [refId] at built
      rw [placed_concat, if_neg isSentinel, CausalInsertion.build, List.foldl_append]
      exact built

/-- Insertions in a causal order lead to the list that their paths say. -/
theorem integrateAll_converges (causal : Causal (seen ++ rest))
    (represents : l.Represents (rga.build (placed seen))) :
    ∃ l', Converges (integrateAll rest l) (.ok l') ∧
      l'.Represents (rga.build (placed (seen ++ rest))) := by
  induction rest generalizing seen l with
  | nil =>
      rw [List.append_nil]
      exact ⟨l, .const _, represents⟩
  | cons new rest induction =>
      rw [← List.singleton_append, ← List.append_assoc] at causal ⊢
      have step : integrateAll (new :: rest) l = fun fuel =>
          l.insert new fuel >>= fun result =>
            match result with
            | .error _ => integrateAll rest l fuel
            | .ok l => integrateAll rest l fuel := rfl
      rcases insert_converges causal.of_append represents with
        ⟨isSentinel, err, refused⟩ | ⟨l', inserted, represents'⟩
      · have same : placed (seen ++ [new]) = placed seen := by
          rw [placed_concat, if_pos isSentinel]
        rcases induction causal (same ▸ represents) with ⟨l', converges, represents'⟩
        refine ⟨l', ?_, represents'⟩
        rw [List.singleton_append, step]
        exact refused.bind converges
      · rcases induction causal represents' with ⟨final, converges, represents''⟩
        refine ⟨final, ?_, represents''⟩
        rw [List.singleton_append, step]
        exact inserted.bind converges

/--
Two causal orders of the same insertions leave the same sequence, every element behind its ref,
in consistent lists.
-/
theorem integrateAll_agree (causal : Causal order) (causal' : Causal order')
    (perm : order.Perm order') (lid : String) :
    ∃ l l' ids, Converges (integrateAll order (newList lid)) (.ok l) ∧
      Converges (integrateAll order' (newList lid)) (.ok l') ∧
      l.Consistent ids ∧ l'.Consistent ids ∧
      (∀ new ∈ order, ¬ IsSentinel new.id → new.id ∈ ids) ∧
      ∀ new ∈ order, ¬ IsSentinel new.id → ¬ IsSentinel new.ref →
        [new.ref, new.id].Sublist ids := by
  rcases integrateAll_converges (show Causal ([] ++ order) from causal)
    (newList_represents lid) with ⟨l, converges, represents⟩
  rcases integrateAll_converges (show Causal ([] ++ order') from causal')
    (newList_represents lid) with ⟨l', converges', represents'⟩
  have same : rga.build (placed order) = rga.build (placed order') :=
    CausalInsertion.build_eq_of_perm causal.coherent (fun _ member => member)
      causal.causalOrder causal'.causalOrder ((perm.filter _).map _)
  rw [List.nil_append] at represents represents'
  rw [← same] at represents'
  rcases causal.arranged with ⟨arranged, built⟩
  have isBuilt : ∀ new ∈ order, ¬ IsSentinel new.id →
      new.element ∈ rga.build (placed order) := by
    intro new member proper
    rw [built.mem_iff]
    exact mem_placed.mpr ⟨new, member, proper, rfl⟩
  refine ⟨l, l', _, converges, converges', represents.consistent, represents'.consistent,
    ?_, ?_⟩
  · intro new member proper
    exact List.mem_map_of_mem (isBuilt new member proper)
  · intro new member proper properRef
    rcases List.append_of_mem member with ⟨seen, rest, split⟩
    rcases causal.ref_known split with isSentinel | ⟨target, isSeen, isRef, -⟩
    · exact absurd isSentinel properRef
    · have isTarget : target.element ∈ rga.build (placed order) := by
        apply isBuilt target _ (isRef ▸ properRef)
        rw [split]
        exact List.mem_append_left _ isSeen
      have elementRef : new.element.ref = new.ref := if_neg properRef
      have notHead : ¬ rga.isHead new.element = true := by
        intro isHead
        exact properRef (.inl (elementRef.symm.trans (of_decide_eq_true isHead)))
      have before := (arranged.sublist_of_refersTo causal.coherent (isBuilt new member proper)
        notHead isTarget (decide_eq_true (elementRef.trans isRef.symm))).map Element.id
      rw [← isRef]
      exact before

/-- Two authors write behind the same letter. -/
def threeLetters : List (Insertion String) :=
  [⟨⟨"a", 1, 0⟩, listStart, some "A"⟩, ⟨⟨"a", 2, 0⟩, ⟨"a", 1, 0⟩, some "B"⟩,
    ⟨⟨"b", 3, 0⟩, ⟨"a", 1, 0⟩, some "D"⟩]

/-- The same letters, in another causal order. -/
def threeLetters' : List (Insertion String) :=
  [⟨⟨"a", 1, 0⟩, listStart, some "A"⟩, ⟨⟨"b", 3, 0⟩, ⟨"a", 1, 0⟩, some "D"⟩,
    ⟨⟨"a", 2, 0⟩, ⟨"a", 1, 0⟩, some "B"⟩]

theorem integrateAll_agree_threeLetters :
    ∃ l l' ids, Converges (integrateAll threeLetters (newList "rga")) (.ok l) ∧
      Converges (integrateAll threeLetters' (newList "rga")) (.ok l') ∧
      l.Consistent ids ∧ l'.Consistent ids ∧
      (∀ new ∈ threeLetters, ¬ IsSentinel new.id → new.id ∈ ids) ∧
      ∀ new ∈ threeLetters, ¬ IsSentinel new.id → ¬ IsSentinel new.ref →
        [new.ref, new.id].Sublist ids :=
  integrateAll_agree ⟨by decide, by decide⟩ ⟨by decide, by decide⟩ (by decide) "rga"

/-- The letter with the greater identifier comes first. -/
example : (integrateAll threeLetters (newList "rga") 5 >>= fun l => l.ids 5) =
    .ok [⟨"a", 1, 0⟩, ⟨"b", 3, 0⟩, ⟨"a", 2, 0⟩] := by
  decide +kernel

end ListCRDT

end Mintter.Crdt
