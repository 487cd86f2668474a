import Mathlib.Tactic

/-!
# Listing page by page

A request with a token answers with the rows of one page and the token of the
next page.  Following the tokens until the last one lists the rows of all pages.
A server selects the rows after a token, keeps as many as a page holds, and
hands out a token of the last row it kept when there are more.

`follows_iff_boundaries` says when this lists a given list: at every row that
ends a page, the rows selected after its token have to begin with the rows that
follow it.
-/

namespace Mintter.Foundation

/-! ## Cursors as tokens -/

/-- How a cursor is written as a page token. -/
structure TokenFormat (γ : Type) where
  encode : γ → String
  decode : String → Except String γ
  decode_encode : ∀ cursor, decode (encode cursor) = .ok cursor
  encode_ne_empty : ∀ cursor, encode cursor ≠ ""

namespace TokenFormat

/-- Cursors written as numbers of one letter. -/
def counted (γ : Type) [Encodable γ] : TokenFormat γ where
  encode cursor := String.ofList (List.replicate (Encodable.encode cursor + 1) 'c')
  decode token := match Encodable.decode (token.toList.length - 1) with
    | some cursor => .ok cursor
    | none => .error "bad page token"
  decode_encode cursor := by
    rw [String.toList_ofList, List.length_replicate, Nat.add_sub_cancel,
      Encodable.encodek]
  encode_ne_empty cursor empty := by
    have noLetters := congrArg String.toList empty
    rw [String.toList_ofList, List.replicate_succ] at noLetters
    cases noLetters

variable {γ : Type} [DecidableEq γ]

/-- The format that writes one cursor with a text of its own. -/
def withText (T : TokenFormat γ) (known : γ) (text : String)
    (fresh : ∀ cursor, T.encode cursor ≠ text) (nonempty : text ≠ "") :
    TokenFormat γ where
  encode cursor := if cursor = known then text else T.encode cursor
  decode token := if token = text then .ok known else T.decode token
  decode_encode cursor := by
    by_cases isKnown : cursor = known
    · rw [if_pos isKnown, if_pos rfl, isKnown]
    · rw [if_neg isKnown, if_neg (fresh cursor), T.decode_encode]
  encode_ne_empty cursor := by
    by_cases isKnown : cursor = known
    · rwa [if_pos isKnown]
    · rw [if_neg isKnown]
      exact T.encode_ne_empty cursor

/-- A text that begins with another letter is not the text of a number. -/
theorem counted_ne (γ : Type) [Encodable γ] {text : String}
    (differs : text.toList.head? ≠ some 'c') (cursor : γ) :
    (counted γ).encode cursor ≠ text := by
  intro same
  apply differs
  rw [← same, counted, String.toList_ofList, List.replicate_succ, List.head?_cons]

end TokenFormat

/-! ## Following the tokens -/

section Follows

variable {τ ρ ε : Type*} {fetch : τ → Except ε (List ρ × τ)} {done : τ}
variable {token : τ} {rows : List ρ}

/-- Following the tokens from this one ends and lists these rows. -/
inductive Follows (fetch : τ → Except ε (List ρ × τ)) (done : τ) :
    τ → List ρ → Prop where
  | last {token : τ} {rows : List ρ} (fetched : fetch token = .ok (rows, done)) :
      Follows fetch done token rows
  | more {token next : τ} {rows rest : List ρ}
      (fetched : fetch token = .ok (rows, next)) (goesOn : next ≠ done)
      (followed : Follows fetch done next rest) :
      Follows fetch done token (rows ++ rest)

/-- The listing is determined by the first token. -/
theorem Follows.unique {rows' : List ρ} (first : Follows fetch done token rows)
    (second : Follows fetch done token rows') : rows = rows' := by
  induction first generalizing rows' with
  | last fetched =>
      cases second with
      | last fetched' =>
          exact (Prod.mk.inj (Except.ok.inj (fetched.symm.trans fetched'))).1
      | more fetched' goesOn _ =>
          have pair := Prod.mk.inj (Except.ok.inj (fetched.symm.trans fetched'))
          exact absurd pair.2.symm goesOn
  | more fetched goesOn _ induction =>
      cases second with
      | last fetched' =>
          have pair := Prod.mk.inj (Except.ok.inj (fetched.symm.trans fetched'))
          exact absurd pair.2 goesOn
      | more fetched' _ followed' =>
          have pair := Prod.mk.inj (Except.ok.inj (fetched.symm.trans fetched'))
          rcases pair with ⟨rfl, rfl⟩
          rw [induction followed']

/-- What holds of the rows of every page holds of all rows listed. -/
theorem Follows.all_rows (property : ρ → Prop)
    (ofPage : ∀ {token rows next}, fetch token = .ok (rows, next) →
      ∀ row ∈ rows, property row)
    (followed : Follows fetch done token rows) : ∀ row ∈ rows, property row := by
  induction followed with
  | last fetched => exact ofPage fetched
  | more fetched _ _ induction =>
      intro row member
      rcases List.mem_append.mp member with inPage | inRest
      · exact ofPage fetched row inPage
      · exact induction row inRest

end Follows

section Pages

variable {τ ρ ε : Type*} {fetch : τ → Except ε (List ρ × τ)} {done : τ}
variable {known : τ → Prop} {size : Nat} {select : τ → List ρ} {tokenOf : ρ → τ}

/-- The token after a page: that of its last row when there are more rows. -/
def nextToken (size : Nat) (done : τ) (tokenOf : ρ → τ) (rows : List ρ) : τ :=
  if size < rows.length then ((rows.take size).getLast?.map tokenOf).getD done
  else done

/-- A server that serves pages of the selected rows for the tokens it handed out. -/
structure Serves (fetch : τ → Except ε (List ρ × τ)) (done : τ)
    (known : τ → Prop) (size : Nat) (select : τ → List ρ) (tokenOf : ρ → τ) :
    Prop where
  size_pos : 0 < size
  fetch_eq : ∀ token, known token → fetch token =
    .ok ((select token).take size, nextToken size done tokenOf (select token))
  token_ne : ∀ token, known token → ∀ row ∈ select token, tokenOf row ≠ done
  token_known : ∀ token, known token → ∀ row ∈ select token, known (tokenOf row)

/-- What holds of all rows that known tokens select holds of all rows listed. -/
theorem Serves.all_rows (serves : Serves fetch done known size select tokenOf)
    (property : ρ → Prop)
    (selected : ∀ token, known token → ∀ row ∈ select token, property row)
    {token : τ} {rows : List ρ} (isKnown : known token)
    (followed : Follows fetch done token rows) : ∀ row ∈ rows, property row := by
  induction followed with
  | @last token rows fetched =>
      rw [serves.fetch_eq token isKnown] at fetched
      rcases Prod.mk.inj (Except.ok.inj fetched) with ⟨rfl, -⟩
      intro row member
      exact selected token isKnown row (List.mem_of_mem_take member)
  | @more token next rows rest fetched goesOn _ induction =>
      rw [serves.fetch_eq token isKnown] at fetched
      rcases Prod.mk.inj (Except.ok.inj fetched) with ⟨rfl, rfl⟩
      have isKnown' : known (nextToken size done tokenOf (select token)) := by
        rw [nextToken] at goesOn ⊢
        split at goesOn
        · next more =>
            rw [if_pos more]
            cases last : ((select token).take size).getLast? with
            | none => exact absurd (by rw [last]; rfl) goesOn
            | some row =>
                have member := List.mem_of_mem_take (List.mem_of_getLast? last)
                exact serves.token_known token isKnown row member
        · exact absurd rfl goesOn
      intro row member
      rcases List.mem_append.mp member with inPage | inRest
      · exact selected token isKnown row (List.mem_of_mem_take inPage)
      · exact induction isKnown' row inRest

/-- The row ends a page of the listing, and these rows follow. -/
def EndsPage (size : Nat) (rows : List ρ) (row : ρ) (back : List ρ) : Prop :=
  back ≠ [] ∧ ∃ front, rows = front ++ row :: back ∧ size ∣ front.length + 1

/-- The rows selected after a row begin with the page that follows it. -/
def Continues (size : Nat) (select : τ → List ρ) (tokenOf : ρ → τ) (row : ρ)
    (back : List ρ) : Prop :=
  (select (tokenOf row)).take size = back.take size ∧
    (size < back.length → size < (select (tokenOf row)).length)

variable {token : τ} {rows back front : List ρ} {row : ρ}

/-- A page with more rows behind it ends with the token of its last row. -/
theorem nextToken_of_more (more : size < rows.length) (page : rows.take size =
    front ++ [row]) : nextToken size done tokenOf rows = tokenOf row := by
  rw [nextToken, if_pos more, page, List.getLast?_concat]
  rfl

/-- One row more than a page tells whether there is a next page. -/
theorem nextToken_take : nextToken size done tokenOf (rows.take (size + 1)) =
    nextToken size done tokenOf rows := by
  have more_iff : size < (rows.take (size + 1)).length ↔ size < rows.length := by
    rw [List.length_take]
    omega
  rw [nextToken, nextToken, List.take_take, Nat.min_eq_left (Nat.le_succ size)]
  simp only [more_iff]

/-- A page that is followed by another one is full. -/
theorem Serves.exists_last (serves : Serves fetch done known size select tokenOf)
    (more : size < rows.length) : ∃ front row, rows.take size = front ++ [row] ∧
      front.length + 1 = size := by
  have isFull : (rows.take size).length = size := List.length_take_of_le more.le
  have nonempty : rows.take size ≠ [] := by
    intro empty
    rw [empty] at isFull
    exact serves.size_pos.ne isFull
  refine ⟨(rows.take size).dropLast, (rows.take size).getLast nonempty,
    (List.dropLast_append_getLast nonempty).symm, ?_⟩
  rw [List.length_dropLast, isFull]
  exact Nat.sub_add_cancel serves.size_pos

/-- A selection that fits on one page is listed. -/
theorem Serves.follows_last (serves : Serves fetch done known size select tokenOf)
    (isKnown : known token) (few : rows.length ≤ size) (page : (select token).take size = rows.take size)
    (more_iff : size < rows.length ↔ size < (select token).length) :
    Follows fetch done token rows := by
  have few' : ¬ size < (select token).length := more_iff.not.mp few.not_gt
  have served := serves.fetch_eq token isKnown
  rw [nextToken, if_neg few', page, List.take_of_length_le few] at served
  exact .last served

/-- Following the tokens, one page at a time. -/
theorem Serves.follows_step (serves : Serves fetch done known size select tokenOf)
    (isKnown : known token) (followed : Follows fetch done token rows) :
    (select token).length ≤ size ∧ rows = select token ∨
      size < (select token).length ∧ ∃ front row rest,
        (select token).take size = front ++ [row] ∧ front.length + 1 = size ∧
        rows = front ++ row :: rest ∧ known (tokenOf row) ∧
        Follows fetch done (tokenOf row) rest := by
  rcases Nat.lt_or_ge size (select token).length with more | few
  · rcases serves.exists_last more with ⟨front, row, page, isFull⟩
    have served := serves.fetch_eq token isKnown
    rw [nextToken_of_more more page] at served
    have selected : row ∈ select token := by
      apply List.mem_of_mem_take
      rw [page]
      exact List.mem_append_right _ List.mem_cons_self
    refine Or.inr ⟨more, front, row, ?_⟩
    cases followed with
    | last fetched =>
        have pair := Prod.mk.inj (Except.ok.inj (served.symm.trans fetched))
        exact absurd pair.2 (serves.token_ne token isKnown row selected)
    | @more _ _ _ rest fetched _ followed =>
        have pair := Prod.mk.inj (Except.ok.inj (served.symm.trans fetched))
        rcases pair with ⟨rfl, rfl⟩
        refine ⟨rest, page, isFull, ?_,
          serves.token_known token isKnown row selected, followed⟩
        rw [page, List.append_assoc, List.singleton_append]
  · have served := serves.fetch_eq token isKnown
    rw [nextToken, if_neg few.not_gt, List.take_of_length_le few] at served
    refine Or.inl ⟨few, ?_⟩
    cases followed with
    | last fetched =>
        exact (Prod.mk.inj (Except.ok.inj (fetched.symm.trans served))).1
    | more fetched goesOn _ =>
        have pair := Prod.mk.inj (Except.ok.inj (fetched.symm.trans served))
        exact absurd pair.2 goesOn

/-- The rows listed begin with the page selected first. -/
theorem Serves.begins (serves : Serves fetch done known size select tokenOf)
    (isKnown : known token) (followed : Follows fetch done token rows) :
    (select token).take size = rows.take size ∧
      (size < rows.length → size < (select token).length) := by
  rcases serves.follows_step isKnown followed with
    ⟨few, rfl⟩ | ⟨more, front, row, rest, page, isFull, rfl, -, -⟩
  · exact ⟨rfl, id⟩
  · refine ⟨?_, fun _ => more⟩
    have split : front ++ row :: rest = (front ++ [row]) ++ rest := by
      rw [List.append_assoc, List.singleton_append]
    rw [page, split, List.take_left' (by simpa using isFull)]

/-- After a row that ends a page, the rest is listed from its token. -/
theorem Serves.follows_rest (serves : Serves fetch done known size select tokenOf)
    (isKnown : known token) (followed : Follows fetch done token rows)
    (ends : EndsPage size rows row back) :
    known (tokenOf row) ∧ Follows fetch done (tokenOf row) back := by
  rcases ends with ⟨nonempty, front, split, ⟨count, length_eq⟩⟩
  induction count generalizing token rows front with
  | zero => exact absurd length_eq (by simp)
  | succ count induction =>
      rcases serves.follows_step isKnown followed with
        ⟨few, rfl⟩ | ⟨more, front', row', rest, -, isFull, rfl, isKnown', followed'⟩
      · have short := congrArg List.length split
        rw [List.length_append, List.length_cons] at short
        have longer : size ≤ front.length + 1 := by
          rw [length_eq, Nat.mul_succ]
          exact Nat.le_add_left ..
        have positive := List.length_pos_iff.mpr nonempty
        omega
      · cases count with
        | zero =>
            have same : front'.length = front.length := by omega
            rcases List.append_inj split same with ⟨-, tails⟩
            rcases List.cons.inj tails with ⟨rfl, rfl⟩
            exact ⟨isKnown', followed'⟩
        | succ count =>
            have shorter : front'.length + 1 ≤ front.length := by
              have positive : size * 1 ≤ size * (count + 1) :=
                Nat.mul_le_mul_left size (Nat.succ_pos count)
              rw [Nat.mul_succ] at length_eq
              omega
            have cut := congrArg (List.drop (front'.length + 1)) split
            rw [List.drop_append_of_le_length shorter] at cut
            have dropped : (front' ++ row' :: rest).drop (front'.length + 1) =
                rest := by
              rw [← List.drop_drop, List.drop_left, List.drop_one, List.tail_cons]
            rw [dropped] at cut
            refine induction isKnown' followed' _ cut ?_
            rw [List.length_drop]
            rw [Nat.mul_succ] at length_eq
            omega

/-- The selected rows begin with the first page of these rows. -/
structure Begins (size : Nat) (selected rows : List ρ) : Prop where
  page : selected.take size = rows.take size
  more_iff : size < rows.length ↔ size < selected.length

theorem Begins.refl (size : Nat) (rows : List ρ) : Begins size rows rows :=
  ⟨rfl, Iff.rfl⟩

/-- One row more than a page is enough to begin with it. -/
theorem Begins.take (size : Nat) (rows : List ρ) :
    Begins size (rows.take (size + 1)) rows := by
  constructor
  · rw [List.take_take, Nat.min_eq_left (Nat.le_succ size)]
  · rw [List.length_take]
    omega

/--
Following the tokens lists rows that begin with the first page if and only if at
every row that ends a page the selection continues with the rows that follow.
-/
theorem Serves.follows_iff_boundaries
    (serves : Serves fetch done known size select tokenOf)
    (isKnown : known token) (begins : Begins size (select token) rows)
    (noExtra : ∀ row back, EndsPage size rows row back →
      Continues size select tokenOf row back →
      size < (select (tokenOf row)).length → size < back.length) :
    Follows fetch done token rows ↔
      ∀ row back, EndsPage size rows row back →
        Continues size select tokenOf row back := by
  constructor
  · intro followed row back ends
    rcases serves.follows_rest isKnown followed ends with ⟨isKnown', rest⟩
    exact serves.begins isKnown' rest
  · intro continues
    -- The rows that are left, from the end of the listing backwards.
    suffices general : ∀ (bound : Nat) (before rest : List ρ) (next : τ),
        rest.length ≤ bound → rows = before ++ rest →
        size ∣ before.length → known next → Begins size (select next) rest →
        Follows fetch done next rest by
      exact general _ [] rows token le_rfl rfl (by simp) isKnown begins
    intro bound
    induction bound with
    | zero =>
        intro before rest next short _ _ isKnown begins
        have few : rest.length ≤ size := short.trans serves.size_pos.le
        exact serves.follows_last isKnown few begins.page begins.more_iff
    | succ bound induction =>
        intro before rest next short split divides isKnown begins
        rcases Nat.lt_or_ge size rest.length with more | few
        · rcases serves.exists_last more with ⟨front, row, first, isFull⟩
          have back_eq : rest = front ++ row :: rest.drop size := by
            have joined := (List.take_append_drop size rest).symm
            rwa [first, List.append_assoc, List.singleton_append] at joined
          have ends : EndsPage size rows row (rest.drop size) := by
            constructor
            · exact List.drop_eq_nil_iff.not.mpr more.not_ge
            · refine ⟨before ++ front, ?_, ?_⟩
              · rw [split, List.append_assoc, ← back_eq]
              · rw [List.length_append, Nat.add_assoc, isFull]
                exact (Nat.dvd_add_right divides).mpr dvd_rfl
          have next' := continues row _ ends
          have fetched := serves.fetch_eq next isKnown
          have selected : row ∈ select next := by
            apply List.mem_of_mem_take
            rw [begins.page, first]
            exact List.mem_append_right _ List.mem_cons_self
          rw [nextToken_of_more (begins.more_iff.mp more)
            (begins.page.trans first), begins.page] at fetched
          have followed := induction (before ++ rest.take size) (rest.drop size)
            (tokenOf row) ?_ ?_ ?_
            (serves.token_known next isKnown row selected)
            ⟨next'.1, next'.2, noExtra row _ ends next'⟩
          · rw [← List.take_append_drop size rest]
            exact .more fetched (serves.token_ne next isKnown row selected) followed
          · have positive := serves.size_pos
            rw [List.length_drop]
            omega
          · rw [split, List.append_assoc, List.take_append_drop]
          · rw [List.length_append, List.length_take_of_le more.le]
            exact (Nat.dvd_add_right divides).mpr dvd_rfl
        · exact serves.follows_last isKnown few begins.page begins.more_iff

end Pages

/-! ## Rows in order -/

section Behind

variable {κ : Type*}

/-- The second value stands behind the first one in the given direction. -/
def Behind [LT κ] (reverse : Bool) (first second : κ) : Prop :=
  if reverse then second < first else first < second

instance [LT κ] [DecidableLT κ] (reverse : Bool) (first second : κ) :
    Decidable (Behind reverse first second) :=
  inferInstanceAs (Decidable (if reverse then second < first else first < second))

variable [LinearOrder κ] {reverse : Bool} {p q r : κ}

theorem behind_asymm (behind : Behind reverse p q) : ¬ Behind reverse q p := by
  cases reverse with
  | false => exact lt_asymm behind
  | true => exact lt_asymm (a := q) behind

/-- The order of the rows is transitive, in both directions. -/
theorem behind_trans (first : Behind reverse p q) (second : Behind reverse q r) :
    Behind reverse p r := by
  cases reverse with
  | false => exact lt_trans first second
  | true => exact lt_trans second first

/-- Of two different keys one is behind the other. -/
theorem behind_of_not (differ : p ≠ q) (notBehind : ¬ Behind reverse q p) :
    Behind reverse p q := by
  cases reverse with
  | false => exact lt_of_le_of_ne (not_lt.mp notBehind) differ
  | true => exact lt_of_le_of_ne (not_lt.mp notBehind) differ.symm

variable {ρ : Type*} {key : ρ → κ} {rows : List ρ} {x : ρ}

/-- The rows by their keys, or in reverse. -/
def orderBy (reverse : Bool) (key : ρ → κ) (rows : List ρ) : List ρ :=
  rows.insertionSort fun x y => ¬ Behind reverse (key y) (key x)

/-- Ordering rows loses none and adds none. -/
@[simp]
theorem mem_orderBy : x ∈ orderBy reverse key rows ↔ x ∈ rows :=
  List.mem_insertionSort _

/-- Ordered rows are the same rows. -/
theorem orderBy_perm (reverse : Bool) (key : ρ → κ) (rows : List ρ) :
    (orderBy reverse key rows).Perm rows :=
  List.perm_insertionSort _ rows

/-- Rows with different keys are strictly ordered. -/
theorem orderBy_ordered (distinct : rows.Pairwise fun x y => key x ≠ key y) :
    (orderBy reverse key rows).Pairwise fun x y =>
      Behind reverse (key x) (key y) := by
  have total : Std.Total fun x y : ρ => ¬ Behind reverse (key y) (key x) := by
    constructor
    intro x y
    by_cases behind : Behind reverse (key y) (key x)
    · exact Or.inr (behind_asymm behind)
    · exact Or.inl behind
  have transitive : IsTrans ρ fun x y => ¬ Behind reverse (key y) (key x) := by
    constructor
    intro x y z first second behind
    by_cases same : key x = key y
    · rw [same] at behind
      exact second behind
    · exact second (behind_trans behind (behind_of_not same first))
  have sorted := List.pairwise_insertionSort
    (fun x y : ρ => ¬ Behind reverse (key y) (key x)) rows
  have apart : (orderBy reverse key rows).Pairwise fun x y => key x ≠ key y :=
    (orderBy_perm reverse key rows).symm.pairwise distinct fun differ => differ.symm
  exact (sorted.and apart).imp fun both => behind_of_not both.2 both.1

/-- Strictly ordered rows are determined by which rows there are. -/
theorem ordered_unique {rows' : List ρ}
    (ordered : rows.Pairwise fun x y => Behind reverse (key x) (key y))
    (ordered' : rows'.Pairwise fun x y => Behind reverse (key x) (key y))
    (same : ∀ row, row ∈ rows ↔ row ∈ rows') : rows = rows' := by
  have nodup : ∀ {rows : List ρ}, (rows.Pairwise fun x y =>
      Behind reverse (key x) (key y)) → rows.Nodup := by
    intro rows ordered
    apply List.Pairwise.imp _ ordered
    rintro row _ behind rfl
    exact behind_asymm behind behind
  have perm := (List.perm_ext_iff_of_nodup (nodup ordered) (nodup ordered')).mpr same
  exact perm.eq_of_pairwise
    (fun _ _ _ _ less greater => absurd greater (behind_asymm less))
    ordered ordered'

/-- Ordering kept rows keeps ordered rows. -/
theorem orderBy_filter (keep : ρ → Bool)
    (distinct : rows.Pairwise fun x y => key x ≠ key y) :
    orderBy reverse key (rows.filter keep) =
      (orderBy reverse key rows).filter keep := by
  apply ordered_unique (orderBy_ordered (distinct.filter keep))
    ((orderBy_ordered distinct).filter keep)
  intro row
  rw [mem_orderBy, List.mem_filter, List.mem_filter, mem_orderBy]

end Behind

section Ordered

variable {ρ : Type*} {less : ρ → ρ → Prop} {rows front back : List ρ} {row : ρ}
variable {after after' : ρ → Bool}

/-- The rows behind a row are those that it precedes. -/
theorem filter_after_eq (ordered : (front ++ row :: back).Pairwise less)
    (asymm : ∀ x y, less x y → ¬ less y x)
    (after_iff : ∀ other, after other = true ↔ less row other) :
    (front ++ row :: back).filter after = back := by
  rcases List.pairwise_append.mp ordered with ⟨-, orderedBack, across⟩
  rw [List.filter_append, List.filter_cons_of_neg, List.filter_eq_nil_iff.mpr,
    List.nil_append, List.filter_eq_self.mpr]
  · intro other member
    exact (after_iff other).mpr ((List.pairwise_cons.mp orderedBack).1 other member)
  · intro other member isAfter
    exact asymm _ _ ((after_iff other).mp isAfter)
      (across other member row List.mem_cons_self)
  · intro isAfter
    have reflexive := (after_iff row).mp isAfter
    exact asymm row row reflexive reflexive

/-- Two final parts of ordered rows that begin with the same row are equal. -/
theorem filter_eq_of_head_eq (ordered : rows.Pairwise less)
    (upward : ∀ x y, less x y → after x = true → after y = true)
    (upward' : ∀ x y, less x y → after' x = true → after' y = true)
    (heads : (rows.filter after).head? = (rows.filter after').head?) :
    ∀ row ∈ rows, after row = after' row := by
  have carried : ∀ {first second : ρ → Bool},
      (∀ x y, less x y → second x = true → second y = true) →
      (rows.filter first).head? = (rows.filter second).head? →
      ∀ row ∈ rows, first row = true → second row = true := by
    intro first second upward heads row member isFirst
    have inside : row ∈ rows.filter first := List.mem_filter.mpr ⟨member, isFirst⟩
    cases shape : rows.filter first with
    | nil =>
        rw [shape] at inside
        cases inside
    | cons head rest =>
        rw [shape, List.head?_cons] at heads
        have isSecond : second head = true :=
          (List.mem_filter.mp (List.mem_of_head? heads.symm)).2
        rw [shape] at inside
        rcases List.mem_cons.mp inside with rfl | later
        · exact isSecond
        · have sorted := ordered.filter first
          rw [shape] at sorted
          exact upward head row ((List.pairwise_cons.mp sorted).1 row later) isSecond
  intro row member
  rw [Bool.eq_iff_iff]
  exact ⟨carried upward' heads row member, carried upward heads.symm row member⟩

end Ordered

/-! ## Cursors with two parts -/

section Below

variable {τ ρ ε κ κ' : Type*} {fetch : τ → Except ε (List ρ × τ)} {done : τ}
variable {known : τ → Prop} {size : Nat} {select : τ → List ρ} {tokenOf : ρ → τ}
variable {token : τ} {rows back front : List ρ} {row : ρ}
variable [LinearOrder κ] [LinearOrder κ'] {key : ρ → κ × κ'}

/-- Each part of the first pair is smaller than that of the second one. -/
def Below (first second : κ × κ') : Prop :=
  first.1 < second.1 ∧ first.2 < second.2

instance (first second : κ × κ') : Decidable (Below first second) :=
  inferInstanceAs (Decidable (_ ∧ _))

theorem Below.trans {first second third : κ × κ'} (below : Below first second)
    (below' : Below second third) : Below first third :=
  ⟨below.1.trans below'.1, below.2.trans below'.2⟩

/-- A pair is not below another one that does not stand before it. -/
theorem Below.behind {first second : κ × κ'} (below : Below first second) :
    Behind true (toLex second) (toLex first) :=
  Prod.Lex.lt_iff.mpr (.inl below.1)

/-- The rows of each page are below the last row of the page before. -/
def Descends (size : Nat) (key : ρ → κ × κ') (rows : List ρ) : Prop :=
  ∀ row back, EndsPage size rows row back →
    ∀ other ∈ back.take size, Below (key other) (key row)

/-- Rows that are below all rows before them descend on pages of every size. -/
theorem descends_of_pairwise
    (below : rows.Pairwise fun x y => Below (key y) (key x)) :
    Descends size key rows := by
  rintro row back ⟨-, front, rfl, -⟩ other member
  have behind := (List.pairwise_append.mp below).2.1
  exact (List.pairwise_cons.mp behind).1 other (List.mem_of_mem_take member)

/-- Rows descend as the rows do that they are made of. -/
theorem descends_map_iff {σ : Type*} {make : σ → ρ} {key' : σ → κ × κ'}
    {sources : List σ} (sameKey : ∀ source ∈ sources, key (make source) = key' source) :
    Descends size key (sources.map make) ↔ Descends size key' sources := by
  constructor
  · rintro descends source back ⟨nonempty, front, rfl, divides⟩ other member
    have isSource : source ∈ front ++ source :: back :=
      List.mem_append_right _ List.mem_cons_self
    have isOther : other ∈ front ++ source :: back :=
      List.mem_append_right _ (List.mem_cons_of_mem _ (List.mem_of_mem_take member))
    rw [← sameKey source isSource, ← sameKey other isOther]
    apply descends (make source) (back.map make)
    · constructor
      · simpa using nonempty
      · exact ⟨front.map make, by simp, by simpa using divides⟩
    · rw [← List.map_take]
      exact List.mem_map_of_mem member
  · rintro descends row back ⟨nonempty, front, split, divides⟩ other member
    rcases List.map_eq_append_iff.mp split with ⟨front', rest, rfl, rfl, isRest⟩
    rcases List.map_eq_cons_iff.mp isRest with ⟨source, back', rfl, rfl, rfl⟩
    rw [← List.map_take] at member
    rcases List.mem_map.mp member with ⟨source', isSource, rfl⟩
    rw [sameKey source (List.mem_append_right _ List.mem_cons_self),
      sameKey source' (List.mem_append_right _
        (List.mem_cons_of_mem _ (List.mem_of_mem_take isSource)))]
    apply descends source back' _ source' isSource
    constructor
    · simpa using nonempty
    · exact ⟨front', rfl, by simpa using divides⟩

/-- Rows that are below a row stand behind it. -/
theorem filter_below_eq (ordered : (front ++ row :: back).Pairwise fun x y =>
      Behind true (toLex (key x)) (toLex (key y))) :
    ((front ++ row :: back).filter fun other => Below (key other) (key row)) =
      back.filter fun other => Below (key other) (key row) := by
  rcases List.pairwise_append.mp ordered with ⟨-, -, across⟩
  rw [List.filter_append, List.filter_cons_of_neg, List.filter_eq_nil_iff.mpr,
    List.nil_append]
  · intro other member below
    exact behind_asymm (across other member row List.mem_cons_self)
      (of_decide_eq_true below).behind
  · intro below
    exact lt_irrefl _ (of_decide_eq_true below).1

/-- The kept rows begin with the same page when that page is kept. -/
theorem take_filter_eq_iff {keep : ρ → Bool} :
    (back.filter keep).take size = back.take size ↔
      ∀ row ∈ back.take size, keep row = true := by
  constructor
  · intro same row member
    rw [← same] at member
    exact (List.mem_filter.mp (List.mem_of_mem_take member)).2
  · intro kept
    nth_rewrite 1 [← List.take_append_drop size back]
    rw [List.filter_append, List.filter_eq_self.mpr kept]
    rcases Nat.lt_or_ge size back.length with more | few
    · rw [List.take_left' (List.length_take_of_le more.le)]
    · rw [List.drop_eq_nil_of_le few, List.filter_nil, List.append_nil,
        List.take_take, min_self]

/--
Rows are ordered by both parts of a key, but the query after a row selects those
for which each part is smaller.  Following the tokens lists the rows if and only
if the rows of each page are below the last row of the page before.
-/
theorem Serves.follows_iff_below
    (serves : Serves fetch done known size select tokenOf)
    (isKnown : known token) (begins : Begins size (select token) rows)
    (ordered : rows.Pairwise fun x y =>
      Behind true (toLex (key x)) (toLex (key y)))
    (selects : ∀ row ∈ rows, Begins size (select (tokenOf row))
      (rows.filter fun other => Below (key other) (key row))) :
    Follows fetch done token rows ↔ Descends size key rows := by
  have selects' : ∀ {row back}, EndsPage size rows row back →
      Begins size (select (tokenOf row))
        (back.filter fun other => Below (key other) (key row)) := by
    rintro row back ⟨-, front, rfl, -⟩
    rw [← filter_below_eq ordered]
    exact selects row (List.mem_append_right _ List.mem_cons_self)
  have boundaries := serves.follows_iff_boundaries isKnown begins ?_
  · rw [boundaries]
    constructor
    · intro continues row back ends other member
      have page := (selects' ends).page.symm.trans (continues row back ends).1
      exact of_decide_eq_true (take_filter_eq_iff.mp page other member)
    · intro below row back ends
      have kept : ∀ other ∈ back.take size,
          decide (Below (key other) (key row)) = true :=
        fun other member => decide_eq_true (below row back ends other member)
      constructor
      · exact (selects' ends).page.trans (take_filter_eq_iff.mpr kept)
      · intro more
        -- The first row of the page after the next one is below as well.
        apply (selects' ends).more_iff.mp
        rcases serves.exists_last more with ⟨front', row', page, isFull⟩
        have split : back = front' ++ row' :: back.drop size := by
          have joined := (List.take_append_drop size back).symm
          rwa [page, List.append_assoc, List.singleton_append] at joined
        have ends' : EndsPage size rows row' (back.drop size) := by
          rcases ends with ⟨-, front, rowsSplit, divides⟩
          constructor
          · exact List.drop_eq_nil_iff.not.mpr more.not_ge
          · refine ⟨front ++ row :: front', ?_, ?_⟩
            · rw [rowsSplit, List.append_assoc, List.cons_append, ← split]
            · have count : (front ++ row :: front').length + 1 =
                  front.length + 1 + size := by
                rw [List.length_append, List.length_cons, ← isFull]
                omega
              rw [count]
              exact (Nat.dvd_add_right divides).mpr dvd_rfl
        cases rest : back.drop size with
        | nil => exact absurd rest ends'.1
        | cons first others =>
            have isBelow : Below (key first) (key row) := by
              apply Below.trans (below row' _ ends' first _) (below row back ends row' _)
              · rw [rest, List.mem_take_iff_getElem]
                exact ⟨0, by simpa using serves.size_pos, rfl⟩
              · rw [page]
                exact List.mem_append_right _ List.mem_cons_self
            have kept' : (back.filter fun other => Below (key other) (key row)) =
                back.take size ++
                  (first :: others).filter fun other => Below (key other) (key row) := by
              nth_rewrite 1 [← List.take_append_drop size back]
              rw [List.filter_append, List.filter_eq_self.mpr kept, rest]
            rw [kept', List.length_append, List.length_take_of_le more.le]
            apply Nat.lt_add_of_pos_right
            apply List.length_pos_of_mem
            exact List.mem_filter.mpr ⟨List.mem_cons_self, decide_eq_true isBelow⟩
  · intro row back ends _ longer
    have fewer := (selects' ends).more_iff.mpr longer
    exact fewer.trans_le (List.length_filter_le ..)

end Below

/-! ## Collecting a page -/

/-- The greatest 64-bit number. -/
def maxInt64 : Int := 2 ^ 63 - 1

/-- A limit of a query; a negative one does not limit. -/
def sqlLimit {ρ : Type} (limit : Int) (rows : List ρ) : List ρ :=
  if limit < 0 then rows else rows.take limit.toNat

section Collect

variable {τ ρ ε : Type} {size : Nat} {check : ρ → Except ε Unit}
variable {token : Option ρ → τ} {rows : List ρ} {done : τ}

/--
What a callback does with a row: it keeps the row while the page has room, and
otherwise notes the token of the last row it kept.
-/
def collectRow (pageSize : Int) (check : ρ → Except ε Unit)
    (token : Option ρ → τ) (page : List ρ × τ) (row : ρ) :
    Except ε (List ρ × τ) :=
  if (page.1.length : Int) = pageSize then .ok (page.1, token page.1.getLast?)
  else do
    check row
    .ok (page.1 ++ [row], page.2)

/-- Rows that the page has room for are kept. -/
theorem collect_kept {page : List ρ} (room : page.length + rows.length ≤ size)
    (checked : ∀ row ∈ rows, check row = .ok ()) :
    rows.foldlM (collectRow size check token) (page, done) =
      .ok (page ++ rows, done) := by
  induction rows generalizing page with
  | nil => rw [List.append_nil]; rfl
  | cons row rows induction =>
      rw [List.length_cons] at room
      have notFull : ¬ ((page.length : Int) = size) := by omega
      have kept : collectRow size check token (page, done) row =
          .ok (page ++ [row], done) := by
        rw [collectRow, if_neg notFull, checked row List.mem_cons_self]
        rfl
      rw [List.foldlM_cons, kept]
      have rest := @induction (page ++ [row]) (by simp; omega)
        fun row member => checked row (List.mem_cons_of_mem _ member)
      rwa [List.append_assoc, List.singleton_append] at rest

/-- A full page stays as it is. -/
theorem collect_full {page : List ρ} (isFull : page.length = size) :
    rows.foldlM (collectRow size check token) (page, token page.getLast?) =
      .ok (page, token page.getLast?) := by
  induction rows with
  | nil => rfl
  | cons row rows induction =>
      have full : (page.length : Int) = size := by rw [isFull]
      rw [List.foldlM_cons, collectRow, if_pos full]
      exact induction

/-- Rows that a page has no room for tell that there is a next page. -/
theorem collect_rows (positive : 0 < size)
    (checked : ∀ row ∈ rows, check row = .ok ()) :
    rows.foldlM (collectRow size check token) ([], done) =
      .ok (rows.take size,
        nextToken size done (fun row => token (some row)) rows) := by
  have checked' : ∀ row ∈ rows.take size, check row = .ok () :=
    fun row member => checked row (List.mem_of_mem_take member)
  have first : (rows.take size).foldlM (collectRow size check token) ([], done) =
      .ok (rows.take size, done) :=
    collect_kept (by simp) checked'
  rw [nextToken]
  nth_rewrite 1 [← List.take_append_drop size rows]
  rw [List.foldlM_append, first]
  split
  · next more =>
      have isFull : (rows.take size).length = size :=
        List.length_take_of_le more.le
      have full : ((rows.take size).length : Int) = size := by rw [isFull]
      have nonempty : rows.take size ≠ [] :=
        List.length_pos_iff.mp (isFull.symm ▸ positive)
      have last := List.getLast?_eq_some_getLast nonempty
      rw [List.drop_eq_getElem_cons more]
      change List.foldlM (collectRow size check token) (rows.take size, done)
        (rows[size] :: rows.drop (size + 1)) = _
      rw [List.foldlM_cons, collectRow, if_pos full]
      refine (collect_full isFull).trans ?_
      rw [last]
      rfl
  · next few =>
      rw [List.drop_eq_nil_of_le (not_lt.mp few)]
      rfl

/-- A row on a page has passed its check. -/
theorem collect_checked {pageSize : Int} {page result : List ρ × τ}
    (known : ∀ row ∈ page.1, check row = .ok ())
    (collected : rows.foldlM (collectRow pageSize check token) page = .ok result) :
    ∀ row ∈ result.1, check row = .ok () := by
  induction rows generalizing page with
  | nil => exact Except.ok.inj collected ▸ known
  | cons row rows induction =>
      rw [List.foldlM_cons, collectRow] at collected
      split at collected
      · exact @induction (page.1, token page.1.getLast?) known collected
      · cases checked : check row with
        | error err =>
            rw [checked] at collected
            cases collected
        | ok _ =>
            rw [checked] at collected
            refine @induction (page.1 ++ [row], page.2) ?_ collected
            intro other member
            rcases List.mem_append.mp member with old | isRow
            · exact known other old
            · exact List.mem_singleton.mp isRow ▸ checked

end Collect

end Mintter.Foundation
