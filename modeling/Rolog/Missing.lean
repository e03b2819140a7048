/-
  What stands for missing and untranslatable values. Both dispatch chains end in `leaf_na`: the
  integer -1 on the way to Prolog, the number -1 on the way back. These are ordinary numbers as
  well (`leaf_leafNa_iff`, `pl2rLeaf_leafNa_iff`), a missing string is the string `NA`, and the
  integer -2^31 is missing in R. So missing values are told from ordinary data in those
  expressions and answers only in which none of these stands anywhere (`missing_kept_iff`).
-/
import Rolog.Faults
import Rolog.Positions
import Rolog.RoundTrip

namespace Rolog

open Unwind.Outcome

/-! ## Values -/

def Term.isNumber : Term → Bool
  | .int _ | .float _ => true
  | _ => false

mutual

/-- The expression has a term: every head of a call is a name, and no vector of integers or
logicals is empty. -/
def SEXP.translates : SEXP → Bool
  | .lang car cdr => (asSymbol car).isDone && SEXP.translatesArgs cdr
  | .lgl v => !v.isEmpty
  | .int v => !v.isEmpty
  | .sym _ | .real _ | .str _ _ | .vec _ _ | .other _ => true
termination_by structural e => e

def SEXP.translatesArgs : List (Option CString × SEXP) → Bool
  | [] => true
  | (_, e) :: cdr => e.translates && SEXP.translatesArgs cdr
termination_by structural cdr => cdr

end

theorem leafArg_isDone (a : Option CString × SEXP) : (leafArg a).isDone = (leaf a.2).isDone := by
  match a with
  | (none, e) => rfl
  | (some argname, e) => exact isDone_bind_done

mutual

theorem leaf_isDone : ∀ e, (leaf e).isDone = e.translates
  | .lang car cdr => by
    rw [leaf, isDone_bind₂, leafArgs_isDone cdr, SEXP.translates, Bool.and_comm]
  | .lgl [] | .int [] => rfl
  | .lgl (some true :: _) | .lgl (some false :: _) | .lgl (none :: _) => rfl
  | .int (_ :: _) | .sym _ | .real _ | .str _ _ | .vec _ _ | .other _ => rfl
termination_by structural e => e

theorem leafArgs_isDone : ∀ cdr, (leafArgs cdr).isDone = SEXP.translatesArgs cdr
  | [] => rfl
  | (tag, e) :: cdr => by
    rw [leafArgs_cons, isDone_bind₂, leafArg_isDone, leaf_isDone e, leafArgs_isDone cdr,
      SEXP.translatesArgs]
termination_by structural cdr => cdr

end

end Rolog
