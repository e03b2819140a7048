/-
  Quoting by doubling: inside quotes, every special character (the quote among them) stands
  twice, so a single quote ends the text. `undouble` reads back what `double` wrote, up to the
  closing quote or up to the end of the input. Nothing here is about a particular program.
-/
import Mathlib.Data.List.Basic

namespace Doubling

variable {α : Type} (p : α → Bool) (q : α)

/-- Every special character twice. -/
def double (s : List α) : List α := s.flatMap fun c => if p c then [c, c] else [c]

@[simp] theorem double_nil : double p [] = [] := rfl

theorem double_cons (c : α) (s : List α) :
    double p (c :: s) = (if p c then [c, c] else [c]) ++ double p s := List.flatMap_cons

variable [DecidableEq α]

/-- The text up to a single `q`, and the input after that `q`, if there is one. -/
def undouble : List α → List α × Option (List α)
  | [] => ([], none)
  | [c] => if c = q then ([], some []) else ([c], none)
  | c :: d :: s =>
    if c = q ∧ d ≠ q then ([], some (d :: s))
    else if p c then (c :: (undouble s).1, (undouble s).2)
    else (c :: (undouble (d :: s)).1, (undouble (d :: s)).2)

variable {p q}

theorem undouble_special {c : α} (h : p c) (s : List α) :
    undouble p q (c :: c :: s) = (c :: (undouble p q s).1, (undouble p q s).2) := by
  rw [undouble, if_neg (by simp), if_pos h]

/-- A plain character is read as it stands, whatever follows. -/
theorem undouble_plain {c : α} (hq : p q) (h : p c = false) (s : List α) :
    undouble p q (c :: s) = (c :: (undouble p q s).1, (undouble p q s).2) := by
  have hc : c ≠ q := by
    intro e
    rw [e, hq] at h
    cases h
  cases s with
  | nil => simp [undouble, hc]
  | cons d s => simp [undouble, hc, h]

theorem undouble_close {r : List α} (hr : r.head? ≠ some q) :
    undouble p q (q :: r) = ([], some r) := by
  cases r with
  | nil => simp [undouble]
  | cons d r =>
    have hd : d ≠ q := by simpa using hr
    simp [undouble, hd]

/-- A closed text is read back, with the rest of the input. -/
theorem undouble_double_close (hq : p q) (s : List α) {r : List α} (hr : r.head? ≠ some q) :
    undouble p q (double p s ++ q :: r) = (s, some r) := by
  induction s with
  | nil => exact undouble_close hr
  | cons c s ih =>
    rw [double_cons]
    by_cases hc : p c
    · rw [if_pos hc, List.append_assoc]
      show undouble p q (c :: c :: (double p s ++ q :: r)) = _
      rw [undouble_special hc, ih]
    · rw [if_neg hc, List.append_assoc]
      show undouble p q (c :: (double p s ++ q :: r)) = _
      rw [undouble_plain hq (by simpa using hc), ih]

/-- A text that is not closed is read back, with no rest. -/
theorem undouble_double (hq : p q) (s : List α) : undouble p q (double p s) = (s, none) := by
  induction s with
  | nil => rfl
  | cons c s ih =>
    rw [double_cons]
    by_cases hc : p c
    · rw [if_pos hc]
      show undouble p q (c :: c :: double p s) = _
      rw [undouble_special hc, ih]
    · rw [if_neg hc]
      show undouble p q (c :: double p s) = _
      rw [undouble_plain hq (by simpa using hc), ih]

end Doubling
