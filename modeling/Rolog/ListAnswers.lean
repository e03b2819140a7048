/-
  Sending a list answer back. `pl2r_list` makes an R list of the decoded elements, and `leaf` has
  no case for R lists: whatever the list was, -1 is sent (`leaf_pl2rLeaf_list`). Only the elements
  that are no lists themselves survive, one at a time.
-/
import Rolog.Vectors

namespace Rolog

open Unwind.Outcome

/-- Integers between -2^31 and 2^31 (both excluded), floats, ASCII strings and named ASCII atoms. -/
inductive IsScalar : Term → Prop where
  | int (i : Int) : -2147483648 < i → i < 2147483648 → IsScalar (.int i)
  | float (bits : UInt64) : IsScalar (.float bits)
  | str (s : Text) : IsAscii s → IsScalar (.str s)
  | atom (a : Text) : IsAscii a → a ≠ [] → IsScalar (.atom a)

/-- These, and proper lists of these to any depth. -/
inductive IsNested : Term → Prop where
  | scalar (t : Term) : IsScalar t → IsNested t
  | list (ts : List Term) : (∀ t ∈ ts, IsNested t) → IsNested (plList ts)

mutual

/-- The atoms of a term. -/
def Term.atoms : Term → List Text
  | .atom a => [a]
  | .compound _ args => Term.atomsList args
  | .var _ | .int _ | .float _ | .str _ | .nil | .blob _ => []
termination_by structural t => t

def Term.atomsList : List Term → List Text
  | [] => []
  | t :: ts => t.atoms ++ Term.atomsList ts
termination_by structural ts => ts

end

/-- An atom of the term begins with NUL. -/
def HasNulName (t : Term) : Prop := ∃ a ∈ t.atoms, a.head? = some '\x00'

theorem atoms_plList (ts : List Term) :
    ∀ t ∈ ts, ∀ a ∈ t.atoms, a ∈ (plList ts).atoms := by
  induction ts with
  | nil => simp
  | cons u ts ih =>
    intro t ht a ha
    simp only [plList, Term.cons, Term.atoms, Term.atomsList, List.mem_append]
    rcases List.mem_cons.mp ht with rfl | ht
    · exact .inl ha
    · exact .inr (.inl (ih t ht a ha))

/-! ## How the decoder ends on a list -/

/-- The empty name is the one name of ASCII characters that R refuses. -/
theorem head?_of_plAtomChars_empty {a : Text} (ha : IsAscii a) (hne : a ≠ [])
    (h : plAtomChars a = cEmpty) : a.head? = some '\x00' := by
  have hcut : cutNul a = [] := by
    rw [← text_plAtomChars ha, h]
    rfl
  cases a with
  | nil => exact absurd rfl hne
  | cons c a =>
    rw [cutNul_cons] at hcut
    by_cases hc : c.toNat = 0
    · have h0 : c = '\x00' := Char.toNat_inj.mp hc
      rw [h0, List.head?_cons]
    · rw [if_pos hc] at hcut
      cases hcut

theorem pl2rLeaf_scalar {t : Term} (h : IsScalar t) :
    (∃ v, pl2rLeaf t = done v) ∨ pl2rLeaf t = jumped .zeroLengthName ∧ HasNulName t := by
  cases h with
  | int i hlo hhi =>
    refine .inl ⟨_, pl2rInt_eq_done.mpr ⟨⟨by omega, hhi⟩, rfl⟩⟩
  | float bits => exact .inl ⟨_, rfl⟩
  | str s _ => exact .inl ⟨_, rfl⟩
  | atom a ha hne =>
    unfold pl2rLeaf Term.leafSymbol atomChars
    rw [plGetChars_ascii ha]
    by_cases he : plAtomChars a = cEmpty
    · refine .inr ⟨?_, a, by simp [Term.atoms], head?_of_plAtomChars_empty ha hne he⟩
      simp [install, he]
    · simp [install_of_ne he]

/-- The loop of `pl2r_list` on the elements of a proper list. -/
theorem pl2rTail_plList (ts : List Term) : pl2rTail (plList ts) = ts.mapM pl2rLeaf := by
  induction ts with
  | nil => rfl
  | cons t ts ih =>
    rw [plList, pl2rTail_cons, ih, List.mapM_cons]
    rfl

theorem pl2rLeaf_plList (ts : List Term) :
    pl2rLeaf (plList ts) = (do
      let l ← ts.mapM pl2rLeaf
      done (.vec l [])) := by
  cases ts with
  | nil => rfl
  | cons t ts =>
    rw [plList, pl2rLeaf_cons, pl2rTail_plList, List.mapM_cons]
    simp

/-- If every element is decoded or has an empty name, so it is with the list. -/
theorem mapM_pl2rLeaf {ts : List Term}
    (h : ∀ t ∈ ts, (∃ v, pl2rLeaf t = done v) ∨ pl2rLeaf t = jumped .zeroLengthName ∧
      HasNulName t) :
    (∃ l, ts.mapM pl2rLeaf = done l) ∨
      ts.mapM pl2rLeaf = jumped .zeroLengthName ∧ ∃ t ∈ ts, HasNulName t := by
  induction ts with
  | nil => exact .inl ⟨[], rfl⟩
  | cons t ts ih =>
    rw [List.mapM_cons]
    rcases h t List.mem_cons_self with ⟨v, hv⟩ | ⟨hj, hn⟩
    · rw [hv, done_bind]
      rcases ih fun u hu => h u (List.mem_cons_of_mem t hu) with ⟨l, hl⟩ | ⟨hj, u, hu, hn⟩
      · exact .inl ⟨v :: l, by rw [hl]; rfl⟩
      · exact .inr ⟨by rw [hj]; rfl, u, List.mem_cons_of_mem t hu, hn⟩
    · exact .inr ⟨by rw [hj]; rfl, t, List.mem_cons_self, hn⟩

theorem pl2rLeaf_nested {t : Term} (h : IsNested t) :
    (∃ v, pl2rLeaf t = done v) ∨ pl2rLeaf t = jumped .zeroLengthName ∧ HasNulName t := by
  induction h with
  | scalar t ht => exact pl2rLeaf_scalar ht
  | list ts _ ih =>
    rw [pl2rLeaf_plList]
    rcases mapM_pl2rLeaf ih with ⟨l, hl⟩ | ⟨hj, u, hu, s, hs, hn⟩
    · exact .inl ⟨.vec l [], by rw [hl]; rfl⟩
    · exact .inr ⟨by rw [hj]; rfl, s, atoms_plList ts u hu s hs, hn⟩

/-! ## What is sent back -/

/-- The elements of the R list are the values of the elements of the Prolog list. -/
theorem mapM_eq_done {ts : List Term} {l : List SEXP} (h : ts.mapM pl2rLeaf = done l) :
    List.Forall₂ (fun t x => pl2rLeaf t = done x) ts l := by
  induction ts generalizing l with
  | nil =>
    cases h
    exact .nil
  | cons t ts ih =>
    rw [List.mapM_cons] at h
    simp only [bind_eq_done, pure_eq, Unwind.Outcome.done.injEq] at h
    obtain ⟨x, hx, m, hm, rfl⟩ := h
    exact .cons hx (ih hm)

theorem IsScalar.listFree {t : Term} (h : IsScalar t) : IsListFree t := by
  cases h with
  | int i hlo hhi => exact .int i (by omega) (by omega)
  | float bits => exact .float bits
  | str s hs => exact .str s hs
  | atom a ha hne => exact .atom a ha hne

theorem plList_ne_leafNa (ts : List Term) : plList ts ≠ SEXP.leafNa := by
  cases ts <;> simp [plList, Term.cons, SEXP.leafNa]

/-- A list answer is decoded to the R list of its elements, or has a name that R refuses; the R
list is sent back as -1, never as the answer; the scalar elements are sent back unchanged. -/
theorem leaf_pl2rLeaf_list {ts : List Term} (h : ∀ t ∈ ts, IsNested t) :
    ((∃ l, pl2rLeaf (plList ts) = done (.vec l []) ∧
        List.Forall₂ (fun t x => pl2rLeaf t = done x) ts l) ∨
      pl2rLeaf (plList ts) = jumped .zeroLengthName ∧ HasNulName (plList ts)) ∧
    (∀ v, pl2rLeaf (plList ts) = done v → leaf v = done SEXP.leafNa ∧ SEXP.leafNa ≠ plList ts) ∧
    ∀ t ∈ ts, IsScalar t → (∀ s ∈ t.texts, Faithful s) → (pl2rLeaf t >>= leaf) = done t := by
  refine ⟨?_, ?_, ?_⟩
  · rcases pl2rLeaf_nested (.list ts h) with ⟨v, hv⟩ | hj
    · rw [pl2rLeaf_plList] at hv
      obtain ⟨l, hl, hv⟩ := bind_eq_done.mp hv
      refine .inl ⟨l, ?_, mapM_eq_done hl⟩
      rw [pl2rLeaf_plList, hl]
      rfl
    · exact .inr hj
  · intro v hv
    rw [pl2rLeaf_plList] at hv
    obtain ⟨l, _, hv⟩ := bind_eq_done.mp hv
    cases hv
    exact ⟨rfl, (plList_ne_leafNa ts).symm⟩
  · intro t _ hs hf
    exact (pl2rLeaf_survives hs.listFree hf).1

/-- `[1, 2]` comes back as -1. -/
theorem leaf_pl2rLeaf_list_lost :
    IsNested (plList [.int 1, .int 2]) ∧
      (pl2rLeaf (plList [.int 1, .int 2]) >>= leaf) = done (.int (-1)) := by
  refine ⟨.list _ ?_, rfl⟩
  intro t ht
  simp only [List.mem_cons, List.not_mem_nil, or_false] at ht
  rcases ht with rfl | rfl
  · exact .scalar _ (.int 1 (by decide) (by decide))
  · exact .scalar _ (.int 2 (by decide) (by decide))

/-- `[[], x]` is sent back as -1. -/
theorem leaf_pl2rLeaf_list_nested :
    leaf (.vec [.vec [] [], .sym (cstr ['x'])] []) = done SEXP.leafNa ∧
      SEXP.leafNa ≠ plList [plList [], .atom ['x']] := by
  have h : ∀ t ∈ [plList [], .atom ['x']], IsNested t := by
    intro t ht
    simp only [List.mem_cons, List.not_mem_nil, or_false] at ht
    rcases ht with rfl | rfl
    · exact .list [] (by simp)
    · exact .scalar _ (.atom _ (by decide) (by decide))
  exact (leaf_pl2rLeaf_list h).2.1 _ (by rfl)

end Rolog
