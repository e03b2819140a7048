/-
  What `rolog_get` keeps of a ground answer. Lists, strings, atoms and compounds stay apart by
  their R types and names. Two things are lost: the tail after the last list cell, and what
  follows a NUL in a text. `shown` drops exactly these, on the Prolog side
  (`rologGet_ne_iff`).
-/
import Rolog.Agreement
import Rolog.AnswerCollisions

namespace Rolog

open Unwind.Outcome

/-- Finite ground terms of integers between -2^31 and 2^31 (both excluded), floats, ASCII text,
list cells with any tail, and compounds. -/
inductive IsData : Term → Prop where
  | int (i : Int) : -2147483648 < i → i < 2147483648 → IsData (.int i)
  | float (bits : UInt64) : IsData (.float bits)
  | str (s : Text) : IsAscii s → IsData (.str s)
  | atom (a : Text) : IsAscii a → IsData (.atom a)
  | nil : IsData .nil
  | cons (h t : Term) : IsData h → IsData t → IsData (.cons h t)
  | compound (f : Text) (args : List Term) :
    IsAscii f → ¬ IsCell f args → (∀ t ∈ args, IsData t) → IsData (.compound f args)

mutual

/-- The part of an answer that `rolog_get` shows. -/
def shown : Term → Term
  | .str s => .str (cutNul s)
  | .atom a => .atom (cutNul a)
  | .compound f [h, t] =>
    if f = dot then .cons (shown h) (shownTail t)
    else .compound (keptFunctor f 2) (shownArgs [h, t])
  | .compound f args => .compound (keptFunctor f args.length) (shownArgs args)
  | t => t
termination_by structural t => t

/-- A list ends at the first tail that is no list cell. -/
def shownTail : Term → Term
  | .compound f [h, t] => if f = dot then .cons (shown h) (shownTail t) else .nil
  | _ => .nil
termination_by structural t => t

def shownArgs : List Term → List Term
  | [] => []
  | t :: ts => shown t :: shownArgs ts
termination_by structural ts => ts

end

/-! ## The cases of `shown` -/

theorem shown_cons (h t : Term) : shown (.cons h t) = .cons (shown h) (shownTail t) := by
  simp only [Term.cons, shown, if_true]

theorem shownTail_cons (h t : Term) : shownTail (.cons h t) = .cons (shown h) (shownTail t) := by
  simp only [Term.cons, shownTail, if_true]

theorem shown_compound {f : Text} {args : List Term} (h : ¬ IsCell f args) :
    shown (.compound f args) = .compound (keptFunctor f args.length) (shownArgs args) := by
  match args with
  | [] | [_] | _ :: _ :: _ :: _ => rfl
  | [a, b] =>
    have hf : f ≠ dot := fun e => h ⟨e, rfl⟩
    simp only [shown, if_neg hf, List.length_cons, List.length_nil]

theorem shownTail_compound {f : Text} {args : List Term} (h : ¬ IsCell f args) :
    shownTail (.compound f args) = .nil := by
  match args with
  | [] | [_] | _ :: _ :: _ :: _ => rfl
  | [a, b] =>
    have hf : f ≠ dot := fun e => h ⟨e, rfl⟩
    simp only [shownTail, if_neg hf]

theorem shownArgs_eq_map (ts : List Term) : shownArgs ts = ts.map shown := by
  induction ts with
  | nil => rfl
  | cons t ts ih => rw [shownArgs, ih, List.map_cons]

/-- What is shown of a compound is no list cell. -/
theorem not_isCell_shown {f : Text} {ts us : List Term} (hl : us.length = ts.length) :
    ¬ IsCell (keptFunctor f ts.length) us := by
  intro h
  obtain ⟨hf, hlen⟩ := h
  rw [hl] at hlen
  by_cases hd : cutNul f = dot
  · unfold keptFunctor at hf
    rw [if_pos ⟨hd, hlen⟩] at hf
    exact absurd hf (by decide)
  · unfold keptFunctor at hf
    rw [if_neg fun e => hd e.1] at hf
    exact hd hf

/-! ## The part shown can be read off the R value -/

mutual

/-- The part shown of the answers with the given R value. -/
def rologReread : SEXP → Term
  | .int [i] => .int i.toInt
  | .real [b] => .float b
  | .str [some s] [] => .str s.text
  | .str [some s] (_ :: _) => .atom s.text
  | .vec l [] => plList (rologRereads l)
  | .vec (.str [some f] _ :: l) (_ :: _) =>
    .compound (keptFunctor f.text l.length) (rologRereads l)
  | _ => .nil
termination_by structural e => e

def rologRereads : List SEXP → List Term
  | [] => []
  | e :: l => rologReread e :: rologRereads l
termination_by structural l => l

end

theorem rologReread_vec (l : List SEXP) : rologReread (.vec l []) = plList (rologRereads l) := by
  cases l <;> rw [rologReread]

theorem rologReread_functionList (f : CString) (l : List SEXP) :
    rologReread (functionList f l) = .compound (keptFunctor f.text l.length) (rologRereads l) :=
  rfl

theorem rologRereads_rologGetArgs {ts : List Term} {l : List SEXP}
    (h : ∀ t ∈ ts, ∀ v, rologGet t = done v → rologReread v = shown t)
    (hl : rologGetArgs ts = done l) : rologRereads l = shownArgs ts := by
  induction ts generalizing l with
  | nil =>
    cases hl
    rfl
  | cons t ts ih =>
    obtain ⟨x, m, hx, hm, rfl⟩ := rologGetArgs_cons_eq_done.mp hl
    rw [rologRereads, shownArgs, h t List.mem_cons_self x hx,
      ih (fun u hu => h u (List.mem_cons_of_mem t hu)) hm]

/-- A tail that is no list cell is read as the end of the list. -/
theorem reread_of_tail {t : Term} (hl : rologGetTail t = done []) (hs : shownTail t = .nil)
    (hv : ∀ v, rologGet t = done v → rologReread v = shown t) :
    (∀ v, rologGet t = done v → rologReread v = shown t) ∧
    (∀ l, rologGetTail t = done l → plList (rologRereads l) = shownTail t) := by
  refine ⟨hv, fun l he => ?_⟩
  rw [hl] at he
  cases he
  rw [hs]
  rfl

theorem rologReread_rologGet {t : Term} (h : IsData t) :
    (∀ v, rologGet t = done v → rologReread v = shown t) ∧
    (∀ l, rologGetTail t = done l → plList (rologRereads l) = shownTail t) := by
  induction h with
  | int i hlo hhi =>
    refine reread_of_tail rfl rfl fun v hv => ?_
    obtain ⟨_, rfl⟩ := pl2rInt_eq_done.mp hv
    unfold rologReread
    rw [Int32.toInt_ofInt_of_le (by omega) (by omega)]
    rfl
  | float b =>
    refine reread_of_tail rfl rfl fun v hv => ?_
    cases hv
    rfl
  | str s hs =>
    refine reread_of_tail rfl rfl fun v hv => ?_
    cases hv
    unfold pl2rString rologReread
    rw [wideToNative_ascii hs, text_plAtomChars hs, shown]
  | atom a ha =>
    refine reread_of_tail rfl rfl fun v hv => ?_
    cases hv
    unfold atomVector rologReread
    rw [wideToNative_ascii ha, text_plAtomChars ha, shown]
  | nil =>
    refine reread_of_tail rfl rfl fun v hv => ?_
    cases hv
    rfl
  | cons h t _ _ ihh iht =>
    have hl : ∀ l, rologGetTail (.cons h t) = done l →
        plList (rologRereads l) = shownTail (.cons h t) := by
      intro l hl
      obtain ⟨e, m, he, hm, rfl⟩ := rologGetTail_cons_eq_done.mp hl
      unfold rologRereads plList
      rw [ihh.1 e he, iht.2 m hm, shownTail_cons]
    refine ⟨fun v hv => ?_, hl⟩
    obtain ⟨e, m, he, hm, rfl⟩ := rologGet_cons_eq_done.mp hv
    have htail : rologGetTail (.cons h t) = done (e :: m) := by
      rw [rologGetTail_cons, he, hm]
      rfl
    rw [rologReread_vec, hl (e :: m) htail, shownTail_cons, shown_cons]
  | compound f args hf hcell _ ih =>
    have hend : rologGetTail (.compound f args) = done [] := rologGetTail_compound hcell
    refine reread_of_tail hend (shownTail_compound hcell) fun v hv => ?_
    rw [rologGet_compound hcell] at hv
    obtain ⟨l, hl, hv⟩ := bind_eq_done.mp hv
    cases hv
    rw [rologReread_functionList, text_plAtomChars hf, keptFunctor_cutNul, rologGetArgs_length hl,
      rologRereads_rologGetArgs (fun t ht => (ih t ht).1) hl, shown_compound hcell]

/-! ## The R value is that of the part shown -/

theorem rologGetArgs_shownArgs {ts : List Term} (h : ∀ t ∈ ts, rologGet (shown t) = rologGet t) :
    rologGetArgs (shownArgs ts) = rologGetArgs ts := by
  induction ts with
  | nil => rfl
  | cons t ts ih =>
    rw [shownArgs, rologGetArgs, rologGetArgs, h t List.mem_cons_self,
      ih fun u hu => h u (List.mem_cons_of_mem t hu)]

theorem rologGet_shown {t : Term} (h : IsData t) :
    rologGet (shown t) = rologGet t ∧ rologGetTail (shownTail t) = rologGetTail t := by
  induction h with
  | int | float | nil => exact ⟨rfl, rfl⟩
  | str s hs =>
    refine ⟨?_, rfl⟩
    unfold shown rologGet pl2rString
    rw [wideToNative_ascii hs, wideToNative_ascii hs.cutNul, plAtomChars_cutNul hs]
  | atom a ha =>
    refine ⟨?_, rfl⟩
    unfold shown rologGet
    rw [wideToNative_ascii ha, wideToNative_ascii ha.cutNul, plAtomChars_cutNul ha]
  | cons h t _ _ ihh iht =>
    constructor
    · rw [shown_cons, rologGet_cons, rologGet_cons, ihh.1, iht.2]
    · rw [shownTail_cons, rologGetTail_cons, rologGetTail_cons, ihh.1, iht.2]
  | compound f args hf hcell _ ih =>
    have hlen : (shownArgs args).length = args.length := by
      rw [shownArgs_eq_map, List.length_map]
    constructor
    · rw [shown_compound hcell, rologGet_compound (not_isCell_shown hlen), rologGet_compound hcell,
        rologGetArgs_shownArgs fun t ht => (ih t ht).1, plAtomChars_keptFunctor hf]
    · rw [shownTail_compound hcell, rologGetTail_compound hcell]
      rfl

/-- Two ground answers become different R values exactly when the parts shown differ. -/
theorem rologGet_ne_iff {t₁ t₂ : Term} {v₁ v₂ : SEXP} (h₁ : IsData t₁) (h₂ : IsData t₂)
    (hv₁ : rologGet t₁ = done v₁) (hv₂ : rologGet t₂ = done v₂) :
    v₁ ≠ v₂ ↔ shown t₁ ≠ shown t₂ := by
  refine not_congr ⟨fun h => ?_, fun h => ?_⟩
  · rw [← (rologReread_rologGet h₁).1 v₁ hv₁, ← (rologReread_rologGet h₂).1 v₂ hv₂, h]
  · have e : rologGet t₁ = rologGet t₂ := by
      rw [← (rologGet_shown h₁).1, h, (rologGet_shown h₂).1]
    rw [hv₁, hv₂] at e
    exact Unwind.Outcome.done.inj e

/-- `[a|b]` and `[a]` differ, and both become the list of `a`. -/
theorem rologGet_collision :
    IsData (.cons (.atom ['a']) (.atom ['b'])) ∧ IsData (.cons (.atom ['a']) .nil) ∧
      Term.cons (.atom ['a']) (.atom ['b']) ≠ .cons (.atom ['a']) .nil ∧
      ∃ v, rologGet (.cons (.atom ['a']) (.atom ['b'])) = done v ∧
        rologGet (.cons (.atom ['a']) .nil) = done v :=
  ⟨.cons _ _ (.atom _ (by decide)) (.atom _ (by decide)), .cons _ _ (.atom _ (by decide)) .nil,
    by simp [Term.cons], _, rfl, rfl⟩

/-- `[a,b|c]` and `[a|c]` stay apart. -/
theorem rologGet_ne_tails :
    SEXP.vec [atomVector (cstr ['a']), atomVector (cstr ['b'])] [] ≠
        .vec [atomVector (cstr ['a'])] [] ↔
      shown (.cons (.atom ['a']) (.cons (.atom ['b']) (.atom ['c']))) ≠
        shown (.cons (.atom ['a']) (.atom ['c'])) := by
  have ha : IsData (.atom ['a']) := .atom _ (by decide)
  have hb : IsData (.atom ['b']) := .atom _ (by decide)
  have hc : IsData (.atom ['c']) := .atom _ (by decide)
  exact rologGet_ne_iff (.cons _ _ ha (.cons _ _ hb hc)) (.cons _ _ ha hc) (by rfl) (by rfl)

end Rolog
