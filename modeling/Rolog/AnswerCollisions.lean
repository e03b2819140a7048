/-
  What `pl2r_leaf` keeps of a ground answer. Two things are lost: the left side of an argument
  `=(u, r)` but for its name, and what follows a NUL in a text. `kept` drops exactly these, on
  the Prolog side.
-/
import Rolog.RoundTrip

namespace Rolog

open Unwind.Outcome

/-- Finite ground terms of integers between -2^31 and 2^31 (both excluded), floats, ASCII text,
lists and compounds. -/
inductive IsGround : Term → Prop where
  | int (i : Int) : -2147483648 < i → i < 2147483648 → IsGround (.int i)
  | float (bits : UInt64) : IsGround (.float bits)
  | str (s : Text) : IsAscii s → IsGround (.str s)
  | atom (a : Text) : IsAscii a → a ≠ [] → IsGround (.atom a)
  | nil : IsGround .nil
  | cons (h t : Term) : IsGround h → IsGround t → IsGround (.cons h t)
  | compound (f : Text) (args : List Term) :
    IsAscii f → f ≠ [] → ¬ IsCell f args → (∀ t ∈ args, IsGround t) → IsGround (.compound f args)

/-- The functor that R sees. A functor that reads `[|]` only because of a NUL is still no list
cell. -/
def keptFunctor (f : Text) (arity : Nat) : Text :=
  if cutNul f = dot ∧ arity = 2 then dot ++ ['\x00'] else cutNul f

/-- The name of the left side of an argument `=(u, r)`. -/
def keptName : Term → Text
  | .atom a => cutNul a
  | .compound f _ => cutNul f
  | _ => []

mutual

/-- The part of an answer that reaches R. -/
def kept : Term → Term
  | .str s => .str (cutNul s)
  | .atom a => .atom (cutNul a)
  | .compound f [h, t] =>
    if f = dot then .cons (kept h) (kept t)
    else .compound (keptFunctor f 2) (keptArgs [h, t])
  | .compound f args => .compound (keptFunctor f args.length) (keptArgs args)
  | t => t
termination_by structural t => t

def keptArgs : List Term → List Term
  | [] => []
  | .compound f [u, r] :: ts =>
    if cutNul f = eqSign then .compound eqSign [.atom (keptName u), kept r] :: keptArgs ts
    else kept (.compound f [u, r]) :: keptArgs ts
  | t :: ts => kept t :: keptArgs ts
termination_by structural ts => ts

end

/-! ## The cases of `kept` -/

/-- One argument of `keptArgs`. -/
def keptArg : Term → Term
  | .compound f [u, r] =>
    if cutNul f = eqSign then .compound eqSign [.atom (keptName u), kept r]
    else kept (.compound f [u, r])
  | t => kept t

theorem kept_cons (h t : Term) : kept (.cons h t) = .cons (kept h) (kept t) := by
  simp only [Term.cons, kept, if_true]

theorem kept_compound {f : Text} {args : List Term} (h : ¬ IsCell f args) :
    kept (.compound f args) = .compound (keptFunctor f args.length) (keptArgs args) := by
  match args with
  | [] | [_] | _ :: _ :: _ :: _ => rfl
  | [a, b] =>
    have hf : f ≠ dot := fun e => h ⟨e, rfl⟩
    simp only [kept, if_neg hf, List.length_cons, List.length_nil]

theorem keptArgs_cons (t : Term) (ts : List Term) :
    keptArgs (t :: ts) = keptArg t :: keptArgs ts := by
  match t with
  | .var _ | .int _ | .float _ | .str _ | .atom _ | .nil | .blob _ => rfl
  | .compound _ [] | .compound _ [_] | .compound _ (_ :: _ :: _ :: _) => rfl
  | .compound f [u, r] => by_cases hf : cutNul f = eqSign <;> simp [keptArgs, keptArg, hf]

theorem keptArgs_length (ts : List Term) : (keptArgs ts).length = ts.length := by
  induction ts with
  | nil => rfl
  | cons t ts ih => rw [keptArgs_cons, List.length_cons, List.length_cons, ih]

/-! ## Names that differ after a NUL only -/

theorem IsAscii.cutNul {s : Text} (h : IsAscii s) : IsAscii (cutNul s) :=
  fun c hc => h c (List.takeWhile_subset _ hc)

theorem plAtomChars_congr {s s' : Text} (h : IsAscii s) (h' : IsAscii s')
    (e : cutNul s = cutNul s') : plAtomChars s = plAtomChars s' := by
  apply text_injective
  rw [text_plAtomChars h, text_plAtomChars h', e]

theorem plAtomChars_cutNul {s : Text} (h : IsAscii s) : plAtomChars (cutNul s) = plAtomChars s :=
  plAtomChars_congr h.cutNul h (cutNul_cutNul s)

theorem plAtomChars_keptFunctor {f : Text} (h : IsAscii f) (n : Nat) :
    plAtomChars (keptFunctor f n) = plAtomChars f := by
  by_cases hd : cutNul f = dot ∧ n = 2
  · unfold keptFunctor
    rw [if_pos hd]
    exact plAtomChars_congr (by decide) h (by rw [hd.1]; decide)
  · unfold keptFunctor
    rw [if_neg hd, plAtomChars_cutNul h]

theorem keptFunctor_cutNul (f : Text) (n : Nat) : keptFunctor (cutNul f) n = keptFunctor f n := by
  unfold keptFunctor
  rw [cutNul_cutNul]

theorem not_isCell_kept {f : Text} {ts : List Term} :
    ¬ IsCell (keptFunctor f ts.length) (keptArgs ts) := by
  intro h
  obtain ⟨hf, hl⟩ := h
  rw [keptArgs_length] at hl
  by_cases hd : cutNul f = dot
  · unfold keptFunctor at hf
    rw [if_pos ⟨hd, hl⟩] at hf
    exact absurd hf (by decide)
  · unfold keptFunctor at hf
    rw [if_neg fun e => hd e.1] at hf
    exact hd hf

theorem plAtomChars_eq_iff {f : Text} (h : IsAscii f) :
    plAtomChars f = cstr eqSign ↔ cutNul f = eqSign := by
  rw [← text_plAtomChars h]
  exact (text_eq_iff (by decide)).symm

/-! ## The kept part can be read off the R value -/

mutual

/-- The kept part of the answers with the given R value. -/
def reread : SEXP → Term
  | .int [i] => .int i.toInt
  | .real [b] => .float b
  | .str [some s] _ => .str s.text
  | .lgl [some true] => .atom cTrue.text
  | .lgl [some false] => .atom cFalse.text
  | .sym s => .atom s.text
  | .vec l _ => plList (rereads l)
  | .lang (.sym f) args => .compound (keptFunctor f.text args.length) (rereadArgs args)
  | _ => .nil
termination_by structural e => e

def rereads : List SEXP → List Term
  | [] => []
  | e :: l => reread e :: rereads l
termination_by structural l => l

def rereadArgs : List (Option CString × SEXP) → List Term
  | [] => []
  | (none, e) :: l => reread e :: rereadArgs l
  | (some tag, e) :: l => .compound eqSign [.atom tag.text, reread e] :: rereadArgs l
termination_by structural l => l

end

def rereadArg : Option CString × SEXP → Term
  | (none, e) => reread e
  | (some tag, e) => .compound eqSign [.atom tag.text, reread e]

theorem rereadArgs_cons (a : Option CString × SEXP) (l : List (Option CString × SEXP)) :
    rereadArgs (a :: l) = rereadArg a :: rereadArgs l := by
  match a with
  | (none, _) | (some _, _) => rfl

theorem reread_symbolOrLogical (s : CString) : reread (symbolOrLogical s) = .atom s.text := by
  by_cases ht : s = cTrue
  · rw [ht]
    rfl
  · by_cases hf : s = cFalse
    · rw [hf]
      rfl
    · unfold symbolOrLogical
      rw [if_neg ht, if_neg hf, reread]

theorem text_name {u : Term} {s : CString} (hu : IsGround u) (h : u.name = done s) :
    s.text = keptName u := by
  cases hu with
  | int | float | str | nil => cases h
  | atom a ha _ =>
    cases h
    exact text_plAtomChars ha
  | cons =>
    cases h
    rfl
  | compound f _ hf _ _ _ =>
    cases h
    exact text_plAtomChars hf

theorem rereadArgs_pl2rArgs {ts : List Term} {l : List (Option CString × SEXP)}
    (h : ∀ t ∈ ts, ∀ a, pl2rArg t = done a → rereadArg a = keptArg t) (hl : pl2rArgs ts = done l) :
    rereadArgs l = keptArgs ts := by
  induction ts generalizing l with
  | nil =>
    cases hl
    rfl
  | cons t ts ih =>
    obtain ⟨a, m, ha, hm, rfl⟩ := pl2rArgs_cons_eq_done.mp hl
    rw [rereadArgs_cons, keptArgs_cons, h t List.mem_cons_self a ha,
      ih (fun u hu => h u (List.mem_cons_of_mem t hu)) hm]

/-- An argument without a name of its own is reread as the term. -/
theorem reread_unnamed {t : Term} (hn : t.isNamed = false) (hk : keptArg t = kept t)
    (h : ∀ v, pl2rLeaf t = done v → reread v = kept t) :
    ∀ a, pl2rArg t = done a → rereadArg a = keptArg t := by
  intro a ha
  obtain ⟨x, hx, rfl⟩ := (pl2rArg_unnamed_iff hn).mp ha
  rw [hk]
  exact h x hx

theorem keptArg_of_not_named {f : Text} {args : List Term} (hf : IsAscii f)
    (hn : (Term.compound f args).isNamed = false) :
    keptArg (.compound f args) = kept (.compound f args) := by
  match args with
  | [] | [_] | _ :: _ :: _ :: _ => rfl
  | [u, r] =>
    have hname : plAtomChars f ≠ cstr eqSign := by simpa [Term.isNamed] using hn
    rw [keptArg, if_neg fun e => hname ((plAtomChars_eq_iff hf).mpr e)]

/-- A value that is no list tail and no named argument. -/
theorem reread_of_value {t : Term} (hn : t.isNamed = false) (hk : keptArg t = kept t)
    (htail : (pl2rTail t).isDone = false) (hv : ∀ v, pl2rLeaf t = done v → reread v = kept t) :
    (∀ v, pl2rLeaf t = done v → reread v = kept t) ∧
    (∀ l, pl2rTail t = done l → plList (rereads l) = kept t) ∧
    (∀ a, pl2rArg t = done a → rereadArg a = keptArg t) := by
  refine ⟨hv, fun l hl => ?_, reread_unnamed hn hk hv⟩
  rw [hl] at htail
  cases htail

theorem reread_pl2rLeaf {t : Term} (h : IsGround t) :
    (∀ v, pl2rLeaf t = done v → reread v = kept t) ∧
    (∀ l, pl2rTail t = done l → plList (rereads l) = kept t) ∧
    (∀ a, pl2rArg t = done a → rereadArg a = keptArg t) := by
  induction h with
  | int i hlo hhi =>
    refine reread_of_value rfl rfl rfl fun v hv => ?_
    obtain ⟨_, rfl⟩ := pl2rInt_eq_done.mp hv
    unfold reread
    rw [Int32.toInt_ofInt_of_le (by omega) (by omega)]
    rfl
  | float b =>
    refine reread_of_value rfl rfl rfl fun v hv => ?_
    cases hv
    rfl
  | str s hs =>
    refine reread_of_value rfl rfl rfl fun v hv => ?_
    cases hv
    unfold pl2rString reread
    rw [wideToNative_ascii hs, text_plAtomChars hs, kept]
  | atom a ha hne =>
    refine reread_of_value rfl rfl rfl fun v hv => ?_
    obtain ⟨s, hs, _, rfl⟩ := termLeafSymbol_eq_done.mp hv
    unfold atomChars at hs
    rw [plGetChars_ascii ha] at hs
    cases hs
    rw [reread_symbolOrLogical, text_plAtomChars ha, kept]
  | nil =>
    have hv : ∀ v, pl2rLeaf .nil = done v → reread v = kept .nil := by
      intro _ he
      cases he
      rfl
    refine ⟨hv, ?_, reread_unnamed rfl rfl hv⟩
    intro _ he
    cases he
    rfl
  | cons h t _ _ ihh iht =>
    have hl : ∀ l, pl2rTail (.cons h t) = done l → plList (rereads l) = kept (.cons h t) := by
      intro l hl
      obtain ⟨e, m, he, hm, rfl⟩ := pl2rTail_cons_eq_done.mp hl
      unfold rereads plList
      rw [ihh.1 e he, iht.2.1 m hm, kept_cons]
    have hv : ∀ v, pl2rLeaf (.cons h t) = done v → reread v = kept (.cons h t) := by
      intro v hv
      obtain ⟨e, m, he, hm, rfl⟩ := pl2rLeaf_cons_eq_done.mp hv
      unfold reread
      rw [hl (e :: m)]
      rw [pl2rTail_cons, he, hm]
      rfl
    exact ⟨hv, hl, reread_unnamed rfl (keptArg_of_not_named (by decide) rfl) hv⟩
  | compound f args hf _ hcell hsub ih =>
    have hv : ∀ v, pl2rLeaf (.compound f args) = done v → reread v = kept (.compound f args) := by
      intro v hv
      rw [pl2rLeaf_compound hcell] at hv
      obtain ⟨_, l, hl, rfl⟩ := pl2rLang_eq_done.mp hv
      unfold reread
      rw [text_plAtomChars hf, keptFunctor_cutNul, pl2rArgs_length hl,
        rereadArgs_pl2rArgs (fun t ht => (ih t ht).2.2) hl, kept_compound hcell]
    refine ⟨hv, ?_, ?_⟩
    · intro l hl
      rw [pl2rTail_compound hcell] at hl
      cases hl
    · by_cases hn : (Term.compound f args).isNamed
      · obtain ⟨g, u, r, hg, hname⟩ := Term.isNamed_iff.mp hn
        obtain ⟨rfl, rfl⟩ := Term.compound.inj hg
        intro a ha
        obtain ⟨x, s, hx, hs, _, rfl⟩ := (pl2rArg_named_iff hname).mp ha
        rw [rereadArg, keptArg, if_pos ((plAtomChars_eq_iff hf).mp hname),
          text_name (hsub u (by simp)) hs, (ih r (by simp)).1 x hx]
      · have hn : (Term.compound f args).isNamed = false := by simpa using hn
        exact reread_unnamed hn (keptArg_of_not_named hf hn) hv

/-! ## The R value is that of the kept part -/

theorem pl2rArgs_keptArgs {ts : List Term} {l : List (Option CString × SEXP)}
    (h : ∀ t ∈ ts, ∀ a, pl2rArg t = done a → pl2rArg (keptArg t) = done a)
    (hl : pl2rArgs ts = done l) : pl2rArgs (keptArgs ts) = done l := by
  induction ts generalizing l with
  | nil => exact hl
  | cons t ts ih =>
    obtain ⟨a, m, ha, hm, rfl⟩ := pl2rArgs_cons_eq_done.mp hl
    rw [keptArgs_cons, pl2rArgs_cons, h t List.mem_cons_self a ha,
      ih (fun u hu => h u (List.mem_cons_of_mem t hu)) hm]
    rfl

theorem isNamed_kept {t : Term} (h : IsGround t) : (kept t).isNamed = t.isNamed := by
  cases h with
  | int | float | str | atom | nil => rfl
  | cons h t =>
    rw [kept_cons]
    rfl
  | compound f args hf _ hcell _ =>
    rw [kept_compound hcell]
    match args with
    | [] | [_] | _ :: _ :: _ :: _ => simp [keptArgs_cons, keptArgs, Term.isNamed]
    | [u, r] => simp [keptArgs_cons, keptArgs, Term.isNamed, plAtomChars_keptFunctor hf]

theorem keptArg_unnamed {t : Term} (h : IsGround t) (hn : t.isNamed = false) :
    keptArg t = kept t := by
  cases h with
  | int | float | str | atom | nil => rfl
  | cons h t => exact keptArg_of_not_named (by decide) hn
  | compound f args hf _ _ _ => exact keptArg_of_not_named hf hn

theorem pl2rArg_kept {t : Term} (h : IsGround t) (hn : t.isNamed = false)
    (hv : ∀ v, pl2rLeaf t = done v → pl2rLeaf (kept t) = done v) :
    ∀ a, pl2rArg t = done a → pl2rArg (keptArg t) = done a := by
  intro a ha
  obtain ⟨x, hx, rfl⟩ := (pl2rArg_unnamed_iff hn).mp ha
  rw [keptArg_unnamed h hn, pl2rArg_unnamed ((isNamed_kept h).trans hn), hv x hx]
  rfl

theorem named_keptName {u : Term} (hu : IsGround u) {x : SEXP} {a : Option CString × SEXP}
    (h : named u x = done a) : named (.atom (keptName u)) x = done a := by
  obtain ⟨s, hs, hne, rfl⟩ := named_eq_done.mp h
  rw [named_eq_done]
  refine ⟨s, ?_, hne, rfl⟩
  rw [← text_name hu hs, Term.name, plAtomChars_text]

/-- A value that is no list tail and no named argument. -/
theorem kept_of_value {t : Term} (h : IsGround t) (hn : t.isNamed = false)
    (htail : (pl2rTail t).isDone = false)
    (hv : ∀ v, pl2rLeaf t = done v → pl2rLeaf (kept t) = done v) :
    (∀ v, pl2rLeaf t = done v → pl2rLeaf (kept t) = done v) ∧
    (∀ l, pl2rTail t = done l → pl2rTail (kept t) = done l) ∧
    (∀ a, pl2rArg t = done a → pl2rArg (keptArg t) = done a) := by
  refine ⟨hv, fun l hl => ?_, pl2rArg_kept h hn hv⟩
  rw [hl] at htail
  cases htail

theorem pl2rLeaf_kept {t : Term} (h : IsGround t) :
    (∀ v, pl2rLeaf t = done v → pl2rLeaf (kept t) = done v) ∧
    (∀ l, pl2rTail t = done l → pl2rTail (kept t) = done l) ∧
    (∀ a, pl2rArg t = done a → pl2rArg (keptArg t) = done a) := by
  induction h with
  | int | float | nil => exact ⟨fun _ h => h, fun _ h => h, fun _ h => h⟩
  | str s hs =>
    refine kept_of_value (.str s hs) rfl rfl fun v hv => ?_
    cases hv
    unfold kept pl2rLeaf pl2rString
    rw [wideToNative_ascii hs, wideToNative_ascii hs.cutNul,
      plAtomChars_cutNul hs]
  | atom a ha hne =>
    refine kept_of_value (.atom a ha hne) rfl rfl fun v hv => ?_
    unfold kept pl2rLeaf Term.leafSymbol atomChars
    rw [plGetChars_ascii ha.cutNul,
      plAtomChars_cutNul ha]
    unfold pl2rLeaf Term.leafSymbol atomChars at hv
    rw [plGetChars_ascii ha] at hv
    exact hv
  | cons h t hh ht ihh iht =>
    have hv : ∀ v, pl2rLeaf (.cons h t) = done v → pl2rLeaf (kept (.cons h t)) = done v := by
      intro v hv
      obtain ⟨e, m, he, hm, rfl⟩ := pl2rLeaf_cons_eq_done.mp hv
      rw [kept_cons, pl2rLeaf_cons, ihh.1 e he, iht.2.1 m hm]
      rfl
    refine ⟨hv, ?_, pl2rArg_kept (.cons h t hh ht) rfl hv⟩
    intro l hl
    obtain ⟨e, m, he, hm, rfl⟩ := pl2rTail_cons_eq_done.mp hl
    rw [kept_cons, pl2rTail_cons, ihh.1 e he, iht.2.1 m hm]
    rfl
  | compound f args hf hne hcell hsub ih =>
    have hv : ∀ v, pl2rLeaf (.compound f args) = done v →
        pl2rLeaf (kept (.compound f args)) = done v := by
      intro v hv
      rw [pl2rLeaf_compound hcell] at hv
      obtain ⟨hname, l, hl, rfl⟩ := pl2rLang_eq_done.mp hv
      rw [kept_compound hcell, pl2rLeaf_compound not_isCell_kept, pl2rLang_eq_done,
        plAtomChars_keptFunctor hf]
      exact ⟨hname, l, pl2rArgs_keptArgs (fun t ht => (ih t ht).2.2) hl, rfl⟩
    refine ⟨hv, ?_, ?_⟩
    · intro l hl
      rw [pl2rTail_compound hcell] at hl
      cases hl
    · by_cases hn : (Term.compound f args).isNamed
      · obtain ⟨g, u, r, hg, hname⟩ := Term.isNamed_iff.mp hn
        obtain ⟨rfl, rfl⟩ := Term.compound.inj hg
        intro a ha
        rw [pl2rArg_named hname] at ha
        obtain ⟨x, hx, hnamed⟩ := bind_eq_done.mp ha
        rw [keptArg, if_pos ((plAtomChars_eq_iff hf).mp hname), pl2rArg_named (by decide),
          (ih r (by simp)).1 x hx]
        exact named_keptName (hsub u (by simp)) hnamed
      · exact pl2rArg_kept (.compound f args hf hne hcell hsub) (by simpa using hn) hv

/-- Two ground answers become different R values exactly when their kept parts differ. -/
theorem pl2rLeaf_ne_iff {t₁ t₂ : Term} {v₁ v₂ : SEXP} (h₁ : IsGround t₁) (h₂ : IsGround t₂)
    (hv₁ : pl2rLeaf t₁ = done v₁) (hv₂ : pl2rLeaf t₂ = done v₂) :
    v₁ ≠ v₂ ↔ kept t₁ ≠ kept t₂ := by
  refine not_congr ⟨fun h => ?_, fun h => ?_⟩
  · rw [← (reread_pl2rLeaf h₁).1 v₁ hv₁, ← (reread_pl2rLeaf h₂).1 v₂ hv₂, h]
  · have e₁ := (pl2rLeaf_kept h₁).1 v₁ hv₁
    have e₂ := (pl2rLeaf_kept h₂).1 v₂ hv₂
    rw [h, e₂] at e₁
    exact (Unwind.Outcome.done.inj e₁).symm

/-- `f(g(n) = x)` -/
def answerOn (n : Int) : Term :=
  .compound ['f'] [.compound eqSign [.compound ['g'] [.int n], .atom ['x']]]

theorem isGround_answerOn {n : Int} (hlo : -2147483648 < n) (hhi : n < 2147483648) :
    IsGround (answerOn n) := by
  have hg : IsGround (.compound ['g'] [.int n]) :=
    .compound _ _ (by decide) (by decide) (by simp [IsCell]) (by simpa using .int n hlo hhi)
  have he : IsGround (.compound eqSign [.compound ['g'] [.int n], .atom ['x']]) :=
    .compound _ _ (by decide) (by decide) (by simp [IsCell, eqSign, dot])
      (by simpa using ⟨hg, .atom _ (by decide) (by decide)⟩)
  exact .compound _ _ (by decide) (by decide) (by simp [IsCell]) (by simpa using he)

/-- `f(g(1) = x)` and `f(g(2) = x)` differ, and both become `f(g = x)`. -/
theorem pl2rLeaf_collision :
    IsGround (answerOn 1) ∧ IsGround (answerOn 2) ∧ answerOn 1 ≠ answerOn 2 ∧
      ∃ v, pl2rLeaf (answerOn 1) = done v ∧ pl2rLeaf (answerOn 2) = done v :=
  ⟨isGround_answerOn (by decide) (by decide), isGround_answerOn (by decide) (by decide),
    by simp [answerOn], _, rfl, rfl⟩

/-- `f(u = x, 1)` -/
def namedAnswer (u : Term) : Term := .compound ['f'] [.compound eqSign [u, .atom ['x']], .int 1]

theorem isGround_namedAnswer {u : Term} (hu : IsGround u) : IsGround (namedAnswer u) := by
  have hx : IsGround (.atom ['x']) := .atom _ (by decide) (by decide)
  have he : IsGround (.compound eqSign [u, .atom ['x']]) :=
    .compound _ _ (by decide) (by decide) (by simp [IsCell, eqSign, dot]) (by simpa using ⟨hu, hx⟩)
  exact .compound _ _ (by decide) (by decide) (by simp [IsCell, dot])
    (by simpa using ⟨he, .int 1 (by decide) (by decide)⟩)

/-- `f(g = x, 1)` and `f(h(2) = x, 1)` stay apart. -/
theorem pl2rLeaf_ne_named :
    SEXP.lang (.sym (cstr ['f']))
        [(some (cstr ['g']), .sym (cstr ['x'])), (none, .int [1])] ≠
      .lang (.sym (cstr ['f']))
        [(some (cstr ['h']), .sym (cstr ['x'])), (none, .int [1])] ↔
      kept (namedAnswer (.atom ['g'])) ≠ kept (namedAnswer (.compound ['h'] [.int 2])) := by
  have hatom : IsGround (.atom ['g']) := .atom _ (by decide) (by decide)
  have hcompound : IsGround (.compound ['h'] [.int 2]) :=
    .compound _ _ (by decide) (by decide) (by simp [IsCell])
      (by simpa using .int 2 (by decide) (by decide))
  exact pl2rLeaf_ne_iff (isGround_namedAnswer hatom) (isGround_namedAnswer hcompound)
    (by rfl) (by rfl)

end Rolog
