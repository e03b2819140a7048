/-
  The conversions of SWI-cpp.h on a reference to a term. Each ends as its plain counterpart, and
  leaves the cells that were there before as they were; so does the exception that it throws,
  whose term is made of new cells (`plTypeError_thrown`).
-/
import Rolog.DecodeRefs
import Rolog.ReferenceSpec
import Rolog.Lib.Simulation

namespace Rolog

open Unwind Unwind.Outcome Unwind.Proc TermRefs

variable {s s' : Store Const Text} {m : Memory Const Text} {r : TermRef} {t : Term}
  {names : Addr → Nat}

/-! ## The words of a term -/

/-- An unbound cell is a variable. -/
def naming (names : Addr → Nat) (a : Addr) : Option Term := some (.var (names a))

/-- Reference `r` refers to the term `t`, with the variables named after their cells. -/
abbrev RefersTo (names : Addr → Nat) (s : Store Const Text) (r : TermRef) (t : Term) : Prop :=
  Refers reading s.toMemory (naming names) r t

/-- The references to terms are the live references to acyclic cells. -/
theorem exists_refersTo_iff :
    (∃ t, RefersTo names s r t) ↔ s.Live r ∧ s.toMemory.Acyclic (.loc r.pos) := by
  rw [← exists_standsFor_iff (R := reading) fun a => ⟨_, rfl⟩]
  exact exists_and_left

theorem const_term_injective {c d : Const} (h : c.term = d.term) : c = d := by
  cases c <;> cases d <;> cases h <;> rfl

/-- What `valHandle` finds for a constant. -/
theorem found_const {b : Addr} {v : Word Const Text} {c : Const}
    (h : Found reading m (naming names) b v c.term) : v = .const c := by
  generalize ht : c.term = t at h
  cases h with
  | bound hv h =>
    cases h with
    | const d => rw [const_term_injective ht]
    | struct => cases c <;> cases ht
    | ref | free => cases hv
  | unbound h =>
    cases h
    cases c <;> cases ht

/-- What `valHandle` finds for a compound. -/
theorem found_compound {b : Addr} {v : Word Const Text} {f : Text} {ts : List Term}
    (h : Found reading m (naming names) b v (.compound f ts)) :
    ∃ a, v = .struct f ts.length a ∧ ∀ i t, ts[i]? = some t →
      StandsFor reading m.get (naming names) (.ref (.global (a + i))) t := by
  generalize ht : Term.compound f ts = t at h
  cases h with
  | bound hv h =>
    cases h with
    | const d => cases d <;> cases ht
    | @struct g n a us hn h =>
      cases ht
      exact ⟨a, by rw [hn], h⟩
    | ref | free => cases hv
  | unbound h =>
    cases h
    cases ht

/-- What `valHandle` finds for a variable. -/
theorem found_var {b : Addr} {v : Word Const Text} {n : Nat}
    (h : Found reading m (naming names) b v (.var n)) : v = .unbound := by
  generalize ht : Term.var n = t at h
  cases h with
  | bound hv h =>
    cases h with
    | const d => cases d <;> cases ht
    | struct => cases ht
    | ref | free => cases hv
  | unbound h => rfl

/-- A compound stands for a compound. -/
theorem found_struct {b : Addr} {f : Text} {n a : Nat}
    (h : Found reading m (naming names) b (.struct f n a) t) :
    ∃ ts, ts.length = n ∧ t = .compound f ts := by
  cases h with
  | bound _ h =>
    cases h with
    | struct hn _ => exact ⟨_, hn, rfl⟩

/-- A constant stands for itself. -/
theorem found_eq_const {b : Addr} {c : Const} (h : Found reading m (naming names) b (.const c) t) :
    t = c.term := by
  cases h with
  | bound _ h =>
    cases h with
    | const => rfl

/-! ## The term of an exception -/

/-- `PlCompound(f, args)` of two bound words -/
theorem plCompound_pair {a0 : TermRef} {w0 w1 : Word Const Text} (h0 : Contains s.toMemory a0 w0)
    (hb0 : w0.Bound) (h1 : Contains s.toMemory (a0.add 1) w1) (hb1 : w1.Bound) (f : Text) :
    ∃ r w s', Refs.plCompound f ⟨a0, 2⟩ s = (done r, s') ∧ Extends s.toMemory s'.toMemory ∧
      Contains s'.toMemory r w ∧ w.Bound := by
  obtain ⟨r, s₁, hnew, hext, hr, hpos⟩ := newTermRef_new s
  let s₂ := (s₁.record f 2 a0).pushGlobals [w0, w1]
  have hcons : (consFunctorV (.atom f) f 2 r a0 : Refs Unit) s₁ =
      (done (), s₂.set (.loc r.pos) (.struct f 2 s₁.gTop)) :=
    consFunctorV_slots (.atom f) f (List.cons_ne_nil w0 [w1]) hr.1
      (hext.slots (slots_pair h0 h1))
      (List.forall_mem_cons.mpr ⟨hb0, List.forall_mem_singleton.mpr hb1⟩)
  have hpush : Extends s.toMemory s₂.toMemory :=
    hext.pushGlobals (s := s₁.record f 2 a0) [w0, w1]
  refine ⟨r, .struct f 2 s₁.gTop, _, ?_, hpush.set (a := .loc r.pos) hpos _,
    contains_set_self hr.1 _, trivial⟩
  unfold Refs.plCompound
  rw [bind_of_done hnew]
  exact bind_of_done hcons _

/-- `PlCompound(f, args)` of a bound word and a new variable -/
theorem plCompound_loc {a0 : TermRef} {w : Word Const Text} {q : Nat}
    (hm : Extends m s.toMemory) (h0 : Contains s.toMemory a0 w) (hw : w.Bound)
    (h1 : Contains s.toMemory (a0.add 1) (.ref (.loc q))) (hq : s.get (.loc q) = some .unbound)
    (hfresh : m.lTop ≤ q) (f : Text) :
    ∃ r s', Refs.plCompound f ⟨a0, 2⟩ s = (done r, s') ∧ Extends m s'.toMemory := by
  obtain ⟨r, s₁, hnew, hext, hr, hpos⟩ := newTermRef_new s
  let s₂ := ((s₁.record f 2 a0).pushGlobal w).pushGlobal .unbound
  let s₃ := s₂.set (.loc q) (.ref (.global (s₁.gTop + 1)))
  have hcons : (consFunctorV (.atom f) f 2 r a0 : Refs Unit) s₁ =
      (done (), s₃.set (.loc r.pos) (.struct f 2 s₁.gTop)) :=
    consFunctorV_loc (.atom f) f hr.1 (hext.contains h0) hw (hext.contains h1) (hext.get hq)
  have hpush : Extends m s₂.toMemory :=
    ((hm.trans hext).pushGlobal (s := s₁.record f 2 a0) w).pushGlobal .unbound
  have hset : Extends m s₃.toMemory := hpush.set (a := .loc q) hfresh _
  refine ⟨r, s₃.set (.loc r.pos) (.struct f 2 s₁.gTop), ?_,
    hset.set (a := .loc r.pos) (Nat.le_trans hm.lTop hpos) _⟩
  unfold Refs.plCompound
  rw [bind_of_done hnew]
  exact bind_of_done hcons _

/-- The first argument of the exception term is bound. -/
theorem formal_done (h : RefersTo names s r t) (expected : String) :
    ∃ m0 w s', Refs.formal expected r s = (done m0, s') ∧ Extends s.toMemory s'.toMemory ∧
      Contains s'.toMemory m0 w ∧ w.Bound := by
  obtain ⟨a, v, hderef, ha, hfound⟩ := h.found
  unfold Refs.formal
  rw [bind_of_done (isVariable_of_val (valHandle_live h.1 hderef ha))]
  cases hfound with
  | unbound _ =>
    obtain ⟨m0, s', hm0, hmade⟩ := plConst_makes (.atom "instantiation_error".toList) s
    obtain ⟨w, hw, hb, -⟩ := hmade.word
    exact ⟨m0, w, s', hm0, hmade.keeps, hw, hb⟩
  | bound hb _ =>
    obtain ⟨m0, s₁, hm0, hmade⟩ := plConst_makes (.atom expected.toList) s
    obtain ⟨w, hw, hbw, -⟩ := hmade.word
    have hkeeps : Extends s.toMemory s₁.toMemory := hmade.keeps
    obtain ⟨a0, s₂, hargs, hext, h0, h1, -⟩ := plTermvOf_link hw.1 (hkeeps.live h.1)
      (linkVal_bound (hw.deref hbw.ne_ref) hw.get hbw)
      (hkeeps.linkVal (linkVal_bound hderef ha hb))
    obtain ⟨e, u, s₃, he, hext', hu, hbu⟩ := plCompound_pair h0 hbw h1 hb "type_error".toList
    refine ⟨e, u, s₃, ?_, (hkeeps.trans hext).trans hext', hu, hbu⟩
    have hv : v.isUnbound = false := by
      cases v with
      | unbound | ref _ => cases hb
      | const _ | struct _ _ _ => rfl
    rw [hv, if_neg Bool.false_ne_true, bind_of_done hm0, bind_of_done hargs, he]

/-- The exception is thrown, and its term is made of new references. -/
theorem plTypeError_thrown {α : Type} (h : RefersTo names s r t) (expected : String) :
    ∃ s', (Refs.plTypeError expected r : Refs α) s = (thrown (.typeError expected r), s') ∧
      Extends s.toMemory s'.toMemory := by
  obtain ⟨m0, w, s₁, hm0, hext₁, hw, hb⟩ := formal_done h expected
  obtain ⟨m1, s₂, hm1, hext₂, hvar, hpos⟩ := newTermRef_new s₁
  obtain ⟨a0, s₃, hargs, hext₃, h0, h1, -⟩ := plTermvOf_link (hext₂.live hw.1) hvar.1
    (hext₂.linkVal (linkVal_bound (hw.deref hb.ne_ref) hw.get hb))
    (linkVal_unbound (hvar.deref nofun) hvar.get)
  obtain ⟨e, s₄, he, hext₄⟩ := plCompound_loc ((hext₁.trans hext₂).trans hext₃) h0 hb h1
    (hext₃.get hvar.get) (Nat.le_trans hext₁.lTop hpos) "error".toList
  obtain ⟨base, s₅, hbase, hext₅, -, -⟩ := newTermRef_new s₄
  refine ⟨s₅, ?_, hext₄.trans hext₅⟩
  unfold Refs.plTypeError Refs.plTerm
  rw [bind_of_done hm0, bind_of_done hm1, bind_of_done hargs, bind_of_done he,
    bind_of_done hbase]
  rfl

/-! ## Conversions -/

/-- An exception with a reference, and the same with the term that it refers to. -/
inductive SameThrown (names : Addr → Nat) (s : Store Const Text) : RefThrown → Thrown → Prop where
  | typeError {expected : String} {r : TermRef} {t : Term} (h : RefersTo names s r t) :
      SameThrown names s (.typeError expected r) (.typeError expected t)
  | cpp (e : Thrown) : SameThrown names s (.cpp e) e

/-- From `s`, the function ends as the plain one, and leaves the cells of `m` as they were. -/
abbrev Decodes {α : Type} (names : Addr → Nat) (m : Memory Const Text) (p : Refs α)
    (s : Store Const Text) (x : Cpp α) : Prop :=
  Simulates (SameThrown names) (fun s' => Extends m s'.toMemory) p s x

theorem decodes_typeError {α : Type} (hm : Extends m s.toMemory) (h : RefersTo names s r t)
    (expected : String) :
    Decodes names m (Refs.plTypeError expected r : Refs α) s (thrown (.typeError expected t)) := by
  obtain ⟨s', hs', hext⟩ := plTypeError_thrown (α := α) h expected
  exact simulates_of_thrown hs' (.typeError (h.mono hext)) (hm.trans hext)

theorem decodes_install (hm : Extends m s.toMemory) (c : CString) :
    Decodes names m (Refs.ofCpp (install c)) s (install c) := by
  unfold install
  split
  · exact ⟨.jumped _, hm⟩
  · exact ⟨.done _, hm⟩

theorem RefersTo.val (h : RefersTo names s r t) :
    ∃ b v, (valHandle r : Refs (Word Const Text)) s = (done v, s) ∧
      Found reading s.toMemory (naming names) b v t := h.valHandle (Extends.refl _)

theorem valHandle_const {c : Const} (h : RefersTo names s r c.term) :
    (valHandle r : Refs (Word Const Text)) s = (done (.const c), s) := by
  obtain ⟨b, v, hv, hfound⟩ := RefersTo.val h
  rw [hv, found_const hfound]

theorem valHandle_compound {f : Text} {ts : List Term}
    (h : Refers reading m (naming names) r (.compound f ts)) (hm : Extends m s.toMemory) :
    ∃ a, (valHandle r : Refs (Word Const Text)) s = (done (.struct f ts.length a), s) ∧
      ∀ i t, ts[i]? = some t →
        StandsFor reading m.get (naming names) (.ref (.global (a + i))) t := by
  obtain ⟨b, v, hv, hfound⟩ := h.valHandle hm
  obtain ⟨a, rfl, hargs⟩ := found_compound hfound
  exact ⟨a, hv, hargs⟩

theorem valHandle_var {n : Nat} (h : RefersTo names s r (.var n)) :
    (valHandle r : Refs (Word Const Text)) s = (done .unbound, s) := by
  obtain ⟨b, v, hv, hfound⟩ := RefersTo.val h
  rw [hv, found_var hfound]

section

variable {α : Type} {get : TermRef → Refs (Option α)}

theorem convertBy_some {a : α} (h : get r s = (done (some a), s)) (expected : String) :
    Refs.convertBy expected get r s = (done a, s) := by
  unfold Refs.convertBy
  rw [bind_of_done h]
  rfl

theorem convertBy_none (h : get r s = (done none, s)) (expected : String) :
    Refs.convertBy expected get r s = Refs.plTypeError expected r s := by
  unfold Refs.convertBy
  rw [bind_of_done h]

end

theorem getInteger_int {i : Int} (h : RefersTo names s r (.int i)) :
    Refs.getInteger r s =
      (done (if -2147483648 ≤ i ∧ i < 2147483648 then some (.ofInt i) else none), s) := by
  unfold Refs.getInteger
  rw [bind_of_done (valHandle_const (c := .int i) h)]
  dsimp only
  split <;> rfl

theorem pl2rInt_decodes {i : Int} (h : RefersTo names s r (.int i)) :
    Decodes names s.toMemory (Refs.pl2rInt r) s (pl2rInt i) := by
  have hget := getInteger_int h
  unfold Refs.pl2rInt pl2rInt
  by_cases hi : -2147483648 ≤ i ∧ i < 2147483648
  · rw [if_pos hi] at hget ⊢
    exact .step (convertBy_some hget "integer") (simulates_of_done rfl (Extends.refl _))
  · rw [if_neg hi] at hget ⊢
    have hthrow : Decodes names s.toMemory (Refs.operatorInt r) s
        (thrown (.typeError "integer" (.int i))) :=
      .of_eq (convertBy_none hget "integer") (decodes_typeError (Extends.refl _) h "integer")
    exact hthrow.bind_pure

theorem operatorDouble_float {b : UInt64} (h : RefersTo names s r (.float b)) :
    Refs.operatorDouble r s = (done b, s) := by
  refine convertBy_some ?_ "float"
  unfold Refs.getFloat
  rw [bind_of_done (valHandle_const (c := .float b) h)]
  rfl

theorem operatorWchars_str {a : Text} (h : RefersTo names s r (.str a)) :
    Refs.operatorWchars r s = (done a, s) := by
  refine convertBy_some ?_ "text"
  unfold Refs.getWchars
  rw [bind_of_done (valHandle_const (c := .str a) h)]
  rfl

theorem operatorWchars_atom {a : Text} (h : RefersTo names s r (.atom a)) :
    Refs.operatorWchars r s = (done a, s) := by
  refine convertBy_some ?_ "text"
  unfold Refs.getWchars
  rw [bind_of_done (valHandle_const (c := .atom a) h)]
  rfl

theorem leafSymbol_decodes {a : Text} (h : RefersTo names s r (.atom a)) :
    Decodes names s.toMemory (Refs.leafSymbol r) s (Term.leafSymbol a) := by
  have hget : Refs.getChars r s = (done (plGetChars a), s) := by
    unfold Refs.getChars
    rw [bind_of_done (valHandle_const (c := .atom a) h)]
    rfl
  have hchars : Decodes names s.toMemory (Refs.operatorChars r) s (atomChars a) := by
    unfold Refs.operatorChars atomChars
    cases hc : plGetChars a with
    | some c =>
      rw [hc] at hget
      exact simulates_of_done (convertBy_some hget "text") (Extends.refl _)
    | none =>
      rw [hc] at hget
      exact .of_eq (convertBy_none hget "text") (decodes_typeError (Extends.refl _) h "text")
  unfold Refs.leafSymbol Term.leafSymbol
  exact hchars.bind (fun _ h => h) fun c s' hs' => (decodes_install hs' c).bind_pure

theorem getNameArity_compound {f : Text} {ts : List Term}
    (h : RefersTo names s r (.compound f ts)) :
    (getNameArity Const.name r : Refs (Option (Text × Nat))) s =
      (done (some (f, ts.length)), s) := by
  obtain ⟨a, hv, -⟩ := valHandle_compound h (Extends.refl _)
  exact getNameArity_struct Const.name hv

theorem name_compound {f : Text} {ts : List Term} (h : RefersTo names s r (.compound f ts)) :
    Refs.name r s = (done (plAtomChars f), s) := by
  unfold Refs.name
  rw [bind_of_done (convertBy_some (getNameArity_compound h) "compound")]
  rfl

theorem arity_compound {f : Text} {ts : List Term} (h : RefersTo names s r (.compound f ts)) :
    Refs.arity r s = (done ts.length, s) := by
  unfold Refs.arity
  rw [bind_of_done (convertBy_some (getNameArity_compound h) "compound")]
  rfl

/-- Only texts and compounds have a name. -/
theorem name_decodes (h : RefersTo names s r t) :
    Decodes names s.toMemory (Refs.name r) s t.name := by
  have hname : ∀ {a : Text}, (getNameArity Const.name r : Refs (Option (Text × Nat))) s =
      (done (some (a, 0)), s) → Refs.name r s = (done (plAtomChars a), s) := by
    intro a ha
    unfold Refs.name
    rw [bind_of_done (convertBy_some ha "compound")]
    rfl
  have hnone : (getNameArity Const.name r : Refs (Option (Text × Nat))) s = (done none, s) →
      Decodes names s.toMemory (Refs.name r) s (thrown (.typeError "compound" t)) := by
    intro hget
    have hthrow : Decodes names s.toMemory
        (Refs.convertBy "compound" (getNameArity Const.name) r) s
        (thrown (.typeError "compound" t)) :=
      .of_eq (convertBy_none hget "compound") (decodes_typeError (Extends.refl _) h "compound")
    exact hthrow.bind_pure
  have hconst : ∀ {c : Const}, RefersTo names s r c.term →
      (getNameArity Const.name r : Refs (Option (Text × Nat))) s =
        (done ((Const.name c).map (·, 0)), s) := fun hc =>
    getNameArity_const Const.name (valHandle_const hc)
  cases t with
  | atom a => exact simulates_of_done (hname (hconst (c := .atom a) h)) (Extends.refl _)
  | compound f ts => exact simulates_of_done (name_compound h) (Extends.refl _)
  | int i => exact hnone (hconst (c := .int i) h)
  | float b => exact hnone (hconst (c := .float b) h)
  | str a => exact hnone (hconst (c := .str a) h)
  | nil => exact hnone (hconst (c := .nil) h)
  | blob n => exact hnone (hconst (c := .blob n) h)
  | var n =>
    refine hnone ?_
    unfold getNameArity
    rw [bind_of_done (valHandle_var h)]
    rfl

/-- `t[i]` is a new reference to the argument. -/
theorem index_compound {f : Text} {ts : List Term} {i : Nat} {u : Term}
    (h : RefersTo names s r (.compound f ts)) (hi : ts[i]? = some u) :
    ∃ a s', Refs.index r (i + 1) s = (done a, s') ∧ Extends s.toMemory s'.toMemory ∧
      RefersTo names s' a u := by
  obtain ⟨a, s₁, hnew, hext, ha, hpos⟩ := newTermRef_new s
  obtain ⟨b, hv, hargs⟩ := valHandle_compound h hext
  have hlt : i < ts.length := (List.getElem?_eq_some_iff.mp hi).1
  obtain ⟨w, hget, hw⟩ := getArg_struct hv hlt hext (hargs i u hi) ha.1
  have hext' : Extends s.toMemory (s₁.set (.loc a.pos) w).toMemory :=
    hext.set (a := .loc a.pos) hpos w
  refine ⟨a, s₁.set (.loc a.pos) w, ?_, hext', ?_⟩
  · unfold Refs.index Refs.plTerm
    rw [bind_of_done hnew, bind_of_done hget]
    rfl
  · exact (contains_set_self ha.1 w).refers (hext'.denotes hw.standsFor)

end Rolog
