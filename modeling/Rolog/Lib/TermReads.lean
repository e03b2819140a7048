/-
  Reading terms through references: the functions of the foreign interface that look at a term
  and write its parts into references (pl-fli.c). They leave the global stack as it is.

  A chain of references that stands for a term visits no cell twice (`Leads.nodup`), so `deref`
  gets to its end (`Leads.deref`). The words that `linkVal` stores stand for the term by the
  memory alone in which the term was found (`linkVal_linked`), and so they outlive any reference
  that is written later. The cells that stand for terms are the acyclic ones
  (`exists_standsFor_iff`).
-/
import Mathlib.Data.List.Nodup
import Mathlib.Data.List.Perm.Subperm
import Rolog.Lib.Recursion
import Rolog.Lib.TermRefs

namespace TermRefs

open Unwind Unwind.Outcome Unwind.Proc Relation

variable {κ φ τ ε ρ : Type}

/-! ## The foreign interface -/

/-- A type test, such as `PL_is_integer`. -/
def test (p : Word κ φ → Bool) (r : TermRef) : Proc (Store κ φ) ε ρ Bool := do
  let w ← valHandle r
  pure (p w)

/-- `PL_get_list`, with `cell` as the functor of list cells. All three may be one reference. -/
def getList [DecidableEq φ] (cell : φ) (l h t : TermRef) : Proc (Store κ φ) ε ρ Bool := do
  match ← valHandle l with
  | .struct f n a =>
    if f = cell ∧ n = 2 then do
      setHandle h (← fromCell fun m => m.linkVal (.global a))
      setHandle t (← fromCell fun m => m.linkVal (.global (a + 1)))
      pure true
    else pure false
  | _ => pure false

/-- `PL_get_arg`. The arguments are counted from 1. -/
def getArg (index : Nat) (t a : TermRef) : Proc (Store κ φ) ε ρ Bool := do
  match ← valHandle t with
  | .struct _ n b =>
    if 0 < index ∧ index - 1 < n then do
      setHandle a (← fromCell fun m => m.linkVal (.global (b + (index - 1))))
      pure true
    else pure false
  | _ => pure false

/-- `PL_get_name_arity`, with the names of the constants that have one. -/
def getNameArity (name : κ → Option φ) (t : TermRef) :
    Proc (Store κ φ) ε ρ (Option (φ × Nat)) := do
  match ← valHandle t with
  | .struct f n _ => pure (some (f, n))
  | .const c => pure ((name c).map (·, 0))
  | _ => pure none

/-! ## Chains of references -/

/-- Cell `a` leads through the cells `path`, itself included, to cell `b`, whose word is no
reference. -/
inductive Leads (m : Memory κ φ) : Addr → List Addr → Addr → Prop where
  | here {a : Addr} {w : Word κ φ} (ha : m.get a = some w) (hw : ∀ b, w ≠ .ref b) : Leads m a [a] a
  | step {a b c : Addr} {path : List Addr} (ha : m.get a = some (.ref b)) (h : Leads m b path c) :
      Leads m a (a :: path) c

variable {m m' : Memory κ φ} {a b c : Addr} {path : List Addr}

theorem Leads.unique {path' : List Addr} {b' : Addr} (h : Leads m a path b)
    (h' : Leads m a path' b') : path = path' := by
  induction h generalizing path' with
  | here ha hw =>
    cases h' with
    | here => rfl
    | step ha' =>
      rw [ha] at ha'
      exact absurd (Option.some.inj ha') (hw _)
  | step ha _ ih =>
    cases h' with
    | here ha' hw' =>
      rw [ha] at ha'
      exact absurd (Option.some.inj ha').symm (hw' _)
    | step ha' h' =>
      rw [ha] at ha'
      cases ha'
      rw [ih h']

theorem Leads.suffix (h : Leads m a path b) (hc : c ∈ path) :
    ∃ path', Leads m c path' b ∧ path'.length ≤ path.length := by
  induction h with
  | here ha hw =>
    rw [List.mem_singleton.mp hc]
    exact ⟨_, .here ha hw, Nat.le_refl _⟩
  | step ha h ih =>
    rcases List.mem_cons.mp hc with rfl | hc
    · exact ⟨_, .step ha h, Nat.le_refl _⟩
    · obtain ⟨path', hpath, hlen⟩ := ih hc
      exact ⟨path', hpath, Nat.le_succ_of_le hlen⟩

/-- A cell that comes again would start a chain that is shorter than itself. -/
theorem Leads.nodup (h : Leads m a path b) : path.Nodup := by
  induction h with
  | here => exact List.nodup_singleton _
  | step ha h ih =>
    refine List.nodup_cons.mpr ⟨fun hmem => ?_, ih⟩
    obtain ⟨path', hpath, hlen⟩ := h.suffix hmem
    rw [← (Leads.step ha h).unique hpath, List.length_cons] at hlen
    omega

/-- The cells in use. -/
def Memory.cells (m : Memory κ φ) : List Addr :=
  (List.range m.gTop).map .global ++ (List.range m.lTop).map .loc

theorem Memory.mem_cells {w : Word κ φ} (h : m.get a = some w) : a ∈ m.cells := by
  cases a with
  | global a =>
    have ha := (Memory.get_global.mp h).1
    exact List.mem_append_left _ (List.mem_map_of_mem (List.mem_range.mpr ha))
  | loc r =>
    have hr := (Memory.get_loc.mp h).1
    exact List.mem_append_right _ (List.mem_map_of_mem (List.mem_range.mpr hr))

theorem Leads.subset (h : Leads m a path b) : path ⊆ m.cells := by
  induction h with
  | here ha => exact List.cons_subset.mpr ⟨Memory.mem_cells ha, List.nil_subset _⟩
  | step ha _ ih => exact List.cons_subset.mpr ⟨Memory.mem_cells ha, ih⟩

theorem Leads.length_le (h : Leads m a path b) : path.length ≤ m.gTop + m.lTop := by
  have hlen := (h.nodup.subperm h.subset).length_le
  simpa [Memory.cells] using hlen

theorem Leads.derefAux (h : Leads m a path b) {fuel : Nat} (hfuel : path.length ≤ fuel) :
    m.derefAux fuel a = some b := by
  induction h generalizing fuel with
  | @here a w ha hw =>
    obtain ⟨k, rfl⟩ := Nat.exists_eq_succ_of_ne_zero (Nat.ne_of_gt hfuel)
    unfold Memory.derefAux
    rw [ha]
    cases w with
    | ref b => exact absurd rfl (hw b)
    | unbound | const _ | struct _ _ _ => rfl
  | step ha _ ih =>
    obtain ⟨k, rfl⟩ := Nat.exists_eq_succ_of_ne_zero (Nat.ne_of_gt (Nat.zero_lt_of_lt hfuel))
    unfold Memory.derefAux
    rw [ha]
    exact ih (Nat.le_of_succ_le_succ hfuel)

/-- `deref` gets to the end of a chain. -/
theorem Leads.deref (h : Leads m a path b) : m.deref a = some b :=
  h.derefAux (Nat.le_succ_of_le h.length_le)

/-! ## What a reference refers to -/

/-- The reference is live and stands for the term. -/
def Refers (R : Reading κ φ τ) (m : Memory κ φ) (free : Addr → Option τ) (r : TermRef) (t : τ) :
    Prop := m.Live r ∧ StandsFor R m.get free (.ref (.loc r.pos)) t

/-- The word `v` of cell `b` stands for the term without a further reference. -/
inductive Found (R : Reading κ φ τ) (m : Memory κ φ) (free : Addr → Option τ) (b : Addr) :
    Word κ φ → τ → Prop where
  | bound {v : Word κ φ} {t : τ} (hv : v.Bound) (h : StandsFor R m.get free v t) :
      Found R m free b v t
  | unbound {t : τ} (h : free b = some t) : Found R m free b .unbound t

/-- A word that `linkVal` stores for the term: it is bound, or it refers to an unbound cell. -/
inductive Linked (R : Reading κ φ τ) (m : Memory κ φ) (free : Addr → Option τ) :
    Word κ φ → τ → Prop where
  | bound {w : Word κ φ} {t : τ} (hw : w.Bound) (h : StandsFor R m.get free w t) :
      Linked R m free w t
  | unbound {b : Addr} {t : τ} (hb : m.get b = some .unbound) (h : free b = some t) :
      Linked R m free (.ref b) t

variable {R : Reading κ φ τ} {free : Addr → Option τ} {r : TermRef} {t : τ} {v w : Word κ φ}

theorem Refers.mono (h : Refers R m free r t) (hm : Extends m m') : Refers R m' free r t :=
  ⟨hm.live h.1, hm.denotes h.2⟩

theorem Linked.standsFor (h : Linked R m free w t) : StandsFor R m.get free w t := by
  cases h with
  | bound _ h => exact h
  | unbound hb h => exact .free hb h

/-- A live reference with a word for the term. -/
theorem Contains.refers (h : Contains m r w) (hw : StandsFor R m.get free w t) :
    Refers R m free r t := ⟨h.1, .ref h.get hw⟩

/-- A reference that stands for a term leads to it. -/
theorem StandsFor.leads (h : StandsFor R m.get free (.ref a) t) :
    ∃ path b v, Leads m a path b ∧ m.get b = some v ∧ Found R m free b v t := by
  generalize hw : Word.ref a = w at h
  induction h generalizing a with
  | const | struct => cases hw
  | @ref a' w' t ha h ih =>
    cases hw
    cases w' with
    | unbound => exact absurd rfl h.ne_unbound
    | ref b =>
      obtain ⟨path, c, v, hpath, hc, hv⟩ := ih rfl
      exact ⟨_, c, v, .step ha hpath, hc, hv⟩
    | const c => exact ⟨_, _, _, .here ha nofun, ha, .bound trivial h⟩
    | struct f n b => exact ⟨_, _, _, .here ha nofun, ha, .bound trivial h⟩
  | free ha ht =>
    cases hw
    exact ⟨_, _, _, .here ha nofun, ha, .unbound ht⟩

theorem Refers.found (h : Refers R m free r t) :
    ∃ a v, m.deref (.loc r.pos) = some a ∧ m.get a = some v ∧ Found R m free a v t := by
  obtain ⟨path, a, v, hpath, ha, hv⟩ := h.2.leads
  exact ⟨a, v, hpath.deref, ha, hv⟩

/-- `linkVal` of a cell that stands for a term. -/
theorem linkVal_linked (h : StandsFor R m.get free (.ref a) t) :
    ∃ w, m.linkVal a = some w ∧ Linked R m free w t := by
  obtain ⟨path, b, v, hpath, hb, hv⟩ := h.leads
  cases hv with
  | bound hv h => exact ⟨v, linkVal_bound hpath.deref hb hv, .bound hv h⟩
  | unbound h => exact ⟨.ref b, linkVal_unbound hpath.deref hb, .unbound hb h⟩

/-! ## The cells of a term -/

/-- The cells that a word mentions. -/
def Word.Mentions : Word κ φ → Addr → Prop
  | .ref b, c => c = b
  | .struct _ n b, c => ∃ i, i < n ∧ c = .global (b + i)
  | .unbound, _ | .const _, _ => False

/-- The word of cell `a` mentions cell `b`. -/
def Memory.Arc (m : Memory κ φ) (b a : Addr) : Prop := ∃ w, m.get a = some w ∧ w.Mentions b

/-- From `a`, the arcs lead to cells in use only, and round no cycle. -/
def Memory.Acyclic (m : Memory κ φ) (a : Addr) : Prop :=
  (∀ b, ReflTransGen m.Arc b a → m.get b ≠ none) ∧
    ¬ ∃ b, ReflTransGen m.Arc b a ∧ TransGen m.Arc b b

theorem Memory.arc_iff {w : Word κ φ} (ha : m.get a = some w) : m.Arc b a ↔ w.Mentions b := by
  constructor
  · intro h
    obtain ⟨w', ha', hb⟩ := h
    rw [ha] at ha'
    cases ha'
    exact hb
  · exact fun h => ⟨w, ha, h⟩

/-- From `a`, the arcs lead to cells in use only, and descent along them ends. -/
def Memory.Grounded (m : Memory κ φ) (a : Addr) : Prop :=
  Acc m.Arc a ∧ ∀ b, ReflTransGen m.Arc b a → m.get b ≠ none

theorem Memory.grounded_of_mentions (ha : m.get a = some w)
    (h : ∀ b, w.Mentions b → m.Grounded b) : m.Grounded a := by
  refine ⟨⟨a, fun b hb => (h b ((Memory.arc_iff ha).mp hb)).1⟩, fun c hc => ?_⟩
  rcases hc.cases_tail with rfl | ⟨b, hcb, hba⟩
  · rw [ha]
    exact Option.some_ne_none w
  · exact (h b ((Memory.arc_iff ha).mp hba)).2 c hcb

theorem StandsFor.grounded (h : StandsFor R m.get free w t) :
    ∀ b, w.Mentions b → m.Grounded b := by
  induction h with
  | const c => exact nofun
  | @struct f n a ts hn _ ih =>
    intro b hb
    obtain ⟨i, hi, rfl⟩ := hb
    have hlt : i < ts.length := by omega
    exact ih i ts[i] (List.getElem?_eq_getElem hlt) _ rfl
  | ref ha _ ih =>
    intro b hb
    rw [show b = _ from hb]
    exact Memory.grounded_of_mentions ha ih
  | free ha _ =>
    intro b hb
    rw [show b = _ from hb]
    exact Memory.grounded_of_mentions ha nofun

theorem Memory.Grounded.standsFor (hfree : ∀ a, ∃ t, free a = some t) (h : m.Grounded a) :
    ∃ t, StandsFor R m.get free (.ref a) t := by
  obtain ⟨hacc, huse⟩ := h
  induction hacc with
  | intro a _ ih =>
    obtain ⟨w, ha⟩ := Option.ne_none_iff_exists'.mp (huse a .refl)
    have hbelow : ∀ b, w.Mentions b → ∃ t, StandsFor R m.get free (.ref b) t := by
      intro b hb
      have harc : m.Arc b a := (Memory.arc_iff ha).mpr hb
      exact ih b harc fun c hc => huse c (hc.tail harc)
    cases w with
    | unbound =>
      obtain ⟨t, ht⟩ := hfree a
      exact ⟨t, .free ha ht⟩
    | const c => exact ⟨_, .ref ha (.const c)⟩
    | ref b =>
      obtain ⟨t, ht⟩ := hbelow b rfl
      exact ⟨t, .ref ha ht⟩
    | struct f n b =>
      have hargs : ∀ i : Fin n, ∃ t, StandsFor R m.get free (.ref (.global (b + i))) t :=
        fun i => hbelow _ ⟨i, i.isLt, rfl⟩
      choose ts hts using hargs
      refine ⟨_, .ref ha (.struct (List.length_ofFn (f := ts)) fun i t ht => ?_)⟩
      obtain ⟨hi, rfl⟩ := List.getElem?_eq_some_iff.mp ht
      rw [List.getElem_ofFn]
      exact hts ⟨i, _⟩

/-- The arcs stay in a finite set when they lead to cells in use only. -/
theorem Memory.reachable_finite (h : ∀ b, ReflTransGen m.Arc b a → m.get b ≠ none) :
    {b | ReflTransGen m.Arc b a}.Finite := by
  refine (List.finite_toSet m.cells).subset fun b hb => ?_
  obtain ⟨w, hw⟩ := Option.ne_none_iff_exists'.mp (h b hb)
  exact Memory.mem_cells hw

/-- The references to terms are those to acyclic cells. -/
theorem exists_standsFor_iff (hfree : ∀ a, ∃ t, free a = some t) :
    (∃ t, StandsFor R m.get free (.ref a) t) ↔ m.Acyclic a := by
  constructor
  · intro h
    obtain ⟨t, ht⟩ := h
    obtain ⟨hacc, huse⟩ := ht.grounded a rfl
    exact ⟨huse, (Recursion.acc_iff_no_cycle_of_finite (Memory.reachable_finite huse)).mp hacc⟩
  · intro h
    obtain ⟨huse, hcycle⟩ := h
    have hacc := (Recursion.acc_iff_no_cycle_of_finite (Memory.reachable_finite huse)).mpr hcycle
    exact Memory.Grounded.standsFor hfree ⟨hacc, huse⟩

/-! ## What the operations read -/

variable {s s' : Store κ φ}

theorem valHandle_live (h : s.Live r) (ha : s.deref (.loc r.pos) = some a)
    (hv : s.get a = some v) : (valHandle r : Proc (Store κ φ) ε ρ (Word κ φ)) s = (done v, s) := by
  unfold valHandle
  rw [bind_of_done (resolve_live h ha)]
  exact fromCell_some hv

theorem Refers.valHandle (h : Refers R m free r t) (hm : Extends m s.toMemory) :
    ∃ a v, (TermRefs.valHandle r : Proc (Store κ φ) ε ρ (Word κ φ)) s = (done v, s) ∧
      Found R m free a v t := by
  obtain ⟨a, v, hderef, ha, hv⟩ := h.found
  exact ⟨a, v, valHandle_live (hm.live h.1) (hm.deref hderef) (hm.get ha), hv⟩

/-- A reference with a linked word. -/
theorem Contains.valHandle (h : Contains s.toMemory r w) (hw : Linked R m free w t)
    (hm : Extends m s.toMemory) :
    ∃ a v, (TermRefs.valHandle r : Proc (Store κ φ) ε ρ (Word κ φ)) s = (done v, s) ∧
      Found R m free a v t := by
  cases hw with
  | bound hw ht =>
    exact ⟨_, w, valHandle_live h.1 (h.deref hw.ne_ref) h.get, .bound (b := .loc r.pos) hw ht⟩
  | @unbound b _ hb ht =>
    have hderef : s.deref (.loc r.pos) = some b := h.deref_ref (hm.get hb) nofun
    exact ⟨b, .unbound, valHandle_live h.1 hderef (hm.get hb), .unbound ht⟩

theorem test_of_val {p : Word κ φ → Bool}
    (hv : (valHandle r : Proc (Store κ φ) ε ρ (Word κ φ)) s = (done v, s)) :
    (test p r : Proc (Store κ φ) ε ρ Bool) s = (done (p v), s) := by
  unfold test
  rw [bind_of_done hv]
  rfl

/-- The words that `PL_is_variable` accepts. -/
def Word.isUnbound : Word κ φ → Bool
  | .unbound => true
  | _ => false

/-- The words that `PL_is_list` accepts. -/
def Word.isList [DecidableEq κ] [DecidableEq φ] (cell : φ) (nil : κ) : Word κ φ → Bool
  | .struct f n _ => f = cell ∧ n = 2
  | .const c => c = nil
  | _ => false

theorem isVariable_of_val
    (hv : (valHandle r : Proc (Store κ φ) ε ρ (Word κ φ)) s = (done v, s)) :
    (isVariable r : Proc (Store κ φ) ε ρ Bool) s = (done v.isUnbound, s) := by
  unfold isVariable
  rw [bind_of_done hv]
  cases v <;> rfl

theorem isList_of_val [DecidableEq κ] [DecidableEq φ] (cell : φ) (nil : κ)
    (hv : (valHandle r : Proc (Store κ φ) ε ρ (Word κ φ)) s = (done v, s)) :
    (isList cell nil r : Proc (Store κ φ) ε ρ Bool) s = (done (v.isList cell nil), s) := by
  unfold isList
  rw [bind_of_done hv]
  cases v <;> rfl

theorem getNameArity_const (name : κ → Option φ) {c : κ}
    (hv : (valHandle r : Proc (Store κ φ) ε ρ (Word κ φ)) s = (done (.const c), s)) :
    (getNameArity name r : Proc (Store κ φ) ε ρ (Option (φ × Nat))) s =
      (done ((name c).map (·, 0)), s) := by
  unfold getNameArity
  rw [bind_of_done hv]
  rfl

theorem getNameArity_struct (name : κ → Option φ) {f : φ} {n b : Nat}
    (hv : (valHandle r : Proc (Store κ φ) ε ρ (Word κ φ)) s = (done (.struct f n b), s)) :
    (getNameArity name r : Proc (Store κ φ) ε ρ (Option (φ × Nat))) s =
      (done (some (f, n)), s) := by
  unfold getNameArity
  rw [bind_of_done hv]
  rfl

/-- `PL_get_list` on a list cell: head and tail are linked by the memory in which the cell was
found, although `h` is written before the tail is read and `t` may be the list itself. -/
theorem getList_cell [DecidableEq φ] {cell : φ} {b : Nat} {l h t : TermRef} {t₀ t₁ : τ}
    (hv : (valHandle l : Proc (Store κ φ) ε ρ (Word κ φ)) s = (done (.struct cell 2 b), s))
    (hm : Extends m s.toMemory) (h₀ : StandsFor R m.get free (.ref (.global b)) t₀)
    (h₁ : StandsFor R m.get free (.ref (.global (b + 1))) t₁) (hh : s.Live h) (ht : s.Live t)
    (hnew : m.lTop ≤ h.pos) :
    ∃ w₀ w₁, (getList cell l h t : Proc (Store κ φ) ε ρ Bool) s =
        (done true, (s.set (.loc h.pos) w₀).set (.loc t.pos) w₁) ∧
      Linked R m free w₀ t₀ ∧ Linked R m free w₁ t₁ := by
  obtain ⟨w₀, hw₀, hl₀⟩ := linkVal_linked h₀
  have hset : Extends m (s.set (.loc h.pos) w₀).toMemory := hm.set (a := .loc h.pos) hnew w₀
  obtain ⟨w₁, hw₁, hl₁⟩ := linkVal_linked h₁
  refine ⟨w₀, w₁, ?_, hl₀, hl₁⟩
  have ht' : (s.set (.loc h.pos) w₀).Live t := (Store.set_live s _ _ t).mpr ht
  unfold getList
  rw [bind_of_done hv]
  dsimp only
  rw [if_pos ⟨rfl, rfl⟩, bind_of_done (fromCell_some (hm.linkVal hw₀)),
    bind_of_done (setHandle_live hh w₀), bind_of_done (fromCell_some (hset.linkVal hw₁)),
    bind_of_done (setHandle_live ht' w₁)]
  rfl

theorem getList_other [DecidableEq φ] {cell : φ} {l h t : TermRef}
    (hv : (valHandle l : Proc (Store κ φ) ε ρ (Word κ φ)) s = (done v, s))
    (hcell : ∀ b, v ≠ .struct cell 2 b) :
    (getList cell l h t : Proc (Store κ φ) ε ρ Bool) s = (done false, s) := by
  unfold getList
  rw [bind_of_done hv]
  cases v with
  | unbound | ref _ | const _ => rfl
  | struct f n b =>
    have hne : ¬ (f = cell ∧ n = 2) := by
      rintro ⟨rfl, rfl⟩
      exact hcell b rfl
    dsimp only
    rw [if_neg hne]
    rfl

/-- `PL_get_arg` on a compound. -/
theorem getArg_struct {f : φ} {n b i : Nat} {a : TermRef} {u : τ}
    (hv : (valHandle r : Proc (Store κ φ) ε ρ (Word κ φ)) s = (done (.struct f n b), s))
    (hi : i < n) (hm : Extends m s.toMemory)
    (hu : StandsFor R m.get free (.ref (.global (b + i))) u) (ha : s.Live a) :
    ∃ w, (getArg (i + 1) r a : Proc (Store κ φ) ε ρ Bool) s =
        (done true, s.set (.loc a.pos) w) ∧ Linked R m free w u := by
  obtain ⟨w, hw, hl⟩ := linkVal_linked hu
  refine ⟨w, ?_, hl⟩
  unfold getArg
  rw [bind_of_done hv]
  dsimp only
  rw [if_pos ⟨Nat.succ_pos i, hi⟩, Nat.add_sub_cancel, bind_of_done (fromCell_some (hm.linkVal hw)),
    bind_of_done (setHandle_live ha w)]
  rfl

end TermRefs
