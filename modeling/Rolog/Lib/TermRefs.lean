/-
  Term references: a stack of cells over a global stack of words, with variables that are bound
  in place, and the foreign interface on them (pl-fli.c). A reference carries the number of its
  allocation beside its position; the number is a ghost. An operation on a reference that was
  discarded is undefined behaviour, also when its position has been given out again.
  `StandsFor` says which term a word stands for.
-/
import Rolog.Lib.Proc

namespace TermRefs

open Unwind Unwind.Outcome Unwind.Proc

/-! ## The stacks -/

/-- A cell of the global stack, or of the stack of references. -/
inductive Addr where
  | global (a : Nat)
  | loc (r : Nat)
  deriving DecidableEq

/-- `struct f n a` is a compound with its arguments in the `n` global cells from `a`. -/
inductive Word (κ φ : Type) where
  | unbound
  | ref (a : Addr)
  | const (c : κ)
  | struct (f : φ) (n a : Nat)

/-- `term_t`, with the number of its allocation. -/
structure TermRef where
  pos : Nat
  born : Nat

/-- The `i`-th reference after `r`. -/
def TermRef.add (r : TermRef) (i : Nat) : TermRef := ⟨r.pos + i, r.born + i⟩

/-- The two stacks. The cells below `gTop` and `lTop` are in use. -/
structure Memory (κ φ : Type) where
  global : Nat → Word κ φ
  gTop : Nat
  refs : Nat → Word κ φ
  born : Nat → Nat
  lTop : Nat

variable {κ φ τ ε ρ α : Type}

namespace Memory

variable (m : Memory κ φ)

/-- The references are not discarded. -/
def Live (r : TermRef) : Prop := r.pos < m.lTop ∧ m.born r.pos = r.born

instance (r : TermRef) : Decidable (m.Live r) := inferInstanceAs (Decidable (_ ∧ _))

def get : Addr → Option (Word κ φ)
  | .global a => if a < m.gTop then some (m.global a) else none
  | .loc r => if r < m.lTop then some (m.refs r) else none

/-- The global stack alone. -/
def globals : Addr → Option (Word κ φ)
  | .global a => m.get (.global a)
  | .loc _ => none

variable {m} in
theorem get_global {a : Nat} {w : Word κ φ} :
    m.get (.global a) = some w ↔ a < m.gTop ∧ m.global a = w := by
  unfold get
  by_cases h : a < m.gTop <;> simp [h]

variable {m} in
theorem get_loc {r : Nat} {w : Word κ φ} :
    m.get (.loc r) = some w ↔ r < m.lTop ∧ m.refs r = w := by
  unfold get
  by_cases h : r < m.lTop <;> simp [h]

/-- `deRef`: a chain of references visits no cell twice, so `fuel` is the number of cells. -/
def derefAux : Nat → Addr → Option Addr
  | 0, _ => none
  | fuel + 1, a =>
    match m.get a with
    | some (.ref b) => derefAux fuel b
    | some _ => some a
    | none => none

def deref (a : Addr) : Option Addr := m.derefAux (m.gTop + m.lTop + 1) a

/-- `linkVal`: the word to store in a copy of cell `a`. -/
def linkVal (a : Addr) : Option (Word κ φ) :=
  (m.deref a).bind fun b =>
    match m.get b with
    | some .unbound => some (.ref b)
    | w => w

end Memory

/-- `PL_cons_functor_v` on the `arity` cells from `args`, at the moment it runs. -/
structure Cons (κ φ : Type) where
  functor : φ
  arity : Nat
  args : TermRef
  memory : Memory κ φ

/-- The stacks, the next number for an allocation, and the compounds made so far. -/
structure Store (κ φ : Type) extends Memory κ φ where
  next : Nat
  conses : List (Cons κ φ)

namespace Store

variable (s : Store κ φ)

/-- Write a cell. -/
def set : Addr → Word κ φ → Store κ φ
  | .global a, w => { s with global := fun b => if b = a then w else s.global b }
  | .loc r, w => { s with refs := fun q => if q = r then w else s.refs q }

/-- `n` new references. -/
def pushRefs (n : Nat) (w : Word κ φ) : Store κ φ :=
  { s with
    refs := fun r => if r < s.lTop then s.refs r else w
    born := fun r => if r < s.lTop then s.born r else s.next + (r - s.lTop)
    lTop := s.lTop + n
    next := s.next + n }

/-- A new cell of the global stack. -/
def pushGlobal (w : Word κ φ) : Store κ φ :=
  { s with
    global := fun a => if a = s.gTop then w else s.global a
    gTop := s.gTop + 1 }

@[simp] theorem set_conses (a : Addr) (w : Word κ φ) : (s.set a w).conses = s.conses := by
  cases a <;> rfl

@[simp] theorem set_live (a : Addr) (w : Word κ φ) (r : TermRef) :
    (s.set a w).Live r ↔ s.Live r := by
  cases a <;> rfl

theorem set_refs (a : Addr) (w : Word κ φ) (q : Nat) :
    (s.set a w).refs q = if a = .loc q then w else s.refs q := by
  cases a with
  | global a => rfl
  | loc p =>
    show (if q = p then w else s.refs q) = _
    simp [eq_comm]

end Store

/-! ## The foreign interface -/

/-- Undefined behaviour on a reference that was discarded. -/
def check (r : TermRef) : Proc (Store κ φ) ε ρ Unit := fun s =>
  if s.Live r then (done (), s) else (undefined, s)

/-- Undefined behaviour on a cell that is not in use. -/
def fromCell (f : Memory κ φ → Option α) : Proc (Store κ φ) ε ρ α := fun s =>
  match f s.toMemory with
  | some a => (done a, s)
  | none => (undefined, s)

/-- `PL_new_term_refs` -/
def newTermRefs (n : Nat) : Proc (Store κ φ) ε ρ TermRef := fun s =>
  (done ⟨s.lTop, s.next⟩, s.pushRefs n .unbound)

/-- `PL_new_term_ref` -/
def newTermRef : Proc (Store κ φ) ε ρ TermRef := newTermRefs 1

theorem newTermRefs_apply (n : Nat) (s : Store κ φ) :
    (newTermRefs n : Proc (Store κ φ) ε ρ TermRef) s =
      (done ⟨s.lTop, s.next⟩, s.pushRefs n .unbound) := rfl

/-- `PL_reset_term_refs`: `r` and all above it are discarded. -/
def resetTermRefs (r : TermRef) : Proc (Store κ φ) ε ρ Unit := do
  check r
  modify fun s => { s with lTop := r.pos }

/-- `setHandle` -/
def setHandle (r : TermRef) (w : Word κ φ) : Proc (Store κ φ) ε ρ Unit := do
  check r
  modify fun s => s.set (.loc r.pos) w

/-- The cell that a reference leads to. -/
def resolve (r : TermRef) : Proc (Store κ φ) ε ρ Addr := do
  check r
  fromCell fun m => m.deref (.loc r.pos)

/-- The word that a reference leads to. -/
def valHandle (r : TermRef) : Proc (Store κ φ) ε ρ (Word κ φ) := do
  let a ← resolve r
  fromCell fun m => m.get a

/-- `PL_copy_term_ref` -/
def copyTermRef (r : TermRef) : Proc (Store κ φ) ε ρ TermRef := do
  check r
  let w ← fromCell fun m => m.linkVal (.loc r.pos)
  let new ← newTermRef
  setHandle new w
  pure new

/-- `PL_put_term` -/
def putTerm (r r' : TermRef) : Proc (Store κ φ) ε ρ Unit := do
  check r'
  let w ← fromCell fun m => m.linkVal (.loc r'.pos)
  setHandle r w

/-- `PL_is_variable` -/
def isVariable (r : TermRef) : Proc (Store κ φ) ε ρ Bool := do
  match ← valHandle r with
  | .unbound => pure true
  | _ => pure false

/-- `PL_is_list`: a list cell, or the constant `nil`. -/
def isList [DecidableEq κ] [DecidableEq φ] (cell : φ) (nil : κ) (r : TermRef) :
    Proc (Store κ φ) ε ρ Bool := do
  match ← valHandle r with
  | .struct f n _ => pure (f = cell ∧ n = 2)
  | .const c => pure (c = nil)
  | _ => pure false

/-- The order of addresses: the global stack lies below the references. -/
def Addr.below : Addr → Addr → Bool
  | .global a, .global b => a < b
  | .global _, .loc _ => true
  | .loc _, .global _ => false
  | .loc q, .loc r => q < r

/-- `bindConsVal`: the value of cell `p` in a new cell on top of the global stack. -/
def bindConsVal (p : Addr) : Proc (Store κ φ) ε ρ Unit := do
  match ← fromCell fun m => m.get p with
  | .unbound => modify fun s =>
    if (Addr.global s.gTop).below p then (s.pushGlobal .unbound).set p (.ref (.global s.gTop))
    else s.pushGlobal (.ref p)
  | w => modify fun s => s.pushGlobal w

/-- The loop of `PL_cons_functor_v`, on `n` adjacent references. -/
def consArgs : Nat → TermRef → Proc (Store κ φ) ε ρ Unit
  | 0, _ => pure ()
  | n + 1, r => do
    bindConsVal (← resolve r)
    consArgs n (r.add 1)

/-- `PL_cons_functor_v`, which is the atom `name` when the functor has no arguments. -/
def consFunctorV (name : κ) (f : φ) (n : Nat) (h a0 : TermRef) : Proc (Store κ φ) ε ρ Unit :=
  withState fun s => do
    modify fun s => { s with conses := s.conses ++ [⟨f, n, a0, s.toMemory⟩] }
    if n = 0 then setHandle h (.const name)
    else
      consArgs n a0
      setHandle h (.struct f n s.gTop)

/-- `PL_unify`. The case of two bound terms is left undefined. -/
def unify (r r' : TermRef) : Proc (Store κ φ) ε ρ Bool := do
  let a ← resolve r
  let b ← resolve r'
  let v ← fromCell fun m => m.get a
  let w ← fromCell fun m => m.get b
  match v, w with
  | .unbound, .unbound =>
    if a = b then pure true
    else do
      -- the reference points downwards
      modify fun s => if a.below b then s.set b (.ref a) else s.set a (.ref b)
      pure true
  | .unbound, w => do
    modify fun s => s.set a w
    pure true
  | v, .unbound => do
    modify fun s => s.set b v
    pure true
  | _, _ => lift undefined

/-- `PL_unify_list`, with `cell` as the functor of list cells: `h` and `t` become references to
head and tail. -/
def unifyList [DecidableEq φ] (cell : φ) (l h t : TermRef) : Proc (Store κ φ) ε ρ Bool := do
  let p ← resolve l
  match ← fromCell fun m => m.get p with
  | .unbound => withState fun s => do
    modify fun s => (s.pushGlobal .unbound).pushGlobal .unbound
    setHandle h (.ref (.global s.gTop))
    setHandle t (.ref (.global (s.gTop + 1)))
    modify fun s' => s'.set p (.struct cell 2 s.gTop)
    pure true
  | .struct f n a =>
    if f = cell ∧ n = 2 then do
      setHandle h (← fromCell fun m => m.linkVal (.global a))
      setHandle t (← fromCell fun m => m.linkVal (.global (a + 1)))
      pure true
    else pure false
  | _ => pure false

/-- `unifyAtomic` -/
def unifyConst [DecidableEq κ] (r : TermRef) (c : κ) : Proc (Store κ φ) ε ρ Bool := do
  let p ← resolve r
  match ← fromCell fun m => m.get p with
  | .unbound => do
    modify fun s => s.set p (.const c)
    pure true
  | .const d => pure (d = c)
  | _ => pure false

/-! ## The meaning of a word -/

/-- How constants and compounds are read as terms. -/
structure Reading (κ φ τ : Type) where
  const : κ → τ
  struct : φ → List τ → τ

/-- The word stands for the term, in a memory with the cells `look`. An unbound cell `a` stands
for `free a`, if that is given. -/
inductive StandsFor (R : Reading κ φ τ) (look : Addr → Option (Word κ φ)) (free : Addr → Option τ) :
    Word κ φ → τ → Prop where
  | const (c : κ) : StandsFor R look free (.const c) (R.const c)
  | struct {f : φ} {n a : Nat} {ts : List τ} (hn : ts.length = n)
      (h : ∀ i t, ts[i]? = some t → StandsFor R look free (.ref (.global (a + i))) t) :
      StandsFor R look free (.struct f n a) (R.struct f ts)
  | ref {a : Addr} {w : Word κ φ} {t : τ} (ha : look a = some w) (h : StandsFor R look free w t) :
      StandsFor R look free (.ref a) t
  | free {a : Addr} {t : τ} (ha : look a = some .unbound) (ht : free a = some t) :
      StandsFor R look free (.ref a) t

/-- A constant or a compound. -/
def Word.Bound : Word κ φ → Prop
  | .const _ | .struct _ _ _ => True
  | .unbound | .ref _ => False

theorem Word.Bound.ne_unbound {w : Word κ φ} (h : w.Bound) : w ≠ .unbound := by
  intro hw
  rw [hw] at h
  exact h

theorem Word.Bound.ne_ref {w : Word κ φ} (h : w.Bound) (a : Addr) : w ≠ .ref a := by
  intro hw
  rw [hw] at h
  exact h

variable {R : Reading κ φ τ} {look look' : Addr → Option (Word κ φ)} {free : Addr → Option τ}

theorem StandsFor.ne_unbound {w : Word κ φ} {t : τ} (h : StandsFor R look free w t) :
    w ≠ .unbound := by
  cases h <;> exact nofun

/-- A word stands for one term at most. -/
theorem StandsFor.unique {w : Word κ φ} {t u : τ} (h : StandsFor R look free w t)
    (h' : StandsFor R look free w u) : t = u := by
  induction h generalizing u with
  | const c =>
    cases h'
    rfl
  | @struct f n a ts hn _ ih =>
    cases h' with
    | @struct _ _ _ us hn' hus =>
      refine congrArg (R.struct f) (List.ext_getElem? fun i => ?_)
      by_cases hi : i < ts.length
      · have hi' : i < us.length := by omega
        rw [List.getElem?_eq_getElem hi, List.getElem?_eq_getElem hi',
          ih i _ (List.getElem?_eq_getElem hi) (hus i _ (List.getElem?_eq_getElem hi'))]
      · rw [List.getElem?_eq_none (by omega), List.getElem?_eq_none (by omega)]
  | @ref a w t ha hw ih =>
    cases h' with
    | ref ha' hw' =>
      rw [ha] at ha'
      cases ha'
      exact ih hw'
    | free ha' ht' =>
      rw [ha] at ha'
      cases ha'
      exact absurd rfl hw.ne_unbound
  | free ha ht =>
    cases h' with
    | ref ha' hw' =>
      rw [ha] at ha'
      cases ha'
      exact absurd rfl hw'.ne_unbound
    | free ha' ht' =>
      rw [ht] at ht'
      exact Option.some.inj ht'

/-- A word keeps its meaning while the cells that are bound or stand for a variable stay. -/
theorem StandsFor.mono {w : Word κ φ} {t : τ} (h : StandsFor R look free w t)
    (hlook : ∀ a w, look a = some w → (w = .unbound → free a ≠ none) → look' a = some w) :
    StandsFor R look' free w t := by
  induction h with
  | const c => exact .const c
  | struct hn _ ih => exact .struct hn ih
  | ref ha h ih => exact .ref (hlook _ _ ha fun hw => absurd hw h.ne_unbound) ih
  | free ha ht =>
    refine .free (hlook _ _ ha fun _ hnone => ?_) ht
    rw [ht] at hnone
    cases hnone

/-! ## Later stores -/

/-- Every cell of `m` is in use in `m'`, with the same word and the same number. -/
structure Extends (m m' : Memory κ φ) : Prop where
  lTop : m.lTop ≤ m'.lTop
  gTop : m.gTop ≤ m'.gTop
  refs : ∀ r, r < m.lTop → m'.refs r = m.refs r
  born : ∀ r, r < m.lTop → m'.born r = m.born r
  global : ∀ a, a < m.gTop → m'.global a = m.global a

variable {m m' m'' : Memory κ φ}

theorem Extends.refl (m : Memory κ φ) : Extends m m :=
  ⟨Nat.le_refl _, Nat.le_refl _, fun _ _ => rfl, fun _ _ => rfl, fun _ _ => rfl⟩

theorem Extends.trans (h : Extends m m') (h' : Extends m' m'') : Extends m m'' where
  lTop := Nat.le_trans h.lTop h'.lTop
  gTop := Nat.le_trans h.gTop h'.gTop
  refs r hr := (h'.refs r (Nat.lt_of_lt_of_le hr h.lTop)).trans (h.refs r hr)
  born r hr := (h'.born r (Nat.lt_of_lt_of_le hr h.lTop)).trans (h.born r hr)
  global a ha := (h'.global a (Nat.lt_of_lt_of_le ha h.gTop)).trans (h.global a ha)

theorem Extends.get (h : Extends m m') {a : Addr} {w : Word κ φ} (ha : m.get a = some w) :
    m'.get a = some w := by
  cases a with
  | global a =>
    obtain ⟨hlt, hw⟩ := Memory.get_global.mp ha
    exact Memory.get_global.mpr ⟨Nat.lt_of_lt_of_le hlt h.gTop, (h.global a hlt).trans hw⟩
  | loc r =>
    obtain ⟨hlt, hw⟩ := Memory.get_loc.mp ha
    exact Memory.get_loc.mpr ⟨Nat.lt_of_lt_of_le hlt h.lTop, (h.refs r hlt).trans hw⟩

/-- Every word of `m` stands for the same term in `m'`. -/
theorem Extends.denotes (h : Extends m m') {w : Word κ φ} {t : τ}
    (hw : StandsFor R m.get free w t) : StandsFor R m'.get free w t :=
  hw.mono fun _ _ ha _ => h.get ha

theorem Extends.live (h : Extends m m') {r : TermRef} (hr : m.Live r) : m'.Live r :=
  ⟨Nat.lt_of_lt_of_le hr.1 h.lTop, (h.born r.pos hr.1).trans hr.2⟩

/-- The bound cells of the global stack keep their words. Unbound ones may be bound. -/
def Binds (m m' : Memory κ φ) : Prop :=
  ∀ a w, m.globals a = some w → w ≠ .unbound → m'.globals a = some w

/-- The word stands for the term by the global stack alone. -/
def Shows (R : Reading κ φ τ) (m : Memory κ φ) (w : Word κ φ) (t : τ) : Prop :=
  StandsFor R m.globals (fun _ => none) w t

theorem Shows.mono {w : Word κ φ} {t : τ} (h : Shows R m w t) (hb : Binds m m') :
    Shows R m' w t :=
  StandsFor.mono h fun a w ha hw => hb a w ha fun hu => hw hu rfl

theorem Extends.binds (h : Extends m m') : Binds m m' := by
  intro a w ha _
  cases a with
  | global a => exact h.get (show m.get (.global a) = some w from ha)
  | loc r => cases ha

theorem Binds.trans (h : Binds m m') (h' : Binds m' m'') : Binds m m'' :=
  fun a w ha hw => h' a w (h a w ha hw) hw

theorem Shows.denotes {w : Word κ φ} {t : τ} (h : Shows R m w t) :
    StandsFor R m.get (fun _ => none) w t := by
  refine StandsFor.mono h fun a w ha _ => ?_
  cases a with
  | global a => exact ha
  | loc r => cases ha

/-! ## Live references and their words -/

/-- Reference `r` is live and its cell holds `w`. -/
def Contains (m : Memory κ φ) (r : TermRef) (w : Word κ φ) : Prop := m.Live r ∧ m.refs r.pos = w

/-- The adjacent references from `a0` are live and hold the words. -/
def Slots (m : Memory κ φ) (a0 : TermRef) (ws : List (Word κ φ)) : Prop :=
  ∀ i w, ws[i]? = some w → Contains m (a0.add i) w

variable {r : TermRef} {w : Word κ φ}

theorem Extends.contains (h : Extends m m') (hr : Contains m r w) : Contains m' r w :=
  ⟨h.live hr.1, (h.refs r.pos hr.1.1).trans hr.2⟩

theorem Extends.slots (h : Extends m m') {ws : List (Word κ φ)} (hs : Slots m r ws) :
    Slots m' r ws := fun i w hw => h.contains (hs i w hw)

theorem slots_pair {v : Word κ φ} (h : Contains m r w) (h' : Contains m (r.add 1) v) :
    Slots m r [w, v] := by
  intro i u hu
  match i, hu with
  | 0, rfl => exact h
  | 1, rfl => exact h'

theorem Contains.get (h : Contains m r w) : m.get (.loc r.pos) = some w :=
  Memory.get_loc.mpr ⟨h.1.1, h.2⟩

theorem Contains.deref (h : Contains m r w) (hw : ∀ a, w ≠ .ref a) :
    m.deref (.loc r.pos) = some (.loc r.pos) := by
  unfold Memory.deref Memory.derefAux
  rw [h.get]
  cases w with
  | ref a => exact absurd rfl (hw a)
  | unbound | const _ | struct _ _ _ => rfl

/-- One step from a reference to another cell. -/
theorem Contains.deref_ref {a : Addr} {v : Word κ φ} (h : Contains m r (.ref a))
    (ha : m.get a = some v) (hv : ∀ b, v ≠ .ref b) : m.deref (.loc r.pos) = some a := by
  have hpos : m.gTop + m.lTop ≠ 0 := by
    have := h.1.1
    omega
  obtain ⟨k, hk⟩ := Nat.exists_eq_succ_of_ne_zero hpos
  unfold Memory.deref Memory.derefAux
  rw [h.get, hk]
  unfold Memory.derefAux
  dsimp only
  rw [ha]
  cases v with
  | ref b => exact absurd rfl (hv b)
  | unbound | const _ | struct _ _ _ => rfl

/-! ## Words to copy -/

section

variable {a b : Addr} {v : Word κ φ}

theorem linkVal_bound (hb : m.deref a = some b) (hv : m.get b = some v) (hbound : v.Bound) :
    m.linkVal a = some v := by
  unfold Memory.linkVal
  rw [hb, Option.bind_some, hv]
  cases v with
  | unbound | ref _ => cases hbound
  | const _ | struct _ _ _ => rfl

theorem linkVal_unbound (hb : m.deref a = some b) (hu : m.get b = some .unbound) :
    m.linkVal a = some (.ref b) := by
  unfold Memory.linkVal
  rw [hb, Option.bind_some, hu]

theorem Extends.derefAux (hm : Extends m m') {n k : Nat} (h : m.derefAux n a = some b)
    (hk : n ≤ k) : m'.derefAux k a = some b := by
  induction n generalizing a k with
  | zero => cases h
  | succ n ih =>
    obtain ⟨k, rfl⟩ := Nat.exists_eq_succ_of_ne_zero (Nat.ne_of_gt (Nat.zero_lt_of_lt hk))
    unfold Memory.derefAux at h ⊢
    cases ha : m.get a with
    | none =>
      rw [ha] at h
      cases h
    | some w =>
      rw [ha] at h
      rw [hm.get ha]
      cases w with
      | ref c => exact ih h (Nat.le_of_succ_le_succ hk)
      | unbound | const _ | struct _ _ _ => exact h

theorem Extends.deref (hm : Extends m m') (h : m.deref a = some b) : m'.deref a = some b := by
  have hlen : m.gTop + m.lTop + 1 ≤ m'.gTop + m'.lTop + 1 :=
    Nat.succ_le_succ (Nat.add_le_add hm.gTop hm.lTop)
  exact hm.derefAux h hlen

/-- A later store links a cell as it was linked before. -/
theorem Extends.linkVal (hm : Extends m m') (h : m.linkVal a = some w) :
    m'.linkVal a = some w := by
  unfold Memory.linkVal at h ⊢
  obtain ⟨b, hb, hw⟩ := Option.bind_eq_some_iff.mp h
  rw [hm.deref hb, Option.bind_some]
  cases hv : m.get b with
  | none =>
    rw [hv] at hw
    cases hw
  | some v =>
    rw [hv] at hw
    rw [hm.get hv]
    exact hw

end

/-! ## What the operations do -/

variable {s s₀ : Store κ φ}

theorem check_live (h : s.Live r) : (check r : Proc (Store κ φ) ε ρ Unit) s = (done (), s) :=
  if_pos h

theorem fromCell_some {f : Memory κ φ → Option α} {a : α} (h : f s.toMemory = some a) :
    (fromCell f : Proc (Store κ φ) ε ρ α) s = (done a, s) := by
  unfold fromCell
  rw [h]

theorem setHandle_live (h : s.Live r) (w : Word κ φ) :
    (setHandle r w : Proc (Store κ φ) ε ρ Unit) s = (done (), s.set (.loc r.pos) w) := by
  unfold setHandle
  rw [bind_of_done (check_live h)]
  rfl

theorem resetTermRefs_live (h : s.Live r) :
    (resetTermRefs r : Proc (Store κ φ) ε ρ Unit) s = (done (), { s with lTop := r.pos }) := by
  unfold resetTermRefs
  rw [bind_of_done (check_live h)]
  rfl

theorem resolve_live {a : Addr} (h : s.Live r) (ha : s.deref (.loc r.pos) = some a) :
    (resolve r : Proc (Store κ φ) ε ρ Addr) s = (done a, s) := by
  unfold resolve
  rw [bind_of_done (check_live h)]
  exact fromCell_some ha

theorem Contains.resolve (h : Contains s.toMemory r w) (hw : ∀ a, w ≠ .ref a) :
    (TermRefs.resolve r : Proc (Store κ φ) ε ρ Addr) s = (done (.loc r.pos), s) :=
  resolve_live h.1 (h.deref hw)

theorem isVariable_unbound (h : Contains s.toMemory r .unbound) :
    (isVariable r : Proc (Store κ φ) ε ρ Bool) s = (done true, s) := by
  unfold isVariable valHandle
  rw [bind_assoc, bind_of_done (h.resolve nofun), bind_of_done (fromCell_some h.get)]
  rfl

theorem contains_pushRefs (s : Store κ φ) (w : Word κ φ) {n i : Nat} (hi : i < n) :
    Contains (s.pushRefs n w).toMemory ((TermRef.mk s.lTop s.next).add i) w := by
  refine ⟨⟨Nat.add_lt_add_left hi _, ?_⟩, if_neg (Nat.not_lt.mpr (Nat.le_add_right _ _))⟩
  refine (if_neg (Nat.not_lt.mpr (Nat.le_add_right _ _))).trans ?_
  show s.next + (s.lTop + i - s.lTop) = s.next + i
  rw [Nat.add_sub_cancel_left]

/-- A new reference with the word. -/
def Store.newRef (s : Store κ φ) (w : Word κ φ) : Store κ φ :=
  (s.pushRefs 1 .unbound).set (.loc s.lTop) w

theorem copyTermRef_link (h : s.Live r) (hw : s.linkVal (.loc r.pos) = some w) :
    (copyTermRef r : Proc (Store κ φ) ε ρ TermRef) s =
      (done ⟨s.lTop, s.next⟩, s.newRef w) := by
  have hlive : (s.pushRefs 1 .unbound).Live ⟨s.lTop, s.next⟩ :=
    (contains_pushRefs s .unbound Nat.one_pos).1
  unfold copyTermRef
  rw [bind_of_done (check_live h), bind_of_done (fromCell_some hw)]
  show (newTermRefs 1 >>= _) s = _
  rw [bind_of_done (newTermRefs_apply 1 s), bind_of_done (setHandle_live hlive _)]
  rfl

/-- A copy of a reference to an unbound cell refers to that cell. -/
theorem copyTermRef_unbound (h : Contains s.toMemory r .unbound) :
    (copyTermRef r : Proc (Store κ φ) ε ρ TermRef) s = (done ⟨s.lTop, s.next⟩,
      (s.pushRefs 1 .unbound).set (.loc s.lTop) (.ref (.loc r.pos))) := by
  exact copyTermRef_link h.1 (linkVal_unbound (h.deref nofun) h.get)

/-- `PL_put_term` -/
theorem putTerm_link {r' : TermRef} (h : s.Live r) (hr' : s.Live r')
    (hw : s.linkVal (.loc r'.pos) = some w) :
    (putTerm r r' : Proc (Store κ φ) ε ρ Unit) s = (done (), s.set (.loc r.pos) w) := by
  unfold putTerm
  rw [bind_of_done (check_live hr'), bind_of_done (fromCell_some hw), setHandle_live h]

/-- Unification binds the unbound cell that `r` leads to. -/
theorem unify_unbound {r' : TermRef} {a : Addr} (h : s.Live r)
    (ha : s.deref (.loc r.pos) = some a) (hu : s.get a = some .unbound)
    (hr' : Contains s.toMemory r' w) (hw : w.Bound) :
    (unify r r' : Proc (Store κ φ) ε ρ Bool) s = (done true, s.set a w) := by
  unfold unify
  rw [bind_of_done (resolve_live h ha), bind_of_done (hr'.resolve hw.ne_ref),
    bind_of_done (fromCell_some hu), bind_of_done (fromCell_some hr'.get)]
  cases w with
  | const _ | struct _ _ _ => rfl
  | unbound | ref _ => cases hw

/-- `unifyList` on a reference that leads to an unbound cell makes a list cell there. -/
theorem unifyList_unbound [DecidableEq φ] {h t : TermRef} {a : Addr} (cell : φ) (hr : s.Live r)
    (ha : s.deref (.loc r.pos) = some a) (hu : s.get a = some .unbound) (hh : s.Live h)
    (ht : s.Live t) :
    (unifyList cell r h t : Proc (Store κ φ) ε ρ Bool) s = (done true,
      (((((s.pushGlobal .unbound).pushGlobal .unbound).set (.loc h.pos)
        (.ref (.global s.gTop))).set (.loc t.pos) (.ref (.global (s.gTop + 1)))).set a
          (.struct cell 2 s.gTop))) := by
  unfold unifyList
  rw [bind_of_done (resolve_live hr ha), bind_of_done (fromCell_some hu)]
  let s' := (s.pushGlobal .unbound).pushGlobal .unbound
  have hh' : s'.Live h := hh
  have ht' : (s'.set (.loc h.pos) (.ref (.global s.gTop))).Live t := ht
  refine (bind_of_done (setHandle_live hh' _) _).trans ?_
  exact bind_of_done (setHandle_live ht' _) _

theorem unifyConst_unbound [DecidableEq κ] {a : Addr} (c : κ) (hr : s.Live r)
    (ha : s.deref (.loc r.pos) = some a) (hu : s.get a = some .unbound) :
    (unifyConst r c : Proc (Store κ φ) ε ρ Bool) s = (done true, s.set a (.const c)) := by
  unfold unifyConst
  rw [bind_of_done (resolve_live hr ha), bind_of_done (fromCell_some hu)]
  rfl

theorem bindConsVal_bound {a : Addr} (ha : s.get a = some w) (hw : w.Bound) :
    (bindConsVal a : Proc (Store κ φ) ε ρ Unit) s = (done (), s.pushGlobal w) := by
  unfold bindConsVal
  rw [bind_of_done (fromCell_some ha)]
  cases w with
  | const _ | struct _ _ _ => rfl
  | unbound | ref _ => cases hw

/-- A reference without a value is bound to the new cell. -/
theorem bindConsVal_loc {q : Nat} (hq : s.get (.loc q) = some .unbound) :
    (bindConsVal (.loc q) : Proc (Store κ φ) ε ρ Unit) s =
      (done (), (s.pushGlobal .unbound).set (.loc q) (.ref (.global s.gTop))) := by
  unfold bindConsVal
  rw [bind_of_done (fromCell_some hq)]
  rfl

/-- New cells with these words on top of the global stack. -/
def Store.pushGlobals (s : Store κ φ) (ws : List (Word κ φ)) : Store κ φ :=
  { s with
    global := fun a => if a < s.gTop then s.global a else ws.getD (a - s.gTop) (s.global a)
    gTop := s.gTop + ws.length }

theorem pushGlobals_nil (s : Store κ φ) : s.pushGlobals [] = s := by
  unfold Store.pushGlobals
  have hglobal : (fun a => if a < s.gTop then s.global a
      else [].getD (a - s.gTop) (s.global a)) = s.global := by
    funext a
    exact ite_self _
  rw [hglobal]
  rfl

theorem pushGlobals_cons (s : Store κ φ) (w : Word κ φ) (ws : List (Word κ φ)) :
    s.pushGlobals (w :: ws) = (s.pushGlobal w).pushGlobals ws := by
  have hglobal : (s.pushGlobals (w :: ws)).global = ((s.pushGlobal w).pushGlobals ws).global := by
    funext a
    show (if a < s.gTop then _ else _) = if a < s.gTop + 1 then (if a = s.gTop then w else _) else _
    rcases Nat.lt_trichotomy a s.gTop with h | h | h
    · rw [if_pos h, if_pos (by omega), if_neg (by omega)]
    · rw [if_neg (by omega), if_pos (by omega), if_pos h, h, Nat.sub_self]
      rfl
    · rw [if_neg (by omega), if_neg (by omega)]
      have hsub : a - s.gTop = (a - (s.gTop + 1)) + 1 := by omega
      have hne : a ≠ s.gTop := by omega
      rw [hsub, List.getD_cons_succ]
      show _ = ws.getD (a - (s.gTop + 1)) (if a = s.gTop then w else s.global a)
      rw [if_neg hne]
  have htop : s.gTop + (w :: ws).length = s.gTop + 1 + ws.length := by
    rw [List.length_cons]
    omega
  exact congrArg₂ (fun g n => ({ s with global := g, gTop := n } : Store κ φ)) hglobal htop

theorem pushGlobals_get {ws : List (Word κ φ)} {i : Nat} (h : ws[i]? = some w) :
    (s.pushGlobals ws).get (.global (s.gTop + i)) = some w := by
  have hi : i < ws.length := (List.getElem?_eq_some_iff.mp h).1
  refine Memory.get_global.mpr ⟨Nat.add_lt_add_left hi _, ?_⟩
  show (if s.gTop + i < s.gTop then _ else ws.getD (s.gTop + i - s.gTop) _) = w
  rw [if_neg (by omega), Nat.add_sub_cancel_left, List.getD_eq_getElem?_getD, h]
  rfl

/-- `consArgs` copies the words of bound references. -/
theorem consArgs_slots {ws : List (Word κ φ)} (h : Slots s.toMemory r ws)
    (hws : ∀ w ∈ ws, w.Bound) :
    (consArgs ws.length r : Proc (Store κ φ) ε ρ Unit) s = (done (), s.pushGlobals ws) := by
  induction ws generalizing r s with
  | nil =>
    rw [pushGlobals_nil]
    rfl
  | cons w ws ih =>
    obtain ⟨hw, hws⟩ := List.forall_mem_cons.mp hws
    have hr : Contains s.toMemory r w := h 0 w rfl
    have hnext : Slots (s.pushGlobal w).toMemory (r.add 1) ws := by
      intro i v hv
      have hi : (r.add 1).add i = r.add (i + 1) := by
        unfold TermRef.add
        dsimp only
        rw [Nat.add_assoc, Nat.add_assoc, Nat.add_comm 1 i]
      rw [hi]
      exact h (i + 1) v hv
    rw [pushGlobals_cons, ← ih hnext hws]
    show (TermRefs.resolve r >>= _) s = _
    rw [bind_of_done (hr.resolve hw.ne_ref), bind_of_done (bindConsVal_bound hr.get hw)]

/-- The store after `PL_cons_functor_v` is entered. -/
def Store.record (s : Store κ φ) (f : φ) (n : Nat) (a0 : TermRef) : Store κ φ :=
  { s with conses := s.conses ++ [⟨f, n, a0, s.toMemory⟩] }

theorem consFunctorV_zero (name : κ) (f : φ) {h a0 : TermRef} (hh : s.Live h) :
    (consFunctorV name f 0 h a0 : Proc (Store κ φ) ε ρ Unit) s =
      (done (), (s.record f 0 a0).set (.loc h.pos) (.const name)) :=
  setHandle_live (s := s.record f 0 a0) hh _

/-- `PL_cons_functor_v` makes a compound of the words of bound references. -/
theorem consFunctorV_slots (name : κ) (f : φ) {h a0 : TermRef} {ws : List (Word κ φ)}
    (hne : ws ≠ []) (hh : s.Live h) (hs : Slots s.toMemory a0 ws) (hws : ∀ w ∈ ws, w.Bound) :
    (consFunctorV name f ws.length h a0 : Proc (Store κ φ) ε ρ Unit) s = (done (),
      ((s.record f ws.length a0).pushGlobals ws).set (.loc h.pos)
        (.struct f ws.length s.gTop)) := by
  have hlen : ws.length ≠ 0 := fun h => hne (List.length_eq_zero_iff.mp h)
  have hcons : (consArgs ws.length a0 : Proc (Store κ φ) ε ρ Unit) (s.record f ws.length a0) =
      (done (), (s.record f ws.length a0).pushGlobals ws) := consArgs_slots hs hws
  have hlive : ((s.record f ws.length a0).pushGlobals ws).Live h := hh
  unfold consFunctorV
  rw [withState_apply, if_neg hlen]
  exact (bind_of_done hcons _).trans (setHandle_live hlive _)

/-- `PL_cons_functor_v` of a bound word and of a reference to the reference `q` without a
value. -/
theorem consFunctorV_loc (name : κ) (f : φ) {h a0 : TermRef} {q : Nat} (hh : s.Live h)
    (h0 : Contains s.toMemory a0 w) (hw : w.Bound)
    (h1 : Contains s.toMemory (a0.add 1) (.ref (.loc q))) (hq : s.get (.loc q) = some .unbound) :
    (consFunctorV name f 2 h a0 : Proc (Store κ φ) ε ρ Unit) s = (done (),
      (((((s.record f 2 a0).pushGlobal w).pushGlobal .unbound).set (.loc q)
        (.ref (.global (s.gTop + 1)))).set (.loc h.pos) (.struct f 2 s.gTop))) := by
  let s₁ := s.record f 2 a0
  let s₂ := s₁.pushGlobal w
  let s₃ := (s₂.pushGlobal .unbound).set (.loc q) (.ref (.global (s.gTop + 1)))
  have hargs : (consArgs 2 a0 : Proc (Store κ φ) ε ρ Unit) s₁ = (done (), s₃) := by
    have hr0 : (TermRefs.resolve a0 : Proc (Store κ φ) ε ρ Addr) s₁ = (done (.loc a0.pos), s₁) :=
      Contains.resolve (s := s₁) h0 hw.ne_ref
    have hr1 : (TermRefs.resolve (a0.add 1) : Proc (Store κ φ) ε ρ Addr) s₂ = (done (.loc q), s₂) :=
      resolve_live (s := s₂) h1.1 (Contains.deref_ref (m := s₂.toMemory) h1 hq nofun)
    show (TermRefs.resolve a0 >>= _) s₁ = _
    rw [bind_of_done hr0, bind_of_done (bindConsVal_bound (s := s₁) h0.get hw)]
    show (TermRefs.resolve (a0.add 1) >>= _) s₂ = _
    rw [bind_of_done hr1, bind_of_done (bindConsVal_loc (s := s₂) hq)]
    rfl
  unfold consFunctorV
  rw [withState_apply, if_neg (by decide)]
  exact (bind_of_done hargs _).trans (setHandle_live (s := s₃) hh _)

/-! ## What they leave -/

theorem Extends.pushRefs (h : Extends m s.toMemory) (n : Nat) (w : Word κ φ) :
    Extends m (s.pushRefs n w).toMemory := by
  refine h.trans ⟨Nat.le_add_right _ _, Nat.le_refl _, ?_, ?_, fun _ _ => rfl⟩
  · exact fun r hr => if_pos hr
  · exact fun r hr => if_pos hr

theorem extends_pushRefs (s : Store κ φ) (n : Nat) (w : Word κ φ) :
    Extends s.toMemory (s.pushRefs n w).toMemory := (Extends.refl _).pushRefs n w

/-- `PL_new_term_ref` leaves the old cells as they were. -/
theorem newTermRef_new (s : Store κ φ) :
    ∃ e s', (newTermRef : Proc (Store κ φ) ε ρ TermRef) s = (done e, s') ∧
      Extends s.toMemory s'.toMemory ∧ Contains s'.toMemory e .unbound ∧ s.lTop ≤ e.pos :=
  ⟨_, _, newTermRefs_apply 1 s, extends_pushRefs s 1 _, contains_pushRefs s _ Nat.one_pos,
    Nat.le_refl _⟩

theorem Extends.pushGlobals (h : Extends m s.toMemory) (ws : List (Word κ φ)) :
    Extends m (s.pushGlobals ws).toMemory :=
  h.trans ⟨Nat.le_refl _, Nat.le_add_right _ _, fun _ _ => rfl, fun _ _ => rfl,
    fun _ ha => if_pos ha⟩

/-- Cell `a` is not in use in `m`. -/
def Fresh (m : Memory κ φ) : Addr → Prop
  | .global a => m.gTop ≤ a
  | .loc r => m.lTop ≤ r

/-- A new cell may be written. -/
theorem Extends.set (h : Extends m s.toMemory) {a : Addr} (ha : Fresh m a) (w : Word κ φ) :
    Extends m (s.set a w).toMemory := by
  cases a with
  | global a =>
    refine ⟨h.lTop, h.gTop, h.refs, h.born, fun b hb => ?_⟩
    have hne : b ≠ a := Nat.ne_of_lt (Nat.lt_of_lt_of_le hb ha)
    exact (if_neg hne).trans (h.global b hb)
  | loc r =>
    refine ⟨h.lTop, h.gTop, fun q hq => ?_, h.born, h.global⟩
    have hne : q ≠ r := Nat.ne_of_lt (Nat.lt_of_lt_of_le hq ha)
    exact (if_neg hne).trans (h.refs q hq)

theorem contains_set_self (h : s.Live r) (w : Word κ φ) :
    Contains (s.set (.loc r.pos) w).toMemory r w := ⟨h, if_pos rfl⟩

theorem Contains.set_of_ne (h : Contains s.toMemory r w) {a : Addr} (ha : a ≠ .loc r.pos)
    (v : Word κ φ) : Contains (s.set a v).toMemory r w := by
  cases a with
  | global a => exact h
  | loc q =>
    have hne : r.pos ≠ q := fun hq => ha (congrArg Addr.loc hq.symm)
    exact ⟨h.1, (if_neg hne).trans h.2⟩

/-- `PL_copy_term_ref` leaves the old cells as they were. -/
theorem copyTermRef_new (h : s.Live r) (hw : s.linkVal (.loc r.pos) = some w) :
    ∃ e s', (copyTermRef r : Proc (Store κ φ) ε ρ TermRef) s = (done e, s') ∧
      Extends s.toMemory s'.toMemory ∧ Contains s'.toMemory e w ∧ s.lTop ≤ e.pos :=
  ⟨_, _, copyTermRef_link h hw, (extends_pushRefs s 1 _).set (a := .loc s.lTop) (Nat.le_refl _) w,
    contains_set_self (contains_pushRefs s .unbound Nat.one_pos).1 w, Nat.le_refl _⟩

/-- Writing an unbound cell keeps the bound ones. -/
theorem binds_set {a : Addr} (ha : s.get a = some .unbound) (w : Word κ φ) :
    Binds s.toMemory (s.set a w).toMemory := by
  intro b v hb hv
  cases b with
  | loc q => cases hb
  | global b =>
    cases a with
    | loc q => exact hb
    | global a =>
      obtain ⟨hlt, hval⟩ := Memory.get_global.mp hb
      have hne : b ≠ a := by
        intro hba
        rw [hba] at hval
        exact hv (hval.symm.trans (Memory.get_global.mp ha).2)
      exact Memory.get_global.mpr ⟨hlt, (if_neg hne).trans hval⟩

theorem binds_set_loc (s : Store κ φ) (q : Nat) (w : Word κ φ) :
    Binds s.toMemory (s.set (.loc q) w).toMemory := fun _ _ h _ => h

theorem Extends.pushGlobal (h : Extends m s.toMemory) (w : Word κ φ) :
    Extends m (s.pushGlobal w).toMemory :=
  h.trans ⟨Nat.le_refl _, Nat.le_succ _, fun _ _ => rfl, fun _ _ => rfl,
    fun _ ha => if_neg (Nat.ne_of_lt ha)⟩

/-- References may be discarded down to the old ones. -/
theorem Extends.reset (h : Extends m s.toMemory) {q : Nat} (hq : m.lTop ≤ q) :
    Extends m ({ s with lTop := q } : Store κ φ).toMemory := ⟨hq, h.gTop, h.refs, h.born, h.global⟩

theorem Contains.reset (h : Contains s.toMemory r w) {q : Nat} (hq : r.pos < q) :
    Contains ({ s with lTop := q } : Store κ φ).toMemory r w := ⟨⟨hq, h.1.2⟩, h.2⟩

theorem Fresh.ne {a b : Addr} (hb : Fresh m b) (ha : m.get a = some w) : a ≠ b := by
  intro hab
  rw [hab] at ha
  cases b with
  | global b => exact Nat.not_lt.mpr hb (Memory.get_global.mp ha).1
  | loc q => exact Nat.not_lt.mpr hb (Memory.get_loc.mp ha).1

/-- An unbound cell is not the cell of a reference with another word. -/
theorem Contains.ne_of_unbound (h : Contains m r w) (hw : w ≠ .unbound) {a : Addr}
    (ha : m.get a = some .unbound) : a ≠ .loc r.pos := by
  intro hr
  rw [hr, h.get] at ha
  exact hw (Option.some.inj ha)

theorem get_set_of_ne {a b : Addr} (h : b ≠ a) (w : Word κ φ) :
    (s.set a w).get b = s.get b := by
  cases a with
  | global a =>
    cases b with
    | global b =>
      have hne : b ≠ a := fun hba => h (congrArg Addr.global hba)
      show (if b < s.gTop then some (if b = a then w else s.global b) else none) = _
      rw [if_neg hne]
      rfl
    | loc q => rfl
  | loc p =>
    cases b with
    | global b => rfl
    | loc q =>
      have hne : q ≠ p := fun hqp => h (congrArg Addr.loc hqp)
      show (if q < s.lTop then some (if q = p then w else s.refs q) else none) = _
      rw [if_neg hne]
      rfl

theorem get_set_self {a : Addr} {v : Word κ φ} (h : s.get a = some v) (w : Word κ φ) :
    (s.set a w).get a = some w := by
  cases a with
  | global a => exact Memory.get_global.mpr ⟨(Memory.get_global.mp h).1, if_pos rfl⟩
  | loc q => exact Memory.get_loc.mpr ⟨(Memory.get_loc.mp h).1, if_pos rfl⟩

theorem get_pushGlobal_self (s : Store κ φ) (w : Word κ φ) :
    (s.pushGlobal w).get (.global s.gTop) = some w :=
  Memory.get_global.mpr ⟨Nat.lt_succ_self _, if_pos rfl⟩

end TermRefs
