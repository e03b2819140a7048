/-
  The term references of `leaf`. Every function makes its term in new cells and leaves the old
  ones as they were (`Made`); the arguments of a compound are all in place when it is made
  (`Ready`). `leaf_encodes` is the result for whole expressions.
-/
import Mathlib.Data.List.Forall2
import Rolog.References

namespace Rolog

open Unwind Unwind.Outcome Unwind.Proc TermRefs

variable {s s' : Store Const Text} {r : TermRef} {t : Term}

/-! ## Making a term -/

/-- When the compound with functor and arguments `x` is made, all its argument references are
live and hold the arguments in order. -/
structure Ready (c : Cons Const Text) (x : Text × List Term) : Prop where
  functor : c.functor = x.1
  arity : c.arity = x.2.length
  args : ∀ i t, x.2[i]? = some t → c.memory.Live (c.args.add i) ∧
    StandsFor reading c.memory.get (fun _ => none) (.ref (.loc (c.args.add i).pos)) t

/-- From `s` to `s'` the term `t` is made, in the cell of `r`, and for it the compounds `xs`. -/
structure Made (s s' : Store Const Text) (r : TermRef) (t : Term)
    (xs : List (Text × List Term)) : Prop where
  word : ∃ w, Contains s'.toMemory r w ∧ w.Bound ∧ Shows reading s'.toMemory w t
  keeps : Extends s.toMemory s'.toMemory
  built : ∃ new, s'.conses = s.conses ++ new ∧ List.Forall₂ Ready new xs

/-- The function makes `t` from every store. -/
def Makes (p : Refs TermRef) (t : Term) (xs : List (Text × List Term)) : Prop :=
  ∀ s, ∃ r s', p s = (done r, s') ∧ Made s s' r t xs

theorem plConst_makes (c : Const) : Makes (Refs.plConst c) c.term [] := by
  intro s
  have hlive : (s.pushRefs 1 .unbound).Live ⟨s.lTop, s.next⟩ :=
    (contains_pushRefs s .unbound Nat.one_pos).1
  refine ⟨⟨s.lTop, s.next⟩, (s.pushRefs 1 .unbound).set (.loc s.lTop) (.const c), ?_, ?_⟩
  · unfold Refs.plConst
    show (newTermRefs 1 >>= _) s = _
    rw [bind_of_done (newTermRefs_apply 1 s), bind_of_done (setHandle_live hlive _)]
    rfl
  · refine ⟨⟨.const c, contains_set_self hlive _, trivial, .const c⟩, ?_, [], ?_, .nil⟩
    · exact (extends_pushRefs s 1 _).set (a := .loc s.lTop) (Nat.le_refl _) _
    · exact (List.append_nil _).symm

theorem forall₂_getElem? {α β : Type} {P : α → β → Prop} {as : List α} {bs : List β}
    (h : List.Forall₂ P as bs) {i : Nat} {b : β} (hb : bs[i]? = some b) :
    ∃ a, as[i]? = some a ∧ P a b := by
  induction h generalizing i with
  | nil => cases hb
  | cons hab _ ih =>
    cases i with
    | zero =>
      cases hb
      exact ⟨_, rfl, hab⟩
    | succ i => exact ih hb

/-- Slots of bound words that stand for the arguments. -/
structure Filled (s : Store Const Text) (a0 : TermRef) (ws : List (Word Const Text))
    (ts : List Term) : Prop where
  slots : Slots s.toMemory a0 ws
  bound : ∀ w ∈ ws, w.Bound
  terms : List.Forall₂ (Shows reading s.toMemory) ws ts

theorem Filled.ready {a0 : TermRef} {ws : List (Word Const Text)} {ts : List Term}
    (h : Filled s a0 ws ts) (f : Text) : Ready ⟨f, ws.length, a0, s.toMemory⟩ (f, ts) := by
  refine ⟨rfl, h.terms.length_eq, fun i t ht => ?_⟩
  obtain ⟨w, hw, hwt⟩ := forall₂_getElem? h.terms ht
  have hslot := h.slots i w hw
  exact ⟨hslot.1, .ref hslot.get hwt.denotes⟩

theorem Filled.mono {a0 : TermRef} {ws : List (Word Const Text)} {ts : List Term}
    (h : Filled s a0 ws ts) (hs : Extends s.toMemory s'.toMemory) : Filled s' a0 ws ts :=
  ⟨hs.slots h.slots, h.bound, h.terms.imp fun _ _ hw => hw.mono hs.binds⟩

/-- `PlCompound(functor, args)` on filled slots. -/
theorem plCompound_made {v : Refs.PlTermv} {ws : List (Word Const Text)} {ts : List Term}
    (h : Filled s v.a0 ws ts) (hsize : v.size = ws.length) (f : Text) :
    ∃ r s', Refs.plCompound f v s = (done r, s') ∧ Made s s' r (plCompound f ts) [(f, ts)] := by
  have hnew := contains_pushRefs s .unbound Nat.one_pos
  have hext := extends_pushRefs s 1 .unbound
  have hfilled := h.mono hext
  have hstart : Refs.plCompound f v s = (consFunctorV (.atom f) f ws.length
      ⟨s.lTop, s.next⟩ v.a0 >>= fun _ => pure ⟨s.lTop, s.next⟩) (s.pushRefs 1 .unbound) := by
    unfold Refs.plCompound
    rw [hsize]
    rfl
  have hterms := h.terms
  cases hterms with
  | nil =>
    refine ⟨_, _, hstart.trans (bind_of_done (consFunctorV_zero _ f hnew.1) _), ?_⟩
    have hshows : ∀ m, Shows reading m (.const (.atom f)) (plCompound f []) := fun _ =>
      StandsFor.const (R := reading) (Const.atom f)
    refine ⟨⟨_, contains_set_self hnew.1 _, trivial, hshows _⟩, ?_, _, rfl, ?_⟩
    · exact hext.set (a := .loc s.lTop) (Nat.le_refl _) _
    · exact .cons (hfilled.ready f) .nil
  | cons hw hws =>
    rename_i w t ws ts
    have hcons : (consFunctorV (.atom f) f (w :: ws).length ⟨s.lTop, s.next⟩ v.a0 : Refs Unit)
        (s.pushRefs 1 .unbound) = _ :=
      consFunctorV_slots (.atom f) f (List.cons_ne_nil w ws) hnew.1 hfilled.slots h.bound
    have hkeeps := (hext.pushGlobals (s := (s.pushRefs 1 .unbound).record f (w :: ws).length v.a0)
      (w :: ws)).set (a := .loc s.lTop) (Nat.le_refl _) (.struct f (w :: ws).length s.gTop)
    refine ⟨_, _, hstart.trans (bind_of_done hcons _), ?_⟩
    refine ⟨⟨_, contains_set_self hnew.1 _, trivial, ?_⟩, hkeeps, _, rfl, ?_⟩
    · refine StandsFor.struct (R := reading) h.terms.length_eq.symm fun i t ht => ?_
      obtain ⟨u, hu, hut⟩ := forall₂_getElem? h.terms ht
      exact .ref (pushGlobals_get hu) (hut.mono hkeeps.binds)
    · exact .cons (hfilled.ready f) .nil

/-! ## Lists -/

/-- The word of `list` once `v` is in cell `a`. -/
def wordWith (s : Store Const Text) (list : TermRef) (a : Addr) (v : Word Const Text) :
    Word Const Text := if a = .loc list.pos then v else s.refs list.pos

/-- A list in the making since `m`: `t` refers to the unbound cell `a`, and with a word for `u`
in that cell, the word of `list` stands for `f u`. -/
structure Building (m : Memory Const Text) (list t : TermRef) (f : Term → Term) (a : Addr)
    (s : Store Const Text) : Prop where
  keeps : Extends m s.toMemory
  live : s.Live list
  listNew : m.lTop ≤ list.pos
  tail : Contains s.toMemory t (.ref a)
  tailNew : m.lTop ≤ t.pos
  ne : list.pos ≠ t.pos
  hole : s.get a = some .unbound
  fresh : Fresh m a
  fills : ∀ v, v.Bound → (wordWith s list a v).Bound ∧
    ∀ m', Binds s.toMemory m' → (∀ x, a = .global x → m'.globals a = some v) →
      ∀ u, Shows reading m' v u → Shows reading m' (wordWith s list a v) (f u)

/-- The store after `PlTerm list; PlTail t(list)`. -/
def withTail (s : Store Const Text) : Store Const Text :=
  (((s.pushRefs 1 .unbound).pushRefs 1 .unbound).pushRefs 1 .unbound).set (.loc (s.lTop + 2))
    (.ref (.loc s.lTop))

/-- `list` below the reference of the base class. -/
theorem contains_list (s : Store Const Text) :
    Contains ((s.pushRefs 1 .unbound).pushRefs 1 .unbound).toMemory ⟨s.lTop, s.next⟩ .unbound :=
  (extends_pushRefs (s.pushRefs 1 .unbound) 1 .unbound).contains
    (contains_pushRefs s .unbound Nat.one_pos)

theorem plTail_new (s : Store Const Text) :
    Refs.plTail ⟨s.lTop, s.next⟩ (s.pushRefs 1 .unbound) =
      (done ⟨s.lTop + 2, s.next + 2⟩, withTail s) := by
  have hlist := contains_list s
  refine (bind_of_done (newTermRefs_apply 1 (s.pushRefs 1 .unbound)) _).trans ?_
  exact (bind_of_done (isVariable_unbound hlist) _).trans (copyTermRef_unbound hlist)

theorem building_withTail (s : Store Const Text) :
    Building s.toMemory ⟨s.lTop, s.next⟩ ⟨s.lTop + 2, s.next + 2⟩ id (.loc s.lTop)
      (withTail s) := by
  have hext := (extends_pushRefs s 1 .unbound).pushRefs 1 .unbound
  have hnew :=
    contains_pushRefs ((s.pushRefs 1 .unbound).pushRefs 1 .unbound) .unbound Nat.one_pos
  have hlt : s.lTop < s.lTop + 2 := Nat.lt_add_of_pos_right Nat.two_pos
  have hne : Addr.loc (s.lTop + 2) ≠ .loc s.lTop := fun h => Nat.ne_of_gt hlt (Addr.loc.inj h)
  have hlist : Contains (withTail s).toMemory ⟨s.lTop, s.next⟩ .unbound :=
    ((extends_pushRefs ((s.pushRefs 1 .unbound).pushRefs 1 .unbound) 1 .unbound).contains
      (contains_list s)).set_of_ne hne _
  refine ⟨?_, hlist.1, Nat.le_refl _, contains_set_self hnew.1 _, Nat.le_of_lt hlt,
    Nat.ne_of_lt hlt, hlist.get, Nat.le_refl s.lTop, fun v hv => ?_⟩
  · exact (hext.pushRefs 1 _).set (a := .loc (s.lTop + 2)) (Nat.le_of_lt hlt) _
  · unfold wordWith
    rw [if_pos rfl]
    exact ⟨hv, fun _ _ _ _ hu => hu⟩

/-- The hole is filled with a word for `u`. -/
theorem Building.fill {m : Memory Const Text} {list t : TermRef} {f : Term → Term} {a : Addr}
    (h : Building m list t f a s) {v : Word Const Text} (hv : v.Bound) {u : Term}
    (hu : Shows reading (s.set a v).toMemory v u) :
    ∃ w, Contains (s.set a v).toMemory list w ∧ w.Bound ∧
      Shows reading (s.set a v).toMemory w (f u) ∧ Extends m (s.set a v).toMemory := by
  obtain ⟨hbound, hshows⟩ := h.fills v hv
  refine ⟨wordWith s list a v, ?_, hbound, ?_, h.keeps.set h.fresh v⟩
  · unfold wordWith
    split_ifs with ha
    · rw [ha]
      exact contains_set_self h.live v
    · have hlist : Contains s.toMemory list (s.refs list.pos) := ⟨h.live, rfl⟩
      exact hlist.set_of_ne ha v
  · refine hshows _ (binds_set h.hole v) ?_ u hu
    intro x hx
    rw [hx] at h ⊢
    exact Memory.get_global.mpr ⟨(Memory.get_global.mp h.hole).1, if_pos rfl⟩

/-- In `PL_unify_list(t, tmp, t)` on a new reference `tmp`: head and tail of the new list cell
are in `tmp` and `t`. -/
def withHeadTail (s : Store Const Text) (t : TermRef) : Store Const Text :=
  ((((s.pushRefs 1 .unbound).pushGlobal .unbound).pushGlobal .unbound).set (.loc s.lTop)
    (.ref (.global s.gTop))).set (.loc t.pos) (.ref (.global (s.gTop + 1)))

/-- The store after it, if `t` leads to the unbound cell `a`. -/
def withCell (s : Store Const Text) (t : TermRef) (a : Addr) : Store Const Text :=
  (withHeadTail s t).set a (.struct dot 2 s.gTop)

section
variable {e tail : TermRef} {a : Addr} {w : Word Const Text}

theorem withCell_head (h : Contains s.toMemory tail (.ref a)) (ha : s.get a = some .unbound) :
    Contains (withCell s tail a).toMemory ⟨s.lTop, s.next⟩ (.ref (.global s.gTop)) := by
  have hnew : Fresh s.toMemory (.loc s.lTop) := Nat.le_refl s.lTop
  refine Contains.set_of_ne ?_ (hnew.ne ha) _
  refine Contains.set_of_ne ?_ (hnew.ne h.get) _
  exact contains_set_self (contains_pushRefs s .unbound Nat.one_pos).1 _

theorem withCell_get_head (tail : TermRef) (ha : s.get a = some .unbound) :
    (withCell s tail a).get (.global s.gTop) = some .unbound := by
  have hnew : Fresh s.toMemory (.global s.gTop) := Nat.le_refl s.gTop
  unfold withCell withHeadTail
  rw [get_set_of_ne (hnew.ne ha).symm, get_set_of_ne Addr.noConfusion,
    get_set_of_ne Addr.noConfusion]
  exact ((Extends.refl _).pushGlobal _).get (get_pushGlobal_self _ _)

theorem withCell_get_tail (ha : s.get a = some .unbound) :
    (withCell s tail a).get (.global (s.gTop + 1)) = some .unbound := by
  have hnew : Fresh s.toMemory (.global (s.gTop + 1)) := Nat.le_succ s.gTop
  unfold withCell withHeadTail
  rw [get_set_of_ne (hnew.ne ha).symm, get_set_of_ne Addr.noConfusion,
    get_set_of_ne Addr.noConfusion]
  exact get_pushGlobal_self ((s.pushRefs 1 .unbound).pushGlobal .unbound) _

theorem withCell_tail (h : Contains s.toMemory tail (.ref a)) (ha : s.get a = some .unbound) :
    Contains (withCell s tail a).toMemory tail (.ref (.global (s.gTop + 1))) := by
  have hlive := (extends_pushRefs s 1 .unbound).live h.1
  refine Contains.set_of_ne ?_ (h.ne_of_unbound nofun ha) _
  exact contains_set_self (s := (((s.pushRefs 1 .unbound).pushGlobal .unbound).pushGlobal
    .unbound).set (.loc s.lTop) (.ref (.global s.gTop))) hlive _

/-- The references other than `tail` keep their bound words. -/
theorem withCell_holds (h : Contains s.toMemory e w) (hw : w.Bound)
    (ht : Contains s.toMemory tail (.ref a)) (ha : s.get a = some .unbound) :
    Contains (withCell s tail a).toMemory e w := by
  have hnew : Fresh s.toMemory (.loc s.lTop) := Nat.le_refl s.lTop
  have hne : Addr.loc tail.pos ≠ .loc e.pos := by
    intro hpos
    have hword := ht.get
    rw [hpos, h.get] at hword
    exact hw.ne_ref a (Option.some.inj hword)
  refine Contains.set_of_ne ?_ (h.ne_of_unbound hw.ne_unbound ha) _
  refine Contains.set_of_ne ?_ hne _
  refine Contains.set_of_ne ?_ (hnew.ne h.get).symm _
  exact (extends_pushRefs s 1 .unbound).contains h

/-- `PlTail::append`: the element is in a new list cell, and the temporary is gone. -/
theorem append_withCell (ht : Contains s.toMemory tail (.ref a)) (ha : s.get a = some .unbound)
    (he : Contains s.toMemory e w) (hw : w.Bound) :
    Refs.append tail e s =
      (done true, { (withCell s tail a).set (.global s.gTop) w with lTop := s.lTop }) := by
  have hext := extends_pushRefs s 1 .unbound
  have htail := hext.contains ht
  have hdown := htail.deref_ref (hext.get ha) nofun
  have hnew := contains_pushRefs s .unbound Nat.one_pos
  have hlist : (unifyList dot tail ⟨s.lTop, s.next⟩ tail : Refs Bool) (s.pushRefs 1 .unbound) =
      (done true, withCell s tail a) :=
    unifyList_unbound dot htail.1 hdown (hext.get ha) hnew.1 htail.1
  have hhead := withCell_head ht ha
  have hopen := withCell_get_head tail ha
  have hunify : (unify ⟨s.lTop, s.next⟩ e : Refs Bool) (withCell s tail a) =
      (done true, (withCell s tail a).set (.global s.gTop) w) :=
    unify_unbound hhead.1 (hhead.deref_ref hopen nofun) hopen (withCell_holds he hw ht ha) hw
  have hreset : (resetTermRefs ⟨s.lTop, s.next⟩ : Refs Unit)
      ((withCell s tail a).set (.global s.gTop) w) = _ := resetTermRefs_live hhead.1
  unfold Refs.append
  refine (bind_of_done (newTermRefs_apply 1 s) _).trans ?_
  refine (bind_of_done hlist _).trans ?_
  rw [if_pos rfl]
  refine (bind_of_done hunify _).trans ?_
  rw [if_pos rfl]
  exact bind_of_done hreset _

variable {m : Memory Const Text} {list : TermRef} {f : Term → Term}

theorem withCell_extends (h : Building m list tail f a s) :
    Extends m (withCell s tail a).toMemory := by
  have hpush := (((h.keeps.pushRefs 1 .unbound).pushGlobal .unbound).pushGlobal .unbound)
  have hhead := hpush.set (a := .loc s.lTop) h.keeps.lTop (.ref (.global s.gTop))
  exact (hhead.set (a := .loc tail.pos) h.tailNew _).set h.fresh _

theorem withHeadTail_get (h : Contains s.toMemory tail (.ref a)) (ha : s.get a = some .unbound) :
    (withHeadTail s tail).get a = some .unbound := by
  have hext := ((extends_pushRefs s 1 .unbound).pushGlobal .unbound).pushGlobal .unbound
  have hnew : Fresh s.toMemory (.loc s.lTop) := Nat.le_refl s.lTop
  unfold withHeadTail
  rw [get_set_of_ne (h.ne_of_unbound nofun ha), get_set_of_ne (hnew.ne ha)]
  exact hext.get ha

theorem binds_withCell (h : Contains s.toMemory tail (.ref a)) (ha : s.get a = some .unbound) :
    Binds s.toMemory (withCell s tail a).toMemory := by
  have hext := ((extends_pushRefs s 1 .unbound).pushGlobal .unbound).pushGlobal .unbound
  exact hext.binds.trans (binds_set (withHeadTail_get h ha) _)

theorem withCell_live (h : Building m list tail f a s) : (withCell s tail a).Live list := by
  unfold withCell withHeadTail
  rw [Store.set_live, Store.set_live, Store.set_live]
  exact (extends_pushRefs s 1 .unbound).live h.live

theorem withCell_word (h : Building m list tail f a s) :
    (withCell s tail a).refs list.pos = wordWith s list a (.struct dot 2 s.gTop) := by
  have htail : Addr.loc tail.pos ≠ .loc list.pos := fun hpos => h.ne (Addr.loc.inj hpos).symm
  have hnew : Addr.loc s.lTop ≠ .loc list.pos := fun hpos =>
    Nat.ne_of_lt h.live.1 (Addr.loc.inj hpos).symm
  unfold withCell withHeadTail wordWith
  rw [Store.set_refs, Store.set_refs, Store.set_refs, if_neg htail, if_neg hnew]
  show (if a = _ then _ else if list.pos < s.lTop then s.refs list.pos else _) = _
  rw [if_pos h.live.1]

theorem Building.append (h : Building m list tail f a s) (he : Contains s.toMemory e w)
    (hw : w.Bound) {x : Term} (hx : Shows reading s.toMemory w x) :
    ∃ s', Refs.append tail e s = (done true, s') ∧ s'.conses = s.conses ∧
      Building m list tail (fun u => f (.cons x u)) (.global (s.gTop + 1)) s' := by
  refine ⟨_, append_withCell h.tail h.hole he hw, ?_, ?_⟩
  · show ((withCell s tail a).set _ w).conses = _
    rw [Store.set_conses, withCell, Store.set_conses]
    rfl
  have hg : m.gTop ≤ s.gTop := h.keeps.gTop
  have hhead := withCell_get_head tail h.hole
  have hbinds := (binds_withCell h.tail h.hole).trans (binds_set hhead w)
  constructor
  · exact ((withCell_extends h).set (a := .global s.gTop) hg w).reset h.keeps.lTop
  · exact ⟨h.live.1, (withCell_live h).2⟩
  · exact h.listNew
  · exact (withCell_tail h.tail h.hole).reset h.tail.1.1
  · exact h.tailNew
  · exact h.ne
  · have hne : Addr.global (s.gTop + 1) ≠ .global s.gTop := fun h =>
      Nat.succ_ne_self s.gTop (Addr.global.inj h)
    exact (get_set_of_ne hne w).trans (withCell_get_tail h.hole)
  · exact Nat.le_succ_of_le hg
  · intro v _
    obtain ⟨hbound, hshows⟩ := h.fills (.struct dot 2 s.gTop) trivial
    have hword : wordWith ({ (withCell s tail a).set (.global s.gTop) w with
        lTop := s.lTop } : Store Const Text) list (.global (s.gTop + 1)) v =
        wordWith s list a (.struct dot 2 s.gTop) := (if_neg nofun).trans (withCell_word h)
    rw [hword]
    refine ⟨hbound, fun m' hm' hv u hu => ?_⟩
    refine hshows m' (hbinds.trans hm') (fun y hy => ?_) _ ?_
    · have hnew : Fresh s.toMemory (.global s.gTop) := Nat.le_refl s.gTop
      have hcell := get_set_self (withHeadTail_get h.tail h.hole) (.struct dot 2 s.gTop)
      rw [← get_set_of_ne (hnew.ne h.hole) w] at hcell
      subst hy
      exact hm' _ _ hcell nofun
    · -- the new cell has the element as its head, and `u` as its tail
      refine @StandsFor.struct _ _ _ reading _ _ dot 2 s.gTop [x, u] rfl fun i t ht => ?_
      match i, ht with
      | 0, rfl =>
        exact .ref (hm' _ _ (get_set_self hhead w) hw.ne_unbound) (hx.mono (hbinds.trans hm'))
      | 1, rfl => exact .ref (hv _ rfl) hu

end

theorem Building.extend {m : Memory Const Text} {list tail : TermRef} {f : Term → Term}
    {a : Addr} (h : Building m list tail f a s) (hs : Extends s.toMemory s'.toMemory) :
    Building m list tail f a s' := by
  refine ⟨h.keeps.trans hs, hs.live h.live, h.listNew, hs.contains h.tail, h.tailNew, h.ne,
    hs.get h.hole, h.fresh, fun v hv => ?_⟩
  have hword : wordWith s' list a v = wordWith s list a v := by
    unfold wordWith
    rw [hs.refs list.pos h.live.1]
  obtain ⟨hbound, hshows⟩ := h.fills v hv
  rw [hword]
  exact ⟨hbound, fun m' hm' => hshows m' (hs.binds.trans hm')⟩

theorem Made.conses {xs : List (Text × List Term)} (h : Made s s' r t xs) (hxs : xs = []) :
    s'.conses = s.conses := by
  obtain ⟨new, hnew, hready⟩ := h.built
  rw [hxs] at hready
  cases hready
  rw [hnew, List.append_nil]

theorem appendEach_spec {m : Memory Const Text} {list tail : TermRef} {f : Term → Term}
    {a : Addr} (vals : List Const) (h : Building m list tail f a s) :
    ∃ a' s', Refs.appendEach tail vals s = (done (), s') ∧ s'.conses = s.conses ∧
      Building m list tail (fun u => f (vals.foldr (fun c u => .cons c.term u) u)) a' s' := by
  induction vals generalizing f a s with
  | nil => exact ⟨a, s, rfl, rfl, h⟩
  | cons c vals ih =>
    obtain ⟨e, s₁, he, hmade⟩ := plConst_makes c s
    obtain ⟨w, hw, hbound, hshows⟩ := hmade.word
    obtain ⟨s₂, happend, hconses, hnext⟩ := (h.extend hmade.keeps).append hw hbound hshows
    obtain ⟨a', s', heach, hrest, hbuild⟩ := ih hnext
    refine ⟨a', s', ?_, ?_, hbuild⟩
    · unfold Refs.appendEach
      rw [bind_of_done he, bind_of_done happend, heach]
    · rw [hrest, hconses, hmade.conses rfl]

theorem plList_map (vals : List Const) :
    plList (vals.map Const.term) = vals.foldr (fun c u => .cons c.term u) .nil := by
  induction vals with
  | nil => rfl
  | cons c vals ih =>
    rw [List.map_cons, plList, ih]
    rfl

theorem plListOf_makes (vals : List Const) :
    Makes (Refs.plListOf vals) (plList (vals.map Const.term)) [] := by
  intro s
  obtain ⟨a, s', heach, hconses, h⟩ := appendEach_spec vals (building_withTail s)
  have hclose : Refs.close ⟨s.lTop + 2, s.next + 2⟩ s' = (done true, s'.set a (.const .nil)) :=
    unifyConst_unbound .nil h.tail.1 (h.tail.deref_ref h.hole nofun) h.hole
  have hnil : Shows reading (s'.set a (.const .nil)).toMemory (.const .nil) .nil :=
    StandsFor.const (R := reading) Const.nil
  obtain ⟨w, hw, hbound, hshows, hkeeps⟩ := h.fill (v := .const .nil) trivial hnil
  rw [plList_map]
  refine ⟨⟨s.lTop, s.next⟩, _, ?_, ⟨w, hw, hbound, hshows⟩, hkeeps, [], ?_, .nil⟩
  · unfold Refs.plListOf
    refine (bind_of_done (newTermRefs_apply 1 s) _).trans ?_
    rw [bind_of_done (plTail_new s), bind_of_done heach, bind_of_done hclose]
    rfl
  · rw [Store.set_conses, hconses, List.append_nil]
    rfl

theorem r2plReal_makes (v : List UInt64) : Makes (Refs.r2plReal v) (r2plReal v) [] := by
  have hlist : Makes (Refs.plListOf (v.map .float)) (plList (v.map .float)) [] := by
    have h := plListOf_makes (v.map .float)
    rw [List.map_map] at h
    exact h
  match v with
  | [x] => exact plConst_makes (.float x)
  | [] | _ :: _ :: _ => exact hlist

theorem r2plString_makes (v : List (Option CString)) :
    Makes (Refs.r2plString v) (r2plString v) [] := by
  have hlist : Makes (Refs.plListOf (v.map fun s => .str (getCstring s).text))
      (plList (v.map fun s => .str (getCstring s).text)) [] := by
    have h := plListOf_makes (v.map fun s => .str (getCstring s).text)
    rw [List.map_map] at h
    exact h
  match v with
  | [s] => exact plConst_makes (.str (getCstring s).text)
  | [] | _ :: _ :: _ => exact hlist

/-! ## Compounds of two terms -/

theorem Made.after {s₁ : Store Const Text} {r' : TermRef} {t' : Term}
    {xs ys : List (Text × List Term)} (h : Made s s₁ r t xs) (h' : Made s₁ s' r' t' ys) :
    Made s s' r' t' (xs ++ ys) := by
  obtain ⟨new, hnew, hready⟩ := h.built
  obtain ⟨new', hnew', hready'⟩ := h'.built
  refine ⟨h'.word, h.keeps.trans h'.keeps, new ++ new', ?_, ?_⟩
  · rw [hnew', hnew, List.append_assoc]
  · exact List.rel_append hready hready'

/-- `PlTermv(m0, m1)` copies the words of both references. -/
theorem plTermvOf_link {m0 m1 : TermRef} {w0 w1 : Word Const Text} (h0 : s.Live m0)
    (h1 : s.Live m1) (hw0 : s.linkVal (.loc m0.pos) = some w0)
    (hw1 : s.linkVal (.loc m1.pos) = some w1) :
    ∃ a0 s', Refs.plTermvOf m0 m1 s = (done ⟨a0, 2⟩, s') ∧ Extends s.toMemory s'.toMemory ∧
      Contains s'.toMemory a0 w0 ∧ Contains s'.toMemory (a0.add 1) w1 ∧ s'.conses = s.conses := by
  let a0 : TermRef := ⟨s.lTop, s.next⟩
  let s₁ := s.pushRefs 2 .unbound
  let s₂ := s₁.set (.loc a0.pos) w0
  let s₃ := s₂.set (.loc (a0.add 1).pos) w1
  have hext₁ : Extends s.toMemory s₁.toMemory := extends_pushRefs s 2 _
  have hext₂ : Extends s.toMemory s₂.toMemory :=
    hext₁.set (a := .loc a0.pos) (Nat.le_refl s.lTop) w0
  have hslot0 : Contains s₁.toMemory a0 .unbound := contains_pushRefs s _ Nat.two_pos
  have hslot1 : s₂.Live (a0.add 1) :=
    (Store.set_live _ _ _ _).mpr (contains_pushRefs s _ Nat.one_lt_two).1
  have hput0 : (putTerm a0 m0 : Refs Unit) s₁ = (done (), s₂) :=
    putTerm_link hslot0.1 (hext₁.live h0) (hext₁.linkVal hw0)
  have hput1 : (putTerm (a0.add 1) m1 : Refs Unit) s₂ = (done (), s₃) :=
    putTerm_link hslot1 (hext₂.live h1) (hext₂.linkVal hw1)
  have hne : Addr.loc (a0.add 1).pos ≠ .loc a0.pos := fun h =>
    Nat.succ_ne_self s.lTop (Addr.loc.inj h)
  refine ⟨a0, s₃, ?_, hext₂.set (a := .loc (a0.add 1).pos) (Nat.le_succ s.lTop) w1,
    (contains_set_self hslot0.1 w0).set_of_ne hne w1, contains_set_self hslot1 w1, rfl⟩
  unfold Refs.plTermvOf
  rw [bind_of_done (newTermRefs_apply 2 s)]
  show (putTerm a0 m0 >>= _) s₁ = _
  rw [bind_of_done hput0, bind_of_done hput1]
  rfl

/-- `PlCompound(f, PlTermv(m0, m1))` -/
theorem pair_made {m0 m1 : TermRef} {w0 w1 : Word Const Text} {t0 t1 : Term}
    (h0 : Contains s.toMemory m0 w0) (hb0 : w0.Bound) (hs0 : Shows reading s.toMemory w0 t0)
    (h1 : Contains s.toMemory m1 w1) (hb1 : w1.Bound) (hs1 : Shows reading s.toMemory w1 t1)
    (f : Text) :
    ∃ r s', (Refs.plTermvOf m0 m1 >>= Refs.plCompound f) s = (done r, s') ∧
      Made s s' r (plCompound f [t0, t1]) [(f, [t0, t1])] := by
  obtain ⟨a0, s₁, hargs, hext, hc0, hc1, hconses⟩ := plTermvOf_link h0.1 h1.1
    (linkVal_bound (h0.deref hb0.ne_ref) h0.get hb0)
    (linkVal_bound (h1.deref hb1.ne_ref) h1.get hb1)
  have hfilled : Filled s₁ a0 [w0, w1] [t0, t1] := by
    refine ⟨slots_pair hc0 hc1, ?_, ?_⟩
    · exact List.forall_mem_cons.mpr ⟨hb0, List.forall_mem_singleton.mpr hb1⟩
    · exact .cons (hs0.mono hext.binds) (.cons (hs1.mono hext.binds) .nil)
  obtain ⟨r, s', hr, hmade⟩ := plCompound_made (v := ⟨a0, 2⟩) hfilled rfl f
  refine ⟨r, s', ?_, hmade.word, hext.trans hmade.keeps, ?_⟩
  · rw [bind_of_done hargs, hr]
  · rw [← hconses]
    exact hmade.built

/-- The tag of an argument is made before or after the argument. -/
theorem named_makes {arg : Refs TermRef} {xs : List (Text × List Term)} (h : Makes arg t xs)
    (atomFirst : Bool) (argname : Text) :
    Makes (Refs.named atomFirst argname arg) (plCompound eqSign [.atom argname, t])
      (xs ++ [(eqSign, [.atom argname, t])]) := by
  intro s
  unfold Refs.named
  cases atomFirst with
  | true =>
    obtain ⟨m0, s₁, h0, hmade0⟩ := plConst_makes (.atom argname) s
    obtain ⟨m1, s₂, h1, hmade1⟩ := h s₁
    obtain ⟨w0, hw0, hb0, hs0⟩ := hmade0.word
    obtain ⟨w1, hw1, hb1, hs1⟩ := hmade1.word
    obtain ⟨r, s', hr, hmade⟩ := pair_made (hmade1.keeps.contains hw0) hb0
      (hs0.mono hmade1.keeps.binds) hw1 hb1 hs1 eqSign
    refine ⟨r, s', ?_, hmade0.after (hmade1.after hmade)⟩
    rw [if_pos rfl, bind_of_done h0, bind_of_done h1, hr]
  | false =>
    obtain ⟨m1, s₁, h1, hmade1⟩ := h s
    obtain ⟨m0, s₂, h0, hmade0⟩ := plConst_makes (.atom argname) s₁
    obtain ⟨w0, hw0, hb0, hs0⟩ := hmade0.word
    obtain ⟨w1, hw1, hb1, hs1⟩ := hmade1.word
    obtain ⟨r, s', hr, hmade⟩ := pair_made hw0 hb0 hs0 (hmade0.keeps.contains hw1) hb1
      (hs1.mono hmade0.keeps.binds) eqSign
    refine ⟨r, s', ?_, hmade1.after (hmade0.after hmade)⟩
    rw [if_neg Bool.false_ne_true, bind_of_done h1, bind_of_done h0, hr]

/-! ## The argument loop -/

/-- The reserved slots of a call: `ws` are filled, `k` are left. -/
structure Reserved (m : Memory Const Text) (s : Store Const Text) (v : Refs.PlTermv)
    (ws : List (Word Const Text)) (ts : List Term) (k : Nat) : Prop where
  keeps : Extends m s.toMemory
  new : m.lTop ≤ v.a0.pos
  slots : Slots s.toMemory v.a0 (ws ++ List.replicate k .unbound)
  bound : ∀ w ∈ ws, w.Bound
  terms : List.Forall₂ (Shows reading s.toMemory) ws ts

variable {m : Memory Const Text} {v : Refs.PlTermv} {ws : List (Word Const Text)}
  {ts : List Term} {k : Nat}

theorem Reserved.filled (h : Reserved m s v ws ts 0) : Filled s v.a0 ws ts := by
  have hslots := h.slots
  rw [List.replicate_zero, List.append_nil] at hslots
  exact ⟨hslots, h.bound, h.terms⟩

theorem reserved_plTermv (s : Store Const Text) (n : Nat) :
    Reserved s.toMemory (s.pushRefs n .unbound) ⟨⟨s.lTop, s.next⟩, n⟩ [] [] n := by
  refine ⟨extends_pushRefs s n _, Nat.le_refl _, fun i w hw => ?_, nofun, .nil⟩
  rw [List.nil_append, List.getElem?_replicate] at hw
  split_ifs at hw with hi
  cases hw
  exact contains_pushRefs s _ hi

theorem getElem?_append_cons_ne {α : Type} {l r : List α} {x y : α} {j : Nat}
    (h : j ≠ l.length) : (l ++ x :: r)[j]? = (l ++ y :: r)[j]? := by
  induction l generalizing j with
  | nil =>
    cases j with
    | zero => exact absurd rfl h
    | succ j => rfl
  | cons z l ih =>
    cases j with
    | zero => rfl
    | succ j => exact ih fun hj => h (congrArg Nat.succ hj)

/-- `v[i] = t` fills the next slot. -/
theorem Reserved.fill (h : Reserved m s v ws ts (k + 1)) (hsize : ws.length < v.size)
    {xs : List (Text × List Term)} {s₁ : Store Const Text} (hmade : Made s s₁ r t xs) :
    ∃ w s', (v.index ws.length >>= fun vi => unify vi r) s₁ = (done true, s') ∧
      s'.conses = s₁.conses ∧ Reserved m s' v (ws ++ [w]) (ts ++ [t]) k := by
  obtain ⟨w, hr, hw, hshows⟩ := hmade.word
  have hslots := hmade.keeps.slots h.slots
  rw [List.replicate_succ] at hslots
  have hslot : Contains s₁.toMemory (v.a0.add ws.length) .unbound :=
    hslots _ _ (by rw [List.getElem?_append_right (Nat.le_refl _), Nat.sub_self]; rfl)
  have hunify : (unify (v.a0.add ws.length) r : Refs Bool) s₁ =
      (done true, s₁.set (.loc (v.a0.add ws.length).pos) w) :=
    unify_unbound hslot.1 (hslot.deref nofun) hslot.get hr hw
  refine ⟨w, s₁.set (.loc (v.a0.add ws.length).pos) w, ?_, Store.set_conses _ _ _, ?_⟩
  · unfold Refs.PlTermv.index
    rw [if_pos hsize]
    exact hunify
  constructor
  · exact (h.keeps.trans hmade.keeps).set (a := .loc (v.a0.add ws.length).pos)
      (Nat.le_add_right_of_le h.new) w
  · exact h.new
  · intro j u hu
    rw [List.append_assoc, List.singleton_append] at hu
    by_cases hj : j = ws.length
    · rw [hj, List.getElem?_append_right (Nat.le_refl _), Nat.sub_self] at hu
      cases hu
      rw [hj]
      exact contains_set_self hslot.1 w
    · rw [getElem?_append_cons_ne (y := .unbound) hj] at hu
      refine (hslots j u hu).set_of_ne (fun hpos => hj ?_) w
      exact (Nat.add_left_cancel (Addr.loc.inj hpos)).symm
  · exact List.forall_mem_append.mpr ⟨h.bound, List.forall_mem_singleton.mpr hw⟩
  · have hset := binds_set_loc s₁ (v.a0.add ws.length).pos w
    have hold := hmade.keeps.binds.trans hset
    exact List.rel_append (h.terms.imp fun _ _ hu => hu.mono hold) (.cons (hshows.mono hset) .nil)

/-! ## Expressions -/

/-- Calls with symbol heads, atomic values of length one, and double and character vectors. -/
inductive Encodable : SEXP → Prop where
  | sym (s : CString) : Encodable (.sym s)
  | real (v : List UInt64) : Encodable (.real v)
  | str (v : List (Option CString)) (names : List CString) : Encodable (.str v names)
  | lgl (b : Option Bool) : Encodable (.lgl [b])
  | int (i : Int32) : Encodable (.int [i])
  | lang (f : CString) (cdr : List (Option CString × SEXP)) :
    (∀ a ∈ cdr, Encodable a.2) → Encodable (.lang (.sym f) cdr)

/-- The value of a conversion that returns. -/
def returned {α : Type} : Cpp α → List α
  | done a => [a]
  | _ => []

mutual

/-- The compounds that `leaf` makes, in order. A call is made twice. -/
def constructions : SEXP → List (Text × List Term)
  | .lang car cdr =>
    let call : Cpp (Text × List Term) := do
      let v ← leafArgs cdr
      let pred ← asSymbol car
      done (pred.text, v)
    argConstructions cdr ++ (returned call ++ returned call)
  | .sym _ | .real _ | .lgl _ | .int _ | .str _ _ | .vec _ _ | .other _ => []
termination_by structural e => e

def argConstructions : List (Option CString × SEXP) → List (Text × List Term)
  | [] => []
  | (none, e) :: cdr => constructions e ++ argConstructions cdr
  | (some argname, e) :: cdr =>
    let named : Cpp (Text × List Term) := do
      let t ← leaf e
      done (eqSign, [.atom argname.text, t])
    (constructions e ++ returned named) ++ argConstructions cdr
termination_by structural cdr => cdr

end

/-- The term for one argument, with its tag. -/
def Refs.leafArg (atomFirst : Bool) : Option CString × SEXP → Refs TermRef
  | (none, e) => Refs.leaf atomFirst e
  | (some argname, e) => Refs.named atomFirst argname.text (Refs.leaf atomFirst e)

theorem refs_leafArgs_cons (atomFirst : Bool) (v : Refs.PlTermv) (i : Nat)
    (a : Option CString × SEXP) (cdr : List (Option CString × SEXP)) :
    Refs.leafArgs atomFirst v i (a :: cdr) = Refs.leafArg atomFirst a >>= fun t =>
      (v.index i >>= fun vi => unify vi t) >>= fun _ =>
        Refs.leafArgs atomFirst v (i + 1) cdr := by
  match a with
  | (none, _) | (some _, _) =>
    rw [Refs.leafArgs]
    simp only [bind_assoc]
    rfl

/-- The compounds of one argument. -/
def argConstruction : Option CString × SEXP → List (Text × List Term)
  | (none, e) => constructions e
  | (some argname, e) =>
    let named : Cpp (Text × List Term) := do
      let t ← leaf e
      done (eqSign, [.atom argname.text, t])
    constructions e ++ returned named

theorem argConstructions_cons (a : Option CString × SEXP) (cdr : List (Option CString × SEXP)) :
    argConstructions (a :: cdr) = argConstruction a ++ argConstructions cdr := by
  match a with
  | (none, _) | (some _, _) => rfl

theorem leafArgs_spec (atomFirst : Bool) {cdr : List (Option CString × SEXP)}
    (hargs : ∀ a ∈ cdr, ∃ t, leafArg a = done t ∧
      Makes (Refs.leafArg atomFirst a) t (argConstruction a)) :
    ∃ us, leafArgs cdr = done us ∧ ∀ {m v s ws ts}, Reserved m s v ws ts cdr.length →
      v.size = ws.length + cdr.length →
      ∃ s' ws', Refs.leafArgs atomFirst v ws.length cdr s = (done (ws.length + cdr.length), s') ∧
        Reserved m s' v ws' (ts ++ us) 0 ∧
        ∃ new, s'.conses = s.conses ++ new ∧ List.Forall₂ Ready new (argConstructions cdr) := by
  induction cdr with
  | nil =>
    refine ⟨[], rfl, fun {m v s ws ts} h _ => ⟨s, ws, rfl, ?_, [], ?_, .nil⟩⟩
    · rw [List.append_nil]
      exact h
    · rw [List.append_nil]
  | cons a cdr ih =>
    obtain ⟨⟨t, ht, hmakes⟩, hcdr⟩ := List.forall_mem_cons.mp hargs
    obtain ⟨us, hus, hloop⟩ := ih hcdr
    refine ⟨t :: us, ?_, fun {m v s ws ts} h hsize => ?_⟩
    · rw [leafArgs_cons, ht, done_bind, hus]
      rfl
    rw [List.length_cons] at h hsize
    obtain ⟨r, s₁, hr, hmade⟩ := hmakes s
    obtain ⟨w, s₂, hfill, hconses, hnext⟩ := h.fill (by omega) hmade
    have hlen : (ws ++ [w]).length = ws.length + 1 := List.length_append
    obtain ⟨s', ws', hrest, hend, new', hnew', hready'⟩ := hloop hnext (by omega)
    obtain ⟨new, hnew, hready⟩ := hmade.built
    rw [hlen] at hrest
    refine ⟨s', ws', ?_, ?_, new ++ new', ?_, ?_⟩
    · rw [refs_leafArgs_cons, bind_of_done hr, bind_of_done hfill, hrest, List.length_cons]
      congr 2
      omega
    · rw [List.append_assoc] at hend
      exact hend
    · rw [hnew', hconses, hnew, List.append_assoc]
    · rw [argConstructions_cons]
      exact List.rel_append hready hready'

theorem leafArg_makes (atomFirst : Bool) {a : Option CString × SEXP}
    (h : ∃ t, leaf a.2 = done t ∧ Makes (Refs.leaf atomFirst a.2) t (constructions a.2)) :
    ∃ t, leafArg a = done t ∧ Makes (Refs.leafArg atomFirst a) t (argConstruction a) := by
  obtain ⟨tag, e⟩ := a
  obtain ⟨t, ht, hmakes⟩ := h
  cases tag with
  | none => exact ⟨t, ht, hmakes⟩
  | some argname =>
    have hterm : leafArg (some argname, e) = done (plCompound eqSign [.atom argname.text, t]) :=
      congrArg (· >>= fun t => done (plCompound eqSign [.atom argname.text, t])) ht
    have hmade : argConstruction (some argname, e) =
        constructions e ++ [(eqSign, [.atom argname.text, t])] :=
      congrArg (fun x : Cpp Term => constructions e ++
        returned (x >>= fun t => done (eqSign, [.atom argname.text, t]))) ht
    refine ⟨_, hterm, ?_⟩
    rw [hmade]
    exact named_makes hmakes atomFirst argname.text

/-- The compound that `leaf_lang` returns, behind its first copy. -/
theorem secondCompound_made {i : Nat} (h : Filled s v.a0 ws ts) (hsize : v.size = ws.length)
    (hi : i = ts.length) (f : Text) :
    ∃ r s', (if 0 < i then Refs.plCompound f v
      else Refs.plTermv 0 >>= fun none => Refs.plCompound f none) s = (done r, s') ∧
      Made s s' r (plCompound f ts) [(f, ts)] := by
  by_cases hpos : 0 < i
  · rw [if_pos hpos]
    exact plCompound_made h hsize f
  · have hts : ts = [] := List.length_eq_zero_iff.mp (by omega)
    obtain ⟨r, s', hr, hmade⟩ := plCompound_made (reserved_plTermv s 0).filled rfl f
    rw [if_neg hpos, hts]
    exact ⟨r, s', hr, hmade.word, (reserved_plTermv s 0).keeps.trans hmade.keeps, hmade.built⟩

/-- `leaf_lang`, if the loop fills the slots. -/
theorem leafLang_makes (atomFirst : Bool) {f : CString} {cdr : List (Option CString × SEXP)}
    (hargs : ∀ a ∈ cdr, ∃ t, leafArg a = done t ∧
      Makes (Refs.leafArg atomFirst a) t (argConstruction a)) :
    ∃ t, leaf (.lang (.sym f) cdr) = done t ∧
      Makes (Refs.leaf atomFirst (.lang (.sym f) cdr)) t (constructions (.lang (.sym f) cdr)) := by
  obtain ⟨us, hus, hloop⟩ := leafArgs_spec atomFirst hargs
  have hterm : leaf (.lang (.sym f) cdr) = done (plCompound f.text us) :=
    congrArg (fun x : Cpp (List Term) => x >>= fun v => done (plCompound f.text v)) hus
  have hmade : constructions (.lang (.sym f) cdr) =
      argConstructions cdr ++ ([(f.text, us)] ++ [(f.text, us)]) :=
    congrArg (fun x : Cpp (List Term) => argConstructions cdr ++
      (returned (x >>= fun v => done (f.text, v)) ++
        returned (x >>= fun v => done (f.text, v)))) hus
  refine ⟨_, hterm, fun s => ?_⟩
  rw [hmade]
  obtain ⟨s₂, ws, hargs, hend, new, hnew, hready⟩ := hloop (reserved_plTermv s cdr.length)
    (Nat.zero_add _).symm
  rw [List.nil_append] at hend
  rw [List.length_nil, Nat.zero_add] at hargs
  have hlen : us.length = cdr.length := leafArgs_length hus
  have hfilled := hend.filled
  have hsize : cdr.length = ws.length := hlen.symm.trans hfilled.terms.length_eq.symm
  obtain ⟨c, s₃, hc, hmadec⟩ := plCompound_made hfilled hsize f.text
  obtain ⟨r, s', hr, hmader⟩ := secondCompound_made (hfilled.mono hmadec.keeps) hsize hlen.symm
    f.text
  have hcall := hmadec.after hmader
  obtain ⟨new', hnew', hready'⟩ := hcall.built
  refine ⟨r, s', ?_, hcall.word, hend.keeps.trans hcall.keeps, new ++ new', ?_, ?_⟩
  · show (Refs.leafArgs atomFirst _ 0 cdr >>= _) _ = _
    rw [bind_of_done hargs]
    exact (bind_of_done hc _).trans hr
  · rw [hnew', hnew, List.append_assoc]
    rfl
  · exact List.rel_append hready hready'

theorem leaf_makes (atomFirst : Bool) {e : SEXP} (he : Encodable e) :
    ∃ t, leaf e = done t ∧ Makes (Refs.leaf atomFirst e) t (constructions e) := by
  induction he with
  | sym s => exact ⟨_, rfl, plConst_makes (.atom s.text)⟩
  | real v => exact ⟨_, rfl, r2plReal_makes v⟩
  | str v _ => exact ⟨_, rfl, r2plString_makes v⟩
  | lgl b =>
    match b with
    | some true => exact ⟨_, rfl, plConst_makes (.atom cTrue.text)⟩
    | some false => exact ⟨_, rfl, plConst_makes (.atom cFalse.text)⟩
    | none => exact ⟨_, rfl, plConst_makes (.int (-1))⟩
  | int i => exact ⟨_, rfl, plConst_makes (.int i.toInt)⟩
  | lang f cdr _ ih => exact leafLang_makes atomFirst fun a ha => leafArg_makes atomFirst (ih a ha)

/-! ## The encoder -/

/-- After `leaf` the reference `r` is live and denotes `t` and nothing else, every older cell is
in use with its word, its number and its meaning, and the arguments of every compound were in
place when it was made. -/
structure Encoded (e : SEXP) (s s' : Store Const Text) (r : TermRef) (t : Term) : Prop where
  live : s'.Live r
  denotes : ∀ u, StandsFor reading s'.get (fun _ => none) (.ref (.loc r.pos)) u ↔ u = t
  keeps : Extends s.toMemory s'.toMemory
  values : ∀ free a u, StandsFor reading s.get free (.ref a) u →
    StandsFor reading s'.get free (.ref a) u
  built : ∃ new, s'.conses = s.conses ++ new ∧ List.Forall₂ Ready new (constructions e)

/-- `leaf` encodes from every store. It never uses a discarded reference, since that would not
return. -/
theorem leaf_encodes (atomFirst : Bool) {e : SEXP} (he : Encodable e) (s : Store Const Text) :
    ∃ t r s', leaf e = done t ∧ Refs.leaf atomFirst e s = (done r, s') ∧ Encoded e s s' r t := by
  obtain ⟨t, ht, hmakes⟩ := leaf_makes atomFirst he
  obtain ⟨r, s', hr, hmade⟩ := hmakes s
  obtain ⟨w, hw, _, hshows⟩ := hmade.word
  have hden : StandsFor reading s'.get (fun _ => none) (.ref (.loc r.pos)) t :=
    .ref hw.get hshows.denotes
  refine ⟨t, r, s', ht, hr, hw.1, fun u => ⟨fun hu => hu.unique hden, fun hu => hu ▸ hden⟩,
    hmade.keeps, fun _ _ _ hu => hmade.keeps.denotes hu, hmade.built⟩

/-- Stacks without cells. -/
def emptyStore : Store Const Text :=
  { global := fun _ => .unbound, gTop := 0, refs := fun _ => .unbound, born := fun _ => 0,
    lTop := 0, next := 0, conses := [] }

/-- `f(a = c(0, 1), g())` -/
def nestedCall : SEXP :=
  .lang (.sym (cstr ['f']))
    [(some (cstr ['a']), .real [0, 1]), (none, .lang (.sym (cstr ['g'])) [])]

theorem leaf_encodes_nested : ∃ t r s', leaf nestedCall = done t ∧
    Refs.leaf true nestedCall emptyStore = (done r, s') ∧
      Encoded nestedCall emptyStore s' r t :=
  leaf_encodes true
    (.lang _ _ (List.forall_mem_cons.mpr
      ⟨.real _, List.forall_mem_singleton.mpr (.lang _ _ (List.forall_mem_nil _))⟩))
    emptyStore

end Rolog
