/-
  The decoders do not disturb the terms they read (`decoders_readOnly`). Their list loops write
  two references that are newer than everything the caller has; the rest of the list is a word
  that does not depend on them (`Walking`). So the loop is undisturbed by the call on the head,
  which leaves every reference of the loop as it was (`Walking.mono`, `tails_round`), and one
  induction on the number of nested calls serves both decoders (`values_of_rounds`).
-/
import Rolog.ConversionSpec

namespace Rolog

open Unwind Unwind.Outcome Unwind.Proc TermRefs

variable {s s' : Store Const Text} {m : Memory Const Text} {r : TermRef} {t : Term}
  {names : Addr → Nat}

/-! ## The order of the type tests -/

/-- What a decoder does with a term of each type. -/
structure Branches where
  integer : Refs SEXP
  number : Refs SEXP
  string : Refs SEXP
  atom : Refs SEXP
  list : Refs SEXP
  compound : Refs SEXP
  other : Refs SEXP

/-- The type tests of both decoders. -/
def Branches.run (k : Branches) (t : TermRef) : Refs SEXP := do
  if ← Refs.isInteger t then k.integer
  else if ← Refs.isNumber t then k.number
  else if ← Refs.isString t then k.string
  else if ← Refs.isAtom t then k.atom
  else if ← isList dot .nil t then k.list
  else if ← Refs.isCompound t then k.compound
  else k.other

/-- The branch for a word. -/
def Branches.branch (k : Branches) : Word Const Text → Refs SEXP
  | .const (.int _) => k.integer
  | .const (.float _) => k.number
  | .const (.str _) => k.string
  | .const (.atom _) => k.atom
  | .const .nil => k.list
  | .struct f n _ => if f = dot ∧ n = 2 then k.list else k.compound
  | .const (.blob _) | .unbound | .ref _ => k.other

theorem Branches.run_of_val (k : Branches) {v : Word Const Text}
    (hv : (valHandle r : Refs (Word Const Text)) s = (done v, s)) :
    k.run r s = k.branch v s := by
  have hlist : (isList dot Const.nil r : Refs Bool) s = (done (v.isList dot .nil), s) :=
    isList_of_val dot .nil hv
  unfold Branches.run Refs.isInteger Refs.isNumber Refs.isString Refs.isAtom Refs.isCompound
  cases v with
  | unbound => simp [test_of_val hv, hlist, Branches.branch, Word.isList]
  | ref a => simp [test_of_val hv, hlist, Branches.branch, Word.isList]
  | const c => cases c <;> simp [test_of_val hv, hlist, Branches.branch, Word.isList]
  | struct f n a =>
    by_cases h : f = dot ∧ n = 2 <;> simp [test_of_val hv, hlist, Branches.branch, Word.isList, h]

theorem rologGet_run (fuel : Nat) (t : TermRef) :
    Refs.rologGet (fuel + 1) t = Branches.run ⟨Refs.pl2rInt t, Refs.leafReal t, Refs.pl2rString t,
      do
        let s ← Refs.operatorWchars t
        pure (atomVector (wideToNative s)),
      do
        let head ← newTermRef
        let list ← copyTermRef t
        let l ← Refs.rologGetTail fuel list head
        pure (.vec l []),
      do
        let f ← Refs.name t
        let l ← Refs.rologGetArgs fuel t 1
        pure (functionList f l),
      pure (.real [])⟩ t := rfl

theorem pl2rLeaf_run (fuel : Nat) (t : TermRef) :
    Refs.pl2rLeaf (fuel + 1) t = Branches.run ⟨Refs.pl2rInt t, Refs.leafReal t, Refs.pl2rString t,
      Refs.leafSymbol t, Refs.pl2rList (Refs.pl2rTail fuel) t,
      Refs.pl2rLang (Refs.pl2rArgs fuel) t, pure Term.leafNa⟩ t := rfl

theorem run_const (k : Branches) {c : Const} (h : RefersTo names s r c.term) :
    k.run r s = k.branch (.const c) s := k.run_of_val (valHandle_const h)

theorem run_var (k : Branches) {n : Nat} (h : RefersTo names s r (.var n)) :
    k.run r s = k.other s := k.run_of_val (valHandle_var h)

theorem run_cell (k : Branches) {f : Text} {ts : List Term}
    (h : RefersTo names s r (.compound f ts)) (hc : IsCell f ts) : k.run r s = k.list s := by
  obtain ⟨a, hv, -⟩ := valHandle_compound h (Extends.refl _)
  exact (k.run_of_val hv).trans (congrFun (if_pos hc) s)

theorem run_compound (k : Branches) {f : Text} {ts : List Term}
    (h : RefersTo names s r (.compound f ts)) (hc : ¬ IsCell f ts) : k.run r s = k.compound s := by
  obtain ⟨a, hv, -⟩ := valHandle_compound h (Extends.refl _)
  exact (k.run_of_val hv).trans (congrFun (if_neg hc) s)

/-! ## The loop over a list -/

/-- Between two rounds of a list loop that began with the cells of `m`: the reference `list` has
a word for the rest `t` of the list, and that word does not depend on the new references. -/
structure Walking (names : Addr → Nat) (m : Memory Const Text) (list e : TermRef) (t : Term)
    (s : Store Const Text) : Prop where
  keeps : Extends m s.toMemory
  word : ∃ w, Contains s.toMemory list w ∧ Linked reading m (naming names) w t
  live : s.Live e
  listNew : m.lTop ≤ list.pos
  elemNew : m.lTop ≤ e.pos
  ne : e.pos ≠ list.pos

variable {list e : TermRef}

/-- What leaves the old cells as they were leaves the loop where it is. -/
theorem Walking.mono (h : Walking names m list e t s) (hs : Extends s.toMemory s'.toMemory) :
    Walking names m list e t s' := by
  obtain ⟨w, hw, hlinked⟩ := h.word
  exact ⟨h.keeps.trans hs, ⟨w, hs.contains hw, hlinked⟩, hs.live h.live, h.listNew, h.elemNew, h.ne⟩

theorem Walking.refers (h : Walking names m list e t s) : RefersTo names s list t := by
  obtain ⟨w, hw, hlinked⟩ := h.word
  exact hw.refers (h.keeps.denotes hlinked.standsFor)

/-- `PL_get_list(list, e, list)` on a list cell. -/
theorem Walking.next {x : Term} (h : Walking names m list e (.cons x t) s) :
    ∃ s', (getList dot list e list : Refs Bool) s = (done true, s') ∧
      Walking names m list e t s' ∧ RefersTo names s' e x := by
  obtain ⟨w, hw, hlinked⟩ := h.word
  have hval : ∃ a v, (valHandle list : Refs (Word Const Text)) s = (done v, s) ∧
      Found reading m (naming names) a v (.cons x t) := hw.valHandle hlinked h.keeps
  obtain ⟨a, v, hv, hfound⟩ := hval
  obtain ⟨b, rfl, hargs⟩ := found_compound hfound
  obtain ⟨w₀, w₁, hget, hl₀, hl₁⟩ := getList_cell hv h.keeps (hargs 0 x rfl) (hargs 1 t rfl) h.live
    hw.1 h.elemNew
  let s₁ := s.set (.loc e.pos) w₀
  let s₂ := s₁.set (.loc list.pos) w₁
  have hkeeps : Extends m s₂.toMemory :=
    (h.keeps.set (a := .loc e.pos) h.elemNew w₀).set (a := .loc list.pos) h.listNew w₁
  have hlive : s₁.Live list := (Store.set_live _ _ _ _).mpr hw.1
  have hne : Addr.loc list.pos ≠ .loc e.pos := fun hpos => h.ne (Addr.loc.inj hpos).symm
  have hhead : Contains s₂.toMemory e w₀ := (contains_set_self h.live w₀).set_of_ne hne w₁
  refine ⟨s₂, hget, ?_, hhead.refers (hkeeps.denotes hl₀.standsFor)⟩
  exact ⟨hkeeps, ⟨w₁, contains_set_self hlive w₁, hl₁⟩, hhead.1, h.listNew, h.elemNew, h.ne⟩

/-- `PL_get_list(list, e, list)` on any other term. -/
theorem Walking.stop (h : Walking names m list e t s) (ht : ∀ x u, t ≠ .cons x u) :
    (getList dot list e list : Refs Bool) s = (done false, s) := by
  obtain ⟨a, v, hv, hfound⟩ := RefersTo.val h.refers
  refine getList_other hv fun b hcell => ?_
  rw [hcell] at hfound
  obtain ⟨ts, hts, rfl⟩ := found_struct hfound
  obtain ⟨x, u, rfl⟩ := List.length_eq_two.mp hts
  exact ht x u rfl

/-- Two new references, the second one with the word of `r`. -/
theorem walking_start (h : RefersTo names s r t) :
    ∃ list e s₁ s', (newTermRef : Refs TermRef) s = (done e, s₁) ∧
      (copyTermRef r : Refs TermRef) s₁ = (done list, s') ∧
      Walking names s.toMemory list e t s' := by
  obtain ⟨w, hw, hlinked⟩ := linkVal_linked h.2
  obtain ⟨e, s₁, hnew, hext, he, helem⟩ := newTermRef_new s
  obtain ⟨list, s', hcopy, hext', hlist, hpos⟩ :=
    copyTermRef_new (hext.live h.1) (hext.linkVal hw)
  have hlt : e.pos < s₁.lTop := he.1.1
  refine ⟨list, e, s₁, s', hnew, hcopy, hext.trans hext', ⟨w, hlist, hlinked⟩, hext'.live he.1,
    ?_, helem, ?_⟩ <;> omega

/-- The same in the other order. -/
theorem walking_copy (h : RefersTo names s r t) :
    ∃ list e s₁ s', (copyTermRef r : Refs TermRef) s = (done list, s₁) ∧
      (newTermRef : Refs TermRef) s₁ = (done e, s') ∧ Walking names s.toMemory list e t s' := by
  obtain ⟨w, hw, hlinked⟩ := linkVal_linked h.2
  obtain ⟨list, s₁, hcopy, hext, hlist, hpos⟩ := copyTermRef_new h.1 hw
  obtain ⟨e, s', hnew, hext', he, helem⟩ := newTermRef_new s₁
  have hlt : list.pos < s₁.lTop := hlist.1.1
  refine ⟨list, e, s₁, s', hcopy, hnew, hext.trans hext', ⟨w, hext'.contains hlist, hlinked⟩,
    he.1, hpos, ?_, ?_⟩ <;> omega

/-! ## Enough fuel -/

mutual

/-- A number of nested calls that is enough to decode the term. -/
def Term.size : Term → Nat
  | .compound _ args => Term.sizeList args + 2
  | .var _ | .int _ | .float _ | .str _ | .atom _ | .nil | .blob _ => 2
termination_by structural t => t

/-- The same for the loop over these arguments. -/
def Term.sizeList : List Term → Nat
  | [] => 1
  | t :: ts => t.size + Term.sizeList ts + 1
termination_by structural ts => ts

end

theorem size_cons (h t : Term) : (Term.cons h t).size = h.size + t.size + 5 := by
  show Term.sizeList [h, t] + 2 = _
  unfold Term.sizeList Term.sizeList Term.sizeList
  omega

theorem two_le_size (t : Term) : 2 ≤ t.size := by
  cases t <;> simp [Term.size]

theorem one_le_sizeList (ts : List Term) : 1 ≤ Term.sizeList ts := by
  cases ts with
  | nil => exact Nat.le_refl 1
  | cons t ts => exact Nat.le_add_left 1 _

theorem size_le_of_getElem? {ts : List Term} {i : Nat} {u : Term} (h : ts[i]? = some u) :
    u.size < Term.sizeList ts := by
  induction ts generalizing i with
  | nil => cases h
  | cons t ts ih =>
    unfold Term.sizeList
    cases i with
    | zero =>
      cases h
      omega
    | succ i =>
      have := ih h
      omega

section

variable {β : Type} {fuel : Nat} {value : TermRef → Refs SEXP} {plain : Term → Cpp SEXP}

/-- With this fuel, `value` decodes every term that is not too large. -/
def Values (names : Addr → Nat) (value : TermRef → Refs SEXP) (plain : Term → Cpp SEXP)
    (fuel : Nat) : Prop :=
  ∀ {s r t}, t.size ≤ fuel → RefersTo names s r t →
    Decodes names s.toMemory (value r) s (plain t)

/-- With this fuel, `loop` decodes the rest of every list. -/
def Tails (names : Addr → Nat) (loop : TermRef → TermRef → Refs (List SEXP))
    (plain : Term → Cpp (List SEXP)) (fuel : Nat) : Prop :=
  ∀ {m list e s t}, t.size ≤ fuel + 1 → Walking names m list e t s →
    Decodes names m (loop list e) s (plain t)

/-- With this fuel, `loop` decodes the arguments of every compound after the first `k`. -/
def Arguments (names : Addr → Nat) (loop : TermRef → Nat → Refs (List β))
    (plain : List Term → Cpp (List β)) (fuel : Nat) : Prop :=
  ∀ {s r f ts k}, Term.sizeList (ts.drop k) ≤ fuel → RefersTo names s r (.compound f ts) →
    Decodes names s.toMemory (loop r (k + 1)) s (plain (ts.drop k))

/-- One round of a list loop. What the call on the head leaves behind does not disturb the
references of the loop. -/
theorem tails_round {next : TermRef → TermRef → Refs Bool}
    {loop loop' : TermRef → TermRef → Refs (List SEXP)} {plainTail : Term → Cpp (List SEXP)}
    (hloop : ∀ list e, loop' list e = (do
      if ← next list e then
        let x ← value e
        let l ← loop list e
        pure (x :: l)
      else pure []))
    (hplain : ∀ x u, plainTail (.cons x u) = (do
      let y ← plain x
      let l ← plainTail u
      done (y :: l)))
    (hnext : ∀ {m list e s x u}, Walking names m list e (.cons x u) s →
      ∃ s', next list e s = (done true, s') ∧ Walking names m list e u s' ∧ RefersTo names s' e x)
    (hend : ∀ {m list e s t}, (∀ x u, t ≠ .cons x u) → Walking names m list e t s →
      Decodes names m (loop' list e) s (plainTail t))
    (hvalue : Values names value plain fuel) (htail : Tails names loop plainTail fuel) :
    Tails names loop' plainTail (fuel + 1) := by
  intro m list e s t hsize h
  by_cases hcons : ∃ x u, t = .cons x u
  · obtain ⟨x, u, rfl⟩ := hcons
    obtain ⟨s₁, hs₁, hwalk, hx⟩ := hnext h
    rw [size_cons] at hsize
    have hhead := hvalue (by omega) hx
    rw [hloop, hplain]
    refine .step hs₁ (hhead.bind (fun _ hs => hwalk.keeps.trans hs) fun y s₂ hs₂ => ?_)
    exact (htail (by omega) (hwalk.mono hs₂)).bind_pure
  · exact hend (fun x u hxu => hcons ⟨x, u, hxu⟩) h

/-- One round of a loop over arguments. -/
theorem arguments_round {round : TermRef → Nat → Refs β}
    {loop loop' : TermRef → Nat → Refs (List β)} {plainArg : Term → Cpp β}
    {plainArgs : List Term → Cpp (List β)}
    (hloop : ∀ r i, loop' r i = (do
      let n ← Refs.arity r
      if i ≤ n then
        let a ← round r i
        let l ← loop r (i + 1)
        pure (a :: l)
      else pure []))
    (hnil : plainArgs [] = done [])
    (hcons : ∀ u us, plainArgs (u :: us) = (do
      let a ← plainArg u
      let l ← plainArgs us
      done (a :: l)))
    (hround : ∀ {s r f ts k u}, RefersTo names s r (.compound f ts) → ts[k]? = some u →
      u.size ≤ fuel → Decodes names s.toMemory (round r (k + 1)) s (plainArg u))
    (hargs : Arguments names loop plainArgs fuel) :
    Arguments names loop' plainArgs (fuel + 1) := by
  intro s r f ts k hsize h
  rw [hloop]
  refine .step (arity_compound h) ?_
  by_cases hk : k < ts.length
  · have hi : ts[k]? = some ts[k] := List.getElem?_eq_getElem hk
    rw [List.drop_eq_getElem_cons hk] at hsize ⊢
    rw [if_pos (Nat.succ_le_of_lt hk), hcons]
    unfold Term.sizeList at hsize
    have harg := hround h hi (by omega)
    refine harg.bind (fun _ hs => hs) fun a s' hs' => ?_
    have hrest := hargs (k := k + 1) (by omega) (h.mono hs')
    exact (hrest.mono fun _ hs => hs'.trans hs).bind_pure
  · rw [List.drop_eq_nil_of_le (by omega), if_neg (by omega), hnil]
    exact simulates_of_done rfl (Extends.refl _)

/-- A decoder with its two loops, by induction on the number of nested calls. -/
theorem values_of_rounds {value : Nat → TermRef → Refs SEXP}
    {tail : Nat → TermRef → TermRef → Refs (List SEXP)}
    {args : Nat → TermRef → Nat → Refs (List β)} {plainTail : Term → Cpp (List SEXP)}
    {plainArgs : List Term → Cpp (List β)}
    (hvalue : ∀ {fuel}, Tails names (tail fuel) plainTail fuel →
      Arguments names (args fuel) plainArgs fuel → Values names (value (fuel + 1)) plain (fuel + 1))
    (htail : ∀ {fuel}, Values names (value fuel) plain fuel →
      Tails names (tail fuel) plainTail fuel → Tails names (tail (fuel + 1)) plainTail (fuel + 1))
    (hargs : ∀ {fuel}, Values names (value fuel) plain fuel →
      Arguments names (args fuel) plainArgs fuel →
      Arguments names (args (fuel + 1)) plainArgs (fuel + 1)) (fuel : Nat) :
    Values names (value fuel) plain fuel := by
  have hall : Values names (value fuel) plain fuel ∧ Tails names (tail fuel) plainTail fuel ∧
      Arguments names (args fuel) plainArgs fuel := by
    induction fuel with
    | zero =>
      refine ⟨fun {s r t} hsize _ => ?_, fun {m list e s t} hsize _ => ?_,
        fun {s r f ts k} hsize _ => ?_⟩
      · have := two_le_size t
        omega
      · have := two_le_size t
        omega
      · have := one_le_sizeList (ts.drop k)
        omega
    | succ fuel ih =>
      obtain ⟨hv, ht, ha⟩ := ih
      exact ⟨hvalue ht ha, htail hv ht, hargs hv ha⟩
  exact fun {_ _ _} hsize h => hall.1 hsize h

end

/-! ## `rolog_get` -/

theorem rologGetTail_of_ne (ht : ∀ x u, t ≠ .cons x u) : rologGetTail t = done [] := by
  cases t with
  | compound f ts =>
    refine rologGetTail_compound fun hc => ?_
    obtain ⟨rfl, hlen⟩ := hc
    obtain ⟨x, u, rfl⟩ := List.length_eq_two.mp hlen
    exact ht x u rfl
  | var | int | float | str | atom | nil | blob => rfl

/-- Both kinds of lists are what the loop finds in them. -/
theorem rologGet_list (x u : Term) :
    rologGet (.cons x u) = rologGetTail (.cons x u) >>= fun l => done (.vec l []) := by
  rw [rologGet_cons, rologGetTail_cons, bind_assoc]
  simp only [bind_assoc, done_bind]

/-- The list branch of `rolog_get`. -/
theorem rologGetList_decodes {fuel : Nat}
    (htail : ∀ {m list e s}, Walking names m list e t s →
      Decodes names m (Refs.rologGetTail fuel list e) s (rologGetTail t))
    (h : RefersTo names s r t) :
    Decodes names s.toMemory (do
      let head ← newTermRef
      let list ← copyTermRef r
      let l ← Refs.rologGetTail fuel list head
      pure (SEXP.vec l [])) s (rologGetTail t >>= fun l => done (.vec l [])) := by
  obtain ⟨list, e, s₁, s₂, hnew, hcopy, hwalk⟩ := walking_start h
  exact .step hnew (.step hcopy (htail hwalk).bind_pure)

/-- One call of `rolog_get`. -/
theorem rologGet_round {fuel : Nat} (htail : Tails names (Refs.rologGetTail fuel) rologGetTail fuel)
    (hargs : Arguments names (Refs.rologGetArgs fuel) rologGetArgs fuel) :
    Values names (Refs.rologGet (fuel + 1)) rologGet (fuel + 1) := by
  intro s r t hsize h
  have hlist := rologGetList_decodes (htail hsize) h
  rw [rologGet_run]
  cases t with
  | int i => exact .of_eq (run_const _ (c := .int i) h) (pl2rInt_decodes h)
  | float b =>
    exact .of_eq (run_const _ (c := .float b) h)
      (.step (operatorDouble_float h) (simulates_of_done rfl (Extends.refl _)))
  | str a =>
    exact .of_eq (run_const _ (c := .str a) h)
      (.step (operatorWchars_str h) (simulates_of_done rfl (Extends.refl _)))
  | atom a =>
    exact .of_eq (run_const _ (c := .atom a) h)
      (.step (operatorWchars_atom h) (simulates_of_done rfl (Extends.refl _)))
  | nil => exact .of_eq (run_const _ (c := .nil) h) hlist
  | blob n =>
    exact .of_eq (run_const _ (c := .blob n) h) (simulates_of_done rfl (Extends.refl _))
  | var n => exact .of_eq (run_var _ h) (simulates_of_done rfl (Extends.refl _))
  | compound f ts =>
    by_cases hc : IsCell f ts
    · have hcell : ∀ k : Branches, k.run r s = k.list s := fun k => run_cell k h hc
      obtain ⟨rfl, hlen⟩ := hc
      obtain ⟨x, u, rfl⟩ := List.length_eq_two.mp hlen
      rw [show rologGet (.compound dot [x, u]) = _ from rologGet_list x u]
      exact .of_eq (hcell _) hlist
    · have hle : Term.sizeList ts ≤ fuel := by
        unfold Term.size at hsize
        omega
      rw [rologGet_compound hc]
      exact .of_eq (run_compound _ h hc) (.step (name_compound h) (hargs (k := 0) hle h).bind_pure)

/-- The loop of `rolog_get` over the arguments, by rounds. -/
theorem rologGetArgs_succ (fuel : Nat) (r : TermRef) (i : Nat) :
    Refs.rologGetArgs (fuel + 1) r i = (do
      let n ← Refs.arity r
      if i ≤ n then
        let x ← Refs.index r i >>= Refs.rologGet fuel
        let l ← Refs.rologGetArgs fuel r (i + 1)
        pure (x :: l)
      else pure []) := by
  simp only [bind_assoc]
  rfl

theorem rologGet_values (names : Addr → Nat) (fuel : Nat) :
    Values names (Refs.rologGet fuel) rologGet fuel := by
  refine values_of_rounds rologGet_round (fun {fuel} hv ht => ?_) (fun {fuel} hv ha => ?_) fuel
  · refine tails_round (fun _ _ => rfl) rologGetTail_cons Walking.next (fun hne h => ?_) hv ht
    rw [rologGetTail_of_ne hne]
    exact .step (h.stop hne) (simulates_of_done rfl h.keeps)
  · refine arguments_round (rologGetArgs_succ fuel) (show rologGetArgs [] = done [] from rfl)
      (fun _ _ => rfl) (fun h hi hsize => ?_) ha
    obtain ⟨a, s₁, hindex, hext, ha⟩ := index_compound h hi
    exact .step hindex ((hv hsize ha).mono fun _ hs => hext.trans hs)

/-! ## `pl2r_leaf` -/

theorem isCompound_compound {f : Text} {ts : List Term} (h : RefersTo names s r (.compound f ts)) :
    Refs.isCompound r s = (done true, s) := by
  obtain ⟨a, hv, -⟩ := valHandle_compound h (Extends.refl _)
  exact test_of_val hv

theorem isCompound_other (h : RefersTo names s r t) (ht : ∀ f ts, t ≠ .compound f ts) :
    Refs.isCompound r s = (done false, s) := by
  obtain ⟨a, v, hv, hfound⟩ := RefersTo.val h
  cases v with
  | struct f n b =>
    obtain ⟨ts, _, rfl⟩ := found_struct hfound
    exact absurd rfl (ht f ts)
  | unbound | ref _ | const _ => exact test_of_val hv

theorem getNil_other (h : RefersTo names s r t) (ht : t ≠ .nil) :
    Refs.getNil r s = (done false, s) := by
  obtain ⟨a, v, hv, hfound⟩ := RefersTo.val h
  cases v with
  | const c =>
    cases c with
    | nil => exact absurd (found_eq_const hfound) ht
    | int | float | str | atom | blob => exact test_of_val hv
  | unbound | ref _ | struct _ _ _ => exact test_of_val hv

theorem isNamed_compound (f : Text) (ts : List Term) :
    (Term.compound f ts).isNamed = decide (plAtomChars f = cstr eqSign ∧ ts.length = 2) := by
  match ts with
  | [] | [_] | [_, _] | _ :: _ :: _ :: _ => simp [Term.isNamed]

/-- The test for a named argument. -/
theorem isNamed_compound_arg {f : Text} {ts : List Term} {k : Nat} {u : Term}
    (h : RefersTo names s r (.compound f ts)) (hi : ts[k]? = some u) :
    ∃ s', Refs.isNamed r (k + 1) s = (done u.isNamed, s') ∧ Extends s.toMemory s'.toMemory := by
  obtain ⟨a₁, s₁, hindex₁, hext₁, ha₁⟩ := index_compound h hi
  unfold Refs.isNamed
  rw [bind_of_done hindex₁]
  by_cases hu : ∃ g us, u = .compound g us
  · obtain ⟨g, us, rfl⟩ := hu
    obtain ⟨a₂, s₂, hindex₂, hext₂, ha₂⟩ := index_compound (h.mono hext₁) hi
    rw [bind_of_done (isCompound_compound ha₁), if_pos rfl, bind_of_done hindex₂,
      bind_of_done (name_compound ha₂), isNamed_compound]
    by_cases hg : plAtomChars g = cstr eqSign
    · obtain ⟨a₃, s₃, hindex₃, hext₃, ha₃⟩ := index_compound (h.mono (hext₁.trans hext₂)) hi
      refine ⟨s₃, ?_, (hext₁.trans hext₂).trans hext₃⟩
      rw [if_pos hg, bind_of_done hindex₃, bind_of_done (arity_compound ha₃)]
      simp [hg]
    · refine ⟨s₂, ?_, hext₁.trans hext₂⟩
      rw [if_neg hg]
      simp [hg]
  · have hne : ∀ g us, u ≠ .compound g us := fun g us hgu => hu ⟨g, us, hgu⟩
    have hnamed : u.isNamed = false := by
      cases hb : u.isNamed with
      | false => rfl
      | true =>
        obtain ⟨g, x, y, hg, -⟩ := Term.isNamed_iff.mp hb
        exact absurd hg (hne g [x, y])
    refine ⟨s₁, ?_, hext₁⟩
    rw [bind_of_done (isCompound_other ha₁ hne), if_neg Bool.false_ne_true, hnamed]
    rfl

/-- One round of `pl2r_lang`. -/
theorem pl2rArg_decodes {fuel : Nat} (hvalue : Values names (Refs.pl2rLeaf fuel) pl2rLeaf fuel)
    {f : Text} {ts : List Term} {k : Nat} {u : Term} (h : RefersTo names s r (.compound f ts))
    (hi : ts[k]? = some u) (hsize : u.size ≤ fuel) :
    Decodes names s.toMemory (Refs.pl2rArg (Refs.pl2rLeaf fuel) r (k + 1)) s (pl2rArg u) := by
  obtain ⟨s₁, hnamed, hext₁⟩ := isNamed_compound_arg h hi
  obtain ⟨a, s₂, hindex, hext₂, ha⟩ := index_compound (h.mono hext₁) hi
  have hext := hext₁.trans hext₂
  refine .step hnamed ?_
  cases hu : u.isNamed with
  | false =>
    rw [pl2rArg_unnamed hu, if_neg Bool.false_ne_true]
    exact .step hindex ((hvalue hsize ha).mono fun _ hs => hext.trans hs).bind_pure
  | true =>
    obtain ⟨g, x, y, rfl, hg⟩ := Term.isNamed_iff.mp hu
    obtain ⟨b, s₃, hindex₂, hext₃, hb⟩ := index_compound (i := 1) ha rfl
    have hy : y.size ≤ fuel := by
      have hlt : y.size < Term.sizeList [x, y] := size_le_of_getElem? (i := 1) rfl
      unfold Term.size at hsize
      omega
    rw [pl2rArg_named hg, if_pos rfl]
    refine .step hindex (.step hindex₂ ((hvalue hy hb).bind
      (fun _ hs => (hext.trans hext₃).trans hs) fun z s₄ hs₄ => ?_))
    have hext₄ := hext₃.trans hs₄
    obtain ⟨c, s₅, hindex₁, hext₅, hc⟩ := index_compound (i := 0) (ha.mono hext₄) rfl
    have hkeeps := hext.trans (hext₄.trans hext₅)
    refine .step hindex₁ ((name_decodes hc).bind (fun _ hs => hkeeps.trans hs) fun d s₆ hs₆ => ?_)
    exact (decodes_install (hkeeps.trans hs₆) d).bind_pure

/-- `PlTail::next` on a list cell. -/
theorem next_cons {x : Term} (h : Walking names m list e (.cons x t) s) :
    ∃ s', Refs.next list e s = (done true, s') ∧ Walking names m list e t s' ∧
      RefersTo names s' e x := by
  obtain ⟨s', hget, hwalk, hx⟩ := h.next
  refine ⟨s', ?_, hwalk, hx⟩
  unfold Refs.next
  rw [bind_of_done hget]
  rfl

/-- `PlTail::next` at the end of a list. -/
theorem next_nil (h : Walking names m list e .nil s) :
    Refs.next list e s = (done false, s) := by
  have hnil : Refs.getNil list s = (done true, s) :=
    test_of_val (valHandle_const (c := .nil) h.refers)
  unfold Refs.next
  rw [bind_of_done (h.stop nofun), if_neg Bool.false_ne_true, bind_of_done hnil]
  rfl

/-- `PlTail::next` refuses any other term. -/
theorem next_other (h : Walking names m list e t s) (ht : ∀ x u, t ≠ .cons x u) (hnil : t ≠ .nil) :
    Decodes names m (Refs.next list e) s (thrown (.typeError "list" t)) := by
  refine .of_eq ?_ (decodes_typeError h.keeps h.refers "list")
  unfold Refs.next
  rw [bind_of_done (h.stop ht), if_neg Bool.false_ne_true,
    bind_of_done (getNil_other h.refers hnil), if_neg Bool.false_ne_true]

theorem pl2rTail_of_ne (ht : ∀ x u, t ≠ .cons x u) (hnil : t ≠ .nil) :
    pl2rTail t = thrown (.typeError "list" t) := by
  cases t with
  | compound f ts =>
    refine pl2rTail_compound fun hc => ?_
    obtain ⟨rfl, hlen⟩ := hc
    obtain ⟨x, u, rfl⟩ := List.length_eq_two.mp hlen
    exact ht x u rfl
  | nil => exact absurd rfl hnil
  | var | int | float | str | atom | blob => rfl

/-- `PlTail(t)` of a list is a copy of the reference, above the one of the base class. -/
theorem plTail_list {s₁ : Store Const Text} {base : TermRef} {v : Word Const Text}
    (hbase : Refs.plTerm s = (done base, s₁))
    (hv : (valHandle r : Refs (Word Const Text)) s₁ = (done v, s₁))
    (hl : v.isList dot .nil = true) :
    Refs.plTail r s = (copyTermRef r : Refs TermRef) s₁ := by
  have hvar : v.isUnbound = false := by
    cases v with
    | unbound => cases hl
    | ref _ | const _ | struct _ _ _ => rfl
  unfold Refs.plTail
  rw [bind_of_done hbase, bind_of_done (isVariable_of_val hv), hvar, if_neg Bool.false_ne_true,
    bind_of_done (isList_of_val dot .nil hv), if_pos hl]

/-- `pl2r_list` -/
theorem pl2rList_decodes {fuel : Nat}
    (htail : ∀ {m list e s}, Walking names m list e t s →
      Decodes names m (Refs.pl2rTail fuel list e) s (pl2rTail t))
    (h : RefersTo names s r t)
    (hlist : ∀ {s' : Store Const Text}, RefersTo names s' r t →
      ∃ v, (valHandle r : Refs (Word Const Text)) s' = (done v, s') ∧ v.isList dot .nil = true) :
    Decodes names s.toMemory (Refs.pl2rList (Refs.pl2rTail fuel) r) s
      (pl2rTail t >>= fun l => done (.vec l [])) := by
  obtain ⟨base, s₁, hbase, hext, -, -⟩ := newTermRef_new s
  obtain ⟨v, hv, hl⟩ := hlist (h.mono hext)
  obtain ⟨list, e, s₂, s₃, hcopy, hnew, hwalk⟩ := walking_copy (h.mono hext)
  refine .step ((plTail_list hbase hv hl).trans hcopy) (.step hnew ?_)
  exact (htail hwalk).bind_pure.mono fun _ hs => hext.trans hs

theorem pl2rLeaf_list (x u : Term) :
    pl2rLeaf (.cons x u) = pl2rTail (.cons x u) >>= fun l => done (.vec l []) := by
  rw [pl2rLeaf_cons, pl2rTail_cons, bind_assoc]
  simp only [bind_assoc, done_bind]

/-- `pl2r_lang` -/
theorem pl2rLang_decodes {fuel : Nat} {f : Text} {ts : List Term}
    (hargs : ∀ {s}, RefersTo names s r (.compound f ts) →
      Decodes names s.toMemory (Refs.pl2rArgs fuel r 1) s (pl2rArgs ts))
    (h : RefersTo names s r (.compound f ts)) :
    Decodes names s.toMemory (Refs.pl2rLang (Refs.pl2rArgs fuel) r) s
      (pl2rLang f (pl2rArgs ts)) := by
  have hpred : Decodes names s.toMemory (Refs.ofCpp (install (plAtomChars f))) s
      (install (plAtomChars f)) := decodes_install (Extends.refl _) _
  exact .step (name_compound h) (hpred.bind (fun _ hs => hs) fun pred s' hs' =>
    ((hargs (h.mono hs')).mono fun _ hs => hs'.trans hs).bind_pure)

/-- One call of `pl2r_leaf`. -/
theorem pl2rLeaf_round {fuel : Nat} (htail : Tails names (Refs.pl2rTail fuel) pl2rTail fuel)
    (hargs : Arguments names (Refs.pl2rArgs fuel) pl2rArgs fuel) :
    Values names (Refs.pl2rLeaf (fuel + 1)) pl2rLeaf (fuel + 1) := by
  intro s r t hsize h
  rw [pl2rLeaf_run]
  cases t with
  | int i => exact .of_eq (run_const _ (c := .int i) h) (pl2rInt_decodes h)
  | float b =>
    exact .of_eq (run_const _ (c := .float b) h)
      (.step (operatorDouble_float h) (simulates_of_done rfl (Extends.refl _)))
  | str a =>
    exact .of_eq (run_const _ (c := .str a) h)
      (.step (operatorWchars_str h) (simulates_of_done rfl (Extends.refl _)))
  | atom a => exact .of_eq (run_const _ (c := .atom a) h) (leafSymbol_decodes h)
  | nil =>
    exact .of_eq (run_const _ (c := .nil) h)
      (pl2rList_decodes (htail hsize) h fun h => ⟨_, valHandle_const (c := .nil) h, rfl⟩)
  | blob n =>
    exact .of_eq (run_const _ (c := .blob n) h) (simulates_of_done rfl (Extends.refl _))
  | var n => exact .of_eq (run_var _ h) (simulates_of_done rfl (Extends.refl _))
  | compound f ts =>
    by_cases hc : IsCell f ts
    · have hcell : ∀ k : Branches, k.run r s = k.list s := fun k => run_cell k h hc
      have hlist := pl2rList_decodes (htail hsize) h fun h => by
        obtain ⟨a, hv, -⟩ := valHandle_compound h (Extends.refl _)
        exact ⟨_, hv, decide_eq_true hc⟩
      obtain ⟨rfl, hlen⟩ := hc
      obtain ⟨x, u, rfl⟩ := List.length_eq_two.mp hlen
      rw [show pl2rLeaf (.compound dot [x, u]) = _ from pl2rLeaf_list x u]
      exact .of_eq (hcell _) hlist
    · have hle : Term.sizeList ts ≤ fuel := by
        unfold Term.size at hsize
        omega
      rw [pl2rLeaf_compound hc]
      exact .of_eq (run_compound _ h hc) (pl2rLang_decodes (hargs (k := 0) hle) h)

theorem pl2rLeaf_values (names : Addr → Nat) (fuel : Nat) :
    Values names (Refs.pl2rLeaf fuel) pl2rLeaf fuel := by
  refine values_of_rounds pl2rLeaf_round (fun {fuel} hv ht => ?_) (fun {fuel} hv ha => ?_) fuel
  · refine tails_round (fun _ _ => rfl) pl2rTail_cons next_cons (fun {_ _ _ _ t} hne h => ?_) hv ht
    by_cases hnil : t = .nil
    · rw [hnil] at h ⊢
      exact .step (next_nil h) (simulates_of_done rfl h.keeps)
    · rw [pl2rTail_of_ne hne hnil]
      exact (next_other h hne hnil).bind_thrown _
  · exact arguments_round (fun _ _ => rfl) (show pl2rArgs [] = done [] from rfl) pl2rArgs_cons
      (fun h hi hsize => pl2rArg_decodes hv h hi hsize) ha

/-! ## Decoding leaves the answer as it is -/

/-- The call on `r` ends as `x`, and so does another call after it. Every cell in use before holds
its word, and every reference to a term refers to this term still, and to no other one. -/
structure ReadsOnly (names : Addr → Nat) (decode : TermRef → Refs SEXP) (s : Store Const Text)
    (r : TermRef) (x : Cpp SEXP) : Prop where
  ends : (decode r s).1.Agrees (SameThrown names (decode r s).2) x
  keeps : Extends s.toMemory (decode r s).2.toMemory
  refers : ∀ free q u, Refers reading s.toMemory free q u →
    ∀ u', Refers reading (decode r s).2.toMemory free q u' ↔ u' = u
  again : (decode r (decode r s).2).1.Agrees
    (SameThrown names (decode r (decode r s).2).2) x

theorem readsOnly_of_values {value : TermRef → Refs SEXP} {plain : Term → Cpp SEXP} {fuel : Nat}
    (hvalue : Values names value plain fuel) (hfuel : t.size ≤ fuel) (h : RefersTo names s r t) :
    ReadsOnly names value s r (plain t) := by
  have hfirst := hvalue hfuel h
  have hkeeps : Extends s.toMemory (value r s).2.toMemory := hfirst.keeps
  refine ⟨hfirst.ends, hkeeps, fun free q u hu u' => ?_, (hvalue hfuel (h.mono hkeeps)).ends⟩
  have hafter := hu.mono hkeeps
  constructor
  · intro hu'
    exact hu'.2.unique hafter.2
  · intro he
    rw [he]
    exact hafter

/-- With enough fuel, both decoders read every term as the plain recursions do, and only read. -/
theorem decoders_readOnly (names : Addr → Nat) {s : Store Const Text} {r : TermRef} {t : Term}
    (h : RefersTo names s r t) {fuel : Nat} (hfuel : t.size ≤ fuel) :
    ReadsOnly names (Refs.rologGet fuel) s r (rologGet t) ∧
      ReadsOnly names (Refs.pl2rLeaf fuel) s r (pl2rLeaf t) :=
  ⟨readsOnly_of_values (rologGet_values names fuel) hfuel h,
    readsOnly_of_values (pl2rLeaf_values names fuel) hfuel h⟩

theorem standsFor_cell {look : Addr → Option (Word Const Text)} {free : Addr → Option Term}
    {a : Nat} {x u : Term} (hx : StandsFor reading look free (.ref (.global a)) x)
    (hu : StandsFor reading look free (.ref (.global (a + 1))) u) :
    StandsFor reading look free (.struct dot 2 a) (.cons x u) := by
  refine StandsFor.struct (R := reading) (List.length_eq_two.mpr ⟨x, u, rfl⟩) fun i t ht => ?_
  match i, ht with
  | 0, rfl => exact hx
  | 1, rfl => exact hu

/-- One reference, to the list `[[1]|X]`. -/
def partialAnswer : Store Const Text :=
  { global := fun a => match a with
      | 0 => .struct dot 2 2
      | 2 => .const (.int 1)
      | 3 => .const .nil
      | _ => .unbound
    gTop := 4, refs := fun _ => .struct dot 2 0, born := fun _ => 0, lTop := 1, next := 1,
    conses := [] }

theorem partialAnswer_refers :
    RefersTo (fun _ => 7) partialAnswer ⟨0, 0⟩ (.cons (.cons (.int 1) .nil) (.var 7)) := by
  have hone : StandsFor reading partialAnswer.get (naming fun _ => 7) (.const (.int 1)) (.int 1) :=
    .const (R := reading) (.int 1)
  have hnil : StandsFor reading partialAnswer.get (naming fun _ => 7) (.const .nil) .nil :=
    .const (R := reading) .nil
  refine ⟨by decide, .ref rfl (standsFor_cell (.ref rfl ?_) (.free rfl rfl))⟩
  exact standsFor_cell (.ref rfl hone) (.ref rfl hnil)

theorem decoders_readOnly_partialAnswer :
    ReadsOnly (fun _ => 7) (Refs.rologGet 16) partialAnswer ⟨0, 0⟩
        (done (.vec [.vec [.int [1]] []] [])) ∧
      ReadsOnly (fun _ => 7) (Refs.pl2rLeaf 16) partialAnswer ⟨0, 0⟩
        (thrown (.typeError "list" (.var 7))) :=
  decoders_readOnly (fun _ => 7) partialAnswer_refers (Nat.le_refl 16)

end Rolog
