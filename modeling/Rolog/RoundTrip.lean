/-
  The two round trips. An R call goes to Prolog and comes back identical (`pl2rLeaf_leaf`); a
  list-free Prolog answer goes to R and comes back identical (`leaf_pl2rLeaf`).

  Tags are the one place where the translations are not inverse case by case: `leaf` writes a
  tag as an argument `=(tag, x)`, and `pl2r_leaf` reads every argument `=(u, r)` as a tag. So
  each proof carries a second fact, about the term as an argument of a call.
-/
import Rolog.Decode

namespace Rolog

open Unwind.Outcome

/-! ## Integers and names -/

theorem pl2rInt_toInt (i : Int32) : pl2rInt i.toInt = done (.int [i]) := by
  have hlo := i.le_toInt
  have hhi := i.toInt_lt
  unfold pl2rInt
  rw [if_pos ⟨by omega, by omega⟩, Int32.ofInt_toInt]

theorem leafInt_ofInt {i : Int} (h : -2147483648 ≤ i ∧ i < 2147483648) :
    leafInt [.ofInt i] = done (.int i) := by
  rw [leafInt, Int32.toInt_ofInt_of_le (by omega) (by omega)]

theorem termLeafSymbol_text {s : CString} (h : s ≠ cEmpty) :
    Term.leafSymbol s.text = done (symbolOrLogical s) := by
  simp [Term.leafSymbol, atomChars, install_of_ne h]

theorem named_atom {s : CString} (h : s ≠ cEmpty) (x : SEXP) :
    named (.atom s.text) x = done (some s, x) := by
  simp [named, Term.name, install_of_ne h]

theorem text_eq_iff {s : CString} {f : Text} (h : (cstr f).text = f) :
    s.text = f ↔ s = cstr f :=
  ⟨fun e => text_injective (e.trans h.symm), fun e => e ▸ h⟩

/-! ## R to Prolog and back -/

/-- A call to `=` with two arguments. -/
def SEXP.IsEqCall (e : SEXP) : Prop := ∃ a b, e = .lang (.sym (cstr eqSign)) [a, b]

/-- The smallest 32-bit integer is R's `NA`. -/
def naInt : Int32 := .ofInt (-2147483648)

/-- R expressions of scalars, symbols and calls with at least one argument, all text ASCII. No
untagged argument is a two-argument call to `=`. -/
inductive IsCall : SEXP → Prop where
  | real (x : UInt64) : IsCall (.real [x])
  | int (i : Int32) : i ≠ naInt → IsCall (.int [i])
  | lgl (b : Bool) : IsCall (.lgl [some b])
  | str (s : CString) : s.IsAscii → IsCall (.str [some s] [])
  | sym (s : CString) : s.IsAscii → s ≠ cEmpty → s ≠ cTrue → s ≠ cFalse → IsCall (.sym s)
  | lang (f : CString) (args : List (Option CString × SEXP)) :
    f.IsAscii → f ≠ cEmpty → args ≠ [] → ¬ (f = cstr dot ∧ args.length = 2) →
    (∀ a ∈ args, ∀ tag, a.1 = some tag → tag.IsAscii ∧ tag ≠ cEmpty) →
    (∀ a ∈ args, a.1 = none → ¬ a.2.IsEqCall) →
    (∀ a ∈ args, IsCall a.2) → IsCall (.lang (.sym f) args)

/-- If every argument survives, the argument list does. -/
theorem pl2rArgs_leafArgs {args : List (Option CString × SEXP)}
    (h : ∀ a ∈ args, ∃ t, leafArg a = done t ∧ pl2rArg t = done a) :
    ∃ v, leafArgs args = done v ∧ pl2rArgs v = done args := by
  induction args with
  | nil => exact ⟨[], rfl, rfl⟩
  | cons a args ih =>
    obtain ⟨t, ht, hback⟩ := h a List.mem_cons_self
    obtain ⟨v, hv, hargs⟩ := ih fun b hb => h b (List.mem_cons_of_mem a hb)
    refine ⟨t :: v, ?_, ?_⟩
    · rw [leafArgs_cons, ht, hv]
      rfl
    · rw [pl2rArgs_cons, hback, hargs]
      rfl

theorem leafArg_survives {a : Option CString × SEXP} {t : Term} (ht : leaf a.2 = done t)
    (hback : pl2rLeaf t = done a.2) (hnamed : t.isNamed → a.2.IsEqCall)
    (htag : ∀ tag, a.1 = some tag → tag.IsAscii ∧ tag ≠ cEmpty)
    (hplain : a.1 = none → ¬ a.2.IsEqCall) :
    ∃ u, leafArg a = done u ∧ pl2rArg u = done a := by
  match a with
  | (none, e) =>
    have hn : t.isNamed = false := by
      by_contra hn
      exact hplain rfl (hnamed (by simpa using hn))
    refine ⟨t, ht, ?_⟩
    rw [pl2rArg_unnamed hn, hback]
    rfl
  | (some tag, e) =>
    refine ⟨.compound eqSign [.atom tag.text, t], ?_, ?_⟩
    · show (leaf e >>= fun t => done (plCompound eqSign [.atom tag.text, t])) = _
      rw [show leaf e = done t from ht]
      rfl
    · rw [pl2rArg_named (by decide), show pl2rLeaf t = done e from hback, done_bind,
        named_atom (htag tag rfl).2]

/-- A value that becomes no named argument. -/
theorem leaf_survives_plain {e : SEXP} (t : Term) (ht : leaf e = done t)
    (hback : pl2rLeaf t = done e) (hn : t.isNamed = false) :
    ∃ t, leaf e = done t ∧ pl2rLeaf t = done e ∧ (t.isNamed → e.IsEqCall) := by
  refine ⟨t, ht, hback, fun h => ?_⟩
  rw [hn] at h
  cases h

/-- The round trip, with what the term looks like as an argument. -/
theorem leaf_survives {e : SEXP} (h : IsCall e) :
    ∃ t, leaf e = done t ∧ pl2rLeaf t = done e ∧ (t.isNamed → e.IsEqCall) := by
  induction h with
  | real x => exact leaf_survives_plain (.float x) rfl rfl rfl
  | int i _ => exact leaf_survives_plain (.int i.toInt) rfl (pl2rInt_toInt i) rfl
  | lgl b =>
    cases b with
    | true => exact leaf_survives_plain (.atom cTrue.text) rfl (by rfl) rfl
    | false => exact leaf_survives_plain (.atom cFalse.text) rfl (by rfl) rfl
  | str s hs =>
    refine leaf_survives_plain (.str s.text) rfl ?_ rfl
    unfold pl2rLeaf pl2rString
    rw [wideToNative_text hs]
  | sym s _ hne ht hf =>
    refine leaf_survives_plain (.atom s.text) rfl ?_ rfl
    unfold pl2rLeaf
    rw [termLeafSymbol_text hne, symbolOrLogical, if_neg ht, if_neg hf]
  | lang f args _ hne hargs hcell htags hplain _ ih =>
    have hsurvives : ∀ a ∈ args, ∃ t, leafArg a = done t ∧ pl2rArg t = done a := by
      intro a ha
      obtain ⟨t, ht, hb, hn⟩ := ih a ha
      exact leafArg_survives ht hb hn (htags a ha) (hplain a ha)
    obtain ⟨v, hv, hback⟩ := pl2rArgs_leafArgs hsurvives
    have hlen : v.length = args.length := leafArgs_length hv
    have hnil : v ≠ [] := by
      intro he
      subst he
      exact hargs (List.length_eq_zero_iff.mp hlen.symm)
    have hcell' : ¬ IsCell f.text v := by
      intro h
      obtain ⟨hf, hl⟩ := h
      exact hcell ⟨(text_eq_iff (by decide)).mp hf, hlen ▸ hl⟩
    refine ⟨.compound f.text v, ?_, ?_, ?_⟩
    · unfold leaf
      rw [hv, done_bind, asSymbol, done_bind, plCompound_of_ne_nil hnil]
    · rw [pl2rLeaf_compound hcell', pl2rLang, plAtomChars_text, install_of_ne hne, done_bind,
        hback, done_bind]
    · intro hn
      obtain ⟨g, u, r, hg, hname⟩ := Term.isNamed_iff.mp hn
      obtain ⟨rfl, rfl⟩ := Term.compound.inj hg
      obtain ⟨a, b, rfl⟩ := List.length_eq_two.mp hlen.symm
      rw [plAtomChars_text] at hname
      exact ⟨a, b, by rw [hname]⟩

/-- R to Prolog to R: an R call comes back identical. -/
theorem pl2rLeaf_leaf {e : SEXP} (h : IsCall e) : (leaf e >>= pl2rLeaf) = done e := by
  obtain ⟨t, ht, hback, _⟩ := leaf_survives h
  rw [ht, done_bind, hback]

/-- `f(x = 1L, TRUE)` comes back. -/
theorem pl2rLeaf_leaf_tagged :
    (leaf (.lang (.sym (cstr ['f'])) [(some (cstr ['x']), .int [1]), (none, .lgl [some true])])
      >>= pl2rLeaf) =
      done (.lang (.sym (cstr ['f'])) [(some (cstr ['x']), .int [1]), (none, .lgl [some true])]) := by
  have htags : ∀ a ∈ [(some (cstr ['x']), SEXP.int [1]), (none, SEXP.lgl [some true])],
      ∀ tag, a.1 = some tag → tag.IsAscii ∧ tag ≠ cEmpty := by
    intro a ha tag htag
    simp only [List.mem_cons, List.not_mem_nil, or_false] at ha
    rcases ha with rfl | rfl
    · cases htag
      decide
    · cases htag
  have hsub : ∀ a ∈ [(some (cstr ['x']), SEXP.int [1]), (none, SEXP.lgl [some true])],
      IsCall a.2 := by
    simpa using ⟨.int 1 (by decide), .lgl true⟩
  exact pl2rLeaf_leaf (.lang _ _ (by decide) (by decide) (by simp) (by decide) htags
    (by simp [SEXP.IsEqCall]) hsub)

/-! ## Prolog to R and back -/

/-- List-free ground terms: 32-bit integers, floats, ASCII strings, named ASCII atoms, and
compounds of these. The left side of an argument `=(u, r)` is an atom. -/
inductive IsListFree : Term → Prop where
  | int (i : Int) : -2147483648 ≤ i → i ≤ 2147483647 → IsListFree (.int i)
  | float (bits : UInt64) : IsListFree (.float bits)
  | str (s : Text) : IsAscii s → IsListFree (.str s)
  | atom (a : Text) : IsAscii a → a ≠ [] → IsListFree (.atom a)
  | compound (f : Text) (args : List Term) :
    IsAscii f → f ≠ [] → args ≠ [] → ¬ IsCell f args →
    (∀ u r, .compound eqSign [u, r] ∈ args → ∃ a, u = .atom a) →
    (∀ t ∈ args, IsListFree t) → IsListFree (.compound f args)

theorem Faithful.ne_empty {s : Text} (h : Faithful s) (hs : s ≠ []) : plAtomChars s ≠ cEmpty := by
  intro e
  unfold Faithful at h
  rw [e] at h
  exact hs h.symm

theorem leaf_symbolOrLogical (s : CString) : leaf (symbolOrLogical s) = done (.atom s.text) := by
  by_cases ht : s = cTrue
  · rw [ht]
    rfl
  · by_cases hf : s = cFalse
    · rw [hf]
      rfl
    · unfold symbolOrLogical
      rw [if_neg ht, if_neg hf]
      rfl

/-- If every argument survives, the argument list does. -/
theorem leafArgs_pl2rArgs {args : List Term} (h : ∀ t ∈ args, (pl2rArg t >>= leafArg) = done t) :
    ∃ l, pl2rArgs args = done l ∧ leafArgs l = done args := by
  induction args with
  | nil => exact ⟨[], rfl, rfl⟩
  | cons t args ih =>
    obtain ⟨a, ha, hback⟩ := bind_eq_done.mp (h t List.mem_cons_self)
    obtain ⟨l, hl, hargs⟩ := ih fun u hu => h u (List.mem_cons_of_mem t hu)
    refine ⟨a :: l, ?_, ?_⟩
    · rw [pl2rArgs_cons, ha, hl]
      rfl
    · rw [leafArgs_cons, hback, hargs]
      rfl

/-- An argument with no name of its own survives when the term does. -/
theorem pl2rArg_survives {t : Term} (hn : t.isNamed = false)
    (h : (pl2rLeaf t >>= leaf) = done t) : (pl2rArg t >>= leafArg) = done t := by
  obtain ⟨x, hx, hback⟩ := bind_eq_done.mp h
  rw [pl2rArg_unnamed hn, hx]
  exact hback

/-- An argument `=(a, r)` survives through its tag. -/
theorem pl2rArg_tag_survives {a : Text} {r : Term} (ha : Faithful a) (hne : a ≠ [])
    (h : (pl2rLeaf r >>= leaf) = done r) :
    (pl2rArg (.compound eqSign [.atom a, r]) >>= leafArg) =
      done (.compound eqSign [.atom a, r]) := by
  obtain ⟨x, hx, hback⟩ := bind_eq_done.mp h
  have hnamed : named (.atom a) x = done (some (plAtomChars a), x) := by
    simp [named, Term.name, install_of_ne (ha.ne_empty hne)]
  rw [pl2rArg_named (by decide), hx, done_bind, hnamed, done_bind, leafArg, hback, done_bind, ha]
  rfl

/-- The round trip, and the round trip as an argument. -/
theorem pl2rLeaf_survives {t : Term} (h : IsListFree t) (hf : ∀ s ∈ t.texts, Faithful s) :
    (pl2rLeaf t >>= leaf) = done t ∧
      ((∀ u r, t = .compound eqSign [u, r] → ∃ a, u = .atom a) →
        (pl2rArg t >>= leafArg) = done t) := by
  induction h with
  | int i hlo hhi =>
    have hi : (pl2rLeaf (.int i) >>= leaf) = done (.int i) := by
      unfold pl2rLeaf pl2rInt
      rw [if_pos ⟨hlo, by omega⟩, done_bind, leaf,
        leafInt_ofInt ⟨hlo, by omega⟩]
    exact ⟨hi, fun _ => pl2rArg_survives rfl hi⟩
  | float bits => exact ⟨rfl, fun _ => rfl⟩
  | str s hs =>
    have ht : (pl2rLeaf (.str s) >>= leaf) = done (.str s) := by
      have hfs : (plAtomChars s).text = s := hf s (by simp [Term.texts])
      unfold pl2rLeaf pl2rString
      rw [wideToNative_ascii hs, done_bind, leaf, r2plString, getCstring, hfs]
    exact ⟨ht, fun _ => pl2rArg_survives rfl ht⟩
  | atom a ha hne =>
    have hfa : Faithful a := hf a (by simp [Term.texts])
    have ht : (pl2rLeaf (.atom a) >>= leaf) = done (.atom a) := by
      simp only [pl2rLeaf, Term.leafSymbol, atomChars, plGetChars_ascii ha, done_bind,
        install_of_ne (hfa.ne_empty hne), leaf_symbolOrLogical]
      rw [hfa]
    exact ⟨ht, fun _ => pl2rArg_survives rfl ht⟩
  | compound f args _ hne hargs hcell heq hsub ih =>
    have hfa : ∀ t ∈ args, ∀ s ∈ t.texts, Faithful s := fun t ht s hs =>
      hf s (by simp [Term.texts, Term.mem_textsList ht s hs])
    have hff : Faithful f := hf f (by simp [Term.texts])
    obtain ⟨l, hl, hback⟩ := leafArgs_pl2rArgs fun t ht =>
      (ih t ht (hfa t ht)).2 fun u r e => heq u r (e ▸ ht)
    have hr : (pl2rLeaf (.compound f args) >>= leaf) = done (.compound f args) := by
      rw [pl2rLeaf_compound hcell, pl2rLang, install_of_ne (hff.ne_empty hne), done_bind, hl,
        done_bind, done_bind, leaf, hback, done_bind, asSymbol, done_bind, hff,
        plCompound_of_ne_nil hargs]
    refine ⟨hr, fun hatom => ?_⟩
    by_cases hn : (Term.compound f args).isNamed
    · obtain ⟨g, u, r, hg, hname⟩ := Term.isNamed_iff.mp hn
      obtain ⟨rfl, rfl⟩ := Term.compound.inj hg
      have hfe : f = eqSign := by
        rw [← hff, hname]
        rfl
      subst hfe
      obtain ⟨a, rfl⟩ := hatom u r rfl
      have hfat : Faithful a := hfa (.atom a) (by simp) a (by simp [Term.texts])
      have hane : a ≠ [] := by
        cases hsub (.atom a) (by simp) with
        | atom _ _ h => exact h
      exact pl2rArg_tag_survives hfat hane (ih r (by simp) (hfa r (by simp))).1
    · exact pl2rArg_survives (by simpa using hn) hr

/-- Prolog to R to Prolog: a list-free answer comes back identical, if R holds its names and
strings faithfully. -/
theorem leaf_pl2rLeaf {t : Term} (h : IsListFree t) (hf : ∀ s ∈ t.texts, Faithful s) :
    ∃ e, pl2rLeaf t = done e ∧ leaf e = done t :=
  bind_eq_done.mp (pl2rLeaf_survives h hf).1

/-- `f(x = 1)` comes back. -/
theorem leaf_pl2rLeaf_tagged :
    ∃ e, pl2rLeaf (.compound ['f'] [.compound eqSign [.atom ['x'], .int 1]]) = done e ∧
      leaf e = done (.compound ['f'] [.compound eqSign [.atom ['x'], .int 1]]) := by
  have hx : IsListFree (.compound eqSign [.atom ['x'], .int 1]) := by
    refine .compound _ _ (by decide) (by decide) (by simp) (by decide) (by simp [eqSign]) ?_
    simpa using ⟨.atom _ (by decide) (by decide), .int 1 (by decide) (by decide)⟩
  refine leaf_pl2rLeaf (.compound _ _ (by decide) (by decide) (by simp) (by decide) ?_ ?_) ?_
  · simp
  · simpa using hx
  · simp only [Term.texts, Term.textsList]
    decide

end Rolog
