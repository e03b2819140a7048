/-
  Recursive procedures that need not terminate. A body is a program that calls procedures and
  ends in an `Outcome`; a callee that does not return ends its caller too. `run` executes bodies
  on a bound for the depth of calls, so that a call terminates when some bound is enough.

  `terminates_iff_acc`: a call terminates iff the calls that it makes do not descend for ever.
  `terminates_iff_no_cycle`: among finitely many procedures, iff they never lead round a cycle.
-/
import Mathlib.Data.Fintype.Card
import Mathlib.Order.WellFoundedSet
import Rolog.Lib.Unwind

namespace Recursion

open Unwind Unwind.Outcome Relation

/-- A program that ends, or calls procedure `i` and goes on with what it returns. -/
inductive Prog (ε κ : Type) {ι : Type} (ρ : ι → Type) (α : Type) where
  | stop (r : Outcome ε κ α)
  | call (i : ι) (k : ρ i → Prog ε κ ρ α)

variable {ε κ ι : Type} {ρ : ι → Type} {α β : Type}

namespace Prog

def bind : Prog ε κ ρ α → (α → Prog ε κ ρ β) → Prog ε κ ρ β
  | stop (done a), f => f a
  | stop (thrown e), _ => stop (thrown e)
  | stop (jumped r), _ => stop (jumped r)
  | stop undefined, _ => stop undefined
  | call i k, f => call i fun a => (k a).bind f

instance : Monad (Prog ε κ ρ) where
  pure a := stop (done a)
  bind := bind

/-- The call of a procedure, as a program. -/
def invoke (i : ι) : Prog ε κ ρ (ρ i) := call i fun a => stop (done a)

/-- Execution, where `f` executes the calls that are allowed. -/
def exec (f : (i : ι) → Option (Outcome ε κ (ρ i))) : Prog ε κ ρ α → Option (Outcome ε κ α)
  | stop r => some r
  | call i k =>
    match f i with
    | none => none
    | some (done a) => (k a).exec f
    | some (thrown e) => some (thrown e)
    | some (jumped r) => some (jumped r)
    | some undefined => some undefined

/-- More allowed calls, the same result. -/
theorem exec_mono {f g : (i : ι) → Option (Outcome ε κ (ρ i))}
    (h : ∀ i r, f i = some r → g i = some r) {p : Prog ε κ ρ α} {r : Outcome ε κ α}
    (hr : p.exec f = some r) : p.exec g = some r := by
  induction p with
  | stop s => exact hr
  | call i k ih =>
    unfold exec at hr ⊢
    cases hf : f i with
    | none =>
      rw [hf] at hr
      cases hr
    | some s =>
      rw [hf] at hr
      rw [h i s hf]
      cases s with
      | done a => exact ih a hr
      | thrown | jumped | undefined => exact hr

end Prog

open Prog

variable (body : (i : ι) → Prog ε κ ρ (ρ i))

/-- The call of procedure `i`, with calls at most `n` deep. -/
def run : Nat → (i : ι) → Option (Outcome ε κ (ρ i))
  | 0, _ => none
  | n + 1, i => (body i).exec (run n)

theorem run_succ {n : Nat} {i : ι} {r : Outcome ε κ (ρ i)} (h : run body n i = some r) :
    run body (n + 1) i = some r := by
  induction n generalizing i with
  | zero => cases h
  | succ n ih => exact exec_mono (fun _ _ => ih) h

theorem run_mono {n m : Nat} (hnm : n ≤ m) {i : ι} {r : Outcome ε κ (ρ i)}
    (h : run body n i = some r) : run body m i = some r := by
  induction hnm with
  | refl => exact h
  | step _ ih => exact run_succ body ih

/-- The program ends with `r`, if its calls may go as deep as they like. -/
def Ends (p : Prog ε κ ρ α) (r : Outcome ε κ α) : Prop := ∃ n, p.exec (run body n) = some r

/-- The call of procedure `i` ends. -/
def Terminates (i : ι) : Prop := ∃ r, Ends body (body i) r

theorem Ends.unique {p : Prog ε κ ρ α} {r s : Outcome ε κ α} (hr : Ends body p r)
    (hs : Ends body p s) : r = s := by
  obtain ⟨n, hn⟩ := hr
  obtain ⟨m, hm⟩ := hs
  have hn' := exec_mono (fun _ _ => run_mono body (Nat.le_max_left n m)) hn
  have hm' := exec_mono (fun _ _ => run_mono body (Nat.le_max_right n m)) hm
  rw [hn'] at hm'
  exact Option.some.inj hm'

/-! ## How programs end -/

theorem ends_stop (r : Outcome ε κ α) : Ends body (stop r) r := ⟨0, rfl⟩

/-- How a call ends when its callee ends with `s`: an abnormal end is passed on. -/
def EndsAfter {i : ι} (k : ρ i → Prog ε κ ρ α) (s : Outcome ε κ (ρ i)) (r : Outcome ε κ α) :
    Prop :=
  match s with
  | done a => Ends body (k a) r
  | thrown e => r = thrown e
  | jumped j => r = jumped j
  | undefined => r = undefined

theorem ends_call_iff {i : ι} {k : ρ i → Prog ε κ ρ α} {r : Outcome ε κ α} :
    Ends body (call i k) r ↔ ∃ s, Ends body (body i) s ∧ EndsAfter body k s r := by
  constructor
  · intro h
    obtain ⟨n, hn⟩ := h
    unfold exec at hn
    cases n with
    | zero => cases hn
    | succ n =>
      cases hs : run body (n + 1) i with
      | none =>
        rw [hs] at hn
        cases hn
      | some s =>
        rw [hs] at hn
        refine ⟨s, ⟨n, hs⟩, ?_⟩
        cases s with
        | done a => exact ⟨n + 1, hn⟩
        | thrown | jumped | undefined => exact (Option.some.inj hn).symm
  · intro h
    obtain ⟨s, ⟨n, hn⟩, hk⟩ := h
    have hn' : run body (n + 1) i = some s := hn
    cases s with
    | done a =>
      obtain ⟨m, hm⟩ := hk
      refine ⟨max (n + 1) m, ?_⟩
      unfold exec
      rw [run_mono body (Nat.le_max_left _ m) hn']
      exact exec_mono (fun _ _ => run_mono body (Nat.le_max_right _ m)) hm
    | thrown | jumped | undefined =>
      refine ⟨n + 1, ?_⟩
      unfold exec
      rw [hn', hk]

theorem ends_invoke {i : ι} {s : Outcome ε κ (ρ i)} (h : Ends body (body i) s) :
    Ends body (invoke i) s := by
  refine (ends_call_iff body).mpr ⟨s, h, ?_⟩
  cases s with
  | done a => exact ends_stop body (done a)
  | thrown | jumped | undefined => rfl

theorem ends_invoke_done_iff {i : ι} {a : ρ i} :
    Ends body (invoke i) (done a) ↔ Ends body (body i) (done a) := by
  refine ⟨fun h => ?_, ends_invoke body⟩
  obtain ⟨s, hs, hk⟩ := (ends_call_iff body).mp h
  cases s with
  | done b =>
    have hb := (ends_stop body _).unique body hk
    rwa [← hb]
  | thrown | jumped | undefined => cases hk

/-- A sequence ends as its parts do. -/
theorem ends_bind {p : Prog ε κ ρ α} {f : α → Prog ε κ ρ β} {x : Outcome ε κ α}
    {g : α → Outcome ε κ β} (hp : Ends body p x)
    (hf : ∀ a, x = done a → Ends body (f a) (g a)) : Ends body (p >>= f) (x >>= g) := by
  induction p with
  | stop s =>
    have hx : x = s := hp.unique body (ends_stop body s)
    subst hx
    cases x with
    | done a => exact hf a rfl
    | thrown | jumped | undefined => exact ends_stop body _
  | call i k ih =>
    obtain ⟨s, hs, hk⟩ := (ends_call_iff body).mp hp
    refine (ends_call_iff body).mpr ⟨s, hs, ?_⟩
    cases s with
    | done a => exact ih a hk
    | thrown | jumped | undefined =>
      rw [show x = _ from hk]
      rfl

/-- A sequence returns when both its parts do. -/
theorem ends_bind_done_iff {p : Prog ε κ ρ α} {f : α → Prog ε κ ρ β} {b : β} :
    Ends body (p >>= f) (done b) ↔ ∃ a, Ends body p (done a) ∧ Ends body (f a) (done b) := by
  constructor
  · intro h
    induction p with
    | stop s =>
      cases s with
      | done a => exact ⟨a, ends_stop body _, h⟩
      | thrown | jumped | undefined =>
        have hs := (ends_stop body _).unique body h
        cases hs
    | call i k ih =>
      obtain ⟨s, hs, hk⟩ := (ends_call_iff body).mp h
      cases s with
      | done a =>
        obtain ⟨a', ha', hf⟩ := ih a hk
        exact ⟨a', (ends_call_iff body).mpr ⟨done a, hs, ha'⟩, hf⟩
      | thrown | jumped | undefined => cases hk
  · intro h
    obtain ⟨a, ha, hb⟩ := h
    exact ends_bind body ha (g := fun _ => done b) fun a' ha' => by
      cases ha'
      exact hb

/-! ## The calls that are made -/

/-- The program gets to call `w`. -/
def Called (w : ι) : Prog ε κ ρ α → Prop
  | stop _ => False
  | call i k => w = i ∨ ∃ a, Ends body (body i) (done a) ∧ Called w (k a)

/-- The call of `i` gets to call `w`. -/
def Calls (w i : ι) : Prop := Called body w (body i)

theorem called_bind {w : ι} {p : Prog ε κ ρ α} {f : α → Prog ε κ ρ β} :
    Called body w (p >>= f) ↔
      Called body w p ∨ ∃ a, Ends body p (done a) ∧ Called body w (f a) := by
  induction p with
  | stop s =>
    have hs (a : α) : Ends body (stop s) (done a) ↔ s = done a :=
      ⟨fun h => (ends_stop body s).unique body h, fun h => h ▸ ends_stop body s⟩
    cases s with
    | done b => simp [hs, Called, show (stop (done b) >>= f) = f b from rfl]
    | thrown e => simp [hs, Called, show (stop (thrown e) >>= f) = stop (thrown e) from rfl]
    | jumped e => simp [hs, Called, show (stop (jumped e) >>= f) = stop (jumped e) from rfl]
    | undefined => simp [hs, Called, show (stop undefined >>= f) = stop undefined from rfl]
  | call i k ih =>
    have he (b : α) : Ends body (call i k) (done b) ↔
        ∃ a, Ends body (body i) (done a) ∧ Ends body (k a) (done b) := by
      rw [ends_call_iff]
      constructor
      · intro h
        obtain ⟨s, hs, hk⟩ := h
        cases s with
        | done a => exact ⟨a, hs, hk⟩
        | thrown | jumped | undefined => cases hk
      · intro h
        obtain ⟨a, ha, hk⟩ := h
        exact ⟨done a, ha, hk⟩
    show (w = i ∨ ∃ a, Ends body (body i) (done a) ∧ Called body w (k a >>= f)) ↔
      (w = i ∨ ∃ a, Ends body (body i) (done a) ∧ Called body w (k a)) ∨ _
    simp only [ih, he]
    grind

/-! ## Termination -/

/-- If all its calls terminate, the program ends. -/
theorem ends_of_called {p : Prog ε κ ρ α} (h : ∀ w, Called body w p → Terminates body w) :
    ∃ r, Ends body p r := by
  induction p with
  | stop r => exact ⟨r, ends_stop body r⟩
  | call i k ih =>
    obtain ⟨s, hs⟩ := h i (.inl rfl)
    cases s with
    | done a =>
      obtain ⟨r, hr⟩ := ih a fun w hw => h w (.inr ⟨a, hs, hw⟩)
      exact ⟨r, (ends_call_iff body).mpr ⟨done a, hs, hr⟩⟩
    | thrown e => exact ⟨thrown e, (ends_call_iff body).mpr ⟨thrown e, hs, rfl⟩⟩
    | jumped e => exact ⟨jumped e, (ends_call_iff body).mpr ⟨jumped e, hs, rfl⟩⟩
    | undefined => exact ⟨undefined, (ends_call_iff body).mpr ⟨undefined, hs, rfl⟩⟩

/-- The calls of a program that ends are shallower than the program. -/
theorem run_of_called {n : Nat} {p : Prog ε κ ρ α} {r : Outcome ε κ α} {w : ι}
    (h : p.exec (run body n) = some r) (hw : Called body w p) : ∃ s, run body n w = some s := by
  induction p with
  | stop r => nomatch hw
  | call i k ih =>
    unfold exec at h
    cases hs : run body n i with
    | none =>
      rw [hs] at h
      cases h
    | some s =>
      rcases hw with rfl | ⟨a, ha, hw⟩
      · exact ⟨s, hs⟩
      · have hsa : s = done a := by
          cases n with
          | zero => cases hs
          | succ n => exact Ends.unique body ⟨n, hs⟩ ha
        subst hsa
        rw [hs] at h
        exact ih a h hw

theorem acc_of_run {n : Nat} {i : ι} {r : Outcome ε κ (ρ i)} (h : run body n i = some r) :
    Acc (Calls body) i := by
  induction n generalizing i with
  | zero => cases h
  | succ n ih =>
    refine ⟨i, fun w hw => ?_⟩
    obtain ⟨s, hs⟩ := run_of_called body h hw
    exact ih hs

/-- A call terminates iff the calls it makes do not descend for ever. -/
theorem terminates_iff_acc {i : ι} : Terminates body i ↔ Acc (Calls body) i := by
  constructor
  · intro h
    obtain ⟨r, n, hn⟩ := h
    exact acc_of_run (n := n + 1) body hn
  · intro h
    induction h with
    | intro i _ ih => exact ends_of_called body ih

theorem not_cycle_of_acc {r : ι → ι → Prop} {a : ι} (h : Acc r a) : ¬ r a a := by
  induction h with
  | intro a _ ih => exact fun haa => ih a haa haa

/-- Descent in a finite set ends iff it leads to no cycle. -/
theorem acc_iff_no_cycle_of_finite {r : ι → ι → Prop} {a : ι}
    (hfin : {b | ReflTransGen r b a}.Finite) :
    Acc r a ↔ ¬ ∃ b, ReflTransGen r b a ∧ TransGen r b b := by
  constructor
  · intro h h
    obtain ⟨b, hba, hbb⟩ := h
    have hb : Acc (TransGen r) b := by
      rcases reflTransGen_iff_eq_or_transGen.mp hba with rfl | hba
      · exact h.transGen
      · exact h.transGen.inv hba
    exact not_cycle_of_acc hb hbb
  · intro h
    let below (b c : {b // ReflTransGen r b a}) : Prop := TransGen r b.1 c.1
    have hfinite : Finite {b // ReflTransGen r b a} := hfin
    have htrans : IsTrans _ below := ⟨fun _ _ _ => TransGen.trans⟩
    have hirrefl : Std.Irrefl below := ⟨fun b hb => h ⟨b.1, b.2, hb⟩⟩
    have hwf := Finite.wellFounded_of_trans_of_irrefl below
    rw [← acc_transGen_iff]
    refine (hwf.apply ⟨a, .refl⟩).of_fibration Subtype.val ?_
    intro c b hb
    exact ⟨⟨b, hb.to_reflTransGen.trans c.2⟩, hb, rfl⟩

/-- In a finite type, descent ends iff it leads to no cycle. -/
theorem acc_iff_no_cycle [Finite ι] {r : ι → ι → Prop} {a : ι} :
    Acc r a ↔ ¬ ∃ b, ReflTransGen r b a ∧ TransGen r b b :=
  acc_iff_no_cycle_of_finite (Set.toFinite _)

/-- Among finitely many procedures a call terminates iff the calls it makes never lead round a
cycle. -/
theorem terminates_iff_no_cycle [Finite ι] {i : ι} :
    Terminates body i ↔ ¬ ∃ w, ReflTransGen (Calls body) w i ∧ TransGen (Calls body) w w := by
  rw [terminates_iff_acc, acc_iff_no_cycle]

end Recursion
