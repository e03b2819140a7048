/-
  Runs of a machine that takes inputs one after the other: the steps of a run, each with the
  states around it, and the rules that carry a fact about one step to all steps of a run.
-/
import Mathlib.Data.List.Basic

namespace Machine

variable {σ ι ο : Type}

/-- One step: an input, the output to it, and the states before and after. -/
structure Step (σ ι ο : Type) where
  before : σ
  input : ι
  output : ο
  after : σ

/-- The step that `f` takes. -/
def stepOf (f : ι → σ → ο × σ) (i : ι) (s : σ) : Step σ ι ο := ⟨s, i, (f i s).1, (f i s).2⟩

/-- The steps of a run. An output in `stops` is the last one. -/
def trace (f : ι → σ → ο × σ) (stops : ο → Bool) : σ → List ι → List (Step σ ι ο)
  | _, [] => []
  | s, i :: is => stepOf f i s :: if stops (f i s).1 then [] else trace f stops (f i s).2 is

variable {f : ι → σ → ο × σ} {stops : ο → Bool} {I : σ → Prop} {Q : ι → Prop}
  {P C : Step σ ι ο → Prop}

theorem forall_trace_cons {i : ι} {is : List ι} {s : σ} :
    (∀ step ∈ trace f stops s (i :: is), P step) ↔
      P (stepOf f i s) ∧
        (stops (f i s).1 = false → ∀ step ∈ trace f stops (f i s).2 is, P step) := by
  rw [trace]
  cases stops (f i s).1 with
  | true => simp
  | false => simp

/-- Let `P` and `C` agree on every step from a state in `I`, and let the steps in `C` stay in
`I`. Then all steps of a run are in `P` exactly when all are in `C`. -/
theorem forall_trace_iff (hstep : ∀ i s, Q i → I s → (P (stepOf f i s) ↔ C (stepOf f i s)))
    (hinv : ∀ i s, Q i → I s → C (stepOf f i s) → I (f i s).2) {s : σ} {is : List ι} (hs : I s)
    (his : ∀ i ∈ is, Q i) :
    (∀ step ∈ trace f stops s is, P step) ↔ ∀ step ∈ trace f stops s is, C step := by
  induction is generalizing s with
  | nil => exact ⟨nofun, nofun⟩
  | cons i is ih =>
    have hi := his i List.mem_cons_self
    have hrest := fun hc => ih (hinv i s hi hs hc) fun j hj => his j (List.mem_cons_of_mem i hj)
    rw [forall_trace_cons, forall_trace_cons, hstep i s hi hs]
    exact and_congr_right fun hc => imp_congr_right fun _ => hrest hc

/-- A step of a run from a state in `I`, if every step on an input in `Q` but the last stays in
`I`. -/
theorem mem_trace (hinv : ∀ i s, Q i → I s → stops (f i s).1 = false → I (f i s).2) {s : σ}
    {is : List ι} (hs : I s) (his : ∀ i ∈ is, Q i) {step : Step σ ι ο}
    (h : step ∈ trace f stops s is) :
    ∃ i t, i ∈ is ∧ I t ∧ step = stepOf f i t := by
  induction is generalizing s with
  | nil => cases h
  | cons i is ih =>
    rw [trace] at h
    rcases List.mem_cons.mp h with rfl | h
    · exact ⟨i, s, List.mem_cons_self, hs, rfl⟩
    · cases hstop : stops (f i s).1 with
      | true =>
        rw [hstop] at h
        cases h
      | false =>
        rw [hstop] at h
        obtain ⟨j, t, hj, ht, he⟩ := ih (hinv i s (his i List.mem_cons_self) hs hstop)
          (fun k hk => his k (List.mem_cons_of_mem i hk)) h
        exact ⟨j, t, List.mem_cons_of_mem i hj, ht, he⟩

/-- Let a step lead to `B` from `A` or `B` only. Then a step of a run that starts in `A` or `B` has
its origin in an earlier step that led to `A`, and all steps in between led to `B`; or the run
itself started in `A` or `B`. -/
theorem exists_origin {A B : σ → Prop} (hstep : ∀ i s, I s → stops (f i s).1 = false →
      I (f i s).2 ∧ (B (f i s).2 → A s ∨ B s)) {s : σ} {is : List ι} (hs : I s)
    {earlier later : List (Step σ ι ο)} {step : Step σ ι ο}
    (h : trace f stops s is = earlier ++ step :: later) (hp : A step.before ∨ B step.before) :
    ((A s ∨ B s) ∧ ∀ m ∈ earlier, B m.after) ∨
      ∃ before origin between, earlier = before ++ origin :: between ∧ A origin.after ∧
        ∀ m ∈ between, B m.after := by
  induction earlier generalizing s is with
  | nil =>
    cases is with
    | nil => cases h
    | cons i is =>
      obtain ⟨rfl, -⟩ := List.cons.inj h
      exact .inl ⟨hp, nofun⟩
  | cons m earlier ih =>
    cases is with
    | nil => cases h
    | cons i is =>
      obtain ⟨rfl, hrest⟩ := List.cons.inj h
      cases hstop : stops (f i s).1 with
      | true =>
        rw [hstop, if_pos rfl] at hrest
        exact absurd hrest.symm (List.append_ne_nil_of_right_ne_nil _ (List.cons_ne_nil _ _))
      | false =>
        rw [hstop] at hrest
        obtain ⟨hinv, hback⟩ := hstep i s hs hstop
        rcases ih hinv hrest with ⟨hA | hB, hleft⟩ | ⟨before, origin, between, rfl, horigin⟩
        · exact .inr ⟨[], stepOf f i s, earlier, rfl, hA, hleft⟩
        · exact .inl ⟨hback hB, List.forall_mem_cons.mpr ⟨hB, hleft⟩⟩
        · exact .inr ⟨stepOf f i s :: before, origin, between, rfl, horigin⟩

/-- What a run puts out. -/
def outputs (f : ι → σ → ο × σ) (stops : ο → Bool) (s : σ) (is : List ι) : List ο :=
  (trace f stops s is).map Step.output

theorem outputs_cons (f : ι → σ → ο × σ) (stops : ο → Bool) (s : σ) (i : ι) (is : List ι) :
    outputs f stops s (i :: is) =
      (f i s).1 :: if stops (f i s).1 then [] else outputs f stops (f i s).2 is := by
  show (trace f stops s (i :: is)).map Step.output = _
  rw [trace]
  cases stops (f i s).1 with
  | true => rfl
  | false => rfl

/-- A machine that shows its state to another one at every step but the last puts out the
same. -/
theorem outputs_eq_of_shows {τ : Type} {g : ι → τ → ο × τ} (view : σ → τ)
    (h : ∀ i s, I s → (g i (view s)).1 = (f i s).1 ∧ (stops (f i s).1 = false →
      (g i (view s)).2 = view (f i s).2 ∧ I (f i s).2)) {s : σ} {is : List ι} (hs : I s) :
    outputs f stops s is = outputs g stops (view s) is := by
  induction is generalizing s with
  | nil => rfl
  | cons i is ih =>
    obtain ⟨hout, hnext⟩ := h i s hs
    rw [outputs_cons, outputs_cons, hout]
    cases hstop : stops (f i s).1 with
    | true => rfl
    | false =>
      obtain ⟨hview, hinv⟩ := hnext hstop
      rw [hview, ih hinv]

end Machine
