/-
  `rolog_consult` on a vector of files. A file whose consult fails is passed over; one that raises
  ends the loop with a C++ exception, and the files loaded so far are not reported. So each file
  is handled on its own exactly when none of them raises (`handlesEach_iff`); otherwise the
  files behind the first that does are not consulted (`consult_stops`). What is pending when a
  file is consulted is what the files before it have left.
-/
import Rolog.OperationSpec

namespace Rolog

open Unwind Unwind.Outcome Unwind.Proc

variable {s : Session} {w : World}

/-- The files that `rolog_consult` hands to `consult/1`, in order. -/
def consulted (w : World) (files : List (Option CString)) (s : Session) :
    List (Option CString) := (visit (recorded (consultFile w)) files ([], s.start)).2.1

/-- The record changes neither the outcome of the loop nor the state. -/
theorem consultFiles_recorded (files : List (Option CString)) (t : Session) :
    ((visit (recorded (consultFile w)) files ([], t)).1,
      (visit (recorded (consultFile w)) files ([], t)).2.2) = consultFiles w files t := by
  rw [consultFiles_eq_visit]
  exact visit_recorded (consultFile w) files [] t

/-- What `consult/1` comes to on each of the files. -/
def consultResults (w : World) (files : List (Option CString)) (s : Session) :
    List (Option CString × Cpp (Option Term)) :=
  results (consultResult w s.context) s.start.pending files

/-- Every file is consulted once, in order, and those on which `consult/1` succeeds are
returned. -/
structure HandlesEach (w : World) (files : List (Option CString)) (s : Session) : Prop where
  consults : consulted w files s = files
  returns : ((Op.consult files).run w s).1 =
    done (.str (((consultResults w files s).filter fun r => hasResult r.2).map Prod.fst) [])

/-- What the operation consults and returns, by what the files come to. -/
theorem consult_spec (he : s.rologEngine = true) (hl : s.live = true)
    (files : List (Option CString)) :
    consulted w files s = visited (consultResult w s.context) s.start.pending files ∧
      ((Op.consult files).run w s).1 =
        (visit (consultResult w s.context) files s.start.pending).1 >>=
          fun r => done (.str r []) := by
  refine ⟨?_, ?_⟩
  · refine visit_recorded_spec (R := fun p t => At s.start s.queries p t) ?_ files [] (at_start hl)
    intro file p t ht
    have h := consultFile_spec w file t ht
    refine ⟨h.1, fun hdone => h.at fun hu => ?_⟩
    rw [hu] at hdone
    cases hdone
  · refine (rologConsult_spec w (show s.start.rologEngine = true from he) files s.start
      (at_start hl)).1.trans ?_
    rw [consultOutcome, bind_apply, andThen_map]
    rfl

/-- The loop ends at the first file that raises: the later ones are not consulted, and nothing
is returned. -/
theorem consult_stops (he : s.rologEngine = true) (hl : s.live = true)
    {files : List (Option CString)} {earlier later : List (Option CString × Cpp (Option Term))}
    {file : Option CString × Cpp (Option Term)} {e : Thrown}
    (hsplit : consultResults w files s = earlier ++ file :: later)
    (h : ∀ r ∈ earlier, r.2.isDone = true) (hfile : file.2 = thrown e) :
    consulted w files s = earlier.map Prod.fst ++ [file.1] ∧
      ((Op.consult files).run w s).1 = thrown e := by
  obtain ⟨hfiles, hend⟩ := consult_spec (w := w) he hl files
  obtain ⟨hvisited, hthrown⟩ := visit_stops hsplit h hfile
  rw [hfiles, hend, hthrown]
  exact ⟨hvisited, rfl⟩

theorem consultResult_isDone_iff {file : Option CString} {context : Context} {p : Pending} :
    (consultResult w context file p).1.isDone = true ↔
      ∀ e, (consultResult w context file p).1 ≠ thrown e := by
  unfold consultResult
  rcases Solve.first_cases _ p with ⟨r, hr⟩ | ⟨e, he⟩
  · rw [hr]
    exact iff_of_true rfl nofun
  · rw [he]
    exact iff_of_false nofun fun h => h e rfl

theorem consultResults_isDone_iff (files : List (Option CString)) :
    (∀ r ∈ consultResults w files s, r.2.isDone = true) ↔
      ∀ r ∈ consultResults w files s, ∀ e, r.2 ≠ thrown e := by
  unfold consultResults
  generalize s.start.pending = p
  induction files generalizing p with
  | nil => exact ⟨nofun, nofun⟩
  | cons file files ih =>
    rw [results, List.forall_mem_cons, List.forall_mem_cons, ih]
    exact and_congr_left fun _ => consultResult_isDone_iff

theorem handlesEach_iff (he : s.rologEngine = true) (hl : s.live = true)
    (files : List (Option CString)) :
    HandlesEach w files s ↔ ∀ r ∈ consultResults w files s, ∀ e, r.2 ≠ thrown e := by
  obtain ⟨hfiles, hend⟩ := consult_spec (w := w) he hl files
  rw [← consultResults_isDone_iff]
  constructor
  · intro h
    have hret := h.returns
    rw [hend] at hret
    obtain ⟨r, hr, -⟩ := bind_eq_done.mp hret
    exact visit_isDone_iff.mp (isDone_iff.mpr ⟨r, hr⟩)
  · intro h
    refine ⟨hfiles.trans (visited_eq_self h), ?_⟩
    rw [hend, visit_done h]
    rfl

/-- A world in which the file `f` loads, `g` does not, and there is no file `m`. -/
def withoutM : World where
  charsToTerm _ := .ok .nil
  solve _ _ args :=
    match args with
    | [.str ['m']] => .clear (.raise (.atom "existence_error".toList))
    | [.str ['g']] => .fail
    | _ => .clear (.answer .nil .quiet .fail)
  termText _ := []
  initialise := .ok
  cleanup := true

/-- An exception that an earlier call has left pending is gone once `f` is loaded. -/
theorem handlesEach_cleared :
    HandlesEach withoutM [some (cstr ['f']), some (cstr ['g']), some (cstr ['f'])]
      { readySession with pending := some (false, .atom ['e']) } := by
  refine (handlesEach_iff rfl rfl _).mpr fun r hr e => ?_
  rcases hr with _ | ⟨_, _ | ⟨_, _ | ⟨_, hr⟩⟩⟩
  · exact nofun
  · exact nofun
  · exact nofun
  · cases hr

theorem not_handlesEach_missing :
    ¬ HandlesEach withoutM [some (cstr ['f']), some (cstr ['m']), some (cstr ['f'])]
      readySession := by
  intro h
  cases h.returns

end Rolog
