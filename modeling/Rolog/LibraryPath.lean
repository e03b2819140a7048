/-
  The goal that `rolog_init` formats: `home` is spliced into a double-quoted text as it is, into a
  buffer of 512 bytes. The text reads as the goal that was meant exactly when `home` has at most
  465 bytes, no double quote and no backslash (`installs_iff`): an escape or a quote makes every
  string of the text shorter than the path (`Installs.plain`), and a plain path is copied by both
  passes of the reader (`readTerm_plain`).
-/
import Rolog.Canonical
import Rolog.Operations

namespace Rolog

open Unwind Unwind.Outcome

/-! ## The goal -/

/-- The goal that is meant: `asserta(file_search_path(library, path))`. -/
def searchPathGoal (path : Text) : Term :=
  .compound "asserta".toList
    [.compound "file_search_path".toList [.atom "library".toList, .str path]]

/-- The directory under `home`. -/
def libraryOf (home : Text) : Text := home ++ "/library".toList

/-- What `sprintf` has in front of `home` and behind it. -/
def goalStart : Text := "asserta(file_search_path(library, \"".toList

def goalEnd : Text := "/library\"))".toList

/-- `rolog_init` has room for the goal and its NUL, and the text of the goal reads as the goal that
is meant. -/
structure Installs (g : Grammar) (home : CString) : Prop where
  fits : (initGoal home).bytes.length + 1 ≤ 512
  reads : g.readTerm (initGoal home).text = some (searchPathGoal (libraryOf home.text))

/-- No double quote and no backslash. -/
def IsPlainPath (s : Text) : Prop := ∀ c ∈ s, c ≠ '"' ∧ c ≠ '\\'

instance (s : Text) : Decidable (IsPlainPath s) := List.decidableBAll _ s

theorem initGoal_bytes (home : CString) :
    (initGoal home).bytes = toLatin1 goalStart ++ home.bytes ++ toLatin1 goalEnd := by
  have hstart : (toLatin1 goalStart).all (· ≠ 0) := by decide
  have hend : (toLatin1 goalEnd).all (· ≠ 0) := by decide
  apply List.takeWhile_eq_self_iff.mpr
  intro b hb
  rw [List.mem_append, List.mem_append] at hb
  rcases hb with (hb | hb) | hb
  · exact List.all_eq_true.mp hstart b hb
  · exact decide_eq_true (home.noNul b hb)
  · exact List.all_eq_true.mp hend b hb

theorem initGoal_length (home : CString) :
    (initGoal home).bytes.length = home.bytes.length + 46 := by
  rw [initGoal_bytes, List.length_append, List.length_append]
  have hstart : (toLatin1 goalStart).length = 35 := rfl
  have hend : (toLatin1 goalEnd).length = 11 := rfl
  omega

theorem initGoal_text (home : CString) :
    (initGoal home).text = goalStart ++ home.text ++ goalEnd := by
  have hstart : ofLatin1 (toLatin1 goalStart) = goalStart := ofLatin1_toLatin1 (by decide)
  have hend : ofLatin1 (toLatin1 goalEnd) = goalEnd := ofLatin1_toLatin1 (by decide)
  unfold CString.text
  rw [initGoal_bytes]
  unfold ofLatin1 at *
  rw [List.map_append, List.map_append, hstart, hend]

/-! ## Every path that is installed is plain -/

/-- The outermost double quotes of the goal are those around the path. -/
theorem goal_quotes {s : Text} {i : Nat} (h : (goalStart ++ s ++ goalEnd)[i]? = some '"') :
    34 ≤ i ∧ i ≤ s.length + 43 := by
  have hstart : ∀ i < 34, goalStart[i]? ≠ some '"' := by decide
  have hend : ∀ i < 11, 9 ≤ i → goalEnd[i]? ≠ some '"' := by decide
  have hlen : goalStart.length = 35 := rfl
  constructor
  · by_contra hi
    rw [List.append_assoc, List.getElem?_append_left (by omega)] at h
    exact hstart i (by omega) h
  · by_contra hi
    rw [List.getElem?_append_right (by rw [List.length_append]; omega), List.length_append] at h
    have hlt : i - (goalStart.length + s.length) < 11 := (List.getElem?_eq_some_iff.mp h).1
    exact hend _ hlt (by omega) h

/-- The string token of the path takes all the room between the outermost quotes, so it has no
escapes. -/
theorem plain_of_reads {g : Grammar} (hg : g.Sound) {s : Text}
    (h : g.readTerm (goalStart ++ s ++ goalEnd) = some (searchPathGoal (libraryOf s))) :
    IsPlainPath s := by
  obtain ⟨raw, hraw, h⟩ := Option.bind_eq_some_iff.mp h
  obtain ⟨toks, htoks, h⟩ := Option.bind_eq_some_iff.mp h
  have hmarks : Marks raw (goalStart ++ s ++ goalEnd) := rawRead_marks (by decide) hraw
  have hstr := hg.strings _ _ (libraryOf s) h (by simp [searchPathGoal, Term.strings,
    Term.stringsList])
  obtain ⟨front, v, rest, rfl, hv⟩ := hg.numbers.tokens_str htoks hstr
  obtain ⟨u, rfl, hu⟩ := getString_bound hv
  obtain ⟨hm, -⟩ | ⟨b, rfl⟩ := hu.ends
  · cases hm
  have hopen := goal_quotes (hmarks front.length (by simp))
  have hclose := goal_quotes (hmarks (front.length + 1 + b.length) (by
    rw [List.getElem?_append_right (by omega), show front.length + 1 + b.length - front.length =
      b.length + 1 by omega, List.getElem?_cons_succ, List.append_assoc,
      List.getElem?_append_right (Nat.le_refl _), Nat.sub_self]
    rfl))
  have hlen : (wideChars (libraryOf s)).length = s.length + 8 := by
    rw [wideChars, List.length_map, libraryOf, List.length_append]
    rfl
  have hle := hu.le
  have hu' : (b ++ ['"']).length + StrMode.pending .text = b.length + 1 := by
    rw [List.length_append]
    rfl
  obtain ⟨hm, -⟩ | ⟨-, b', -, hcodes, hplain⟩ := hu.plain (by omega)
  · cases hm
  · rw [← wideChars_injective hcodes] at hplain
    exact fun c hc => hplain c (List.mem_append_left _ hc)

/-! ## Every plain path is installed -/

/-- The first pass copies a plain text. -/
theorem foldl_plain {s : Text} (h : IsPlainPath s) (out : Text) :
    s.foldl Raw.step ⟨.quoted '"' .text, out, true⟩ =
      ⟨.quoted '"' .text, s.reverse ++ out, true⟩ := by
  induction s generalizing out with
  | nil => rfl
  | cons c s ih =>
    obtain ⟨hc, hs⟩ := List.forall_mem_cons.mp h
    have hstep : Raw.step ⟨.quoted '"' .text, out, true⟩ c =
        ⟨.quoted '"' .text, c :: out, true⟩ := by
      show Raw.quotedText _ '"' c = _
      unfold Raw.quotedText
      rw [if_neg hc.1, if_neg hc.2]
      rfl
    rw [List.foldl_cons, hstep, ih hs, List.reverse_cons, List.append_assoc]
    rfl

theorem rawRead_plain {s : Text} (h : IsPlainPath s) :
    rawRead (goalStart ++ s ++ goalEnd) = some (goalStart ++ s ++ goalEnd ++ [' ', '.', ' ']) := by
  have hstart : goalStart.foldl Raw.step Raw.start =
      ⟨.quoted '"' .text, goalStart.reverse, true⟩ := rfl
  have hend : ∀ out, goalEnd.foldl Raw.step ⟨.quoted '"' .text, out, true⟩ =
      ⟨.next, goalEnd.reverse ++ out, true⟩ := fun _ => rfl
  unfold rawRead
  rw [List.foldl_append, List.foldl_append, hstart, foldl_plain h, hend]
  show some (' ' :: '.' :: ' ' :: (goalEnd.reverse ++
    (s.reverse ++ goalStart.reverse))).reverse = _
  simp

/-- The second pass copies a plain text. -/
theorem getString_plain {s : Text} (h : IsPlainPath s) {rest : Text} (hr : rest.head? ≠ some '"') :
    getString '"' .text (s ++ '"' :: rest) = some (wideChars s, rest) := by
  induction s with
  | nil =>
    cases rest with
    | nil => rfl
    | cons d rest =>
      have hd : d ≠ '"' := fun e => hr (by rw [e]; rfl)
      have hstep : strStep '"' .afterQuote d = .ret := if_neg hd
      show (getString '"' .afterQuote (d :: rest)).map _ = _
      rw [getString, hstep]
      rfl
  | cons c s ih =>
    obtain ⟨hc, hs⟩ := List.forall_mem_cons.mp h
    have hstep : strStep '"' .text c = .go .text [c.toNat] := by
      show textChar '"' [] c = _
      unfold textChar
      rw [if_neg hc.1, if_neg hc.2]
      rfl
    rw [List.cons_append, getString, hstep]
    show (getString _ _ _).map _ = _
    rw [ih hs]
    rfl

/-- The tokens of the goal that is meant. -/
theorem tokens_plain (g : Grammar) {s : Text} (h : IsPlainPath s) (n : Nat) :
    g.tokens (n + 10) [] (goalStart ++ s ++ goalEnd ++ [' ', '.', ' ']) =
      some ((searchPathGoal (libraryOf s)).canonTokens ++ [.fullstop]) := by
  have hpath : goalStart ++ s ++ goalEnd ++ [' ', '.', ' '] =
      goalStart ++ (libraryOf s ++ '"' :: [')', ')', ' ', '.', ' ']) := by
    unfold libraryOf
    simp only [List.append_assoc]
    rfl
  have hlib : IsPlainPath (libraryOf s) := by
    intro c hc
    rcases List.mem_append.mp hc with hc | hc
    · exact h c hc
    · have hplain : IsPlainPath "/library".toList := by decide
      exact hplain c hc
  have hquoted : ∀ b, g.getToken b (" \"".toList ++ (libraryOf s ++ '"' :: ")) . ".toList)) =
      some (.str (wideChars (libraryOf s)), ")) . ".toList) := by
    intro b
    show (getString '"' .text (libraryOf s ++ '"' :: ")) . ".toList)).map _ = _
    rw [getString_plain hlib (by decide)]
    rfl
  rw [hpath]
  refine Grammar.tokens_cons (.functor (wideChars "asserta".toList))
    ("(file_search_path(library, \"".toList ++ _) rfl (by simp) ?_
  refine Grammar.tokens_cons (.punct '(')
    ("file_search_path(library, \"".toList ++ _) rfl (by simp) ?_
  refine Grammar.tokens_cons (.functor (wideChars "file_search_path".toList))
    ("(library, \"".toList ++ _) rfl (by simp) ?_
  refine Grammar.tokens_cons (.punct '(')
    ("library, \"".toList ++ _) rfl (by simp) ?_
  refine Grammar.tokens_cons (.name (wideChars "library".toList))
    (", \"".toList ++ _) rfl (by simp) ?_
  refine Grammar.tokens_cons (.punct ',')
    (" \"".toList ++ _) rfl (by simp) ?_
  refine Grammar.tokens_cons _ _ (hquoted _) (by simp) ?_
  refine Grammar.tokens_cons (.punct ')')
    (") . ".toList) rfl (by simp) ?_
  refine Grammar.tokens_cons (.punct ')')
    (" . ".toList) rfl (by simp) ?_
  rfl

/-- A plain path reads as it is. -/
theorem readTerm_plain {g : Grammar} (hg : g.Sound) (hop : g.isOp "library".toList = false)
    {s : Text} (h : IsPlainPath s) :
    g.readTerm (goalStart ++ s ++ goalEnd) = some (searchPathGoal (libraryOf s)) := by
  have hcanon : (searchPathGoal (libraryOf s)).Canonical g.isOp := by
    refine .compound _ _ [] (.compound _ _ [_] (.atom _ hop) ?_) (by simp)
    intro u hu
    rw [List.mem_singleton.mp hu]
    exact .str _
  have hlen : ∃ n, (goalStart ++ s ++ goalEnd ++ [' ', '.', ' ']).length = n + 10 := by
    refine ⟨(goalStart ++ s ++ goalEnd ++ [' ', '.', ' ']).length - 10, ?_⟩
    have hstart : goalStart.length = 35 := rfl
    simp only [List.length_append]
    omega
  obtain ⟨n, hn⟩ := hlen
  unfold Grammar.readTerm
  rw [rawRead_plain h, Option.bind_eq_bind, Option.bind_some, hn, tokens_plain g h n]
  exact hg.canonical _ hcanon

/-! ## The operation -/

/-- `PL_chars_to_term` is the reader. -/
def World.ReadsWith (w : World) (g : Grammar) : Prop :=
  ∀ text t, g.readTerm (CString.text text) = some t → w.charsToTerm text = .ok t

/-- A path that is installed is what `rolog_init` hands to `call/1`. -/
theorem rologInit_of_installs {g : Grammar} {w : World} (hw : w.ReadsWith g) {home : CString}
    (h : Installs g home) (prc : CString) {s : Session} (hs : s.rologEngine = true) :
    rologInit w home prc s = (do
      api .charsToTerm
      let _ ← plCall w (cstr ['c', 'a', 'l', 'l']) [searchPathGoal (libraryOf home.text)]
      pure (.int [0]) : Cxx SEXP) s := by
  have hparse : w.parse (initGoal home) = done (searchPathGoal (libraryOf home.text)) := by
    unfold World.parse
    rw [hw _ _ h.reads]
  have hfits : ¬ 512 ≤ (initGoal home).bytes.length := by
    have := h.fits
    omega
  unfold rologInit plCallText plCompoundOfText
  rw [Proc.withState_apply, hs]
  simp only [Bool.not_true, Bool.false_eq_true, if_false, hfits, bind_assoc, hparse]
  rfl

/-- The path is installed exactly when it is short and plain. -/
theorem installs_iff {g : Grammar} (hg : g.Sound) (hop : g.isOp "library".toList = false)
    (home : CString) :
    Installs g home ↔ home.bytes.length ≤ 465 ∧ IsPlainPath home.text := by
  constructor
  · intro h
    have hfits := h.fits
    have hreads := h.reads
    rw [initGoal_length] at hfits
    rw [initGoal_text] at hreads
    exact ⟨by omega, plain_of_reads hg hreads⟩
  · intro h
    refine ⟨?_, ?_⟩
    · rw [initGoal_length]
      omega
    · rw [initGoal_text]
      exact readTerm_plain hg hop h.2

/-- A short path without escapes. -/
theorem installs_usr : Installs plainGrammar (cstr "/usr/lib/my R".toList) :=
  (installs_iff plainGrammar_sound rfl _).mpr (by decide)

/-- A path of Windows: the reader knows no escape `\R`. -/
theorem not_installs_windows :
    (cstr "C:\\R".toList).IsAscii ∧ ¬ Installs plainGrammar (cstr "C:\\R".toList) := by
  refine ⟨by decide, fun h => ?_⟩
  have hreads := h.reads
  rw [initGoal_text] at hreads
  exact absurd (plain_of_reads plainGrammar_sound hreads) (by decide)

end Rolog