/-
  Text on the two sides of the bridge. A Prolog text (the name of an atom or of a functor, a
  string) is a list of code points and may hold NUL. R holds bytes without NUL, and every text
  crosses as a `char *` or a `wchar_t *`, so it ends at its first NUL.

  Three routes lead from Prolog to R: `PL_get_chars` (ISO Latin-1, refuses the rest),
  `PL_atom_chars` (the raw storage of the atom) and `PL_get_wchars` followed by Rcpp's
  conversion of wide characters (UTF-8 session). They agree on ASCII (`plAtomChars_ascii`,
  `wideToNative_ascii`, `plGetChars_ascii`). One route leads back: bytes are read as Latin-1.
-/
import Mathlib.Data.List.TakeWhile

namespace Rolog

/-- A Prolog text, by its code points. -/
abbrev Text := List Char

/-- Every code point is below 128. NUL is one of them. -/
def IsAscii (s : Text) : Prop := ∀ c ∈ s, c.toNat < 128

instance (s : Text) : Decidable (IsAscii s) := List.decidableBAll _ s

/-- Every code point is below 256: Prolog stores such an atom one byte a character. -/
def Text.isLatin1 (s : Text) : Bool := s.all fun c => c.toNat < 256

/-- The part of a text that a NUL-terminated buffer shows. -/
def cutNul (s : Text) : Text := s.takeWhile fun c => c.toNat ≠ 0

/-- R text: the bytes of a CHARSXP or of a symbol's print name, none of them NUL. -/
structure CString where
  bytes : List UInt8
  noNul : ∀ b ∈ bytes, b ≠ 0
  deriving DecidableEq

/-- The C string at the start of a buffer. -/
def CString.ofBytes (bs : List UInt8) : CString where
  bytes := bs.takeWhile (· ≠ 0)
  noNul b hb := by simpa using List.mem_takeWhile_imp hb

/-- Every byte is below 128. -/
def CString.IsAscii (s : CString) : Prop := ∀ b ∈ s.bytes, b.toNat < 128

instance (s : CString) : Decidable s.IsAscii := List.decidableBAll _ s.bytes

@[ext] theorem CString.ext {s t : CString} (h : s.bytes = t.bytes) : s = t := by
  cases s; cases t; simpa using h

/-! ## From R to Prolog -/

/-- Bytes read as ISO Latin-1. -/
def ofLatin1 (bs : List UInt8) : Text := bs.map fun b => Char.ofNat b.toNat

/-- `PL_new_atom(s)`, `PL_put_string_chars(t, s)`: the text up to `strlen(s)`, as Latin-1. -/
def CString.text (s : CString) : Text := ofLatin1 s.bytes

/-! ## From Prolog to R -/

/-- One byte a character (for a Latin-1 text). -/
def toLatin1 (s : Text) : List UInt8 := s.map Char.toUInt8

/-- The four bytes of a `wchar_t`, low byte first. -/
def wcharBytes (c : Char) : List UInt8 :=
  [.ofNat c.toNat, .ofNat (c.toNat / 256), .ofNat (c.toNat / 65536), 0]

/-- `PL_atom_chars`: the storage of the atom read as a `char *`. -/
def plAtomChars (a : Text) : CString :=
  if a.isLatin1 then .ofBytes (toLatin1 a) else .ofBytes (a.flatMap wcharBytes)

/-- `PL_get_chars` on an atom or a string: Latin-1, or failure. -/
def plGetChars (s : Text) : Option CString :=
  if s.isLatin1 then some (.ofBytes (toLatin1 s)) else none

/-- `PL_get_wchars`, then Rcpp's conversion of a `wchar_t *`: UTF-8 up to the first NUL. -/
def wideToNative (s : Text) : CString := .ofBytes (s.flatMap String.utf8EncodeChar)

/-! ## Latin-1 there and back -/

theorem toNat_toUInt8 {c : Char} (h : c.toNat < 256) : c.toUInt8.toNat = c.toNat := by
  simp only [Char.toUInt8, UInt32.toNat_toUInt8]
  exact Nat.mod_eq_of_lt h

theorem ofNat_toUInt8 {c : Char} (h : c.toNat < 256) : Char.ofNat c.toUInt8.toNat = c := by
  rw [toNat_toUInt8 h, Char.ofNat_toNat]

theorem toNat_ofNat_uint8 (b : UInt8) : (Char.ofNat b.toNat).toNat = b.toNat := by
  have hb := b.toNat_lt
  have hv : b.toNat.isValidChar := Or.inl (by omega)
  rw [Char.ofNat, dif_pos hv]
  rfl

theorem toUInt8_ofNat (b : UInt8) : (Char.ofNat b.toNat).toUInt8 = b := by
  have hb := b.toNat_lt
  apply UInt8.toNat_inj.mp
  rw [toNat_toUInt8 (by rw [toNat_ofNat_uint8]; omega), toNat_ofNat_uint8]

theorem toLatin1_ofLatin1 (bs : List UInt8) : toLatin1 (ofLatin1 bs) = bs := by
  simp [toLatin1, ofLatin1, Function.comp_def, toUInt8_ofNat]

theorem ofLatin1_toLatin1 {s : Text} (h : s.isLatin1) : ofLatin1 (toLatin1 s) = s := by
  simp only [Text.isLatin1, List.all_eq_true, decide_eq_true_eq] at h
  simp only [toLatin1, ofLatin1, List.map_map]
  exact (List.map_congr_left fun c hc => ofNat_toUInt8 (h c hc)).trans (List.map_id _)

theorem isLatin1_ofLatin1 (bs : List UInt8) : Text.isLatin1 (ofLatin1 bs) := by
  simp only [Text.isLatin1, ofLatin1, List.all_map, List.all_eq_true, Function.comp_apply,
    decide_eq_true_eq]
  intro b _
  rw [toNat_ofNat_uint8]
  exact b.toNat_lt

/-! ## C strings -/

@[simp] theorem CString.ofBytes_bytes (s : CString) : CString.ofBytes s.bytes = s := by
  ext1
  exact List.takeWhile_eq_self_iff.mpr fun b hb => by simpa using s.noNul b hb

@[simp] theorem isLatin1_text (s : CString) : Text.isLatin1 s.text := isLatin1_ofLatin1 _

/-- A name that came from R goes back unchanged. -/
@[simp] theorem plAtomChars_text (s : CString) : plAtomChars s.text = s := by
  unfold plAtomChars
  rw [if_pos (isLatin1_text s), CString.text, toLatin1_ofLatin1,
    CString.ofBytes_bytes]

@[simp] theorem plGetChars_text (s : CString) : plGetChars s.text = some s := by
  unfold plGetChars
  rw [if_pos (isLatin1_text s), CString.text, toLatin1_ofLatin1,
    CString.ofBytes_bytes]

theorem text_injective {s t : CString} (h : s.text = t.text) : s = t := by
  rw [← plAtomChars_text s, h, plAtomChars_text]

theorem cutNul_cons (c : Char) (s : Text) :
    cutNul (c :: s) = if c.toNat ≠ 0 then c :: cutNul s else [] := by
  by_cases h : c.toNat = 0 <;> simp [cutNul, h]

@[simp] theorem cutNul_cutNul (s : Text) : cutNul (cutNul s) = cutNul s :=
  List.takeWhile_idem

theorem isLatin1_cutNul {s : Text} (h : s.isLatin1) : (cutNul s).isLatin1 := by
  simp only [Text.isLatin1, List.all_eq_true] at h ⊢
  exact fun c hc => h c (List.takeWhile_subset _ hc)

/-- On Latin-1 text the first NUL byte is the first NUL character. -/
theorem takeWhile_toLatin1 : ∀ {s : Text}, s.isLatin1 →
    (toLatin1 s).takeWhile (· ≠ 0) = toLatin1 (cutNul s)
  | [], _ => rfl
  | c :: s, h => by
    simp only [Text.isLatin1, List.all_cons, Bool.and_eq_true, decide_eq_true_eq] at h
    have ih := takeWhile_toLatin1 (s := s) h.2
    have hz : c.toUInt8 = 0 ↔ c.toNat = 0 := by
      rw [← UInt8.toNat_inj, toNat_toUInt8 h.1]
      rfl
    rw [cutNul_cons]
    by_cases hc : c.toNat = 0
    · simp [toLatin1, hz.mpr hc, hc]
    · simpa [toLatin1, hz, hc] using ih

/-- Latin-1 text that crosses as bytes and comes back is cut at its first NUL. -/
theorem text_ofBytes_toLatin1 {s : Text} (h : s.isLatin1) :
    (CString.ofBytes (toLatin1 s)).text = cutNul s := by
  rw [← ofLatin1_toLatin1 (isLatin1_cutNul h), ← takeWhile_toLatin1 h]
  rfl

/-! ## ASCII: the three routes agree -/

theorem IsAscii.isLatin1 {s : Text} (h : IsAscii s) : s.isLatin1 := by
  simp only [Text.isLatin1, List.all_eq_true, decide_eq_true_eq]
  exact fun c hc => Nat.lt_trans (h c hc) (by decide)

theorem utf8EncodeChar_ascii {c : Char} (h : c.toNat < 128) :
    String.utf8EncodeChar c = [c.toUInt8] := by
  apply String.utf8EncodeChar_eq_singleton
  have hle : c.val ≤ 127 := UInt32.le_iff_toNat_le.mpr (Nat.le_of_lt_succ h)
  simp [Char.utf8Size, hle]

theorem flatMap_utf8_ascii {s : Text} (h : IsAscii s) :
    s.flatMap String.utf8EncodeChar = toLatin1 s := by
  induction s with
  | nil => rfl
  | cons c s ih =>
    have hc : c.toNat < 128 := h c List.mem_cons_self
    have hs : IsAscii s := fun d hd => h d (List.mem_cons_of_mem c hd)
    rw [List.flatMap_cons, utf8EncodeChar_ascii hc, ih hs]
    rfl

theorem plAtomChars_ascii {s : Text} (h : IsAscii s) :
    plAtomChars s = .ofBytes (toLatin1 s) := if_pos h.isLatin1

theorem plGetChars_ascii {s : Text} (h : IsAscii s) : plGetChars s = some (plAtomChars s) := by
  unfold plGetChars
  rw [if_pos h.isLatin1, plAtomChars_ascii h]

theorem wideToNative_ascii {s : Text} (h : IsAscii s) : wideToNative s = plAtomChars s := by
  unfold wideToNative
  rw [flatMap_utf8_ascii h, plAtomChars_ascii h]

/-- ASCII text comes back from R cut at its first NUL, and otherwise unchanged. -/
theorem text_plAtomChars {s : Text} (h : IsAscii s) : (plAtomChars s).text = cutNul s := by
  rw [plAtomChars_ascii h, text_ofBytes_toLatin1 h.isLatin1]

theorem CString.IsAscii.text {s : CString} (h : s.IsAscii) : Rolog.IsAscii s.text := by
  intro c hc
  obtain ⟨b, hb, rfl⟩ := List.mem_map.mp hc
  rw [toNat_ofNat_uint8]
  exact h b hb

/-- An ASCII string that came from R goes back unchanged by the wide route. -/
theorem wideToNative_text {s : CString} (h : s.IsAscii) : wideToNative s.text = s := by
  rw [wideToNative_ascii h.text, plAtomChars_text]

/-- The text comes back from R as it was. -/
def Faithful (s : Text) : Prop := (plAtomChars s).text = s

instance (s : Text) : Decidable (Faithful s) := inferInstanceAs (Decidable (_ = _))

/-- For ASCII text this says that there is no NUL in it. -/
theorem faithful_iff {s : Text} (h : IsAscii s) : Faithful s ↔ ∀ c ∈ s, c.toNat ≠ 0 := by
  unfold Faithful
  rw [text_plAtomChars h, cutNul, List.takeWhile_eq_self_iff]
  simp

end Rolog
