/-
  Text in a UTF-8 session. R holds a text as the UTF-8 bytes of its code points. The way to
  Prolog reads bytes as Latin-1 and one of the ways back writes UTF-8, so a string survives
  exactly when it is ASCII (`r2plString_utf8_iff`). The raw storage of an atom reads as UTF-8 in
  the same case only (`plAtomChars_eq_wideToNative_iff`).
-/
import Rolog.Decode

namespace Rolog

open Unwind.Outcome

/-- No code point is NUL. -/
def NoNul (s : Text) : Prop := ∀ c ∈ s, c.toNat ≠ 0

instance (s : Text) : Decidable (NoNul s) := List.decidableBAll _ s

/-- The UTF-8 bytes of a text. -/
def utf8 (s : Text) : List UInt8 := s.flatMap String.utf8EncodeChar

@[simp] theorem utf8_cons (c : Char) (s : Text) :
    utf8 (c :: s) = String.utf8EncodeChar c ++ utf8 s := List.flatMap_cons

/-! ## UTF-8 -/

theorem ofNat_byte_ne_zero {n : Nat} (h : 0 < n) (h' : n < 256) : UInt8.ofNat n ≠ 0 := by
  intro e
  have hn := congrArg UInt8.toNat e
  rw [UInt8.toNat_ofNat_of_lt' (by simpa using h')] at hn
  exact Nat.ne_of_gt h hn

theorem utf8EncodeChar_ne_zero {c : Char} (h : c.toNat ≠ 0) :
    ∀ b ∈ String.utf8EncodeChar c, b ≠ 0 := by
  have hpos : 0 < c.val.toNat := Nat.pos_of_ne_zero h
  intro b hb
  unfold String.utf8EncodeChar at hb
  simp only at hb
  split at hb
  · simp only [List.mem_cons, List.not_mem_nil, or_false] at hb
    subst hb
    exact ofNat_byte_ne_zero hpos (by omega)
  · split at hb
    · simp only [List.mem_cons, List.not_mem_nil, or_false] at hb
      rcases hb with rfl | rfl <;> exact ofNat_byte_ne_zero (by omega) (by omega)
    · split at hb
      · simp only [List.mem_cons, List.not_mem_nil, or_false] at hb
        rcases hb with rfl | rfl | rfl <;> exact ofNat_byte_ne_zero (by omega) (by omega)
      · simp only [List.mem_cons, List.not_mem_nil, or_false] at hb
        rcases hb with rfl | rfl | rfl | rfl <;> exact ofNat_byte_ne_zero (by omega) (by omega)

theorem utf8_ne_zero {s : Text} (h : NoNul s) : ∀ b ∈ utf8 s, b ≠ 0 := by
  intro b hb
  obtain ⟨c, hc, hb⟩ := List.mem_flatMap.mp hb
  exact utf8EncodeChar_ne_zero (h c hc) b hb

/-- The wide route gives R the UTF-8 bytes of the whole text. -/
theorem wideToNative_bytes {s : Text} (h : NoNul s) : (wideToNative s).bytes = utf8 s := by
  show (utf8 s).takeWhile (· ≠ 0) = utf8 s
  rw [List.takeWhile_eq_self_iff]
  intro b hb
  simpa using utf8_ne_zero h b hb

theorem utf8_injective {s t : Text} (h : utf8 s = utf8 t) : s = t := by
  have he : s.utf8Encode = t.utf8Encode := congrArg List.toByteArray h
  have hd := congrArg ByteArray.utf8Decode? he
  rw [List.utf8Decode?_utf8Encode, List.utf8Decode?_utf8Encode, Option.some.injEq] at hd
  exact congrArg Array.toList hd

theorem wideToNative_injective {s t : Text} (hs : NoNul s) (ht : NoNul t)
    (h : wideToNative s = wideToNative t) : s = t := by
  apply utf8_injective
  rw [← wideToNative_bytes hs, ← wideToNative_bytes ht, h]

theorem noNul_cutNul (s : Text) : NoNul (cutNul s) := by
  intro c hc
  simpa using List.mem_takeWhile_imp hc

/-- Only the text up to the first NUL reaches R. -/
theorem wideToNative_cutNul (s : Text) : wideToNative (cutNul s) = wideToNative s := by
  apply CString.ext
  rw [wideToNative_bytes (noNul_cutNul s)]
  show utf8 (cutNul s) = (utf8 s).takeWhile (· ≠ 0)
  induction s with
  | nil => rfl
  | cons c s ih =>
    rw [cutNul_cons, utf8_cons]
    by_cases hc : c.toNat = 0
    · have h0 : c = '\x00' := Char.toNat_inj.mp hc
      rw [if_neg fun hne => hne hc, h0]
      rfl
    · have hb : ∀ b ∈ String.utf8EncodeChar c, decide (b ≠ 0) := fun b hb =>
        decide_eq_true (utf8EncodeChar_ne_zero hc b hb)
      rw [if_pos hc, utf8_cons, ih, List.takeWhile_append_of_pos hb]

/-- And it reaches R whole. -/
theorem wideToNative_eq_iff {s t : Text} :
    wideToNative s = wideToNative t ↔ cutNul s = cutNul t := by
  constructor
  · intro h
    rw [← wideToNative_cutNul s, ← wideToNative_cutNul t] at h
    exact wideToNative_injective (noNul_cutNul s) (noNul_cutNul t) h
  · intro h
    rw [← wideToNative_cutNul s, h, wideToNative_cutNul]

/-! ## Lengths -/

theorem utf8Size_eq_one_iff {c : Char} : c.utf8Size = 1 ↔ c.toNat < 128 := by
  constructor
  · intro h
    by_contra hc
    have hc : ¬ c.val.toNat ≤ 127 := fun hle => hc (Nat.lt_succ_of_le hle)
    rw [← String.length_utf8EncodeChar] at h
    unfold String.utf8EncodeChar at h
    simp only [if_neg hc] at h
    split at h
    · cases h
    · split at h <;> cases h
  · intro h
    rw [← String.length_utf8EncodeChar, utf8EncodeChar_ascii h]
    rfl

theorem length_le_utf8 (s : Text) : s.length ≤ (utf8 s).length := by
  induction s with
  | nil => exact Nat.le_refl _
  | cons c s ih =>
    have hc := c.utf8Size_pos
    rw [utf8_cons, List.length_append, String.length_utf8EncodeChar, List.length_cons]
    omega

/-- One byte a character means ASCII. -/
theorem length_utf8_eq_iff {s : Text} : (utf8 s).length = s.length ↔ IsAscii s := by
  induction s with
  | nil => simp [utf8, IsAscii]
  | cons c s ih =>
    have hc := c.utf8Size_pos
    have hs := length_le_utf8 s
    have hcons : IsAscii (c :: s) ↔ c.toNat < 128 ∧ IsAscii s := List.forall_mem_cons
    rw [hcons, ← ih, ← utf8Size_eq_one_iff, utf8_cons, List.length_append,
      String.length_utf8EncodeChar, List.length_cons]
    omega

/-! ## Strings there and back -/

/-- Read as Latin-1, UTF-8 bytes are the text itself exactly when the text is ASCII. -/
theorem ofLatin1_utf8_iff {s : Text} : ofLatin1 (utf8 s) = s ↔ IsAscii s := by
  constructor
  · intro h
    rw [← length_utf8_eq_iff]
    simpa [ofLatin1] using congrArg List.length h
  · intro h
    show ofLatin1 (s.flatMap String.utf8EncodeChar) = s
    rw [flatMap_utf8_ascii h, ofLatin1_toLatin1 h.isLatin1]

/-- An R string `s` with the code points `cs` becomes the Prolog string of these code points, and
that string becomes `s` again, exactly when `cs` is ASCII. -/
theorem r2plString_utf8_iff {cs : Text} {s : CString} (hs : s.bytes = utf8 cs) :
    (r2plString [some s] = .str cs ∧
      ∀ text, r2plString [some s] = .str text → pl2rString text = .str [some s] []) ↔
      IsAscii cs := by
  have htext : s.text = ofLatin1 (utf8 cs) := congrArg ofLatin1 hs
  have hput : r2plString [some s] = .str s.text := rfl
  constructor
  · intro h
    have hcs : s.text = cs := by
      have he := hput.symm.trans h.1
      cases he
      rfl
    rw [← ofLatin1_utf8_iff, ← htext, hcs]
  · intro h
    have hcs : s.text = cs := htext.trans (ofLatin1_utf8_iff.mpr h)
    refine ⟨by rw [hput, hcs], fun text ht => ?_⟩
    have he : s.text = text := by
      rw [hput] at ht
      cases ht
      rfl
    have hascii : s.IsAscii := by
      intro b hb
      have hb' : b ∈ toLatin1 cs := by
        rw [hs, utf8, flatMap_utf8_ascii h] at hb
        exact hb
      obtain ⟨c, hc, rfl⟩ := List.mem_map.mp hb'
      rw [toNat_toUInt8 (Nat.lt_trans (h c hc) (by decide))]
      exact h c hc
    rw [← he, pl2rString, wideToNative_text hascii]

/-- U+00E9 becomes U+00C3 U+00A9. -/
theorem r2plString_utf8_lost :
    (CString.ofBytes [0xC3, 0xA9]).bytes = utf8 ['\u00e9'] ∧
      r2plString [some (.ofBytes [0xC3, 0xA9])] ≠ .str ['\u00e9'] := by
  refine ⟨by rfl, ?_⟩
  simp [r2plString, getCstring, CString.text, CString.ofBytes, ofLatin1]

def accented : Text := ['d', '\u00e9', 'j', '\u00e0', ' ', 'v', 'u']

/-- `accented`, in UTF-8. -/
def accentedBytes : CString := .ofBytes [0x64, 0xC3, 0xA9, 0x6A, 0xC3, 0xA0, 0x20, 0x76, 0x75]

/-- Two of its characters are not ASCII. -/
theorem r2plString_utf8_accented :
    (r2plString [some accentedBytes] = .str accented ∧
      ∀ text, r2plString [some accentedBytes] = .str text →
        pl2rString text = .str [some accentedBytes] []) ↔ IsAscii accented :=
  r2plString_utf8_iff (by rfl)

/-! ## The storage of an atom -/

/-- The C string at the start of wide storage ends within the first character. -/
theorem takeWhile_wcharBytes (c : Char) (s : Text) :
    ((c :: s).flatMap wcharBytes).takeWhile (· ≠ 0) =
      [UInt8.ofNat c.toNat, .ofNat (c.toNat / 256), .ofNat (c.toNat / 65536)].takeWhile
        (· ≠ 0) := by
  rw [List.flatMap_cons]
  unfold wcharBytes
  by_cases h0 : UInt8.ofNat c.toNat = 0
  · simp [h0]
  · by_cases h1 : UInt8.ofNat (c.toNat / 256) = 0
    · simp [h0, h1]
    · by_cases h2 : UInt8.ofNat (c.toNat / 65536) = 0 <;> simp [h0, h1, h2]

section

variable (a b d : UInt8)

theorem takeWhile_three : ([a, b, d].takeWhile (· ≠ 0)).length ≤ 3 :=
  (List.takeWhile_sublist _).length_le

theorem takeWhile_two (h : d = 0) : ([a, b, d].takeWhile (· ≠ 0)).length ≤ 2 := by
  by_cases ha : a = 0
  · simp [ha]
  · by_cases hb : b = 0 <;> simp [ha, hb, h]

theorem takeWhile_one (h : b = 0) : ([a, b, d].takeWhile (· ≠ 0)).length ≤ 1 := by
  by_cases ha : a = 0 <;> simp [ha, h]

theorem takeWhile_second {x y : UInt8} {l : List UInt8}
    (h : [a, b, d].takeWhile (· ≠ 0) = x :: y :: l) : y = b := by
  have hp := List.takeWhile_prefix (· ≠ 0) (l := [a, b, d])
  rw [h] at hp
  obtain ⟨t, ht⟩ := hp
  exact (List.cons.inj (List.cons.inj ht).2).1

end

/-- The bytes of a `wchar_t` do not agree with UTF-8 beyond a last ASCII character. -/
theorem wcharBytes_ne_utf8 {c : Char} {s : Text} (h : c.toNat < 128 → s ≠ []) :
    [UInt8.ofNat c.toNat, .ofNat (c.toNat / 256), .ofNat (c.toNat / 65536)].takeWhile (· ≠ 0) ≠
      utf8 (c :: s) := by
  have hv : c.val.toNat = c.toNat := rfl
  intro e
  have hlen := congrArg List.length e
  rw [utf8_cons, String.utf8EncodeChar] at e hlen
  simp only [hv] at e hlen
  -- by the number of bytes of `c` in UTF-8
  by_cases h1 : c.toNat ≤ 127
  · have hz : c.toNat / 256 = 0 := by omega
    have hs := length_le_utf8 s
    have hpos := List.length_pos_iff.mpr (h (by omega))
    have hone := takeWhile_one (.ofNat c.toNat) (.ofNat (c.toNat / 256))
      (.ofNat (c.toNat / 65536)) (by rw [hz]; rfl)
    rw [hlen, if_pos h1, List.length_append, List.length_singleton] at hone
    omega
  · by_cases h2 : c.toNat ≤ 2047
    · rw [if_neg h1, if_pos h2] at e
      have hb := congrArg UInt8.toNat (takeWhile_second _ _ _ e)
      simp only [UInt8.toNat_ofNat'] at hb
      omega
    · by_cases h3 : c.toNat ≤ 65535
      · have hz : c.toNat / 65536 = 0 := by omega
        have htwo := takeWhile_two (.ofNat c.toNat) (.ofNat (c.toNat / 256))
          (.ofNat (c.toNat / 65536)) (by rw [hz]; rfl)
        rw [hlen, if_neg h1, if_neg h2, if_pos h3, List.length_append] at htwo
        simp at htwo
        omega
      · have hthree := takeWhile_three (.ofNat c.toNat) (.ofNat (c.toNat / 256))
          (.ofNat (c.toNat / 65536))
        rw [hlen, if_neg h1, if_neg h2, if_neg h3, List.length_append] at hthree
        simp at hthree
        omega

/-- Only ASCII storage reads as UTF-8. -/
theorem plAtomChars_eq_wideToNative_iff {s : Text} (h : NoNul s) :
    plAtomChars s = wideToNative s ↔ IsAscii s := by
  constructor
  · intro e
    have hb := congrArg CString.bytes e
    rw [wideToNative_bytes h] at hb
    by_cases hl : s.isLatin1
    · have hcut : cutNul s = s := List.takeWhile_eq_self_iff.mpr fun c hc => decide_eq_true (h c hc)
      have hbytes : (plAtomChars s).bytes = toLatin1 s := by
        unfold plAtomChars
        rw [if_pos hl]
        show (toLatin1 s).takeWhile (· ≠ 0) = toLatin1 s
        rw [takeWhile_toLatin1 hl, hcut]
      rw [← length_utf8_eq_iff, ← hb, hbytes, toLatin1, List.length_map]
    · exfalso
      unfold plAtomChars at hb
      rw [if_neg hl] at hb
      cases s with
      | nil => exact hl rfl
      | cons c s =>
        replace hb : ((c :: s).flatMap wcharBytes).takeWhile (· ≠ 0) = utf8 (c :: s) := hb
        rw [takeWhile_wcharBytes] at hb
        refine wcharBytes_ne_utf8 (fun hc he => hl ?_) hb
        subst he
        simp only [Text.isLatin1, List.all_cons, List.all_nil, Bool.and_true, decide_eq_true_eq]
        omega
  · intro ha
    exact (wideToNative_ascii ha).symm

end Rolog
