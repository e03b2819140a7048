/-
  Operators with which written terms read back (`Regular`), as those after the boot do
  (`regular_systemOperators`): what the parser makes of their names, and where their terms may
  stand.
-/
import Rolog.Spelling

namespace Rolog

/-! ## Regular operators -/

/-- ASCII without NUL. -/
def IsAsciiString (s : Text) : Prop := ∀ c ∈ s, c.toNat ≠ 0 ∧ c.toNat < 128

instance (s : Text) : Decidable (IsAsciiString s) := List.decidableBAll _ s

/-- Operators with which terms read back. Brackets are no operators, the comma and the bar bind
least, a term of priority 1200 is no operand, and an operand on the left is not taken by the
operator in front of it. -/
structure Operators.Regular (ops : Operators) : Prop where
  unquoted : ∀ a, IsAsciiString a → ops.unquotedAtom (wideChars a) = decide (atomType a ≠ .quote)
  nil : Expr.Plain ops .nil
  curl : Expr.Plain ops (.text curl)
  comma : ∀ f type pri, f = [','] ∨ f = ['|'] →
    ops.current .opInfix (.text (wideChars f)) = some (type, pri) → 999 < pri
  operand : ∀ kind a type pri, ops.current kind a = some (type, pri) →
    type.leftPri pri < 1200 ∧ type.rightPri pri < 1200
  separate : ∀ kind kind' a a' type type' pri, ops.current kind a = some (type, pri) →
    ops.current kind' a' = some (type', pri) → type.rightPri pri = pri → type'.leftPri pri < pri
  kinds : ∀ a type pri, ops.current .opPostfix a = some (type, pri) →
    ops.current .opInfix a = none
  dot : ∀ kind type pri, ops.current kind (.text (wideChars ['.'])) = some (type, pri) →
    kind = .opInfix

/-- An operator of the table. -/
theorem current_ofTables {tables : List (List OpDef)} {unquotedAtom : List Nat → Bool}
    {kind : OpKind} {a : AtomName} {type : OpType} {pri : Nat}
    (h : (Operators.ofTables tables unquotedAtom).current kind a = some (type, pri)) :
    ∃ op ∈ tables.flatten, op.name = a ∧ op.type = type ∧ op.priority = pri ∧
      op.type.kind = kind := by
  obtain ⟨op, hop, h⟩ := Option.bind_eq_some_iff.mp h
  have hfound := List.find?_some hop
  obtain ⟨hname, hkind⟩ := of_decide_eq_true hfound
  by_cases hpos : 0 < op.priority
  · rw [if_pos hpos] at h
    cases h
    exact ⟨op, List.mem_of_find?_eq_some hop, hname, rfl, rfl, hkind⟩
  · rw [if_neg hpos] at h
    cases h

/-- All operators after the boot. -/
def bootTable : List OpDef := userTable ++ systemTable

theorem mem_bootTable {kind : OpKind} {a : AtomName} {type : OpType} {pri : Nat}
    (h : systemOperators.current kind a = some (type, pri)) :
    ∃ op ∈ bootTable, op.name = a ∧ op.type = type ∧ op.priority = pri ∧ op.type.kind = kind := by
  obtain ⟨op, hop, h⟩ := current_ofTables h
  exact ⟨op, by simpa [bootTable] using hop, h⟩

theorem plain_of_not_mem {a : AtomName} (h : ∀ op ∈ bootTable, op.name ≠ a) :
    Expr.Plain systemOperators a := by
  intro kind
  cases hc : systemOperators.current kind a with
  | none => rfl
  | some p =>
    obtain ⟨op, hop, hname, -⟩ := @mem_bootTable kind a p.1 p.2 hc
    exact absurd hname (h op hop)

/-- The priorities of operators that take their own priority on the right. -/
theorem right_bootTable : ∀ op ∈ bootTable, op.type.rightPri op.priority = op.priority →
    op.priority ∈ [200, 600, 900, 1000, 1050, 1100, 1105] := by decide

theorem left_bootTable : ∀ op ∈ bootTable, op.type.leftPri op.priority = op.priority →
    op.priority ∈ [100, 400, 500] := by decide

theorem OpType.leftPri_le (type : OpType) (pri : Nat) : type.leftPri pri ≤ pri := by
  cases type with
  | xf | xfx | xfy => exact Nat.sub_le pri 1
  | yf | yfx => exact Nat.le_refl pri
  | fx | fy => exact Nat.zero_le pri

theorem map_ofNat_wideChars (a : Text) : (wideChars a).map Char.ofNat = a := by
  rw [wideChars, List.map_map]
  exact (List.map_congr_left fun c _ => Char.ofNat_toNat c).trans (List.map_id a)

theorem current_postfix_system (a : AtomName) : systemOperators.current .opPostfix a = none := by
  have hnone : ∀ op ∈ bootTable, op.type.kind ≠ .opPostfix := by decide
  cases hc : systemOperators.current .opPostfix a with
  | none => rfl
  | some o =>
    obtain ⟨op, hop, -, -, -, hkind⟩ := mem_bootTable hc
    exact absurd hkind (hnone op hop)

theorem regular_systemOperators : systemOperators.Regular where
  unquoted a _ := by
    show decide (atomType ((wideChars a).map Char.ofNat) ≠ .quote) = _
    rw [map_ofNat_wideChars]
  nil := plain_of_not_mem (by decide)
  curl := plain_of_not_mem (by decide)
  comma f type pri hf h := by
    have hcomma : ∀ op ∈ bootTable, op.name = .text (wideChars [',']) ∨
        op.name = .text (wideChars ['|']) → 999 < op.priority := by decide
    obtain ⟨op, hop, hname, -, rfl, -⟩ := mem_bootTable h
    refine hcomma op hop ?_
    rcases hf with rfl | rfl
    · exact .inl hname
    · exact .inr hname
  operand kind a type pri h := by
    have hoperand : ∀ op ∈ bootTable, op.type.leftPri op.priority < 1200 ∧
        op.type.rightPri op.priority < 1200 := by decide
    obtain ⟨op, hop, -, rfl, rfl, -⟩ := mem_bootTable h
    exact hoperand op hop
  separate kind kind' a a' type type' pri h h' hright := by
    obtain ⟨op, hop, -, rfl, rfl, -⟩ := mem_bootTable h
    obtain ⟨op', hop', -, rfl, hpri, -⟩ := mem_bootTable h'
    have hr := right_bootTable op hop hright
    refine Nat.lt_of_le_of_ne (op'.type.leftPri_le _) fun hleft => ?_
    rw [← hpri] at hleft hr
    have hl := left_bootTable op' hop' hleft
    have hno : ∀ n ∈ [200, 600, 900, 1000, 1050, 1100, 1105], n ∉ [100, 400, 500] := by decide
    exact hno _ hr hl
  kinds a type pri h := by
    rw [current_postfix_system] at h
    cases h
  dot kind type pri h := by
    have hdot : ∀ op ∈ bootTable, op.name = .text (wideChars ['.']) →
        op.type.kind = .opInfix := by decide
    obtain ⟨op, hop, hname, -, -, rfl⟩ := mem_bootTable h
    exact hdot op hop hname

/-! ## Places -/

variable {ops : Operators}

/-- The tokens that end a term of priority `prec`: brackets, and commas and bars up to 999. -/
def Stops (stop : ReadToken → Bool) (prec : Nat) : Prop :=
  ∀ token, stop token = true → (token = .fullstop ∨ ∃ c, token = .punct c) ∧
    (999 < prec → token ≠ .punct ',' ∧ token ≠ .punct '|')

/-- No operator of a term of priority `prec` takes its left operand from an operator of priority
`limit` in front. -/
def Sits (ops : Operators) (limit prec : Nat) : Prop :=
  ∀ kind a type pri, ops.current kind a = some (type, pri) → pri ≤ prec →
    type.leftPri pri < limit

theorem Stops.mono {stop : ReadToken → Bool} {prec prec' : Nat} (h : Stops stop prec)
    (hle : prec' ≤ prec) : Stops stop prec' :=
  fun token ht => ⟨(h token ht).1, fun hlt => (h token ht).2 (Nat.lt_of_lt_of_le hlt hle)⟩

theorem Sits.mono {limit prec prec' : Nat} (h : Sits ops limit prec) (hle : prec' ≤ prec) :
    Sits ops limit prec' :=
  fun kind a type pri hc hp => h kind a type pri hc (Nat.le_trans hp hle)

theorem sits_maxPri (prec : Nat) : Sits ops maxPri prec := by
  intro kind a type pri hc _
  have hrange := (ops.range kind a type pri hc).2
  have hleft := type.leftPri_le pri
  unfold maxPri
  omega

/-- The left operand of an operator that itself may stand there. -/
theorem Sits.left {limit prec : Nat} {kind : OpKind} {a : AtomName} {type : OpType} {pri : Nat}
    (h : Sits ops limit prec) (hc : ops.current kind a = some (type, pri)) (hp : pri ≤ prec) :
    Sits ops limit (type.leftPri pri) := by
  intro kind' a' type' pri' _ hp'
  have hlimit := h kind a type pri hc hp
  have hleft := type'.leftPri_le pri'
  omega

/-- The right operand of an operator. -/
theorem Operators.Regular.sits (hops : ops.Regular) {kind : OpKind} {a : AtomName}
    {type : OpType} {pri : Nat} (hc : ops.current kind a = some (type, pri)) :
    Sits ops pri (type.rightPri pri) := by
  intro kind' a' type' pri' hc' hp'
  have hright := type.rightPri_le pri
  have hleft := type'.leftPri_le pri'
  rcases Nat.lt_or_ge pri' pri with hlt | hge
  · omega
  · obtain rfl : pri' = pri := Nat.le_antisymm (Nat.le_trans hp' hright) hge
    exact hops.separate _ _ _ _ _ _ _ hc hc' (Nat.le_antisymm hright hp')

/-! ## Names -/

/-- The operator of this name. -/
def opEntry (f : Text) (kind : OpKind) (type : OpType) (pri : Nat) : OpEntry where
  atom := .text (wideChars f)
  kind := kind
  leftPri := type.leftPri pri
  rightPri := type.rightPri pri
  opPri := pri

/-- The name is written with quotes. -/
def isQuoted (a : Text) : Bool := atomType a = .quote ∨ atomType a = .fullstop

theorem eq_of_fullstop {a : Text} (h : atomType a = .fullstop) : a = ['.'] := by
  cases a with
  | nil => cases h
  | cons x u =>
    simp only [atomType] at h
    split_ifs at h with _ _ _ hdot
    obtain ⟨rfl, rfl⟩ := hdot
    rfl

theorem ofName_wideChars {a : Text} (h : atomType a ≠ .quote) :
    AtomName.ofName (wideChars a) = .text (wideChars a) := by
  refine if_neg fun he => h ?_
  rw [wideChars_injective he]
  decide

/-- The four tokens that a name can make. -/
theorem tokenOf_cases (a rest : Text) :
    tokenOf a rest = ReadToken.ofName (isQuoted a) (wideChars a) ∨
      rest.head? = some '(' ∧ tokenOf a rest = .functor (wideChars a) ∨
      rest.head? = some '\x7b' ∧ tokenOf a rest = .dict (wideChars a) := by
  have hname : ∀ q, nameToken (ReadToken.ofName q) (wideChars a) rest =
      ReadToken.ofName q (wideChars a) ∨
      rest.head? = some '(' ∧ nameToken (ReadToken.ofName q) (wideChars a) rest =
        .functor (wideChars a) ∨
      rest.head? = some '\x7b' ∧ nameToken (ReadToken.ofName q) (wideChars a) rest =
        .dict (wideChars a) := by
    intro q
    unfold nameToken
    by_cases hopen : rest.head? = some '('
    · exact .inr (.inl ⟨hopen, if_pos hopen⟩)
    · rw [if_neg hopen]
      by_cases hbrace : rest.head? = some '\x7b'
      · exact .inr (.inr ⟨hbrace, if_pos hbrace⟩)
      · exact .inl (if_neg hbrace)
  have hsolo : (if rest.head? = some '(' then ReadToken.functor (wideChars a)
      else .name (wideChars a)) = ReadToken.ofName false (wideChars a) ∨
      rest.head? = some '(' ∧ (if rest.head? = some '(' then ReadToken.functor (wideChars a)
        else .name (wideChars a)) = .functor (wideChars a) := by
    by_cases hopen : rest.head? = some '('
    · exact .inr ⟨hopen, if_pos hopen⟩
    · exact .inl (if_neg hopen)
  unfold tokenOf isQuoted
  cases atomType a with
  | lower | symbol => exact hname false
  | solo | special => exact hsolo.imp id .inl
  | quote | fullstop => exact hname true

theorem tokenOf_congr (a : Text) {rest rest' : Text} (h : rest.head? = rest'.head?) :
    tokenOf a rest = tokenOf a rest' := by
  unfold tokenOf nameToken
  rw [h]

/-- In front of a parenthesis every name is a functor. -/
theorem tokenOf_functor (a rest : Text) : tokenOf a ('(' :: rest) = .functor (wideChars a) := by
  unfold tokenOf nameToken
  cases atomType a <;> rfl

/-- Where no parenthesis is behind, the token is the name. -/
theorem tokenOf_name {a rest : Text} (h : ∀ c ∈ rest.head?, c ≠ '(' ∧ c ≠ '\x7b') :
    tokenOf a rest = ReadToken.ofName (isQuoted a) (wideChars a) := by
  rcases tokenOf_cases a rest with ht | ⟨hopen, -⟩ | ⟨hbrace, -⟩
  · exact ht
  · exact absurd rfl (h _ hopen).1
  · exact absurd rfl (h _ hbrace).2

theorem nameToken'_ofName (a : Text) :
    nameToken' (ReadToken.ofName (isQuoted a) (wideChars a)) = { atom := .text (wideChars a) } := by
  by_cases h : isQuoted a = true
  · rw [h]
    rfl
  · have hne : atomType a ≠ .quote := fun he => h (by simp [isQuoted, he])
    rw [Bool.not_eq_true] at h
    rw [h]
    show ({ atom := AtomName.ofName (wideChars a) } : OpEntry) = _
    rw [ofName_wideChars hne]

theorem nameToken'_tokenOf (a rest : Text) :
    nameToken' (tokenOf a rest) = { atom := .text (wideChars a) } := by
  rcases tokenOf_cases a rest with h | ⟨-, h⟩ | ⟨-, h⟩
  · rw [h, nameToken'_ofName]
  · rw [h]
    rfl
  · rw [h]
    rfl

theorem isNameToken_ofName (hops : ops.Regular) {a : Text} (ha : IsAsciiString a)
    (hdot : a ≠ ['.']) (b : Bool) :
    isNameToken ops b (ReadToken.ofName (isQuoted a) (wideChars a)) = .ok true := by
  by_cases h : isQuoted a = true
  · have hquote : atomType a = .quote := (of_decide_eq_true h).resolve_right fun hstop =>
      hdot (eq_of_fullstop hstop)
    rw [h]
    show Except.ok (!ops.unquotedAtom (wideChars a)) = _
    rw [hops.unquoted a ha, hquote]
    rfl
  · rw [Bool.not_eq_true] at h
    rw [h]
    rfl

/-- A name that is an operator. -/
theorem isOperator_ofName (hops : ops.Regular) {f : Text} (hf : IsAsciiString f)
    (hdot : f ≠ ['.']) {kind : OpKind} {type : OpType} {pri : Nat}
    (hc : ops.current kind (.text (wideChars f)) = some (type, pri)) (b : Bool) :
    Expr.IsOperator ops b kind (ReadToken.ofName (isQuoted f) (wideChars f))
      (opEntry f kind type pri) := by
  refine ⟨isNameToken_ofName hops hf hdot b, ?_, rfl⟩
  unfold Expr.entry isOp
  rw [nameToken'_ofName, hc]
  rfl

/-- Where an operator must follow, a parenthesis may be behind its name. -/
theorem isOperator_tokenOf (hops : ops.Regular) {f : Text} (hf : IsAsciiString f)
    (hdot : f ≠ ['.']) {kind : OpKind} {type : OpType} {pri : Nat}
    (hc : ops.current kind (.text (wideChars f)) = some (type, pri)) (rest : Text) :
    Expr.IsOperator ops true kind (tokenOf f rest) (opEntry f kind type pri) := by
  refine ⟨?_, ?_, rfl⟩
  · rcases tokenOf_cases f rest with ht | ⟨-, ht⟩ | ⟨-, ht⟩
    · rw [ht]
      exact isNameToken_ofName hops hf hdot true
    · rw [ht]
      rfl
    · rw [ht]
      rfl
  · unfold Expr.entry isOp
    rw [nameToken'_tokenOf, hc]
    rfl

/-- The comma and the bar as operators. -/
theorem isOperator_punct {x : Char} (hx : x = ',' ∨ x = '|') {type : OpType} {pri : Nat}
    (hc : ops.current .opInfix (.text (wideChars [x])) = some (type, pri)) :
    Expr.IsOperator ops true .opInfix (.punct x) (opEntry [x] .opInfix type pri) := by
  have hname : nameToken' (.punct x) = { atom := .text (wideChars [x]) } := by
    rcases hx with rfl | rfl <;> rfl
  refine ⟨?_, ?_, rfl⟩
  · rcases hx with rfl | rfl <;> rfl
  · unfold Expr.entry isOp
    rw [hname, hc]
    rfl

end Rolog
