/-!
# Quoted text

A string literal is kept as written (`Piece`): characters, and the 16-bit units of `\u` escapes.
Decoding joins a leading surrogate unit with the trailing one right after it and refuses every other
surrogate, so a literal can be well formed and still name no text. Writing escapes the quote, the
backslash and the characters below the space; reading what was written gives one piece a character
(`readPieces_escape`), and those pieces decode to the text (`decode_map_written`).
-/

set_option autoImplicit false

namespace AgentAtlas.Json

/-- A part of a string literal. -/
inductive Piece where
  /-- A character, written itself or as a two-character escape. -/
  | plain (c : Char)
  /-- The unit of a `\u` escape. -/
  | unit (code : Nat)
  deriving DecidableEq, Repr

/-! ## Reading -/

/-- The value of a hexadecimal digit. -/
def hexValue? (c : Char) : Option Nat :=
  if '0' ≤ c ∧ c ≤ '9' then some (c.toNat - '0'.toNat)
  else if 'a' ≤ c ∧ c ≤ 'f' then some (c.toNat - 'a'.toNat + 10)
  else if 'A' ≤ c ∧ c ≤ 'F' then some (c.toNat - 'A'.toNat + 10)
  else none

/-- The unit which four hexadecimal digits write. -/
def unit? (a b c d : Char) : Option Nat := do
  return ((← hexValue? a) * 16 + (← hexValue? b)) * 256 + (← hexValue? c) * 16 + (← hexValue? d)

/-- The character of a two-character escape. -/
def escaped? : Char → Option Char
  | '"' => some '"'
  | '\\' => some '\\'
  | '/' => some '/'
  | 'b' => some '\x08'
  | 'f' => some '\x0C'
  | 'n' => some '\n'
  | 'r' => some '\r'
  | 't' => some '\t'
  | _ => none

/-- The pieces up to the closing quote, and the text after it. A character below the space must be
escaped. -/
def readPieces : List Char → Option (List Piece × List Char)
  | [] => none
  | '"' :: r => some ([], r)
  | '\\' :: 'u' :: a :: b :: c :: d :: r => do
    let code ← unit? a b c d
    let (pieces, rest) ← readPieces r
    return (.unit code :: pieces, rest)
  | '\\' :: e :: r => do
    let c ← escaped? e
    let (pieces, rest) ← readPieces r
    return (.plain c :: pieces, rest)
  | c :: r =>
    if c.toNat < 0x20 then none
    else do
      let (pieces, rest) ← readPieces r
      return (.plain c :: pieces, rest)

/-- A unit which starts a pair. -/
def isLeading (code : Nat) : Bool := 0xD800 ≤ code && code < 0xDC00

/-- A unit which ends a pair. -/
def isTrailing (code : Nat) : Bool := 0xDC00 ≤ code && code < 0xE000

/-- The character of a pair of units. -/
def joined (leading trailing : Nat) : Char :=
  Char.ofNat (0x10000 + (leading - 0xD800) * 0x400 + (trailing - 0xDC00))

/-- The text of a literal, if every surrogate unit has its partner. -/
def decode : List Piece → Option (List Char)
  | [] => some []
  | .plain c :: r => (decode r).map (c :: ·)
  | .unit u :: .unit v :: r =>
    if isLeading u then if isTrailing v then (decode r).map (joined u v :: ·) else none
    else if isTrailing u then none
    else (decode (.unit v :: r)).map (Char.ofNat u :: ·)
  | .unit u :: r =>
    if isLeading u || isTrailing u then none else (decode r).map (Char.ofNat u :: ·)

/-- Reading takes at least the closing quote. -/
theorem length_of_readPieces {s rest : List Char} {pieces : List Piece}
    (h : readPieces s = some (pieces, rest)) : rest.length < s.length := by
  fun_induction readPieces s generalizing pieces with
  | case1 => cases h
  | case2 r => cases h; simp
  | case3 a b c d r ih =>
    simp only [bind, Option.bind_eq_some_iff, Prod.exists] at h
    obtain ⟨code, -, ps, r', hr, h⟩ := h
    cases h
    have := ih hr
    simp only [List.length_cons]
    omega
  | case4 e r _ ih =>
    simp only [bind, Option.bind_eq_some_iff, Prod.exists] at h
    obtain ⟨c, -, ps, r', hr, h⟩ := h
    cases h
    have := ih hr
    simp only [List.length_cons]
    omega
  | case5 => cases h
  | case6 c r _ _ _ _ ih =>
    simp only [bind, Option.bind_eq_some_iff, Prod.exists] at h
    obtain ⟨ps, r', hr, h⟩ := h
    cases h
    have := ih hr
    simp only [List.length_cons]
    omega

/-! ## Writing -/

/-- The hexadecimal digit of a value below sixteen, in lower case. -/
def hexDigit (n : Nat) : Char := Nat.digitChar n

/-- A character as it stands in a literal. -/
def escape (c : Char) : List Char :=
  match c with
  | '"' => ['\\', '"']
  | '\\' => ['\\', '\\']
  | '\x08' => ['\\', 'b']
  | '\x0C' => ['\\', 'f']
  | '\n' => ['\\', 'n']
  | '\r' => ['\\', 'r']
  | '\t' => ['\\', 't']
  | c =>
    if c.toNat < 0x20 then ['\\', 'u', '0', '0', hexDigit (c.toNat / 16), hexDigit (c.toNat % 16)]
    else [c]

/-- A text as a literal, quotes included. -/
def quote (s : List Char) : List Char := '"' :: s.flatMap escape ++ ['"']

/-- The piece which a written character reads as. -/
def written (c : Char) : Piece :=
  if c.toNat < 0x20 ∧ c ∉ ['\x08', '\x0C', '\n', '\r', '\t'] then .unit c.toNat else .plain c

theorem readPieces_plain {c : Char} (hq : c ≠ '"') (hb : c ≠ '\\') (hc : ¬ c.toNat < 0x20)
    (r : List Char) :
    readPieces (c :: r) = (readPieces r).map fun p => (.plain c :: p.1, p.2) := by
  rw [readPieces.eq_def]
  split
  · simp_all
  · simp_all
  · simp_all
  · simp_all
  · rename_i heq
    obtain ⟨rfl, rfl⟩ := heq
    rw [if_neg hc]
    cases readPieces r <;> rfl

theorem readPieces_unit (a b c d : Char) (r : List Char) {code : Nat}
    (h : unit? a b c d = some code) :
    readPieces ('\\' :: 'u' :: a :: b :: c :: d :: r) =
      (readPieces r).map fun p => (.unit code :: p.1, p.2) := by
  rw [readPieces, h]
  cases readPieces r <;> rfl

theorem readPieces_escaped {e c : Char} (h : escaped? e = some c) (r : List Char) :
    readPieces ('\\' :: e :: r) = (readPieces r).map fun p => (.plain c :: p.1, p.2) := by
  have hu : e ≠ 'u' := by rintro rfl; cases h
  rw [readPieces.eq_def]
  split
  · simp_all
  · simp_all
  · simp_all
  · rename_i heq
    obtain ⟨-, rfl, rfl⟩ := heq
    rw [h]
    cases readPieces r <;> rfl
  · rename_i hne heq
    obtain ⟨rfl, rfl⟩ := heq
    exact absurd rfl (hne e r rfl)

/-- The units of the characters below the space. -/
theorem unit?_of_lt : ∀ n, n < 0x20 →
    unit? '0' '0' (hexDigit (n / 16)) (hexDigit (n % 16)) = some n := by
  decide

/-- A written character reads as one piece. -/
theorem readPieces_escape (c : Char) (r : List Char) :
    readPieces (escape c ++ r) = (readPieces r).map fun p => (written c :: p.1, p.2) := by
  unfold escape
  split
  · exact readPieces_escaped rfl r
  · exact readPieces_escaped rfl r
  · exact readPieces_escaped rfl r
  · exact readPieces_escaped rfl r
  · exact readPieces_escaped rfl r
  · exact readPieces_escaped rfl r
  · exact readPieces_escaped rfl r
  · rename_i hq hb h₁ h₂ h₃ h₄ h₅
    split
    · rename_i hc
      have hw : written c = .unit c.toNat :=
        if_pos ⟨hc, by simpa using ⟨fun e => h₁ e, fun e => h₂ e, fun e => h₃ e, fun e => h₄ e,
          fun e => h₅ e⟩⟩
      rw [hw]
      exact readPieces_unit _ _ _ _ r (unit?_of_lt _ hc)
    · rename_i hc
      have hw : written c = .plain c := by simp [written, hc]
      rw [hw]
      exact readPieces_plain hq hb hc r

/-- A written text reads as one piece a character. -/
theorem readPieces_quote (s rest : List Char) :
    readPieces (s.flatMap escape ++ '"' :: rest) = some (s.map written, rest) := by
  induction s with
  | nil => simp [readPieces]
  | cons c r ih =>
    rw [List.flatMap_cons, List.append_assoc, readPieces_escape, ih]
    rfl

/-- The pieces of a written text decode to it. -/
theorem decode_map_written (s : List Char) : decode (s.map written) = some s := by
  induction s with
  | nil => rfl
  | cons c r ih =>
    rw [List.map_cons]
    by_cases h : c.toNat < 0x20 ∧ c ∉ ['\x08', '\x0C', '\n', '\r', '\t']
    · have hw : written c = .unit c.toNat := if_pos h
      have hl : isLeading c.toNat = false := by simp [isLeading]; omega
      have ht : isTrailing c.toNat = false := by simp [isTrailing]; omega
      rw [hw]
      cases hr : r.map written with
      | nil => rw [hr] at ih; simp [decode, hl, ht, ← Option.some.inj ih]
      | cons p ps =>
        rw [hr] at ih
        cases p with
        | plain d => rw [decode]; simp [hl, ht, ih]; simp
        | unit v => rw [decode]; simp [hl, ht, ih]
    · have hw : written c = .plain c := if_neg h
      rw [hw, decode, ih]
      rfl

end AgentAtlas.Json
