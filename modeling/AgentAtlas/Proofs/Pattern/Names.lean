import AgentAtlas.Proofs.Pattern.Slots

/-!
# Patterns of names

The tokens of a name fall into segments: a maximal run of digits, or another token. The parts of the
pattern of a name are those of its segments between the anchors (`parts_ofName`). A pattern of a
name never contains the text of a slot, since every parenthesis in it stands behind a backslash and
no backslash stands before a `d` (`not_slot_infix_ofName`). Tokens can be read back from a pattern
(`detoken_ofTokens`) and with them the name, so different names have different patterns
(`ofName_uniquely_decodable`).
-/

set_option autoImplicit false

namespace AgentAtlas

/-- The digits of a code are hexadecimal. -/
def Glob.Token.WellFormed : Token → Prop
  | code high low => isHexDigit high = true ∧ isHexDigit low = true
  | _ => True

/-- The digit which a token stands for. -/
def Glob.Token.digit? : Token → Option Char
  | literal c => if c.isDigit then some c else none
  | _ => none

/-- The tokens of a name are well formed. -/
theorem Glob.wellFormed_tokens (name : List Char) : ∀ t ∈ tokens name, t.WellFormed := by
  fun_induction tokens name <;> simp_all [Token.WellFormed]

namespace Pattern

open Glob (Token)

/-- A part of a name: a token, or a run of digits. -/
inductive Segment where
  | token (t : Token)
  | run (digits : List Char)
  deriving DecidableEq, Repr

/-- The parts of a segment's expression. -/
def Segment.parts : Segment → List Part
  | token t => (ofToken t).map .fixed
  | run digits => [.run digits]

/-- Put a digit in front: into the run that starts there, or as a run of its own. -/
def consRun (c : Char) : List Segment → List Segment
  | .run digits :: segs => .run (c :: digits) :: segs
  | segs => .run [c] :: segs

/-- The segments of tokens. -/
def segments : List Token → List Segment
  | [] => []
  | t :: ts =>
    match t.digit? with
    | some c => consRun c (segments ts)
    | none => .token t :: segments ts

/-- The parts of segments with the closing anchor. -/
def body (segs : List Segment) : List Part := segs.flatMap Segment.parts ++ [.fixed '$']

/-- The parts of segments between the anchors. -/
def frame (segs : List Segment) : List Part := .fixed '^' :: body segs

@[simp] theorem body_nil : body [] = [.fixed '$'] := rfl

@[simp] theorem body_cons (seg : Segment) (segs : List Segment) :
    body (seg :: segs) = seg.parts ++ body segs := by
  simp [body]

/-! ## Scanning tokens -/

/-- No special character is a digit, a letter of an escape or a line feed. -/
theorem special_facts : ∀ c ∈ special, c.isDigit = false ∧ c ≠ '\n' ∧ c ≠ 'x' ∧ c ≠ 'd' := by
  simp [special]

theorem escape_of_special {c : Char} (h : c ∈ special) : escape c = ['\\', c] := by
  rw [escape, if_pos (List.contains_iff_mem.2 h)]

theorem escape_of_not_special {c : Char} (h : c ∉ special) : escape c = [c] := by
  rw [escape, if_neg (by simpa using h)]

theorem ne_of_not_special {c d : Char} (h : c ∉ special) (hd : d ∈ special) : c ≠ d := by
  rintro rfl
  exact h hd

theorem escape_of_isDigit {c : Char} (h : c.isDigit = true) : escape c = [c] := by
  apply escape_of_not_special
  intro hs
  rw [(special_facts c hs).1] at h
  cases h

theorem escapeLength_cons {c : Char} (hn : c ≠ '\n') (hx : c ≠ 'x') (r : List Char) :
    escapeLength (c :: r) = 1 := by
  unfold escapeLength
  split <;> simp_all

theorem partsFrom_plain {c : Char} (hb : c ≠ '\\') (hd : c.isDigit = false) (r : List Char) :
    partsFrom 0 (c :: r) = .fixed c :: partsFrom 0 r := by
  rw [partsFrom, if_neg hb, hd]
  rfl

/-- The parts of a token's expression: a digit joins a run, and anything else is fixed. -/
theorem partsFrom_ofToken {t : Token} (ht : t.WellFormed) (r : List Char) :
    partsFrom 0 (ofToken t ++ r) =
      match t.digit? with
      | some c => consDigit c (partsFrom 0 r)
      | none => (ofToken t).map .fixed ++ partsFrom 0 r := by
  cases t with
  | any =>
      rw [ofToken, List.cons_append, partsFrom_plain (by decide) (by decide), List.cons_append,
        partsFrom_plain (by decide) (by decide)]
      rfl
  | one =>
      rw [ofToken, List.cons_append, partsFrom_plain (by decide) (by decide)]
      rfl
  | code high low =>
      obtain ⟨hh, hl⟩ := ht
      simp [ofToken, partsFrom, escapeLength, hh, hl, Glob.Token.digit?]
  | literal c =>
      by_cases hs : c ∈ special
      · obtain ⟨hd, hn, hx, -⟩ := special_facts c hs
        simp [ofToken, escape_of_special hs, partsFrom, escapeLength_cons hn hx, Glob.Token.digit?,
          hd]
      · have hb := ne_of_not_special hs (d := '\\') (by decide)
        rw [ofToken, escape_of_not_special hs, List.cons_append, List.nil_append]
        cases hd : c.isDigit with
        | false =>
            rw [partsFrom_plain hb hd]
            simp [Glob.Token.digit?, hd]
        | true => simp [partsFrom, hb, hd, Glob.Token.digit?]

theorem ofToken_ne_nil (t : Token) : ofToken t ≠ [] := by
  cases t with
  | literal c =>
      rw [ofToken, escape]
      split <;> simp
  | _ => simp [ofToken]

/-- A digit in front of segments is a digit in front of their parts. -/
theorem body_consRun (c : Char) (segs : List Segment) :
    body (consRun c segs) = consDigit c (body segs) := by
  cases segs with
  | nil => rfl
  | cons seg segs =>
      cases seg with
      | run digits => rfl
      | token t =>
          obtain ⟨d, ds, h⟩ := List.exists_cons_of_ne_nil (ofToken_ne_nil t)
          simp [consRun, Segment.parts, h, consDigit]

/-- The parts of tokens with the closing anchor are those of their segments. -/
theorem partsFrom_ofTokens {ts : List Token} (h : ∀ t ∈ ts, t.WellFormed) :
    partsFrom 0 (ofTokens ts ++ ['$']) = body (segments ts) := by
  induction ts with
  | nil => rfl
  | cons t ts ih =>
      have hrest := ih fun t ht => h t (List.mem_cons_of_mem _ ht)
      rw [ofTokens, List.flatMap_cons, ← ofTokens, List.append_assoc,
        partsFrom_ofToken (h t List.mem_cons_self), hrest, segments]
      cases t.digit? with
      | none => rw [body_cons, Segment.parts]
      | some c => rw [body_consRun]

/-- The segments of a name. -/
def segmentsOf (name : String) : List Segment := segments (Glob.tokens name.toList)

/-- The parts of the pattern of a name are those of its segments between the anchors. -/
theorem parts_ofName (name : String) : parts (ofName name) = frame (segmentsOf name) := by
  rw [parts, ofName, List.cons_append, partsFrom_plain (by decide) (by decide), frame, segmentsOf,
    partsFrom_ofTokens (Glob.wellFormed_tokens name.toList)]

/-! ## No slot in the pattern of a name -/

/-- No backslash of a pattern stands before a `d`. -/
theorem not_prefix_ofTokens (ts : List Token) (t : List Char) :
    ¬ '\\' :: 'd' :: t <+: ofTokens ts ++ ['$'] := by
  intro h
  cases ts with
  | nil => simp [ofTokens] at h
  | cons token ts =>
      rw [ofTokens, List.flatMap_cons, ← ofTokens, List.append_assoc] at h
      cases token with
      | literal c =>
          by_cases hs : c ∈ special
          · obtain ⟨-, -, -, hd⟩ := special_facts c hs
            rw [ofToken, escape_of_special hs] at h
            simp [hd.symm] at h
          · rw [ofToken, escape_of_not_special hs] at h
            simp only [List.cons_append, List.nil_append, List.cons_prefix_cons] at h
            exact ne_of_not_special hs (by decide) h.1.symm
      | _ => simp [ofToken] at h

theorem not_slot_infix_ofTokens {ts : List Token} (h : ∀ t ∈ ts, t.WellFormed) :
    ¬ slot <:+: ofTokens ts ++ ['$'] := by
  induction ts with
  | nil => decide
  | cons t ts ih =>
      have hrest := ih fun t ht => h t (List.mem_cons_of_mem _ ht)
      have hno : ¬ slot <+: '(' :: (ofTokens ts ++ ['$']) := by
        rw [slot, List.cons_prefix_cons]
        exact fun hp => not_prefix_ofTokens ts _ hp.2
      -- only a parenthesis can begin a slot, and only `hno` has one
      have hplain : ∀ {c : Char} {r : List Char}, c ≠ '(' → ¬ slot <:+: r → ¬ slot <:+: c :: r := by
        intro c r hc hr hs
        rcases List.infix_cons_iff.1 hs with hp | hi
        · exact hc (List.cons_prefix_cons.1 hp).1.symm
        · exact hr hi
      rw [ofTokens, List.flatMap_cons, ← ofTokens, List.append_assoc]
      cases t with
      | any => exact hplain (by decide) (hplain (by decide) hrest)
      | one => exact hplain (by decide) hrest
      | code high low =>
          obtain ⟨hh, hl⟩ := h _ List.mem_cons_self
          have hhex : ∀ {c : Char}, Glob.isHexDigit c = true → c ≠ '(' := by
            rintro c hc rfl
            exact absurd hc (by decide)
          exact hplain (by decide) (hplain (by decide) (hplain (hhex hh) (hplain (hhex hl) hrest)))
      | literal c =>
          by_cases hs : c ∈ special
          · rw [ofToken, escape_of_special hs]
            apply hplain (by decide)
            by_cases hc : c = '('
            · -- a parenthesis behind a backslash begins no slot, as no backslash follows with a `d`
              subst hc
              intro hi
              rcases List.infix_cons_iff.1 hi with hp | hr
              · exact hno hp
              · exact hrest hr
            · exact hplain hc hrest
          · rw [ofToken, escape_of_not_special hs]
            exact hplain (ne_of_not_special hs (by decide)) hrest

/-- The pattern of a name does not contain the text of a slot. -/
theorem not_slot_infix_ofName (name : String) : ¬ slot <:+: ofName name := by
  rw [ofName, List.cons_append, List.infix_cons_iff, not_or]
  constructor
  · intro h
    exact absurd (List.cons_prefix_cons.1 h).1 (by decide)
  · exact not_slot_infix_ofTokens (Glob.wellFormed_tokens name.toList)

/-! ## Reading tokens back -/

/-- The tokens of an expression. -/
def detoken : List Char → List Token
  | [] => []
  | '.' :: '*' :: r => .any :: detoken r
  | '.' :: r => .one :: detoken r
  | '\\' :: 'x' :: high :: low :: r => .code high low :: detoken r
  | '\\' :: c :: r => .literal c :: detoken r
  | c :: r => .literal c :: detoken r

/-- The text of a token does not begin with a star, which is special. -/
theorem ofToken_append_ne_star (t : Token) (r r' : List Char) : ofToken t ++ r ≠ '*' :: r' := by
  intro h
  cases t with
  | literal c =>
      by_cases hs : c ∈ special
      · rw [ofToken, escape_of_special hs] at h
        simp at h
      · rw [ofToken, escape_of_not_special hs, List.cons_append, List.cons.injEq] at h
        exact ne_of_not_special hs (by decide) h.1
  | _ => simp [ofToken] at h

theorem ofTokens_ne_star (ts : List Token) (r : List Char) : ofTokens ts ≠ '*' :: r := by
  cases ts with
  | nil => exact (List.cons_ne_nil _ _).symm
  | cons t ts =>
      rw [ofTokens, List.flatMap_cons]
      exact ofToken_append_ne_star t _ r

/-- The tokens of an expression are read back from it. -/
theorem detoken_ofTokens (ts : List Token) : detoken (ofTokens ts) = ts := by
  induction ts with
  | nil => rfl
  | cons t ts ih =>
      rw [ofTokens, List.flatMap_cons, ← ofTokens]
      cases t with
      | any => rw [ofToken, List.cons_append, List.cons_append, List.nil_append, detoken, ih]
      | one =>
          -- no star follows the dot which would make it another token
          rw [ofToken, List.cons_append, List.nil_append, detoken, ih]
          exact ofTokens_ne_star ts
      | code high low =>
          simp only [ofToken, List.cons_append, List.nil_append]
          rw [detoken, ih]
      | literal c =>
          by_cases hs : c ∈ special
          · obtain ⟨-, -, hx, -⟩ := special_facts c hs
            rw [ofToken, escape_of_special hs, List.cons_append, List.cons_append, List.nil_append,
              detoken, ih]
            rintro high low r hc
            exact absurd hc hx
          · have hb := ne_of_not_special hs (d := '\\') (by decide)
            have hd := ne_of_not_special hs (d := '.') (by decide)
            rw [ofToken, escape_of_not_special hs, List.cons_append, List.nil_append, detoken, ih]
            all_goals simp [hb, hd]

/-- The name whose pattern a text is. -/
def nameOf (p : Pattern) : String := String.ofList (Glob.chars (detoken (p.drop 1).dropLast))

/-- A name is read back from its pattern. -/
theorem nameOf_ofName (name : String) : nameOf (ofName name) = name := by
  have hinner : ((ofName name).drop 1).dropLast = ofTokens (Glob.tokens name.toList) := by
    rw [ofName, List.cons_append, List.drop_succ_cons, List.drop_zero, List.dropLast_concat]
  rw [nameOf, hinner, detoken_ofTokens, Glob.chars_tokens, String.ofList_toList]

/-- Different names have different patterns. -/
theorem ofName_injective {name other : String} (h : ofName name = ofName other) :
    name = other := by
  rw [← nameOf_ofName name, h, nameOf_ofName]

/-- **Patterns are uniquely decodable.** One decoder gives every name back from its pattern, so no
two names have the same pattern. -/
theorem ofName_uniquely_decodable :
    Function.LeftInverse nameOf ofName ∧ Function.Injective ofName :=
  ⟨nameOf_ofName, fun _ _ => ofName_injective⟩

-- a literal backslash before a short code, a wildcard of each kind, a code, a backslash at the end
example : nameOf (ofName "a\\x4\\\\**?.\\xE9\\") = "a\\x4\\\\**?.\\xE9\\" := by decide

end Pattern

end AgentAtlas
