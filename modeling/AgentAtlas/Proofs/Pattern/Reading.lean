import AgentAtlas.Json.Quoted
import AgentAtlas.Proofs.Pattern.Folding

/-!
# Reading patterns as expressions

A pattern between its anchors is a sequence of items: any run of characters, any one character, a
certain character, or a captured run of digits. The pattern of a name reads as the items of the
name's tokens (`read?_ofName`), and a folded skeleton of it as those of its segments, with a capture
for every run which is left (`read?_folded`).
-/

set_option autoImplicit false

namespace AgentAtlas.Pattern

open Glob (Token)

/-- An item of an expression. -/
inductive Item where
  /-- `.*`, any run of characters. -/
  | many
  /-- `.`, any one character. -/
  | one
  /-- The character itself, plain, behind a backslash or by its code. -/
  | char (c : Char)
  /-- `(\d+)`, a captured run of digits. -/
  | capture
  deriving DecidableEq, Repr

/-- The character of the code `\xHH`. -/
def codeChar (high low : Char) : Char :=
  Char.ofNat ((Json.hexValue? high).getD 0 * 16 + (Json.hexValue? low).getD 0)

/-- A visible character of ASCII which is no letter and no digit. -/
def isPunctuation (c : Char) : Bool := '!' ≤ c && c ≤ '~' && !c.isAlphanum

/-- The items up to the closing anchor. -/
def items? : List Char → Option (List Item)
  | [] => none
  | ['$'] => some []
  | '.' :: '*' :: r => (items? r).map (.many :: ·)
  | '.' :: r => (items? r).map (.one :: ·)
  | '(' :: '\\' :: 'd' :: '+' :: ')' :: r => (items? r).map (.capture :: ·)
  | '\\' :: 'x' :: high :: low :: r =>
    if Glob.isHexDigit high && Glob.isHexDigit low then
      (items? r).map (.char (codeChar high low) :: ·)
    else none
  | '\\' :: c :: r => if isPunctuation c then (items? r).map (.char c :: ·) else none
  | c :: r => if special.contains c then none else (items? r).map (.char c :: ·)

/-- The items between the anchors. -/
def read? : Pattern → Option (List Item)
  | '^' :: r => items? r
  | _ => none

/-- The item of a token. -/
def Item.ofToken : Token → Item
  | .any => .many
  | .one => .one
  | .code high low => .char (codeChar high low)
  | .literal c => .char c

/-- The items of a segment whose run is captured. -/
def Segment.items : Segment → List Item
  | token t => [.ofToken t]
  | run _ => [.capture]

/-- The items of a segment whose run is spelled out. -/
def Segment.spelled : Segment → List Item
  | token t => [.ofToken t]
  | run digits => digits.map .char

/-- The items of segments whose runs are captured. -/
def itemsOf (segs : List Segment) : List Item := segs.flatMap Segment.items

/-- The items of segments whose runs are spelled out. -/
def spelledOf (segs : List Segment) : List Item := segs.flatMap Segment.spelled

@[simp] theorem itemsOf_nil : itemsOf [] = [] := rfl
@[simp] theorem itemsOf_token (t : Token) (segs : List Segment) :
    itemsOf (.token t :: segs) = .ofToken t :: itemsOf segs := rfl
@[simp] theorem itemsOf_run (digits : List Char) (segs : List Segment) :
    itemsOf (.run digits :: segs) = .capture :: itemsOf segs := rfl
@[simp] theorem spelledOf_nil : spelledOf [] = [] := rfl
@[simp] theorem spelledOf_token (t : Token) (segs : List Segment) :
    spelledOf (.token t :: segs) = .ofToken t :: spelledOf segs := rfl
@[simp] theorem spelledOf_run (digits : List Char) (segs : List Segment) :
    spelledOf (.run digits :: segs) = digits.map .char ++ spelledOf segs := rfl

/-- Digits taken apart are spelled out. -/
theorem itemsOf_digits_append (digits : List Char) (segs : List Segment) :
    itemsOf (digits.map (fun c => .token (.literal c)) ++ segs) =
      digits.map .char ++ itemsOf segs := by
  induction digits with
  | nil => rfl
  | cons c digits ih =>
      rw [List.map_cons, List.cons_append, itemsOf_token, ih]
      rfl

/-! ## Reading tokens -/

theorem isPunctuation_of_special : ∀ c ∈ special, isPunctuation c = true := by
  rw [← List.all_eq_true]
  decide

/-- A token reads as its item, unless a star behind it belongs to it. -/
theorem items?_ofToken {t : Token} (ht : t.WellFormed) {r : List Char}
    (hr : ∀ r', r ≠ '*' :: r') :
    items? (ofToken t ++ r) = (items? r).map (.ofToken t :: ·) := by
  cases t with
  | any => rfl
  | one =>
      -- a star behind the dot would make it another item
      rw [ofToken, List.cons_append, List.nil_append, items?]
      · rfl
      · exact hr
  | code high low =>
      obtain ⟨hh, hl⟩ := ht
      simp only [ofToken, List.cons_append, List.nil_append, items?, hh, hl, Bool.and_self, if_true]
      rfl
  | literal c =>
      by_cases hs : c ∈ special
      · -- behind a backslash, and no code as it is no `x`
        obtain ⟨-, -, hx, -⟩ := special_facts c hs
        rw [ofToken, escape_of_special hs, List.cons_append, List.cons_append, List.nil_append,
          items?, if_pos (isPunctuation_of_special c hs)]
        · rfl
        · rintro high low r' rfl
          exact absurd rfl hx
      · -- plain, and no other item begins with it
        have hno : c ≠ '$' ∧ c ≠ '.' ∧ c ≠ '(' ∧ c ≠ '\\' := by
          refine ⟨?_, ?_, ?_, ?_⟩ <;> exact ne_of_not_special hs (by decide)
        rw [ofToken, escape_of_not_special hs, List.cons_append, List.nil_append, items?,
          if_neg (by simpa using hs)]
        · rfl
        all_goals simp [hno]

theorem slottedOf_body_ne_star (segs : List Segment) (r : List Char) :
    slottedOf (body segs) ≠ '*' :: r := by
  cases segs with
  | nil => simp
  | cons seg segs =>
      cases seg with
      | token t =>
          rw [slottedOf_body_token]
          exact ofToken_append_ne_star t _ r
      | run digits =>
          rw [slottedOf_body_run]
          simp [slot]

/-! ## Reading segments -/

/-- The token of a segment is well formed. -/
def Segment.WellFormed : Segment → Prop
  | token t => t.WellFormed
  | run _ => True

/-- Segments with slots for their runs read as their items. -/
theorem items?_slottedOf_body {segs : List Segment} (h : ∀ seg ∈ segs, seg.WellFormed) :
    items? (slottedOf (body segs)) = some (itemsOf segs) := by
  induction segs with
  | nil => rfl
  | cons seg segs ih =>
      have hseg := h seg List.mem_cons_self
      have hrest := ih fun seg hm => h seg (List.mem_cons_of_mem _ hm)
      cases seg with
      | token t =>
          rw [slottedOf_body_token, items?_ofToken hseg (slottedOf_body_ne_star segs), hrest]
          rfl
      | run digits =>
          rw [slottedOf_body_run]
          change (items? (slottedOf (body segs))).map _ = _
          rw [hrest]
          rfl

/-- Taking runs apart leaves only well-formed tokens. -/
theorem Scanned.wellFormed_keep {segs : List Segment} (h : Scanned segs) :
    ∀ flags, ∀ seg ∈ keep flags segs, seg.WellFormed := by
  induction h with
  | nil => intro flags seg hm; cases flags <;> cases hm
  | token ht _ _ ih =>
      intro flags seg hm
      rw [keep] at hm
      rcases List.mem_cons.1 hm with rfl | hm
      · exact ht
      · exact ih flags seg hm
  | run _ _ _ _ ih =>
      intro flags seg hm
      rcases flags with - | ⟨- | -, flags⟩
      · rw [keep] at hm
        rcases List.mem_cons.1 hm with rfl | hm
        · trivial
        · exact ih _ seg hm
      · rw [keep] at hm
        rcases List.mem_cons.1 hm with rfl | hm
        · trivial
        · exact ih _ seg hm
      · -- the tokens of a run taken apart are its digits
        rw [keep] at hm
        rcases List.mem_append.1 hm with hm | hm
        · obtain ⟨c, -, rfl⟩ := List.mem_map.1 hm
          trivial
        · exact ih _ seg hm

/-- A folded skeleton of a name reads as the segments, with captures for the runs left. -/
theorem read?_folded (name : String) (flags : List Bool) :
    read? (folded (ofName name) flags) = some (itemsOf (keep flags (segmentsOf name))) := by
  rw [folded_ofName, frame, slottedOf_fixed, read?]
  exact items?_slottedOf_body ((scanned_segmentsOf name).wellFormed_keep flags)

theorem spelledOf_consRun (c : Char) (segs : List Segment) :
    spelledOf (consRun c segs) = .char c :: spelledOf segs := by
  cases segs with
  | nil => rfl
  | cons seg segs => cases seg <;> rfl

/-- Spelled-out segments are the tokens which they were made from. -/
theorem spelledOf_segments (ts : List Token) :
    spelledOf (segments ts) = ts.map Item.ofToken := by
  induction ts with
  | nil => rfl
  | cons t ts ih =>
      rw [segments, List.map_cons, ← ih]
      cases hd : t.digit? with
      | none => exact spelledOf_token t (segments ts)
      | some c =>
          -- a digit is spelled out in front of the run which it joins
          obtain rfl := eq_literal_of_digit? hd
          exact spelledOf_consRun c (segments ts)

/-- The pattern of a name reads as the segments with their runs spelled out. -/
theorem read?_ofName (name : String) :
    read? (ofName name) = some (spelledOf (segmentsOf name)) := by
  -- segments which are all tokens have the text of the pattern itself
  have htokens : ∀ ts : List Token, slottedOf (body (ts.map .token)) = ofTokens ts ++ ['$'] ∧
      itemsOf (ts.map .token) = ts.map Item.ofToken := by
    intro ts
    induction ts with
    | nil => exact ⟨rfl, rfl⟩
    | cons t ts ih =>
        rw [List.map_cons, slottedOf_body_token, ih.1, itemsOf_token, ih.2]
        exact ⟨(List.append_assoc _ _ _).symm, rfl⟩
  obtain ⟨htext, hitems⟩ := htokens (Glob.tokens name.toList)
  rw [ofName, List.cons_append, read?, ← htext, items?_slottedOf_body, hitems, segmentsOf,
    spelledOf_segments]
  intro seg hm
  obtain ⟨t, ht, rfl⟩ := List.mem_map.1 hm
  exact Glob.wellFormed_tokens name.toList t ht

end AgentAtlas.Pattern
