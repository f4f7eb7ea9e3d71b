import AgentAtlas.Proofs.Pattern.Matching

/-!
# Patterns mean what names say

A name is a glob, and which texts fit it can be said character by character, without taking the name
apart into tokens (`Glob.Fits`). Taking it apart loses nothing of that: the first token of a name
takes a piece of the text, and the rest of the name fits the rest (`fits_append_iff`). So the items
of a name's tokens match the texts which fit the name (`fits_iff_matches`, by induction on the
tokens), and as these are what its pattern reads as, the pattern matches the same texts
(`accepts_ofName_iff_fits`).
-/

set_option autoImplicit false

namespace AgentAtlas

namespace Glob

open Pattern (DigitClass Item Matches codeChar matches_token_iff)

variable {digits : DigitClass} {name u : List Char}

/-! ## Codes -/

/-- What follows a backslash makes it the code of a character: an `x` and two hexadecimal digits. -/
def IsCode (rest : List Char) : Prop :=
  ∃ high low more, rest = 'x' :: high :: low :: more ∧
    isHexDigit high = true ∧ isHexDigit low = true

/-- The hexadecimal digits are the characters with a value. -/
theorem isHexDigit_iff {c : Char} : isHexDigit c = true ↔ ∃ v, Json.hexValue? c = some v := by
  rw [isHexDigit, Json.hexValue?]
  simp only [Bool.or_eq_true, Bool.and_eq_true, decide_eq_true_eq]
  split_ifs <;> simp_all

theorem hexValue?_lt {c : Char} {v : Nat} (h : Json.hexValue? c = some v) : v < 16 := by
  have hle : ∀ {a b : Char}, a ≤ b → a.toNat ≤ b.toNat := fun h => h
  rw [Json.hexValue?] at h
  -- in each of the three ranges the last digit bounds the value
  split_ifs at h with hdigit hlower hupper
  · have hlast := hle hdigit.2
    cases h
    simp only [Char.reduceToNat] at hlast ⊢
    omega
  · have hlast := hle hlower.2
    cases h
    simp only [Char.reduceToNat] at hlast ⊢
    omega
  · have hlast := hle hupper.2
    cases h
    simp only [Char.reduceToNat] at hlast ⊢
    omega

/-- The character of a code is the one with this number. -/
theorem codeChar_eq_iff {high low c : Char} {h l : Nat} (hh : Json.hexValue? high = some h)
    (hl : Json.hexValue? low = some l) : codeChar high low = c ↔ c.toNat = h * 16 + l := by
  rw [codeChar, hh, hl, Option.getD_some, Option.getD_some]
  constructor
  · rintro rfl
    have hvalid : (h * 16 + l).isValidChar := by
      have := hexValue?_lt hh
      have := hexValue?_lt hl
      exact .inl (by omega)
    rw [Char.ofNat, dif_pos hvalid]
    rfl
  · intro hc
    rw [← hc, Char.ofNat_toNat]

/-! ## Texts which fit a name -/

/-- A text fits a name. A star stands for any text without a line feed, a question mark for any one
character but a line feed, a code for its character, and any other character for itself. -/
inductive Fits : List Char → List Char → Prop
  | nil : Fits [] []
  | any {name w u : List Char} : (∀ c ∈ w, c ≠ '\n') → Fits name u → Fits ('*' :: name) (w ++ u)
  | one {name u : List Char} {c : Char} : c ≠ '\n' → Fits name u → Fits ('?' :: name) (c :: u)
  | code {name u : List Char} {high low c : Char} {h l : Nat} : Json.hexValue? high = some h →
      Json.hexValue? low = some l → c.toNat = h * 16 + l → Fits name u →
      Fits ('\\' :: 'x' :: high :: low :: name) (c :: u)
  | plain {name u : List Char} {c : Char} : c ≠ '*' → c ≠ '?' → (c = '\\' → ¬IsCode name) →
      Fits name u → Fits (c :: name) (c :: u)

/-- A token is the first one of a name, before the rest of it. -/
def Token.Leads (rest : List Char) : Token → Prop
  | any => True
  | one => True
  | code high low => isHexDigit high = true ∧ isHexDigit low = true
  | literal c => c ≠ '*' ∧ c ≠ '?' ∧ (c = '\\' → ¬IsCode rest)

variable (digits) in
/-- The first token takes a piece of the text, and the rest of the name fits the rest. -/
theorem fits_append_iff {t : Token} (ht : t.Leads name) :
    Fits (t.chars ++ name) u ↔
      ∃ w rest, u = w ++ rest ∧ (Item.ofToken t).Takes digits w [] ∧ Fits name rest := by
  cases t with
  | any =>
      constructor
      · intro h
        cases h with
        | any hw hrest => exact ⟨_, _, rfl, .many hw, hrest⟩
        | plain hstar => exact absurd rfl hstar
      · rintro ⟨w, rest, rfl, htakes, hrest⟩
        cases htakes with
        | many hw => exact .any hw hrest
  | one =>
      constructor
      · intro h
        cases h with
        | one hc hrest => exact ⟨[_], _, rfl, .one hc, hrest⟩
        | plain _ hmark => exact absurd rfl hmark
      · rintro ⟨w, rest, rfl, htakes, hrest⟩
        cases htakes with
        | one hc => exact .one hc hrest
  | code high low =>
      obtain ⟨hhigh, hlow⟩ := ht
      constructor
      · intro h
        cases h with
        | code hh hl hc hrest =>
            obtain rfl := (codeChar_eq_iff hh hl).2 hc
            exact ⟨[_], _, rfl, .char, hrest⟩
        | plain _ _ hno =>
            -- the backslash would stand for itself only without its digits
            exact absurd ⟨high, low, name, rfl, hhigh, hlow⟩ (hno rfl)
      · rintro ⟨w, rest, rfl, htakes, hrest⟩
        obtain ⟨h, hh⟩ := isHexDigit_iff.1 hhigh
        obtain ⟨l, hl⟩ := isHexDigit_iff.1 hlow
        cases htakes with
        | char => exact .code hh hl ((codeChar_eq_iff hh hl).1 rfl) hrest
  | literal c =>
      obtain ⟨hstar, hmark, hno⟩ := ht
      constructor
      · intro h
        cases h with
        | any => exact absurd rfl hstar
        | one => exact absurd rfl hmark
        | code hh hl =>
            refine absurd ?_ (hno rfl)
            exact ⟨_, _, _, rfl, isHexDigit_iff.2 ⟨_, hh⟩, isHexDigit_iff.2 ⟨_, hl⟩⟩
        | plain _ _ _ hrest => exact ⟨[c], _, rfl, .char, hrest⟩
      · rintro ⟨w, rest, rfl, htakes, hrest⟩
        cases htakes with
        | char => exact .plain hstar hmark hno hrest

variable (digits) in
/-- A text fits a name exactly if the items of the name's tokens match it. -/
theorem fits_iff_matches :
    Fits name u ↔ Matches digits ((tokens name).map Item.ofToken) u [] := by
  -- what holds of the rest of a name holds of the name with its first token
  have hstep : ∀ {t : Token} {rest u : List Char}, t.Leads rest →
      (∀ {u}, Fits rest u ↔ Matches digits ((tokens rest).map Item.ofToken) u []) →
      (Fits (t.chars ++ rest) u ↔
        Matches digits ((t :: tokens rest).map Item.ofToken) u []) := by
    intro t rest u ht ih
    rw [List.map_cons, matches_token_iff, fits_append_iff digits ht]
    simp only [ih]
  fun_induction tokens name generalizing u with
  | case1 =>
      constructor
      · intro h
        cases h
        exact .nil
      · intro h
        cases h
        exact .nil
  | case2 rest ih => exact hstep (t := .any) trivial ih
  | case3 rest ih => exact hstep (t := .one) trivial ih
  | case4 high low rest hhex ih =>
      rw [Bool.and_eq_true] at hhex
      exact hstep (t := .code high low) hhex ih
  | case5 high low rest hhex ih =>
      -- a backslash before an `x` stands for itself if a digit is missing
      refine hstep (t := .literal '\\') ⟨by decide, by decide, fun _ hcode => hhex ?_⟩ ih
      obtain ⟨_, _, _, hrest, hhigh, hlow⟩ := hcode
      cases hrest
      rw [hhigh, hlow]
      rfl
  | case6 c rest hstar hmark hback ih =>
      refine hstep (t := .literal c) ⟨hstar, hmark, fun hc hcode => ?_⟩ ih
      obtain ⟨high, low, more, hrest, -⟩ := hcode
      exact hback high low more hc hrest

end Glob

namespace Pattern

/-- **The pattern of a name means what the name says.** It reads as an expression, and that matches
exactly the texts which fit the name as a glob. -/
theorem accepts_ofName_iff_fits (digits : DigitClass) (name u : String) :
    (∃ items, read? (ofName name) = some items) ∧
      (Accepts digits (ofName name) u ↔ Glob.Fits name.toList u.toList) := by
  refine ⟨⟨_, read?_ofName name⟩, ?_⟩
  rw [accepts_ofName_iff, segmentsOf, spelledOf_segments, Glob.fits_iff_matches digits]

end Pattern

end AgentAtlas
