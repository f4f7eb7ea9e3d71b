/-!
# Blank characters

The twenty-five characters with the Unicode property `White_Space`, and trimming by them. Trimming
takes blanks from both ends and nothing else: the ends of what is left are not blank
(`head?_trimChars`, `getLast?_trimChars`), so a second trim changes nothing (`trim_trim`).
-/

set_option autoImplicit false

namespace AgentAtlas.Text

/-- The property `White_Space`: tab to carriage return, space, next line, no-break space, and the
spaces and separators beyond. -/
def isBlank (c : Char) : Bool :=
  let n := c.toNat
  (0x09 ≤ n && n ≤ 0x0D) || n == 0x20 || n == 0x85 || n == 0xA0 || n == 0x1680 ||
    (0x2000 ≤ n && n ≤ 0x200A) || n == 0x2028 || n == 0x2029 || n == 0x202F || n == 0x205F ||
    n == 0x3000

/-- A text without the blanks at its two ends. -/
def trimChars (s : List Char) : List Char :=
  ((s.dropWhile isBlank).reverse.dropWhile isBlank).reverse

/-- A text without the blanks at its two ends. -/
def trim (s : String) : String := String.ofList (trimChars s.toList)

theorem head?_dropWhile_isBlank (s : List Char) {c : Char}
    (h : (s.dropWhile isBlank).head? = some c) : isBlank c = false := by
  have := List.head?_dropWhile_not isBlank s
  rw [h] at this
  simpa using this

/-- The last character left is not blank. -/
theorem getLast?_trimChars (s : List Char) {c : Char} (h : (trimChars s).getLast? = some c) :
    isBlank c = false := by
  rw [trimChars, List.getLast?_reverse] at h
  exact head?_dropWhile_isBlank _ h

theorem dropWhile_eq_self {s : List Char} (h : ∀ c, s.head? = some c → isBlank c = false) :
    s.dropWhile isBlank = s := by
  cases s with
  | nil => rfl
  | cons c r => simp [List.dropWhile, h c rfl]

/-- Dropping blanks from the end leaves the first character in place. -/
theorem head?_reverse_dropWhile {s : List Char} (h : ∀ c, s.head? = some c → isBlank c = false)
    {c : Char} (hc : (s.reverse.dropWhile isBlank).reverse.head? = some c) :
    isBlank c = false := by
  rw [List.head?_reverse] at hc
  obtain ⟨t, ht⟩ := List.dropWhile_suffix (p := isBlank) (l := s.reverse)
  have hl : (s.reverse).getLast? = some c := by
    rw [← ht, List.getLast?_append, hc]
    rfl
  rw [List.getLast?_reverse] at hl
  exact h c hl

/-- The first character left is not blank. -/
theorem head?_trimChars (s : List Char) {c : Char} (h : (trimChars s).head? = some c) :
    isBlank c = false :=
  head?_reverse_dropWhile (fun _ => head?_dropWhile_isBlank s) h

/-- A text whose ends are not blank is its own trimmed form. -/
theorem trimChars_eq_self {s : List Char} (hh : ∀ c, s.head? = some c → isBlank c = false)
    (hl : ∀ c, s.getLast? = some c → isBlank c = false) : trimChars s = s := by
  rw [trimChars, dropWhile_eq_self hh, dropWhile_eq_self, List.reverse_reverse]
  intro c hc
  rw [List.head?_reverse] at hc
  exact hl c hc

/-- A second trim changes nothing. -/
theorem trimChars_trimChars (s : List Char) : trimChars (trimChars s) = trimChars s :=
  trimChars_eq_self (fun _ => head?_trimChars s) (fun _ => getLast?_trimChars s)

/-- A second trim changes nothing. -/
@[simp] theorem trim_trim (s : String) : trim (trim s) = trim s := by
  rw [trim, trim, String.toList_ofList, trimChars_trimChars]

end AgentAtlas.Text
