import AgentAtlas.Json.Printer
import Mathlib.Data.List.Forall2

/-!
# Reading what was written

Both layouts of a value read as the same tree, and the tree is that value (`exists_tree`), if
containers stand no deeper in it than they are read and its numbers are naturals of 64 bits
(`Fits`). So a value is what its text says, with or without spaces (`parse?_compactText`,
`parse?_prettyText`).

A text reads as a tree if the machine gets over it, wherever a value may stand and whatever follows
that cannot be part of a number (`ReadsAs`). There is one lemma for each sort of value, and
containers are put together from their parts by `run_join`.
-/

set_option autoImplicit false

namespace AgentAtlas.Json

open Decimal (digitChars)
open Text (join)

/-! ## Digits -/

/-- What follows does not go on with a number. -/
def EndsNumber (rest : List Char) : Prop :=
  ∀ c ∈ rest.head?, c.isDigit = false ∧ c ≠ '.' ∧ c ≠ 'e' ∧ c ≠ 'E'

theorem isDigit_of_mem_digitChars {n : Nat} {c : Char} (h : c ∈ digitChars n) :
    c.isDigit = true :=
  Nat.isDigit_of_mem_toDigits (by decide) (Nat.le_refl 10) h

theorem exists_digitChars_eq_cons (n : Nat) : ∃ d ds, digitChars n = d :: ds :=
  List.exists_cons_of_ne_nil Nat.toDigits_ne_nil

theorem ofDigits_digitChars (n : Nat) : ofDigits (digitChars n) = n :=
  Nat.ofDigitChars_ten_toDigits

/-- Only zero starts with a zero. -/
theorem head?_digitChars_ne {n : Nat} (h : 0 < n) : (digitChars n).head? ≠ some '0' := by
  induction n using Nat.strongRecOn with
  | ind n ih =>
      rw [digitChars, Nat.toDigits_eq_if (by decide)]
      split
      · have hdigit : ∀ d < 10, 0 < d → Nat.digitChar d ≠ '0' := by decide
        rename_i hlt
        simpa using hdigit n hlt h
      · rw [List.head?_append_of_ne_nil _ Nat.toDigits_ne_nil]
        exact ih (n / 10) (by omega) (by omega)

theorem digits?_digitChars (n : Nat) {rest : List Char} (h : EndsNumber rest) :
    digits? (digitChars n ++ rest) = some (digitChars n, rest) := by
  have hall : ∀ c ∈ digitChars n, c.isDigit = true := fun c => isDigit_of_mem_digitChars
  have hrest : rest.takeWhile Char.isDigit = [] ∧ rest.dropWhile Char.isDigit = rest := by
    cases rest with
    | nil => exact ⟨rfl, rfl⟩
    | cons c rest =>
        have hc := (h c rfl).1
        simp [hc]
  obtain ⟨d, ds, hds⟩ := exists_digitChars_eq_cons n
  rw [digits?, List.takeWhile_append_of_pos hall, List.dropWhile_append_of_pos hall, hrest.1,
    hrest.2, List.append_nil, hds]

theorem whole?_digitChars (n : Nat) {rest : List Char} (h : EndsNumber rest) :
    whole? (digitChars n ++ rest) = some (digitChars n, rest) := by
  rw [whole?, digits?_digitChars n h]
  split
  · -- a zero in front of another digit
    rename_i heq
    obtain ⟨hds, -⟩ := Prod.mk.inj (Option.some.inj heq)
    rcases Nat.eq_zero_or_pos n with rfl | hpos
    · cases hds
    · exact absurd (by rw [hds]; rfl) (head?_digitChars_ne hpos)
  · rfl

/-- The literal of a natural. -/
def naturalNumeral (n : Nat) : Numeral := ⟨false, digitChars n, [], none⟩

theorem unsigned?_digitChars (n : Nat) {rest : List Char} (h : EndsNumber rest) :
    unsigned? false (digitChars n ++ rest) = some (naturalNumeral n, rest) := by
  have hfraction : fraction? rest = some ([], rest) := by
    unfold fraction?
    split
    · exact absurd rfl (h '.' rfl).2.1
    · rfl
  have hexponent : exponent? rest = some (none, rest) := by
    unfold exponent?
    split
    · exact absurd rfl (h 'e' rfl).2.2.1
    · exact absurd rfl (h 'E' rfl).2.2.2
    · rfl
  simp only [unsigned?, whole?_digitChars n h, hfraction, hexponent, bind, Option.bind_some]
  rfl

/-- A digit starts a number and no other token. -/
theorem next?_of_isDigit {c : Char} (h : c.isDigit = true) (s : List Char) :
    Token.next? (c :: s) =
      (unsigned? false (c :: s)).map fun n => (.atom (.number n.1), n.2) := by
  have hnumeral : numeral? (c :: s) = unsigned? false (c :: s) := by
    unfold numeral?
    split
    · rename_i heq
      obtain ⟨rfl, -⟩ := List.cons.inj heq
      exact absurd h (by decide)
    · rfl
  unfold Token.next?
  split
  case h_11 => rw [hnumeral]
  all_goals
    rename_i heq
    obtain ⟨rfl, -⟩ := List.cons.inj heq
    exact absurd h (by decide)

theorem number?_naturalNumeral {n : Nat} (h : n < wordLimit) :
    (naturalNumeral n).number? = some (.integer n) := by
  have hinteger : (naturalNumeral n).integer? = some (n : Int) := by
    rw [Numeral.integer?, if_pos ⟨rfl, rfl⟩]
    simp only [naturalNumeral, ofDigits_digitChars, if_pos h, Bool.false_eq_true, if_false]
  rw [Numeral.number?, hinteger]

/-! ## The machine -/

theorem run_nil (state : State) : state.run [] = some state := by
  rw [State.run]

theorem run_blanks {blanks : List Char} (h : ∀ c ∈ blanks, isSpace c = true) (state : State)
    (s : List Char) : state.run (blanks ++ s) = state.run s := by
  induction blanks with
  | nil => rfl
  | cons c blanks ih =>
      rw [List.forall_mem_cons] at h
      rw [List.cons_append, State.run, if_pos h.1, ih h.2]

/-- A token makes one step. -/
theorem run_token {c : Char} {s rest : List Char} {t : Token} {state next : State}
    (h : Token.next? (c :: s) = some (t, rest)) (hc : isSpace c = false)
    (hstep : state.step t = some next) : state.run (c :: s) = next.run rest := by
  rw [State.run, if_neg (by rw [hc]; decide)]
  split
  · rename_i hnone
    rw [h] at hnone
    cases hnone
  · rename_i hsome
    rw [h, Option.some.injEq, Prod.mk.injEq] at hsome
    obtain ⟨rfl, rfl⟩ := hsome
    rw [hstep]

theorem run_quote (s rest : List Char) {state next : State}
    (hstep : state.step (.string (s.map written)) = some next) :
    state.run (quote s ++ rest) = next.run rest := by
  have hnext : Token.next? ('"' :: (s.flatMap escape ++ '"' :: rest)) =
      some (.string (s.map written), rest) := by
    show (readPieces _).map _ = _
    rw [readPieces_quote]
    rfl
  rw [quote, List.cons_append, List.cons_append, List.append_assoc, List.singleton_append]
  exact run_token hnext (by decide) hstep

/-! ## Values -/

/-- Where a value may stand, the machine takes the text for the tree. -/
def ReadsAs (s : List Char) (t : Tree) : Prop :=
  ∀ mayClose stack rest, EndsNumber rest →
    (State.value mayClose stack).run (s ++ rest) = (State.after t stack).run rest

/-- Where a member may stand, the machine takes the text for a name and a tree. -/
def MemberReadsAs (s : List Char) (member : List Piece × Tree) : Prop :=
  ∀ mayClose members stack rest, EndsNumber rest →
    (State.name mayClose members stack).run (s ++ rest) =
      (State.after member.2 (.member members member.1 :: stack)).run rest

theorem readsAs_null : ReadsAs "null".toList .null := by
  intro mayClose stack rest _
  show State.run _ ('n' :: 'u' :: 'l' :: 'l' :: rest) = _
  exact run_token rfl (by decide) rfl

theorem readsAs_bool (b : Bool) : ReadsAs (if b then "true" else "false").toList (.bool b) := by
  intro mayClose stack rest _
  cases b with
  | false =>
      show State.run _ ('f' :: 'a' :: 'l' :: 's' :: 'e' :: rest) = _
      exact run_token rfl (by decide) rfl
  | true =>
      show State.run _ ('t' :: 'r' :: 'u' :: 'e' :: rest) = _
      exact run_token rfl (by decide) rfl

theorem readsAs_quote (s : List Char) : ReadsAs (quote s) (.string (s.map written)) :=
  fun _ _ rest _ => run_quote s rest rfl

theorem readsAs_digitChars (n : Nat) : ReadsAs (digitChars n) (.number (naturalNumeral n)) := by
  intro mayClose stack rest hrest
  obtain ⟨d, ds, hds⟩ := exists_digitChars_eq_cons n
  have hd : d.isDigit = true := isDigit_of_mem_digitChars (n := n) (by rw [hds]; simp)
  have hspace : isSpace d = false := by
    rw [Bool.eq_false_iff]
    intro hs
    simp only [isSpace, Bool.or_eq_true, beq_iff_eq] at hs
    rcases hs with ((rfl | rfl) | rfl) | rfl <;> exact absurd hd (by decide)
  have hnext : Token.next? (d :: (ds ++ rest)) =
      some (.atom (.number (naturalNumeral n)), rest) := by
    rw [next?_of_isDigit hd, ← List.cons_append, ← hds, unsigned?_digitChars n hrest]
    rfl
  rw [hds, List.cons_append]
  exact run_token hnext hspace rfl

/-! ## Containers -/

/-- Blanks and a mark end a number. -/
theorem endsNumber_blanks {blanks : List Char} (h : ∀ c ∈ blanks, isSpace c = true) {mark : Char}
    (hmark : mark = ',' ∨ mark = ']' ∨ mark = '\x7d') (rest : List Char) :
    EndsNumber (blanks ++ mark :: rest) := by
  intro c hc
  cases blanks with
  | nil =>
      cases hc
      rcases hmark with rfl | rfl | rfl <;> decide
  | cons b blanks =>
      cases hc
      have hspace := h c List.mem_cons_self
      simp only [isSpace, Bool.or_eq_true, beq_iff_eq] at hspace
      rcases hspace with ((rfl | rfl) | rfl) | rfl <;> decide

/-- The machine reads the parts of a container one after the other. In the state `S` a part may
start, and in the state `W` one waits for the mark behind it; a comma leads to the next start. -/
theorem run_join {α : Type} {S : Bool → List α → State} {W : α → List α → State}
    (hcomma : ∀ x xs, (W x xs).step .comma = some (S false (x :: xs)))
    {gap : List Char} (hgap : ∀ c ∈ gap, isSpace c = true) {parts : List (List Char)}
    {xs : List α} (hparts : List.Forall₂ (fun part x => ∀ mayClose earlier rest, EndsNumber rest →
      (S mayClose earlier).run (part ++ rest) = (W x earlier).run rest) parts xs)
    (hne : parts ≠ []) :
    ∃ last before, xs = before ++ [last] ∧ ∀ mayClose earlier rest, EndsNumber rest →
      (S mayClose earlier).run (join (',' :: gap) parts ++ rest) =
        (W last (before.reverse ++ earlier)).run rest := by
  induction hparts with
  | nil => exact absurd rfl hne
  | @cons part x parts xs hpart hparts ih =>
      cases hparts with
      | nil => exact ⟨x, [], rfl, hpart⟩
      | @cons next _ more _ hnext hmore =>
          obtain ⟨last, before, hxs, hrun⟩ := ih (List.cons_ne_nil _ _)
          refine ⟨last, x :: before, by rw [hxs, List.cons_append], ?_⟩
          intro mayClose earlier rest hrest
          have hends : EndsNumber (',' :: (gap ++ (join (',' :: gap) (next :: more) ++ rest))) :=
            endsNumber_blanks (List.forall_mem_nil _) (.inl rfl) _
          rw [Text.join_cons (List.cons_ne_nil _ _)]
          simp only [List.append_assoc, List.cons_append]
          rw [hpart mayClose earlier _ hends, run_token rfl (by decide) (hcomma x earlier),
            run_blanks hgap, hrun false (x :: earlier) rest hrest]
          simp

section Container

variable {opening gap closing : List Char} (hopening : ∀ c ∈ opening, isSpace c = true)
  (hgap : ∀ c ∈ gap, isSpace c = true) (hclosing : ∀ c ∈ closing, isSpace c = true)
  {parts : List (List Char)}

include hopening hgap hclosing

/-- Items between brackets read as an array. -/
theorem readsAs_array {items : List Tree} (hparts : List.Forall₂ ReadsAs parts items)
    (hne : parts ≠ []) :
    ReadsAs ('[' :: (opening ++ join (',' :: gap) parts ++ closing) ++ [']']) (.array items) := by
  intro mayClose stack rest _
  obtain ⟨last, before, rfl, hrun⟩ := run_join
    (S := fun mayClose earlier => .value mayClose (.array earlier :: stack))
    (W := fun item earlier => .after item (.array earlier :: stack)) (fun _ _ => rfl) hgap
    (hparts.imp fun _ _ hpart mayClose earlier => hpart mayClose (.array earlier :: stack)) hne
  have hends := endsNumber_blanks hclosing (.inr (.inl rfl)) rest
  simp only [List.cons_append, List.append_assoc, List.nil_append]
  rw [run_token rfl (by decide) rfl, run_blanks hopening, hrun true [] _ hends,
    run_blanks hclosing, run_token rfl (by decide) rfl]
  simp

/-- Members between braces read as an object. -/
theorem readsAs_object {members : List (List Piece × Tree)}
    (hparts : List.Forall₂ MemberReadsAs parts members) (hne : parts ≠ []) :
    ReadsAs ('\x7b' :: (opening ++ join (',' :: gap) parts ++ closing) ++ ['\x7d'])
      (.object members) := by
  intro mayClose stack rest _
  obtain ⟨last, before, rfl, hrun⟩ := run_join
    (S := fun mayClose earlier => .name mayClose earlier stack)
    (W := fun member earlier => .after member.2 (.member earlier member.1 :: stack))
    (fun _ _ => rfl) hgap
    (hparts.imp fun _ _ hpart mayClose earlier => hpart mayClose earlier stack) hne
  have hends := endsNumber_blanks hclosing (.inr (.inr rfl)) rest
  simp only [List.cons_append, List.append_assoc, List.nil_append]
  rw [run_token rfl (by decide) rfl, run_blanks hopening, hrun true [] _ hends,
    run_blanks hclosing, run_token rfl (by decide) rfl]
  simp

end Container

theorem readsAs_empty_array : ReadsAs ['[', ']'] (.array []) := by
  intro mayClose stack rest _
  show State.run _ ('[' :: ']' :: rest) = _
  rw [run_token rfl (by decide) rfl]
  exact run_token rfl (by decide) rfl

theorem readsAs_empty_object : ReadsAs ['\x7b', '\x7d'] (.object []) := by
  intro mayClose stack rest _
  show State.run _ ('\x7b' :: '\x7d' :: rest) = _
  rw [run_token rfl (by decide) rfl]
  exact run_token rfl (by decide) rfl

/-- A name, a colon and a value read as a member. -/
theorem memberReadsAs {gap : List Char} (hgap : ∀ c ∈ gap, isSpace c = true) (name : List Char)
    {s : List Char} {t : Tree} (h : ReadsAs s t) :
    MemberReadsAs (quote name ++ ':' :: (gap ++ s)) (name.map written, t) := by
  intro mayClose members stack rest hrest
  simp only [List.append_assoc, List.cons_append]
  rw [run_quote _ _ rfl, run_token rfl (by decide) rfl, run_blanks hgap]
  exact h false _ rest hrest

/-! ## Whole texts -/

mutual

/-- A value can be read back inside all but `levels` of the containers that may stand around one:
no more stand in it, and its numbers are naturals of 64 bits. -/
def Fits (levels : Nat) : Json → Prop
  | .null => True
  | .bool _ => True
  | .number n => ∃ k < wordLimit, n = .integer (k : Nat)
  | .string _ => True
  | .array items => levels ≠ 0 ∧ FitItems (levels - 1) items
  | .object members => levels ≠ 0 ∧ FitMembers (levels - 1) members

/-- The items of an array can be read back. -/
def FitItems (levels : Nat) : List Json → Prop
  | [] => True
  | v :: rest => v.Fits levels ∧ FitItems levels rest

/-- The values of an object's members can be read back. -/
def FitMembers (levels : Nat) : List (String × Json) → Prop
  | [] => True
  | (_, v) :: rest => v.Fits levels ∧ FitMembers levels rest

end

theorem fitItems_iff {levels : Nat} {items : List Json} :
    FitItems levels items ↔ ∀ v ∈ items, v.Fits levels := by
  induction items with
  | nil => simp [FitItems]
  | cons v rest ih => rw [FitItems, ih, List.forall_mem_cons]

theorem fitMembers_iff {levels : Nat} {members : List (String × Json)} :
    FitMembers levels members ↔ ∀ member ∈ members, member.2.Fits levels := by
  induction members with
  | nil => simp [FitMembers]
  | cons member rest ih => rw [FitMembers, ih, List.forall_mem_cons]

theorem isSpace_newline (level : Nat) : ∀ c ∈ newline level, isSpace c = true := by
  intro c hc
  rcases List.mem_cons.1 hc with rfl | hc
  · decide
  · rw [List.eq_of_mem_replicate hc]
    decide

mutual

/-- Both layouts of a value read as one tree, which is that value. -/
theorem exists_tree : ∀ (levels : Nat) (v : Json), v.Fits levels →
    ∃ t : Tree, ReadsAs v.compact t ∧ (∀ level, ReadsAs (v.prettyAt level) t) ∧
      t.json? levels = some v
  | _, .null, _ => ⟨.null, readsAs_null, fun _ => readsAs_null, rfl⟩
  | _, .bool b, _ => ⟨.bool b, readsAs_bool b, fun _ => readsAs_bool b, rfl⟩
  | _, .string s, _ => by
      refine ⟨.string (s.toList.map written), readsAs_quote _, fun _ => readsAs_quote _, ?_⟩
      rw [Tree.json?, text?, decode_map_written, Option.map_some, String.ofList_toList]
      rfl
  | _, .number n, h => by
      obtain ⟨k, hk, rfl⟩ := h
      refine ⟨.number (naturalNumeral k), readsAs_digitChars k, fun _ => readsAs_digitChars k, ?_⟩
      rw [Tree.json?, number?_naturalNumeral hk]
      rfl
  | levels, .array [], h => by
      refine ⟨.array [], readsAs_empty_array, fun _ => readsAs_empty_array, ?_⟩
      rw [Tree.json?, if_neg h.1]
      rfl
  | levels, .array (v :: rest), h => by
      obtain ⟨ts, hcompact, hpretty, hvalues⟩ := exists_itemTrees (levels - 1) (v :: rest) h.2
      have hnone : ∀ c ∈ ([] : List Char), isSpace c = true := List.forall_mem_nil _
      refine ⟨.array ts, ?_, fun level => ?_, ?_⟩
      · have harray := readsAs_array hnone hnone hnone hcompact (List.cons_ne_nil _ _)
        rw [compact]
        simpa using harray
      · exact readsAs_array (isSpace_newline _) (isSpace_newline _) (isSpace_newline _)
          (hpretty (level + 1)) (List.cons_ne_nil _ _)
      · rw [Tree.json?, if_neg h.1, hvalues]
        rfl
  | levels, .object [], h => by
      refine ⟨.object [], readsAs_empty_object, fun _ => readsAs_empty_object, ?_⟩
      rw [Tree.json?, if_neg h.1]
      rfl
  | levels, .object ((name, v) :: rest), h => by
      obtain ⟨ts, hcompact, hpretty, hvalues⟩ := exists_memberTrees (levels - 1) _ h.2
      have hnone : ∀ c ∈ ([] : List Char), isSpace c = true := List.forall_mem_nil _
      refine ⟨.object ts, ?_, fun level => ?_, ?_⟩
      · have hobject := readsAs_object hnone hnone hnone hcompact (List.cons_ne_nil _ _)
        rw [compact]
        simpa using hobject
      · exact readsAs_object (isSpace_newline _) (isSpace_newline _) (isSpace_newline _)
          (hpretty (level + 1)) (List.cons_ne_nil _ _)
      · rw [Tree.json?, if_neg h.1, hvalues]
        rfl

theorem exists_itemTrees : ∀ (levels : Nat) (items : List Json), FitItems levels items →
    ∃ ts : List Tree, List.Forall₂ ReadsAs (compactItems items) ts ∧
      (∀ level, List.Forall₂ ReadsAs (prettyItems level items) ts) ∧
        itemValues? levels ts = some items
  | _, [], _ => ⟨[], .nil, fun _ => .nil, rfl⟩
  | levels, v :: rest, h => by
      obtain ⟨t, hcompact, hpretty, hvalue⟩ := exists_tree levels v h.1
      obtain ⟨ts, hcompacts, hpretties, hvalues⟩ := exists_itemTrees levels rest h.2
      refine ⟨t :: ts, .cons hcompact hcompacts, fun level => .cons (hpretty level)
        (hpretties level), ?_⟩
      rw [itemValues?, hvalue, hvalues]
      rfl

theorem exists_memberTrees : ∀ (levels : Nat) (members : List (String × Json)),
    FitMembers levels members →
    ∃ ts : List (List Piece × Tree), List.Forall₂ MemberReadsAs (compactMembers members) ts ∧
      (∀ level, List.Forall₂ MemberReadsAs (prettyMembers level members) ts) ∧
        memberValues? levels ts = some members
  | _, [], _ => ⟨[], .nil, fun _ => .nil, rfl⟩
  | levels, (name, v) :: rest, h => by
      obtain ⟨t, hcompact, hpretty, hvalue⟩ := exists_tree levels v h.1
      obtain ⟨ts, hcompacts, hpretties, hvalues⟩ := exists_memberTrees levels rest h.2
      have hblank : ∀ c ∈ [' '], isSpace c = true := List.forall_mem_singleton.2 rfl
      refine ⟨(name.toList.map written, t) :: ts, .cons ?_ hcompacts,
        fun level => .cons ?_ (hpretties level), ?_⟩
      · exact memberReadsAs (List.forall_mem_nil _) name.toList hcompact
      · exact memberReadsAs hblank name.toList (hpretty level)
      · rw [memberValues?, text?, decode_map_written, hvalue, hvalues, Option.map_some,
          String.ofList_toList]
        rfl

end

/-- A text which reads as a tree is the text of that tree. -/
theorem ofChars?_of_readsAs {s : List Char} {t : Tree} (h : ReadsAs s t) :
    Tree.ofChars? s = some t := by
  have hrun := h false [] [] (fun c hc => nomatch hc)
  rw [List.append_nil, run_nil] at hrun
  rw [Tree.ofChars?, hrun]

/-- A value is what its text without spaces says. -/
theorem parse?_compactText {v : Json} (h : v.Fits nestingLimit) :
    parse? v.compactText = some v := by
  obtain ⟨t, hcompact, -, hvalue⟩ := exists_tree nestingLimit v h
  rw [parse?, compactText, String.toList_ofList, ofChars?_of_readsAs hcompact, Option.bind_some,
    hvalue]

/-- A value is what its text with one item a line says. -/
theorem parse?_prettyText {v : Json} (h : v.Fits nestingLimit) : parse? v.prettyText = some v := by
  obtain ⟨t, -, hpretty, hvalue⟩ := exists_tree nestingLimit v h
  rw [parse?, prettyText, String.toList_ofList, ofChars?_of_readsAs (hpretty 0), Option.bind_some,
    hvalue]

end AgentAtlas.Json
