import AgentAtlas.Markup
import Mathlib.Data.List.Basic

/-!
# Entities and the characters they stand for

`unescape` goes over a text once, from left to right, and puts its character in the place of each
entity. It undoes escaping whatever the text holds, entities included (`unescape_escape`), so no two
texts are escaped to one (`escape_injective`).

An escaped text can stand between tags and between quotes (`safe_escape`): of the five characters it
has only the ampersand, and that only where an entity starts.
-/

set_option autoImplicit false

namespace AgentAtlas.Markup

/-- The entities and the characters which they stand for. -/
def entities : List (List Char × Char) :=
  [("&amp;".toList, '&'), ("&lt;".toList, '<'), ("&gt;".toList, '>'), ("&quot;".toList, '"'),
    ("&#039;".toList, '\'')]

/-- The characters which have an entity. -/
def reserved : List Char := entities.map Prod.snd

/-- A text with the characters for its entities, replaced in one pass from left to right. -/
def unescape : List Char → List Char
  | [] => []
  | '&' :: 'a' :: 'm' :: 'p' :: ';' :: r => '&' :: unescape r
  | '&' :: 'l' :: 't' :: ';' :: r => '<' :: unescape r
  | '&' :: 'g' :: 't' :: ';' :: r => '>' :: unescape r
  | '&' :: 'q' :: 'u' :: 'o' :: 't' :: ';' :: r => '"' :: unescape r
  | '&' :: '#' :: '0' :: '3' :: '9' :: ';' :: r => '\'' :: unescape r
  | c :: r => c :: unescape r

/-- Nothing in a text is taken for markup: it has no brackets and no quotes, and ampersands only
where entities start. -/
structure Safe (s : List Char) : Prop where
  brackets : '<' ∉ s ∧ '>' ∉ s
  quotes : '"' ∉ s ∧ '\'' ∉ s
  ampersands : ∀ before after, s = before ++ '&' :: after →
    ∃ e ∈ entities, e.1 <+: '&' :: after

/-! ## Pieces of an escaped text -/

theorem entity?_of_mem : ∀ e ∈ entities, entity? e.2 = some e.1 := by
  decide

theorem entity?_of_not_mem {c : Char} (h : c ∉ reserved) : entity? c = none := by
  unfold entity?
  split
  case h_6 => rfl
  all_goals exact absurd (by decide) h

/-- An entity starts with an ampersand and has no other of the characters in it. -/
theorem entity_shape :
    ∀ e ∈ entities, e.1 = '&' :: e.1.tail ∧ ∀ c ∈ e.1.tail, c ∉ reserved := by
  simp [entities, reserved]

theorem escape_cons (c : Char) (s : List Char) :
    escape (c :: s) = (entity? c).getD [c] ++ escape s :=
  List.flatMap_cons

/-- An escaped text starts with the entity of its first character, or with that character. -/
theorem escape_cons_cases (c : Char) (s : List Char) :
    (∃ e ∈ entities, e.2 = c ∧ escape (c :: s) = e.1 ++ escape s) ∨
      (c ∉ reserved ∧ escape (c :: s) = c :: escape s) := by
  rw [escape_cons]
  by_cases h : c ∈ reserved
  · obtain ⟨e, he, rfl⟩ := List.mem_map.1 h
    refine .inl ⟨e, he, rfl, ?_⟩
    rw [entity?_of_mem e he, Option.getD_some]
  · refine .inr ⟨h, ?_⟩
    rw [entity?_of_not_mem h, Option.getD_none, List.singleton_append]

/-! ## Escaping is undone -/

theorem unescape_entity (r : List Char) :
    ∀ e ∈ entities, unescape (e.1 ++ r) = e.2 :: unescape r := by
  intro e he
  simp only [entities, List.mem_cons, List.not_mem_nil, or_false] at he
  rcases he with rfl | rfl | rfl | rfl | rfl <;> rfl

theorem unescape_cons {c : Char} (h : c ≠ '&') (r : List Char) :
    unescape (c :: r) = c :: unescape r := by
  conv_lhs => unfold unescape
  split <;> simp_all

/-- Escaping is undone by one pass. -/
theorem unescape_escape (s : List Char) : unescape (escape s) = s := by
  induction s with
  | nil => rfl
  | cons c s ih =>
      rcases escape_cons_cases c s with ⟨e, he, rfl, hs⟩ | ⟨hc, hs⟩
      · rw [hs, unescape_entity _ e he, ih]
      · have hne : c ≠ '&' := by
          rintro rfl
          exact hc (by decide)
        rw [hs, unescape_cons hne, ih]

/-- No two texts are escaped to one. -/
theorem escape_injective : Function.Injective escape :=
  Function.LeftInverse.injective unescape_escape

/-! ## What is left of the five characters -/

/-- Of the five characters only the ampersand is in an escaped text. -/
theorem not_mem_escape {c : Char} (h : c ∈ reserved) (hne : c ≠ '&') (s : List Char) :
    c ∉ escape s := by
  induction s with
  | nil => exact List.not_mem_nil
  | cons d s ih =>
      rcases escape_cons_cases d s with ⟨e, he, -, hs⟩ | ⟨hd, hs⟩
      · obtain ⟨hhead, htail⟩ := entity_shape e he
        rw [hs, hhead, List.mem_append, List.mem_cons]
        rintro ((rfl | hc) | hc)
        · exact hne rfl
        · exact htail c hc h
        · exact ih hc
      · rw [hs, List.mem_cons]
        rintro (rfl | hc)
        · exact hd h
        · exact ih hc

/-- Where an ampersand is in an escaped text, an entity starts. -/
theorem exists_entity_of_ampersand {s : List Char} :
    ∀ {before after : List Char}, escape s = before ++ '&' :: after →
      ∃ e ∈ entities, e.1 <+: '&' :: after := by
  induction s with
  | nil =>
      intro before after h
      exact absurd h (List.append_ne_nil_of_right_ne_nil _ (List.cons_ne_nil _ _)).symm
  | cons c s ih =>
      intro before after h
      rcases escape_cons_cases c s with ⟨e, he, -, hs⟩ | ⟨hc, hs⟩
      · obtain ⟨hhead, htail⟩ := entity_shape e he
        rw [hs] at h
        rcases before with - | ⟨b, before⟩
        · -- the ampersand is the one of this entity
          exact ⟨e, he, _, h⟩
        · rw [hhead, List.cons_append, List.cons_append, List.cons.injEq] at h
          rcases List.append_eq_append_iff.1 h.2 with ⟨more, -, hrest⟩ | ⟨more, hname, hrest⟩
          · exact ih hrest
          · -- the rest of the entity has no ampersand, so it ends before this one
            rcases more with - | ⟨a, more⟩
            · exact ih (hrest.symm.trans (List.nil_append _).symm)
            · rw [List.cons_append, List.cons.injEq] at hrest
              refine absurd (show '&' ∈ reserved by decide) (htail '&' ?_)
              rw [hname, hrest.1]
              exact List.mem_append_right _ List.mem_cons_self
      · rw [hs] at h
        rcases before with - | ⟨b, before⟩
        · rw [List.nil_append, List.cons.injEq] at h
          exact absurd (show '&' ∈ reserved by decide) (h.1 ▸ hc)
        · rw [List.cons_append, List.cons.injEq] at h
          exact ih h.2

/-- An escaped text is safe. -/
theorem safe_escape (s : List Char) : Safe (escape s) where
  brackets := ⟨not_mem_escape (by decide) (by decide) s, not_mem_escape (by decide) (by decide) s⟩
  quotes := ⟨not_mem_escape (by decide) (by decide) s, not_mem_escape (by decide) (by decide) s⟩
  ampersands := fun _ _ h => exists_entity_of_ampersand h

end AgentAtlas.Markup
