import AgentAtlas.Proofs.Pattern.Reading
import AgentAtlas.Proofs.Pattern.Variants
import Mathlib.Data.List.Forall2

/-!
# Matching through a group

An expression matches a text piece by piece, and the captured pieces are those of the capture
groups. A name's pattern matches a text exactly if a folded skeleton of it matches with the runs
which are left as captures (`matches_keep_iff`, by induction on the segments of the name). So the
key of a group matches on behalf of each member: the captures, joined as the name of a variant is,
tell which one (`grouped_matches`).

What counts as a decimal digit in a capture is left open (`DigitClass`), the digits of ASCII or
those of all scripts.
-/

set_option autoImplicit false

namespace AgentAtlas.Pattern

open Glob (Token)

/-- The characters which a capture of digits takes: the digits of ASCII, perhaps others, and not the
character which stands between the runs of a variant. -/
structure DigitClass where
  holds : Char → Bool
  of_isDigit : ∀ c, c.isDigit = true → holds c = true
  bar : holds '|' = false

/-- The digits of ASCII. -/
def DigitClass.ascii : DigitClass where
  holds := Char.isDigit
  of_isDigit _ h := h
  bar := rfl

/-- An item takes a piece of a text and captures pieces of it. -/
inductive Item.Takes (digits : DigitClass) : Item → List Char → List (List Char) → Prop
  | many {w : List Char} : (∀ c ∈ w, c ≠ '\n') → Takes digits .many w []
  | one {c : Char} : c ≠ '\n' → Takes digits .one [c] []
  | char {c : Char} : Takes digits (.char c) [c] []
  | capture {w : List Char} : w ≠ [] → (∀ c ∈ w, digits.holds c = true) →
      Takes digits .capture w [w]

/-- Items match a text with captured pieces: one after the other they take the whole of it. -/
inductive Matches (digits : DigitClass) : List Item → List Char → List (List Char) → Prop
  | nil : Matches digits [] [] []
  | cons {item : Item} {items : List Item} {w rest : List Char} {captured more : List (List Char)} :
      item.Takes digits w captured → Matches digits items rest more →
      Matches digits (item :: items) (w ++ rest) (captured ++ more)

/-- A pattern matches a text and captures pieces of it. -/
def Captures (digits : DigitClass) (p : Pattern) (u : String) (captured : List (List Char)) :
    Prop :=
  ∃ items, read? p = some items ∧ Matches digits items u.toList captured

/-- A pattern matches a text. -/
def Accepts (digits : DigitClass) (p : Pattern) (u : String) : Prop :=
  ∃ captured, Captures digits p u captured

/-! ## Matching item by item -/

variable {digits : DigitClass} {items : List Item} {u : List Char} {captured : List (List Char)}

theorem matches_cons_iff {item : Item} :
    Matches digits (item :: items) u captured ↔
      ∃ w rest own more, u = w ++ rest ∧ captured = own ++ more ∧ item.Takes digits w own ∧
        Matches digits items rest more := by
  constructor
  · intro h
    cases h with
    | cons ht hm => exact ⟨_, _, _, _, rfl, rfl, ht, hm⟩
  · rintro ⟨w, rest, own, more, rfl, rfl, ht, hm⟩
    exact .cons ht hm

/-- The item of a token captures nothing. -/
theorem captured_of_takes_ofToken {t : Token} {w : List Char}
    (h : (Item.ofToken t).Takes digits w captured) : captured = [] := by
  cases t with
  | any => cases h; rfl
  | one => cases h; rfl
  | code high low => cases h; rfl
  | literal c => cases h; rfl

theorem matches_token_iff {t : Token} :
    Matches digits (.ofToken t :: items) u captured ↔
      ∃ w rest, u = w ++ rest ∧ (Item.ofToken t).Takes digits w [] ∧
        Matches digits items rest captured := by
  rw [matches_cons_iff]
  constructor
  · rintro ⟨w, rest, own, more, rfl, rfl, ht, hm⟩
    obtain rfl := captured_of_takes_ofToken ht
    exact ⟨w, rest, rfl, ht, hm⟩
  · rintro ⟨w, rest, rfl, ht, hm⟩
    exact ⟨w, rest, [], captured, rfl, rfl, ht, hm⟩

/-- Spelled-out characters match themselves. -/
theorem matches_chars_iff {cs : List Char} :
    Matches digits (cs.map .char ++ items) u captured ↔
      ∃ rest, u = cs ++ rest ∧ Matches digits items rest captured := by
  induction cs generalizing u with
  | nil => simp
  | cons c cs ih =>
      rw [List.map_cons, List.cons_append]
      change Matches digits (.ofToken (.literal c) :: (cs.map .char ++ items)) u captured ↔ _
      rw [matches_token_iff]
      constructor
      · rintro ⟨w, rest, rfl, ht, hm⟩
        cases ht
        obtain ⟨r, rfl, hr⟩ := ih.1 hm
        exact ⟨r, rfl, hr⟩
      · rintro ⟨rest, rfl, hm⟩
        exact ⟨[c], cs ++ rest, rfl, .char, ih.2 ⟨rest, rfl, hm⟩⟩

/-- A capture of a certain run takes this run. -/
theorem matches_capture_iff {run : List Char} (hne : run ≠ [])
    (hds : ∀ c ∈ run, c.isDigit = true) :
    Matches digits (.capture :: items) u (run :: captured) ↔
      ∃ rest, u = run ++ rest ∧ Matches digits items rest captured := by
  rw [matches_cons_iff]
  constructor
  · rintro ⟨w, rest, own, more, rfl, hown, ht, hm⟩
    -- what is captured is what is taken
    cases ht
    obtain ⟨rfl, rfl⟩ := List.cons.inj hown
    exact ⟨rest, rfl, hm⟩
  · rintro ⟨rest, rfl, hm⟩
    have htakes := Item.Takes.capture hne fun c hc => digits.of_isDigit c (hds c hc)
    exact ⟨run, rest, [run], captured, rfl, rfl, htakes, hm⟩

/-- No captured piece has the character which stands between the runs of a variant. -/
theorem bar_not_mem_captured (h : Matches digits items u captured) :
    ∀ piece ∈ captured, '|' ∉ piece := by
  induction h with
  | nil => simp
  | cons ht _ ih =>
      intro piece hp hbar
      rcases List.mem_append.1 hp with hp | hp
      · cases ht with
        | capture _ hw =>
            -- the piece is a run of digits
            rw [List.mem_singleton.1 hp] at hbar
            have hholds := hw '|' hbar
            rw [digits.bar] at hholds
            cases hholds
        | _ => cases hp
      · exact ih piece hp hbar

variable (digits) in
/-- **Core.** Spelled-out segments match a text exactly if the segments with slots match it with the
runs of the slots as captures. -/
theorem matches_keep_iff {segs : List Segment} (h : Scanned segs) :
    ∀ {flags : List Bool} {u : List Char}, flags.length = (runsOf (body segs)).length →
      (Matches digits (spelledOf segs) u [] ↔
        Matches digits (itemsOf (keep flags segs)) u (varying flags (runsOf (body segs)))) := by
  induction h with
  | nil =>
      intro flags u hlen
      rw [List.eq_nil_of_length_eq_zero hlen]
      rfl
  | token _ _ _ ih =>
      intro flags u hlen
      rw [runsOf_body_token] at hlen ⊢
      rw [keep, spelledOf_token, itemsOf_token, matches_token_iff, matches_token_iff]
      simp only [ih hlen]
  | run hne hds _ _ ih =>
      intro flags u hlen
      rw [runsOf_body_run] at hlen ⊢
      rw [spelledOf_run, matches_chars_iff]
      rcases flags with - | ⟨- | -, flags⟩
      · cases hlen
      · -- a slot has to capture the run which is spelled out on the other side
        rw [keep, itemsOf_run, varying_cons, if_neg (by decide), matches_capture_iff hne hds]
        simp only [ih (Nat.succ.inj hlen)]
      · -- a kept run is spelled out on both sides
        rw [keep, itemsOf_digits_append, varying_cons, if_pos rfl, matches_chars_iff]
        simp only [ih (Nat.succ.inj hlen)]

/-! ## Matching names and keys -/

theorem captured_of_matches_tokens {ts : List Token}
    (h : Matches digits (ts.map Item.ofToken) u captured) : captured = [] := by
  induction ts generalizing u with
  | nil => cases h; rfl
  | cons t ts ih =>
      rw [List.map_cons, matches_token_iff] at h
      obtain ⟨w, rest, -, -, hm⟩ := h
      exact ih hm

/-- The pattern of a name matches as its segments spelled out, which capture nothing. -/
theorem accepts_ofName_iff {name : String} {u : String} :
    Accepts digits (ofName name) u ↔
      Matches digits (spelledOf (segmentsOf name)) u.toList [] := by
  constructor
  · rintro ⟨captured, items, hread, hm⟩
    rw [read?_ofName, Option.some.injEq] at hread
    subst hread
    have hnil : captured = [] := by
      rw [segmentsOf, spelledOf_segments] at hm
      exact captured_of_matches_tokens hm
    exact hnil ▸ hm
  · intro hm
    exact ⟨[], _, read?_ofName name, hm⟩

/-- Joined pieces tell the pieces, if none has the separator and the second ones are not empty. -/
theorem eq_of_join_eq {ps qs : List (List Char)} (hp : ∀ piece ∈ ps, '|' ∉ piece)
    (hq : ∀ piece ∈ qs, piece ≠ [] ∧ '|' ∉ piece) (hne : qs ≠ [])
    (h : Text.join variantDelimiter ps = Text.join variantDelimiter qs) : ps = qs := by
  have hqs := split_join_of_bar hne fun piece hm => (hq piece hm).2
  by_cases hnil : ps = []
  · -- cutting nothing gives one empty piece
    rw [← h, hnil] at hqs
    have hempty : [] ∈ qs := by
      rw [← hqs]
      exact List.mem_cons_self
    exact absurd rfl (hq [] hempty).1
  · rw [← split_join_of_bar hnil hp, h, hqs]

/-- The key of a group reads as the segments of any member, with captures for its variant. -/
theorem Kin.read?_groupKey {s : List Char} {first n : Numbered} {others : List Numbered}
    (h : Kin s (first :: others)) (hn : n ∈ first :: others) {name : String}
    (hname : n.pattern = ofName name) :
    read? (groupKey first others) =
      some (itemsOf (keep (agreedSlots first others) (segmentsOf name))) := by
  rw [← h.folded_eq_groupKey hn, hname, read?_folded]

/-- A member of a group matches exactly if the key matches with the captures of its variant. -/
theorem Kin.accepts_iff {s : List Char} {first n : Numbered} {others : List Numbered}
    (h : Kin s (first :: others)) (ho : others ≠ []) (hn : n ∈ first :: others) (u : String) :
    Accepts digits n.pattern u ↔ ∃ captured, Captures digits (groupKey first others) u captured ∧
      variantName (agreedSlots first others) n.member =
        String.ofList (variantMarker :: Text.join variantDelimiter captured) := by
  obtain ⟨name, hname⟩ := h.exists_name n hn
  have hlen := h.length_agreedSlots hn
  have hread := h.read?_groupKey hn hname
  have hvary := h.varying_ne_nil ho hn
  rw [hname] at hvary
  rw [hname, runs_ofName] at hlen
  have hcore := matches_keep_iff digits (scanned_segmentsOf name) (u := u.toList) hlen
  have hvariant : variantName (agreedSlots first others) n.member = String.ofList
      (variantMarker :: Text.join variantDelimiter
        (varying (agreedSlots first others) (runs (ofName name)))) := by
    rw [← hname]
    rfl
  rw [← runs_ofName] at hcore
  rw [hname, accepts_ofName_iff, hvariant]
  constructor
  · intro hm
    exact ⟨_, ⟨_, hread, hcore.1 hm⟩, rfl⟩
  · rintro ⟨captured, ⟨items, hitems, hm⟩, hv⟩
    rw [hread, Option.some.injEq] at hitems
    subst hitems
    have hjoin := List.cons.inj (String.ofList_injective hv)
    -- the captures are the runs of the variant, as they are joined to its name
    have hsame : captured = varying (agreedSlots first others) (runs (ofName name)) := by
      apply eq_of_join_eq (bar_not_mem_captured hm) ?_ hvary hjoin.2.symm
      intro run hrun
      rw [← hname] at hrun
      exact h.of_mem_varying hn hrun
    exact hcore.2 (hsame ▸ hm)

/-- **Matching through a group is matching its members one by one.** Let patterns of different names
be compressed. Every entry with variants belongs to one group, its variants to the members in order,
and a member's pattern matches a text exactly if the key matches it with captures which are, behind
the marker and joined by the delimiter, the name of the variant. -/
theorem grouped_matches (digits : DigitClass) {names : List String} (hd : names.Nodup)
    {patterns : List Numbered} (hp : patterns.map Numbered.pattern = names.map ofName)
    {key : List Char} {variants : List (String × Nat)}
    (he : Entry.grouped key variants ∈ compress patterns) :
    (∃ items, read? key = some items) ∧ 3 ≤ (group patterns (skeleton key)).length ∧
      List.Forall₂ (fun n v => (∃ items, read? n.pattern = some items) ∧ v.2 = n.index ∧
          ∀ u : String, Accepts digits n.pattern u ↔ ∃ captured, Captures digits key u captured ∧
            v.1 = String.ofList ('@' :: Text.join ['|'] captured))
        (group patterns (skeleton key)) variants := by
  have hnames : ∀ n ∈ patterns, ∃ name, n.pattern = ofName name := by
    intro n hn
    have hmem : n.pattern ∈ names.map ofName := hp ▸ List.mem_map_of_mem hn
    obtain ⟨name, -, hname⟩ := List.mem_map.1 hmem
    exact ⟨name, hname.symm⟩
  have hdiff : (patterns.map Numbered.pattern).Nodup := by
    rw [hp]
    exact hd.map fun _ _ => ofName_injective
  rcases mem_compress_iff.1 he with ⟨n, -, -, hsingle⟩ | ⟨s, first, others, hg, hentry⟩
  · cases hsingle
  have hkin := kin_group hnames hdiff s
  rw [hg] at hkin
  by_cases hshort : others.length ≤ 1
  · rw [groupEntry_of_short hshort] at hentry
    cases hentry
  rw [groupEntry_of_long (hkin.skeleton_eq first List.mem_cons_self) (Nat.lt_of_not_le hshort),
    Entry.grouped.injEq] at hentry
  obtain ⟨rfl, rfl⟩ := hentry
  have ho : others ≠ [] := by
    rintro rfl
    exact hshort (Nat.zero_le 1)
  rw [hkin.skeleton_groupKey, hg]
  refine ⟨?_, ?_, ?_⟩
  · obtain ⟨name, hname⟩ := hkin.exists_name first List.mem_cons_self
    exact ⟨_, hkin.read?_groupKey List.mem_cons_self hname⟩
  · rw [List.length_cons]
    omega
  · rw [variantsOf, List.forall₂_map_right_iff, List.forall₂_same]
    intro n hn
    obtain ⟨name, hname⟩ := hkin.exists_name n hn
    exact ⟨⟨_, hname ▸ read?_ofName name⟩, rfl, hkin.accepts_iff ho hn⟩

/-- Three versions of one name. -/
def versions : List String := ["OS 10 App/1*", "OS 10 App/2*", "OS 10 App/3*"]

/-- The patterns of the versions, numbered from zero on. -/
def numberedVersions : List Numbered := versions.zipIdx.map fun e => ⟨e.2, ofName e.1⟩

/-- The versions agree on the first run, which is no capture of their key. -/
def versionKey : List Char := "^OS 10 App/(\\d+).*$".toList

theorem grouped_mem_versions :
    Entry.grouped versionKey [("@1", 0), ("@2", 1), ("@3", 2)] ∈ compress numberedVersions := by
  decide

theorem grouped_matches_versions :
    versions.Nodup ∧ numberedVersions.map Numbered.pattern = versions.map ofName ∧
      Entry.grouped versionKey [("@1", 0), ("@2", 1), ("@3", 2)] ∈ compress numberedVersions ∧
        ∀ u : String, Accepts .ascii (ofName "OS 10 App/2*") u ↔
          ∃ captured, Captures .ascii versionKey u captured ∧
            "@2" = String.ofList ('@' :: Text.join ['|'] captured) := by
  have hnames : versions.Nodup := by decide
  have hpatterns : numberedVersions.map Numbered.pattern = versions.map ofName := rfl
  obtain ⟨-, -, hall⟩ := grouped_matches .ascii hnames hpatterns grouped_mem_versions
  have hgroup : group numberedVersions (skeleton versionKey) = numberedVersions := by decide
  rw [hgroup] at hall
  obtain - | ⟨-, - | ⟨⟨-, -, hsecond⟩, -⟩⟩ := hall
  exact ⟨hnames, hpatterns, grouped_mem_versions, hsecond⟩

end AgentAtlas.Pattern
