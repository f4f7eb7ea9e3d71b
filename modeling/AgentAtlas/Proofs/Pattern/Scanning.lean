import AgentAtlas.Proofs.Pattern.Groups
import AgentAtlas.Proofs.Pattern.Names

/-!
# What a scan finds

Reading a text from the left marks the characters which belong to escapes (`Marks`). A backslash
takes with it an `x` and up to two hexadecimal digits, or any other character but a line feed. Every
text has one marking (`exists_marks`, `Marks.unique`).

A digit without a mark is *loose*. The runs of a pattern are its maximal sequences of loose digits,
in order (`Marks.findsRuns`). They fill the slots of the skeleton up to the pattern (`scan?_exact`).
-/

set_option autoImplicit false

namespace AgentAtlas.Pattern

/-- What a backslash takes with it, and what is behind that. -/
inductive Takes : List Char → List Char → Prop
  /-- Behind an `x`, up to two hexadecimal digits as far as they come. -/
  | code {digits r : List Char} : (∀ d ∈ digits, Glob.isHexDigit d = true) → digits.length ≤ 2 →
      (digits.length < 2 → ∀ c, r.head? = some c → Glob.isHexDigit c = false) →
      Takes ('x' :: digits) r
  /-- Any other character but a line feed. -/
  | char {c : Char} {r : List Char} : c ≠ 'x' → c ≠ '\n' → Takes [c] r
  /-- Nothing of a line feed, which the backslash leaves behind. -/
  | lineFeed {r : List Char} : Takes [] ('\n' :: r)
  /-- Nothing at the end. -/
  | ending : Takes [] []

/-- The marks of the characters of a text, set where the character belongs to an escape. -/
inductive Marks : List Char → List Bool → Prop
  | nil : Marks [] []
  | plain {c : Char} {r : List Char} {marks : List Bool} : c ≠ '\\' → Marks r marks →
      Marks (c :: r) (false :: marks)
  | escape {taken r : List Char} {marks : List Bool} : Takes taken r → Marks r marks →
      Marks ('\\' :: (taken ++ r)) (true :: (List.replicate taken.length true ++ marks))

/-- A digit without a mark stands at a position. -/
def LooseDigit (p : Pattern) (marks : List Bool) (i : Nat) : Prop :=
  ∃ c, p[i]? = some c ∧ c.isDigit = true ∧ marks[i]? = some false

/-- From a position up to another one, and no further on either side, all positions have a property.
-/
structure Maximal (P : Nat → Prop) (i j : Nat) : Prop where
  nonempty : i < j
  inside : ∀ k, i ≤ k → k < j → P k
  before : ∀ k, k + 1 = i → ¬P k
  behind : ¬P j

/-- Runs are the maximal sequences of loose digits, in order. -/
def FindsRuns (p : Pattern) (marks : List Bool) (rs : List (List Char)) : Prop :=
  ∃ spans : List (Nat × Nat), spans.Pairwise (fun s t => s.1 < t.1) ∧
    (∀ i j, (i, j) ∈ spans ↔ Maximal (LooseDigit p marks) i j) ∧
    rs = spans.map fun s => p.extract s.1 s.2

/-! ## Marking -/

/-- Behind an `x`, the hexadecimal digits among the next two characters belong to the escape. -/
theorem escapeLength_x (r : List Char) :
    escapeLength ('x' :: r) = ((r.take 2).takeWhile Glob.isHexDigit).length + 1 := by
  rcases r with - | ⟨high, - | ⟨low, r⟩⟩
  · rfl
  · cases hh : Glob.isHexDigit high <;> simp [escapeLength, hh]
  · cases hh : Glob.isHexDigit high <;> cases hl : Glob.isHexDigit low <;>
      simp [escapeLength, hh, hl]

/-- The length of an escape is that of what its backslash takes. -/
theorem Takes.escapeLength_eq {taken r : List Char} (h : Takes taken r) :
    escapeLength (taken ++ r) = taken.length := by
  cases h with
  | @code digits _ hhex hlen hmax =>
      -- no hexadecimal digit follows where there is room for one
      have hrest : ((r.take (2 - digits.length)).takeWhile Glob.isHexDigit) = [] := by
        rcases Nat.lt_or_ge digits.length 2 with hlt | hge
        · cases r with
          | nil => rw [List.take_nil, List.takeWhile_nil]
          | cons c r =>
              obtain ⟨n, hn⟩ := Nat.exists_eq_add_of_lt hlt
              rw [hn, show digits.length + n + 1 - digits.length = n + 1 by omega,
                List.take_succ_cons, List.takeWhile_cons_of_neg]
              simp [hmax hlt c rfl]
        · rw [Nat.sub_eq_zero_of_le hge, List.take_zero, List.takeWhile_nil]
      rw [List.cons_append, escapeLength_x, List.take_append, List.take_of_length_le hlen,
        List.takeWhile_append_of_pos hhex, hrest, List.append_nil, List.length_cons]
  | char hx hn => exact escapeLength_cons hn hx r
  | lineFeed => rfl
  | ending => rfl

/-- Every backslash takes something or nothing. -/
theorem exists_takes (s : List Char) : ∃ taken r, s = taken ++ r ∧ Takes taken r := by
  cases s with
  | nil => exact ⟨[], [], rfl, .ending⟩
  | cons c s =>
      by_cases hn : c = '\n'
      · subst hn
        exact ⟨[], _, rfl, .lineFeed⟩
      by_cases hx : c = 'x'
      · subst hx
        -- the digits end at the second one, at another character or at the end
        rcases s with - | ⟨high, s⟩
        · exact ⟨['x'], [], rfl, .code (by simp) (by simp) (by simp)⟩
        cases hh : Glob.isHexDigit high with
        | false => exact ⟨['x'], high :: s, rfl, .code (by simp) (by simp) (by simp [hh])⟩
        | true =>
            rcases s with - | ⟨low, s⟩
            · exact ⟨['x', high], [], rfl, .code (by simpa using hh) (by simp) (by simp)⟩
            cases hl : Glob.isHexDigit low with
            | false =>
                exact ⟨['x', high], low :: s, rfl,
                  .code (by simpa using hh) (by simp) (by simp [hl])⟩
            | true =>
                exact ⟨['x', high, low], s, rfl, .code (by simp [hh, hl]) (by simp) (by simp)⟩
      · exact ⟨[c], s, rfl, .char hx hn⟩

/-- Every text is marked, read from its start or from behind an escape. -/
theorem exists_marks_drop (p : List Char) : ∀ skip, ∃ marks, Marks (p.drop skip) marks := by
  induction p with
  | nil =>
      intro skip
      rw [List.drop_nil]
      exact ⟨[], .nil⟩
  | cons c r ih =>
      intro skip
      cases skip with
      | succ n => exact ih n
      | zero =>
          by_cases hc : c = '\\'
          · subst hc
            obtain ⟨taken, rest, rfl, htakes⟩ := exists_takes r
            obtain ⟨marks, hmarks⟩ := ih taken.length
            rw [List.drop_left] at hmarks
            exact ⟨_, .escape htakes hmarks⟩
          · obtain ⟨marks, hmarks⟩ := ih 0
            exact ⟨_, .plain hc hmarks⟩

theorem exists_marks (p : List Char) : ∃ marks, Marks p marks := exists_marks_drop p 0

theorem Marks.unique {p : List Char} {marks other : List Bool} (h : Marks p marks)
    (ho : Marks p other) : other = marks := by
  induction h generalizing other with
  | nil =>
      cases ho
      rfl
  | plain hc _ ih =>
      cases ho with
      | plain _ ho => rw [ih ho]
      | escape _ _ => exact absurd rfl hc
  | @escape taken r marks ht _ ih =>
      generalize hs : taken ++ r = s at ho
      cases ho with
      | plain hc _ => exact absurd rfl hc
      | @escape taken' r' _ ht' ho =>
          -- a backslash takes as much as the length of the escape says
          have hlen : taken.length = taken'.length := by
            rw [← ht.escapeLength_eq, ← ht'.escapeLength_eq, hs]
          obtain ⟨rfl, rfl⟩ := List.append_inj hs hlen
          rw [ih ho]

/-! ## Loose digits among parts -/

/-- For each character of parts, whether it belongs to a run. -/
def looseOf (ps : List Part) : List Bool :=
  ps.flatMap fun
    | .fixed _ => [false]
    | .run digits => List.replicate digits.length true

@[simp] theorem looseOf_nil : looseOf [] = [] := rfl
@[simp] theorem looseOf_fixed (c : Char) (ps : List Part) :
    looseOf (.fixed c :: ps) = false :: looseOf ps := rfl
@[simp] theorem looseOf_run (digits : List Char) (ps : List Part) :
    looseOf (.run digits :: ps) = List.replicate digits.length true ++ looseOf ps := rfl

theorem looseOf_consDigit (c : Char) (ps : List Part) :
    looseOf (consDigit c ps) = true :: looseOf ps := by
  unfold consDigit
  split <;> rfl

theorem looseOf_map_fixed_append (cs : List Char) (ps : List Part) :
    looseOf (cs.map .fixed ++ ps) = List.replicate cs.length false ++ looseOf ps := by
  induction cs with
  | nil => rfl
  | cons c cs ih => rw [List.map_cons, List.cons_append, looseOf_fixed, ih]; rfl

/-- The characters of an escape are fixed. -/
theorem partsFrom_append (s r : List Char) :
    partsFrom s.length (s ++ r) = s.map .fixed ++ partsFrom 0 r := by
  induction s with
  | nil => rfl
  | cons c s ih => rw [List.length_cons, List.cons_append, partsFrom, ih]; rfl

/-- Characters are parts of runs exactly if they are loose digits. -/
theorem Marks.looseOf_parts {p : List Char} {marks : List Bool} (h : Marks p marks) :
    looseOf (partsFrom 0 p) = List.zipWith (fun c mark => c.isDigit && !mark) p marks := by
  induction h with
  | nil => rfl
  | @plain c r marks hc _ ih =>
      rw [partsFrom, if_neg hc, List.zipWith_cons_cons, ← ih]
      cases hd : c.isDigit with
      | true => exact looseOf_consDigit c (partsFrom 0 r)
      | false => rfl
  | @escape taken r marks ht _ ih =>
      have hzip : List.zipWith (fun (c : Char) mark => c.isDigit && !mark) taken
          (List.replicate taken.length true) = List.replicate taken.length false := by
        apply List.eq_replicate_iff.2
        simp [List.mem_iff_getElem]
      rw [partsFrom, if_pos rfl, ht.escapeLength_eq, partsFrom_append, looseOf_fixed,
        looseOf_map_fixed_append, List.zipWith_cons_cons, List.zipWith_append (by simp), hzip, ← ih]
      simp

/-- No run is empty, and no two stand side by side. -/
inductive Separated : List Part → Prop
  | nil : Separated []
  | fixed {c : Char} {ps : List Part} : Separated ps → Separated (.fixed c :: ps)
  | run {digits : List Char} {ps : List Part} : digits ≠ [] →
      (∀ ds rest, ps ≠ .run ds :: rest) → Separated ps → Separated (.run digits :: ps)

/-- A digit put in front joins the run which is there. -/
theorem Separated.consDigit {ps : List Part} (h : Separated ps) (c : Char) :
    Separated (consDigit c ps) := by
  cases h with
  | nil => exact .run (by simp) (by simp) .nil
  | fixed h => exact .run (by simp) (by simp) (.fixed h)
  | run _ hmax h => exact .run (by simp) hmax h

theorem separated_partsFrom (escaped : Nat) (p : List Char) : Separated (partsFrom escaped p) := by
  induction p generalizing escaped with
  | nil => cases escaped <;> exact .nil
  | cons c r ih =>
      cases escaped with
      | succ n => exact .fixed (ih n)
      | zero =>
          rw [partsFrom]
          split
          · exact .fixed (ih _)
          · split
            · exact (ih 0).consDigit c
            · exact .fixed (ih 0)

/-! ## Spans of runs -/

/-- Move a span further on. -/
def shift (n : Nat) (s : Nat × Nat) : Nat × Nat := (s.1 + n, s.2 + n)

/-- The spans of the runs among parts, in order. -/
def spans : List Part → List (Nat × Nat)
  | [] => []
  | .fixed _ :: ps => (spans ps).map (shift 1)
  | .run digits :: ps => (0, digits.length) :: (spans ps).map (shift digits.length)

/-- The runs are what stands at their spans. -/
theorem map_extract_spans (ps : List Part) :
    (spans ps).map (fun s => (charsOf ps).extract s.1 s.2) = runsOf ps := by
  have hshift : ∀ front rest : List Char, ∀ s : Nat × Nat,
      (front ++ rest).extract (shift front.length s).1 (shift front.length s).2 =
        rest.extract s.1 s.2 := by
    intro front rest s
    rw [shift, List.extract, List.extract, Nat.add_sub_add_right, Nat.add_comm s.1,
      ← List.drop_drop, List.drop_left]
  induction ps with
  | nil => rfl
  | cons p ps ih =>
      cases p with
      | fixed c =>
          rw [spans, List.map_map, charsOf_fixed, runsOf_fixed, ← ih]
          exact List.map_congr_left fun s _ => hshift [c] (charsOf ps) s
      | run digits =>
          rw [spans, List.map_cons, List.map_map, charsOf_run, runsOf_run, ← ih]
          congr 1
          · simp [List.extract]
          · exact List.map_congr_left fun s _ => hshift digits (charsOf ps) s

/-- Spans stand in order. -/
theorem Separated.spans_ascending {ps : List Part} (h : Separated ps) :
    (spans ps).Pairwise fun s t => s.1 < t.1 := by
  induction h with
  | nil => exact .nil
  | fixed _ ih => exact List.pairwise_map.2 (ih.imp fun h => Nat.add_lt_add_right h 1)
  | @run digits ps hne _ _ ih =>
      apply List.pairwise_cons.2
      constructor
      · -- the spans behind the run have moved on by its length
        intro s hs
        obtain ⟨t, -, rfl⟩ := List.mem_map.1 hs
        exact Nat.add_pos_right t.1 (List.length_pos_iff.2 hne)
      · exact List.pairwise_map.2 (ih.imp fun h => Nat.add_lt_add_right h digits.length)

/-! ## Spans are maximal -/

section Maximal

variable {P Q : Nat → Prop} {n i j : Nat}

/-- A maximal sequence behind a boundary is one of what stands there. -/
theorem maximal_shift_iff (hshift : ∀ k, P (k + n) ↔ Q k)
    (hbound : ∀ k, k + 1 = n → P k → ¬Q 0) : Maximal P (i + n) (j + n) ↔ Maximal Q i j := by
  constructor
  · intro h
    constructor
    case nonempty => exact Nat.lt_of_add_lt_add_right h.nonempty
    case inside =>
      intro k hi hj
      exact (hshift k).1 (h.inside (k + n) (by omega) (by omega))
    case before =>
      intro k hk
      rw [← hshift]
      exact h.before (k + n) (by omega)
    case behind =>
      rw [← hshift]
      exact h.behind
  · intro h
    constructor
    case nonempty => exact Nat.add_lt_add_right h.nonempty n
    case inside =>
      intro k hi hj
      obtain ⟨m, rfl⟩ := Nat.exists_eq_add_of_le' (Nat.le_of_add_left_le hi)
      exact (hshift m).2 (h.inside m (by omega) (by omega))
    case before =>
      intro k hk
      cases i with
      | zero =>
          -- the sequence starts at the boundary
          intro hp
          exact hbound k (by omega) hp (h.inside 0 (Nat.le_refl 0) h.nonempty)
      | succ m =>
          obtain rfl : k = m + n := by omega
          rw [hshift]
          exact h.before m rfl
    case behind =>
      rw [hshift]
      exact h.behind

/-- The one maximal sequence which starts among positions that all have the property. -/
theorem maximal_front_iff (hfront : ∀ k, k < n → P k) (hend : ¬P n) (hi : i < n) :
    Maximal P i j ↔ i = 0 ∧ j = n := by
  constructor
  · intro h
    have hzero : i = 0 := by
      by_contra hne
      exact h.before (i - 1) (by omega) (hfront (i - 1) (by omega))
    refine ⟨hzero, ?_⟩
    rcases Nat.lt_trichotomy j n with hlt | heq | hgt
    · exact absurd (hfront j hlt) h.behind
    · exact heq
    · exact absurd (h.inside n (by omega) hgt) hend
  · rintro ⟨rfl, rfl⟩
    exact ⟨hi, fun k _ hk => hfront k hk, fun k hk => absurd hk (Nat.succ_ne_zero k), hend⟩

end Maximal

/-- What does not begin with a run does not begin with a loose digit. -/
theorem getElem?_zero_looseOf {ps : List Part} (h : ∀ ds rest, ps ≠ .run ds :: rest) :
    (looseOf ps)[0]? ≠ some true := by
  cases ps with
  | nil => simp
  | cons p ps =>
      cases p with
      | fixed c => simp
      | run digits => exact absurd rfl (h digits ps)

/-- The spans are the maximal sequences of characters which belong to runs. -/
theorem Separated.mem_spans_iff {ps : List Part} (h : Separated ps) {i j : Nat} :
    (i, j) ∈ spans ps ↔ Maximal (fun k => (looseOf ps)[k]? = some true) i j := by
  induction h generalizing i j with
  | nil =>
      constructor
      · intro hm
        cases hm
      · intro hmax
        have hi := hmax.inside i (Nat.le_refl i) hmax.nonempty
        simp at hi
  | @fixed c ps _ ih =>
      have hshift : ∀ k, (looseOf (.fixed c :: ps))[k + 1]? = some true ↔
          (looseOf ps)[k]? = some true := fun k => Iff.rfl
      have hzero : (looseOf (.fixed c :: ps))[0]? ≠ some true := by simp
      have hbound : ∀ k, k + 1 = 1 → (looseOf (.fixed c :: ps))[k]? = some true →
          ¬(looseOf ps)[0]? = some true := by
        intro k hk hp
        obtain rfl := Nat.succ.inj hk
        exact absurd hp hzero
      rw [spans, List.mem_map]
      constructor
      · rintro ⟨s, hs, he⟩
        obtain ⟨rfl, rfl⟩ := Prod.mk.inj he
        exact (maximal_shift_iff hshift hbound).2 (ih.1 hs)
      · intro hmax
        -- the fixed character is in no span
        rcases i with - | i
        · exact absurd (hmax.inside 0 (Nat.le_refl 0) hmax.nonempty) hzero
        obtain ⟨j, rfl⟩ := Nat.exists_eq_add_of_lt (Nat.zero_lt_of_lt hmax.nonempty)
        rw [Nat.zero_add] at hmax ⊢
        exact ⟨(i, j), ih.2 ((maximal_shift_iff hshift hbound).1 hmax), rfl⟩
  | @run digits ps hne hmax _ ih =>
      have hfront : ∀ k, k < digits.length →
          (looseOf (.run digits :: ps))[k]? = some true := by
        intro k hk
        rw [looseOf_run, List.getElem?_append_left (by simpa using hk),
          List.getElem?_replicate_of_lt hk]
      have hshift : ∀ k, (looseOf (.run digits :: ps))[k + digits.length]? = some true ↔
          (looseOf ps)[k]? = some true := by
        intro k
        rw [looseOf_run, List.getElem?_append_right (by simp)]
        simp
      have hend : ¬(looseOf ps)[0]? = some true := getElem?_zero_looseOf hmax
      have hend' : ¬(looseOf (.run digits :: ps))[digits.length]? = some true := by
        have h := (hshift 0).not.2 hend
        rwa [Nat.zero_add] at h
      have hbound : ∀ k, k + 1 = digits.length →
          (looseOf (.run digits :: ps))[k]? = some true → ¬(looseOf ps)[0]? = some true :=
        fun _ _ _ => hend
      rw [spans, List.mem_cons, List.mem_map, Prod.mk.injEq]
      rcases Nat.lt_or_ge i digits.length with hi | hi
      · -- a sequence which starts within the run is the run
        rw [maximal_front_iff hfront hend' hi, or_iff_left]
        rintro ⟨s, -, he⟩
        obtain ⟨rfl, -⟩ := Prod.mk.inj he
        exact absurd hi (Nat.not_lt_of_le (Nat.le_add_left _ _))
      · obtain ⟨i, rfl⟩ := Nat.exists_eq_add_of_le' hi
        constructor
        · rintro (⟨hzero, -⟩ | ⟨s, hs, he⟩)
          · have hpos := List.length_pos_iff.2 hne
            omega
          · obtain ⟨hi, rfl⟩ := Prod.mk.inj he
            obtain rfl := Nat.add_right_cancel hi
            exact (maximal_shift_iff hshift hbound).2 (ih.1 hs)
        · intro hmax'
          have hlt := hmax'.nonempty
          obtain ⟨j, rfl⟩ := Nat.exists_eq_add_of_le' (Nat.le_of_lt (Nat.lt_of_le_of_lt hi hlt))
          exact .inr ⟨(i, j), ih.2 ((maximal_shift_iff hshift hbound).1 hmax'), rfl⟩

/-- Parts without runs have no loose digit. -/
theorem Separated.runsOf_eq_nil_iff {ps : List Part} (h : Separated ps) :
    runsOf ps = [] ↔ ∀ k : Nat, (looseOf ps)[k]? ≠ some true := by
  have hmem : runsOf ps = [] ↔ true ∉ looseOf ps := by
    induction h with
    | nil => simp
    | fixed _ ih => simpa using ih
    | run hne _ _ _ => simp [hne]
  rw [hmem, List.mem_iff_getElem?, not_exists]

/-! ## Scans -/

variable {p : Pattern} {marks : List Bool}

/-- Loose digits are the characters which belong to runs. -/
theorem Marks.looseDigit_iff (h : Marks p marks) {k : Nat} :
    LooseDigit p marks k ↔ (looseOf (parts p))[k]? = some true := by
  rw [LooseDigit, parts, h.looseOf_parts, List.getElem?_zipWith]
  cases p[k]? <;> cases marks[k]? <;> simp

theorem Marks.runs_eq_nil_iff (h : Marks p marks) :
    runs p = [] ↔ ∀ k, ¬LooseDigit p marks k := by
  simp only [h.looseDigit_iff]
  exact (separated_partsFrom 0 p).runsOf_eq_nil_iff

/-- The runs of a pattern are its maximal sequences of loose digits. -/
theorem Marks.findsRuns (h : Marks p marks) : FindsRuns p marks (runs p) := by
  have hseparated := separated_partsFrom 0 p
  have hloose : LooseDigit p marks = fun k => (looseOf (parts p))[k]? = some true :=
    funext fun _ => propext h.looseDigit_iff
  refine ⟨spans (parts p), hseparated.spans_ascending, ?_, ?_⟩
  · intro i j
    rw [hloose]
    exact hseparated.mem_spans_iff
  · have hruns := map_extract_spans (parts p)
    rw [charsOf_parts] at hruns
    exact hruns.symm

/-- **A scan finds the digits outside of escapes and loses nothing.** Every text has one marking of
its escapes. A pattern has no scan exactly if it has no loose digit; otherwise the runs are its
maximal sequences of loose digits in order, the skeleton has a slot for each of them, and they fill
it up to the pattern. -/
theorem scan?_exact (h : ¬ slot <:+: p) :
    ∃ marks, Marks p marks ∧ (∀ other, Marks p other → other = marks) ∧
      (scan? p = none ↔ ∀ i, ¬LooseDigit p marks i) ∧
      ∀ s, scan? p = some s → FindsRuns p marks s.runs ∧
        slotCount s.skeleton = s.runs.length ∧ fill s.skeleton s.runs = p := by
  obtain ⟨marks, hmarks⟩ := exists_marks p
  refine ⟨marks, hmarks, fun _ ho => hmarks.unique ho, ?_, ?_⟩
  · rw [scan?_eq_none_iff, hmarks.runs_eq_nil_iff]
  · intro s hs
    obtain ⟨-, rfl⟩ := scan?_eq_some_iff.1 hs
    refine ⟨hmarks.findsRuns, slotCount_skeleton h, ?_⟩
    have hfill : fill (skeleton p) (runs p) = charsOf (parts p) :=
      fill_slotted_runs (by rwa [charsOf_parts])
    rwa [charsOf_parts] at hfill

/-! ## Digits around escapes -/

/-- Escapes of each kind between digits: a short code, a backslash, a digit and a full code. -/
def escapedPattern : Pattern := "12\\x3\\\\4\\5\\x678".toList

/-- The scan of the pattern. -/
def escapedScan : Scan where
  skeleton := "(\\d+)\\x3\\\\(\\d+)\\5\\x67(\\d+)".toList
  runs := ["12".toList, "4".toList, "8".toList]

theorem scan?_exact_escaped :
    ¬ slot <:+: escapedPattern ∧ scan? escapedPattern = some escapedScan ∧
      ∃ marks, Marks escapedPattern marks ∧ FindsRuns escapedPattern marks escapedScan.runs ∧
        fill escapedScan.skeleton escapedScan.runs = escapedPattern := by
  have hslot : ¬ slot <:+: escapedPattern := by decide
  have hscan : scan? escapedPattern = some escapedScan := by decide
  obtain ⟨marks, hmarks, -, -, hfound⟩ := scan?_exact hslot
  obtain ⟨hruns, -, hfill⟩ := hfound escapedScan hscan
  exact ⟨hslot, hscan, marks, hmarks, hruns, hfill⟩

end AgentAtlas.Pattern
