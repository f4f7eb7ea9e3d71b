import AgentAtlas.Proofs.Artifact.PatternTable
import Mathlib.Data.String.Basic

/-!
# The order of compiled rows

The promise to consumers is that longer names come before shorter ones, of equally long names the
one with fewer wildcards, and that the rest stay as they arrived: `Precedes Glob.wildcardCount`.

Sorting counts the characters besides the wildcards. Lengths are in bytes, so a character of several
bytes counts there for all of them and here for one, and its further bytes weigh as much as
wildcards: the order of compiled rows is `Precedes Glob.looseCount` (`ordered_looseCount`). The two
orders are the same for names of single bytes (`looseCount_eq_wildcardCount`), and the promise is
kept for a list of rows exactly if they rank its equally long names alike (`compile_ordered_iff`).
It is broken for names with an accent (`accented_name_late`).
-/

set_option autoImplicit false

namespace AgentAtlas

namespace Glob

/-- The number of wildcards of a name. -/
def wildcardCount (name : String) : Nat := name.toList.countP isWildcard

/-- The bytes of a name beyond one for each character besides the wildcards: the wildcards, and the
further bytes of longer characters. -/
def looseCount (name : String) : Nat := name.utf8ByteSize - fixedCount name

theorem wildcardCount_add_fixedCount (name : String) :
    wildcardCount name + fixedCount name = name.length := by
  have hfixed : fixedCount name = name.toList.countP fun c => !isWildcard c :=
    List.countP_eq_length_filter.symm
  rw [hfixed, wildcardCount, ← String.length_toList,
    List.length_eq_countP_add_countP isWildcard]
  simp only [Bool.not_eq_true, Bool.decide_eq_false]

/-- A character has at least one byte. -/
theorem length_le_utf8ByteSize (name : String) : name.length ≤ name.utf8ByteSize := by
  rw [← String.length_toList, ← String.utf8Len_toList]
  induction name.toList with
  | nil => exact Nat.le_refl 0
  | cons c rest ih =>
      have hpos := c.utf8Size_pos
      rw [List.length_cons, String.utf8Len_cons]
      omega

theorem fixedCount_le_utf8ByteSize (name : String) : fixedCount name ≤ name.utf8ByteSize := by
  have hcount := wildcardCount_add_fixedCount name
  have hlength := length_le_utf8ByteSize name
  omega

/-- In a name of single bytes only the wildcards are loose. -/
theorem looseCount_eq_wildcardCount {name : String} (h : name.utf8ByteSize = name.length) :
    looseCount name = wildcardCount name := by
  have hcount := wildcardCount_add_fixedCount name
  rw [looseCount, h]
  omega

/-- Of equally long names the one with more fixed characters has fewer loose bytes. -/
theorem atLeastAsSpecific_iff {a b : String} :
    atLeastAsSpecific a b = true ↔ b.utf8ByteSize < a.utf8ByteSize ∨
      a.utf8ByteSize = b.utf8ByteSize ∧ looseCount a ≤ looseCount b := by
  have ha := fixedCount_le_utf8ByteSize a
  have hb := fixedCount_le_utf8ByteSize b
  simp only [atLeastAsSpecific, looseCount, Bool.or_eq_true, Bool.and_eq_true, decide_eq_true_eq,
    beq_iff_eq]
  omega

end Glob

namespace Artifact

open Glob (atLeastAsSpecific wildcardCount looseCount)

variable {rows : List Row} {a : Artifact}

/-- The rows with the numbers of their arrivals, in their final order. -/
def arrivals (rows : List Row) : List (Row × Nat) :=
  rows.zipIdx.mergeSort (List.zipIdxLE fun r s => atLeastAsSpecific r.orderName s.orderName)

/-- A row that arrived is to stand before another: its name is longer, or as long and of the lesser
count, or equal in both and the row arrived earlier. -/
def Precedes (count : String → Nat) (r s : Row × Nat) : Prop :=
  s.1.orderName.utf8ByteSize < r.1.orderName.utf8ByteSize ∨
    r.1.orderName.utf8ByteSize = s.1.orderName.utf8ByteSize ∧
      (count r.1.orderName < count s.1.orderName ∨
        count r.1.orderName = count s.1.orderName ∧ r.2 < s.2)

/-- Rows get their positions in the order of a count. -/
def Ordered (count : String → Nat) (rows : List Row) : Prop :=
  ∀ (p q : Nat) (r s : Row × Nat), (arrivals rows)[p]? = some r → (arrivals rows)[q]? = some s →
    Precedes count r s → p < q

/-! ## Positions of arrivals -/

/-- Without the arrivals this is the order of the rows. -/
theorem map_fst_arrivals (rows : List Row) : (arrivals rows).map Prod.fst = arranged rows :=
  List.mergeSort_zipIdx

theorem arrivals_perm (rows : List Row) : (arrivals rows).Perm rows.zipIdx :=
  List.mergeSort_perm _ _

theorem getElem?_of_mem_arrivals {r : Row × Nat} (h : r ∈ arrivals rows) :
    rows[r.2]? = some r.1 :=
  List.mem_zipIdx_iff_getElem?.1 ((arrivals_perm rows).mem_iff.1 h)

/-- Every row has a position. -/
theorem exists_getElem?_arrivals {i : Nat} {row : Row} (h : rows[i]? = some row) :
    ∃ p : Nat, (arrivals rows)[p]? = some (row, i) :=
  List.mem_iff_getElem?.1 ((arrivals_perm rows).mem_iff.2 (List.mem_zipIdx_iff_getElem?.2 h))

/-- Two positions of one arrival are the same. -/
theorem eq_of_arrivals_eq {p q : Nat} {r s : Row × Nat} (hp : (arrivals rows)[p]? = some r)
    (hq : (arrivals rows)[q]? = some s) (h : r.2 = s.2) : p = q := by
  have hnodup : ((arrivals rows).map Prod.snd).Nodup := by
    rw [((arrivals_perm rows).map Prod.snd).nodup_iff, List.zipIdx_map_snd]
    exact List.nodup_range'
  obtain ⟨hlt, -⟩ := List.getElem?_eq_some_iff.1 hp
  refine (List.getElem?_inj (by simpa using hlt) hnodup).1 ?_
  rw [List.getElem?_map, List.getElem?_map, hp, hq, Option.map_some, Option.map_some, h]

/-- Of two arrivals the sort puts the one in front which has fewer loose bytes in an equally long
name. -/
theorem zipIdxLE_iff {r s : Row × Nat} (hne : r.2 ≠ s.2) :
    List.zipIdxLE (fun r s => atLeastAsSpecific r.orderName s.orderName) r s = true ↔
      Precedes looseCount r s := by
  rw [List.zipIdxLE, Precedes]
  by_cases hrs : atLeastAsSpecific r.1.orderName s.1.orderName = true
  · by_cases hsr : atLeastAsSpecific s.1.orderName r.1.orderName = true
    · rw [if_pos hrs, if_pos hsr, decide_eq_true_eq]
      rw [Glob.atLeastAsSpecific_iff] at hrs hsr
      omega
    · rw [if_pos hrs, if_neg hsr]
      rw [Glob.atLeastAsSpecific_iff] at hrs hsr
      simp only [true_iff]
      omega
  · rw [if_neg hrs]
    rw [Glob.atLeastAsSpecific_iff] at hrs
    simp only [Bool.false_eq_true, false_iff]
    omega

theorem arrivals_sorted (rows : List Row) : (arrivals rows).Pairwise fun r s =>
    List.zipIdxLE (fun r s => atLeastAsSpecific r.orderName s.orderName) r s = true := by
  apply List.pairwise_mergeSort
  · apply List.zipIdxLE_trans
    exact fun r s t => Glob.atLeastAsSpecific_trans r.orderName s.orderName t.orderName
  · apply List.zipIdxLE_total
    exact fun r s => Glob.atLeastAsSpecific_total r.orderName s.orderName

/-- An earlier position is one of fewer loose bytes, among names of one length. -/
theorem precedes_of_lt {p q : Nat} {r s : Row × Nat} (hp : (arrivals rows)[p]? = some r)
    (hq : (arrivals rows)[q]? = some s) (h : p < q) : Precedes looseCount r s := by
  have hne : r.2 ≠ s.2 := fun heq => Nat.ne_of_lt h (eq_of_arrivals_eq hp hq heq)
  obtain ⟨hp', rfl⟩ := List.getElem?_eq_some_iff.1 hp
  obtain ⟨hq', rfl⟩ := List.getElem?_eq_some_iff.1 hq
  exact (zipIdxLE_iff hne).1 (List.pairwise_iff_getElem.1 (arrivals_sorted rows) p q hp' hq' h)

theorem Precedes.asymm {count : String → Nat} {r s : Row × Nat} (h : Precedes count r s) :
    ¬Precedes count s r := by
  unfold Precedes at *
  omega

/-- Rows get their positions by the loose bytes of their names. -/
theorem ordered_looseCount (rows : List Row) : Ordered looseCount rows := by
  intro p q r s hp hq h
  rcases Nat.lt_trichotomy p q with hlt | rfl | hgt
  · exact hlt
  · rw [hp, Option.some.injEq] at hq
    exact absurd h (hq ▸ h.asymm)
  · exact absurd h (precedes_of_lt hq hp hgt).asymm

/-- A compiled row is the one which stands at its position. -/
theorem get?_rows_of_arrivals (h : compile rows = .ok a) (p : Nat) :
    a.rows.get? p = (arrivals rows)[p]?.map fun r =>
      ⟨r.1.parent?.bind (position? (arranged rows)), r.1.properties.entries⟩ := by
  rw [get?_rows_of_compile h, ← map_fst_arrivals, List.getElem?_map, Option.map_map]
  rfl

/-! ## The promise -/

/-- Of two rows with equally long names the earlier one has no more wildcards exactly if it has no
more loose bytes. -/
def RankedAlike (rows : List Row) : Prop :=
  ∀ (i j : Nat) (r s : Row), i < j → rows[i]? = some r → rows[j]? = some s →
    r.orderName.utf8ByteSize = s.orderName.utf8ByteSize →
      (wildcardCount r.orderName ≤ wildcardCount s.orderName ↔
        looseCount r.orderName ≤ looseCount s.orderName)

/-- Rows whose names have a byte for each character are ranked alike. -/
theorem rankedAlike_of_single_bytes
    (h : ∀ row ∈ rows, row.orderName.utf8ByteSize = row.orderName.length) : RankedAlike rows := by
  intro i j r s _ hr hs _
  rw [Glob.looseCount_eq_wildcardCount (h r (List.mem_of_getElem? hr)),
    Glob.looseCount_eq_wildcardCount (h s (List.mem_of_getElem? hs))]

theorem ordered_wildcardCount_iff (rows : List Row) :
    Ordered wildcardCount rows ↔ RankedAlike rows := by
  constructor
  · intro h i j r s hij hr hs hlen
    obtain ⟨p, hp⟩ := exists_getElem?_arrivals hr
    obtain ⟨q, hq⟩ := exists_getElem?_arrivals hs
    -- both counts decide on which side of `q` the position `p` is
    rcases Nat.lt_or_ge (wildcardCount s.orderName) (wildcardCount r.orderName) with hw | hw
    · have hlt := h q p (s, j) (r, i) hq hp (.inr ⟨hlen.symm, .inl hw⟩)
      have hloose := precedes_of_lt hq hp hlt
      simp only [Precedes] at hloose
      omega
    · have hlt := h p q (r, i) (s, j) hp hq (.inr ⟨hlen, by dsimp only; omega⟩)
      have hloose := precedes_of_lt hp hq hlt
      simp only [Precedes] at hloose
      omega
  · intro h p q r s hp hq hrs
    refine ordered_looseCount rows p q r s hp hq ?_
    have hr := getElem?_of_mem_arrivals (List.mem_of_getElem? hp)
    have hs := getElem?_of_mem_arrivals (List.mem_of_getElem? hq)
    rcases hrs with hlen | ⟨hlen, hcount⟩
    · exact .inl hlen
    · refine .inr ⟨hlen, ?_⟩
      rcases Nat.lt_trichotomy r.2 s.2 with hlt | heq | hgt
      · have halike := h r.2 s.2 r.1 s.1 hlt hr hs hlen
        omega
      · -- one arrival has one name
        rw [heq, hs, Option.some.injEq] at hr
        rw [hr] at hcount
        omega
      · have halike := h s.2 r.2 s.1 r.1 hgt hs hr hlen.symm
        omega

/-- **Compiled rows stand in the order of their names' lengths, then of their loose bytes, then of
their arrival.** This is the promised order exactly if loose bytes rank the equally long names as
their wildcards do. -/
theorem compile_ordered_iff (h : compile rows = .ok a) :
    (arrivals rows).Perm rows.zipIdx ∧
      (∀ p, a.rows.get? p = (arrivals rows)[p]?.map fun r =>
        ⟨r.1.parent?.bind (position? (arranged rows)), r.1.properties.entries⟩) ∧
      Ordered looseCount rows ∧ (Ordered wildcardCount rows ↔ RankedAlike rows) :=
  ⟨arrivals_perm rows, get?_rows_of_arrivals h, ordered_looseCount rows,
    ordered_wildcardCount_iff rows⟩

/-! ## Names with an accent -/

/-- A row whose key is longer than any name, by which it does not stand. -/
def keyedRow : Row := { bareRow "ab" false with key := "ab in full" }

/-- Two names of four bytes, the first without wildcards, behind a shorter one. -/
def accentedRows : List Row := [keyedRow, bareRow "éé" false, bareRow "abc*" false]

theorem arranged_accentedRows :
    arranged accentedRows = [bareRow "abc*" false, bareRow "éé" false, keyedRow] := by
  apply arranged_eq_of_descending
  · decide
  · decide

/-- The artifact of the rows. -/
def accentedArtifact : Artifact where
  patterns := Table.ofList [("^ab$", .row 2), ("^abc.*$", .row 0), ("^éé$", .row 1)]
  rows := Table.ofPositions (accentedRows.map fun _ => ⟨none, []⟩)
  parents := .empty

theorem compile_accentedRows : compile accentedRows = .ok accentedArtifact := by
  rw [compile, arranged_accentedRows]
  rfl

theorem compile_ordered_iff_accented :
    compile accentedRows = .ok accentedArtifact ∧
      accentedArtifact.rows.get? 2 = some ⟨none, []⟩ ∧ Ordered looseCount accentedRows ∧
      (Ordered wildcardCount accentedRows ↔ RankedAlike accentedRows) := by
  obtain ⟨-, -, hordered, hpromise⟩ := compile_ordered_iff compile_accentedRows
  exact ⟨compile_accentedRows, by decide, hordered, hpromise⟩

/-- A name without wildcards stands behind an equally long one with a wildcard, though it arrived
first: the further bytes of two accents weigh more than the wildcard. -/
theorem accented_name_late :
    compile accentedRows = .ok accentedArtifact ∧ keyAt? accentedRows 0 = some "abc*" ∧
      keyAt? accentedRows 1 = some "éé" ∧ ¬Ordered wildcardCount accentedRows := by
  refine ⟨compile_accentedRows, ?_, ?_, ?_⟩
  · rw [keyAt?, arranged_accentedRows]
    rfl
  · rw [keyAt?, arranged_accentedRows]
    rfl
  · rw [ordered_wildcardCount_iff]
    intro h
    have halike := h 1 2 (bareRow "éé" false) (bareRow "abc*" false) (by decide) rfl rfl (by decide)
    revert halike
    decide

end Artifact

end AgentAtlas
