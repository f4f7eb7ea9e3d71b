import AgentAtlas.Proofs.Artifact.RowOrder

/-!
# Compiling reorders rows and changes none

A stable order of rows puts longer names first, of equally long names those with more characters
besides the wildcards, and leaves the rest as they arrived. A list of rows has exactly one
(`stableOrder_iff`). The rows of an artifact are numbered along it, and each keeps its properties
and its parent, whose key has turned into the number of the parent's row (`compile_reorders`).
-/

set_option autoImplicit false

namespace AgentAtlas.Artifact

open Glob (fixedCount)

variable {rows : List Row} {a : Artifact}

/-- A row that arrived stands before another: its name is no shorter; of equally long names it has
no fewer characters besides the wildcards; of names which agree in both it arrived earlier. -/
def StandsBefore (r s : Row × Nat) : Prop :=
  s.1.orderName.utf8ByteSize ≤ r.1.orderName.utf8ByteSize ∧
    (r.1.orderName.utf8ByteSize = s.1.orderName.utf8ByteSize →
      fixedCount s.1.orderName ≤ fixedCount r.1.orderName ∧
        (fixedCount r.1.orderName = fixedCount s.1.orderName → r.2 < s.2))

/-- The rows in a stable order, each with the number of its arrival. -/
structure StableOrder (rows : List Row) (order : List (Row × Nat)) : Prop where
  perm : order.Perm rows.zipIdx
  sorted : order.Pairwise StandsBefore

/-- What a compiled row keeps of a row, where the rows stand in an order. -/
structure Keeps (order : List (Row × Nat)) (row : Row) (compiled : ArtifactRow) : Prop where
  properties : compiled.properties = row.properties.entries
  /-- The parent is the row of the parent's key. -/
  parent : ∀ i, compiled.parent? = some i ↔ ∃ r, order[i]? = some r ∧ row.parent? = some r.1.key
  /-- No parent is lost. -/
  orphan : compiled.parent? = none ↔ row.parent? = none

/-! ## The order -/

theorem StandsBefore.asymm {r s : Row × Nat} (h : StandsBefore r s) : ¬StandsBefore s r := by
  unfold StandsBefore at *
  omega

/-- No list of rows has two stable orders. -/
theorem StableOrder.unique {order other : List (Row × Nat)} (h : StableOrder rows order)
    (ho : StableOrder rows other) : order = other := by
  apply List.Perm.eq_of_pairwise ?_ h.sorted ho.sorted (h.perm.trans ho.perm.symm)
  intro r s _ _ hrs hsr
  exact absurd hsr hrs.asymm

/-- Loose bytes are the bytes which are not counted as fixed characters. -/
theorem Precedes.standsBefore {r s : Row × Nat} (h : Precedes Glob.looseCount r s) :
    StandsBefore r s := by
  have hr := Glob.fixedCount_le_utf8ByteSize r.1.orderName
  have hs := Glob.fixedCount_le_utf8ByteSize s.1.orderName
  simp only [Precedes, Glob.looseCount] at h
  unfold StandsBefore
  omega

/-- Sorting gives a stable order. -/
theorem stableOrder_arrivals (rows : List Row) : StableOrder rows (arrivals rows) where
  perm := arrivals_perm rows
  sorted := by
    rw [List.pairwise_iff_getElem]
    intro p q hp hq hlt
    exact (precedes_of_lt (List.getElem?_eq_getElem hp) (List.getElem?_eq_getElem hq)
      hlt).standsBefore

theorem stableOrder_iff {order : List (Row × Nat)} :
    StableOrder rows order ↔ order = arrivals rows := by
  constructor
  · exact fun h => h.unique (stableOrder_arrivals rows)
  · rintro rfl
    exact stableOrder_arrivals rows

/-! ## The rows -/

/-- Compiling finds the row of every parent. -/
theorem exists_position?_of_compile (hc : compile rows = .ok a) {row : Row} (h : row ∈ rows)
    {parent : String} (hp : row.parent? = some parent) :
    ∃ i, position? (arranged rows) parent = some i := by
  rw [compile, bind_eq_ok_iff] at hc
  obtain ⟨links, hlinks, -⟩ := hc
  obtain ⟨link, hlink⟩ := exists_of_mapM_eq_ok hlinks row (mem_arranged.2 h)
  rcases parentLink_eq_ok_iff.1 hlink with ⟨hnone, -⟩ | ⟨key, i, hkey, hi, -⟩
  · rw [hp] at hnone
    cases hnone
  · rw [hp, Option.some.injEq] at hkey
    exact ⟨i, hkey ▸ hi⟩

/-- The position of a key is the place of its row in the order. -/
theorem position?_eq_some_iff_arrivals (hn : (rows.map Row.key).Nodup) {key : String} {i : Nat} :
    position? (arranged rows) key = some i ↔
      ∃ r, (arrivals rows)[i]? = some r ∧ r.1.key = key := by
  rw [position?_eq_some_iff (nodup_keys_arranged hn), ← map_fst_arrivals, List.getElem?_map]
  simp only [Option.map_eq_some_iff, exists_exists_and_eq_and]

/-- A compiled row keeps what the row at its place of the order has. -/
theorem keeps_of_arrivals (hn : (rows.map Row.key).Nodup) (hc : compile rows = .ok a) {i : Nat}
    {r : Row × Nat} (hr : (arrivals rows)[i]? = some r) :
    ∃ compiled, a.rows.get? i = some compiled ∧ Keeps (arrivals rows) r.1 compiled := by
  refine ⟨_, (get?_rows_of_arrivals hc i).trans (congrArg _ hr), rfl, ?_, ?_⟩
  · intro j
    simp only [Option.bind_eq_some_iff, position?_eq_some_iff_arrivals hn]
    constructor
    · rintro ⟨key, hp, s, hs, rfl⟩
      exact ⟨s, hs, hp⟩
    · rintro ⟨s, hs, hp⟩
      exact ⟨s.1.key, hp, s, hs, rfl⟩
  · constructor
    · -- a parent would have a place
      intro h
      by_contra hparent
      obtain ⟨parent, hp⟩ := Option.ne_none_iff_exists'.1 hparent
      have hmem := List.mem_of_getElem? (getElem?_of_mem_arrivals (List.mem_of_getElem? hr))
      obtain ⟨j, hj⟩ := exists_position?_of_compile hc hmem hp
      simp only [hp, Option.bind_some, hj, reduceCtorEq] at h
    · intro hp
      simp only [hp, Option.bind_none]

/-- **Compiling puts the rows in their one stable order and changes nothing of them.** The rows of
an artifact are numbered from zero on along that order, and each keeps its properties and its
parent. -/
theorem compile_reorders (hn : (rows.map Row.key).Nodup) (hc : compile rows = .ok a) :
    ∃ order, StableOrder rows order ∧ (∀ other, StableOrder rows other → other = order) ∧
      a.rows.keys = List.range order.length ∧
      ∀ i r, order[i]? = some r →
        ∃ compiled, a.rows.get? i = some compiled ∧ Keeps order r.1 compiled := by
  refine ⟨arrivals rows, stableOrder_arrivals rows, fun _ h => stableOrder_iff.1 h, ?_, ?_⟩
  · rw [keys_rows_of_compile hc, (arrivals_perm rows).length_eq, List.length_zipIdx]
  · intro i r hr
    exact keeps_of_arrivals hn hc hr

/-! ## Names of two bytes -/

/-- A row with a parent and a property. -/
def linkedRow (name : String) (parent? : Option String) (value : Property.Value) : Row :=
  ⟨name, some name, parent?, false, Keyed.ofList [("Browser", value), ("Alpha", .flag true)]⟩

/-- The row of a name under another key, which is longer. -/
def topRow : Row := { linkedRow "é" none (.text "E") with key := "top" }

/-- Four names of two bytes, each below a row that arrived later or none. Three have one fixed
character. -/
def tiedRows : List Row := [
  linkedRow "b*" (some "top") (.text "B"), topRow,
  linkedRow "a?" (some "ab") (.text "A"), linkedRow "ab" (some "top") (.text "AB")]

/-- The row of two fixed characters stands first, and the others stay as they arrived. -/
def tiedOrder : List (Row × Nat) := [
  (linkedRow "ab" (some "top") (.text "AB"), 3), (linkedRow "b*" (some "top") (.text "B"), 0),
  (topRow, 1), (linkedRow "a?" (some "ab") (.text "A"), 2)]

instance : DecidableRel StandsBefore := fun _ _ => inferInstanceAs (Decidable (_ ∧ _))

theorem stableOrder_tiedRows : StableOrder tiedRows tiedOrder where
  perm := by decide
  sorted := by decide

theorem arranged_tiedRows : arranged tiedRows = tiedOrder.map Prod.fst := by
  rw [← map_fst_arrivals, ← stableOrder_iff.1 stableOrder_tiedRows]

/-- The artifact of the rows. -/
def tiedArtifact : Artifact where
  patterns := Table.ofList [("^ab$", .row 0), ("^b.*$", .row 1), ("^é$", .row 2), ("^a.$", .row 3)]
  rows := Table.ofPositions [
    ⟨some 2, [("Browser", .text "AB"), ("Alpha", .flag true)]⟩,
    ⟨some 2, [("Browser", .text "B"), ("Alpha", .flag true)]⟩,
    ⟨none, [("Browser", .text "E"), ("Alpha", .flag true)]⟩,
    ⟨some 0, [("Browser", .text "A"), ("Alpha", .flag true)]⟩]
  parents := Table.ofList [(2, "top"), (0, "ab")]

theorem compile_tiedRows : compile tiedRows = .ok tiedArtifact := by
  rw [compile, arranged_tiedRows]
  rfl

/-- The row which arrived third is the last one, and its parent is the first. The row which arrived
first keeps a parent that stands by another name than its key. -/
theorem compile_reorders_tied :
    (tiedRows.map Row.key).Nodup ∧ compile tiedRows = .ok tiedArtifact ∧
      (∃ compiled, tiedArtifact.rows.get? 3 = some compiled ∧
        Keeps tiedOrder (linkedRow "a?" (some "ab") (.text "A")) compiled) ∧
      ∃ compiled, tiedArtifact.rows.get? 1 = some compiled ∧ compiled.parent? = some 2 ∧
        Keeps tiedOrder (linkedRow "b*" (some "top") (.text "B")) compiled := by
  have hkeys : (tiedRows.map Row.key).Nodup := by decide
  obtain ⟨order, -, hunique, -, hkeeps⟩ := compile_reorders hkeys compile_tiedRows
  obtain rfl := hunique tiedOrder stableOrder_tiedRows
  obtain ⟨compiled, hcompiled, hkept⟩ := hkeeps 1 _ rfl
  obtain rfl := Option.some.inj hcompiled
  exact ⟨hkeys, compile_tiedRows, hkeeps 3 _ rfl, _, rfl, rfl, hkept⟩

end AgentAtlas.Artifact
