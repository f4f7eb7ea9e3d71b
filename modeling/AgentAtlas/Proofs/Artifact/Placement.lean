import AgentAtlas.Artifact
import AgentAtlas.Proofs.Sequencing
import Mathlib.Data.List.Nodup

/-!
# Where rows stand in an artifact

Arranging permutes the rows, and an artifact numbers them in their new order. Where no key occurs
twice, a key has one position, the one at which its row stands (`position?_eq_some_iff`). A compiled
artifact keeps the properties of every row and turns the parent's key into the parent's position
(`get?_rows_of_compile`); its parent table holds exactly the parents so found
(`get?_parents_of_compile`).
-/

set_option autoImplicit false

namespace AgentAtlas.Artifact

variable {rows : List Row} {a : Artifact}

/-- The key of the row which stands at a position after arranging. -/
def keyAt? (rows : List Row) (i : Nat) : Option String := (arranged rows)[i]?.map Row.key

theorem arranged_perm (rows : List Row) : (arranged rows).Perm rows :=
  List.mergeSort_perm rows _

@[simp] theorem mem_arranged {row : Row} : row ∈ arranged rows ↔ row ∈ rows :=
  (arranged_perm rows).mem_iff

@[simp] theorem length_arranged (rows : List Row) : (arranged rows).length = rows.length :=
  (arranged_perm rows).length_eq

theorem nodup_keys_arranged (h : (rows.map Row.key).Nodup) :
    ((arranged rows).map Row.key).Nodup :=
  ((arranged_perm rows).map Row.key).nodup_iff.2 h

/-- Rows whose names get strictly less specific are in their final order. -/
theorem arranged_eq_of_descending {order : List Row} (hp : order.Perm rows)
    (hs : order.Pairwise fun r s => Glob.atLeastAsSpecific s.orderName r.orderName = false) :
    arranged rows = order := by
  have hle : order.Pairwise fun r s =>
      Glob.atLeastAsSpecific r.orderName s.orderName = true := by
    apply hs.imp
    intro r s h
    have htotal := Glob.atLeastAsSpecific_total r.orderName s.orderName
    rwa [h, Bool.or_false] at htotal
  have hsorted : (arranged rows).Pairwise fun r s =>
      Glob.atLeastAsSpecific r.orderName s.orderName = true := by
    apply List.pairwise_mergeSort
    · exact fun r s t => Glob.atLeastAsSpecific_trans r.orderName s.orderName t.orderName
    · exact fun r s => Glob.atLeastAsSpecific_total r.orderName s.orderName
  have hperm := (arranged_perm rows).trans hp.symm
  apply List.Perm.eq_of_pairwise ?_ hsorted hle hperm
  intro r s hr hm hrs hsr
  obtain ⟨i, hi, rfl⟩ := List.mem_iff_getElem.1 (hperm.mem_iff.1 hr)
  obtain ⟨j, hj, rfl⟩ := List.mem_iff_getElem.1 hm
  -- rows at two places are not as specific as each other
  rcases Nat.lt_trichotomy i j with hij | rfl | hji
  · rw [List.pairwise_iff_getElem.1 hs i j hi hj hij] at hsr
    cases hsr
  · rfl
  · rw [List.pairwise_iff_getElem.1 hs j i hj hi hji] at hrs
    cases hrs

theorem keyAt?_eq_some_iff {i : Nat} {key : String} :
    keyAt? rows i = some key ↔ ∃ row, (arranged rows)[i]? = some row ∧ row.key = key :=
  Option.map_eq_some_iff

/-- A position which is found for a key holds a row of that key. -/
theorem key_of_position? {key : String} {i : Nat} (h : position? rows key = some i) :
    ∃ row, rows[i]? = some row ∧ row.key = key := by
  rw [position?, List.lookup_eq_some_iff] at h
  obtain ⟨before, after, hsplit, -⟩ := h
  have hmem : (key, i) ∈ (rows.zipIdx.map fun e => (e.1.key, e.2)).reverse := by
    rw [hsplit]
    exact List.mem_append_right _ List.mem_cons_self
  obtain ⟨e, he, hkey⟩ := List.mem_map.1 (List.mem_reverse.1 hmem)
  obtain ⟨rfl, rfl⟩ := Prod.mk.inj hkey
  exact ⟨e.1, List.mem_zipIdx_iff_getElem?.1 he, rfl⟩

/-- A key of some row has a position. -/
theorem exists_position? {row : Row} (h : row ∈ rows) : ∃ i, position? rows row.key = some i := by
  rw [← Option.isSome_iff_exists, position?, List.lookup_isSome_iff]
  obtain ⟨i, hi⟩ := List.mem_iff_getElem?.1 h
  refine ⟨(row.key, i), ?_, by simp⟩
  rw [List.mem_reverse]
  exact List.mem_map.2 ⟨(row, i), List.mem_zipIdx_iff_getElem?.2 hi, rfl⟩

/-- Where no key occurs twice, two positions of one key are the same. -/
theorem eq_of_keys_eq (hn : (rows.map Row.key).Nodup) {i j : Nat} {r s : Row}
    (hi : rows[i]? = some r) (hj : rows[j]? = some s) (h : r.key = s.key) : i = j := by
  obtain ⟨hi', hr⟩ := List.getElem?_eq_some_iff.1 hi
  have hlt : i < (rows.map Row.key).length := by simpa using hi'
  refine (List.getElem?_inj hlt hn).1 ?_
  rw [List.getElem?_map, List.getElem?_map, hi, hj, Option.map_some, Option.map_some, h]

/-- Where no key occurs twice, the position of a key is where its row stands. -/
theorem position?_eq_some_iff (hn : (rows.map Row.key).Nodup) {key : String} {i : Nat} :
    position? rows key = some i ↔ ∃ row, rows[i]? = some row ∧ row.key = key := by
  constructor
  · exact key_of_position?
  · rintro ⟨row, hrow, rfl⟩
    obtain ⟨j, hj⟩ := exists_position? (List.mem_of_getElem? hrow)
    -- whatever position is found holds a row of the same key
    obtain ⟨r, hr, hkey⟩ := key_of_position? hj
    rw [hj, eq_of_keys_eq hn hr hrow hkey]

/-- The link of a row is the position of its parent's key. -/
theorem parentLink_eq_ok_iff {row : Row} {link : Option (Nat × String)} :
    parentLink rows row = .ok link ↔
      (row.parent? = none ∧ link = none) ∨
        ∃ parent i, row.parent? = some parent ∧ position? rows parent = some i ∧
          link = some (i, parent) := by
  rw [parentLink]
  cases hp : row.parent? with
  | none => simp [eq_comm]
  | some parent =>
      cases hi : position? rows parent with
      | none => simp [hi]
      | some i => simp [hi, eq_comm]

/-- Compiling finds a link for every row and puts the tables together from them. -/
theorem compile_eq_ok_iff :
    compile rows = .ok a ↔
      ∃ links, List.Forall₂ (fun row link => parentLink (arranged rows) row = .ok link)
          (arranged rows) links ∧
        a = { patterns := patternTable (arranged rows)
              rows := Table.ofPositions (List.zipWith (fun row link =>
                ⟨link.map Prod.fst, row.properties.entries⟩) (arranged rows) links)
              parents := Table.ofList (links.filterMap id) } := by
  simp only [← mapM_eq_ok_iff]
  rw [compile, bind_eq_ok_iff]
  simp only [pure, Except.pure, Except.ok.injEq, eq_comm]

/-- Rows whose parents all have rows compile. -/
theorem exists_compile_eq_ok
    (h : ∀ row ∈ rows, ∀ parent, row.parent? = some parent → ∃ r ∈ rows, r.key = parent) :
    ∃ a, compile rows = .ok a := by
  -- every row has a link, so the list of links is one
  have hlink : ∀ row ∈ arranged rows, ∃ link, parentLink (arranged rows) row = .ok link := by
    intro row hrow
    cases hp : row.parent? with
    | none => exact ⟨none, parentLink_eq_ok_iff.2 (.inl ⟨hp, rfl⟩)⟩
    | some parent =>
        obtain ⟨r, hr, rfl⟩ := h row (mem_arranged.1 hrow) parent hp
        obtain ⟨i, hi⟩ := exists_position? (mem_arranged.2 hr)
        exact ⟨some (i, r.key), parentLink_eq_ok_iff.2 (.inr ⟨r.key, i, hp, hi, rfl⟩)⟩
  choose! link hlink using hlink
  refine ⟨_, compile_eq_ok_iff.2 ⟨(arranged rows).map link, ?_, rfl⟩⟩
  rw [List.forall₂_map_right_iff, List.forall₂_same]
  exact hlink

theorem patterns_of_compile (h : compile rows = .ok a) :
    a.patterns = patternTable (arranged rows) := by
  obtain ⟨links, -, rfl⟩ := compile_eq_ok_iff.1 h
  rfl

/-- The rows are numbered from zero on. -/
theorem keys_rows_of_compile (h : compile rows = .ok a) :
    a.rows.keys = List.range rows.length := by
  obtain ⟨links, hlinks, rfl⟩ := compile_eq_ok_iff.1 h
  rw [Table.keys_ofPositions, List.length_zipWith, ← hlinks.length_eq, Nat.min_self,
    length_arranged]

/-- A compiled row keeps its properties, and its parent is the position of the parent's key. -/
theorem get?_rows_of_compile (h : compile rows = .ok a) (i : Nat) :
    a.rows.get? i = (arranged rows)[i]?.map fun row =>
      ⟨row.parent?.bind (position? (arranged rows)), row.properties.entries⟩ := by
  obtain ⟨links, hlinks, rfl⟩ := compile_eq_ok_iff.1 h
  rw [Table.get?_ofPositions, List.getElem?_zipWith]
  cases hrow : (arranged rows)[i]? with
  | none => rfl
  | some row =>
      obtain ⟨hi, rfl⟩ := List.getElem?_eq_some_iff.1 hrow
      have hi' : i < links.length := hlinks.length_eq ▸ hi
      rw [List.getElem?_eq_getElem hi']
      have hlink := hlinks.get hi hi'
      rw [List.get_eq_getElem, List.get_eq_getElem, parentLink_eq_ok_iff] at hlink
      rcases hlink with ⟨hp, hl⟩ | ⟨parent, j, hp, hj, hl⟩
      · simp [hp, hl]
      · simp [hp, hj, hl]

/-- The links which compiling finds: the positions of parents, with the parents' keys. -/
theorem mem_links_iff {links : List (Option (Nat × String))} {order : List Row} {j : Nat}
    {key : String}
    (h : List.Forall₂ (fun row link => parentLink rows row = .ok link) order links) :
    (j, key) ∈ links.filterMap id ↔
      ∃ row ∈ order, row.parent? = some key ∧ position? rows key = some j := by
  induction h with
  | nil => simp
  | @cons row link order links hlink _ ih =>
      rw [List.filterMap_cons, List.exists_mem_cons_iff, ← ih]
      rcases parentLink_eq_ok_iff.1 hlink with ⟨hp, rfl⟩ | ⟨parent, i, hp, hi, rfl⟩
      · -- no parent, no link
        simp [hp]
      · simp only [id_eq, List.mem_cons, Prod.mk.injEq, hp, Option.some.injEq]
        constructor
        · rintro (⟨rfl, rfl⟩ | hm)
          · exact .inl ⟨rfl, hi⟩
          · exact .inr hm
        · rintro (⟨rfl, hj⟩ | hm)
          · rw [hi, Option.some.injEq] at hj
            exact .inl ⟨hj.symm, rfl⟩
          · exact .inr hm

/-- The parent table holds exactly the positions which are found for parents, with their keys. -/
theorem get?_parents_of_compile (h : compile rows = .ok a) {j : Nat} {key : String} :
    a.parents.get? j = some key ↔
      ∃ row ∈ rows, row.parent? = some key ∧ position? (arranged rows) key = some j := by
  obtain ⟨links, hlinks, rfl⟩ := compile_eq_ok_iff.1 h
  simp only [← @mem_arranged rows, ← mem_links_iff hlinks]
  apply Table.get?_ofList_eq_some_iff
  intro i k l hk hl
  -- one position holds one row, so it is found for one key only
  obtain ⟨-, -, -, hik⟩ := (mem_links_iff hlinks).1 hk
  obtain ⟨-, -, -, hil⟩ := (mem_links_iff hlinks).1 hl
  obtain ⟨r, hr, rfl⟩ := key_of_position? hik
  obtain ⟨s, hs, rfl⟩ := key_of_position? hil
  rw [hr, Option.some.injEq] at hs
  rw [hs]

end AgentAtlas.Artifact
