import AgentAtlas.Inheritance
import AgentAtlas.Proofs.Sequencing
import Mathlib.Data.List.Nodup

/-!
# Lineages and what they declare

The lineage of a record is the record, its parent, the parent's parent and so on up to the first
root, which ends it whether or not it names a parent of its own. Reading a collection keeps, under
the key of every record read so far, the values which the nearest records of its lineage declare
(`Covers`, kept by `Covers.step`). So the rows of a collection are, record by record, what each
record adds to the nearest declarations above it (`rows_eq_ok`).
-/

set_option autoImplicit false

namespace AgentAtlas.Inheritance

variable {c : Collection} {catalog : Catalog} {filter : Property.Filter}

/-- The records from one record up to the first root. -/
inductive Lineage (c : Collection) : Record → List Record → Prop
  | root {record : Record} : record.isRoot = true → Lineage c record [record]
  | child {record parent : Record} {above : List Record} : record.isRoot = false →
      record.parent? = some parent.key → parent ∈ c.records → Lineage c parent above →
      Lineage c record (record :: above)

/-- The value which a record declares for a property, normalized. -/
def declared? (record : Record) (name : String) : Option Property.Value :=
  (record.properties.get? name).map Property.Value.normalized

/-- The value which the first declaring record of a lineage declares. -/
def nearest? (lineage : List Record) (name : String) : Option Property.Value :=
  lineage.findSome? fun record => declared? record name

/-- The properties of a record as they are compared are the values it declares. -/
theorem get?_own (record : Record) (name : String) :
    (own record).get? name = declared? record name :=
  Keyed.get?_mapValues Property.Value.normalized record.properties name

/-- What a record adds under a name is what it declares, unless it inherits the same. -/
theorem get?_added_own (inherited : Properties) (record : Record) (name : String) :
    (added inherited (own record)).get? name =
      (declared? record name).filter fun value => inherited.get? name != some value := by
  rw [added, Keyed.get?_filter, get?_own]

theorem nearest?_cons (record : Record) (above : List Record) (name : String) :
    nearest? (record :: above) name = (declared? record name).or (nearest? above name) := by
  rw [nearest?, List.findSome?_cons]
  cases declared? record name <;> rfl

theorem nearest?_singleton (record : Record) (name : String) :
    nearest? [record] name = declared? record name := by
  rw [nearest?_cons, nearest?, List.findSome?_nil, Option.or_none]

/-- Two records of one collection with one key are the same record. -/
theorem eq_of_key_eq {r s : Record} (hr : r ∈ c.records) (hs : s ∈ c.records)
    (h : r.key = s.key) : r = s :=
  List.inj_on_of_nodup_map c.nodup hr hs h

/-- A record has one lineage. -/
theorem Lineage.unique {record : Record} {above : List Record} (h : Lineage c record above) :
    ∀ {other : List Record}, Lineage c record other → other = above := by
  induction h with
  | root hroot =>
      intro other ho
      cases ho with
      | root => rfl
      | child hchild => rw [hroot] at hchild; cases hchild
  | child hchild hparent hmem _ ih =>
      intro other ho
      cases ho with
      | root hroot => rw [hchild] at hroot; cases hroot
      | child _ hparent' hmem' habove =>
          rw [hparent, Option.some.injEq] at hparent'
          obtain rfl := eq_of_key_eq hmem' hmem hparent'.symm
          rw [ih habove]

/-- What a record inherits in a collection, given the records before it: nothing at a root, and
elsewhere the nearest declarations on the lineage of its parent. A parent is before it in any case.
-/
inductive Inherits (c : Collection) (earlier : List Record) (record : Record) : Properties → Prop
  | top : record.isRoot = true → record.parent? = none → Inherits c earlier record .empty
  | linked {parent : Record} : record.isRoot = true → record.parent? = some parent.key →
      parent ∈ earlier → Inherits c earlier record .empty
  | child {parent : Record} {above : List Record} {properties : Properties} :
      record.isRoot = false → record.parent? = some parent.key → parent ∈ earlier →
      Lineage c parent above → (∀ name, properties.get? name = nearest? above name) →
      Inherits c earlier record properties

/-- What is kept for the records read so far: for each key, the nearest declarations on the lineage
of a record of that key. -/
def Covers (c : Collection) (earlier : List Record) (known : Known) : Prop :=
  ∀ key properties, known.lookup key = some properties →
    ∃ record ∈ earlier, record.key = key ∧ ∃ lineage, Lineage c record lineage ∧
      ∀ name, properties.get? name = nearest? lineage name

theorem covers_nil : Covers c [] [] := by
  intro key properties h
  simp at h

/-- A parent is found exactly if it was read before. -/
theorem ofParent_eq_ok_iff {known : Known} {key parent : String} {properties : Properties} :
    ofParent c known key parent = .ok properties ↔ known.lookup parent = some properties := by
  rw [ofParent]
  cases known.lookup parent with
  | some found => simp
  | none =>
      dsimp only
      split <;> simp

/-- What the reader takes as inherited is inherited. -/
theorem inherits_of_inherited {earlier : List Record} {known : Known} {record : Record}
    {above : Properties} (hc : Covers c earlier known)
    (h : inherited c known record = .ok above) : Inherits c earlier record above := by
  cases hp : record.parent? with
  | none =>
      rw [inherited, hp] at h
      cases hroot : record.isRoot with
      | false => simp [hroot] at h
      | true =>
          simp only [hroot, if_true, Except.ok.injEq] at h
          subst h
          exact .top hroot hp
  | some parent =>
      rw [inherited, hp] at h
      obtain ⟨properties, hk, hvalue⟩ := bind_eq_ok_iff.1 h
      obtain ⟨r, hr, rfl, lineage, hl, hn⟩ := hc parent properties (ofParent_eq_ok_iff.1 hk)
      cases hroot : record.isRoot with
      | false =>
          -- what is known of the parent is handed down
          rw [hroot] at hvalue
          cases hvalue
          exact .child hroot hp hr hl hn
      | true =>
          -- a root has to come after its parent, but inherits nothing
          rw [hroot] at hvalue
          cases hvalue
          exact .linked hroot hp hr

/-- What a record inherits are the nearest declarations above it. -/
theorem Inherits.exists_above {earlier : List Record} {record : Record} {inherited : Properties}
    (h : Inherits c earlier record inherited) (hsub : earlier ⊆ c.records) :
    ∃ above, Lineage c record (record :: above) ∧
      ∀ name, inherited.get? name = nearest? above name := by
  cases h with
  | top hroot _ => exact ⟨[], .root hroot, fun _ => rfl⟩
  | linked hroot _ _ => exact ⟨[], .root hroot, fun _ => rfl⟩
  | child hchild hp hr hl hn => exact ⟨_, .child hchild hp (hsub hr) hl, hn⟩

/-- Whatever a record inherits, it and its own declarations are the nearest ones on its lineage. -/
theorem Inherits.lineage {earlier : List Record} {record : Record} {above : Properties}
    (h : Inherits c earlier record above) (hsub : earlier ⊆ c.records) :
    ∃ lineage, Lineage c record lineage ∧
      ∀ name, (above.overlay (own record)).get? name = nearest? lineage name := by
  obtain ⟨higher, hl, hn⟩ := h.exists_above hsub
  refine ⟨record :: higher, hl, ?_⟩
  intro name
  rw [Keyed.get?_overlay, get?_own, hn, nearest?_cons]

/-- Reading one record more keeps the invariant. -/
theorem Covers.step {earlier : List Record} {known : Known} {record : Record} {above : Properties}
    (hc : Covers c earlier known) (hsub : earlier ⊆ c.records)
    (h : Inherits c earlier record above) :
    Covers c (earlier ++ [record]) ((record.key, above.overlay (own record)) :: known) := by
  intro key properties hk
  rw [Keyed.lookup_cons_eq_ite] at hk
  split at hk
  · -- the record just read
    rename_i hkey
    simp only [Option.some.injEq] at hk
    subst hk
    obtain ⟨lineage, hl, hn⟩ := h.lineage hsub
    exact ⟨record, by simp, hkey.symm, lineage, hl, hn⟩
  · -- a record read before
    obtain ⟨r, hr, hkey, lineage, hl, hn⟩ := hc key properties hk
    exact ⟨r, by simp [hr], hkey, lineage, hl, hn⟩

/-- The rows of a record and the rest: the record passes its checks, inherits from what is known,
and the rest reads with it known. -/
theorem rowsFrom_cons_eq_ok {known : Known} {record : Record} {rest : List Record}
    {rows : List Row} (h : rowsFrom c catalog filter known (record :: rest) = .ok rows) :
    checkProperties catalog record = .ok () ∧
      ∃ above, inherited c known record = .ok above ∧
        ∃ below, rowsFrom c catalog filter
            ((record.key, above.overlay (own record)) :: known) rest = .ok below ∧
          rows = rowOf catalog filter above record :: below := by
  -- the reader takes three steps, and each of them succeeds
  obtain ⟨_, hchecked, h⟩ := bind_eq_ok_iff.1 h
  obtain ⟨above, habove, h⟩ := bind_eq_ok_iff.1 h
  obtain ⟨below, hbelow, h⟩ := bind_eq_ok_iff.1 h
  cases h
  exact ⟨hchecked, above, habove, below, hbelow, rfl⟩

/-- The rows of the remaining records, each with what its record inherits. -/
theorem rowsFrom_eq_ok (rest : List Record) :
    ∀ {earlier : List Record} {known : Known} {rows : List Row}, Covers c earlier known →
      c.records = earlier ++ rest → rowsFrom c catalog filter known rest = .ok rows →
        rows.length = rest.length ∧ ∀ i record, rest[i]? = some record →
          ∃ above, Inherits c (earlier ++ rest.take i) record above ∧
            rows[i]? = some (rowOf catalog filter above record) := by
  induction rest with
  | nil =>
      intro earlier known rows _ _ h
      simp only [rowsFrom, Except.ok.injEq] at h
      subst h
      exact ⟨rfl, fun i record hi => by simp at hi⟩
  | cons head rest ih =>
      intro earlier known rows hc hsplit h
      obtain ⟨-, above, habove, below, hbelow, rfl⟩ := rowsFrom_cons_eq_ok h
      have hsub : earlier ⊆ c.records := by
        rw [hsplit]
        exact List.subset_append_left _ _
      have hin : Inherits c earlier head above := inherits_of_inherited hc habove
      -- the records after `head` are read with `head` among the earlier ones
      obtain ⟨hlen, hrest⟩ := ih (hc.step hsub hin) (by simp [hsplit]) hbelow
      refine ⟨by simp [hlen], ?_⟩
      intro i record hi
      cases i with
      | zero =>
          simp only [List.getElem?_cons_zero, Option.some.injEq] at hi
          subst hi
          exact ⟨above, by simpa using hin, rfl⟩
      | succ i =>
          rw [List.getElem?_cons_succ] at hi
          obtain ⟨inner, hinner, hrow⟩ := hrest i record hi
          exact ⟨inner, by simpa using hinner, by simpa using hrow⟩

/-- The rows of a collection stand for its records in order, each reduced against what its record
inherits from those before it. -/
theorem rows_eq_ok {rows : List Row} (h : c.rows catalog filter = .ok rows) :
    rows.length = c.records.length ∧ ∀ i record, c.records[i]? = some record →
      ∃ above, Inherits c (c.records.take i) record above ∧
        rows[i]? = some (rowOf catalog filter above record) := by
  have key := rowsFrom_eq_ok c.records (covers_nil (c := c)) (List.nil_append _).symm h
  simpa using key

/-- The rows of a collection have the keys of its records. -/
theorem rows_keys {rows : List Row} (hr : c.rows catalog filter = .ok rows) :
    rows.map Row.key = c.records.map Record.key := by
  obtain ⟨hlen, hrow⟩ := rows_eq_ok hr
  apply List.ext_getElem?
  intro i
  rw [List.getElem?_map, List.getElem?_map]
  cases hi : c.records[i]? with
  | none =>
      have hge : rows.length ≤ i := by rw [hlen]; exact List.getElem?_eq_none_iff.1 hi
      rw [List.getElem?_eq_none_iff.2 hge]
      rfl
  | some record =>
      obtain ⟨above, -, hi'⟩ := hrow i record hi
      rw [hi']
      rfl

theorem rows_nodup {rows : List Row} (hr : c.rows catalog filter = .ok rows) :
    (rows.map Row.key).Nodup := by
  rw [rows_keys hr]
  exact c.nodup

end AgentAtlas.Inheritance
