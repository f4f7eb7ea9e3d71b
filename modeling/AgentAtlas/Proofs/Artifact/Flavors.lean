import AgentAtlas.Proofs.Artifact.Closure
import AgentAtlas.Proofs.Inheritance.Filtering

/-!
# Flavors only take properties away

Compiling reads keys, names, parents and headers of rows, and properties only to copy them. So the
artifact of a collection under a filter is its artifact without one, row by row less the properties
which do not pass (`artifact_eq_map`). The three flavors of a collection have the same patterns,
parents and positions, and what a smaller flavor shows at a position is part of what a larger one
shows there (`flavors_only_remove`).
-/

set_option autoImplicit false

namespace AgentAtlas

open Property (Filter)

/-- The row with the properties of some names only. -/
def ArtifactRow.restrict (keep : String → Bool) (row : ArtifactRow) : ArtifactRow :=
  { row with properties := row.properties.filter fun e => keep e.1 }

namespace ArtifactRow

variable {keep wide : String → Bool}

/-- What is kept of a row is kept of what a wider test keeps of it. -/
theorem restrict_restrict (row : ArtifactRow) (h : ∀ name, keep name = true → wide name = true) :
    (row.restrict wide).restrict keep = row.restrict keep := by
  rw [restrict, restrict, restrict, ArtifactRow.mk.injEq]
  refine ⟨rfl, ?_⟩
  rw [List.filter_filter]
  apply List.filter_congr
  intro e _
  cases hk : keep e.1 with
  | false => rfl
  | true => rw [h e.1 hk]; rfl

theorem restrict_sublist (row : ArtifactRow) (h : ∀ name, keep name = true → wide name = true) :
    (row.restrict keep).properties.Sublist (row.restrict wide).properties :=
  List.monotone_filter_right row.properties fun e => h e.1

end ArtifactRow

namespace Artifact

/-- The artifact whose rows have the properties of some names only. -/
def restrict (keep : String → Bool) (a : Artifact) : Artifact :=
  { a with rows := a.rows.mapValues (ArtifactRow.restrict keep) }

theorem get?_rows_restrict (keep : String → Bool) (a : Artifact) (i : Nat) :
    (a.restrict keep).rows.get? i = (a.rows.get? i).map (ArtifactRow.restrict keep) :=
  Table.get?_mapValues (ArtifactRow.restrict keep) a.rows i

/-! ## Compiling restricted rows -/

variable (keep : String → Bool) (rows : List Row)

theorem arranged_map_restrict :
    arranged (rows.map (Row.restrict keep)) = (arranged rows).map (Row.restrict keep) := by
  rw [arranged, arranged, Glob.sortBySpecificity, Glob.sortBySpecificity, List.map_mergeSort]
  intro r _ s _
  rfl

theorem position?_map_restrict (key : String) :
    position? (rows.map (Row.restrict keep)) key = position? rows key := by
  simp only [position?, List.zipIdx_map, List.map_map]
  rfl

theorem numbered_map_restrict : numbered (rows.map (Row.restrict keep)) = numbered rows := by
  simp only [numbered, List.zipIdx_map, List.filterMap_map]
  rfl

theorem parentLink_restrict (row : Row) :
    parentLink (rows.map (Row.restrict keep)) (row.restrict keep) = parentLink rows row := by
  simp only [parentLink, position?_map_restrict]
  rfl

/-- Restricting rows restricts their artifact, and changes nothing in whether there is one. -/
theorem compile_map_restrict :
    compile (rows.map (Row.restrict keep)) = (compile rows).map (restrict keep) := by
  have hlinks : ((arranged rows).map (Row.restrict keep)).mapM
      (parentLink ((arranged rows).map (Row.restrict keep))) =
        (arranged rows).mapM (parentLink (arranged rows)) := by
    rw [List.mapM_map]
    congr 1
    funext row
    exact parentLink_restrict keep (arranged rows) row
  rw [compile, compile, arranged_map_restrict, hlinks]
  cases (arranged rows).mapM (parentLink (arranged rows)) with
  | error fault => rfl
  | ok links =>
      simp only [bind, Except.bind, pure, Except.pure, Except.map, restrict, patternTable,
        numbered_map_restrict, Table.mapValues_ofPositions, List.map_zipWith,
        List.zipWith_map_left]
      rfl

end Artifact

/-- The artifact of a collection under a filter. -/
def Collection.artifact (c : Collection) (catalog : Catalog) (filter : Filter) :
    Except Fault Artifact := do
  Artifact.compile (← c.rows catalog filter)

/-- The artifact of a collection under a filter is its artifact without one, row by row less the
properties which do not pass. -/
theorem Collection.artifact_eq_map (c : Collection) (catalog : Catalog) (filter : Filter) :
    c.artifact catalog filter =
      (c.artifact catalog .everything).map (Artifact.restrict (catalog.passes filter)) := by
  rw [artifact, artifact, Inheritance.rows_eq_map]
  cases c.rows catalog .everything with
  | error fault => rfl
  | ok rows => exact Artifact.compile_map_restrict (catalog.passes filter) rows

/-! ## Catalogs by declaration -/

namespace Property

/-- What may be said of a property besides its values. -/
inductive Mark where
  | lite
  | standard
  | extra
  | internal
  deriving DecidableEq, Repr

/-- What a catalog says of a property, with one mark more. -/
def Info.mark (info : Info) : Mark → Info
  | .lite => info.inLite
  | .standard => info.inStandard
  | .extra => info.asExtra
  | .internal => info.asInternal

/-- How a property gets into a catalog: the values it takes, and marks one after the other. -/
structure Declaration where
  kind : Kind
  marks : List Mark
  deriving DecidableEq, Repr

namespace Declaration

/-- What the catalog then says of the property. -/
def info (d : Declaration) : Info := d.marks.foldl Info.mark { kind := d.kind }

/-- Whether a flavor includes a property of this declaration. The mark of the lite flavor counts for
the standard one too. -/
def isIn (d : Declaration) : Flavor → Bool
  | .full => true
  | .standard => d.marks.contains .lite || d.marks.contains .standard
  | .lite => d.marks.contains .lite

/-- A mark keeps a property in its flavors and brings it into those which the mark stands for. -/
theorem includes_tier_mark (flavor : Flavor) (info : Info) (mark : Mark) :
    flavor.includes (info.mark mark).tier =
      (flavor.includes info.tier || isIn ⟨info.kind, [mark]⟩ flavor) := by
  obtain ⟨kind, output, extra, tier⟩ := info
  cases mark <;> cases tier <;> cases flavor <;> rfl

/-- A flavor includes a property exactly if one of its marks says so, wherever it stands. -/
theorem includes_tier_info (d : Declaration) (flavor : Flavor) :
    flavor.includes d.info.tier = d.isIn flavor := by
  obtain ⟨kind, marks⟩ := d
  -- the last mark is put on the property which all others made
  induction marks using List.reverseRecOn with
  | nil => cases flavor <;> rfl
  | append_singleton marks mark ih =>
      rw [info] at ih ⊢
      rw [List.foldl_append, List.foldl_cons, List.foldl_nil, includes_tier_mark, ih]
      cases flavor with
      | full => rfl
      | lite => simp [isIn]
      | standard =>
          simp only [isIn, List.contains_append, List.contains_cons, List.contains_nil,
            Bool.or_false]
          ac_rfl

end Declaration

end Property

open Property (Declaration)

/-- The catalog of declarations. -/
def Catalog.ofDeclarations (declared : Keyed String Declaration) : Catalog :=
  declared.mapValues Declaration.info

/-- Whether a flavor includes a property which is declared. -/
def Flavor.shows (flavor : Flavor) (declared : Keyed String Declaration) (name : String) : Bool :=
  (declared.get? name).any fun d => d.isIn flavor

/-- A larger flavor shows what a smaller one does. -/
theorem Flavor.shows_mono {smaller larger : Flavor} (h : larger.rank ≤ smaller.rank)
    {declared : Keyed String Declaration} {name : String}
    (hs : smaller.shows declared name = true) : larger.shows declared name = true := by
  rw [shows, Option.any_eq_true] at hs ⊢
  obtain ⟨d, hd, hin⟩ := hs
  rw [← d.includes_tier_info] at hin
  exact ⟨d, hd, by rw [← d.includes_tier_info]; exact includes_mono h hin⟩

theorem Catalog.passes_ofDeclarations (declared : Keyed String Declaration) (flavor : Flavor) :
    (Catalog.ofDeclarations declared).passes flavor = flavor.shows declared := by
  funext name
  rw [passes, ofDeclarations, Keyed.get?_mapValues, Flavor.shows, Option.any_map]
  congr 1
  funext d
  exact d.includes_tier_info flavor

/-- **A flavor only takes properties away.** Over declared properties, the artifacts of a collection
in the three flavors all fail with one fault, or they have the same patterns and parents, and at
each position the same parent and those of the properties there which the flavor includes: what the
lite flavor shows is a part of what the standard one shows, and that of what the full one shows. -/
theorem Collection.flavors_only_remove (c : Collection) (declared : Keyed String Declaration) :
    (∃ fault, ∀ flavor : Flavor,
      c.artifact (Catalog.ofDeclarations declared) flavor = .error fault) ∨
    ∃ artifact : Flavor → Artifact,
      (∀ flavor : Flavor,
        c.artifact (Catalog.ofDeclarations declared) flavor = .ok (artifact flavor) ∧
        (artifact flavor).patterns = (artifact .full).patterns ∧
        (artifact flavor).parents = (artifact .full).parents ∧
        ∀ i, (artifact flavor).rows.get? i = ((artifact .full).rows.get? i).map fun row =>
          ⟨row.parent?, row.properties.filter fun e => flavor.shows declared e.1⟩) ∧
      ∀ i lite standard full, (artifact .lite).rows.get? i = some lite →
        (artifact .standard).rows.get? i = some standard →
          (artifact .full).rows.get? i = some full →
            lite.properties.Sublist standard.properties ∧
              standard.properties.Sublist full.properties := by
  have hflavor : ∀ flavor : Flavor, c.artifact (Catalog.ofDeclarations declared) flavor =
      (c.artifact (Catalog.ofDeclarations declared) .everything).map
        (Artifact.restrict (flavor.shows declared)) := by
    intro flavor
    rw [artifact_eq_map, Catalog.passes_ofDeclarations]
  cases ha : c.artifact (Catalog.ofDeclarations declared) .everything with
  | error fault =>
      refine .inl ⟨fault, ?_⟩
      intro flavor
      rw [hflavor, ha]
      rfl
  | ok a =>
      refine .inr ⟨fun flavor => a.restrict (flavor.shows declared), ?_, ?_⟩
      · intro flavor
        refine ⟨by rw [hflavor, ha]; rfl, rfl, rfl, ?_⟩
        intro i
        rw [Artifact.get?_rows_restrict, Artifact.get?_rows_restrict, Option.map_map]
        -- what the flavor shows of a row, it shows of what the full flavor shows of it
        congr 1
        funext row
        exact (row.restrict_restrict fun _ => Flavor.shows_mono (Nat.zero_le _)).symm
      · intro i lite standard full hl hs hf
        rw [Artifact.get?_rows_restrict, Option.map_eq_some_iff] at hl hs hf
        obtain ⟨row, hrow, rfl⟩ := hl
        obtain ⟨row', hs, rfl⟩ := hs
        obtain ⟨row'', hf, rfl⟩ := hf
        -- the three rows come from one
        rw [hrow, Option.some.injEq] at hs hf
        subst hs hf
        exact ⟨row.restrict_sublist fun _ => Flavor.shows_mono (by decide),
          row.restrict_sublist fun _ => Flavor.shows_mono (by decide)⟩

end AgentAtlas
