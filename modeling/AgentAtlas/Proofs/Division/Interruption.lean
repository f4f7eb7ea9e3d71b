import AgentAtlas.Proofs.Division.Expansion
import AgentAtlas.Proofs.Inheritance.Orphans

/-!
# Divisions which are not taken as a whole

A collection takes a division record by record, so a fault leaves it with the records before. They
are those of the first origins, and there are three ways to stop after them (`StopsAt`): the label
is missing and there are none, or a part has a flaw and the records are those of the parts before
it, or the next record has a key which is known.

The user agent comes before the records of its children, so wherever it stops each of these has its
parent before it. The reader therefore never refuses one of them as an orphan, in this collection or
any later one (`Attached`).
-/

set_option autoImplicit false

namespace AgentAtlas.Division

variable {c : Collection} {defs : Definitions} {label path : String} {division : Division}

/-! ## The records in front -/

/-- The records in front of the first fault. -/
def front : List Step → List Record
  | [] => []
  | .ok record :: rest => record :: front rest
  | .error _ :: _ => []

theorem front_append (records : List Record) (rest : List Step) :
    front (records.map .ok ++ rest) = records ++ front rest := by
  induction records with
  | nil => rfl
  | cons record records ih => rw [List.map_cons, List.cons_append, front, ih, List.cons_append]

/-- The records in front are those of the first origins. -/
theorem front_yields (defs : Definitions) (path : String)
    (hlabel : division.label? = some label) :
    ∃ done, done <+: division.origins ∧
      List.Forall₂ (Origin.Yields defs label) done (front (division.steps defs path)) := by
  rw [steps_eq hlabel]
  rcases steps_cases defs label division.parts with
    ⟨records, hsteps, hall⟩ | ⟨before, part, after, records, hparts, hall, _, _, _, _, hsteps⟩
  · refine ⟨division.origins, List.prefix_rfl, ?_⟩
    rw [hsteps, ← List.append_nil (records.map _), front_append, front, List.append_nil]
    exact hall
  · refine ⟨before.flatMap Part.origins, ?_, ?_⟩
    · rw [origins, hparts, List.flatMap_append]
      exact List.prefix_append _ _
    · rw [hsteps, front_append, front, List.append_nil]
      exact hall

/-- Records with which the steps begin are those of the first origins. -/
theorem yields_of_steps_append (hlabel : division.label? = some label) {records : List Record}
    {rest : List Step} (h : division.steps defs path = records.map .ok ++ rest) :
    ∃ done, done <+: division.origins ∧
      List.Forall₂ (Origin.Yields defs label) done records := by
  obtain ⟨done, hdone, hall⟩ := front_yields defs path hlabel
  rw [h, front_append] at hall
  exact ⟨done.take records.length, (List.take_prefix _ _).trans hdone,
    List.forall₂_take_append _ _ _ hall⟩

/-! ## Where a division stops -/

/-- Why a division is not taken as a whole, after some records are added. -/
inductive StopsAt (division : Division) (c : Collection) (path : String) (added : List Record) :
    Fault → Prop
  | unlabelled : division.label? = none → added = [] →
      StopsAt division c path added (.structural (.labelMissing path))
  /-- A part has a flaw, and none of its records is added. -/
  | flawed {label : String} {before after : List Part} {part : Part} {origin : Origin}
      {fault : Fault} : division.label? = some label → division.parts = before ++ part :: after →
      List.Forall₂ (Origin.Yields c.definitions label) (before.flatMap Part.origins) added →
      origin ∈ part.origins → origin.Flaw c.definitions fault →
      StopsAt division c path added fault
  /-- The key of the next record is known. -/
  | taken {label : String} {done : List Origin} {origin : Origin} {record : Record} :
      division.label? = some label → done ++ [origin] <+: division.origins →
      List.Forall₂ (Origin.Yields c.definitions label) done added →
      origin.Yields c.definitions label record →
      record.key ∈ (c.records ++ added).map Record.key →
      StopsAt division c path added (.duplicate .division record.key)

/-- A step which is refused is one where the division stops. -/
theorem stopsAt_of_refused {added : List Record} {remaining : List Step} {fault : Fault}
    (hsteps : division.steps c.definitions path = added.map .ok ++ remaining)
    (h : Collection.Refused ((c.records ++ added).map Record.key) remaining fault) :
    division.StopsAt c path added fault := by
  cases hlabel : division.label? with
  | none =>
      -- the only step is a fault, so nothing was added before it
      rw [steps_unlabelled hlabel] at hsteps
      cases added with
      | nil =>
          cases h with
          | faulty =>
              cases hsteps
              exact .unlabelled hlabel rfl
          | known => cases hsteps
      | cons _ _ => cases hsteps
  | some label =>
      cases h with
      | @known record rest hknown =>
          -- the records that were added and the one refused are those of the first origins
          have hall : division.steps c.definitions path = (added ++ [record]).map .ok ++ rest := by
            rw [hsteps, List.map_append, List.append_assoc]
            rfl
          obtain ⟨done, hdone, hall⟩ := yields_of_steps_append hlabel hall
          have htake := List.forall₂_take_append _ _ _ hall
          have hdrop := List.forall₂_drop_append _ _ _ hall
          obtain ⟨origin, _, hyields, hnil, hrest⟩ := List.forall₂_cons_right_iff.1 hdrop
          cases hnil
          refine .taken hlabel ?_ htake hyields hknown
          rw [← hrest, List.take_append_drop]
          exact hdone
      | faulty =>
          rw [steps_eq hlabel] at hsteps
          rcases steps_cases c.definitions label division.parts with
            ⟨records, hrecords, _⟩ |
              ⟨before, part, after, records, hparts, hall, origin, horigin, other, hflaw, hother⟩
          · -- no step is a fault at all
            rw [hrecords] at hsteps
            exact absurd (hsteps ▸ List.mem_append_right _ List.mem_cons_self)
              error_not_mem_map_ok
          · -- both are the first fault
            rw [hother] at hsteps
            have hfront := congrArg front hsteps
            rw [front_append, front_append, front, front, List.append_nil, List.append_nil]
              at hfront
            subst hfront
            cases List.append_cancel_left hsteps
            exact .flawed hlabel hparts hall horigin hflaw

/-- What a collection takes of a division are the records of its first origins, and a fault is that
of the place where it stops after them. -/
theorem applyDivision_stopsAt (c : Collection) (division : Division) (path : String) :
    ∃ added, (c.applyDivision division path).1.definitions = c.definitions ∧
      (c.applyDivision division path).1.records = c.records ++ added ∧
      (∃ label done, done <+: division.origins ∧
        List.Forall₂ (Origin.Yields c.definitions label) done added) ∧
      ∀ fault, (c.applyDivision division path).2 = .error fault →
        division.StopsAt c path added fault := by
  obtain ⟨added, remaining, htakes, hend⟩ := c.applyDivision_cases division path
  refine ⟨added, htakes.definitions, htakes.records, ?_, ?_⟩
  · cases hlabel : division.label? with
    | some label => exact ⟨label, yields_of_steps_append hlabel htakes.steps⟩
    | none =>
        -- without a label there is no record
        have hsteps := htakes.steps
        rw [steps_unlabelled hlabel] at hsteps
        cases added with
        | nil => exact ⟨path, [], List.nil_prefix, .nil⟩
        | cons _ _ => cases hsteps
  · intro fault hfault
    rcases hend with ⟨-, hok⟩ | ⟨other, hother, hrefused⟩
    · rw [hfault] at hok
      cases hok
    · rw [hfault] at hother
      cases hother
      rw [htakes.records] at hrefused
      exact stopsAt_of_refused htakes.steps hrefused

/-! ## Records of children -/

/-- The origins of a user agent and its children. -/
def originsOf (agent : Agent) : List Origin := (partsOf agent).flatMap Part.origins

theorem originsOf_eq (agent : Agent) :
    originsOf agent =
      .own agent :: agent.children.flatMap fun child => (Part.below agent child).origins := by
  rw [originsOf, partsOf, List.flatMap_cons, List.flatMap_map]
  rfl

theorem origins_eq (division : Division) : division.origins = division.agents.flatMap originsOf :=
  List.flatMap_assoc

theorem agent_of_mem_originsOf {agent : Agent} {origin : Origin} (h : origin ∈ originsOf agent) :
    origin.agent = agent := by
  rw [originsOf_eq, List.mem_cons, List.mem_flatMap] at h
  rcases h with rfl | ⟨child, _, h⟩
  · rfl
  · obtain ⟨platform?, _, h⟩ := List.mem_flatMap.1 h
    obtain ⟨device?, _, rfl⟩ := List.mem_map.1 h
    rfl

/-- The user agent of a child comes before its passes. -/
theorem exists_own_before {agents : List Agent} {i : Nat} {origin : Origin}
    (h : (agents.flatMap originsOf)[i]? = some origin) (hchild : origin.FromChild) :
    ∃ j < i, (agents.flatMap originsOf)[j]? = some (.own origin.agent) := by
  induction agents generalizing i with
  | nil => cases h
  | cons agent rest ih =>
      rw [List.flatMap_cons] at h ⊢
      rcases Nat.lt_or_ge i (originsOf agent).length with hlt | hge
      · -- the origin is one of the first user agent, whose own one is at the head
        rw [List.getElem?_append_left hlt] at h
        have hagent := agent_of_mem_originsOf (List.mem_of_getElem? h)
        refine ⟨0, Nat.pos_of_ne_zero ?_, ?_⟩
        · rintro rfl
          rw [originsOf_eq] at h
          cases h
          cases hchild
        · rw [hagent, originsOf_eq]
          rfl
      · -- it belongs to a later one, and so does its own one
        rw [List.getElem?_append_right hge] at h
        obtain ⟨j, hj, hown⟩ := ih h
        refine ⟨(originsOf agent).length + j, by omega, ?_⟩
        rw [List.getElem?_append_right (Nat.le_add_right _ _), Nat.add_sub_cancel_left]
        exact hown

theorem getElem?_extended {α : Type} {xs ys : List α} (h : xs <+: ys) {i : Nat} {x : α}
    (hx : xs[i]? = some x) : ys[i]? = some x := by
  obtain ⟨hlt, rfl⟩ := List.getElem?_eq_some_iff.1 hx
  exact List.prefix_iff_getElem?.1 h i hlt

/-- A record whose parent comes before it, so that it is never refused as an orphan, in this
collection or in one with further records. -/
structure Attached (d : Collection) (i : Nat) (record : Record) (parent : String) : Prop where
  linked : record.parent? = some parent
  before : ∃ j < i, d.indexOf? parent = some j
  accepted : ∀ (e : Collection) (catalog : Catalog) (filter : Property.Filter) (fault : Fault),
    d.records <+: e.records → e.rows catalog filter = .error fault →
      ¬Inheritance.Orphaned record.key fault

/-- A record is attached where its parent comes before it. -/
theorem attached_of_before {d : Collection} {i j : Nat} {record : Record} {parent : String}
    (hrecord : d.records[i]? = some record) (hparent : record.parent? = some parent)
    (hj : j < i) (hindex : d.indexOf? parent = some j) : Attached d i record parent := by
  refine ⟨hparent, ⟨j, hj, hindex⟩, ?_⟩
  intro e catalog filter fault hextended hfault horphan
  -- the record and its parent keep their positions
  have hkept : ∀ {k : Nat} {r : Record}, d.records[k]? = some r → e.records[k]? = some r :=
    getElem?_extended hextended
  obtain ⟨k, other, hother, hkey, hlate⟩ := Inheritance.rows_orphaned hfault horphan
  have hk : e.indexOf? record.key = some k :=
    Collection.indexOf?_eq_some_iff.2 ⟨other, hother, hkey⟩
  have hi : e.indexOf? record.key = some i :=
    Collection.indexOf?_eq_some_iff.2 ⟨record, hkept hrecord, rfl⟩
  rw [hi] at hk
  cases hk
  rw [hkept hrecord] at hother
  cases hother
  obtain ⟨above, habove, hname⟩ := Collection.indexOf?_eq_some_iff.1 hindex
  have hj' : e.indexOf? parent = some j :=
    Collection.indexOf?_eq_some_iff.2 ⟨above, hkept habove, hname⟩
  exact absurd hj (Nat.not_lt.2 (hlate parent j hparent hj'))

/-- The record of an origin is where the origin is among the first ones. -/
theorem getElem?_yields {done : List Origin} {added : List Record}
    (h : List.Forall₂ (Origin.Yields defs label) done added) {i : Nat}
    {record : Record} (hrecord : added[i]? = some record) :
    ∃ origin, done[i]? = some origin ∧ origin.Yields defs label record := by
  obtain ⟨hlt, rfl⟩ := List.getElem?_eq_some_iff.1 hrecord
  have hlen : i < done.length := h.length_eq ▸ hlt
  exact ⟨done[i], List.getElem?_eq_getElem hlen, h.get hlen hlt⟩

/-- The records of children are attached to their user agents. -/
theorem attached_of_yields {d : Collection} {added : List Record} {done : List Origin}
    (hrecords : d.records = c.records ++ added) (hdone : done <+: division.origins)
    (hall : List.Forall₂ (Origin.Yields defs label) done added)
    {i : Nat} {origin : Origin} {record : Record} (horigin : division.origins[i]? = some origin)
    (hchild : origin.FromChild) (hrecord : d.records[c.records.length + i]? = some record) :
    Attached d (c.records.length + i) record origin.agent.name := by
  have hposition : ∀ k, d.records[c.records.length + k]? = added[k]? := by
    intro k
    rw [hrecords, List.getElem?_append_right (Nat.le_add_right _ _), Nat.add_sub_cancel_left]
  have hyields : ∀ {k : Nat} {o : Origin} {r : Record}, division.origins[k]? = some o →
      added[k]? = some r → o.Yields defs label r := by
    intro k o r ho hr
    obtain ⟨other, hother, hyields⟩ := getElem?_yields hall hr
    rw [getElem?_extended hdone hother] at ho
    cases ho
    exact hyields
  have hadded : added[i]? = some record := (hposition i).symm.trans hrecord
  have hparent : record.parent? = some origin.agent.name := by
    cases origin with
    | own agent => cases hchild
    | pass agent child platform? device? => exact (hyields horigin hadded).parent
  -- the record of the user agent was added before
  obtain ⟨j, hj, hown⟩ := exists_own_before (division.origins_eq ▸ horigin) hchild
  rw [← division.origins_eq] at hown
  have hlt : j < added.length := Nat.lt_trans hj (List.getElem?_eq_some_iff.1 hadded).1
  have habove : added[j]? = some added[j] := List.getElem?_eq_getElem hlt
  have hname : added[j].key = origin.agent.name := by
    have hnamed := (hyields hown habove).key
    exact hnamed.unique .own
  refine attached_of_before hrecord hparent (Nat.add_lt_add_left hj _) ?_
  exact Collection.indexOf?_eq_some_iff.2 ⟨added[j], (hposition j).trans habove, hname⟩

/-! ## Interrupted divisions -/

/-- What is left of a division which stops with a fault: definitions and earlier records are as they
were, and the records before the place where it stops are added. -/
structure Interrupted (division : Division) (c d : Collection) (path : String) (fault : Fault) :
    Prop where
  definitions : d.definitions = c.definitions
  records : ∃ added, d.records = c.records ++ added ∧ division.StopsAt c path added fault

/-- A division which fails leaves the records before the place where it stops. Whether it fails or
not, the records of children are attached to their user agents. -/
theorem applyDivision_interrupted (c : Collection) (division : Division) (path : String) :
    (∀ fault, (c.applyDivision division path).2 = .error fault →
      division.Interrupted c (c.applyDivision division path).1 path fault) ∧
    ∀ i origin record, division.origins[i]? = some origin → origin.FromChild →
      (c.applyDivision division path).1.records[c.records.length + i]? = some record →
      Attached (c.applyDivision division path).1 (c.records.length + i) record
        origin.agent.name := by
  obtain ⟨added, hdefinitions, hrecords, ⟨label, done, hdone, hall⟩, hstops⟩ :=
    applyDivision_stopsAt c division path
  constructor
  · intro fault hfault
    exact ⟨hdefinitions, added, hrecords, hstops fault hfault⟩
  · intro i origin record horigin hchild hrecord
    exact attached_of_yields hrecords hdone hall horigin hchild hrecord

/-- A platform which is listed twice gives one name to two passes. -/
theorem applyDivision_interrupted_repeated :
    (pixels.applyDivision (pixelDivision ["android_8_0", "android_8_0"]) "chrome.json").2 =
        .error (.duplicate .division
          "Mozilla/5.0 (Linux; Android 8.0*; Pixel 2 Build/*) Chrome/62.0*") ∧
      (pixelDivision ["android_8_0", "android_8_0"]).Interrupted pixels
        (pixels.applyDivision (pixelDivision ["android_8_0", "android_8_0"]) "chrome.json").1
        "chrome.json" (.duplicate .division
          "Mozilla/5.0 (Linux; Android 8.0*; Pixel 2 Build/*) Chrome/62.0*") ∧
      ∃ record, Attached
        (pixels.applyDivision (pixelDivision ["android_8_0", "android_8_0"]) "chrome.json").1 1
        record "Chrome 62.0" := by
  have hfault : (pixels.applyDivision (pixelDivision ["android_8_0", "android_8_0"])
      "chrome.json").2 = .error (.duplicate .division
        "Mozilla/5.0 (Linux; Android 8.0*; Pixel 2 Build/*) Chrome/62.0*") := by decide +kernel
  have hsome : ((pixels.applyDivision (pixelDivision ["android_8_0", "android_8_0"])
      "chrome.json").1.records[1]?).isSome = true := by decide +kernel
  have horigin : (pixelDivision ["android_8_0", "android_8_0"]).origins[1]? =
      some (.pass (pixelAgent ["android_8_0", "android_8_0"])
        (pixelChild ["android_8_0", "android_8_0"]) (some "android_8_0")
        (some ("Pixel 2", "pixel_2"))) := rfl
  obtain ⟨record, hrecord⟩ := Option.isSome_iff_exists.1 hsome
  obtain ⟨hinterrupted, hattached⟩ := applyDivision_interrupted pixels
    (pixelDivision ["android_8_0", "android_8_0"]) "chrome.json"
  exact ⟨hfault, hinterrupted _ hfault, record, hattached 1 _ record horigin trivial hrecord⟩

end AgentAtlas.Division
