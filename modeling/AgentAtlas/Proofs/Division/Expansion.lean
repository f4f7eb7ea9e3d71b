import AgentAtlas.Proofs.Collection.Adding
import AgentAtlas.Proofs.Division.Origins

/-!
# The expansion of a division

A pass of a child gives the name and the properties which its origin says, or fails for a flaw of it
(`expandOne_cases`). So a part of a division gives one record for each of its origins, or nothing
but the fault of one of them (`Part.steps_cases`), and the steps of a division are records up to the
first part with a flaw (`steps_cases`).

A collection takes a division exactly if it has a label, all its origins are sound, and their names
are distinct and new; the records which are added are then those of the origins, one for each and in
their order (`applyDivision_exact`).
-/

set_option autoImplicit false

namespace AgentAtlas.Division

variable {defs : Definitions} {label : String}

/-! ## Passes -/

/-- What is listed under a key, with a text of its own, is the definition of the key. -/
def Stands (defs : Definitions) (kind : DefinitionKind) (text key : String)
    (entry : String × Definition) : Prop :=
  entry.1 = text ∧ (defs.of kind).get? key = some entry.2

/-- Look up what is listed. -/
def lookUp (defs : Definitions) (kind : DefinitionKind) (text key : String) :
    Except Fault (String × Definition) := do
  return (text, ← defs.find kind key)

/-- What is listed is there, or it is missing. -/
theorem lookUp_cases (defs : Definitions) (kind : DefinitionKind) (text key : String) :
    (∃ entry, lookUp defs kind text key = .ok entry ∧ Stands defs kind text key entry) ∨
      ∃ fault, lookUp defs kind text key = .error fault ∧ defs.Missing (kind, some key) fault := by
  rw [lookUp]
  rcases defs.find_cases kind key with ⟨definition, hget, hfind⟩ | ⟨fault, hfind, hmissing⟩
  · exact .inl ⟨(text, definition), by rw [hfind]; rfl, rfl, hget⟩
  · exact .inr ⟨fault, by rw [hfind]; rfl, hmissing⟩

/-- The entry of a listed platform. -/
def StandsForPlatform (defs : Definitions) (key : String) (entry : Child.Platform) : Prop :=
  Stands defs .platform key key entry

/-- The entry of a listed device. -/
def StandsForDevice (defs : Definitions) (listed : String × String) (entry : Child.Device) : Prop :=
  Stands defs .device listed.1 listed.2 entry

/-- Lists whose elements stand for one another have such passes. -/
theorem passes_rel {α β : Type} {R : α → β → Prop} {xs : List α} {ys : List β}
    (h : List.Forall₂ R xs ys) : List.Forall₂ (Option.Rel R) (passes xs) (passes ys) := by
  cases h with
  | nil => exact .cons .none .nil
  | cons hxy hrest => exact List.rel_map (fun _ _ h => .some h) (.cons hxy hrest)

theorem mem_passes {α : Type} {x : α} {xs : List α} (h : x ∈ xs) : some x ∈ passes xs := by
  cases xs with
  | nil => cases h
  | cons _ _ => exact List.mem_map_of_mem h

theorem exists_mem_passes {α : Type} (xs : List α) : ∃ x, x ∈ passes xs := by
  cases xs with
  | nil => exact ⟨none, List.mem_cons_self⟩
  | cons x _ => exact ⟨some x, List.mem_cons_self⟩

/-- What is listed in a pass is there, and its properties are the layer of its mention. -/
theorem layer_listed {α : Type} (kind : DefinitionKind) (text key : α → String) {x? : Option α}
    {found? : Option (String × Definition)}
    (h : Option.Rel (fun x entry => Stands defs kind (text x) (key x) entry) x? found?) :
    defs.Has (kind, x?.map key) ∧ Child.listed found? = defs.layer (kind, x?.map key) := by
  cases h with
  | none => exact ⟨Definitions.has_none defs kind, rfl⟩
  | some hentry =>
      refine ⟨Definitions.has_of_get? hentry.2, ?_⟩
      rw [Option.map_some, Definitions.layer, Option.bind_some, hentry.2]
      rfl

/-- The platform is filled in, or it has no text. -/
theorem withPlatform_cases (parent : String) (s : List Char) {platform? : Option String}
    {found? : Option Child.Platform} (h : Option.Rel (StandsForPlatform defs) platform? found?) :
    (∃ t, Child.withPlatform parent s found? = .ok t ∧ WithPlatform defs platform? s t ∧
      ∀ key definition, platform? = some key → (defs.of .platform).get? key = some definition →
        definition.fragment? ≠ none) ∨
    ∃ key definition, platform? = some key ∧ (defs.of .platform).get? key = some definition ∧
      definition.fragment? = none ∧ Child.withPlatform parent s found? =
        .error (.structural (.platformWithoutMatch key parent)) := by
  cases h with
  | none => exact .inl ⟨s, rfl, .none, by rintro _ _ ⟨⟩⟩
  | @some key entry hentry =>
      obtain ⟨name, definition⟩ := entry
      obtain ⟨rfl, hget⟩ := hentry
      rw [Child.withPlatform]
      cases hfragment : definition.fragment? with
      | none => exact .inr ⟨_, definition, rfl, hget, hfragment, rfl⟩
      | some fragment =>
          have hreplaced := (Text.replace_eq_iff platformPlaceholder_ne_nil).1
            (rfl : Text.replace platformPlaceholder fragment.toList s = _)
          refine .inl ⟨_, rfl, .some hget hfragment hreplaced, ?_⟩
          rintro _ _ ⟨⟩ hget'
          rw [hget] at hget'
          cases hget'
          rw [hfragment]
          exact Option.some_ne_none fragment

/-- The device is filled in. -/
theorem withDevice_withDevice (s : List Char) {device? : Option (String × String)}
    {found? : Option Child.Device} (h : Option.Rel (StandsForDevice defs) device? found?) :
    WithDevice device? s (Child.withDevice s found?) := by
  cases h with
  | none => exact .none
  | @some listed entry hentry =>
      obtain ⟨text, key⟩ := listed
      obtain ⟨name, definition⟩ := entry
      obtain ⟨rfl, -⟩ := hentry
      exact .some ((Text.replace_eq_iff devicePlaceholder_ne_nil).1 rfl)

theorem hasPlaceholder_ofList_iff (name : List Char) :
    HasPlaceholder (String.ofList name) ↔
      (Text.occurs platformPlaceholder name || Text.occurs devicePlaceholder name) = true := by
  rw [Bool.or_eq_true, Text.occurs_iff_infix, Text.occurs_iff_infix, HasPlaceholder,
    String.toList_ofList]

/-- The record of one pass. -/
def passRecord (agent : Agent) (label : String) (expanded : String × Properties) : Record :=
  (Record.make expanded.1 label expanded.2).under agent.name

theorem properties_passRecord (agent : Agent) (label : String) (expanded : String × Properties)
    (name : String) : (passRecord agent label expanded).properties.get? name =
      if name = Property.parentName then none else expanded.2.get? name :=
  Record.properties_make expanded.1 label expanded.2 name

/-- What is listed and the child itself, laid over what the child refers to, give the values of the
origin. -/
theorem get?_layers_pass (agent : Agent) {child : Child} {base : Properties}
    (hbase : ∀ name, base.get? name = lastValue (child.references.mentions.map defs.layer) name)
    {platform? : Option String} {device? : Option (String × String)}
    {p? : Option Child.Platform} {d? : Option Child.Device}
    (hp : Child.listed p? = defs.layer (.platform, platform?))
    (hd : Child.listed d? = defs.layer (.device, device?.map Prod.snd)) (name : String) :
    (((base.overlay (Child.listed p?)).overlay (Child.listed d?)).overlay child.properties).get?
      name = (Origin.pass agent child platform? device?).value? defs name := by
  have hvalue := get?_foldl_overlay [Child.listed p?, Child.listed d?, child.properties] hbase name
  refine hvalue.trans ?_
  rw [hp, hd, Origin.value?, Origin.mentions, List.map_append, List.append_assoc]
  rfl

/-- One pass gives the record of its origin, or fails for a flaw of it. -/
theorem expandOne_cases (label : String) (agent : Agent) (child : Child) {base : Properties}
    (hhas : ∀ mention ∈ child.references.mentions, defs.Has mention)
    (hbase : ∀ name, base.get? name = lastValue (child.references.mentions.map defs.layer) name)
    {platform? : Option String} {device? : Option (String × String)}
    {p? : Option Child.Platform} {d? : Option Child.Device}
    (hp : Option.Rel (StandsForPlatform defs) platform? p?)
    (hd : Option.Rel (StandsForDevice defs) device? d?) :
    (∃ expanded, child.expandOne agent.name base p? d? = .ok expanded ∧
      (Origin.pass agent child platform? device?).Yields defs label
        (passRecord agent label expanded)) ∨
    ∃ fault, child.expandOne agent.name base p? d? = .error fault ∧
      (Origin.pass agent child platform? device?).Flaw defs fault := by
  have hlistedPlatform := layer_listed .platform id id hp
  have hlistedDevice := layer_listed .device Prod.fst Prod.snd hd
  rw [Option.map_id, id_eq] at hlistedPlatform
  rw [Child.expandOne]
  rcases withPlatform_cases agent.name child.pattern.toList hp with
    ⟨filled, hfilled, hplatform, hmatched⟩ | ⟨key, definition, hkey, hget, hnone, hfault⟩
  · have hnamed : (Origin.pass agent child platform? device?).Named defs
        (String.ofList (Child.withDevice filled d?)) :=
      .pass hplatform (withDevice_withDevice filled hd)
    rw [hfilled]
    by_cases hleft : HasPlaceholder (String.ofList (Child.withDevice filled d?))
    · refine .inr ⟨_, ?_, .incomplete trivial hnamed hleft⟩
      exact if_pos ((hasPlaceholder_ofList_iff _).1 hleft)
    · refine .inl ⟨_, if_neg (mt (hasPlaceholder_ofList_iff _).2 hleft), ?_⟩
      refine ⟨⟨?_, hmatched, ?_⟩, hnamed, rfl, rfl, ?_⟩
      · -- the references are there, and so are the listed platform and device
        rw [Origin.mentions, List.forall_mem_append, List.forall_mem_cons,
          List.forall_mem_singleton]
        exact ⟨hhas, hlistedPlatform.1, hlistedDevice.1⟩
      · -- the origin has no other name than the one which was looked at
        intro _ name hname
        rw [hname.unique hnamed]
        exact hleft
      · intro name hname
        rw [properties_passRecord, if_neg hname]
        exact get?_layers_pass agent hbase hlistedPlatform.2 hlistedDevice.2 name
  · exact .inr ⟨_, by rw [hfault]; rfl, .unmatched hkey hget hnone⟩

/-! ## Parts -/

/-- All that a child mentions: what it refers to, and its listed platforms and devices. -/
def mentionsOf (child : Child) : List Mention :=
  child.references.mentions ++ child.platforms.map (fun key => (.platform, some key)) ++
    child.devices.entries.map fun listed => (.device, some listed.2)

/-- Whatever a child mentions, one of its origins does. -/
theorem exists_origin_of_mem_mentionsOf (agent : Agent) {child : Child} {mention : Mention}
    (h : mention ∈ mentionsOf child) :
    ∃ origin ∈ (Part.below agent child).origins, mention ∈ origin.mentions := by
  have horigin : ∀ platform? ∈ passes child.platforms, ∀ device? ∈ passes child.devices.entries,
      .pass agent child platform? device? ∈ (Part.below agent child).origins :=
    fun platform? hp device? hd => List.mem_flatMap.2 ⟨platform?, hp, List.mem_map_of_mem hd⟩
  obtain ⟨somePlatform, hplatform⟩ := exists_mem_passes child.platforms
  obtain ⟨someDevice, hdevice⟩ := exists_mem_passes child.devices.entries
  rw [mentionsOf, List.mem_append, List.mem_append, List.mem_map, List.mem_map] at h
  rcases h with (hreferred | ⟨key, hkey, rfl⟩) | ⟨listed, hlisted, rfl⟩
  · exact ⟨_, horigin _ hplatform _ hdevice, List.mem_append_left _ hreferred⟩
  · exact ⟨_, horigin _ (mem_passes hkey) _ hdevice,
      List.mem_append_right _ List.mem_cons_self⟩
  · exact ⟨_, horigin _ hplatform _ (mem_passes hlisted),
      List.mem_append_right _ (List.mem_cons_of_mem _ List.mem_cons_self)⟩

/-- The pairs of a pass over one list and a pass over another. -/
def pairs {α β : Type} (xs : List α) (ys : List β) : List (Option α × Option β) :=
  (passes xs).flatMap fun x => (passes ys).map fun y => (x, y)

/-- A child looks up its platforms, its devices, and what it refers to, and then makes its passes.
-/
theorem expand_eq (child : Child) (defs : Definitions) (parent : String) :
    child.expand defs parent =
      (child.platforms.mapM fun key => lookUp defs .platform key key) >>= fun platforms =>
        (child.devices.entries.mapM fun listed => lookUp defs .device listed.1 listed.2) >>=
          fun devices => child.references.properties defs >>= fun base =>
            (pairs platforms devices).mapM fun pass => child.expandOne parent base pass.1 pass.2 :=
  rfl

/-- The pairs of passes of a child stand for its origins. -/
theorem origins_below_rel {agent : Agent} {child : Child} {platforms : List Child.Platform}
    {devices : List Child.Device}
    (hplatforms : List.Forall₂ (StandsForPlatform defs) child.platforms platforms)
    (hdevices : List.Forall₂ (StandsForDevice defs) child.devices.entries devices) :
    List.Forall₂
      (fun origin pass => ∃ platform? device?, origin = .pass agent child platform? device? ∧
        Option.Rel (StandsForPlatform defs) platform? pass.1 ∧
        Option.Rel (StandsForDevice defs) device? pass.2)
      (Part.below agent child).origins (pairs platforms devices) := by
  refine List.rel_flatMap (passes_rel hplatforms) ?_
  intro platform? p? hp
  refine List.rel_map ?_ (passes_rel hdevices)
  intro device? d? hd
  exact ⟨platform?, device?, rfl, hp, hd⟩

/-- A child gives one record for each of its passes, or fails for a flaw of one of them. -/
theorem expand_cases (defs : Definitions) (label : String) (agent : Agent) (child : Child) :
    (∃ expanded, child.expand defs agent.name = .ok expanded ∧
      List.Forall₂ (fun origin expanded => origin.Yields defs label
        (passRecord agent label expanded)) (Part.below agent child).origins expanded) ∨
    ∃ origin ∈ (Part.below agent child).origins, ∃ fault,
      child.expand defs agent.name = .error fault ∧ origin.Flaw defs fault := by
  -- what is missing is mentioned by one of the passes
  have hflaw : ∀ {mention fault}, mention ∈ mentionsOf child → defs.Missing mention fault →
      child.expand defs agent.name = .error fault →
        ∃ origin ∈ (Part.below agent child).origins, ∃ fault,
          child.expand defs agent.name = .error fault ∧ origin.Flaw defs fault := by
    intro mention fault hmention hmissing hfault
    obtain ⟨origin, horigin, hmentions⟩ := exists_origin_of_mem_mentionsOf agent hmention
    exact ⟨origin, horigin, fault, hfault, .undefined hmentions hmissing⟩
  rw [expand_eq] at hflaw ⊢
  rcases mapM_cases_self (fun key => lookUp_cases defs .platform key key) child.platforms with
    ⟨platforms, hplatforms, hallPlatforms⟩ | ⟨key, hkey, fault, hfault, hmissing⟩
  case inr =>
    refine .inr (hflaw ?_ hmissing (by rw [hfault]; rfl))
    exact List.mem_append_left _ (List.mem_append_right _ (List.mem_map_of_mem hkey))
  rcases mapM_cases_self (fun listed => lookUp_cases defs .device listed.1 listed.2)
    child.devices.entries with
    ⟨devices, hdevices, hallDevices⟩ | ⟨listed, hlisted, fault, hfault, hmissing⟩
  case inr =>
    refine .inr (hflaw ?_ hmissing (by rw [hplatforms, hfault]; rfl))
    exact List.mem_append_right _ (List.mem_map_of_mem hlisted)
  rcases child.references.properties_cases defs with
    ⟨base, hok, hhas, hbase⟩ | ⟨mention, hmention, fault, hfault, hmissing⟩
  case inr =>
    refine .inr (hflaw ?_ hmissing (by rw [hplatforms, hdevices, hfault]; rfl))
    exact List.mem_append_left _ (List.mem_append_left _ hmention)
  -- everything is there, so the passes are made
  rw [hplatforms, hdevices, hok]
  refine mapM_cases ?_ (origins_below_rel hallPlatforms hallDevices)
  rintro _ pass ⟨platform?, device?, rfl, hp, hd⟩
  exact expandOne_cases label agent child hhas hbase hp hd

/-- The record of a user agent is what its origin says, or there is a flaw. -/
theorem record_cases (defs : Definitions) (label : String) (agent : Agent) :
    (∃ record, agent.record defs label = .ok record ∧ (Origin.own agent).Yields defs label record) ∨
    ∃ fault, agent.record defs label = .error fault ∧ (Origin.own agent).Flaw defs fault := by
  rw [Agent.record]
  rcases agent.references.properties_cases defs with
    ⟨base, hok, hhas, hbase⟩ | ⟨mention, hmention, fault, hfault, hmissing⟩
  · -- the own properties are laid over the referenced ones
    have hvalue : ∀ name, (base.overlay agent.properties).get? name =
        (Origin.own agent).value? defs name := get?_foldl_overlay [agent.properties] hbase
    refine .inl ⟨_, by rw [hok]; rfl, ⟨hhas, ?_, ?_⟩, .own, ?_, rfl, ?_⟩
    · rintro _ _ ⟨⟩
    · rintro ⟨⟩
    · rw [Record.make, Origin.parent?, hvalue]
    · intro name hname
      rw [Record.properties_make, if_neg hname]
      exact hvalue name
  · exact .inr ⟨fault, by rw [hfault]; rfl, .undefined hmention hmissing⟩

/-- A part gives one record for each of its origins, or nothing but the fault of one of them. -/
theorem Part.steps_cases (defs : Definitions) (label : String) (part : Part) :
    (∃ records, part.steps defs label = records.map .ok ∧
      List.Forall₂ (Origin.Yields defs label) part.origins records) ∨
    ∃ origin ∈ part.origins, ∃ fault, part.steps defs label = [.error fault] ∧
      origin.Flaw defs fault := by
  cases part with
  | own agent =>
      rw [steps]
      rcases record_cases defs label agent with ⟨record, hrecord, hyields⟩ | ⟨fault, hfault, hflaw⟩
      · exact .inl ⟨[record], by rw [hrecord]; rfl, .cons hyields .nil⟩
      · exact .inr ⟨_, List.mem_singleton_self _, fault, by rw [hfault], hflaw⟩
  | below agent child =>
      rw [steps, Agent.childSteps]
      rcases expand_cases defs label agent child with
        ⟨expanded, hexpanded, hyields⟩ | ⟨origin, horigin, fault, hfault, hflaw⟩
      · -- what a child expands to becomes records in one go
        rw [hexpanded]
        refine .inl ⟨expanded.map (passRecord agent label), (List.map_map).symm, ?_⟩
        exact List.forall₂_map_right_iff.2 hyields
      · exact .inr ⟨origin, horigin, fault, by rw [hfault], hflaw⟩

/-- Parts give one record for each of their origins, up to the first part with a flaw. -/
theorem steps_cases (defs : Definitions) (label : String) (parts : List Part) :
    (∃ records, parts.flatMap (Part.steps defs label) = records.map .ok ∧
      List.Forall₂ (Origin.Yields defs label) (parts.flatMap Part.origins) records) ∨
    ∃ before part after records, parts = before ++ part :: after ∧
      List.Forall₂ (Origin.Yields defs label) (before.flatMap Part.origins) records ∧
      ∃ origin ∈ part.origins, ∃ fault, origin.Flaw defs fault ∧
        parts.flatMap (Part.steps defs label) =
          records.map .ok ++ .error fault :: after.flatMap (Part.steps defs label) := by
  induction parts with
  | nil => exact .inl ⟨[], rfl, .nil⟩
  | cons part rest ih =>
      rw [List.flatMap_cons, List.flatMap_cons]
      rcases part.steps_cases defs label with
        ⟨records, hrecords, hyields⟩ | ⟨origin, horigin, fault, hfault, hflaw⟩
      · -- the records of the part go in front of what the rest gives
        rw [hrecords]
        rcases ih with ⟨others, hothers, hrest⟩ |
          ⟨before, failed, after, others, rfl, hrest, origin, horigin, fault, hflaw, hsteps⟩
        · refine .inl ⟨records ++ others, ?_, List.rel_append hyields hrest⟩
          rw [hothers, List.map_append]
        · refine .inr ⟨part :: before, failed, after, records ++ others, rfl,
            List.rel_append hyields hrest, origin, horigin, fault, hflaw, ?_⟩
          rw [hsteps, List.map_append, List.append_assoc]
      · -- the part has a flaw, and there is nothing before it
        rw [hfault]
        exact .inr ⟨[], part, rest, [], rfl, .nil, origin, horigin, fault, hflaw, rfl⟩

/-! ## Divisions -/

variable {division : Division} {path : String}

/-- The steps of a division with a label are those of its parts. -/
theorem steps_eq (h : division.label? = some label) :
    division.steps defs path = division.parts.flatMap (Part.steps defs label) := by
  rw [Division.steps, h, parts, List.flatMap_assoc]
  refine List.flatMap_congr fun agent _ => ?_
  rw [partsOf, List.flatMap_cons, List.flatMap_map]
  rfl

theorem steps_unlabelled (h : division.label? = none) :
    division.steps defs path = [.error (.structural (.labelMissing path))] := by
  rw [Division.steps, h]

theorem error_not_mem_map_ok {fault : Fault} {records : List Record} :
    (.error fault : Step) ∉ records.map .ok := by
  intro h
  obtain ⟨_, _, hrecord⟩ := List.mem_map.1 h
  cases hrecord

/-- Where all steps are records, the division has a label, and they are the records of its origins.
-/
theorem yields_of_steps_eq {records : List Record}
    (h : division.steps defs path = records.map .ok) :
    ∃ label, division.label? = some label ∧
      List.Forall₂ (Origin.Yields defs label) division.origins records := by
  cases hlabel : division.label? with
  | none =>
      rw [steps_unlabelled hlabel] at h
      exact absurd (h ▸ List.mem_singleton_self _) error_not_mem_map_ok
  | some label =>
      rw [steps_eq hlabel] at h
      refine ⟨label, rfl, ?_⟩
      rcases steps_cases defs label division.parts with
        ⟨others, hothers, hall⟩ | ⟨_, _, _, others, _, _, _, _, fault, _, hsteps⟩
      · obtain rfl := List.map_injective_iff.2 (fun _ _ => Except.ok.inj) (hothers.symm.trans h)
        exact hall
      · -- there is no fault among records
        rw [hsteps] at h
        exact absurd (h ▸ List.mem_append_right _ List.mem_cons_self) error_not_mem_map_ok

/-- Where all origins are sound, all steps are their records. -/
theorem steps_of_sound (hlabel : division.label? = some label)
    (hsound : ∀ origin ∈ division.origins, origin.Sound defs) :
    ∃ records, division.steps defs path = records.map .ok ∧
      List.Forall₂ (Origin.Yields defs label) division.origins records := by
  rw [steps_eq hlabel]
  rcases steps_cases defs label division.parts with
    hall | ⟨before, part, after, _, hparts, _, origin, horigin, fault, hflaw, _⟩
  · exact hall
  · -- a flaw would be one of an origin of the division
    refine absurd (hsound origin ?_) hflaw.not_sound
    rw [origins, hparts, List.flatMap_append, List.flatMap_cons]
    exact List.mem_append_right _ (List.mem_append_left _ horigin)

/-- What it takes for a collection to take a division. -/
structure Expandable (division : Division) (c : Collection) : Prop where
  labelled : division.label? ≠ none
  sound : ∀ origin ∈ division.origins, origin.Sound c.definitions
  /-- The names of the records are distinct and new. -/
  fresh : ∃ keys, List.Forall₂ (Origin.Named c.definitions) division.origins keys ∧
    (c.records.map Record.key ++ keys).Nodup

/-- What a collection is after a division of `n` records: one for each origin, in their order. -/
structure Expanded (division : Division) (c d : Collection) (n : Nat) : Prop where
  definitions : d.definitions = c.definitions
  records : ∃ label added, division.label? = some label ∧ d.records = c.records ++ added ∧
    added.length = n ∧ List.Forall₂ (Origin.Yields c.definitions label) division.origins added

/-- A collection takes a division exactly if it has a label, its origins are sound, and their names
are distinct and new. What is added then are the records of its origins. -/
theorem applyDivision_exact (c : Collection) (division : Division) (path : String) :
    ((∃ n, (c.applyDivision division path).2 = .ok n) ↔ division.Expandable c) ∧
      ∀ n, (c.applyDivision division path).2 = .ok n →
        division.Expanded c (c.applyDivision division path).1 n := by
  refine ⟨Collection.exists_applyDivision_eq_ok_iff.trans ⟨?_, ?_⟩, ?_⟩
  · rintro ⟨records, hsteps, hnodup⟩
    obtain ⟨label, hlabel, hall⟩ := yields_of_steps_eq hsteps
    rw [List.map_append] at hnodup
    have hsound := (List.forall₂_and_left (p := Origin.Sound c.definitions) _ _).1
      (hall.imp fun _ _ h => ⟨h.sound, h⟩)
    have hnamed := List.forall₂_map_right_iff.2 (hall.imp fun _ _ h => h.key)
    exact ⟨by rw [hlabel]; exact Option.some_ne_none label, hsound.1, _, hnamed, hnodup⟩
  · rintro ⟨hlabelled, hsound, keys, hkeys, hnodup⟩
    obtain ⟨label, hlabel⟩ := Option.ne_none_iff_exists'.1 hlabelled
    obtain ⟨records, hsteps, hall⟩ := steps_of_sound hlabel hsound
    -- an origin has one name only, so the names are the keys of the records
    have hnamed := List.forall₂_map_right_iff.2 (hall.imp fun _ _ h => h.key)
    obtain rfl := List.right_unique_forall₂' (fun _ _ _ h ho => h.unique ho) hkeys hnamed
    exact ⟨records, hsteps, by rwa [List.map_append]⟩
  · intro n hn
    obtain ⟨added, remaining, htakes, hend⟩ := c.applyDivision_cases division path
    rcases hend with ⟨rfl, hok⟩ | ⟨fault, hfault, _⟩
    · have hsteps := htakes.steps
      rw [List.append_nil] at hsteps
      obtain ⟨label, hlabel, hall⟩ := yields_of_steps_eq hsteps
      rw [hn, Except.ok.injEq] at hok
      exact ⟨htakes.definitions, label, added, hlabel, htakes.records, hok.symm, hall⟩
    · rw [hn] at hfault
      cases hfault

/-- A child over platforms and a device. -/
def pixelChild (platforms : List String) : Child where
  pattern := "Mozilla/5.0 (#PLATFORM#; #DEVICE# Build/*) Chrome/62.0*"
  references := ⟨none, none, none, none⟩
  platforms := platforms
  devices := .ofList [("Pixel 2", "pixel_2")]
  properties := .empty

/-- The user agent of the child. -/
def pixelAgent (platforms : List String) : Agent where
  name := "Chrome 62.0"
  references := ⟨some "chrome", none, none, none⟩
  properties := .ofList [("Parent", .text defaultProperties), ("Comment", .text "Chrome 62.0")]
  children := [pixelChild platforms]

def pixelDivision (platforms : List String) : Division where
  label? := some "Chrome 62.0"
  sortIndex := 0
  agents := [pixelAgent platforms]

/-- A collection with the definitions which the division mentions. -/
def pixels : Collection where
  definitions := {
    platforms := .ofList [
      ("android_8_0", ⟨some "Linux; Android 8.0*", .ofList [("Platform", .text "Android")]⟩),
      ("android_8_1", ⟨some "Linux; Android 8.1*", .ofList [("Platform", .text "Android")]⟩)]
    engines := .empty
    devices := .ofList [("pixel_2", ⟨none, .ofList [("Device_Name", .text "Pixel 2")]⟩)]
    browsers := .ofList [("chrome", ⟨none, .ofList [("Browser", .text "Chrome")]⟩)] }
  records := []
  nodup := .nil

theorem applyDivision_exact_pixel :
    (pixels.applyDivision (pixelDivision ["android_8_0", "android_8_1"]) "chrome.json").2 = .ok 3 ∧
      (pixelDivision ["android_8_0", "android_8_1"]).Expandable pixels ∧
      (pixelDivision ["android_8_0", "android_8_1"]).Expanded pixels
        (pixels.applyDivision (pixelDivision ["android_8_0", "android_8_1"]) "chrome.json").1 3 := by
  have hok : (pixels.applyDivision (pixelDivision ["android_8_0", "android_8_1"])
      "chrome.json").2 = .ok 3 := by decide +kernel
  obtain ⟨hiff, hexpanded⟩ :=
    applyDivision_exact pixels (pixelDivision ["android_8_0", "android_8_1"]) "chrome.json"
  exact ⟨hok, hiff.1 ⟨3, hok⟩, hexpanded 3 hok⟩

end AgentAtlas.Division
