import AgentAtlas.Division.Expansion
import AgentAtlas.Proofs.Sequencing
import AgentAtlas.Proofs.Text.Replacing

/-!
# Origins of records

A division asks for one record of each user agent, and of each child one for every pass over a
platform and a device. Such an *origin* mentions definitions; laid over one another, with its own
properties on top, they give the value of every property (`Origin.value?`). It has at most one name
(`Origin.Named.unique`). A *sound* origin mentions only what exists, and no placeholder is left in
its name; then `Origin.Yields` says what its record is. All else is a flaw, and each flaw goes with
its own fault (`Origin.Flaw`).
-/

set_option autoImplicit false

namespace AgentAtlas

/-! ## Layers of properties -/

/-- The value of the last layer which declares one. -/
def lastValue (layers : List Properties) (name : String) : Option Property.Value :=
  (layers.filterMap fun layer => layer.get? name).getLast?

theorem lastValue_append (lower upper : List Properties) (name : String) :
    lastValue (lower ++ upper) name = (lastValue upper name).or (lastValue lower name) := by
  rw [lastValue, List.filterMap_append, List.getLast?_append]
  rfl

theorem lastValue_singleton (layer : Properties) (name : String) :
    lastValue [layer] name = layer.get? name := by
  rw [lastValue, List.filterMap_cons]
  cases layer.get? name <;> rfl

/-- Layers laid over a base answer with the last value there is. -/
theorem get?_foldl_overlay (layers : List Properties) :
    ∀ {base : Properties} {below : List Properties},
      (∀ name, base.get? name = lastValue below name) → ∀ name,
        (layers.foldl Keyed.overlay base).get? name = lastValue (below ++ layers) name := by
  induction layers with
  | nil =>
      intro base below h name
      rw [List.append_nil]
      exact h name
  | cons layer layers ih =>
      intro base below h name
      -- the first layer joins those below
      have hlayer : ∀ name, (base.overlay layer).get? name = lastValue (below ++ [layer]) name := by
        intro name
        rw [Keyed.get?_overlay, lastValue_append, lastValue_singleton, h]
      rw [List.foldl_cons, ih hlayer, List.append_assoc, List.singleton_append]

/-! ## Mentions of definitions -/

/-- A mention of a definition: its kind, and its key unless nothing is mentioned. -/
abbrev Mention := DefinitionKind × Option String

namespace Definitions

/-- The definition which is mentioned exists. -/
def Has (defs : Definitions) (mention : Mention) : Prop :=
  ∀ key, mention.2 = some key → (defs.of mention.1).contains key = true

/-- What a mention adds: the properties of the definition. -/
def layer (defs : Definitions) (mention : Mention) : Properties :=
  match mention.2.bind (defs.of mention.1).get? with
  | some definition => definition.properties
  | none => .empty

/-- The definition which is mentioned does not exist, with the fault that says so. -/
inductive Missing (defs : Definitions) : Mention → Fault → Prop
  | intro {kind : DefinitionKind} {key : String} : (defs.of kind).contains key = false →
      Missing defs (kind, some key) (.notFound (.definition kind) key)

variable {defs : Definitions}

theorem Missing.not_has {mention : Mention} {fault : Fault} (h : defs.Missing mention fault) :
    ¬defs.Has mention := by
  cases h with
  | intro hmissing =>
      intro hhas
      rw [hhas _ rfl] at hmissing
      cases hmissing

theorem has_none (defs : Definitions) (kind : DefinitionKind) : defs.Has (kind, none) := by
  rintro _ ⟨⟩

theorem has_of_get? {kind : DefinitionKind} {key : String} {definition : Definition}
    (h : (defs.of kind).get? key = some definition) : defs.Has (kind, some key) := by
  rintro _ ⟨⟩
  rw [Keyed.contains, h]
  rfl

/-- A key is found or missing. -/
theorem find_cases (defs : Definitions) (kind : DefinitionKind) (key : String) :
    (∃ definition, (defs.of kind).get? key = some definition ∧
      defs.find kind key = .ok definition) ∨
    ∃ fault, defs.find kind key = .error fault ∧ defs.Missing (kind, some key) fault := by
  rw [find]
  cases h : (defs.of kind).get? key with
  | some definition => exact .inl ⟨definition, rfl, rfl⟩
  | none => exact .inr ⟨_, rfl, .intro (by rw [Keyed.contains, h]; rfl)⟩

/-- A reference gives its layer, or is missing. -/
theorem referred_cases (defs : Definitions) (mention : Mention) :
    (∃ layer, defs.referred mention.1 mention.2 = .ok layer ∧
      defs.Has mention ∧ layer = defs.layer mention) ∨
    ∃ fault, defs.referred mention.1 mention.2 = .error fault ∧ defs.Missing mention fault := by
  obtain ⟨kind, key?⟩ := mention
  cases key? with
  | none => exact .inl ⟨_, rfl, has_none defs kind, rfl⟩
  | some key =>
      rw [referred]
      rcases find_cases defs kind key with ⟨definition, hget, hfind⟩ | ⟨fault, hfind, hmissing⟩
      · refine .inl ⟨definition.properties, by rw [hfind]; rfl, has_of_get? hget, ?_⟩
        rw [layer, Option.bind_some, hget]
      · exact .inr ⟨fault, by rw [hfind]; rfl, hmissing⟩

end Definitions

/-- The references in the order in which their properties are laid. -/
def References.mentions (refs : References) : List Mention :=
  [(.browser, refs.browser?), (.engine, refs.engine?), (.device, refs.device?),
    (.platform, refs.platform?)]

theorem References.properties_eq (refs : References) (defs : Definitions) :
    refs.properties defs =
      (refs.mentions.mapM fun mention => defs.referred mention.1 mention.2).map
        fun layers => layers.tail.foldl Keyed.overlay (layers.headD .empty) := by
  rw [properties, mentions]
  simp only [List.mapM_cons, List.mapM_nil]
  -- both sides look up one kind after the other, up to the first which is missing
  cases defs.referred .browser refs.browser? with
  | error _ => rfl
  | ok browser =>
      cases defs.referred .engine refs.engine? with
      | error _ => rfl
      | ok engine =>
          cases defs.referred .device refs.device? with
          | error _ => rfl
          | ok device => cases defs.referred .platform refs.platform? <;> rfl

/-- References give the layers they mention, or one of them is missing. -/
theorem References.properties_cases (refs : References) (defs : Definitions) :
    (∃ base, refs.properties defs = .ok base ∧ (∀ mention ∈ refs.mentions, defs.Has mention) ∧
      ∀ name, base.get? name = lastValue (refs.mentions.map defs.layer) name) ∨
    ∃ mention ∈ refs.mentions, ∃ fault, refs.properties defs = .error fault ∧
      defs.Missing mention fault := by
  rw [properties_eq]
  rcases mapM_cases_self defs.referred_cases refs.mentions with
    ⟨layers, hlayers, hall⟩ | ⟨mention, hmention, fault, hfault, hmissing⟩
  · obtain rfl := eq_map_of_forall₂ (fun _ _ h => h.2) hall
    have hhas := List.forall₂_same.1 (List.forall₂_map_right_iff.1 hall)
    refine .inl ⟨_, by rw [hlayers]; rfl, fun mention hmention => (hhas mention hmention).1, ?_⟩
    -- the first layer is the base for the others
    exact get?_foldl_overlay (refs.mentions.tail.map defs.layer) fun name =>
      (lastValue_singleton (defs.layer (.browser, refs.browser?)) name).symm
  · exact .inr ⟨mention, hmention, fault, by rw [hfault]; rfl, hmissing⟩

/-! ## Origins -/

namespace Division

/-- Where a record of a division comes from: a user agent itself, or one pass of a child of it over
a platform and a device, each left out where none are listed. -/
inductive Origin where
  | own (agent : Agent)
  | pass (agent : Agent) (child : Child) (platform? : Option String)
      (device? : Option (String × String))

/-- The name with the text of a platform, which has to be defined and to have a text. -/
inductive WithPlatform (defs : Definitions) : Option String → List Char → List Char → Prop
  | none {s : List Char} : WithPlatform defs none s s
  | some {key fragment : String} {definition : Definition} {s t : List Char} :
      (defs.of .platform).get? key = some definition → definition.fragment? = some fragment →
      Text.Replaced platformPlaceholder fragment.toList s t → WithPlatform defs (some key) s t

/-- The name with the text that stands for a device. -/
inductive WithDevice : Option (String × String) → List Char → List Char → Prop
  | none {s : List Char} : WithDevice none s s
  | some {text key : String} {s t : List Char} :
      Text.Replaced devicePlaceholder text.toList s t → WithDevice (some (text, key)) s t

/-- A place for a platform or a device is left in a name. -/
def HasPlaceholder (name : String) : Prop :=
  platformPlaceholder <:+: name.toList ∨ devicePlaceholder <:+: name.toList

namespace Origin

/-- The user agent of the origin. -/
def agent : Origin → Agent
  | own agent => agent
  | pass agent _ _ _ => agent

/-- The origin belongs to a child. -/
def FromChild : Origin → Prop
  | own _ => False
  | pass _ _ _ _ => True

/-- The listed platform of the origin. -/
def platform? : Origin → Option String
  | own _ => none
  | pass _ _ platform? _ => platform?

/-- The definitions which the origin mentions, in the order in which they are laid: the referenced
ones, then the listed platform and device. -/
def mentions : Origin → List Mention
  | own agent => agent.references.mentions
  | pass _ child platform? device? =>
    child.references.mentions ++ [(.platform, platform?), (.device, device?.map Prod.snd)]

/-- The properties of the origin itself. -/
def properties : Origin → Properties
  | own agent => agent.properties
  | pass _ child _ _ => child.properties

/-- The value of a property, from the last layer with one; the own properties are on top. -/
def value? (defs : Definitions) (origin : Origin) (name : String) : Option Property.Value :=
  lastValue (origin.mentions.map defs.layer ++ [origin.properties]) name

/-- The parent of the record: the one among the properties, but for a child its user agent. -/
def parent? (defs : Definitions) : Origin → Option String
  | own agent =>
    ((own agent).value? defs Property.parentName).map fun value => Text.trim value.display
  | pass agent _ _ _ => some agent.name

/-- The name of the record: first the platform is filled in, then the device. -/
inductive Named (defs : Definitions) : Origin → String → Prop
  | own {agent : Agent} : Named defs (own agent) agent.name
  | pass {agent : Agent} {child : Child} {platform? : Option String}
      {device? : Option (String × String)} {filled name : List Char} :
      WithPlatform defs platform? child.pattern.toList filled → WithDevice device? filled name →
      Named defs (pass agent child platform? device?) (String.ofList name)

/-- The origin gives a record. -/
structure Sound (defs : Definitions) (origin : Origin) : Prop where
  /-- Every mentioned definition exists. -/
  defined : ∀ mention ∈ origin.mentions, defs.Has mention
  /-- The listed platform has a text. -/
  matched : ∀ key definition, origin.platform? = some key →
    (defs.of .platform).get? key = some definition → definition.fragment? ≠ none
  /-- The name of a child has all places filled. -/
  complete : origin.FromChild → ∀ name, origin.Named defs name → ¬HasPlaceholder name

/-- The record of a sound origin. -/
structure Yields (defs : Definitions) (label : String) (origin : Origin) (record : Record) :
    Prop where
  sound : origin.Sound defs
  key : origin.Named defs record.key
  parent : record.parent? = origin.parent? defs
  division : record.division = label
  properties : ∀ name, name ≠ Property.parentName →
    record.properties.get? name = origin.value? defs name

/-- What is wrong with an origin, and the fault which says so. -/
inductive Flaw (defs : Definitions) (origin : Origin) : Fault → Prop
  | undefined {mention : Mention} {fault : Fault} : mention ∈ origin.mentions →
      defs.Missing mention fault → Flaw defs origin fault
  | unmatched {key : String} {definition : Definition} : origin.platform? = some key →
      (defs.of .platform).get? key = some definition → definition.fragment? = none →
      Flaw defs origin (.structural (.platformWithoutMatch key origin.agent.name))
  | incomplete {name : String} : origin.FromChild → origin.Named defs name → HasPlaceholder name →
      Flaw defs origin (.structural (.placeholderLeft name origin.agent.name))

variable {defs : Definitions} {origin : Origin}

/-- A sound origin has no flaw. -/
theorem Flaw.not_sound {fault : Fault} (h : origin.Flaw defs fault) : ¬origin.Sound defs := by
  intro hsound
  cases h with
  | undefined hmention hmissing => exact hmissing.not_has (hsound.defined _ hmention)
  | unmatched hplatform hget hnone => exact hsound.matched _ _ hplatform hget hnone
  | incomplete hchild hname hleft => exact hsound.complete hchild _ hname hleft

end Origin

theorem platformPlaceholder_ne_nil : platformPlaceholder ≠ [] := by decide

theorem devicePlaceholder_ne_nil : devicePlaceholder ≠ [] := by decide

theorem WithPlatform.unique {defs : Definitions} {platform? : Option String} {s t u : List Char}
    (ht : WithPlatform defs platform? s t) (hu : WithPlatform defs platform? s u) : t = u := by
  cases ht with
  | none =>
      cases hu
      rfl
  | some hget hfragment ht =>
      cases hu with
      | some hget' hfragment' hu =>
          -- the platform has one definition, and that one text
          rw [hget] at hget'
          cases hget'
          rw [hfragment] at hfragment'
          cases hfragment'
          exact ((Text.replace_eq_iff platformPlaceholder_ne_nil).2 ht).symm.trans
            ((Text.replace_eq_iff platformPlaceholder_ne_nil).2 hu)

theorem WithDevice.unique {device? : Option (String × String)} {s t u : List Char}
    (ht : WithDevice device? s t) (hu : WithDevice device? s u) : t = u := by
  cases ht with
  | none =>
      cases hu
      rfl
  | some ht =>
      cases hu with
      | some hu =>
          exact ((Text.replace_eq_iff devicePlaceholder_ne_nil).2 ht).symm.trans
            ((Text.replace_eq_iff devicePlaceholder_ne_nil).2 hu)

/-- An origin has one name at most. -/
theorem Origin.Named.unique {defs : Definitions} {origin : Origin} {name other : String}
    (h : origin.Named defs name) (ho : origin.Named defs other) : name = other := by
  cases h with
  | own =>
      cases ho
      rfl
  | pass hplatform hdevice =>
      cases ho with
      | pass hplatform' hdevice' =>
          obtain rfl := hplatform.unique hplatform'
          rw [hdevice.unique hdevice']

/-! ## Parts of a division -/

/-- What expands as a whole: a user agent itself, or a child of it. -/
inductive Part where
  | own (agent : Agent)
  | below (agent : Agent) (child : Child)

namespace Part

/-- The origins of the records of a part; those of a child go over its platforms, and for each of
them over its devices. -/
def origins : Part → List Origin
  | own agent => [.own agent]
  | below agent child =>
    (passes child.platforms).flatMap fun platform? =>
      (passes child.devices.entries).map fun device? => .pass agent child platform? device?

/-- The records of a part. -/
def steps (defs : Definitions) (label : String) : Part → List Step
  | own agent => [agent.record defs label]
  | below agent child => agent.childSteps defs label child

end Part

/-- A user agent and then its children. -/
def partsOf (agent : Agent) : List Part := .own agent :: agent.children.map (.below agent)

/-- The parts of a division in order. -/
def parts (division : Division) : List Part := division.agents.flatMap partsOf

/-- The origins of the records of a division in order. -/
def origins (division : Division) : List Origin := division.parts.flatMap Part.origins

end Division

end AgentAtlas
