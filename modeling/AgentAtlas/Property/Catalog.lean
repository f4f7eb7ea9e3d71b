import AgentAtlas.Fault
import AgentAtlas.Flavor
import AgentAtlas.Property.Value

/-!
# The catalog of properties

A catalog lists every property a record may carry: the values it takes, whether it reaches the
artifact, and from which flavor on. Its order is the order of the properties in every row.
`Catalog.standard` is the catalog of the capability database.
-/

set_option autoImplicit false

namespace AgentAtlas.Property

/-- The values a property takes. -/
inductive Kind where
  | boolean
  /-- Any text. -/
  | text
  /-- One of the listed texts. -/
  | oneOf (allowed : List String)
  deriving DecidableEq, Repr

/-- What a catalog says of one property. -/
structure Info where
  kind : Kind
  /-- Whether the property belongs to the output at all. -/
  output : Bool := true
  /-- Whether the property is only for internal use. -/
  extra : Bool := false
  /-- The smallest flavor with the property. -/
  tier : Flavor := .full
  deriving DecidableEq, Repr

namespace Info

/-- In every flavor. -/
def inLite (info : Info) : Info := { info with tier := .lite }

/-- In the standard flavor at least. -/
def inStandard (info : Info) : Info :=
  { info with tier := if info.tier = .lite then .lite else .standard }

/-- Only for internal use. -/
def asExtra (info : Info) : Info := { info with extra := true }

/-- Not in the output. -/
def asInternal (info : Info) : Info := { info with output := false }

/-- Whether the property takes a value: flags and texts always pass, a listed text does without the
blanks at its ends. -/
def accepts (info : Info) (value : Value) : Bool :=
  match info.kind with
  | .oneOf allowed => allowed.contains (Text.trim value.display)
  | _ => true

end Info

/-- Which properties of a catalog the rows keep. -/
structure Filter where
  /-- Whether a property passes, by its name and what the catalog says of it. -/
  admits : String → Info → Bool

namespace Filter

/-- The filter of a flavor: the tiers which the flavor includes pass. -/
def ofFlavor (flavor : Flavor) : Filter := ⟨fun _ info => flavor.includes info.tier⟩

instance : Coe Flavor Filter := ⟨ofFlavor⟩

/-- Whether rows show a property: one for the output, not for internal use, which passes. -/
def shows (filter : Filter) (name : String) (info : Info) : Bool :=
  info.output && !info.extra && filter.admits name info

end Filter

end Property

/-- What is known of each property, in the order of a row. -/
abbrev Catalog := Keyed String Property.Info

namespace Catalog

open Property

/-- Refuse a property which is not in the catalog. -/
def require (catalog : Catalog) (key property : String) : Except Fault Info :=
  match catalog.get? property with
  | some info => .ok info
  | none => .error (.structural (.unknownProperty property key))

/-- Refuse a property of a record which is unknown or has a value outside its list. -/
def check (catalog : Catalog) (key property : String) (value : Value) : Except Fault Unit := do
  let info ← catalog.require key property
  if info.accepts value then return ()
  else throw (.structural (.disallowedValue value.display property key))

/-- The properties which a flavor includes, in order. -/
def included (catalog : Catalog) (flavor : Flavor) : List String :=
  (catalog.entries.filter fun e => flavor.includes e.2.tier).map Prod.fst

def browserTypes : List String :=
  ["Useragent Anonymizer", "Browser", "Offline Browser", "Multimedia Player", "Library",
    "Feed Reader", "Email Client", "Bot/Crawler", "Application", "Tool", "unknown"]

def deviceTypes : List String :=
  ["Console", "TV Device", "Tablet", "Mobile Phone", "Smartphone", "Feature Phone",
    "Mobile Device", "FonePad", "Desktop", "Ebook Reader", "Car Entertainment System",
    "Digital Camera", "unknown"]

def pointingMethods : List String :=
  ["joystick", "stylus", "touchscreen", "clickpad", "trackpad", "trackball", "mouse", "unknown"]

def bits : List String := ["0", "8", "16", "32", "64"]

def styleSheetVersions : List String := ["0", "1", "2", "3"]

def text : Info := { kind := .text }

def flag : Info := { kind := .boolean }

def oneOf (allowed : List String) : Info := { kind := .oneOf allowed }

/-- The properties of the capability database. -/
def standard : Catalog := Keyed.ofList [
  ("Parent", text.inLite),
  ("Comment", text.inLite),
  ("Browser", text.inLite),
  ("Browser_Type", (oneOf browserTypes).asExtra),
  ("Browser_Bits", (oneOf bits).asExtra),
  ("Browser_Maker", text.asExtra),
  ("Browser_Modus", text.asExtra),
  ("Version", text.inLite),
  ("MajorVer", text.inStandard),
  ("MinorVer", text.inStandard),
  ("Platform", text.inLite),
  ("Platform_Version", text.inStandard),
  ("Platform_Description", text),
  ("Platform_Bits", (oneOf bits).asExtra),
  ("Platform_Maker", text.asExtra),
  ("Alpha", flag),
  ("Beta", flag),
  ("Win16", flag),
  ("Win32", flag),
  ("Win64", flag),
  ("Frames", flag),
  ("IFrames", flag),
  ("Tables", flag),
  ("Cookies", flag),
  ("BackgroundSounds", flag),
  ("JavaScript", flag.inStandard),
  ("VBScript", flag),
  ("JavaApplets", flag),
  ("ActiveXControls", flag),
  ("isMobileDevice", flag.inLite),
  ("isTablet", flag.inLite),
  ("isSyndicationReader", flag),
  ("Crawler", flag.inStandard),
  ("isFake", flag),
  ("isAnonymized", flag),
  ("isModified", flag),
  ("CssVersion", oneOf styleSheetVersions),
  ("AolVersion", text),
  ("Device_Name", text.inStandard),
  ("Device_Maker", text.inStandard),
  ("Device_Type", (oneOf deviceTypes).inLite),
  ("Device_Pointing_Method", (oneOf pointingMethods).inStandard),
  ("Device_Code_Name", text.asExtra),
  ("Device_Brand_Name", text.asExtra),
  ("RenderingEngine_Name", text.asExtra),
  ("RenderingEngine_Version", text.asExtra),
  ("RenderingEngine_Description", text.asExtra),
  ("RenderingEngine_Maker", text.asExtra),
  ("PatternId", text.asInternal)]

end AgentAtlas.Catalog
