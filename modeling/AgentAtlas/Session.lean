import AgentAtlas.CommandLine
import AgentAtlas.Delivery

/-!
# Runs of the program

A run reads the arguments, then the resource tree, and only when the whole document is there does it
deliver anything: to a path all at once, or to standard output. Messages follow a delivery that
succeeded; a fault is told on standard error and nothing else is.

What compresses a document is a parameter of a run (`compress`), as the disk and the time are. It is
given whole documents, and only those which are to be compressed (`contentOf`).
-/

set_option autoImplicit false

namespace AgentAtlas.Session

open CommandLine (Request Stop)

/-- What a run has to deliver, and where, with the messages for afterwards. -/
structure Prepared where
  /-- The content to deliver, if any. -/
  content? : Option Bytes
  /-- The path to deliver it to; without one it goes to standard output. -/
  output? : Option String
  messages : List Message
  deriving Repr

/-- What the outside world sees of a run, its disk apart. -/
structure Outcome where
  exitCode : UInt32
  stdout : Bytes
  stderr : String
  deriving Repr

/-- The bytes of a text. -/
def textBytes (s : String) : Bytes := s.toUTF8.data.toList

/-- The content of a document: compressed if asked for, or if the path has the extension `gz`. -/
def contentOf (compress : Bytes → Bytes) (document : String) (output? : Option String)
    (gzip : Bool) : Bytes :=
  let plain := textBytes document
  if gzip || output?.bind Path.fileExtension? == some "gz" then compress plain else plain

/-- Do what is asked up to the delivery. -/
def prepare (compress : Bytes → Bytes) (disk : Disk) (now : String) :
    Request → Except Fault Prepared
  | .check root => do
    let report ← (Source.ofTree disk root).check Catalog.standard
    return ⟨none, none, report.messages⟩
  | .build root options stamped output? gzip => do
    let options := if stamped then { options with released? := some now } else options
    let report ← (Source.ofTree disk root).build Catalog.standard options
    return ⟨report.document?.map fun document => contentOf compress document output? gzip, output?,
      report.messages⟩

/-- The messages as lines. -/
def lines (messages : List Message) : String :=
  String.join (messages.map fun message => message.text ++ "\n")

/-- A run that failed. -/
def failed (fault : Fault) : Outcome := ⟨1, [], "Error: " ++ fault.message ++ "\n"⟩

/-- A run that ended with the reading of the arguments. -/
def stopped : Stop → Outcome
  | .usage => ⟨2, [], "error: the arguments were not understood\n"⟩
  | .help => ⟨0, textBytes CommandLine.helpText, ""⟩

/-- A run whose delivery to a path went through, or which had none to make. -/
def delivered (prepared : Prepared) : Outcome :=
  let stdout := match prepared.output? with
    | none => prepared.content?.getD []
    | some _ => []
  ⟨0, stdout, lines prepared.messages⟩

/-- The delivery of a run, if it goes to a path. -/
def delivery? (prepared : Prepared) : Option Delivery := do
  return ⟨← prepared.output?, ← prepared.content?⟩

/-- The end of a run: what goes to a path is delivered, and the rest is seen. -/
def finish {m : Type → Type} [Monad m] (act : Action → m (Except SystemFault Unit))
    (prepared : Prepared) : m Outcome := do
  match delivery? prepared with
  | none => return delivered prepared
  | some delivery =>
    match ← delivery.perform act with
    | none => return delivered prepared
    | some fault => return failed fault

/-- A run on a disk: what is seen of it, and the states the disk went through. -/
def run (compress : Bytes → Bytes) (disk : Disk) (now : String) (arguments : List String) :
    Outcome × Delivery.History :=
  match CommandLine.request arguments with
  | .error stop => (stopped stop, ⟨disk, []⟩)
  | .ok request =>
    match prepare compress disk now request with
    | .error fault => (failed fault, ⟨disk, []⟩)
    | .ok prepared => (finish Delivery.step prepared).run ⟨disk, []⟩

end AgentAtlas.Session
