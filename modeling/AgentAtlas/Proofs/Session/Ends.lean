import AgentAtlas.Proofs.Artifact.Closure
import AgentAtlas.Proofs.Delivery.Replacement
import AgentAtlas.Session

/-!
# How runs end

A run on a system ends in one of several ways, as the system lets its actions succeed or fail
(`MayEnd`); on a disk alone it ends in one of them (`mayEnd_run`). What compresses is any function.

A build ends without a document, and then nothing happens, or its document is printed, or it is
delivered to the output path, or that delivery fails (`BuildEnd`, `buildEnd_of_mayEnd`).
-/

set_option autoImplicit false

namespace AgentAtlas.Session

open CommandLine (request)
open Delivery (Acts Follows History MayAct Possibly)

/-- How a run may end on a system: what is seen of it, and the states the disk went through. -/
def MayEnd (compress : Bytes → Bytes) (act : Action → Possibly (Except SystemFault Unit))
    (disk : Disk) (now : String) (arguments : List String) (outcome : Outcome)
    (history : History) : Prop :=
  match request arguments with
  | .error stop => outcome = stopped stop ∧ history = ⟨disk, []⟩
  | .ok request =>
    match prepare compress disk now request with
    | .error fault => outcome = failed fault ∧ history = ⟨disk, []⟩
    | .ok prepared => finish act prepared ⟨disk, []⟩ outcome history

variable {compress : Bytes → Bytes} {act : Action → Possibly (Except SystemFault Unit)}
  {disk : Disk} {now root : String} {arguments : List String} {options : BuildOptions}
  {stamped gzip : Bool} {output? : Option String} {outcome : Outcome} {history : History}

theorem follows_finish (hact : ∀ action, Follows (Delivery.step action) (act action))
    (prepared : Prepared) : Follows (finish Delivery.step prepared) (finish act prepared) := by
  unfold finish
  cases delivery? prepared with
  | none => exact Delivery.follows_pure _
  | some delivery =>
      refine (Delivery.follows_perform hact delivery).bind fun fault? => ?_
      cases fault? with
      | none => exact Delivery.follows_pure _
      | some fault => exact Delivery.follows_pure _

/-- A run on a disk alone ends as it may end on a system whose rules its steps follow. -/
theorem mayEnd_run (hact : ∀ action, Follows (Delivery.step action) (act action))
    (compress : Bytes → Bytes) (disk : Disk) (now : String) (arguments : List String) :
    MayEnd compress act disk now arguments (run compress disk now arguments).1
      (run compress disk now arguments).2 := by
  unfold MayEnd run
  cases request arguments with
  | error stop => exact ⟨rfl, rfl⟩
  | ok request =>
      cases hprepare : prepare compress disk now request with
      | error fault => simp only [hprepare, and_self]
      | ok prepared =>
          simp only [hprepare]
          exact follows_finish hact prepared ⟨disk, []⟩

theorem mayEnd_acts (compress : Bytes → Bytes) (disk : Disk) (now : String)
    (arguments : List String) :
    MayEnd compress Acts disk now arguments (run compress disk now arguments).1
      (run compress disk now arguments).2 :=
  mayEnd_run Delivery.follows_step compress disk now arguments

theorem mayEnd_mayAct (compress : Bytes → Bytes) (disk : Disk) (now : String)
    (arguments : List String) :
    MayEnd compress MayAct disk now arguments (run compress disk now arguments).1
      (run compress disk now arguments).2 :=
  mayEnd_run (fun action history => (Delivery.follows_step action history).mayAct) compress disk
    now arguments

/-! ## Builds -/

/-- The report of a build. -/
def built (disk : Disk) (now root : String) (options : BuildOptions) (stamped : Bool) :
    Except Fault Report :=
  (Source.ofTree disk root).build Catalog.standard
    (if stamped then { options with released? := some now } else options)

/-- A build that succeeds has the document of some artifact. -/
theorem exists_document {report : Report} (h : built disk now root options stamped = .ok report) :
    ∃ format config artifact, report.document? = some (Document.text format config artifact) := by
  obtain ⟨config, -, h⟩ := bind_eq_ok_iff.1 h
  obtain ⟨compiled, -, h⟩ := bind_eq_ok_iff.1 h
  cases h
  exact ⟨_, _, _, rfl⟩

/-- A tree can be built if it has a configuration, it loads, and its records reduce to rows. -/
theorem exists_built {config : Config} {c : Collection} {rows : List Row}
    (hconfig : ResourceTree.config disk root = .ok config)
    (hload : ResourceTree.load disk root = .ok c)
    (hrows : c.rows Catalog.standard options.flavor = .ok rows) :
    ∃ report, built disk now root options stamped = .ok report := by
  obtain ⟨artifact, hartifact⟩ := Artifact.exists_compile_rows hrows
  have hflavor : (if stamped then { options with released? := some now } else options).flavor =
      options.flavor := by
    cases stamped <;> rfl
  refine ⟨_, bind_eq_ok_iff.2 ⟨config, hconfig, bind_eq_ok_iff.2 ⟨(c, artifact), ?_, rfl⟩⟩⟩
  rw [hflavor]
  exact bind_eq_ok_iff.2 ⟨c, hload, bind_eq_ok_iff.2 ⟨rows, hrows,
    bind_eq_ok_iff.2 ⟨artifact, hartifact, rfl⟩⟩⟩

/-- The ends of a build: there is no document, or it is printed, or delivered, or its delivery
fails. -/
inductive BuildEnd (compress : Bytes → Bytes) (act : Action → Possibly (Except SystemFault Unit))
    (disk : Disk) (report : Except Fault Report) (gzip : Bool) :
    Option String → Outcome → History → Prop where
  | faulty {output? : Option String} {fault : Fault} (hreport : report = .error fault) :
      BuildEnd compress act disk report gzip output? (failed fault) ⟨disk, []⟩
  | printed {result : Report} {document : String} (hreport : report = .ok result)
      (hdocument : result.document? = some document) :
      BuildEnd compress act disk report gzip none
        ⟨0, contentOf compress document none gzip, lines result.messages⟩ ⟨disk, []⟩
  | delivered {result : Report} {document path : String} {history : History}
      (hreport : report = .ok result) (hdocument : result.document? = some document)
      (hperform : (Delivery.mk path (contentOf compress document (some path) gzip)).perform act
        ⟨disk, []⟩ none history) :
      BuildEnd compress act disk report gzip (some path) ⟨0, [], lines result.messages⟩ history
  | refused {result : Report} {document path : String} {fault : Fault} {history : History}
      (hreport : report = .ok result) (hdocument : result.document? = some document)
      (hperform : (Delivery.mk path (contentOf compress document (some path) gzip)).perform act
        ⟨disk, []⟩ (some fault) history) :
      BuildEnd compress act disk report gzip (some path) (failed fault) history

/-- A run which is asked to build ends as builds do. -/
theorem buildEnd_of_mayEnd
    (hrequest : request arguments = .ok (.build root options stamped output? gzip))
    (hend : MayEnd compress act disk now arguments outcome history) :
    BuildEnd compress act disk (built disk now root options stamped) gzip output? outcome
      history := by
  have hprepare : prepare compress disk now (.build root options stamped output? gzip) =
      (built disk now root options stamped).bind fun report =>
        .ok ⟨report.document?.map fun document => contentOf compress document output? gzip,
          output?, report.messages⟩ := rfl
  simp only [MayEnd, hrequest, hprepare] at hend
  cases hbuilt : built disk now root options stamped with
  | error fault =>
      rw [hbuilt] at hend
      obtain ⟨rfl, rfl⟩ := hend
      exact .faulty rfl
  | ok report =>
      obtain ⟨format, config, artifact, hdocument⟩ := exists_document hbuilt
      rw [hbuilt] at hend
      simp only [Except.bind, hdocument, Option.map_some] at hend
      cases output? with
      | none =>
          obtain ⟨rfl, rfl⟩ := hend
          exact .printed rfl hdocument
      | some path =>
          obtain ⟨fault?, between, hperform, hend⟩ := hend
          cases fault? with
          | none =>
              obtain ⟨rfl, rfl⟩ := hend
              exact .delivered rfl hdocument hperform
          | some fault =>
              obtain ⟨rfl, rfl⟩ := hend
              exact .refused rfl hdocument hperform

end AgentAtlas.Session
