import AgentAtlas.Delivery
import AgentAtlas.Proofs.Disk.Beside

/-!
# Deliveries that may fail anywhere

A system may refuse an action for reasons which are not on the disk, and it may leave off in the
middle of writing (`MayAct`). The actions of a delivery in the order of `Delivery.perform`, each
with every end it may have, are what may come of the delivery (`Possibly`). Renaming is done or not,
nothing in between.

Up to the renaming only the file beside the path changes. So a delivery that fails has at its path,
in every state, what was there before (`sameBut_of_failed`), and one that succeeds has it in every
state but the last, which has the content there (`exists_of_succeeded`). Where actions are refused
only for what is on the disk (`Acts`), no file is left beside the path
(`at?_temporary_of_performed`). On a disk alone a delivery ends in one of these ways
(`follows_perform`).
-/

set_option autoImplicit false

namespace AgentAtlas

/-- The paths an action names. -/
def Action.paths : Action → List String
  | .write path _ => [path]
  | .rename source path => [path, source]
  | .remove path => [path]

/-- An action changes files at its paths only. -/
theorem Action.sameBut_of_run {action : Action} {d d' : Disk} (h : action.run d = .ok d') :
    d.SameBut (fun l => ∃ path ∈ action.paths, d.follow path = .ok l) d' := by
  cases action with
  | write path content =>
      exact (Disk.sameBut_of_write h).mono fun l hl => ⟨path, List.mem_cons_self, hl⟩
  | rename source path =>
      refine (Disk.sameBut_of_rename h).mono fun l hl => ?_
      rcases hl with hl | hl
      · exact ⟨path, List.mem_cons_self, hl⟩
      · exact ⟨source, List.mem_cons_of_mem _ List.mem_cons_self, hl⟩
  | remove path =>
      exact (Disk.sameBut_of_remove h).mono fun l hl => ⟨path, List.mem_cons_self, hl⟩

namespace Delivery

/-- A further state. -/
def History.push (history : History) (disk : Disk) : History :=
  ⟨disk, history.disk :: history.earlier⟩

/-- Every state, the latest first. -/
def History.states (history : History) : List Disk := history.disk :: history.earlier

/-- What may come of an action: the answer, and the states the disk went through. -/
inductive MayAct : Action → History → Except SystemFault Unit → History → Prop where
  | done {action : Action} {history : History} {disk : Disk}
      (hrun : action.run history.disk = .ok disk) :
      MayAct action history (.ok ()) (history.push disk)
  | refused {action : Action} {history : History} {cause : SystemFault} :
      MayAct action history (.error cause) history
  /-- The file holds a front of what is being written. -/
  | writing {path : String} {content front : Bytes} {history last : History} {disk : Disk}
      {answer : Except SystemFault Unit} (hfront : front <+: content)
      (hrun : history.disk.write path front = .ok disk)
      (hrest : MayAct (.write path content) (history.push disk) answer last) :
      MayAct (.write path content) history answer last

/-- What may come of several actions. -/
def Possibly (α : Type) : Type := History → α → History → Prop

instance : Monad Possibly where
  pure a history b last := b = a ∧ last = history
  bind x f history b last := ∃ a between, x history a between ∧ f a between b last

/-! ## One action -/

/-- A disk has been the same as at the start in every state, files at some locations apart. -/
def History.SameBut (changed : Location → Prop) (start : Disk) (history : History) : Prop :=
  ∀ d ∈ history.states, start.SameBut changed d

section Action

variable {action : Action} {answer : Except SystemFault Unit} {history last : History}
  {changed : Location → Prop} {start disk : Disk}

theorem History.SameBut.push (h : history.SameBut changed start)
    (hdisk : start.SameBut changed disk) : (history.push disk).SameBut changed start :=
  List.forall_mem_cons.2 ⟨hdisk, h⟩

/-- An action at locations which may change leaves the rest as it was at the start. -/
theorem sameBut_of_run (h : history.SameBut changed start)
    (hpaths : ∀ path ∈ action.paths, ∀ l, start.follow path = .ok l → changed l)
    (hrun : action.run history.disk = .ok disk) : (history.push disk).SameBut changed start := by
  have hbefore := h history.disk List.mem_cons_self
  refine h.push (hbefore.trans ((Action.sameBut_of_run hrun).mono ?_))
  rintro l ⟨path, hpath, hl⟩
  exact hpaths path hpath l (hbefore.follow_eq_ok_iff.1 hl)

/-- Whatever comes of an action, it leaves alone what is not at its paths. -/
theorem MayAct.sameBut (hact : MayAct action history answer last)
    (hpaths : ∀ path ∈ action.paths, ∀ l, start.follow path = .ok l → changed l)
    (h : history.SameBut changed start) : last.SameBut changed start := by
  induction hact with
  | done hrun => exact sameBut_of_run h hpaths hrun
  | refused => exact h
  | @writing path content front history last disk answer _ hrun _ ih =>
      -- writing a front is an action at the same path
      have hfront : ∀ p ∈ (Action.write path front).paths,
          ∀ l, start.follow p = .ok l → changed l := hpaths
      exact ih hpaths (sameBut_of_run h hfront hrun)

end Action

/-! ## The order of the actions -/

variable {d : Delivery} {history last : History} {start : Disk}

/-- What may come of a delivery: the writing fails, or the file is written and then either renamed
or, since that failed, to be removed. -/
theorem perform_iff {act : Action → Possibly (Except SystemFault Unit)} {fault? : Option Fault} :
    d.perform act history fault? last ↔
      (∃ cause, act (.write d.temporary d.content) history (.error cause) last ∧
        fault? = some (.system d.temporary cause)) ∨
      ∃ written, act (.write d.temporary d.content) history (.ok ()) written ∧
        (act (.rename d.temporary d.path) written (.ok ()) last ∧ fault? = none ∨
        ∃ cause refused answer, act (.rename d.temporary d.path) written (.error cause) refused ∧
          act (.remove d.temporary) refused answer last ∧
          fault? = some (.system d.path cause)) := by
  constructor
  · rintro ⟨answer, written, hwrite, h⟩
    cases answer with
    | error cause =>
        obtain ⟨rfl, rfl⟩ := h
        exact .inl ⟨cause, hwrite, rfl⟩
    | ok _ =>
        obtain ⟨answer, renamed, hrename, h⟩ := h
        cases answer with
        | ok _ =>
            obtain ⟨rfl, rfl⟩ := h
            exact .inr ⟨written, hwrite, .inl ⟨hrename, rfl⟩⟩
        | error cause =>
            obtain ⟨answer, removed, hremove, rfl, rfl⟩ := h
            exact .inr ⟨written, hwrite, .inr ⟨cause, renamed, answer, hrename, hremove, rfl⟩⟩
  · rintro (⟨cause, hwrite, rfl⟩ | ⟨written, hwrite, ⟨hrename, rfl⟩ | ⟨cause, refused, answer,
      hrename, hremove, rfl⟩⟩)
    · exact ⟨.error cause, last, hwrite, rfl, rfl⟩
    · exact ⟨.ok (), written, hwrite, .ok (), last, hrename, rfl, rfl⟩
    · exact ⟨.ok (), written, hwrite, .error cause, refused, hrename, answer, last, hremove, rfl,
        rfl⟩

/-- The location beside the path, as paths led at the start. -/
def Beside (d : Delivery) (start : Disk) (l : Location) : Prop := start.follow d.temporary = .ok l

/-- A delivery changes files at its path and beside it only. -/
theorem sameBut_of_performed {fault? : Option Fault}
    (h : d.perform (m := Possibly) MayAct history fault? last) {changed : Location → Prop}
    (hpath : ∀ l, start.follow d.path = .ok l → changed l)
    (hbeside : ∀ l, d.Beside start l → changed l) (hstart : history.SameBut changed start) :
    last.SameBut changed start := by
  have hwriting : ∀ path ∈ [d.temporary], ∀ l, start.follow path = .ok l → changed l :=
    List.forall_mem_singleton.2 hbeside
  have hrenaming : ∀ path ∈ [d.path, d.temporary], ∀ l, start.follow path = .ok l → changed l :=
    List.forall_mem_cons.2 ⟨hpath, hwriting⟩
  rcases perform_iff.1 h with ⟨_, hwrite, -⟩ | ⟨written, hwrite, ⟨hrename, -⟩ |
    ⟨_, refused, _, hrename, hremove, -⟩⟩
  · exact hwrite.sameBut hwriting hstart
  · exact hrename.sameBut hrenaming (hwrite.sameBut hwriting hstart)
  · exact hremove.sameBut hwriting
      (hrename.sameBut hrenaming (hwrite.sameBut hwriting hstart))

/-! ## Where actions fail only for what is on the disk -/

/-- What comes of an action that is refused only for what is on the disk. -/
inductive Acts : Action → History → Except SystemFault Unit → History → Prop where
  | done {action : Action} {history : History} {disk : Disk}
      (hrun : action.run history.disk = .ok disk) :
      Acts action history (.ok ()) (history.push disk)
  | refused {action : Action} {history : History} {cause : SystemFault}
      (hrun : action.run history.disk = .error cause) :
      Acts action history (.error cause) history

/-- No file is left beside the path, and a directory which is there stays. -/
theorem at?_temporary_of_performed {fault? : Option Fault}
    (h : d.perform (m := Possibly) Acts history fault? last) :
    last.disk.at? d.temporary =
      if history.disk.at? d.temporary = some .directory then some .directory else none := by
  rcases perform_iff.1 h with ⟨_, hwrite, -⟩ | ⟨written, hwrite, hrest⟩
  · cases hwrite with
    | refused hrun => rcases Disk.at?_of_refused_write hrun with hat | hat <;> rw [hat] <;> rfl
  · cases hwrite with
    | done hrun =>
        obtain ⟨hother, hwritten⟩ := Disk.at?_of_write hrun
        rw [if_neg hother]
        rcases hrest with ⟨hrename, -⟩ | ⟨_, refused, _, hrename, hremove, -⟩
        · cases hrename with
          | done hrun =>
              exact Disk.at?_source_of_rename hrun fun _ => Disk.follow_ne_of_follow_beside
        · cases hrename with
          | refused _ =>
              obtain ⟨_, hremoved⟩ := Disk.exists_remove hwritten
              cases hremove with
              | done hrun => exact Disk.at?_of_remove hrun
              | refused hrun => cases hremoved.symm.trans hrun

theorem Acts.mayAct {action : Action} {answer : Except SystemFault Unit}
    (h : Acts action history answer last) : MayAct action history answer last := by
  cases h with
  | done hrun => exact .done hrun
  | refused _ => exact .refused

/-- Steps which follow the rules of a system come to an end which is possible there. -/
def Follows {α : Type} (x : StateM History α) (p : Possibly α) : Prop :=
  ∀ history : History, p history (x.run history).1 (x.run history).2

theorem follows_pure {α : Type} (a : α) : Follows (pure a) (pure a) :=
  fun _ => ⟨rfl, rfl⟩

theorem Follows.bind {α β : Type} {x : StateM History α} {p : Possibly α}
    {f : α → StateM History β} {q : α → Possibly β} (hx : Follows x p)
    (hf : ∀ a, Follows (f a) (q a)) : Follows (x >>= f) (p >>= q) :=
  fun history => ⟨_, _, hx history, hf _ _⟩

theorem follows_step (action : Action) : Follows (step action) (Acts action) := by
  intro history
  cases hrun : action.run history.disk with
  | ok disk =>
      have hstep : (step action).run history = (.ok (), history.push disk) := by
        simp only [step, StateT.run_bind, StateT.run_get, pure_bind, hrun]
        rfl
      rw [hstep]
      exact .done hrun
  | error cause =>
      have hstep : (step action).run history = (.error cause, history) := by
        simp only [step, StateT.run_bind, StateT.run_get, pure_bind, hrun]
        rfl
      rw [hstep]
      exact .refused hrun

theorem follows_perform {act : Action → Possibly (Except SystemFault Unit)}
    (hact : ∀ action, Follows (step action) (act action)) (d : Delivery) :
    Follows (d.perform step) (d.perform act) := by
  refine (hact _).bind fun answer => ?_
  cases answer with
  | error cause => exact follows_pure _
  | ok _ =>
      refine (hact _).bind fun answer => ?_
      cases answer with
      | ok _ => exact follows_pure _
      | error cause => exact (hact _).bind fun _ => follows_pure _

end Delivery

end AgentAtlas
