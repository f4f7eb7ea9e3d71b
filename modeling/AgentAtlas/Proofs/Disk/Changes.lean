import AgentAtlas.Disk
import AgentAtlas.Proofs.Sequencing

/-!
# What operations change on a disk

Writing, renaming and removing change files at the locations of their paths. Everything else stays
(`SameBut`), directories in particular, and so a path leads where it led before
(`SameBut.follow_eq_ok_iff`) and names what it named, unless a file at its location changed
(`SameBut.at?_eq`).
-/

set_option autoImplicit false

namespace AgentAtlas.Disk

variable {d d' : Disk} {location other : Location} {path source : String} {content : Bytes}

/-! ## Storing and erasing -/

theorem ne_nil_of_get?_ne (h : d.get? location ≠ some .directory) : location ≠ [] := by
  rintro rfl
  exact h rfl

theorem get?_put (h : location ≠ []) (entry : Entry) :
    (d.put location entry).get? other = if other = location then some entry else d.get? other := by
  by_cases hroot : other = []
  · have hne : other ≠ location := fun heq => h (heq ▸ hroot)
    rw [if_neg hne, get?, get?, if_pos hroot, if_pos hroot]
  · rw [get?, get?, if_neg hroot, if_neg hroot, put, Keyed.get?_insert]

theorem get?_erase (h : location ≠ []) :
    (d.erase location).get? other = if other = location then none else d.get? other := by
  by_cases hroot : other = []
  · have hne : other ≠ location := fun heq => h (heq ▸ hroot)
    rw [if_neg hne, get?, get?, if_pos hroot, if_pos hroot]
  · rw [get?, get?, if_neg hroot, if_neg hroot, erase, Keyed.get?_erase]

/-! ## Following -/

theorem followFrom_cons_eq_ok_iff {name : String} {rest : List String} :
    d.followFrom location (name :: rest) = .ok other ↔
      d.get? location = some .directory ∧ name.utf8ByteSize ≤ Path.greatestNameLength ∧
        d.followFrom (if name = ".." then location.dropLast else location ++ [name]) rest =
          .ok other := by
  rw [followFrom]
  split
  · rename_i hdirectory
    split
    · rename_i hlong
      simp [Nat.not_le.2 hlong]
    · rename_i hshort
      simp [hdirectory, Nat.not_lt.1 hshort]
  · rename_i hfile
    simp [hfile]
  · rename_i hnone
    simp [hnone]

theorem followFrom_append_eq_ok_iff {names rest : List String} :
    d.followFrom location (names ++ rest) = .ok other ↔
      ∃ between, d.followFrom location names = .ok between ∧
        d.followFrom between rest = .ok other := by
  induction names generalizing location with
  | nil => simp [followFrom]
  | cons name names ih =>
      simp only [List.cons_append, followFrom_cons_eq_ok_iff, ih]
      constructor
      · rintro ⟨hdirectory, hlength, between, hbetween, hrest⟩
        exact ⟨between, ⟨hdirectory, hlength, hbetween⟩, hrest⟩
      · rintro ⟨between, ⟨hdirectory, hlength, hbetween⟩, hrest⟩
        exact ⟨hdirectory, hlength, between, hbetween, hrest⟩

theorem follow_eq_ok_iff :
    d.follow path = .ok location ↔ path.utf8ByteSize ≤ Path.greatestLength ∧
      d.followFrom (if Path.isAbsolute path then [] else d.workingDirectory) (Path.names path) =
        .ok location := by
  rw [follow]
  split
  · rename_i hlong
    simp [Nat.not_le.2 hlong]
  · rename_i hshort
    simp [Nat.not_lt.1 hshort]

/-! ## Disks which differ in files -/

/-- Two disks are the same, files at some locations apart. -/
structure SameBut (changed : Location → Prop) (before after : Disk) : Prop where
  workingDirectory : after.workingDirectory = before.workingDirectory
  directories : ∀ l, after.get? l = some .directory ↔ before.get? l = some .directory
  elsewhere : ∀ l, ¬changed l → after.get? l = before.get? l

namespace SameBut

variable {changed : Location → Prop} {d'' : Disk}

theorem refl (changed : Location → Prop) (d : Disk) : SameBut changed d d :=
  ⟨rfl, fun _ => Iff.rfl, fun _ _ => rfl⟩

theorem trans (h : SameBut changed d d') (h' : SameBut changed d' d'') : SameBut changed d d'' :=
  ⟨h'.workingDirectory.trans h.workingDirectory,
    fun l => (h'.directories l).trans (h.directories l),
    fun l hl => (h'.elsewhere l hl).trans (h.elsewhere l hl)⟩

theorem mono {wider : Location → Prop} (h : SameBut changed d d')
    (hwider : ∀ l, changed l → wider l) : SameBut wider d d' :=
  ⟨h.workingDirectory, h.directories, fun l hl => h.elsewhere l fun hc => hl (hwider l hc)⟩

theorem followFrom_eq_ok_iff (h : SameBut changed d d') {names : List String} :
    d'.followFrom location names = .ok other ↔ d.followFrom location names = .ok other := by
  induction names generalizing location with
  | nil => rfl
  | cons name names ih =>
      rw [followFrom_cons_eq_ok_iff, followFrom_cons_eq_ok_iff, h.directories, ih]

/-- Paths lead where they led before. -/
theorem follow_eq_ok_iff (h : SameBut changed d d') :
    d'.follow path = .ok location ↔ d.follow path = .ok location := by
  rw [Disk.follow_eq_ok_iff, Disk.follow_eq_ok_iff, h.workingDirectory, h.followFrom_eq_ok_iff]

/-- A path names what it named if nothing changed where it leads. -/
theorem at?_eq (h : SameBut changed d d') (hpath : ∀ l, d.follow path = .ok l → ¬changed l) :
    d'.at? path = d.at? path := by
  unfold at?
  cases hfollow : d.follow path with
  | ok l =>
      rw [h.follow_eq_ok_iff.2 hfollow]
      exact h.elsewhere l (hpath l hfollow)
  | error cause =>
      cases hfollow' : d'.follow path with
      | ok l =>
          rw [h.follow_eq_ok_iff.1 hfollow'] at hfollow
          cases hfollow
      | error _ => rfl

end SameBut

theorem at?_of_follow (h : d.follow path = .ok location) : d.at? path = d.get? location := by
  rw [at?, h]

theorem exists_follow_of_at? {entry : Entry} (h : d.at? path = some entry) :
    ∃ l, d.follow path = .ok l ∧ d.get? l = some entry := by
  cases hfollow : d.follow path with
  | error _ =>
      rw [at?, hfollow] at h
      cases h
  | ok l => exact ⟨l, rfl, at?_of_follow hfollow ▸ h⟩

theorem sameBut_put (h : d.get? location ≠ some .directory) (content : Bytes) :
    SameBut (· = location) d (d.put location (.file content)) where
  workingDirectory := rfl
  directories l := by
    rw [get?_put (ne_nil_of_get?_ne h)]
    split
    · rename_i heq
      simp [heq, h]
    · rfl
  elsewhere l hl := by rw [get?_put (ne_nil_of_get?_ne h), if_neg hl]

theorem sameBut_erase (h : d.get? location ≠ some .directory) :
    SameBut (· = location) d (d.erase location) where
  workingDirectory := rfl
  directories l := by
    rw [get?_erase (ne_nil_of_get?_ne h)]
    split
    · rename_i heq
      simp [heq, h]
    · rfl
  elsewhere l hl := by rw [get?_erase (ne_nil_of_get?_ne h), if_neg hl]

/-! ## Operations -/

theorem write_eq_ok_iff :
    d.write path content = .ok d' ↔ ∃ l, d.follow path = .ok l ∧ d.get? l ≠ some .directory ∧
      d' = d.put l (.file content) := by
  rw [write, bind_eq_ok_iff]
  refine exists_congr fun l => and_congr_right fun _ => ?_
  cases d.get? l with
  | none => simp [pure, Except.pure, eq_comm]
  | some entry =>
      cases entry with
      | file _ => simp [pure, Except.pure, eq_comm]
      | directory => simp [throw, throwThe, MonadExceptOf.throw]

theorem remove_eq_ok_iff :
    d.remove path = .ok d' ↔ ∃ l content, d.follow path = .ok l ∧
      d.get? l = some (.file content) ∧ d' = d.erase l := by
  rw [remove, bind_eq_ok_iff]
  refine exists_congr fun l => ?_
  rw [exists_and_left]
  refine and_congr_right fun _ => ?_
  cases d.get? l with
  | none => simp [throw, throwThe, MonadExceptOf.throw]
  | some entry =>
      cases entry with
      | file _ => simp [pure, Except.pure, eq_comm]
      | directory => simp [throw, throwThe, MonadExceptOf.throw]

/-- A file that was renamed is at the new path and no longer at the old one. -/
theorem exists_of_rename (h : d.rename source path = .ok d') :
    ∃ origin target content, d.follow source = .ok origin ∧
      d.get? origin = some (.file content) ∧ d.follow path = .ok target ∧
        d.get? target ≠ some .directory ∧ d' = (d.erase origin).put target (.file content) := by
  obtain ⟨origin, horigin, h⟩ := bind_eq_ok_iff.1 h
  split at h
  · rename_i content hfile
    obtain ⟨target, htarget, h⟩ := bind_eq_ok_iff.1 h
    dsimp only at h
    split at h
    · -- the last name is that of a directory
      cases h
    · split at h
      · -- nothing but a directory can have this path
        cases h
      · split at h
        · cases h
        · rename_i hother
          cases h
          exact ⟨origin, target, content, horigin, hfile, htarget, hother, rfl⟩
  · cases h
  · cases h

theorem sameBut_of_write (h : d.write path content = .ok d') :
    SameBut (fun l => d.follow path = .ok l) d d' := by
  obtain ⟨l, hl, hother, rfl⟩ := write_eq_ok_iff.1 h
  refine (sameBut_put hother content).mono ?_
  rintro l rfl
  exact hl

theorem sameBut_of_remove (h : d.remove path = .ok d') :
    SameBut (fun l => d.follow path = .ok l) d d' := by
  obtain ⟨l, content, hl, hfile, rfl⟩ := remove_eq_ok_iff.1 h
  refine (sameBut_erase (by simp [hfile])).mono ?_
  rintro l rfl
  exact hl

theorem sameBut_of_rename (h : d.rename source path = .ok d') :
    SameBut (fun l => d.follow path = .ok l ∨ d.follow source = .ok l) d d' := by
  obtain ⟨origin, target, content, horigin, hfile, htarget, hother, rfl⟩ := exists_of_rename h
  have horiginNe : d.get? origin ≠ some .directory := by simp [hfile]
  have herase := sameBut_erase horiginNe
  have htargetNe : (d.erase origin).get? target ≠ some .directory := fun hat =>
    hother ((herase.directories target).1 hat)
  have hput := sameBut_put htargetNe content
  refine (herase.mono ?_).trans (hput.mono ?_)
  · rintro l rfl
    exact .inr horigin
  · rintro l rfl
    exact .inl htarget

/-- A file can be removed. -/
theorem exists_remove (h : d.at? path = some (.file content)) : ∃ d', d.remove path = .ok d' := by
  obtain ⟨l, hl, hfile⟩ := exists_follow_of_at? h
  exact ⟨_, remove_eq_ok_iff.2 ⟨l, content, hl, hfile, rfl⟩⟩

/-! ## What paths name afterwards -/

theorem at?_of_write (h : d.write path content = .ok d') :
    d.at? path ≠ some .directory ∧ d'.at? path = some (.file content) := by
  obtain ⟨l, hl, hother, rfl⟩ := write_eq_ok_iff.1 h
  have hfollow := (sameBut_of_write h).follow_eq_ok_iff.2 hl
  rw [at?_of_follow hl, at?_of_follow hfollow, get?_put (ne_nil_of_get?_ne hother), if_pos rfl]
  exact ⟨hother, rfl⟩

/-- Writing is refused at a directory, or where the path leads nowhere. -/
theorem at?_of_refused_write {cause : SystemFault} (h : d.write path content = .error cause) :
    d.at? path = some .directory ∨ d.at? path = none := by
  cases hfollow : d.follow path with
  | error _ =>
      right
      rw [at?, hfollow]
  | ok l =>
      left
      rw [at?_of_follow hfollow]
      by_contra hother
      rw [write_eq_ok_iff.2 ⟨l, hfollow, hother, rfl⟩] at h
      cases h

/-- A file that was renamed to another location is gone from the old one. -/
theorem at?_source_of_rename (h : d.rename source path = .ok d')
    (hne : ∀ l, d.follow source = .ok l → d.follow path ≠ .ok l) : d'.at? source = none := by
  obtain ⟨origin, target, content, horigin, hfile, htarget, hother, rfl⟩ := exists_of_rename h
  have hfollow := (sameBut_of_rename h).follow_eq_ok_iff.2 horigin
  have htargetNe : origin ≠ target := fun heq => hne origin horigin (heq ▸ htarget)
  have horiginNe : d.get? origin ≠ some .directory := by simp [hfile]
  rw [at?_of_follow hfollow, get?_put (ne_nil_of_get?_ne hother), if_neg htargetNe,
    get?_erase (ne_nil_of_get?_ne horiginNe), if_pos rfl]

theorem at?_of_remove (h : d.remove path = .ok d') : d'.at? path = none := by
  obtain ⟨l, content, hl, hfile, rfl⟩ := remove_eq_ok_iff.1 h
  have hfollow := (sameBut_of_remove h).follow_eq_ok_iff.2 hl
  have hother : d.get? l ≠ some .directory := by simp [hfile]
  rw [at?_of_follow hfollow, get?_erase (ne_nil_of_get?_ne hother), if_pos rfl]

end AgentAtlas.Disk
