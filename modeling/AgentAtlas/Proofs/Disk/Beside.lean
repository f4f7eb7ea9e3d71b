import AgentAtlas.Proofs.Disk.Changes
import AgentAtlas.Proofs.Text.Pieces

/-!
# The file beside a path

A path with `.tmp` behind it ends in a name of its own, whatever the path ends in: a name, a slash,
or the name of a directory for itself or its parent. So it leads to another location than the path
(`follow_ne_of_follow_beside`).
-/

set_option autoImplicit false

namespace AgentAtlas

namespace Path

/-- A name with `.tmp` behind it is none of the shorter names. -/
theorem append_tmp_ne {name other : String} (h : other.length < name.length + 4) :
    name ++ ".tmp" ≠ other := by
  rintro rfl
  rw [String.length_append] at h
  exact Nat.lt_irrefl _ h

/-- The names of a path, and of that path with `.tmp` behind it. -/
theorem exists_names_beside (path : String) :
    ∃ front last, names path = front ++ (if last = "" ∨ last = "." then [] else [last]) ∧
      names (path ++ ".tmp") = front ++ [last ++ ".tmp"] := by
  have hslash : '/' ∉ ".tmp".toList := by decide
  obtain ⟨front, last, hpath, hbeside⟩ := Text.exists_split_append hslash path.toList
  refine ⟨(front.map String.ofList).filter fun part => part != "" && part != ".",
    String.ofList last, ?_, ?_⟩
  · rw [names, parts, hpath, List.map_append, List.filter_append, List.map_singleton,
      List.filter_singleton]
    by_cases hempty : String.ofList last = ""
    · simp [hempty]
    · by_cases hpoint : String.ofList last = "."
      · simp [hpoint]
      · rw [bne_iff_ne.2 hempty, bne_iff_ne.2 hpoint, if_neg (not_or.2 ⟨hempty, hpoint⟩)]
        rfl
  · have hname : String.ofList (last ++ ".tmp".toList) = String.ofList last ++ ".tmp" := by
      rw [String.ofList_append, String.ofList_toList]
    have hempty : String.ofList last ++ ".tmp" ≠ "" := append_tmp_ne (Nat.succ_pos _)
    have hpoint : String.ofList last ++ ".tmp" ≠ "." :=
      append_tmp_ne (Nat.lt_add_left _ (by decide))
    rw [names, parts, String.toList_append, hbeside, List.map_append, List.filter_append,
      List.map_singleton, hname, List.filter_singleton, bne_iff_ne.2 hempty, bne_iff_ne.2 hpoint]
    rfl

theorem isAbsolute_beside (path : String) : isAbsolute (path ++ ".tmp") = isAbsolute path := by
  rw [isAbsolute, isAbsolute, String.toList_append]
  cases path.toList <;> rfl

end Path

namespace Disk

variable {d : Disk} {location : Location} {path : String}

theorem follow_ne_of_follow_beside (h : d.follow (path ++ ".tmp") = .ok location) :
    d.follow path ≠ .ok location := by
  intro hpath
  obtain ⟨front, last, hnames, hbeside⟩ := Path.exists_names_beside path
  rw [follow_eq_ok_iff, Path.isAbsolute_beside, hbeside, followFrom_append_eq_ok_iff] at h
  rw [follow_eq_ok_iff, hnames, followFrom_append_eq_ok_iff] at hpath
  obtain ⟨-, base, hbase, hlast⟩ := h
  obtain ⟨-, base', hbase', hlast'⟩ := hpath
  rw [hbase, Except.ok.injEq] at hbase'
  obtain rfl := hbase'
  have hup : last ++ ".tmp" ≠ ".." := Path.append_tmp_ne (Nat.lt_add_left _ (by decide))
  rw [followFrom_cons_eq_ok_iff, if_neg hup, followFrom, Except.ok.injEq] at hlast
  obtain ⟨-, -, rfl⟩ := hlast
  split at hlast'
  · -- the path leads to the directory that the file is in
    rw [followFrom, Except.ok.injEq] at hlast'
    have hlength := congrArg List.length hlast'
    simp at hlength
  · rw [followFrom_cons_eq_ok_iff, followFrom, Except.ok.injEq] at hlast'
    obtain ⟨-, -, hlast'⟩ := hlast'
    split at hlast'
    · -- the path leads to the directory above that
      have hlength := congrArg List.length hlast'
      simp at hlength
    · -- the path leads to a neighbour
      have hname : last = last ++ ".tmp" := by simpa using hlast'
      exact Path.append_tmp_ne (by omega) hname.symm

end Disk

end AgentAtlas
