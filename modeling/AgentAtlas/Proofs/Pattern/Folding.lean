import AgentAtlas.Pattern.Compression
import AgentAtlas.Proofs.Pattern.Names

/-!
# Folding runs back into a skeleton

Folding keeps some runs of a pattern as they are and leaves a slot for each of the others. The other
runs fill a folded skeleton up to the pattern (`fill_folded`), and a scan of the folded skeleton
finds the skeleton of the pattern again (`skeleton_folded`): a kept run is maximal as it was, and the
text of a slot, whose backslash takes the `d` with it, has no run.
-/

set_option autoImplicit false

namespace AgentAtlas.Pattern

open Glob (Token)

/-- The skeleton of a pattern with the runs filled in whose flag is set. -/
def folded (p : Pattern) (flags : List Bool) : List Char :=
  fill (skeleton p) (List.zipWith (fun run kept => if kept then run else slot) (runs p) flags)

/-- The runs whose flag is not set. -/
def varying (flags : List Bool) (rs : List (List Char)) : List (List Char) :=
  ((rs.zip flags).filter fun r => !r.2).map Prod.fst

theorem varying_cons (flag : Bool) (flags : List Bool) (run : List Char) (rs : List (List Char)) :
    varying (flag :: flags) (run :: rs) =
      if flag then varying flags rs else run :: varying flags rs := by
  cases flag <;> rfl

/-- Segments with the runs whose flag is set taken apart into digits. -/
def keep : List Bool → List Segment → List Segment
  | _, [] => []
  | flags, .token t :: segs => .token t :: keep flags segs
  | [], .run digits :: segs => .run digits :: keep [] segs
  | true :: flags, .run digits :: segs =>
    digits.map (fun c => .token (.literal c)) ++ keep flags segs
  | false :: flags, .run digits :: segs => .run digits :: keep flags segs

/-- Segments as scanning finds them: no token is a digit, and runs are maximal. -/
inductive Scanned : List Segment → Prop
  | nil : Scanned []
  | token {t : Token} {segs : List Segment} : t.WellFormed → t.digit? = none → Scanned segs →
      Scanned (.token t :: segs)
  | run {digits : List Char} {segs : List Segment} : digits ≠ [] →
      (∀ c ∈ digits, c.isDigit = true) → (∀ ds rest, segs ≠ .run ds :: rest) → Scanned segs →
      Scanned (.run digits :: segs)

theorem eq_literal_of_digit? {t : Token} {c : Char} (h : t.digit? = some c) : t = .literal c := by
  cases t with
  | literal d =>
      rw [Token.digit?] at h
      split at h
      · rw [Option.some.inj h]
      · cases h
  | _ => cases h

theorem isDigit_of_digit? {t : Token} {c : Char} (h : t.digit? = some c) : c.isDigit = true := by
  obtain rfl := eq_literal_of_digit? h
  rw [Token.digit?] at h
  split at h
  · assumption
  · cases h

theorem Scanned.consRun {c : Char} {segs : List Segment} (hc : c.isDigit = true)
    (h : Scanned segs) : Scanned (consRun c segs) := by
  cases h with
  | nil => exact .run (by simp) (by simpa using hc) (by simp) .nil
  | token ht hd h => exact .run (by simp) (by simpa using hc) (by simp) (.token ht hd h)
  | run hne hds hmax h =>
      -- the digit joins the run, which stays maximal
      apply Scanned.run (by simp) ?_ hmax h
      intro d hd
      rcases List.mem_cons.1 hd with rfl | hd
      · exact hc
      · exact hds d hd

theorem scanned_segments {ts : List Token} (h : ∀ t ∈ ts, t.WellFormed) :
    Scanned (segments ts) := by
  induction ts with
  | nil => exact .nil
  | cons t ts ih =>
      have hrest := ih fun t ht => h t (List.mem_cons_of_mem _ ht)
      rw [segments]
      cases hd : t.digit? with
      | none => exact .token (h t List.mem_cons_self) hd hrest
      | some c => exact hrest.consRun (isDigit_of_digit? hd)

theorem scanned_segmentsOf (name : String) : Scanned (segmentsOf name) :=
  scanned_segments (Glob.wellFormed_tokens name.toList)

/-! ## Texts of parts put together -/

theorem runsOf_append (ps qs : List Part) : runsOf (ps ++ qs) = runsOf ps ++ runsOf qs :=
  List.filterMap_append

theorem charsOf_append (ps qs : List Part) : charsOf (ps ++ qs) = charsOf ps ++ charsOf qs :=
  List.flatMap_append

theorem slottedOf_append (ps qs : List Part) :
    slottedOf (ps ++ qs) = slottedOf ps ++ slottedOf qs :=
  List.flatMap_append

theorem runsOf_map_fixed (cs : List Char) : runsOf (cs.map .fixed) = [] := by
  induction cs with
  | nil => rfl
  | cons c cs ih => rw [List.map_cons, runsOf_fixed, ih]

theorem charsOf_map_fixed (cs : List Char) : charsOf (cs.map .fixed) = cs := by
  induction cs with
  | nil => rfl
  | cons c cs ih => rw [List.map_cons, charsOf_fixed, ih]

theorem slottedOf_map_fixed (cs : List Char) : slottedOf (cs.map .fixed) = cs := by
  induction cs with
  | nil => rfl
  | cons c cs ih => rw [List.map_cons, slottedOf_fixed, ih]

theorem refill_map_fixed_append (cs : List Char) (ps : List Part) (fillings : List (List Char)) :
    refill (cs.map .fixed ++ ps) fillings = cs ++ refill ps fillings := by
  induction cs with
  | nil => rfl
  | cons c cs ih => rw [List.map_cons, List.cons_append, refill, ih, List.cons_append]

/-- Digits taken apart have the parts of their characters. -/
theorem body_digits_append {digits : List Char} (h : ∀ c ∈ digits, c.isDigit = true)
    (segs : List Segment) :
    body (digits.map (fun c => .token (.literal c)) ++ segs) = digits.map .fixed ++ body segs := by
  induction digits with
  | nil => rfl
  | cons c digits ih =>
      rw [List.map_cons, List.cons_append, body_cons, Segment.parts, ofToken,
        escape_of_isDigit (h c List.mem_cons_self), ih fun d hd => h d (List.mem_cons_of_mem _ hd)]
      rfl

theorem runsOf_body_token (t : Token) (segs : List Segment) :
    runsOf (body (.token t :: segs)) = runsOf (body segs) := by
  rw [body_cons, Segment.parts, runsOf_append, runsOf_map_fixed, List.nil_append]

theorem runsOf_body_run (digits : List Char) (segs : List Segment) :
    runsOf (body (.run digits :: segs)) = digits :: runsOf (body segs) := by
  rw [body_cons, Segment.parts, List.singleton_append, runsOf_run]

theorem slottedOf_body_token (t : Token) (segs : List Segment) :
    slottedOf (body (.token t :: segs)) = ofToken t ++ slottedOf (body segs) := by
  rw [body_cons, Segment.parts, slottedOf_append, slottedOf_map_fixed]

theorem slottedOf_body_run (digits : List Char) (segs : List Segment) :
    slottedOf (body (.run digits :: segs)) = slot ++ slottedOf (body segs) := by
  rw [body_cons, Segment.parts, List.singleton_append, slottedOf_run]

/-- The runs among scanned segments are texts of digits. -/
theorem Scanned.digits_of_mem {segs : List Segment} (h : Scanned segs) {run : List Char}
    (hrun : run ∈ runsOf (body segs)) : run ≠ [] ∧ ∀ c ∈ run, c.isDigit = true := by
  induction h with
  | nil => cases hrun
  | token _ _ _ ih =>
      rw [runsOf_body_token] at hrun
      exact ih hrun
  | run hne hds _ _ ih =>
      rw [runsOf_body_run] at hrun
      rcases List.mem_cons.1 hrun with rfl | hrun
      · exact ⟨hne, hds⟩
      · exact ih hrun

/-! ## What folding does to the parts -/

/-- Taking runs apart keeps the text. -/
theorem charsOf_body_keep {segs : List Segment} (h : Scanned segs) :
    ∀ flags, charsOf (body (keep flags segs)) = charsOf (body segs) := by
  induction h with
  | nil => intro flags; cases flags <;> rfl
  | token _ _ _ ih =>
      intro flags
      rw [keep, body_cons, body_cons, charsOf_append, charsOf_append, ih]
  | @run digits segs _ hds _ _ ih =>
      intro flags
      rw [body_cons, charsOf_append]
      rcases flags with - | ⟨- | -, flags⟩
      · -- without a flag the run is left
        rw [keep, body_cons, charsOf_append, ih]
      · -- the run is left
        rw [keep, body_cons, charsOf_append, ih]
      · -- the run is taken apart into its digits
        rw [keep, body_digits_append hds, charsOf_append, charsOf_map_fixed, ih]
        simp [Segment.parts]

/-- The runs which are left are those whose flag is not set. -/
theorem runsOf_body_keep {segs : List Segment} (h : Scanned segs) :
    ∀ {flags : List Bool}, flags.length = (runsOf (body segs)).length →
      runsOf (body (keep flags segs)) = varying flags (runsOf (body segs)) := by
  induction h with
  | nil =>
      intro flags hlen
      rw [List.eq_nil_of_length_eq_zero hlen]
      rfl
  | @token t segs _ _ _ ih =>
      intro flags hlen
      rw [runsOf_body_token] at hlen
      rw [keep, runsOf_body_token, runsOf_body_token, ih hlen]
  | @run digits segs _ hds _ _ ih =>
      intro flags hlen
      rw [runsOf_body_run] at hlen
      rw [runsOf_body_run]
      rcases flags with - | ⟨- | -, flags⟩
      · -- there is a flag for every run
        cases hlen
      · rw [keep, runsOf_body_run, varying_cons, ih (Nat.succ.inj hlen)]
        rfl
      · -- digits taken apart are no run
        rw [keep, body_digits_append hds, runsOf_append, runsOf_map_fixed, varying_cons,
          ih (Nat.succ.inj hlen)]
        rfl

/-- Slots for the runs which are left, and the others as they are. -/
theorem refill_body {segs : List Segment} (h : Scanned segs) :
    ∀ flags : List Bool, refill (body segs) (List.zipWith
        (fun run kept => if kept then run else slot) (runsOf (body segs)) flags) =
      slottedOf (body (keep flags segs)) := by
  induction h with
  | nil => intro flags; cases flags <;> rfl
  | @token t segs _ _ _ ih =>
      intro flags
      rw [keep, runsOf_body_token, slottedOf_body_token, body_cons, Segment.parts,
        refill_map_fixed_append, ih]
  | @run digits segs _ hds _ _ ih =>
      intro flags
      rw [runsOf_body_run, body_cons, Segment.parts, List.singleton_append]
      rcases flags with - | ⟨- | -, flags⟩
      · -- nothing is filled in any more
        rw [List.zipWith_nil_right, refill, keep, slottedOf_body_run, ← ih [],
          List.zipWith_nil_right]
      · -- a slot is filled with itself
        rw [List.zipWith_cons_cons, refill, ih, keep, slottedOf_body_run]
        rfl
      · -- a slot is filled with its run
        rw [List.zipWith_cons_cons, refill, ih, keep, body_digits_append hds, slottedOf_append,
          slottedOf_map_fixed]
        rfl

/-! ## Scanning a folded skeleton -/

/-- What a scan finds in a folded skeleton: the kept runs, and slots as fixed text. -/
def rescanned : List Bool → List Segment → List Part
  | _, [] => [.fixed '$']
  | flags, .token t :: segs => (ofToken t).map .fixed ++ rescanned flags segs
  | [], .run _ :: segs => slot.map .fixed ++ rescanned [] segs
  | true :: flags, .run digits :: segs => .run digits :: rescanned flags segs
  | false :: flags, .run _ :: segs => slot.map .fixed ++ rescanned flags segs

/-- The text of a slot has no run. -/
theorem partsFrom_slot (r : List Char) :
    partsFrom 0 (slot ++ r) = slot.map .fixed ++ partsFrom 0 r := by
  simp [slot, partsFrom, escapeLength_cons]

/-- Digits before something which is no digit are one run. -/
theorem partsFrom_digits {digits r : List Char} (hne : digits ≠ [])
    (hds : ∀ c ∈ digits, c.isDigit = true)
    (hr : ∀ ds rest, partsFrom 0 r ≠ .run ds :: rest) :
    partsFrom 0 (digits ++ r) = .run digits :: partsFrom 0 r := by
  induction digits with
  | nil => exact absurd rfl hne
  | cons c digits ih =>
      have hc := hds c List.mem_cons_self
      have hb : c ≠ '\\' := by
        rintro rfl
        exact absurd hc (by decide)
      rw [List.cons_append, partsFrom, if_neg hb, if_pos hc]
      by_cases hd : digits = []
      · -- the last digit starts the run
        subst hd
        rw [List.nil_append, consDigit]
        exact hr
      · rw [ih hd fun d hm => hds d (List.mem_cons_of_mem _ hm)]
        rfl

/-- A run is followed by no run. -/
theorem rescanned_ne_run {segs : List Segment} (h : ∀ ds rest, segs ≠ .run ds :: rest)
    (flags : List Bool) : ∀ ds rest, rescanned flags segs ≠ .run ds :: rest := by
  intro ds rest he
  cases segs with
  | nil => simp [rescanned] at he
  | cons seg segs =>
      cases seg with
      | run digits => exact h digits segs rfl
      | token t =>
          obtain ⟨d, ds, ht⟩ := List.exists_cons_of_ne_nil (ofToken_ne_nil t)
          simp [rescanned, ht] at he

theorem partsFrom_slottedOf_body {segs : List Segment} (h : Scanned segs) :
    ∀ flags : List Bool,
      partsFrom 0 (slottedOf (body (keep flags segs))) = rescanned flags segs := by
  induction h with
  | nil => intro flags; cases flags <;> rfl
  | token ht hd _ ih =>
      intro flags
      rw [keep, slottedOf_body_token, partsFrom_ofToken ht, hd, ih, rescanned]
  | @run digits segs hne hds hmax _ ih =>
      intro flags
      rcases flags with - | ⟨- | -, flags⟩
      · rw [keep, slottedOf_body_run, partsFrom_slot, ih, rescanned]
      · rw [keep, slottedOf_body_run, partsFrom_slot, ih, rescanned]
      · -- the kept run was maximal, so nothing behind it joins it
        rw [keep, body_digits_append hds, slottedOf_append, slottedOf_map_fixed, rescanned,
          ← ih flags]
        apply partsFrom_digits hne hds
        rw [ih flags]
        exact rescanned_ne_run hmax flags

/-- The slots of a scan are those for the kept runs and those which stood there already. -/
theorem slottedOf_rescanned (segs : List Segment) :
    ∀ flags : List Bool, slottedOf (rescanned flags segs) = slottedOf (body segs) := by
  induction segs with
  | nil => intro flags; cases flags <;> rfl
  | cons seg segs ih =>
      intro flags
      cases seg with
      | token t =>
          rw [rescanned, slottedOf_append, slottedOf_map_fixed, ih, slottedOf_body_token]
      | run digits =>
          rw [slottedOf_body_run]
          rcases flags with - | ⟨- | -, flags⟩
          · rw [rescanned, slottedOf_append, slottedOf_map_fixed, ih]
          · rw [rescanned, slottedOf_append, slottedOf_map_fixed, ih]
          · rw [rescanned, slottedOf_run, ih]

/-! ## Folded skeletons of names -/

variable {name : String} {flags : List Bool}

theorem runs_ofName (name : String) : runs (ofName name) = runsOf (body (segmentsOf name)) := by
  rw [runs, parts_ofName]
  rfl

/-- The runs of the pattern of a name are texts of digits. -/
theorem digits_of_mem_runs {run : List Char} (h : run ∈ runs (ofName name)) :
    run ≠ [] ∧ ∀ c ∈ run, c.isDigit = true := by
  rw [runs_ofName] at h
  exact (scanned_segmentsOf name).digits_of_mem h

theorem skeleton_ofName (name : String) :
    skeleton (ofName name) = slottedOf (frame (segmentsOf name)) := by
  rw [skeleton, parts_ofName]
  rfl

/-- A folded skeleton has slots where runs are left after taking the kept ones apart. -/
theorem folded_ofName (name : String) (flags : List Bool) :
    folded (ofName name) flags = slottedOf (frame (keep flags (segmentsOf name))) := by
  have hlen : (List.zipWith (fun run kept => if kept then run else slot) (runs (ofName name))
      flags).length ≤ (runsOf (parts (ofName name))).length := by
    rw [List.length_zipWith]
    exact Nat.min_le_left _ _
  have hfill := fill_slotted (by rw [charsOf_parts]; exact not_slot_infix_ofName name) hlen
  rw [folded, skeleton, ← slottedOf, hfill, runs_ofName, parts_ofName, frame, refill,
    refill_body (scanned_segmentsOf name), frame, slottedOf_fixed]

/-- The runs which are not kept fill a folded skeleton up to the pattern. -/
theorem fill_folded (h : flags.length = (runs (ofName name)).length) :
    fill (folded (ofName name) flags) (varying flags (runs (ofName name))) = ofName name := by
  have hs := scanned_segmentsOf name
  have hchars : charsOf (frame (keep flags (segmentsOf name))) = ofName name := by
    rw [frame, charsOf_fixed, charsOf_body_keep hs, ← charsOf_fixed, ← frame, ← parts_ofName,
      charsOf_parts]
  have hruns : runsOf (frame (keep flags (segmentsOf name))) =
      varying flags (runs (ofName name)) := by
    rw [runs_ofName] at h ⊢
    rw [frame, runsOf_fixed, runsOf_body_keep hs h]
  rw [folded_ofName, ← hruns, fill_slotted_runs, hchars]
  rw [hchars]
  exact not_slot_infix_ofName name

/-- A scan of a folded skeleton finds the skeleton. -/
theorem skeleton_folded (name : String) (flags : List Bool) :
    skeleton (folded (ofName name) flags) = skeleton (ofName name) := by
  rw [folded_ofName, skeleton_ofName, skeleton, parts, frame, slottedOf_fixed,
    partsFrom_plain (by decide) (by decide), partsFrom_slottedOf_body (scanned_segmentsOf name),
    ← slottedOf, slottedOf_fixed, slottedOf_rescanned, frame, slottedOf_fixed]

end AgentAtlas.Pattern
