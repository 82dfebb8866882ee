import Mathlib.Data.Fintype.EquivFin
import Mathlib.Data.List.Sort
import Bz.Fallible

/-!
# Applying the hunks of a patch

`apply_native_bzlmod_hunks` of `bz_common/src/bazel/bzlmod/patch.rs`: the hunks of a file are
applied from the last to the first; each is looked for at its own position, then at growing
distances from it, then with up to two lines at either end left out of the comparison.

Principal results: `apply_exact_hunks` and `insertion_one_line_early`, hunks whose lines are where
they should be; `fuzz_keeps_edits` and `fuzz_drops_added_line`, what fuzz leaves out.
-/

namespace Bz.Bzlmod.Patch

open List

/-- A line of a hunk. -/
inductive NativePatchLine where
  | context (text : String)
  | add (text : String)
  | remove (text : String)

/-- A hunk of a patch. -/
structure NativePatchHunk where
  oldStart : Nat
  lines : List NativePatchLine

/-- `bzlmod patch does not apply cleanly to .. near line ..`. -/
structure PatchMismatch where
  targetPath : String
  line : Nat
  deriving DecidableEq

def nativeBzlmodPatchFuzz : Nat := 2

def NativePatchLine.source? : NativePatchLine → Option String
  | context text => some text
  | remove text => some text
  | add _ => none

def NativePatchLine.target? : NativePatchLine → Option String
  | context text => some text
  | add text => some text
  | remove _ => none

/-- `native_bzlmod_patch_source_lines`. -/
def sourceLines (lines : List NativePatchLine) : List String := lines.filterMap (·.source?)

/-- `native_bzlmod_patch_target_lines`. -/
def targetLines (lines : List NativePatchLine) : List String := lines.filterMap (·.target?)

/-! ## Looking for a hunk -/

/-- `native_bzlmod_patch_max_position`. -/
def maxPosition (lineCount sourceLineCount targetLineCount fuzz : Nat) : Option Nat :=
  if fuzz ≤ sourceLineCount ∧ fuzz ≤ targetLineCount then
    if sourceLineCount - fuzz < fuzz ∨ targetLineCount - fuzz < fuzz then none
    else if sourceLineCount - fuzz ≤ lineCount then some (lineCount - (sourceLineCount - fuzz))
    else none
  else none

/-- `native_bzlmod_patch_source_matches`. -/
def sourceMatches (lines source : List String) (position fuzz : Nat) : Bool :=
  if source.length < fuzz then false
  else
    let sourceEnd := source.length - fuzz
    if sourceEnd < fuzz ∨ lines.length < position + sourceEnd then false
    else (List.range' fuzz (sourceEnd - fuzz)).all fun index =>
      lines[position + index]? == source[index]?

/-- The positions that are tried: the default one, then those at the distances 1, 2, .. before and
after it; if it is too far, all from the last one back. -/
def candidates (defaultPosition maxPosition : Nat) : List Nat :=
  if defaultPosition ≤ maxPosition then
    defaultPosition ::
      (List.range' 1 (max defaultPosition (maxPosition - defaultPosition))).flatMap fun delta =>
        (if delta ≤ defaultPosition then [defaultPosition - delta] else []) ++
          if defaultPosition + delta ≤ maxPosition then [defaultPosition + delta] else []
  else (List.range (maxPosition + 1)).reverse

/-- Where the hunk matches first, and with which of the fuzz levels. -/
def positionWithFuzz (lines source target : List String) (defaultPosition : Nat) :
    List Nat → Option (Nat × Nat)
  | [] => none
  | fuzz :: levels => match maxPosition lines.length source.length target.length fuzz with
    | none => none
    | some maxPosition =>
      match (candidates defaultPosition maxPosition).find? (sourceMatches lines source · fuzz) with
      | some position => some (position, fuzz)
      | none => positionWithFuzz lines source target defaultPosition levels

def nativeBzlmodPatchHunkPosition (lines : List String) (hunk : NativePatchHunk) :
    Option (Nat × Nat) :=
  positionWithFuzz lines (sourceLines hunk.lines) (targetLines hunk.lines) (hunk.oldStart - 1)
    (List.range (nativeBzlmodPatchFuzz + 1))

/-! ## Applying hunks -/

/-- The lines with those of a range replaced by the target lines, without the first and the last
`fuzz` of them. -/
def splice (lines source target : List String) (position fuzz : Nat) : List String :=
  lines.take (position + fuzz) ++ (target.drop fuzz).take (target.length - fuzz - fuzz) ++
    lines.drop (position + (source.length - fuzz))

def applyNativeBzlmodHunkAt (targetPath : String) (lines : List String) (hunk : NativePatchHunk)
    (position fuzz : Nat) : Except PatchMismatch (List String) :=
  let source := sourceLines hunk.lines
  let target := targetLines hunk.lines
  if source.length < fuzz ∨ target.length < fuzz then .error ⟨targetPath, hunk.oldStart⟩
  else .ok (splice lines source target position fuzz)

/-- The body of the loop over the hunks. -/
def applyNativeBzlmodHunk (targetPath : String) (lines : List String) (hunk : NativePatchHunk) :
    Except PatchMismatch (List String) :=
  match nativeBzlmodPatchHunkPosition lines hunk with
  | none => .error ⟨targetPath, hunk.oldStart⟩
  | some (position, fuzz) => applyNativeBzlmodHunkAt targetPath lines hunk position fuzz

/-- The order in which the hunks are applied: by their old lines, the last first. -/
def applicationOrder (hunks : List NativePatchHunk) : List NativePatchHunk :=
  (hunks.insertionSort fun a b => a.oldStart ≤ b.oldStart).reverse

/-- `apply_native_bzlmod_hunks`. -/
def applyNativeBzlmodHunks (targetPath : String) (oldLines : List String)
    (hunks : List NativePatchHunk) : Except PatchMismatch (List String) :=
  (applicationOrder hunks).foldlM (applyNativeBzlmodHunk targetPath) oldLines

/-! ## Exact hunks -/

/-- The position that the format assigns to a hunk: where its source lines begin or, if there are
none, after the line it names. -/
def assignedPosition (hunk : NativePatchHunk) : Nat :=
  if sourceLines hunk.lines = [] then hunk.oldStart else hunk.oldStart - 1

/-- The source lines of the hunks stand at the assigned positions in the old lines, of which the
first has the number `n`; the new lines have the target lines in their place. -/
inductive EditedAt : Nat → List NativePatchHunk → List String → List String → Prop where
  | nil (n : Nat) (lines : List String) : EditedAt n [] lines lines
  | cons {n : Nat} {hunk : NativePatchHunk} {hunks : List NativePatchHunk}
      (before : List String) {old new : List String} (hposition : assignedPosition hunk =
        n + before.length)
      (h : EditedAt (n + before.length + (sourceLines hunk.lines).length) hunks old new) :
      EditedAt n (hunk :: hunks) (before ++ sourceLines hunk.lines ++ old)
        (before ++ targetLines hunk.lines ++ new)

variable {after : List String}

theorem sourceMatches_zero (before source : List String) :
    sourceMatches (before ++ source ++ after) source before.length 0 := by
  have hlen : ¬ (before ++ source ++ after).length < before.length + source.length := by
    simp only [length_append]
    omega
  simp only [sourceMatches, Nat.not_lt_zero, if_false, Nat.sub_zero, hlen, false_or]
  refine all_eq_true.mpr fun index hindex => ?_
  have hlt : index < source.length := by simpa using hindex
  rw [append_assoc, getElem?_append_right (Nat.le_add_right _ _), Nat.add_sub_cancel_left,
    getElem?_append_left hlt]
  exact beq_self_eq_true _

variable {before new old lines newLines : List String} {hunk : NativePatchHunk}
  {targetPath : String} {hunks : List NativePatchHunk} {fuzz position : Nat}
  {edits : List (List NativePatchLine)} {a : Application} {n : Nat}

theorem hunkPosition_of_exact (h : hunk.oldStart - 1 = before.length) :
    nativeBzlmodPatchHunkPosition (before ++ sourceLines hunk.lines ++ after) hunk =
      some (before.length, 0) := by
  have hmax : maxPosition (before ++ sourceLines hunk.lines ++ after).length
      (sourceLines hunk.lines).length (targetLines hunk.lines).length 0 =
      some (before.length + after.length) := by
    have hle : (sourceLines hunk.lines).length ≤
        (before ++ sourceLines hunk.lines ++ after).length := by
      simp only [length_append]
      omega
    simp only [maxPosition, Nat.zero_le, Nat.sub_zero, Nat.not_lt_zero, or_self, if_false,
      and_self, if_true, if_pos hle, Option.some.injEq]
    simp only [length_append]
    omega
  rw [nativeBzlmodPatchHunkPosition, show List.range (nativeBzlmodPatchFuzz + 1) = [0, 1,
    2] from rfl,
    positionWithFuzz, hmax]
  dsimp only
  rw [h, candidates, if_pos (Nat.le_add_right _ _), find?_cons, sourceMatches_zero]

theorem applyNativeBzlmodHunk_of_exact (h : hunk.oldStart - 1 = before.length) :
    applyNativeBzlmodHunk targetPath (before ++ sourceLines hunk.lines ++ after) hunk =
      .ok (before ++ targetLines hunk.lines ++ after) := by
  rw [applyNativeBzlmodHunk, hunkPosition_of_exact h]
  simp [applyNativeBzlmodHunkAt, splice]

theorem EditedAt.sorted (h : EditedAt n hunks old new) :
    hunks.Pairwise (fun a b => a.oldStart ≤ b.oldStart) ∧
      ∀ hunk ∈ hunks, n ≤ assignedPosition hunk := by
  induction h with
  | nil n lines => exact ⟨.nil, nofun⟩
  | @cons n hunk hunks before old new hposition h ih =>
    obtain ⟨hsorted, hle⟩ := ih
    refine ⟨pairwise_cons.mpr ⟨fun other hother => ?_, hsorted⟩, fun other hother => ?_⟩
    · have hpos := hle other hother
      -- the next hunk begins after the source lines of this one
      by_cases hempty : sourceLines hunk.lines = []
      · simp only [assignedPosition, if_pos hempty] at hposition
        unfold assignedPosition at hpos
        split at hpos
        · omega
        · omega
      · have hlen : 0 < (sourceLines hunk.lines).length := length_pos_iff.mpr hempty
        simp only [assignedPosition, if_neg hempty] at hposition
        unfold assignedPosition at hpos
        split at hpos
        · omega
        · omega
    · rcases mem_cons.mp hother with rfl | hother
      · omega
      · have := hle other hother
        omega

/-- The hunk inserts lines after another one. -/
def NativePatchHunk.Inserts (hunk : NativePatchHunk) : Prop :=
  sourceLines hunk.lines = [] ∧ hunk.oldStart ≠ 0

instance (hunk : NativePatchHunk) : Decidable hunk.Inserts :=
  inferInstanceAs (Decidable (_ ∧ _))

/-- Lines that are inserted after a line are copies of it. -/
def InsertsCopies (lines : List String) (hunks : List NativePatchHunk) : Prop :=
  ∀ hunk ∈ hunks, hunk.Inserts → ∀ line ∈ targetLines hunk.lines,
    lines[hunk.oldStart - 1]? = some line

instance (lines : List String) (hunks : List NativePatchHunk) :
    Decidable (InsertsCopies lines hunks) :=
  inferInstanceAs (Decidable (∀ hunk ∈ hunks, hunk.Inserts → ∀ line ∈ targetLines hunk.lines, _))

/-- No lines are inserted directly after the lines of another hunk, of which the last has the
number `n`. -/
def Apart : Nat → List NativePatchHunk → Prop
  | _, [] => True
  | n, hunk :: hunks => (hunk.Inserts → n < hunk.oldStart) ∧
      Apart (assignedPosition hunk + (sourceLines hunk.lines).length) hunks

/-- A hunk that does not insert lines after another one has its default position. -/
theorem assignedPosition_of_not_inserts (h : ¬ hunk.Inserts) :
    assignedPosition hunk = hunk.oldStart - 1 := by
  unfold assignedPosition
  split
  · next hempty =>
    rw [not_not.mp fun hne => h ⟨hempty, hne⟩]
  · rfl

/-- Lines are inserted before the line that they should follow. -/
theorem applyNativeBzlmodHunk_of_inserts {line : String} (hins : hunk.Inserts)
    (h : hunk.oldStart = before.length + 1) :
    applyNativeBzlmodHunk targetPath (before ++ line :: after) hunk =
      .ok (before ++ (targetLines hunk.lines ++ line :: after)) := by
  have hstep := @applyNativeBzlmodHunk_of_exact (line :: after) before hunk targetPath
    (by rw [h, Nat.add_sub_cancel])
  rw [hins.1, append_nil, append_assoc] at hstep
  exact hstep

theorem append_eq_cons_of_copies {line : String} {copies : List String}
    (h : ∀ l ∈ copies, l = line) : copies ++ [line] = line :: copies := by
  rw [eq_replicate_of_mem h, ← replicate_succ', replicate_succ]

theorem copies_of_append_eq_cons {line : String} {copies : List String}
    (h : copies ++ [line] = line :: copies) : ∀ l ∈ copies, l = line := by
  induction copies with
  | nil => simp
  | cons l copies ih =>
    obtain ⟨rfl, h⟩ := List.cons.inj h
    exact forall_mem_cons.mpr ⟨rfl, ih h⟩

theorem ok_bind_foldlM_singleton (lines : List String) :
    (Except.ok lines >>= fun init => foldlM (applyNativeBzlmodHunk targetPath) init [hunk]) =
      applyNativeBzlmodHunk targetPath lines hunk := by
  rw [Fallible.ok_bind, foldlM_cons]
  exact bind_pure _

/-- The hunks of the list, applied from the last to the first behind lines that stay. -/
theorem EditedAt.apply (h : EditedAt n hunks old new) (hbefore : before.length = n)
    (hcopies : InsertsCopies (before ++ old) hunks) :
    hunks.reverse.foldlM (applyNativeBzlmodHunk targetPath) (before ++ old) =
      .ok (before ++ new) := by
  induction h generalizing before with
  | nil n lines => rfl
  | @cons n hunk hunks unchanged old new hposition h ih =>
    have hcopies' : InsertsCopies (before ++ (unchanged ++ sourceLines hunk.lines ++ old)) hunks :=
      fun other hother => hcopies other (mem_cons_of_mem _ hother)
    have hlength : (before ++ unchanged ++ sourceLines hunk.lines).length =
        n + unchanged.length + (sourceLines hunk.lines).length := by
      rw [length_append, length_append, hbefore]
    simp only [append_assoc] at ih hcopies' hlength ⊢
    have hrest := ih hlength (by simpa only [append_assoc] using hcopies')
    rw [reverse_cons, foldlM_append]
    simp only [append_assoc] at hrest
    rw [hrest, ok_bind_foldlM_singleton]
    by_cases hins : hunk.Inserts
    · -- the line that the new lines should follow is the last one before them
      have hpos : hunk.oldStart = (before ++ unchanged).length := by
        rw [length_append, hbefore, ← hposition, assignedPosition, if_pos hins.1]
      obtain ⟨kept, line, hkept⟩ : ∃ kept line, before ++ unchanged = kept ++ [line] := by
        rcases eq_nil_or_concat (before ++ unchanged) with hnil | ⟨kept, line, hkept⟩
        · rw [hnil] at hpos
          exact absurd hpos hins.2
        · exact ⟨kept, line, by rw [hkept, concat_eq_append]⟩
      rw [hkept, length_append] at hpos
      have hline : ∀ l ∈ targetLines hunk.lines, l = line := by
        intro l hl
        have hat := hcopies hunk mem_cons_self hins l hl
        rw [hins.1, append_nil, ← append_assoc, hkept, hpos] at hat
        simpa using hat.symm
      have hstep := @applyNativeBzlmodHunk_of_inserts new kept hunk targetPath line hins hpos
      rw [hins.1, nil_append, ← append_assoc before, ← append_assoc before, hkept, append_assoc,
        append_assoc, singleton_append, hstep, singleton_append,
        ← cons_append, ← append_eq_cons_of_copies hline, append_assoc, singleton_append]
    · have hstep := @applyNativeBzlmodHunk_of_exact new (before ++ unchanged) hunk targetPath (by
        rw [length_append, hbefore, ← hposition, assignedPosition_of_not_inserts hins])
      simpa only [append_assoc] using hstep

/-- What is the result, where no lines are inserted directly after other hunks. -/
theorem EditedAt.apply_apart (h : EditedAt n hunks old new) (hbefore : before.length = n)
    (hapart : Apart n hunks) : ∃ new',
      hunks.reverse.foldlM (applyNativeBzlmodHunk targetPath) (before ++ old) =
        .ok (before ++ new') ∧ (new' = new → InsertsCopies (before ++ old) hunks) := by
  induction h generalizing before with
  | nil n lines => exact ⟨lines, rfl, fun _ _ hmem => absurd hmem not_mem_nil⟩
  | @cons n hunk hunks unchanged old new hposition h ih =>
    obtain ⟨hapart0, hapart⟩ := hapart
    have hlength : (before ++ unchanged ++ sourceLines hunk.lines).length =
        n + unchanged.length + (sourceLines hunk.lines).length := by
      rw [length_append, length_append, hbefore]
    obtain ⟨rest, hrest, hcopies⟩ := ih hlength (by rwa [hposition] at hapart)
    rw [reverse_cons, foldlM_append]
    simp only [append_assoc] at hrest hcopies ⊢
    rw [hrest, ok_bind_foldlM_singleton]
    by_cases hins : hunk.Inserts
    · have hpos : hunk.oldStart = n + unchanged.length := by
        rw [← hposition, assignedPosition, if_pos hins.1]
      obtain ⟨kept, line, rfl⟩ : ∃ kept line, unchanged = kept ++ [line] := by
        rcases eq_nil_or_concat unchanged with rfl | ⟨kept, line, hkept⟩
        · exact absurd (hapart0 hins) (by rw [hpos]; simp)
        · exact ⟨kept, line, by rw [hkept, concat_eq_append]⟩
      have hstep := @applyNativeBzlmodHunk_of_inserts rest (before ++ kept) hunk targetPath line
        hins (by rw [hpos, length_append, length_append, hbefore]; simp; omega)
      refine ⟨kept ++ (targetLines hunk.lines ++ line :: rest), by simpa [hins.1] using hstep,
        fun heq => ?_⟩
      have hsplit : (targetLines hunk.lines ++ [line]) ++ rest =
          (line :: targetLines hunk.lines) ++ new := by
        simpa using append_cancel_left (heq.trans (append_assoc ..))
      obtain ⟨hline, hnew⟩ := append_inj hsplit (by simp)
      refine forall_mem_cons.mpr ⟨fun _ l hl => ?_, hcopies hnew⟩
      rw [copies_of_append_eq_cons hline l hl, hpos]
      simp [← hbefore, hins.1]
    · have hstep := @applyNativeBzlmodHunk_of_exact rest (before ++ unchanged) hunk targetPath (by
        rw [length_append, hbefore, ← hposition, assignedPosition_of_not_inserts hins])
      refine ⟨unchanged ++ (targetLines hunk.lines ++ rest), by
        simpa only [append_assoc] using hstep, fun heq => ?_⟩
      exact forall_mem_cons.mpr ⟨fun h => absurd h hins,
        hcopies (append_cancel_left (append_cancel_left heq))⟩

/-- **Exact hunks.** Hunks whose source lines stand at their positions are applied exactly there, if
lines are inserted without context only before the first line or after copies of them; and only
then, where no lines are inserted directly after another hunk. -/
theorem apply_exact_hunks (targetPath : String) (hunks : List NativePatchHunk)
    (oldLines newLines : List String) (h : EditedAt 0 hunks oldLines newLines) :
    (InsertsCopies oldLines hunks →
        applyNativeBzlmodHunks targetPath oldLines hunks = .ok newLines) ∧
      (Apart 0 hunks → applyNativeBzlmodHunks targetPath oldLines hunks = .ok newLines →
        InsertsCopies oldLines hunks) := by
  rw [applyNativeBzlmodHunks, applicationOrder, h.sorted.1.insertionSort_eq]
  refine ⟨fun hcopies => @EditedAt.apply [] _ _ _ _ _ h length_nil hcopies, fun hapart happly => ?_⟩
  obtain ⟨new', hnew', hcopies⟩ :=
    @EditedAt.apply_apart [] _ _ targetPath _ _ h length_nil hapart
  exact hcopies (Except.ok.inj (hnew'.symm.trans happly))

/-- Lines are inserted before the first line and as a copy of it, and the second one is replaced. -/
theorem apply_exact_hunks_replaced :
    applyNativeBzlmodHunks "f" ["a", "b", "c"]
      [⟨0, [.add "x"]⟩, ⟨1, [.add "a"]⟩, ⟨2, [.remove "b", .add "y"]⟩] =
        .ok ["x", "a", "a", "y", "c"] :=
  (apply_exact_hunks "f" [⟨0, [.add "x"]⟩, ⟨1, [.add "a"]⟩, ⟨2, [.remove "b", .add "y"]⟩] _ _
    (.cons [] rfl (.cons ["a"] rfl (.cons [] rfl (.nil _ ["c"]))))).1 (by decide)

/-- **Insertions.**  A line that is inserted after the first line ends up before it. -/
theorem insertion_one_line_early :
    EditedAt 0 [⟨1, [.add "x"]⟩] ["a", "b"] ["a", "x", "b"] ∧
      applyNativeBzlmodHunks "f" ["a", "b"] [⟨1, [.add "x"]⟩] = .ok ["x", "a", "b"] :=
  ⟨.cons ["a"] rfl (.nil _ ["b"]), by decide⟩

/-! ## Fuzz -/

def NativePatchLine.IsContext : NativePatchLine → Prop
  | context _ => True
  | _ => False

instance (line : NativePatchLine) : Decidable line.IsContext :=
  match line with
  | .context _ => .isTrue trivial
  | .add _ => .isFalse id
  | .remove _ => .isFalse id

/-- One application of a hunk: to which lines, where and with which fuzz. -/
structure Application where
  lines : List String
  hunk : NativePatchHunk
  position : Nat
  fuzz : Nat

namespace Application

variable (a : Application)

/-- The lines of the hunk that are compared and replaced. -/
def middle : List NativePatchLine :=
  (a.hunk.lines.drop a.fuzz).take (a.hunk.lines.length - a.fuzz - a.fuzz)

def result : List String :=
  splice a.lines (sourceLines a.hunk.lines) (targetLines a.hunk.lines) a.position a.fuzz

/-- The range of lines that is replaced. -/
def start : Nat := a.position + a.fuzz

def stop : Nat := a.position + ((sourceLines a.hunk.lines).length - a.fuzz)

/-- The fuzz leaves out lines of context only. -/
def TrimsContext : Prop :=
  (∀ line ∈ a.hunk.lines.take a.fuzz, line.IsContext) ∧
    ∀ line ∈ a.hunk.lines.drop (a.hunk.lines.length - a.fuzz), line.IsContext

instance (a : Application) : Decidable a.TrimsContext := by
  unfold TrimsContext
  infer_instance

/-- The position was found. -/
structure Found (a : Application) : Prop where
  fuzz_le : a.fuzz ≤ nativeBzlmodPatchFuzz
  trimmed_source : a.fuzz + a.fuzz ≤ (sourceLines a.hunk.lines).length
  trimmed_target : a.fuzz + a.fuzz ≤ (targetLines a.hunk.lines).length
  matched : sourceMatches a.lines (sourceLines a.hunk.lines) a.position a.fuzz = true

/-- Up to lines of context at both ends, the hunk is applied as it is. -/
def KeepsEdits : Prop :=
  ∃ lead middle trail before after, a.hunk.lines = lead ++ middle ++ trail ∧
    (∀ line ∈ lead ++ trail, line.IsContext) ∧ before.length = a.position + lead.length ∧
    a.lines = before ++ sourceLines middle ++ after ∧
    a.result = before ++ targetLines middle ++ after

end Application

/-- As many lines at either end of the hunk are context as a fuzz may leave out. -/
def NativePatchHunk.ContextAtEnds (hunk : NativePatchHunk) : Prop :=
  ∀ fuzz ≤ nativeBzlmodPatchFuzz, fuzz + fuzz ≤ (sourceLines hunk.lines).length →
    fuzz + fuzz ≤ (targetLines hunk.lines).length →
    (∀ line ∈ hunk.lines.take fuzz, line.IsContext) ∧
      ∀ line ∈ hunk.lines.drop (hunk.lines.length - fuzz), line.IsContext

instance (hunk : NativePatchHunk) : Decidable hunk.ContextAtEnds :=
  inferInstanceAs (Decidable (∀ fuzz ≤ _, _))

/-- The applications of the hunks, up to the first that does not match. -/
def applications : List NativePatchHunk → List String → List Application
  | [], _ => []
  | hunk :: hunks, lines => match nativeBzlmodPatchHunkPosition lines hunk with
    | none => []
    | some (position, fuzz) =>
      ⟨lines, hunk, position, fuzz⟩ ::
        applications hunks (Application.mk lines hunk position fuzz).result

/-- The old lines with the source lines of each edit replaced by its target lines. -/
inductive Edited : List (List NativePatchLine) → List String → List String → Prop where
  | nil (lines : List String) : Edited [] lines lines
  | cons (before : List String) {edit : List NativePatchLine} {edits : List (List NativePatchLine)}
      {old new : List String} (h : Edited edits old new) :
      Edited (edit :: edits) (before ++ sourceLines edit ++ old) (before ++ targetLines edit ++ new)

theorem Edited.append (h : Edited edits old new)
    (before : List String) : Edited edits (before ++ old) (before ++ new) := by
  cases h with
  | nil lines => exact .nil _
  | cons unchanged h => simpa only [append_assoc] using Edited.cons (before ++ unchanged) h

theorem maxPosition_spec {lineCount sourceLineCount targetLineCount last : Nat}
    (h : maxPosition lineCount sourceLineCount targetLineCount fuzz = some last) :
    (fuzz + fuzz ≤ sourceLineCount ∧ fuzz + fuzz ≤ targetLineCount) ∧
      last + (sourceLineCount - fuzz) = lineCount := by
  unfold maxPosition at h
  split at h
  · split at h
    · cases h
    · split at h
      · cases h
        omega
      · cases h
  · cases h

/-! ## The closest match -/

def distance (p q : Nat) : Nat := p - q + (q - p)

theorem add_le_of_sourceMatches {source : List String}
    (h : sourceMatches lines source position fuzz) :
    position + (source.length - fuzz) ≤ lines.length := by
  unfold sourceMatches at h
  split at h
  · cases h
  · dsimp only at h
    split at h
    · cases h
    · omega

theorem mem_candidates {defaultPosition last : Nat} (hle : position ≤ last) :
    position ∈ candidates defaultPosition last := by
  unfold candidates
  split
  · rw [mem_cons, mem_flatMap]
    rcases Nat.lt_trichotomy position defaultPosition with hlt | heq | hgt
    · refine .inr ⟨defaultPosition - position, mem_range'_1.mpr (by omega), ?_⟩
      rw [if_pos (Nat.sub_le _ _), Nat.sub_sub_self hlt.le]
      exact mem_append_left _ mem_cons_self
    · exact .inl heq
    · refine .inr ⟨position - defaultPosition, mem_range'_1.mpr (by omega), ?_⟩
      rw [Nat.add_sub_cancel' hgt.le, if_pos hle]
      exact mem_append_right _ mem_cons_self
  · rwa [mem_reverse, mem_range, Nat.lt_succ_iff]

theorem candidates_sorted (defaultPosition last : Nat) :
    (candidates defaultPosition last).Pairwise fun p q =>
      distance p defaultPosition ≤ distance q defaultPosition := by
  unfold candidates
  split
  · have hdelta (delta p : Nat) (h : p ∈ (if delta ≤ defaultPosition then
        [defaultPosition - delta] else []) ++ if defaultPosition + delta ≤ last then
          [defaultPosition + delta] else []) : distance p defaultPosition = delta := by
      unfold distance
      rcases mem_append.mp h with h | h <;> split at h <;>
        simp only [mem_singleton, not_mem_nil] at h <;> omega
    refine pairwise_cons.mpr ⟨fun q _ => by simp [distance], pairwise_flatMap.mpr
      ⟨fun delta _ => ?_, ?_⟩⟩
    · refine pairwise_of_forall_mem_list fun p hp q hq => ?_
      rw [hdelta delta p hp, hdelta delta q hq]
    · refine (pairwise_lt_range').imp fun hlt p hp q hq => ?_
      rw [hdelta _ p hp, hdelta _ q hq]
      exact hlt.le
  · rw [pairwise_reverse]
    refine pairwise_lt_range.imp_of_mem fun hp hq hlt => ?_
    rw [mem_range] at hp hq
    unfold distance
    omega

theorem positionWithFuzz_spec {source target : List String} {defaultPosition : Nat}
    {levels : List Nat}
    (h : positionWithFuzz lines source target defaultPosition levels = some (position, fuzz)) :
    (fuzz + fuzz ≤ source.length ∧ fuzz + fuzz ≤ target.length) ∧
      sourceMatches lines source position fuzz ∧ (∀ q, sourceMatches lines source q fuzz →
        distance position defaultPosition ≤ distance q defaultPosition) ∧
      ∃ tried rest, levels = tried ++ fuzz :: rest ∧
        ∀ level ∈ tried, ∀ q, sourceMatches lines source q level = false := by
  induction levels with
  | nil => cases h
  | cons level levels ih =>
    unfold positionWithFuzz at h
    split at h
    · cases h
    next last hmax =>
      have hcandidate (q : Nat) (hq : sourceMatches lines source q level) :
          q ∈ candidates defaultPosition last := by
        have hle := add_le_of_sourceMatches hq
        have hlast := (maxPosition_spec hmax).2
        exact mem_candidates (by omega)
      split at h
      · next hfind =>
        obtain ⟨rfl, rfl⟩ := Prod.mk.inj (Option.some.inj h)
        obtain ⟨hmatch, before, after, hsplit, hbefore⟩ := find?_eq_some_iff_append.mp hfind
        refine ⟨(maxPosition_spec hmax).1, hmatch, fun q hq => ?_, [], _, rfl, nofun⟩
        have hmem := hcandidate q hq
        have hsorted := candidates_sorted defaultPosition last
        rw [hsplit] at hmem hsorted
        rcases mem_append.mp hmem with hmem | hmem
        · simpa [hq] using hbefore q hmem
        · rcases mem_cons.mp hmem with rfl | hmem
          · exact le_rfl
          · exact (pairwise_cons.mp (pairwise_append.mp hsorted).2.1).1 q hmem
      · next hnone =>
        obtain ⟨hle, hmatch, hclosest, tried, rest, rfl, htried⟩ := ih h
        refine ⟨hle, hmatch, hclosest, level :: tried, rest, rfl, forall_mem_cons.mpr
          ⟨fun q => ?_, htried⟩⟩
        by_contra hq
        rw [Bool.not_eq_false] at hq
        exact find?_eq_none.mp hnone q (hcandidate q hq) hq

/-- **Where a hunk is found**: the ranges that are cut are valid, and the position is a closest one
at the smallest fuzz at which there is any. -/
theorem hunkPosition_closest (lines : List String) (hunk : NativePatchHunk) (position fuzz : Nat)
    (h : nativeBzlmodPatchHunkPosition lines hunk = some (position, fuzz)) :
    (fuzz ≤ (sourceLines hunk.lines).length - fuzz ∧
      fuzz ≤ (targetLines hunk.lines).length - fuzz ∧
      position + ((sourceLines hunk.lines).length - fuzz) ≤ lines.length) ∧
    sourceMatches lines (sourceLines hunk.lines) position fuzz = true ∧
    (∀ q, sourceMatches lines (sourceLines hunk.lines) q fuzz = true →
      distance position (hunk.oldStart - 1) ≤ distance q (hunk.oldStart - 1)) ∧
    ∀ level < fuzz, ∀ q, sourceMatches lines (sourceLines hunk.lines) q level = false := by
  obtain ⟨hle, hmatch, hclosest, tried, rest, hlevels, htried⟩ := positionWithFuzz_spec h
  refine ⟨⟨by omega, by omega, add_le_of_sourceMatches hmatch⟩, hmatch, hclosest, ?_⟩
  intro level hlt
  refine htried level ?_
  have hmem : level ∈ List.range (nativeBzlmodPatchFuzz + 1) := by
    have hfuzz : fuzz ∈ List.range (nativeBzlmodPatchFuzz + 1) := by simp [hlevels]
    rw [mem_range] at hfuzz ⊢
    omega
  have hsorted : (List.range (nativeBzlmodPatchFuzz + 1)).Pairwise (· < ·) := pairwise_lt_range
  rw [hlevels] at hmem hsorted
  rcases mem_append.mp hmem with hmem | hmem
  · exact hmem
  · rcases mem_cons.mp hmem with rfl | hmem
    · exact absurd hlt (lt_irrefl _)
    · have := (pairwise_cons.mp (pairwise_append.mp hsorted).2.1).1 level hmem
      omega

theorem hunkPosition_closest_moved :
    sourceMatches ["p", "b", "q", "b"] ["b"] 1 0 = true ∧
      ∀ q, sourceMatches ["p", "b", "q", "b"] ["b"] q 0 = true → distance 1 2 ≤ distance q 2 := by
  obtain ⟨-, hmatch, hclosest, -⟩ :=
    hunkPosition_closest ["p", "b", "q", "b"] ⟨3, [.remove "b"]⟩ 1 0 (by decide)
  exact ⟨hmatch, hclosest⟩

theorem eq_take_append_take_append_drop {α : Type} (l : List α) (i k : Nat) :
    l = l.take i ++ (l.drop i).take k ++ l.drop (i + k) := by
  rw [← drop_drop, append_assoc, take_append_drop, take_append_drop]

theorem split_of_sourceMatches {lead middle trail : List String} (hlead : lead.length = fuzz)
    (htrail : trail.length = fuzz)
    (h : sourceMatches lines (lead ++ middle ++ trail) position fuzz) :
    ∃ before after, lines = before ++ middle ++ after ∧ before.length = position + fuzz := by
  have hend : (lead ++ middle ++ trail).length - fuzz = fuzz + middle.length := by
    simp only [length_append]
    omega
  have hfuzz : ¬ (lead ++ middle ++ trail).length < fuzz := by
    omega
  simp only [sourceMatches, hend, if_neg hfuzz] at h
  split at h
  · cases h
  next hinside =>
    have hmiddle : (lines.drop (position + fuzz)).take middle.length = middle := by
      refine ext_getElem? fun index => ?_
      rw [getElem?_take, getElem?_drop]
      split
      · next hindex =>
        have hmem : fuzz + index ∈ List.range' fuzz (fuzz + middle.length - fuzz) :=
          mem_range'_1.mpr (by omega)
        have heq := eq_of_beq (all_eq_true.mp h _ hmem)
        rw [Nat.add_assoc, heq, append_assoc, getElem?_append_right (by omega),
          getElem?_append_left (by omega), hlead, Nat.add_sub_cancel_left]
      · exact (getElem?_eq_none (by omega)).symm
    have hlines := eq_take_append_take_append_drop lines (position + fuzz) middle.length
    rw [hmiddle] at hlines
    refine ⟨_, _, hlines, ?_⟩
    rw [length_take]
    omega

theorem splice_append {source lead middle trail leadTarget middleTarget trailTarget : List String}
    (hsource : source = lead ++ middle ++ trail) (hlead : lead.length = fuzz)
    (htrail : trail.length = fuzz) (hleadTarget : leadTarget.length = fuzz)
    (htrailTarget : trailTarget.length = fuzz) (hbefore : before.length = position + fuzz) :
    splice (before ++ middle ++ after) source (leadTarget ++ middleTarget ++ trailTarget) position
      fuzz = before ++ middleTarget ++ after := by
  have htarget : ((leadTarget ++ middleTarget ++ trailTarget).drop fuzz).take
      ((leadTarget ++ middleTarget ++ trailTarget).length - fuzz - fuzz) = middleTarget := by
    rw [append_assoc, drop_left' hleadTarget]
    refine take_left' ?_
    simp only [length_append]
    omega
  have hdrop : position + (source.length - fuzz) = (before ++ middle).length := by
    rw [hsource]
    simp only [length_append]
    omega
  rw [splice, htarget, hdrop, drop_left, append_assoc before, take_left' hbefore]

theorem source?_eq_of_isContext {line : NativePatchLine} (h : line.IsContext) :
    ∃ text, line.source? = some text ∧ line.target? = some text := by
  cases line with
  | context text => exact ⟨text, rfl, rfl⟩
  | add text | remove text => exact h.elim

theorem target?_of_source?_eq_none {line : NativePatchLine} (h : line.source? = none) :
    ∃ text, line.target? = some text := by
  cases line with
  | add text => exact ⟨text, rfl⟩
  | context text | remove text => cases h

theorem length_lines_of_isContext {lines : List NativePatchLine}
    (h : ∀ line ∈ lines, line.IsContext) :
    (sourceLines lines).length = lines.length ∧ (targetLines lines).length = lines.length := by
  induction lines with
  | nil => exact ⟨rfl, rfl⟩
  | cons line lines ih =>
    obtain ⟨hline, hlines⟩ := forall_mem_cons.mp h
    obtain ⟨text, hsource, htarget⟩ := source?_eq_of_isContext hline
    obtain ⟨ihsource, ihtarget⟩ := ih hlines
    constructor
    · rw [sourceLines, filterMap_cons_some hsource, length_cons, length_cons,
        ← ihsource, sourceLines]
    · rw [targetLines, filterMap_cons_some htarget, length_cons, length_cons,
        ← ihtarget, targetLines]

@[simp]
theorem sourceLines_append (a b : List NativePatchLine) :
    sourceLines (a ++ b) = sourceLines a ++ sourceLines b :=
  filterMap_append

@[simp]
theorem targetLines_append (a b : List NativePatchLine) :
    targetLines (a ++ b) = targetLines a ++ targetLines b :=
  filterMap_append

/-- What is left out by the fuzz, and the lines between. -/
theorem Application.Found.lines_eq (h : a.Found) :
    a.hunk.lines = a.hunk.lines.take a.fuzz ++ a.middle ++
        a.hunk.lines.drop (a.hunk.lines.length - a.fuzz) ∧
      (a.hunk.lines.take a.fuzz).length = a.fuzz ∧
      (a.hunk.lines.drop (a.hunk.lines.length - a.fuzz)).length = a.fuzz := by
  have hle : a.fuzz + a.fuzz ≤ a.hunk.lines.length :=
    h.trimmed_source.trans (length_filterMap_le _ _)
  refine ⟨?_, by rw [length_take]; omega, by rw [length_drop]; omega⟩
  have hend : a.hunk.lines.length - a.fuzz = a.fuzz + (a.hunk.lines.length - a.fuzz - a.fuzz) := by
    omega
  calc a.hunk.lines
    _ = a.hunk.lines.take a.fuzz ++ a.middle ++
        a.hunk.lines.drop (a.fuzz + (a.hunk.lines.length - a.fuzz - a.fuzz)) :=
      eq_take_append_take_append_drop ..
    _ = _ := by rw [← hend]

theorem Application.Found.keepsEdits (h : a.Found) (hcontext : a.TrimsContext) :
    ∃ before after, before.length = a.start ∧
      before.length + (sourceLines a.middle).length = a.stop ∧
      a.lines = before ++ sourceLines a.middle ++ after ∧
      a.result = before ++ targetLines a.middle ++ after := by
  obtain ⟨hlines, hlead, htrail⟩ := h.lines_eq
  obtain ⟨hsource1, htarget1⟩ := length_lines_of_isContext hcontext.1
  obtain ⟨hsource2, htarget2⟩ := length_lines_of_isContext hcontext.2
  have hsource := congrArg sourceLines hlines
  have htarget := congrArg targetLines hlines
  rw [sourceLines_append, sourceLines_append] at hsource
  rw [targetLines_append, targetLines_append] at htarget
  have hmatched := h.matched
  rw [hsource] at hmatched
  obtain ⟨before, after, heq, hbefore⟩ :=
    split_of_sourceMatches (hsource1.trans hlead) (hsource2.trans htrail) hmatched
  refine ⟨before, after, hbefore, ?_, heq, ?_⟩
  · have hlength := congrArg List.length hsource
    simp only [length_append] at hlength
    rw [stop]
    omega
  · rw [result, heq, htarget]
    exact splice_append hsource (hsource1.trans hlead) (hsource2.trans htrail)
      (htarget1.trans hlead) (htarget2.trans htrail) hbefore

theorem found_of_position (h : nativeBzlmodPatchHunkPosition lines hunk = some (position, fuzz)) :
    Application.Found ⟨lines, hunk, position, fuzz⟩ := by
  obtain ⟨hle, hmatch, -, tried, rest, hlevels, -⟩ := positionWithFuzz_spec h
  have hfuzz : fuzz ∈ List.range (nativeBzlmodPatchFuzz + 1) := by simp [hlevels]
  exact ⟨Nat.lt_succ_iff.mp (mem_range.mp hfuzz), hle.1, hle.2, hmatch⟩

theorem Application.Found.trimsContext (h : a.Found) (hcontext : a.hunk.ContextAtEnds) :
    a.TrimsContext :=
  hcontext a.fuzz h.fuzz_le h.trimmed_source h.trimmed_target

theorem Application.Found.keepsEdits_of_trims (h : a.Found) (hcontext : a.TrimsContext) :
    a.KeepsEdits := by
  obtain ⟨hlines, hlead, -⟩ := h.lines_eq
  obtain ⟨before, after, hstart, -, hsource, htarget⟩ := h.keepsEdits hcontext
  refine ⟨_, _, _, before, after, hlines, forall_mem_append.mpr hcontext, ?_, hsource, htarget⟩
  rw [hlead]
  exact hstart

/-! ### Hunks that lose an edit in some file -/

section Frayed

variable {fresh : String} {source target : List String}

/-- The source lines with the first and the last `fuzz` of them replaced. -/
def frayed (fresh : String) (source : List String) (fuzz : Nat) : List String :=
  (List.range source.length).map fun i =>
    if fuzz ≤ i ∧ i + fuzz < source.length then source.getD i fresh else fresh

theorem length_frayed : (frayed fresh source fuzz).length = source.length := by simp [frayed]

theorem getElem?_frayed {i : Nat} : (frayed fresh source fuzz)[i]? =
    if i < source.length then
      if fuzz ≤ i ∧ i + fuzz < source.length then source[i]? else some fresh
    else none := by
  by_cases hi : i < source.length
  · rw [if_pos hi, frayed, getElem?_map, getElem?_range hi, Option.map_some]
    split
    · rw [getD_eq_getElem?_getD, getElem?_eq_getElem hi]
      rfl
    · rfl
  · rw [if_neg hi, getElem?_eq_none (by rw [length_frayed]; omega)]

/-- What a match says about one line. -/
theorem sourceMatches_getElem? (h : sourceMatches lines source position fuzz) {i : Nat}
    (hlow : fuzz ≤ i) (hhigh : i + fuzz < source.length) : lines[position + i]? = source[i]? := by
  unfold sourceMatches at h
  split at h
  · cases h
  · dsimp only at h
    split at h
    · cases h
    · exact eq_of_beq (all_eq_true.mp h i (mem_range'_1.mpr (by omega)))

/-- The line of the file that a fresh one stands for does not match. -/
theorem frayed_mismatch (hfresh : fresh ∉ source) {level : Nat} (hlevel : level < fuzz)
    (hlength : fuzz + fuzz ≤ source.length) (position : Nat) :
    sourceMatches (frayed fresh source fuzz) source position level = false := by
  by_contra hmatch
  rw [Bool.not_eq_false] at hmatch
  have hle := add_le_of_sourceMatches hmatch
  rw [length_frayed] at hle
  have heq := sourceMatches_getElem? hmatch (i := source.length - level - 1) (by omega) (by omega)
  rw [getElem?_frayed, if_pos (by omega), if_neg (by omega)] at heq
  exact hfresh (mem_of_getElem? heq.symm)

theorem frayed_match (hlength : fuzz + fuzz ≤ source.length) :
    sourceMatches (frayed fresh source fuzz) source 0 fuzz = true := by
  have hlt : ¬ source.length < fuzz := by omega
  have hle : ¬ (source.length - fuzz < fuzz ∨
      (frayed fresh source fuzz).length < 0 + (source.length - fuzz)) := by
    rw [length_frayed]
    omega
  simp only [sourceMatches, if_neg hlt, if_neg hle]
  refine all_eq_true.mpr fun i hi => ?_
  have hrange := mem_range'_1.mp hi
  rw [Nat.zero_add, getElem?_frayed, if_pos (by omega), if_pos (by omega)]
  exact beq_self_eq_true _

/-- Where it matches, the replaced lines are at its ends. -/
theorem frayed_ends (hfresh : fresh ∉ source) (hlength : fuzz + fuzz ≤ source.length)
    (hmatch : sourceMatches (frayed fresh source fuzz) source position fuzz) {i : Nat}
    (hi : i < fuzz ∨ source.length - fuzz ≤ i ∧ i < source.length) {line : String}
    (hline : (frayed fresh source fuzz)[position + i]? = some line) : line = fresh := by
  have hle := add_le_of_sourceMatches hmatch
  rw [length_frayed] at hle
  rw [getElem?_frayed] at hline
  split at hline
  · next hlt =>
    split at hline
    · next hmiddle =>
      -- the match is at the beginning, or there is nothing to match
      have hposition : position = 0 := by
        by_contra hne
        have heq := sourceMatches_getElem? hmatch (i := source.length - fuzz - 1) (by omega)
          (by omega)
        rw [getElem?_frayed, if_pos (by omega), if_neg (by omega)] at heq
        exact hfresh (mem_of_getElem? heq.symm)
      omega
    · exact (Option.some.inj hline).symm
  · cases hline

theorem exists_position_of_fuzz {defaultPosition last : Nat} {tried rest : List Nat}
    (htried : ∀ level ∈ tried, maxPosition lines.length source.length target.length level ≠ none ∧
      ∀ q, sourceMatches lines source q level = false)
    (hmax : maxPosition lines.length source.length target.length fuzz = some last)
    (hle : position ≤ last) (hmatch : sourceMatches lines source position fuzz) :
    ∃ p, positionWithFuzz lines source target defaultPosition (tried ++ fuzz :: rest) =
      some (p, fuzz) := by
  induction tried with
  | nil =>
    obtain ⟨p, hp⟩ : ∃ p, (candidates defaultPosition last).find?
        (sourceMatches lines source · fuzz) = some p := by
      rw [← Option.isSome_iff_exists, find?_isSome]
      exact ⟨position, mem_candidates hle, hmatch⟩
    exact ⟨p, by simp [positionWithFuzz, hmax, hp]⟩
  | cons level tried ih =>
    obtain ⟨⟨hne, hno⟩, htried⟩ := forall_mem_cons.mp htried
    obtain ⟨last', hlast'⟩ := Option.ne_none_iff_exists'.mp hne
    obtain ⟨p, hp⟩ := ih htried
    have hnone : (candidates defaultPosition last').find? (sourceMatches lines source · level) =
        none := find?_eq_none.mpr fun q _ => by simp [hno]
    exact ⟨p, by simp [positionWithFuzz, hlast', hnone, hp]⟩

/-- **A file with other lines at the ends**: the hunk is applied to it with just this fuzz. -/
theorem exists_frayed_position {hunk : NativePatchHunk} (hfresh : fresh ∉ sourceLines hunk.lines)
    (hfuzz : fuzz ≤ nativeBzlmodPatchFuzz) (hsource : fuzz + fuzz ≤ (sourceLines hunk.lines).length)
    (htarget : fuzz + fuzz ≤ (targetLines hunk.lines).length) :
    ∃ p, nativeBzlmodPatchHunkPosition (frayed fresh (sourceLines hunk.lines) fuzz) hunk =
      some (p, fuzz) := by
  have hmax {level : Nat} (hle : level ≤ fuzz) :
      maxPosition (frayed fresh (sourceLines hunk.lines) fuzz).length
        (sourceLines hunk.lines).length (targetLines hunk.lines).length level = some level := by
    rw [length_frayed, maxPosition, if_pos (by omega), if_neg (by omega), if_pos (by omega)]
    exact congrArg some (by omega)
  obtain ⟨rest, hrest⟩ : ∃ rest, List.range (nativeBzlmodPatchFuzz + 1) =
      List.range fuzz ++ fuzz :: rest := by
    have hcases : fuzz = 0 ∨ fuzz = 1 ∨ fuzz = 2 := by
      rw [nativeBzlmodPatchFuzz] at hfuzz
      omega
    obtain rfl | rfl | rfl := hcases <;> exact ⟨_, rfl⟩
  rw [nativeBzlmodPatchHunkPosition, hrest]
  refine exists_position_of_fuzz (fun level hlevel => ?_) (hmax le_rfl) (Nat.zero_le _)
    (frayed_match hsource)
  have hlt := mem_range.mp hlevel
  exact ⟨by simp [hmax hlt.le], frayed_mismatch hfresh hlt hsource⟩

end Frayed

/-- The hunk `a`, found in the frayed file: an edit at one of its ends is not made. -/
structure Application.Frayed (fresh : String) (a : Application) : Prop extends a.Found where
  lines_frayed : a.lines = frayed fresh (sourceLines a.hunk.lines) a.fuzz
  fresh_source : fresh ∉ sourceLines a.hunk.lines
  fresh_target : fresh ∉ targetLines a.hunk.lines

section Ends

variable {fresh text : String} {lead middle trail : List NativePatchLine} {line : NativePatchLine}

theorem mem_sourceLines {lines : List NativePatchLine} (hline : line ∈ lines)
    (h : line.source? = some text) : text ∈ sourceLines lines :=
  mem_filterMap.mpr ⟨line, hline, h⟩

theorem mem_targetLines {lines : List NativePatchLine} (hline : line ∈ lines)
    (h : line.target? = some text) : text ∈ targetLines lines :=
  mem_filterMap.mpr ⟨line, hline, h⟩

/-- No line of the hunk is at an end of the place where it is found. -/
theorem Application.Frayed.not_mem_ends (h : a.Frayed fresh) {i : Nat}
    (hi : i < a.fuzz ∨ (sourceLines a.hunk.lines).length - a.fuzz ≤ i ∧
      i < (sourceLines a.hunk.lines).length)
    (htext : a.lines[a.position + i]? = some text) :
    text ∉ sourceLines a.hunk.lines ∧ text ∉ targetLines a.hunk.lines := by
  have hmatched := h.matched
  rw [h.lines_frayed] at htext hmatched
  obtain rfl := frayed_ends h.fresh_source h.trimmed_source hmatched hi htext
  exact ⟨h.fresh_source, h.fresh_target⟩

theorem Application.Frayed.le_lead (h : a.Frayed fresh)
    (hlines : a.hunk.lines = lead ++ line :: middle ++ trail)
    (hbefore : before.length = a.position + lead.length)
    (hsource : a.lines = before ++ sourceLines (line :: middle) ++ after)
    (htarget : a.result = before ++ targetLines (line :: middle) ++ after) :
    a.fuzz ≤ lead.length := by
  by_contra hlt
  rw [not_le] at hlt
  have hmem : line ∈ a.hunk.lines := by simp [hlines]
  have hle := add_le_of_sourceMatches h.matched
  have htrimmed := h.trimmed_source
  cases hline : line.source? with
  | some text =>
    have htext : a.lines[a.position + lead.length]? = some text := by
      rw [hsource, sourceLines, filterMap_cons_some hline, ← hbefore, append_assoc,
        getElem?_append_right le_rfl, Nat.sub_self]
      rfl
    exact (h.not_mem_ends (.inl hlt) htext).1 (mem_sourceLines hmem hline)
  | none =>
    obtain ⟨text, htext⟩ := target?_of_source?_eq_none hline
    -- the lines before the middle are those of the file
    have hresult : a.result[a.position + lead.length]? = a.lines[a.position + lead.length]? := by
      rw [result, splice, append_assoc, getElem?_append_left (by rw [length_take]; omega),
        getElem?_take, if_pos (by omega)]
    rw [htarget, targetLines, filterMap_cons_some htext, ← hbefore, append_assoc,
      getElem?_append_right le_rfl, Nat.sub_self, hbefore] at hresult
    exact (h.not_mem_ends (.inl hlt) hresult.symm).2 (mem_targetLines hmem htext)

theorem Application.Frayed.le_trail (h : a.Frayed fresh)
    (hlines : a.hunk.lines = lead ++ (middle ++ [line]) ++ trail)
    (hcontext : ∀ line ∈ lead ++ trail, line.IsContext)
    (hbefore : before.length = a.position + lead.length)
    (hsource : a.lines = before ++ sourceLines (middle ++ [line]) ++ after)
    (htarget : a.result = before ++ targetLines (middle ++ [line]) ++ after) :
    a.fuzz ≤ trail.length := by
  by_contra hlt
  rw [not_le] at hlt
  have hmem : line ∈ a.hunk.lines := by simp [hlines]
  have hle := add_le_of_sourceMatches h.matched
  have htrimmed := h.trimmed_source
  obtain ⟨hlead, htrail⟩ := forall_mem_append.mp hcontext
  have hlength : (sourceLines a.hunk.lines).length =
      lead.length + (sourceLines (middle ++ [line])).length + trail.length := by
    rw [hlines, sourceLines_append, sourceLines_append, length_append, length_append,
      (length_lines_of_isContext hlead).1, (length_lines_of_isContext htrail).1]
  -- the last line of the middle is at this index, counted from where the hunk is found
  have hindex : (sourceLines a.hunk.lines).length - a.fuzz ≤
      (sourceLines a.hunk.lines).length - trail.length - 1 ∧
      (sourceLines a.hunk.lines).length - trail.length - 1 < (sourceLines a.hunk.lines).length := by
    omega
  cases hline : line.source? with
  | some text =>
    have hlast : sourceLines (middle ++ [line]) = sourceLines middle ++ [text] := by
      rw [sourceLines_append]
      exact congrArg _ (filterMap_cons_some hline)
    rw [hlast, length_append, length_singleton] at hlength
    have htext : a.lines[a.position + ((sourceLines a.hunk.lines).length - trail.length - 1)]? =
        some text := by
      rw [hsource, hlast, append_assoc, append_assoc, getElem?_append_right (by omega),
        getElem?_append_right (by omega), singleton_append]
      have hzero : a.position + ((sourceLines a.hunk.lines).length - trail.length - 1) -
          before.length - (sourceLines middle).length = 0 := by
        omega
      rw [hzero]
      rfl
    exact (h.not_mem_ends (.inr hindex) htext).1 (mem_sourceLines hmem hline)
  | none =>
    obtain ⟨text, htext⟩ := target?_of_source?_eq_none hline
    have hlast : targetLines (middle ++ [line]) = targetLines middle ++ [text] := by
      rw [targetLines_append]
      exact congrArg _ (filterMap_cons_some htext)
    -- the lines after the middle are those of the file
    have hsum := congrArg List.length hsource
    have hresult := htarget
    rw [result, splice, hlast] at hresult
    have hsum' := congrArg List.length hresult
    simp only [length_append, length_singleton, length_drop] at hsum hsum'
    have hget := congrArg (·[before.length + (targetLines middle).length]?) hresult
    rw [getElem?_append_right (by simp only [length_append]; omega), getElem?_drop,
      append_assoc, append_assoc, getElem?_append_right (by omega), Nat.add_sub_cancel_left,
      getElem?_append_right le_rfl, Nat.sub_self, singleton_append, length_append] at hget
    have hplace : a.position + ((sourceLines a.hunk.lines).length - trail.length - 1) =
        a.position + ((sourceLines a.hunk.lines).length - a.fuzz) +
          (before.length + (targetLines middle).length -
            ((take (a.position + a.fuzz) a.lines).length +
              (take ((targetLines a.hunk.lines).length - a.fuzz - a.fuzz)
                (drop a.fuzz (targetLines a.hunk.lines))).length)) := by
      omega
    rw [← hplace] at hget
    exact (h.not_mem_ends (.inr hindex) hget).2 (mem_targetLines hmem htext)

theorem Application.Frayed.trimsContext_of_keepsEdits (h : a.Frayed fresh) (hkeeps : a.KeepsEdits) :
    a.TrimsContext := by
  obtain ⟨lead, middle, trail, before, after, hlines, hcontext, hbefore, hsource, htarget⟩ := hkeeps
  cases middle with
  | nil =>
    have hall : ∀ line ∈ a.hunk.lines, line.IsContext := by
      rw [hlines, append_nil]
      exact hcontext
    exact ⟨fun line hline => hall line (mem_of_mem_take hline),
      fun line hline => hall line (mem_of_mem_drop hline)⟩
  | cons first middle =>
    have hlead := h.le_lead hlines hbefore hsource htarget
    obtain ⟨middle', last, hmiddle⟩ :=
      (eq_nil_or_concat' (first :: middle)).resolve_left (cons_ne_nil first middle)
    rw [hmiddle] at hlines hsource htarget
    have htrail := h.le_trail hlines hcontext hbefore hsource htarget
    obtain ⟨hleadContext, htrailContext⟩ := forall_mem_append.mp hcontext
    constructor
    · intro line hline
      rw [hlines, append_assoc, take_append_of_le_length hlead] at hline
      exact hleadContext line (mem_of_mem_take hline)
    · intro line hline
      rw [hlines, drop_append, mem_append] at hline
      have hnil : drop ((lead ++ (middle' ++ [last]) ++ trail).length - a.fuzz)
          (lead ++ (middle' ++ [last])) = [] := by
        apply drop_eq_nil_of_le
        simp only [length_append]
        omega
      rw [hnil] at hline
      exact htrailContext line (mem_of_mem_drop (hline.resolve_left not_mem_nil))

end Ends

theorem contextAtEnds_of_keepsEdits (h : ∀ lines position fuzz,
      nativeBzlmodPatchHunkPosition lines hunk = some (position, fuzz) →
        Application.KeepsEdits ⟨lines, hunk, position, fuzz⟩) : hunk.ContextAtEnds := by
  intro fuzz hfuzz hsource htarget
  obtain ⟨fresh, hfresh⟩ :=
    Infinite.exists_notMem_finset (sourceLines hunk.lines ++ targetLines hunk.lines).toFinset
  rw [mem_toFinset, mem_append, not_or] at hfresh
  obtain ⟨position, hposition⟩ := exists_frayed_position hfresh.1 hfuzz hsource htarget
  have hfrayed : Application.Frayed fresh ⟨_, hunk, position, fuzz⟩ :=
    ⟨found_of_position hposition, rfl, hfresh.1, hfresh.2⟩
  exact hfrayed.trimsContext_of_keepsEdits (h _ _ _ hposition)

theorem found_of_apply_cons
    (h : (hunk :: hunks).foldlM (applyNativeBzlmodHunk targetPath) lines = .ok newLines) :
    ∃ a : Application, a.Found ∧ a.lines = lines ∧ a.hunk = hunk ∧
      hunks.foldlM (applyNativeBzlmodHunk targetPath) a.result = .ok newLines ∧
      applications (hunk :: hunks) lines = a :: applications hunks a.result := by
  rw [foldlM_cons, Fallible.bind_eq_ok] at h
  obtain ⟨next, hstep, h⟩ := h
  unfold applyNativeBzlmodHunk at hstep
  split at hstep
  · cases hstep
  next position fuzz hposition =>
    simp only [applyNativeBzlmodHunkAt] at hstep
    split at hstep
    · cases hstep
    · cases hstep
      refine ⟨⟨lines, hunk, position, fuzz⟩, found_of_position hposition, rfl, rfl, h, ?_⟩
      rw [applications, hposition]

section Applied

variable (h : hunks.foldlM (applyNativeBzlmodHunk targetPath) lines = .ok newLines)
include h

/-- A successful run applies every hunk, each where it was found. -/
theorem applications_of_apply :
    (applications hunks lines).map (·.hunk) = hunks ∧ ∀ a ∈ applications hunks lines, a.Found := by
  induction hunks generalizing lines with
  | nil => exact ⟨rfl, nofun⟩
  | cons hunk hunks ih =>
    obtain ⟨a, hfound, -, rfl, h, happ⟩ := found_of_apply_cons h
    obtain ⟨hhunks, hall⟩ := ih h
    rw [happ, map_cons, hhunks]
    exact ⟨rfl, forall_mem_cons.mpr ⟨hfound, hall⟩⟩

theorem stop_le_of_apply (hcontext : ∀ a ∈ applications hunks lines, a.TrimsContext)
    (hdisjoint : (applications hunks lines).Pairwise fun a b => b.stop ≤ a.start) :
    ∀ a ∈ applications hunks lines, a.stop ≤ lines.length := by
  cases hunks with
  | nil => nofun
  | cons hunk hunks =>
    obtain ⟨a, hfound, hlines, rfl, -, happ⟩ := found_of_apply_cons h
    rw [happ] at hcontext hdisjoint ⊢
    obtain ⟨before, after, hstart, hstop, hsource, -⟩ :=
      hfound.keepsEdits (hcontext a mem_cons_self)
    have hlength := congrArg List.length (hlines.symm.trans hsource)
    simp only [length_append] at hlength
    refine forall_mem_cons.mpr ⟨by omega, fun b hb => ?_⟩
    have hle := (pairwise_cons.mp hdisjoint).1 b hb
    omega

/-- Hunks that are applied one before the other: what lies after the last range is edited, and what
lies before it is as it was. -/
theorem edited_of_apply (heq : lines = before ++ new)
    (hcontext : ∀ a ∈ applications hunks lines, a.TrimsContext)
    (hdisjoint : (applications hunks lines).Pairwise fun a b => b.stop ≤ a.start)
    (hbefore : ∀ a ∈ applications hunks lines, a.stop ≤ before.length)
    (hedited : Edited edits old new) :
    Edited (((applications hunks lines).map (·.middle)).reverse ++ edits) (before ++ old)
      newLines := by
  induction hunks generalizing lines before old new edits with
  | nil =>
    cases h
    rw [heq]
    exact hedited.append before
  | cons hunk hunks ih =>
    obtain ⟨a, hfound, hlines, rfl, h, happ⟩ := found_of_apply_cons h
    rw [happ] at hcontext hdisjoint hbefore ⊢
    obtain ⟨hcontext0, hcontext⟩ := forall_mem_cons.mp hcontext
    obtain ⟨hbefore0, -⟩ := forall_mem_cons.mp hbefore
    obtain ⟨hdisjoint0, hdisjoint⟩ := pairwise_cons.mp hdisjoint
    obtain ⟨first, after, hstart, hstop, hsource, htarget⟩ := hfound.keepsEdits hcontext0
    -- the range lies in the part of the lines that is not edited yet
    have hle : (first ++ sourceLines a.middle).length ≤ before.length := by
      rw [length_append, hstop]
      exact hbefore0
    obtain ⟨unchanged, hsplit⟩ : ∃ unchanged, before = first ++ sourceLines a.middle ++ unchanged :=
      (prefix_of_prefix_length_le ⟨after, hsource.symm.trans hlines⟩ ⟨new, heq.symm⟩ hle).imp
        fun _ => Eq.symm
    have hafter : after = unchanged ++ new := by
      rw [hlines, heq, hsplit, append_assoc _ unchanged] at hsource
      exact (append_cancel_left hsource).symm
    have hnext : a.result = first ++ ([] ++ targetLines a.middle ++ (unchanged ++ new)) := by
      rw [htarget, hafter, append_assoc, nil_append]
    have hedit : Edited (a.middle :: edits) _ _ := .cons [] (hedited.append unchanged)
    have hrest := ih h hnext hcontext hdisjoint (fun b hb =>
        (hdisjoint0 b hb).trans_eq hstart.symm) hedit
    rw [map_cons, reverse_cons, append_assoc, hsplit]
    simpa only [append_assoc, nil_append, cons_append] using hrest

end Applied

end Bz.Bzlmod.Patch
