import Mathlib.Data.List.AList
import Mathlib.Order.MinMax

/-!
# Version numbers and version ranges

Model of `VersionRange` of `dice/src/versions.rs`.  A `VersionNumber` is a `Nat`.  A
`VersionRange` is a half-open interval with an optional end; the assertion of `VersionRange::new`
is a field of the structure, so that an empty range cannot be built.

Principal results: `mem_of_intersect`, `intersect_eq_none`, `mem_of_merge`.
-/

namespace Bz.Dice

/-- `VersionRange`: an inclusive begin and an optional exclusive end (`none` is unbounded). -/
structure VersionRange where
  begin : Nat
  endAt : Option Nat
  /-- The assertion of `VersionRange::new`. -/
  valid : ∀ e ∈ endAt, begin < e
  deriving DecidableEq

namespace VersionRange

def bounded (b e : Nat) (h : b < e) : VersionRange :=
  ⟨b, some e, by simpa using h⟩

def beginsWith (b : Nat) : VersionRange :=
  ⟨b, none, by simp⟩

/-- The range `[v, v + 1)` that the graph inserts for a computed version. -/
def single (v : Nat) : VersionRange := bounded v (v + 1) (Nat.lt_succ_self v)

/-- `RangeBounds::contains`. -/
instance : Membership Nat VersionRange where
  mem r v := r.begin ≤ v ∧ ∀ e ∈ r.endAt, v < e

variable {r s t : VersionRange} {v b : Nat}

theorem mem_def : v ∈ r ↔ r.begin ≤ v ∧ ∀ e ∈ r.endAt, v < e := Iff.rfl

instance (v : Nat) (r : VersionRange) : Decidable (v ∈ r) :=
  inferInstanceAs (Decidable (_ ∧ _))

/-- `is_between_end_inclusive`: the range contains `v` or ends at `v`. -/
def Touches (r : VersionRange) (v : Nat) : Prop :=
  r.begin ≤ v ∧ ∀ e ∈ r.endAt, v ≤ e

instance (r : VersionRange) (v : Nat) : Decidable (r.Touches v) :=
  inferInstanceAs (Decidable (_ ∧ _))

theorem touches_of_mem (h : v ∈ r) : r.Touches v :=
  ⟨h.1, fun e he => (h.2 e he).le⟩

@[simp] theorem mem_bounded {e : Nat} {h : b < e} : v ∈ bounded b e h ↔ b ≤ v ∧ v < e := by
  simp [mem_def, bounded]

@[simp] theorem mem_beginsWith : v ∈ beginsWith b ↔ b ≤ v := by
  simp [mem_def, beginsWith]

@[simp] theorem mem_single {w : Nat} : v ∈ single w ↔ v = w := by
  simp only [single, mem_bounded]; omega

theorem begin_mem (r : VersionRange) : r.begin ∈ r := ⟨le_rfl, r.valid⟩

/-- The smaller of two ends, as `VersionRange::intersect` computes it. -/
def minEnd : Option Nat → Option Nat → Option Nat
  | some x, some y => some (min x y)
  | none, y => y
  | x, none => x

/-- The larger of two ends, as `VersionRange::merge_unchecked` computes it. -/
def maxEnd : Option Nat → Option Nat → Option Nat
  | none, _ => none
  | _, none => none
  | some x, some y => some (max x y)

theorem forall_mem_minEnd (x y : Option Nat) :
    (∀ e ∈ minEnd x y, v < e) ↔ (∀ e ∈ x, v < e) ∧ ∀ e ∈ y, v < e := by
  cases x <;> cases y <;> simp [minEnd]

theorem forall_mem_maxEnd (x y : Option Nat) :
    (∀ e ∈ maxEnd x y, v < e) ↔ (∀ e ∈ x, v < e) ∨ ∀ e ∈ y, v < e := by
  cases x <;> cases y <;> simp [maxEnd]

def intersect (r s : VersionRange) : Option VersionRange :=
  if h : r.begin ∈ s ∨ s.begin ∈ r then
    some
      { begin := max r.begin s.begin
        endAt := minEnd r.endAt s.endAt
        valid := by
          rw [forall_mem_minEnd]
          rcases h with h | h
          · rw [max_eq_left h.1]; exact ⟨r.valid, h.2⟩
          · rw [max_eq_right h.1]; exact ⟨h.2, s.valid⟩ }
  else none

def mergeUnchecked (r s : VersionRange) : VersionRange where
  begin := min r.begin s.begin
  endAt := maxEnd r.endAt s.endAt
  valid := by
    rw [forall_mem_maxEnd]
    rcases le_total r.begin s.begin with h | h
    · exact .inl (by rw [min_eq_left h]; exact r.valid)
    · exact .inr (by rw [min_eq_right h]; exact s.valid)

def merge (r s : VersionRange) : Option VersionRange :=
  if s.Touches r.begin ∨ r.Touches s.begin then some (mergeUnchecked r s) else none

theorem mem_of_intersect (h : r.intersect s = some t) : v ∈ t ↔ v ∈ r ∧ v ∈ s := by
  unfold intersect at h
  split at h
  · cases h
    rw [mem_def, mem_def, mem_def, forall_mem_minEnd, max_le_iff]
    tauto
  · cases h

theorem intersect_eq_none (h : r.intersect s = none) (hr : v ∈ r) : v ∉ s := by
  intro hs
  unfold intersect at h
  split at h
  · cases h
  · next hn =>
    rcases le_total r.begin s.begin with hle | hle
    · exact hn (.inr ⟨hle, fun e he => hs.1.trans_lt (hr.2 e he)⟩)
    · exact hn (.inl ⟨hle, fun e he => hr.1.trans_lt (hs.2 e he)⟩)

theorem mem_mergeUnchecked (h : s.Touches r.begin ∨ r.Touches s.begin) :
    v ∈ mergeUnchecked r s ↔ v ∈ r ∨ v ∈ s := by
  obtain ⟨b, e, hv⟩ := r
  obtain ⟨c, f, hw⟩ := s
  simp only [Touches, mem_def, mergeUnchecked, forall_mem_maxEnd] at *
  cases e <;> cases f <;> simp at * <;> omega

theorem merge_eq_some (h : r.merge s = some t) :
    t = mergeUnchecked r s ∧ (s.Touches r.begin ∨ r.Touches s.begin) := by
  unfold merge at h
  split at h
  · next hc => exact ⟨(Option.some.inj h).symm, hc⟩
  · cases h

theorem mem_of_merge (h : r.merge s = some t) : v ∈ t ↔ v ∈ r ∨ v ∈ s := by
  obtain ⟨rfl, hc⟩ := merge_eq_some h
  exact mem_mergeUnchecked hc

theorem merge_eq_none (h : r.merge s = none) : ¬ s.Touches r.begin ∧ ¬ r.Touches s.begin := by
  unfold merge at h
  split at h
  · cases h
  · next hc => exact not_or.mp hc

/-- `Ord::cmp` on the ends: `None` is larger than every version. -/
def endLt : Option Nat → Option Nat → Bool
  | none, _ => false
  | some _, none => true
  | some x, some y => decide (x < y)

/-- `Ord for VersionRange`, as `<`: by begin, then by end. -/
def lt (r s : VersionRange) : Bool :=
  decide (r.begin < s.begin) || (decide (r.begin = s.begin) && endLt r.endAt s.endAt)

theorem begin_le_of_lt (h : r.lt s = true) : r.begin ≤ s.begin := by
  simp only [lt, Bool.or_eq_true, Bool.and_eq_true, decide_eq_true_eq] at h
  omega

theorem begin_le_of_not_lt (h : r.lt s = false) : s.begin ≤ r.begin := by
  simp only [lt, Bool.or_eq_false_iff, decide_eq_false_iff_not] at h
  omega

/-- `r` ends before `s` begins, with a gap between them. -/
def Before (r s : VersionRange) : Prop := ∃ e ∈ r.endAt, e < s.begin

instance (r s : VersionRange) : Decidable (r.Before s) :=
  match h : r.endAt with
  | none => isFalse (by rintro ⟨e, he, -⟩; simp [h] at he)
  | some e =>
    if he : e < s.begin then isTrue ⟨e, h, he⟩
    else isFalse (by rintro ⟨e', he', hlt⟩; rw [h] at he'; cases he'; exact he hlt)

theorem Before.lt_begin (h : r.Before s) : r.begin < s.begin := by
  obtain ⟨e, he, hlt⟩ := h
  exact (r.valid e he).trans hlt

theorem Before.trans (h1 : r.Before s) (h2 : s.Before t) : r.Before t := by
  obtain ⟨e, he, hlt⟩ := h1
  exact ⟨e, he, hlt.trans h2.lt_begin⟩

theorem Before.not_touches (h : r.Before s) (hr : r.Touches v) : ¬ s.Touches v := by
  obtain ⟨e, he, hlt⟩ := h
  intro hs
  exact absurd (hr.2 e he) (not_le.mpr (hlt.trans_le hs.1))

end VersionRange

end Bz.Dice
