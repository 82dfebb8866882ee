import Mathlib.Data.List.TakeWhile
import Bz.Dice.VersionRange

/-!
# Sets of version ranges

Model of `VersionRanges` of `dice/src/versions.rs`: the sorted vector of the source, bundled with
the fact that its ranges are sorted, disjoint and not adjacent.  The functions on the underlying
vector follow the loops of the source; `slice::partition_point` on these sorted vectors is
`takeWhile`/`dropWhile`, and the two `peekable` iterators of `union` and `intersect` merge their
ranges in the order of `VersionRange`.

Principal results: `mem_union`, `mem_insert`, `mem_intersect`, `mem_intersectRange`;
`findValueUpperBound_spec`, the scan from the back finds the largest contained version that is at
most the one asked for; `unbounded_iff_cofinal`.
-/

namespace Bz.Dice

open VersionRange VersionRange.Before List
open VersionRange (Before)

/-! ## Canonical lists of ranges -/

/-- Sorted, disjoint and not adjacent. -/
abbrev Canonical (rs : List VersionRange) : Prop := rs.Pairwise Before

/-- Some range of the list contains `v`. -/
def Covers (rs : List VersionRange) (v : Nat) : Prop := ∃ r ∈ rs, v ∈ r

instance (rs : List VersionRange) (v : Nat) : Decidable (Covers rs v) :=
  inferInstanceAs (Decidable (∃ r ∈ rs, v ∈ r))

variable {v : Nat} {r s t : VersionRange} {rs other this : List VersionRange}
  {out seen : List VersionRange} {pending : Option VersionRange} {p : VersionRange → Bool}

@[simp] theorem covers_nil : ¬ Covers [] v := by simp [Covers]

@[simp] theorem covers_cons : Covers (r :: rs) v ↔ v ∈ r ∨ Covers rs v := by simp [Covers]

@[simp] theorem covers_append {ss : List VersionRange} :
    Covers (rs ++ ss) v ↔ Covers rs v ∨ Covers ss v := by
  simp [Covers, or_and_right, exists_or]

@[simp] theorem covers_reverse : Covers rs.reverse v ↔ Covers rs v := by simp [Covers]

theorem canonical_concat : Canonical (rs ++ [s]) ↔ Canonical rs ∧ ∀ r ∈ rs, r.Before s := by
  simp [Canonical, pairwise_append]

theorem Canonical.eq_or_before (h : Canonical rs) (hs : rs.getLast? = some s) (hr : r ∈ rs) :
    r = s ∨ r.Before s := by
  obtain ⟨init, rfl⟩ := getLast?_eq_some_iff.mp hs
  rcases mem_append.mp hr with hr | hr
  · exact .inr ((canonical_concat.mp h).2 r hr)
  · exact .inl (mem_singleton.mp hr)

/-- At most one range of a canonical list touches a version. -/
theorem Canonical.countP_touches_le (h : Canonical rs) (v : Nat) :
    rs.countP (fun r => decide (r.Touches v)) ≤ 1 := by
  induction rs with
  | nil => simp
  | cons r rs ih =>
    by_cases hv : r.Touches v
    · have hz : rs.countP (fun r => decide (r.Touches v)) = 0 := by
        simpa [countP_eq_zero] using fun s hs => ((pairwise_cons.mp h).1 s hs).not_touches hv
      simp [hz, hv]
    · simpa [countP_cons, hv] using ih (pairwise_cons.mp h).2

/-! ## `find_value_upper_bound` -/

/-- The loop of `find_value_upper_bound`, over the ranges from the last to the first. -/
def findValueUpperBoundRev (v : Nat) : List VersionRange → Option Nat
  | [] => none
  | r :: rs =>
    if r.begin ≤ v then
      match r.endAt with
      | none => some v
      | some e => if v < e then some v else some (e - 1)
    else findValueUpperBoundRev v rs

/-- `o` is the largest version at most `v` that the list covers. -/
def IsUpperBound (rs : List VersionRange) (v : Nat) : Option Nat → Prop
  | some u => u ≤ v ∧ Covers rs u ∧ ∀ w, Covers rs w → w ≤ v → w ≤ u
  | none => ∀ w, Covers rs w → v < w

theorem IsUpperBound.cons {o : Option Nat} (hr : ¬ r.begin ≤ v) (h : IsUpperBound rs v o) :
    IsUpperBound (r :: rs) v o := by
  cases o with
  | some u =>
    obtain ⟨h1, h2, h3⟩ := h
    refine ⟨h1, covers_cons.mpr (.inr h2), fun w hw hwv => ?_⟩
    rcases covers_cons.mp hw with hw | hw
    · exact absurd (hw.1.trans hwv) hr
    · exact h3 w hw hwv
  | none =>
    intro w hw
    rcases covers_cons.mp hw with hw | hw
    · exact (not_le.mp hr).trans_le hw.1
    · exact h w hw

theorem findValueUpperBoundRev_spec (hc : rs.Pairwise fun r s => Before s r) :
    IsUpperBound rs v (findValueUpperBoundRev v rs) := by
  induction rs with
  | nil => simp [findValueUpperBoundRev, IsUpperBound]
  | cons r rs ih =>
    obtain ⟨hr, hrs⟩ := pairwise_cons.mp hc
    -- every version of a later (smaller) range lies below the begin of `r`
    have hbelow : ∀ w, Covers rs w → w < r.begin := by
      rintro w ⟨s, hs, hw⟩
      obtain ⟨e, he, hlt⟩ := hr s hs
      exact (hw.2 e he).trans hlt
    by_cases hb : r.begin ≤ v
    · rw [findValueUpperBoundRev, if_pos hb]
      cases he : r.endAt with
      | none => exact ⟨le_rfl, covers_cons.mpr (.inl ⟨hb, by simp [he]⟩), fun w _ hw => hw⟩
      | some e =>
        have hbe : r.begin < e := r.valid e he
        by_cases hve : v < e
        · simp only [hve, if_true]
          exact ⟨le_rfl, covers_cons.mpr (.inl ⟨hb, by simpa [he] using hve⟩), fun w _ hw => hw⟩
        · simp only [hve, if_false]
          refine ⟨by omega, covers_cons.mpr (.inl ⟨by omega, ?_⟩), fun w hw _ => ?_⟩
          · simp only [he, Option.mem_some_iff, forall_eq']
            omega
          · rcases covers_cons.mp hw with hw | hw
            · have := hw.2 e he
              omega
            · have := hbelow w hw
              omega
    · rw [findValueUpperBoundRev, if_neg hb]
      exact (ih hrs).cons hb

theorem isUpperBound_reverse {o : Option Nat} :
    IsUpperBound rs.reverse v o ↔ IsUpperBound rs v o := by
  cases o <;> simp [IsUpperBound]

/-- What can panic in `find_value_upper_bound`. -/
inductive UpperBoundPanic where
  | unwrap
  | underflow
  | assertion

/-- The loop of `find_value_upper_bound` with its `unwrap`, `dec` and `assert!`. -/
def findValueUpperBoundLoop (v : Nat) : List VersionRange → Except UpperBoundPanic (Option Nat)
  | [] => .ok none
  | r :: rs =>
    if r.begin ≤ v then
      if v ∈ r then .ok (some v)
      else match r.endAt with
        | none => .error .unwrap
        | some 0 => .error .underflow
        | some (e + 1) => if e < v then .ok (some e) else .error .assertion
    else findValueUpperBoundLoop v rs

/-- No check of the loop fails: a range that begins by `v` and does not contain it has an end. -/
theorem findValueUpperBoundLoop_eq :
    findValueUpperBoundLoop v rs = .ok (findValueUpperBoundRev v rs) := by
  induction rs with
  | nil => rfl
  | cons r rs ih =>
    rw [findValueUpperBoundLoop, findValueUpperBoundRev]
    by_cases hb : r.begin ≤ v
    · rw [if_pos hb, if_pos hb]
      cases he : r.endAt with
      | none => rw [if_pos ⟨hb, by simp [he]⟩]
      | some e =>
        have hbe : r.begin < e := r.valid e he
        have hmem : v ∈ r ↔ v < e := by simp [mem_def, he, hb]
        by_cases hve : v < e
        · rw [if_pos (hmem.mpr hve)]
          exact congrArg Except.ok (if_pos hve).symm
        · rw [if_neg (mt hmem.mp hve)]
          obtain ⟨e, rfl⟩ : ∃ n, e = n + 1 := ⟨e - 1, by omega⟩
          have hlt : e < v := by omega
          simp [hlt, hve]
    · rw [if_neg hb, if_neg hb, ih]

/-! ## `union_range` -/

/-- A predicate that, once false, stays false: `partition_point` and `dropWhile` agree. -/
theorem not_of_mem_dropWhile (h : rs.Pairwise fun r s => p s → p r) (hs : s ∈ rs.dropWhile p) :
    p s = false := by
  induction rs with
  | nil => simp at hs
  | cons r rs ih =>
    obtain ⟨hr, hrs⟩ := pairwise_cons.mp h
    rw [dropWhile_cons] at hs
    split at hs
    · exact ih hrs hs
    · next hp =>
      rcases mem_cons.mp hs with rfl | hs
      · simpa using hp
      · by_contra hne
        exact hp (hr s hs (by simpa using hne))

/-- The end of `union_range`: the last further range that begins inside `merged` extends it, and all
of those ranges are drained. -/
def absorb (merged : VersionRange) (rest : List VersionRange) : List VersionRange :=
  let overlaps := fun s : VersionRange => merged.endAt.all fun e => decide (s.begin ≤ e)
  match (rest.takeWhile overlaps).getLast? with
  | some last => merged.mergeUnchecked last :: rest.dropWhile overlaps
  | none => merged :: rest.dropWhile overlaps

/-- `VersionRanges::union_range` on the underlying vector. -/
def unionRangeList (rs : List VersionRange) (range : VersionRange) : List VersionRange :=
  let before := rs.takeWhile fun r => decide (r.Before range)
  match rs.dropWhile fun r => decide (r.Before range) with
  | [] => before ++ [range]
  | r :: rest =>
    match r.merge range with
    | none => before ++ range :: r :: rest
    | some merged => before ++ absorb merged rest

theorem VersionRange.Before.of_end (hb : r.begin ≤ s.begin) (h : ¬ r.Touches s.begin) :
    r.Before s := by
  by_contra hne
  refine h ⟨hb, fun e he => ?_⟩
  by_contra hlt
  exact hne ⟨e, he, not_le.mp hlt⟩

theorem VersionRange.Before.mergeUnchecked (hr : r.Before t) (hs : s.Before t) :
    (r.mergeUnchecked s).Before t := by
  obtain ⟨e, he, hlt⟩ := hr
  obtain ⟨f, hf, hlt'⟩ := hs
  refine ⟨max e f, ?_, max_lt hlt hlt'⟩
  rw [Option.mem_def] at he hf ⊢
  simp [VersionRange.mergeUnchecked, VersionRange.maxEnd, he, hf]

theorem VersionRange.Before.of_begin_le (h : r.Before s) (hle : s.begin ≤ t.begin) :
    r.Before t := by
  obtain ⟨e, he, hlt⟩ := h
  exact ⟨e, he, hlt.trans_le hle⟩

/-- `absorb` keeps the set, the begin of `merged`, and canonicity. -/
theorem absorb_spec {merged : VersionRange} {rest : List VersionRange} (hc : Canonical rest)
    (hb : ∀ s ∈ rest, merged.begin ≤ s.begin) :
    (∀ v, Covers (absorb merged rest) v ↔ v ∈ merged ∨ Covers rest v) ∧
      Canonical (absorb merged rest) ∧ ∀ s ∈ absorb merged rest, merged.begin ≤ s.begin := by
  set overlaps := fun s : VersionRange => merged.endAt.all fun e => decide (s.begin ≤ e) with hov
  have htouch : ∀ s ∈ rest, overlaps s ↔ merged.Touches s.begin := by
    intro s hs
    simp only [hov, VersionRange.Touches, hb s hs, true_and]
    cases merged.endAt <;> simp
  have hsplit : rest.takeWhile overlaps ++ rest.dropWhile overlaps = rest :=
    takeWhile_append_dropWhile
  have hdropc : Canonical (rest.dropWhile overlaps) := hc.sublist (dropWhile_sublist _)
  -- the drained ranges are exactly those that begin inside `merged`
  have hdrop : ∀ s ∈ rest.dropWhile overlaps, merged.Before s := by
    intro s hs
    have hmem : s ∈ rest := (dropWhile_sublist _).subset hs
    refine of_end (hb s hmem) fun ht => ?_
    have hf : overlaps s = false := by
      refine not_of_mem_dropWhile (hc.imp_of_mem fun {r t} hr ht hrt hpt => ?_) hs
      rw [htouch t ht] at hpt
      rw [htouch r hr]
      exact ⟨hb r hr, fun e he => hrt.lt_begin.le.trans (hpt.2 e he)⟩
    rw [(htouch s hmem).mpr ht] at hf
    cases hf
  -- the range in front covers the drained ones
  obtain ⟨first, heq, hbegin, hbefore, hmem⟩ : ∃ first,
      absorb merged rest = first :: rest.dropWhile overlaps ∧ first.begin = merged.begin ∧
      (∀ s ∈ rest.dropWhile overlaps, first.Before s) ∧
      ∀ v, v ∈ first ↔ v ∈ merged ∨ Covers (rest.takeWhile overlaps) v := by
    cases hl : (rest.takeWhile overlaps).getLast? with
    | none =>
      refine ⟨merged, by simp only [absorb, ← hov, hl], rfl, hdrop, fun v => ?_⟩
      simp [getLast?_eq_none_iff.mp hl]
    | some last =>
      obtain ⟨init, hinit⟩ := getLast?_eq_some_iff.mp hl
      rw [hinit] at hsplit ⊢
      have hlmem : last ∈ rest := by rw [← hsplit]; simp
      have hlt : merged.Touches last.begin := by
        refine (htouch last hlmem).mp ?_
        have : last ∈ rest.takeWhile overlaps := by rw [hinit]; simp
        exact mem_takeWhile_imp this
      obtain ⟨hinitc, -, hcross⟩ := pairwise_append.mp (hsplit ▸ hc)
      refine ⟨merged.mergeUnchecked last, by simp only [absorb, ← hov, hl],
        min_eq_left (hb last hlmem), fun s hs => ?_, fun v => ?_⟩
      · exact (hdrop s hs).mergeUnchecked (hcross last (by simp) s hs)
      · -- the ranges before `last` end before it begins, hence lie inside `merged`
        have hin : Covers init v → v ∈ merged := by
          rintro ⟨s, hs, hv⟩
          obtain ⟨e, he, hel⟩ := (canonical_concat.mp hinitc).2 s hs
          have hsm : s ∈ rest := by rw [← hsplit]; simp [hs]
          exact ⟨(hb s hsm).trans hv.1, fun f hf => (hv.2 e he).trans (hel.trans_le (hlt.2 f hf))⟩
        rw [mem_mergeUnchecked (.inr hlt), covers_append, covers_cons]
        simp only [covers_nil, or_false]
        tauto
  rw [heq]
  refine ⟨fun v => ?_, pairwise_cons.mpr ⟨hbefore, hdropc⟩, ?_⟩
  · conv_rhs => rw [← hsplit]
    rw [covers_cons, covers_append, hmem, or_assoc]
  · rintro s (_ | ⟨_, hs⟩)
    · exact hbegin.ge
    · exact (hdrop s hs).lt_begin.le

theorem unionRangeList_spec (hc : Canonical rs) (range : VersionRange) :
    (∀ v, Covers (unionRangeList rs range) v ↔ Covers rs v ∨ v ∈ range) ∧
      Canonical (unionRangeList rs range) := by
  set p := fun r : VersionRange => decide (r.Before range) with hp
  have hsplit : rs.takeWhile p ++ rs.dropWhile p = rs := takeWhile_append_dropWhile
  have hbefore : ∀ r ∈ rs.takeWhile p, r.Before range := fun r hr => by
    simpa [hp] using mem_takeWhile_imp hr
  have hc' : Canonical (rs.takeWhile p ++ rs.dropWhile p) := hsplit.symm ▸ hc
  obtain ⟨htake, hdrop, hcross⟩ := pairwise_append.mp hc'
  have hnot : ∀ r ∈ rs.dropWhile p, ¬ r.Before range := by
    intro r hr
    have := not_of_mem_dropWhile (p := p) (hc.imp fun {r s} hrs hps => by
        simp only [hp, decide_eq_true_eq] at hps ⊢
        exact hrs.trans hps) hr
    simpa [hp] using this
  -- what follows the ranges before `range`
  obtain ⟨tail, heq, htail, hcross, hcov⟩ : ∃ tail, unionRangeList rs range =
      rs.takeWhile p ++ tail ∧
      Canonical tail ∧ (∀ a ∈ rs.takeWhile p, ∀ b ∈ tail, a.Before b) ∧
      ∀ v, Covers tail v ↔ Covers (rs.dropWhile p) v ∨ v ∈ range := by
    cases hd : rs.dropWhile p with
    | nil =>
      refine ⟨[range], by simp only [unionRangeList, ← hp, hd], by simp, fun a ha b hb => ?_,
        by simp⟩
      rw [mem_singleton.mp hb]
      exact hbefore a ha
    | cons r rest =>
      rw [hd] at hdrop hcross hnot
      have hnr := hnot r (by simp)
      obtain ⟨hrrest, hrest⟩ := pairwise_cons.mp hdrop
      cases hm : r.merge range with
      | none =>
        obtain ⟨hnt, hnt'⟩ := merge_eq_none hm
        have hle : range.begin ≤ r.begin := by
          by_contra hlt
          exact hnr (of_end (not_le.mp hlt).le hnt')
        have hrange : range.Before r := of_end hle hnt
        refine ⟨range :: r :: rest, by simp only [unionRangeList, ← hp, hd, hm],
          pairwise_cons.mpr ⟨?_, hdrop⟩, fun a ha b hb => ?_, fun v => ?_⟩
        · rintro s (_ | ⟨_, hs⟩)
          · exact hrange
          · exact hrange.trans (hrrest s hs)
        · rcases mem_cons.mp hb with rfl | hb
          · exact hbefore a ha
          · exact hcross a ha b hb
        · rw [covers_cons, or_comm]
      | some merged =>
        obtain ⟨rfl, htouch⟩ := merge_eq_some hm
        obtain ⟨hcov, hcan, hbeg⟩ := @absorb_spec (r.mergeUnchecked range) rest hrest
          (fun s hs => (min_le_left _ _).trans (hrrest s hs).lt_begin.le)
        refine ⟨absorb (r.mergeUnchecked range) rest, by simp only [unionRangeList, ← hp, hd, hm],
          hcan, fun a ha b hb => ?_, fun v => ?_⟩
        · refine of_begin_le (s := r.mergeUnchecked range) ?_ (hbeg b hb)
          obtain ⟨e, he, hlt⟩ := hcross a ha r (by simp)
          obtain ⟨f, hf, hlt'⟩ := hbefore a ha
          cases he.symm.trans hf
          exact ⟨e, he, lt_min hlt hlt'⟩
        · rw [hcov, covers_cons, mem_mergeUnchecked htouch]
          tauto
  rw [heq]
  refine ⟨fun v => ?_, pairwise_append.mpr ⟨htake, htail, hcross⟩⟩
  conv_rhs => rw [← hsplit]
  rw [covers_append, covers_append, hcov, or_assoc]

/-! ## The sweeps of `union` and `intersect` -/

/-- Takes ranges of the other set until `r` is the smaller one. -/
def sweepFrom (r : VersionRange) (next : List VersionRange → List VersionRange) :
    List VersionRange → List VersionRange
  | [] => r :: next []
  | s :: other => if r.lt s then r :: next (s :: other) else s :: sweepFrom r next other

/-- The order in which both sweeps visit the ranges of the two sets, through two `peekable`
iterators. -/
def sweepOrder : List VersionRange → List VersionRange → List VersionRange
  | [] => id
  | r :: this => sweepFrom r (sweepOrder this)

theorem sweepOrder_eq_merge : sweepOrder this other = this.merge other lt := by
  induction this generalizing other with
  | nil => simp [sweepOrder]
  | cons r this iht =>
    induction other with
    | nil => simp [sweepOrder, sweepFrom, iht]
    | cons s other iho =>
      rw [sweepOrder, sweepFrom, cons_merge_cons, ← iht]
      split
      · rfl
      · rw [← iho]; rfl

theorem sweepOrder_perm (this other : List VersionRange) :
    (sweepOrder this other).Perm (this ++ other) := by
  rw [sweepOrder_eq_merge]
  exact merge_perm_append _

theorem covers_sweepOrder : Covers (sweepOrder this other) v ↔ Covers this v ∨ Covers other v := by
  rw [← covers_append]
  exact exists_congr fun r => and_congr_left' (sweepOrder_perm this other).mem_iff

theorem sweepOrder_sorted (ht : Canonical this) (ho : Canonical other) :
    (sweepOrder this other).Pairwise fun r s => r.begin ≤ s.begin := by
  rw [sweepOrder_eq_merge]
  induction this generalizing other with
  | nil => simpa using ho.imp fun h => h.lt_begin.le
  | cons r this iht =>
    obtain ⟨hr, ht'⟩ := pairwise_cons.mp ht
    induction other with
    | nil => simpa using ht.imp fun h => h.lt_begin.le
    | cons s other iho =>
      obtain ⟨hs, ho'⟩ := pairwise_cons.mp ho
      rw [cons_merge_cons]
      split
      · next hlt =>
        refine pairwise_cons.mpr ⟨fun t htm => ?_, iht ht' ho⟩
        rcases mem_append.mp ((merge_perm_append _).mem_iff.mp htm) with h | h
        · exact (hr t h).lt_begin.le
        · rcases mem_cons.mp h with rfl | h
          · exact begin_le_of_lt hlt
          · exact (begin_le_of_lt hlt).trans (hs t h).lt_begin.le
      · next hlt =>
        have hle : s.begin ≤ r.begin := begin_le_of_not_lt (by simpa using hlt)
        refine pairwise_cons.mpr ⟨fun t htm => ?_, iho ho'⟩
        rcases mem_append.mp ((merge_perm_append _).mem_iff.mp htm) with h | h
        · rcases mem_cons.mp h with rfl | h
          · exact hle
          · exact hle.trans (hr t h).lt_begin.le
        · exact (hs t h).lt_begin.le

/-- One iteration of the loop of `union`: the pending range and the ranges already output. -/
def unionStep (st : Option VersionRange × List VersionRange) (smaller : VersionRange) :
    Option VersionRange × List VersionRange :=
  match st with
  | (none, out) => (some smaller, out)
  | (some last, out) =>
    match last.merge smaller with
    | some merged => (some merged, out)
    | none => (some smaller, out ++ [last])

/-- `VersionRanges::union` on the underlying vectors. -/
def unionList (this other : List VersionRange) : List VersionRange :=
  let (pending, out) := (sweepOrder this other).foldl unionStep (none, [])
  out ++ pending.toList

/-- What one round of `union` keeps: what is output so far, with the pending range. -/
theorem unionStep_spec (hc : Canonical (out ++ pending.toList))
    (hp : ∀ p ∈ pending, p.begin ≤ r.begin) (hnone : pending = none → out = []) :
    ∃ p out', unionStep (pending, out) r = (some p, out') ∧ p.begin ≤ r.begin ∧
      Canonical (out' ++ [p]) ∧
      ∀ v, Covers (out' ++ [p]) v ↔ Covers (out ++ pending.toList) v ∨ v ∈ r := by
  cases pending with
  | none =>
    obtain rfl := hnone rfl
    exact ⟨r, [], rfl, le_rfl, by simp, by simp⟩
  | some last =>
    have hlr : last.begin ≤ r.begin := hp last rfl
    obtain ⟨hout, hcross⟩ := canonical_concat.mp hc
    cases hm : last.merge r with
    | none =>
      have hb : last.Before r := of_end hlr (merge_eq_none hm).2
      refine ⟨r, out ++ [last], by simp [unionStep, hm], le_rfl, canonical_concat.mpr ⟨hc, ?_⟩,
        by simp [or_assoc]⟩
      intro a ha
      rcases mem_append.mp ha with ha | ha
      · exact (hcross a ha).trans hb
      · rw [mem_singleton.mp ha]
        exact hb
    | some merged =>
      have hbegin : merged.begin = last.begin := by
        rw [(merge_eq_some hm).1]
        exact min_eq_left hlr
      refine ⟨merged, out, by simp [unionStep, hm], hbegin.trans_le hlr,
        canonical_concat.mpr ⟨hout, fun a ha => (hcross a ha).of_begin_le hbegin.ge⟩, fun v => ?_⟩
      simp [mem_of_merge hm, or_assoc]

theorem foldl_unionStep_spec (hsort : rs.Pairwise fun r s => r.begin ≤ s.begin)
    (hc : Canonical (out ++ pending.toList))
    (hp : ∀ p ∈ pending, ∀ r ∈ rs, p.begin ≤ r.begin) (hnone : pending = none → out = []) :
    let st := rs.foldl unionStep (pending, out)
    Canonical (st.2 ++ st.1.toList) ∧
      ∀ v, Covers (st.2 ++ st.1.toList) v ↔ Covers (out ++ pending.toList) v ∨ Covers rs v := by
  induction rs generalizing pending out with
  | nil => exact ⟨hc, by simp⟩
  | cons r rs ih =>
    obtain ⟨hr, hsort'⟩ := pairwise_cons.mp hsort
    obtain ⟨p, out', heq, hpr, hc', hcov⟩ :=
      unionStep_spec hc (fun p hmem => hp p hmem r mem_cons_self) hnone
    rw [foldl_cons, heq]
    have hp' : ∀ q ∈ some p, ∀ s ∈ rs, q.begin ≤ s.begin := fun q hq s hs =>
      Option.mem_some.mp hq ▸ hpr.trans (hr s hs)
    obtain ⟨hcan, hcov'⟩ := ih hsort' hc' hp' nofun
    refine ⟨hcan, fun v => ?_⟩
    rw [hcov', Option.toList_some, hcov, covers_cons, or_assoc]

theorem unionList_spec (ht : Canonical this) (ho : Canonical other) :
    (∀ v, Covers (unionList this other) v ↔ Covers this v ∨ Covers other v) ∧
      Canonical (unionList this other) := by
  obtain ⟨hcan, hcov⟩ := foldl_unionStep_spec (sweepOrder_sorted ht ho)
    (show Canonical ([] ++ none.toList) by simp) (by simp) (by simp)
  exact ⟨fun v => (hcov v).trans (by simp [covers_sweepOrder]), hcan⟩

/-- `cmp::max_by` on the ends, as `intersect` uses it: the second argument wins a tie. -/
def maxByEnd (r s : VersionRange) : VersionRange :=
  if endLt s.endAt r.endAt then r else s

/-- One iteration of the loop of `intersect`. -/
def intersectStep (st : Option VersionRange × List VersionRange) (smaller : VersionRange) :
    Option VersionRange × List VersionRange :=
  match st with
  | (none, out) => (some smaller, out)
  | (some r, out) =>
    match r.intersect smaller with
    | some both => (some (maxByEnd r smaller), out ++ [both])
    | none => (some smaller, out)

/-- `VersionRanges::intersect` on the underlying vectors. -/
def intersectList (this other : List VersionRange) : List VersionRange :=
  ((sweepOrder this other).foldl intersectStep (none, [])).2

/-- `r` ends no later than `s`. -/
def VersionRange.EndsLe (r s : VersionRange) : Prop :=
  ∀ v, (∀ e ∈ r.endAt, v < e) → ∀ e ∈ s.endAt, v < e

theorem maxByEnd_eq : maxByEnd r s = r ∨ maxByEnd r s = s := by
  unfold maxByEnd; split <;> simp

theorem endsLe_maxByEnd : r.EndsLe (maxByEnd r s) ∧ s.EndsLe (maxByEnd r s) := by
  unfold maxByEnd VersionRange.EndsLe
  cases hr : r.endAt <;> cases hs : s.endAt <;> simp [endLt, hr, hs]
  split <;> simp_all <;> omega

/-- How many ranges contain `v`. -/
def coverCount (rs : List VersionRange) (v : Nat) : Nat := rs.countP fun r => decide (v ∈ r)

/-- How many ranges contain `v` or end at it. -/
def touchCount (rs : List VersionRange) (v : Nat) : Nat :=
  rs.countP fun r => decide (r.Touches v)

theorem one_le_coverCount : 1 ≤ coverCount rs v ↔ Covers rs v := by
  simp [coverCount, Covers]

theorem coverCount_le_touchCount (rs : List VersionRange) (v : Nat) :
    coverCount rs v ≤ touchCount rs v :=
  countP_mono_left fun r _ h => by
    simpa using touches_of_mem (by simpa using h)

theorem touchCount_append_singleton :
    touchCount (rs ++ [s]) v = touchCount rs v + if s.Touches v then 1 else 0 := by
  simp [touchCount, countP_singleton]

theorem two_le_countP (h : [r, s].Sublist rs) (hr : p r) (hs : p s) : 2 ≤ rs.countP p := by
  have hle : [r, s].countP p ≤ rs.countP p := h.countP_le
  simpa [hr, hs] using hle

/-- Invariant of the loop of `intersect`: the output is what two of the ranges `seen` have in
common, and the pending range is one of them that ends last. -/
structure SweepInv (seen : List VersionRange) (pending : Option VersionRange)
    (out : List VersionRange) : Prop where
  canonical : Canonical out
  pairs : ∀ o ∈ out, ∃ r s, [r, s].Sublist seen ∧ r.intersect s = some o
  complete : ∀ v, 2 ≤ coverCount seen v → Covers out v
  last : ∀ p ∈ pending, p ∈ seen ∧ ∀ r ∈ seen, r.EndsLe p
  first : pending = none → seen = []

theorem VersionRange.touches_of_intersect (h : r.intersect s = some t) (ht : t.Touches v) :
    r.Touches v ∧ s.Touches v := by
  unfold intersect at h
  split at h
  · cases h
    obtain ⟨hb, he⟩ := ht
    simp only [max_le_iff] at hb
    refine ⟨⟨hb.1, fun e h' => ?_⟩, ⟨hb.2, fun e h' => ?_⟩⟩ <;>
      cases hr : r.endAt <;> cases hs : s.endAt <;>
      simp_all [minEnd]
  · cases h

theorem VersionRange.begin_of_intersect (h : r.intersect s = some t) :
    t.begin = max r.begin s.begin := by
  unfold intersect at h
  split at h <;> cases h
  rfl

theorem SweepInv.step (hinv : SweepInv seen pending out) (hsort : ∀ r ∈ seen, r.begin ≤ s.begin)
    (htouch : ∀ v, touchCount (seen ++ [s]) v ≤ 2) :
    SweepInv (seen ++ [s]) (intersectStep (pending, out) s).1
      (intersectStep (pending, out) s).2 := by
  have hpairs : ∀ o ∈ out, ∃ r t, [r, t].Sublist (seen ++ [s]) ∧ r.intersect t = some o := by
    intro o ho
    obtain ⟨r, t, hsub, hrt⟩ := hinv.pairs o ho
    exact ⟨r, t, hsub.trans (sublist_append_left _ _), hrt⟩
  cases pending with
  | none =>
    obtain rfl := hinv.first rfl
    refine ⟨hinv.canonical, hpairs, fun v hv => ?_, by simp [intersectStep, VersionRange.EndsLe],
      by simp [intersectStep]⟩
    have hone : coverCount ([] ++ [s]) v ≤ 1 := countP_le_length
    omega
  | some p =>
    obtain ⟨hpseen, hpmax⟩ := hinv.last p rfl
    -- what `s` and an earlier range cover is in the pending range
    have hcomplete : ∀ v, 2 ≤ coverCount (seen ++ [s]) v → Covers out v ∨ v ∈ p ∧ v ∈ s := by
      intro v hv
      simp only [coverCount, countP_append, countP_singleton, decide_eq_true_eq] at hv
      split at hv
      · next hs =>
        obtain ⟨r, hr, hvr⟩ := one_le_coverCount.mp (Nat.le_of_succ_le_succ hv)
        exact .inr ⟨⟨(hsort p hpseen).trans hs.1, hpmax r hr v hvr.2⟩, hs⟩
      · exact .inl (hinv.complete v hv)
    cases hi : p.intersect s with
    | some t =>
      have hst : intersectStep (some p, out) s = (some (maxByEnd p s), out ++ [t]) := by
        simp [intersectStep, hi]
      have hbegin : t.begin = s.begin :=
        (begin_of_intersect hi).trans (max_eq_right (hsort p hpseen))
      rw [hst]
      refine ⟨canonical_concat.mpr ⟨hinv.canonical, fun o ho => ?_⟩,
        forall_mem_append.mpr ⟨hpairs, forall_mem_singleton.mpr ⟨p, s, ?_, hi⟩⟩,
        fun v hv => ?_, ?_, by simp⟩
      · obtain ⟨r, u, hsub, hru⟩ := hinv.pairs o ho
        have hbo : o.begin ≤ s.begin := by
          rw [begin_of_intersect hru]
          exact max_le (hsort r (hsub.subset (by simp))) (hsort u (hsub.subset (by simp)))
        refine of_end (hbegin ▸ hbo) fun hot => ?_
        -- otherwise three ranges would touch the begin of `s`
        obtain ⟨hr, hu⟩ := touches_of_intersect hru hot
        have h2 : 2 ≤ touchCount seen t.begin := two_le_countP hsub (by simpa) (by simpa)
        have h3 := htouch t.begin
        rw [touchCount_append_singleton, if_pos (hbegin ▸ touches_of_mem s.begin_mem)] at h3
        omega
      · exact (singleton_sublist.mpr hpseen).append_right [s]
      · rw [covers_append, covers_cons, mem_of_intersect hi]
        exact (hcomplete v hv).imp_right .inl
      · intro q hq
        rw [Option.mem_def, Option.some.injEq] at hq
        subst hq
        obtain ⟨hp1, hs1⟩ := endsLe_maxByEnd
        refine ⟨?_, fun r hr => ?_⟩
        · rcases maxByEnd_eq with h | h <;> rw [h] <;> simp [hpseen]
        · rcases mem_append.mp hr with hr | hr
          · exact fun v hv => hp1 v (hpmax r hr v hv)
          · rw [mem_singleton.mp hr]
            exact hs1
    | none =>
      have hst : intersectStep (some p, out) s = (some s, out) := by simp [intersectStep, hi]
      rw [hst]
      refine ⟨hinv.canonical, hpairs, fun v hv => (hcomplete v hv).resolve_right fun h =>
        intersect_eq_none hi h.1 h.2, ?_, by simp⟩
      intro q hq
      rw [Option.mem_def, Option.some.injEq] at hq
      subst hq
      refine ⟨by simp, fun r hr => ?_⟩
      rcases mem_append.mp hr with hr | hr
      · -- `r` ends before `s` begins, or the pending range would contain its begin
        intro v hv e he
        by_contra hle
        have hsv : s.begin < v := (s.valid e he).trans_le (not_lt.mp hle)
        have hps : s.begin ∈ p := ⟨hsort p hpseen, hpmax r hr _ fun f hf => hsv.trans (hv f hf)⟩
        exact intersect_eq_none hi hps s.begin_mem
      · rw [mem_singleton.mp hr]
        exact fun _ h => h

theorem SweepInv.foldl (hinv : SweepInv seen pending out)
    (hsort : (seen ++ rs).Pairwise fun r s => r.begin ≤ s.begin)
    (htouch : ∀ v, touchCount (seen ++ rs) v ≤ 2) :
    SweepInv (seen ++ rs) (rs.foldl intersectStep (pending, out)).1
      (rs.foldl intersectStep (pending, out)).2 := by
  induction rs generalizing seen pending out with
  | nil => simpa using hinv
  | cons s rs ih =>
    have happ : seen ++ s :: rs = seen ++ [s] ++ rs := by simp
    rw [happ] at hsort htouch ⊢
    refine ih (hinv.step (fun r hr => ?_) fun v => ?_) hsort htouch
    · exact (pairwise_append.mp (pairwise_append.mp hsort).1).2.2 r hr s (by simp)
    · refine le_trans ?_ (htouch v)
      simp only [touchCount, countP_append]
      omega

theorem intersectList_spec (ht : Canonical this) (ho : Canonical other) :
    (∀ v, Covers (intersectList this other) v ↔ Covers this v ∧ Covers other v) ∧
      Canonical (intersectList this other) := by
  have htouch : ∀ v, touchCount (sweepOrder this other) v ≤ 2 := by
    intro v
    rw [touchCount, (sweepOrder_perm this other).countP_eq, countP_append]
    have h1 := ht.countP_touches_le v
    have h2 := ho.countP_touches_le v
    omega
  have hinv : SweepInv (sweepOrder this other) _ _ :=
    @SweepInv.foldl (sweepOrder this other) [] [] none
      ⟨by simp, by simp, by simp [coverCount], by simp, by simp⟩
      (sweepOrder_sorted ht ho) htouch
  refine ⟨fun v => ?_, hinv.canonical⟩
  have hcovers : Covers (intersectList this other) v ↔ 2 ≤ coverCount (sweepOrder this other) v :=
      by
    refine ⟨?_, hinv.complete v⟩
    rintro ⟨o, ho, hv⟩
    obtain ⟨r, s, hsub, hrs⟩ := hinv.pairs o ho
    obtain ⟨hr, hs⟩ := (mem_of_intersect hrs).mp hv
    exact two_le_countP hsub (by simpa) (by simpa)
  rw [hcovers, coverCount, (sweepOrder_perm this other).countP_eq, countP_append]
  have h1 := (coverCount_le_touchCount this v).trans (ht.countP_touches_le v)
  have h2 := (coverCount_le_touchCount other v).trans (ho.countP_touches_le v)
  rw [← one_le_coverCount, ← one_le_coverCount]
  unfold coverCount at *
  omega

/-! ## `intersect_range` -/

/-- Cuts a range that begins before `e` so that it ends at `e` at the latest. -/
def VersionRange.capEnd (r : VersionRange) (e : Nat) (h : r.begin < e) : VersionRange where
  begin := r.begin
  endAt := match r.endAt with
    | some e' => if e' < e then some e' else some e
    | none => some e
  valid := by
    have := r.valid
    cases hr : r.endAt with
    | none => simpa using h
    | some e' =>
      by_cases h' : e' < e
      · simp_all
      · simpa [h'] using h

/-- The loop of `intersect_range` over the end: ranges that begin at `e` or later are popped, the
first other one is cut. -/
def trimEndRev (e : Nat) : List VersionRange → List VersionRange
  | [] => []
  | r :: rs => if h : r.begin < e then r.capEnd e h :: rs else trimEndRev e rs

/-- Raises the begin of a range that does not end by `b`. -/
def VersionRange.raiseBegin (r : VersionRange) (b : Nat) (h : ∀ e ∈ r.endAt, b < e) :
    VersionRange where
  begin := if r.begin < b then b else r.begin
  endAt := r.endAt
  valid := by split; exacts [h, r.valid]

/-- The loop of `intersect_range` over the begin: ranges that end by `b` are drained. -/
def trimBegin (b : Nat) : List VersionRange → List VersionRange
  | [] => []
  | r :: rs => if h : ∀ e ∈ r.endAt, b < e then r.raiseBegin b h :: rs else trimBegin b rs

/-- The early return of `intersect_range`: the set already lies inside the range. -/
def insideRange (rs : List VersionRange) (range : VersionRange) : Bool :=
  match rs.head?, rs.getLast? with
  | some first, some last =>
    decide (range.begin ≤ first.begin) &&
      match last.endAt, range.endAt with
      | some _, none => true
      | some selfEnd, some rangeEnd => decide (selfEnd ≤ rangeEnd)
      | none, _ => false
  | _, _ => true

/-- `VersionRanges::intersect_range` on the vector, with the returned flag. -/
def intersectRangeList (rs : List VersionRange) (range : VersionRange) :
    List VersionRange × Bool :=
  if insideRange rs range then (rs, false)
  else
    let rs := match range.endAt with
      | some e => (trimEndRev e rs.reverse).reverse
      | none => rs
    (trimBegin range.begin rs, true)

theorem VersionRange.mem_capEnd {e : Nat} {h : r.begin < e} : v ∈ r.capEnd e h ↔ v ∈ r ∧ v < e := by
  simp only [mem_def, capEnd]
  cases hr : r.endAt with
  | none => simp
  | some e' => simp only; split <;> simp <;> omega

theorem VersionRange.mem_raiseBegin {b : Nat} {h : ∀ e ∈ r.endAt, b < e} :
    v ∈ r.raiseBegin b h ↔ v ∈ r ∧ b ≤ v := by
  simp only [mem_def, raiseBegin]
  split
  · constructor
    · rintro ⟨h1, h2⟩
      exact ⟨⟨by omega, h2⟩, h1⟩
    · rintro ⟨⟨_, h2⟩, h1⟩
      exact ⟨h1, h2⟩
  · constructor
    · rintro ⟨h1, h2⟩
      exact ⟨⟨h1, h2⟩, by omega⟩
    · exact And.left

theorem trimEndRev_spec (e : Nat) (hc : rs.Pairwise fun r s => Before s r) :
    (∀ v, Covers (trimEndRev e rs) v ↔ Covers rs v ∧ v < e) ∧
      (trimEndRev e rs).Pairwise fun r s => Before s r := by
  induction rs with
  | nil => simp [trimEndRev]
  | cons r rs ih =>
    obtain ⟨hr, hrs⟩ := pairwise_cons.mp hc
    unfold trimEndRev
    split
    · next hlt =>
      refine ⟨fun v => ?_, pairwise_cons.mpr ⟨fun s hs => ?_, hrs⟩⟩
      · -- the ranges after `r` in the scan end before it begins
        have hbelow : Covers rs v → v < e := by
          rintro ⟨s, hs, hv⟩
          obtain ⟨f, hf, hfr⟩ := hr s hs
          have := hv.2 f hf
          omega
        rw [covers_cons, covers_cons, mem_capEnd]
        tauto
      · obtain ⟨f, hf, hfr⟩ := hr s hs
        exact ⟨f, hf, hfr⟩
    · next hge =>
      obtain ⟨h1, h2⟩ := ih hrs
      refine ⟨fun v => ?_, h2⟩
      have hr' : v ∈ r → ¬ v < e := fun h => by have := h.1; omega
      rw [h1, covers_cons]
      tauto

theorem trimBegin_spec (b : Nat) (hc : Canonical rs) :
    (∀ v, Covers (trimBegin b rs) v ↔ Covers rs v ∧ b ≤ v) ∧ Canonical (trimBegin b rs) := by
  induction rs with
  | nil => simp [trimBegin]
  | cons r rs ih =>
    obtain ⟨hr, hrs⟩ := pairwise_cons.mp hc
    unfold trimBegin
    split
    · next hlt =>
      refine ⟨fun v => ?_, pairwise_cons.mpr ⟨fun s hs => ?_, hrs⟩⟩
      · have habove : Covers rs v → b ≤ v := by
          rintro ⟨s, hs, hv⟩
          obtain ⟨f, hf, hfr⟩ := hr s hs
          have h1 := hlt f hf
          have h2 := hv.1
          omega
        rw [covers_cons, covers_cons, mem_raiseBegin]
        tauto
      · obtain ⟨f, hf, hfr⟩ := hr s hs
        exact ⟨f, hf, hfr⟩
    · next hge =>
      obtain ⟨h1, h2⟩ := ih hrs
      refine ⟨fun v => ?_, h2⟩
      have hr' : v ∈ r → ¬ b ≤ v := fun h hb => hge fun e he => hb.trans_lt (h.2 e he)
      rw [h1, covers_cons]
      tauto

theorem insideRange_covers (hc : Canonical rs) {range : VersionRange}
    (h : insideRange rs range) (hv : Covers rs v) : v ∈ range := by
  obtain ⟨r, hr, hvr⟩ := hv
  have hne : rs ≠ [] := ne_nil_of_mem hr
  have hhead : rs.head? = some (rs.head hne) := head?_eq_some_head hne
  have hlast : rs.getLast? = some (rs.getLast hne) := getLast?_eq_some_getLast hne
  rw [insideRange, hhead, hlast] at h
  simp only [Bool.and_eq_true, decide_eq_true_eq] at h
  -- `r` lies between the first and the last range
  have hfirst : (rs.head hne).begin ≤ r.begin := by
    cases rs with
    | nil => cases hr
    | cons a as =>
      rcases mem_cons.mp hr with rfl | hr
      · exact le_rfl
      · exact ((pairwise_cons.mp hc).1 r hr).lt_begin.le
  have hend : ∀ e ∈ (rs.getLast hne).endAt, v < e := by
    rcases hc.eq_or_before hlast hr with heq | ⟨f, hf, hlt⟩
    · rw [← heq]
      exact hvr.2
    · intro e he
      exact (hvr.2 f hf).trans (hlt.trans ((rs.getLast hne).valid e he))
  refine ⟨h.1.trans (hfirst.trans hvr.1), fun e he => ?_⟩
  rw [he] at h
  cases hl : (rs.getLast hne).endAt with
  | none => simp [hl] at h
  | some f =>
    have := hend f hl
    simp only [hl, decide_eq_true_eq] at h
    omega

theorem intersectRangeList_spec (hc : Canonical rs) (range : VersionRange) :
    (∀ v, Covers (intersectRangeList rs range).1 v ↔ Covers rs v ∧ v ∈ range) ∧
      Canonical (intersectRangeList rs range).1 := by
  unfold intersectRangeList
  split
  · next hin => exact ⟨fun v => ⟨fun h => ⟨h, insideRange_covers hc hin h⟩, And.left⟩, hc⟩
  · cases he : range.endAt with
    | none =>
      obtain ⟨h1, h2⟩ := trimBegin_spec range.begin hc
      exact ⟨fun v => by simp [h1, mem_def, he], h2⟩
    | some e =>
      obtain ⟨h1, h2⟩ := @trimEndRev_spec rs.reverse e (pairwise_reverse.mpr hc)
      obtain ⟨h3, h4⟩ := trimBegin_spec range.begin (pairwise_reverse.mpr h2)
      refine ⟨fun v => ?_, h4⟩
      simp only [h3, covers_reverse, h1, mem_def, he, Option.mem_some_iff, forall_eq']
      tauto

/-- **The interval sets**: every operation on canonical lists gives a canonical list that covers
what it should, and the search for an upper bound ends without a panic. -/
theorem canonical_algebra {a b : List VersionRange} (ha : Canonical a) (hb : Canonical b)
    (r : VersionRange) (v : Nat) :
    (Canonical (unionRangeList a r) ∧ Canonical (unionList a b) ∧ Canonical (intersectList a b) ∧
      Canonical (intersectRangeList a r).1) ∧
    (∀ u, (Covers (unionRangeList a r) u ↔ Covers a u ∨ u ∈ r) ∧
      (Covers (unionList a b) u ↔ Covers a u ∨ Covers b u) ∧
      (Covers (intersectList a b) u ↔ Covers a u ∧ Covers b u) ∧
      (Covers (intersectRangeList a r).1 u ↔ Covers a u ∧ u ∈ r)) ∧
    ∃ o, findValueUpperBoundLoop v a.reverse = .ok o ∧ IsUpperBound a v o := by
  obtain ⟨hunionRange, hunionRange'⟩ := unionRangeList_spec ha r
  obtain ⟨hunion, hunion'⟩ := unionList_spec ha hb
  obtain ⟨hintersect, hintersect'⟩ := intersectList_spec ha hb
  obtain ⟨hintersectRange, hintersectRange'⟩ := intersectRangeList_spec ha r
  refine ⟨⟨hunionRange', hunion', hintersect', hintersectRange'⟩,
    fun u => ⟨hunionRange u, hunion u, hintersect u, hintersectRange u⟩,
    _, findValueUpperBoundLoop_eq, ?_⟩
  exact isUpperBound_reverse.mp (findValueUpperBoundRev_spec (pairwise_reverse.mpr ha))

/-- Adjacent ranges are joined. -/
theorem canonical_algebra_adjacent : ∃ a b : List VersionRange,
    a = [.bounded 1 3 (by decide), .bounded 5 7 (by decide), .beginsWith 9] ∧
    b = [.bounded 2 5 (by decide), .beginsWith 8] ∧
    unionList a b = [.bounded 1 7 (by decide), .beginsWith 8] ∧
    intersectList a b = [.bounded 2 3 (by decide), .beginsWith 9] ∧
    (∀ u, (Covers (unionList a b) u ↔ Covers a u ∨ Covers b u) ∧
      (Covers (intersectList a b) u ↔ Covers a u ∧ Covers b u)) ∧
    ∃ o, findValueUpperBoundLoop 8 a.reverse = .ok o ∧ IsUpperBound a 8 o := by
  refine ⟨_, _, rfl, rfl, by decide, by decide, ?_⟩
  obtain ⟨-, hcovers, hbound⟩ := canonical_algebra
    (a := [.bounded 1 3 (by decide), .bounded 5 7 (by decide), .beginsWith 9])
    (b := [.bounded 2 5 (by decide), .beginsWith 8]) (by decide) (by decide) (.beginsWith 4) 8
  exact ⟨fun u => ⟨(hcovers u).2.1, (hcovers u).2.2.1⟩, hbound⟩

/-! ## `VersionRanges` -/

/-- `VersionRanges`: a canonical vector of ranges. -/
structure VersionRanges where
  ranges : List VersionRange
  canonical : Canonical ranges
  deriving DecidableEq

namespace VersionRanges

/-- `VersionRange::into_ranges`. -/
def ofRange (r : VersionRange) : VersionRanges := ⟨[r], by simp⟩

/-- The empty set, left behind by `VersionRanges::clear`. -/
def empty : VersionRanges := ⟨[], by simp⟩

variable (s : VersionRanges)

def last : Option VersionRange := s.ranges.getLast?

def isEmpty : Bool := s.ranges.isEmpty

def findValueUpperBound (v : Nat) : Option Nat :=
  findValueUpperBoundRev v s.ranges.reverse

def contains (v : Nat) : Bool := s.findValueUpperBound v == some v

def unionRange (r : VersionRange) : VersionRanges :=
  ⟨unionRangeList s.ranges r, (unionRangeList_spec s.canonical r).2⟩

def insert (r : VersionRange) : VersionRanges := s.unionRange r

/-- `VersionRanges::union` and `union_in_place`. -/
def union (s t : VersionRanges) : VersionRanges :=
  ⟨unionList s.ranges t.ranges, (unionList_spec s.canonical t.canonical).2⟩

def intersect (s t : VersionRanges) : VersionRanges :=
  ⟨intersectList s.ranges t.ranges, (intersectList_spec s.canonical t.canonical).2⟩

def intersectInPlace (s t : VersionRanges) : VersionRanges :=
  if s = t then s else s.intersect t

/-- `VersionRanges::intersect_range`: the new set, and whether anything was cut. -/
def intersectRange (r : VersionRange) : VersionRanges × Bool :=
  (⟨(intersectRangeList s.ranges r).1, (intersectRangeList_spec s.canonical r).2⟩,
    (intersectRangeList s.ranges r).2)

instance : Membership Nat VersionRanges where
  mem s v := Covers s.ranges v

variable {s t : VersionRanges}

theorem mem_def : v ∈ s ↔ Covers s.ranges v := Iff.rfl

instance (v : Nat) (s : VersionRanges) : Decidable (v ∈ s) :=
  inferInstanceAs (Decidable (Covers s.ranges v))

@[simp] theorem mem_ofRange : v ∈ ofRange r ↔ v ∈ r := by
  simp [mem_def, ofRange]

@[simp] theorem not_mem_empty : ¬ v ∈ empty := by simp [mem_def, empty]

@[simp] theorem mem_insert :
    v ∈ s.insert r ↔ v ∈ s ∨ v ∈ r := (unionRangeList_spec s.canonical r).1 v

@[simp] theorem mem_union : v ∈ s.union t ↔ v ∈ s ∨ v ∈ t :=
  (unionList_spec s.canonical t.canonical).1 v

@[simp] theorem mem_intersect :
    v ∈ s.intersect t ↔ v ∈ s ∧ v ∈ t := (intersectList_spec s.canonical t.canonical).1 v

@[simp] theorem mem_intersectInPlace : v ∈ s.intersectInPlace t ↔ v ∈ s ∧ v ∈ t := by
  unfold intersectInPlace
  split
  · next h => rw [h, and_self]
  · exact mem_intersect

@[simp] theorem mem_intersectRange :
    v ∈ (s.intersectRange r).1 ↔ v ∈ s ∧ v ∈ r := (intersectRangeList_spec s.canonical r).1 v

theorem intersectRange_eq_of_false (h : (s.intersectRange r).2 = false) :
    (s.intersectRange r).1 = s := by
  simp only [intersectRange, intersectRangeList] at h ⊢
  split at h
  · next hin => simp only [hin, if_true]
  · cases h

theorem findValueUpperBound_spec (s : VersionRanges) (v : Nat) :
    IsUpperBound s.ranges v (s.findValueUpperBound v) :=
  isUpperBound_reverse.mp (findValueUpperBoundRev_spec (pairwise_reverse.mpr s.canonical))

theorem findValueUpperBound_eq_self : s.findValueUpperBound v = some v ↔ v ∈ s := by
  have h := s.findValueUpperBound_spec v
  constructor
  · intro he
    rw [he] at h
    exact h.2.1
  · intro hv
    cases hu : s.findValueUpperBound v with
    | none => rw [hu] at h; exact absurd (h v hv) (lt_irrefl v)
    | some u =>
      rw [hu] at h
      rw [le_antisymm h.1 (h.2.2 v hv le_rfl)]

@[simp] theorem contains_eq_true : s.contains v ↔ v ∈ s := by
  simp [contains, findValueUpperBound_eq_self]

theorem findValueUpperBound_some {u : Nat} (h : s.findValueUpperBound v = some u) :
    u ∈ s ∧ u ≤ v := by
  have hs := s.findValueUpperBound_spec v
  rw [h] at hs
  exact ⟨hs.2.1, hs.1⟩

/-! ### Unbounded sets -/

/-- The last range has no end. -/
def Unbounded (s : VersionRanges) : Prop := ∃ r, s.last = some r ∧ r.endAt = none

instance (s : VersionRanges) : Decidable s.Unbounded :=
  match h : s.last with
  | none => isFalse (by simp [Unbounded, h])
  | some r => decidable_of_iff (r.endAt = none) (by simp [Unbounded, h])

theorem unbounded_iff_exists : s.Unbounded ↔ ∃ r ∈ s.ranges, r.endAt = none := by
  constructor
  · rintro ⟨r, hr, he⟩
    exact ⟨r, mem_of_getLast? hr, he⟩
  · rintro ⟨r, hr, he⟩
    have hlast := getLast?_eq_some_getLast (ne_nil_of_mem hr)
    refine ⟨_, hlast, ?_⟩
    rcases s.canonical.eq_or_before hlast hr with heq | ⟨e, he', -⟩
    · rwa [← heq]
    · -- a range before the last one has an end
      rw [Option.mem_def, he] at he'
      cases he'

/-- A set is unbounded exactly when it contains versions beyond every bound. -/
theorem unbounded_iff_cofinal : s.Unbounded ↔ ∀ n, ∃ v, n ≤ v ∧ v ∈ s := by
  rw [unbounded_iff_exists]
  constructor
  · rintro ⟨r, hr, he⟩ n
    exact ⟨max n r.begin, le_max_left _ _, r, hr, le_max_right _ _, by simp [he]⟩
  · intro h
    by_contra hne
    push Not at hne
    -- all ends lie below one bound
    have hbound : ∀ rs : List VersionRange, (∀ r ∈ rs, r.endAt ≠ none) →
        ∃ n, ∀ v, Covers rs v → v < n := by
      intro rs
      induction rs with
      | nil => exact fun _ => ⟨0, by simp⟩
      | cons r rs ih =>
        intro hr
        obtain ⟨n, hn⟩ := ih fun s hs => hr s (mem_cons_of_mem _ hs)
        obtain ⟨e, he⟩ := Option.ne_none_iff_exists'.mp (hr r (by simp))
        refine ⟨max n e, fun v hv => ?_⟩
        rcases covers_cons.mp hv with hv | hv
        · exact lt_max_of_lt_right (hv.2 e he)
        · exact lt_max_of_lt_left (hn v hv)
    obtain ⟨n, hn⟩ := hbound s.ranges hne
    obtain ⟨v, hv, hmem⟩ := h n
    exact absurd (hn v hmem) (not_lt.mpr hv)

theorem exists_last_of_mem (hv : v ∈ s) : ∃ r, s.last = some r ∧ ∀ e ∈ r.endAt, v < e := by
  obtain ⟨t, ht, hmem⟩ := hv
  have hlast := getLast?_eq_some_getLast (ne_nil_of_mem ht)
  refine ⟨_, hlast, fun e he => ?_⟩
  rcases s.canonical.eq_or_before hlast ht with heq | ⟨e', he', hlt⟩
  · exact hmem.2 e (heq ▸ he)
  · exact (hmem.2 e' he').trans (hlt.trans (valid _ e he))

/-- The last range of a set that contains all versions from `c` on begins at most at `c`. -/
theorem last_begin_le {c : Nat} (hl : s.last = some r) (h : ∀ v, c ≤ v → v ∈ s) : r.begin ≤ c := by
  by_contra hlt
  obtain ⟨t, ht, hmem⟩ := h (r.begin - 1) (by omega)
  rcases s.canonical.eq_or_before hl ht with rfl | ⟨e, he, hlt'⟩
  · have := hmem.1
    omega
  · have := hmem.2 e he
    omega

end VersionRanges

end Bz.Dice
