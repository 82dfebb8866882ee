import Bz.Dice.RdepCompleteness

/-!
# How nodes evolve

What a transaction and a rewind do to the node of each key, told key by key: a key that is not among
the changes only ages, that is, loses verified versions; a key among them is touched once, between
ageing; a key that is rewound is force-dirtied.  A key that only frozen keys know as a reverse
dependency does not age.

Principal results: `applyUpdates_aged`, `applyUpdates_touched` and `applyUpdates_spared`;
`rewindKeys_aged`, `rewindKeys_dirtied` and `rewindKeys_rdepComplete`.
-/

namespace Bz.Dice

open OccupiedGraphNode List Option

variable {K V : Type} [DecidableEq K] [DiceValue V] {n' : VersionedGraphNode K V} {l : K}
  {d : Option (List K)}

namespace VersionedGraph

/-- The node lost verified versions, and maybe reverse dependencies, and nothing else. -/
inductive Aged : Option (VersionedGraphNode K V) → Option (VersionedGraphNode K V) → Prop where
  | absent : Aged none none
  | vacant {o : VacantGraphNode} : Aged (some (.vacant o)) (some (.vacant o))
  | injected {o o' : InjectedGraphNode K V} (hvalues : o'.values = o.values) :
      Aged (some (.injected o)) (some (.injected o'))
  | occupied {o o' : OccupiedGraphNode K V} (hres : o'.res = o.res) (hdeps : o'.deps = o.deps)
      (hhist : o'.dirtiedHistory = o.dirtiedHistory)
      (hsub : ∀ u ∈ o'.verifiedRanges, u ∈ o.verifiedRanges) :
      Aged (some (.occupied o)) (some (.occupied o'))

variable {x y : Option (VersionedGraphNode K V)} {v : Nat} {changed : Bool}
  {g g' : VersionedGraph K V} {k : K} {kind : InvalidateKind V} {p : InvalidationSourcePriority}
  {F : K → Prop}

section Aged

omit [DecidableEq K] [DiceValue V]

theorem Aged.refl : ∀ x : Option (VersionedGraphNode K V), Aged x x
  | none => .absent
  | some (.vacant _) => .vacant
  | some (.injected _) => .injected rfl
  | some (.occupied _) => .occupied rfl rfl rfl fun _ h => h

theorem Aged.trans {z : Option (VersionedGraphNode K V)} (h : Aged x y) (h' : Aged y z) :
    Aged x z := by
  cases h with
  | absent | vacant => exact h'
  | injected hv =>
    cases h' with
    | injected hv' => exact .injected (hv'.trans hv)
  | occupied h1 h2 h3 h4 =>
    cases h' with
    | occupied h1' h2' h3' h4' =>
      exact .occupied (h1'.trans h1) (h2'.trans h2) (h3'.trans h3) fun u hu => h4 u (h4' u hu)

theorem Aged.history (h : Aged x y) : historyOf y = historyOf x := by
  cases h with
  | absent | vacant | injected hv => rfl
  | occupied h1 h2 h3 h4 => exact h3

theorem Popped.aged {popped : K → Prop} (h : Popped v popped x y) : Aged x y := by
  cases h with
  | absent => exact .absent
  | invalid h => exact .refl _
  | cut h he hr => exact .occupied h.res h.deps h.history fun u hu => ((h.ranges u).mp hu).1

end Aged

variable (h : g.invalidate k v kind p = some (g', changed))

include h in
/-- `invalidate` touches the node of its key, which may age then; all other nodes only age. -/
theorem invalidate_aged : (∀ l, l ≠ k → Aged (g.node l) (g'.node l)) ∧
      ∃ n' d, Touch v kind (g.node k) n' d ∧ changed = d.isSome ∧ Aged (some n') (g'.node k) := by
  obtain ⟨n', d, htouch, hch, popped, -, -, hstay, hpop, -⟩ := invalidate_spec h
  have hage : ∀ l, Aged ((g.setNode k n').node l) (g'.node l) := by
    intro l
    by_cases hl : popped l
    · exact (hpop l hl).aged
    · rw [hstay l hl]; exact .refl _
  refine ⟨fun l hl => ?_, n', d, htouch, hch, ?_⟩
  · have := hage l
    rwa [node_setNode_ne _ _ hl] at this
  · have := hage k
    rwa [node_setNode_self] at this

omit [DecidableEq K] in
/-- The reverse dependencies that a touched node drains were recorded in it. -/
theorem Touch.drained_mem
    (h : Touch v kind x n' d) : ∀ r ∈ d.getD [], r ∈ (x.map rdepsOf).getD [] := by
  intro r hr
  cases h with
  | freshVacant p | freshInjected x | freshOccupied x | dirty hl hcut hh hrd => exact hr
  | redirty hl hcut hrd | dirtyVacant hl hh | redirtyVacant hl | sameOccupied hy he => cases hr
  | pushOccupied | inject h hrd => exact hr
  | pushVacant | sameInjected h => cases hr

/-- Frozen keys are reverse dependencies of frozen keys only. -/
def FrozenRdeps (F : K → Prop) (g : VersionedGraph K V) : Prop :=
  ∀ d x, x ∈ rdepsAt g d → F x → F d

/-- Only frozen keys know `l` as a reverse dependency. -/
def SparedBy (F : K → Prop) (g : VersionedGraph K V) (l : K) : Prop := ∀ d, l ∈ rdepsAt g d → F d

include h in
include h in
theorem invalidate_sparedBy (hl : SparedBy F g l) : SparedBy F g' l :=
  fun d hd => hl d (invalidate_rdeps h hd).1

include h in
/-- A change of a key that is not frozen, or not known yet, does not reach a spared key. -/
theorem invalidate_spared (hfrozen : FrozenRdeps F g) (hk : F k → g.node k = none)
    (hl : SparedBy F g l) : (l ≠ k → g'.node l = g.node l) ∧
      (l = k → ∃ n' d, Touch v kind (g.node k) n' d ∧ changed = d.isSome ∧
        g'.node k = some n') := by
  obtain ⟨n', d, htouch, hch, popped, -, -, hstay, -, hmin⟩ := invalidate_spec h
  have hsub : ∀ m n, (g.setNode k n').node m = some n → ∀ x ∈ rdepsOf n, x ∈ rdepsAt g m := by
    intro m n hm x hx
    rw [node_setNode] at hm
    split at hm
    · next hmk => subst hmk; cases hm; exact (htouch.rdeps_subset x hx).2
    · exact (mem_rdepsAt hm).mpr hx
  -- what is popped is neither frozen nor spared
  have hnp : ¬ popped l := by
    intro hp
    have hS : ∀ m x, ¬ F m → x ∈ rdepsAt g m → ¬ F x ∧ x ≠ l := by
      intro m x hm hx
      refine ⟨fun hFx => hm (hfrozen m x hx hFx), fun hxl => ?_⟩
      rw [hxl] at hx
      exact hm (hl m hx)
    refine (hmin (fun x => ¬ F x ∧ x ≠ l) (fun r hr => ?_) (fun m n hm hn x hx => ?_) l hp).2 rfl
    · have hr' := htouch.drained_mem r hr
      by_cases hFk : F k
      · rw [hk hFk] at hr'; cases hr'
      · exact hS k r hFk hr'
    · exact hS m x hm.1 (hsub m n hn x hx)
  have hl' := hstay l hnp
  refine ⟨fun hlk => by rw [hl', node_setNode_ne _ _ hlk], fun hlk => ?_⟩
  subst hlk
  exact ⟨n', d, htouch, hch, by rw [hl', node_setNode_self]⟩

end VersionedGraph

namespace CoreState

open VersionedGraph

variable {b b' : Bool} {changes : List (Update K V)} {g g' : VersionedGraph K V} {v : Nat}

theorem applyUpdates_aged (h : applyUpdates v g b changes = some (g', b'))
    (hl : l ∉ changes.map Prod.fst) : Aged (g.node l) (g'.node l) := by
  refine applyUpdates_induction (P := fun g1 => Aged (g.node l) (g1.node l))
    (fun g1 g2 k kind p changed hk hage hinv => ?_) h (.refl _)
  refine hage.trans ((invalidate_aged hinv).1 l fun hlk => hl ?_)
  rw [hlk]
  exact hk

theorem applyUpdates_rdeps (h : applyUpdates v g b changes = some (g', b')) {r : K}
    (hr : r ∈ rdepsAt g' l) : r ∈ rdepsAt g l := by
  have hall : ∀ r, r ∈ rdepsAt g' l → r ∈ rdepsAt g l := by
    refine applyUpdates_induction (P := fun g1 => ∀ r, r ∈ rdepsAt g1 l → r ∈ rdepsAt g l)
      (fun g1 g2 k kind p changed _ hsub hinv r hr => ?_) h fun r hr => hr
    exact hsub r (invalidate_rdeps hinv hr).1
  exact hall r hr

/-- A key with a change is touched once, between ageing; if that changed it, no reverse
dependency of it is left. -/
theorem applyUpdates_touched (hnd : (changes.map Prod.fst).Nodup)
    (h : applyUpdates v g b changes = some (g', b')) {k : K} {change : ChangeType V}
    {p : InvalidationSourcePriority} (hk : (k, change, p) ∈ changes) :
    ∃ x n' d, Aged (g.node k) x ∧ Touch v change.kind x n' d ∧ Aged (some n') (g'.node k) ∧
      (d.isSome → b' ∧ ∀ r, r ∉ rdepsAt g' k) := by
  induction changes generalizing g b with
  | nil => cases hk
  | cons head changes ih =>
    obtain ⟨l, c, q⟩ := head
    obtain ⟨⟨g1, changed⟩, hinv, hrest⟩ := bind_eq_some_iff.mp h
    obtain ⟨hl, hnd'⟩ := nodup_cons.mp hnd
    rcases mem_cons.mp hk with heq | hk
    · cases heq
      obtain ⟨-, n', d, htouch, rfl, hage⟩ := invalidate_aged hinv
      refine ⟨g.node k, n', d, .refl _, htouch, hage.trans (applyUpdates_aged hrest hl), ?_⟩
      intro hd
      simp only [hd, Bool.or_true] at hrest
      refine ⟨applyUpdates_true hrest, fun r hr => ?_⟩
      have := (invalidate_rdeps hinv (applyUpdates_rdeps hrest hr)).2 rfl
      rw [hd] at this
      cases this
    · obtain ⟨x, n', d, hx, htouch, hage, hr⟩ := ih hnd' hrest hk
      have hkl : k ≠ l := fun he => hl (mem_map.mpr ⟨_, hk, he⟩)
      exact ⟨x, n', d, ((invalidate_aged hinv).1 k hkl).trans hx, htouch, hage, hr⟩

theorem applyUpdates_spared {F : K → Prop} (hnd : (changes.map Prod.fst).Nodup)
    (h : applyUpdates v g b changes = some (g', b')) (hfrozen : FrozenRdeps F g)
    (hF : ∀ k ∈ changes.map Prod.fst, F k → g.node k = none) (hl : SparedBy F g l) :
    (l ∉ changes.map Prod.fst → g'.node l = g.node l) ∧ ∀ change p, (l, change, p) ∈ changes →
        ∃ n' d, Touch v change.kind (g.node l) n' d ∧ (d.isSome → b') ∧ g'.node l = some n' := by
  induction changes generalizing g b with
  | nil => cases h; exact ⟨fun _ => rfl, fun _ _ hm => nomatch hm⟩
  | cons head changes ih =>
    obtain ⟨k, c, q⟩ := head
    obtain ⟨⟨g1, changed⟩, hinv, hrest⟩ := bind_eq_some_iff.mp h
    obtain ⟨hk, hnd'⟩ := nodup_cons.mp hnd
    obtain ⟨hne, heq⟩ :=
      invalidate_spared hinv hfrozen (hF k mem_cons_self) hl
    have hF1 : ∀ j ∈ changes.map Prod.fst, F j → g1.node j = none := by
      intro j hj hFj
      have hjk : j ≠ k := fun he => hk (he ▸ hj)
      have hage := (invalidate_aged hinv).1 j hjk
      rw [hF j (mem_cons_of_mem _ hj) hFj] at hage
      generalize g1.node j = y at hage
      cases hage
      rfl
    obtain ⟨ih1, ih2⟩ := ih hnd' hrest (fun d x hx => hfrozen d x (invalidate_rdeps hinv hx).1) hF1
      (invalidate_sparedBy hinv hl)
    refine ⟨fun hlm => ?_, fun change p hm => ?_⟩
    · rw [ih1 fun hm => hlm (mem_cons_of_mem _ hm)]
      exact hne fun he => hlm (he ▸ mem_cons_self)
    · rcases mem_cons.mp hm with he | hm
      · cases he
        obtain ⟨n', d, htouch, hch, hn'⟩ := heq rfl
        refine ⟨n', d, htouch, fun hd => ?_, by rw [ih1 hk, hn']⟩
        simp only [hch, hd, Bool.or_true] at hrest
        exact applyUpdates_true hrest
      · have hlk : l ≠ k := fun he => hk (mem_map.mpr ⟨_, hm, he⟩)
        rw [← hne hlk]
        exact ih2 change p hm

end CoreState

/-! ## Reports -/

namespace VersionedGraph

variable {g g1 g' : VersionedGraph K V} {k : K} {v : Nat} {deps : SeriesParallelDeps K}
  {r : ValueReusable} {ret : DiceComputedValue V} {st : StorageType} {x : V}
  {u : Nat} {a : DiceComputedValue V}

omit [DiceValue V] in
theorem get_setNode_ne (n : VersionedGraphNode K V) (h : l ≠ k) :
    (g.setNode k n).get l v = g.get l v := by
  simp only [get, node_setNode_ne _ _ h]

omit [DiceValue V] in
theorem RdepsAdded.get {deps : List K} (h : RdepsAdded g k v deps g1) : g1.get l u = g.get l u := by
  have hget (g : VersionedGraph K V) :
      g.get l u = ((g.node l).map (·.atVersion u)).getD .compute := by
    unfold VersionedGraph.get
    cases g.node l <;> rfl
  rw [hget, hget]
  refine h.eq_of_erase (f := fun x => (x.map fun n => n.atVersion u).getD .compute) fun n => ?_
  cases n <;> rfl

/-- The node of the key is verified at the version. -/
def VerifiedAt (g : VersionedGraph K V) (v : Nat) (k : K) : Prop :=
  match g.node k with
  | some (.occupied o) => v ∈ o.verifiedRanges
  | _ => False

instance (g : VersionedGraph K V) (v : Nat) (k : K) : Decidable (g.VerifiedAt v k) := by
  unfold VerifiedAt
  split <;> infer_instance

theorem update_get_ne (h : g.update k v x r deps st = some (g', ret)) (hl : l ≠ k) :
    g'.get l u = g.get l u := by
  obtain ⟨g1, valid, n', hadd, -, -, rfl⟩ := update_spec h
  rw [get_setNode_ne _ hl, hadd.get]

theorem update_notInjected (h : g.update k v x r deps st = some (g', ret))
    (hl : ∀ o, g.node l ≠ some (.injected o)) : ∀ o, g'.node l ≠ some (.injected o) := by
  obtain ⟨g1, valid, n', hadd, -, hcomp, rfl⟩ := update_spec h
  intro o ho
  rw [node_setNode] at ho
  split at ho
  · generalize g1.node k = prev at hcomp
    cases hcomp <;> cases ho
  · obtain ⟨n, hn, he⟩ := hadd.node_of ho
    cases n with
    | injected o0 => exact hl o0 hn
    | vacant o0 | occupied o0 => cases he

/-- A recomputed value is handed out as it is: a stored value is reused only if it is equal. -/
theorem update_ret (h : g.update k v x .equalityBased deps st = some (g', ret)) :
    ret.value = x := by
  obtain ⟨g1, valid, n', -, -, hcomp, rfl⟩ := update_spec h
  generalize g1.node k = prev at hcomp
  cases hcomp with
  | reuse hr hy =>
    simp only [ValueReusable.isReusable, hy, any_some, Bool.and_eq_true] at hr
    exact (DiceValue.eq_of_equality hr.2).symm
  | skip hr hlater | store hinj hlater hranges => rfl

/-- What the graph answers after a report: the value from before if the key was verified already,
and the reported value otherwise. -/
theorem update_answer (h : g.update k v x r deps st = some (g', ret)) (ha : g'.get k v =
    .matched a) : (g.VerifiedAt v k → ∃ b, g.get k v = .matched b ∧ a.value = b.value) ∧
      (¬ g.VerifiedAt v k → r = .equalityBased → a.value = x) := by
  obtain ⟨g1, valid, n', hadd, -, hcomp, rfl⟩ := update_spec h
  simp only [get, node_setNode_self] at ha
  generalize hp : g1.node k = prev at hcomp
  cases hcomp with
  | @reuse o y hr hy =>
    obtain ⟨o0, ho0, hres, -, hranges, -⟩ := hadd.occupied_of hp
    obtain ⟨-, hval, -⟩ := atVersion_matched ha
    rw [(o.markUnchanged_fields valid).1, hy] at hval
    cases hval
    refine ⟨fun hver => ?_, fun _ heq => ?_⟩
    · simp only [VerifiedAt, ho0] at hver
      refine ⟨⟨a.value, o0.verifiedRanges⟩, ?_, rfl⟩
      simp only [get, ho0]
      exact atVersion_of_mem hver (hres ▸ hy)
    · subst heq
      simp only [ValueReusable.isReusable, hy, any_some, Bool.and_eq_true] at hr
      exact (DiceValue.eq_of_equality hr.2).symm
  | @skip o hr hlater =>
    have hget : g.get k v = .matched a := by
      rw [← hadd.get]
      simp only [get, hp]
      exact ha
    obtain ⟨o0, ho0, -⟩ := hadd.occupied_of hp
    refine ⟨fun _ => ⟨a, hget, rfl⟩, fun hnot => absurd ?_ hnot⟩
    rcases get_matched hget with ⟨o, ho, hv, -, -⟩ | ⟨o, data, ho, -, -⟩
    · simpa only [VerifiedAt, ho] using hv
    · simp [ho0] at ho
  | @store prev ranges hinj hlater hranges =>
    obtain ⟨-, hval, -⟩ := atVersion_matched ha
    refine ⟨fun hver => ?_, fun _ _ => (Option.some.inj hval).symm⟩
    unfold VerifiedAt at hver
    split at hver
    · next o0 ho0 =>
      obtain ⟨o, ho, -, -, hver', -⟩ := hadd.occupied_to ho0
      have hfalse := hlater o (hp.symm.trans ho)
      rw [everValidAfter_of_mem (hver' ▸ hver)] at hfalse
      cases hfalse
    · exact hver.elim

end VersionedGraph

/-! ## Rewinds -/

namespace VersionedGraph

/-- The key has an injected node. -/
def IsInjected (g : VersionedGraph K V) (k : K) : Prop :=
  match g.node k with
  | some (.injected _) => True
  | _ => False

instance (g : VersionedGraph K V) (k : K) : Decidable (g.IsInjected k) := by
  unfold IsInjected
  split <;> infer_instance

variable {g g' : VersionedGraph K V} {k : K} {v : Nat} {x y z : Option (VersionedGraphNode K V)}
  {p : InvalidationSourcePriority} {changed : Bool}

omit [DiceValue V] in
theorem IsInjected.node (h : g.IsInjected k) : ∃ o, g.node k = some (.injected o) := by
  unfold IsInjected at h
  split at h
  · next o ho => exact ⟨o, ho⟩
  · exact h.elim

/-- The node was force-dirtied at `v`, and only lost verified versions otherwise. -/
structure Dirtied (v : Nat) (x y : Option (VersionedGraphNode K V)) : Prop where
  notInjected : ∀ o, y ≠ some (.injected o)
  last : (historyOf y).versions.getLast? = some v
  occupied : ∀ o', y = some (.occupied o') → ∃ o, x = some (.occupied o) ∧ o'.res = o.res ∧
    o'.deps = o.deps ∧ ∀ u ∈ o'.verifiedRanges, u ∈ o.verifiedRanges ∧ u < v

omit [DecidableEq K] [DiceValue V] in
theorem Dirtied.aged (h : Dirtied v x y) (hage : Aged y z) : Dirtied v x z := by
  refine ⟨fun o ho => ?_, hage.history ▸ h.last, fun o' ho => ?_⟩
  · subst ho
    cases hage with
    | injected hv => exact h.notInjected _ rfl
  · subst ho
    cases hage with
    | occupied h1 h2 h3 h4 =>
      obtain ⟨o, hx, hres, hdeps, hsub⟩ := h.occupied _ rfl
      exact ⟨o, hx, h1.trans hres, h2.trans hdeps, fun u hu => hsub u (h4 u hu)⟩

omit [DecidableEq K] [DiceValue V] in
theorem Aged.dirtied (hage : Aged x y) (h : Dirtied v y z) : Dirtied v x z := by
  refine ⟨h.notInjected, h.last, fun o' ho => ?_⟩
  obtain ⟨o, hy, hres, hdeps, hsub⟩ := h.occupied o' ho
  subst hy
  cases hage with
  | occupied h1 h2 h3 h4 =>
    exact ⟨_, rfl, hres.trans h1, hdeps.trans h2, fun u hu => ⟨h4 u (hsub u hu).1, (hsub u hu).2⟩⟩

omit [DecidableEq K] [DiceValue V] in
theorem Dirtied.trans (h : Dirtied v x y) (h' : Dirtied v y z) : Dirtied v x z := by
  refine ⟨h'.notInjected, h'.last, fun o2 ho2 => ?_⟩
  obtain ⟨o1, ho1, hres1, hdeps1, hsub1⟩ := h'.occupied o2 ho2
  obtain ⟨o, ho, hres, hdeps, hsub⟩ := h.occupied o1 ho1
  exact ⟨o, ho, hres1.trans hres, hdeps1.trans hdeps, fun u hu => hsub u (hsub1 u hu).1⟩

omit [DecidableEq K] in
theorem Touch.dirtied (h : Touch v .forceDirty x n' d) : Dirtied v x (some n') := by
  cases h with
  | freshVacant p => exact ⟨by simp, rfl, by simp⟩
  | dirty hl hcut hh hr =>
    refine ⟨by simp, by simp [historyOf, hh], fun o' ho => ?_⟩
    cases ho
    exact ⟨_, rfl, hcut.res, hcut.deps, fun u hu => (hcut.ranges u).mp hu⟩
  | redirty hl hcut hr =>
    refine ⟨by simp, by simp [historyOf, hcut.history, hl], fun o' ho => ?_⟩
    cases ho
    exact ⟨_, rfl, hcut.res, hcut.deps, fun u hu => (hcut.ranges u).mp hu⟩
  | dirtyVacant hl hh => exact ⟨by simp, by simp [historyOf, hh], by simp⟩
  | redirtyVacant hl => exact ⟨by simp, hl, by simp⟩

/-- **What a transaction does to a key that it dirties**, which is always a change. -/
theorem applyUpdates_dirtied {c : Nat} {changes : List (Update K V)} {b : Bool}
    (hnd : (changes.map Prod.fst).Nodup) (hok : GraphOk c g) (hv : c < v)
    (h : CoreState.applyUpdates v g false changes = some (g', b))
    (hk : (k, .invalidate, p) ∈ changes) : Dirtied v (g.node k) (g'.node k) ∧ b := by
  obtain ⟨n, n', d, hage, htouch, hage', hd⟩ := CoreState.applyUpdates_touched hnd h hk
  have hhist := historyOf_le fun m hm => hok k m hm
  rw [← hage.history] at hhist
  have hne := CoreState.last_ne_of_lt hhist hv
  have hdrained : d.isSome := by
    cases htouch with
    | freshVacant p | dirty hlast hc hh hr | dirtyVacant hlast hh => rfl
    | redirty hlast hc hr | redirtyVacant hlast => exact absurd hlast hne
  exact ⟨hage.dirtied (htouch.dirtied.aged hage'), (hd hdrained).1⟩

/-- Force-dirtying a node again at the same version does not drain its reverse dependencies, which
does no harm if there are none. -/
theorem invalidate_rdepComplete_of_nil (hrd : RdepComplete g) (hnil : ∀ r, r ∉ rdepsAt g k)
    (h : g.invalidate k v .forceDirty p = some (g', changed))
    (hlast : (historyOf (g.node k)).versions.getLast? = some v) : RdepComplete g' := by
  obtain ⟨n', d, htouch, -, popped, -, hnone, hstay, -, -⟩ := invalidate_spec h
  have hd : d = none := by
    generalize g.node k = x at htouch hlast
    cases htouch with
    | freshVacant p => cases hlast
    | dirty hl hcut hh hr | dirtyVacant hl hh => exact absurd hlast hl
    | redirty hl hcut hr | redirtyVacant hl => rfl
  have hnode : ∀ l, g'.node l = (g.setNode k n').node l := fun l => hstay l (hnone hd l)
  have hdirtied := htouch.dirtied
  intro top o' htop hopen dep hdep
  rw [hnode, node_setNode] at htop
  split at htop
  · next hk =>
    obtain ⟨o, -, -, -, hsub⟩ := hdirtied.occupied o' htop
    exact absurd hopen (not_unbounded_of_lt fun u hu => (hsub u hu).2)
  · obtain ⟨n, hn, hnopen, hmem⟩ := hrd top o' htop hopen dep hdep
    have hdk : dep ≠ k := fun heq => hnil top (heq ▸ (mem_rdepsAt hn).mpr hmem)
    exact ⟨n, by rw [hnode, node_setNode_ne _ _ hdk, hn], hnopen, hmem⟩

/-- Force-dirtying a key that is not injected makes no key injected, and none not injected. -/
theorem invalidate_isInjected (hk : ∀ o, g.node k ≠ some (.injected o))
    (h : g.invalidate k v .forceDirty p = some (g', changed)) (l : K) :
    g'.IsInjected l ↔ g.IsInjected l := by
  obtain ⟨hother, n', d, htouch, -, hage⟩ := invalidate_aged h
  by_cases hlk : l = k
  · subst hlk
    have hd := htouch.dirtied.aged hage
    exact ⟨fun hi => absurd hi.node.choose_spec (hd.notInjected _),
      fun hi => absurd hi.node.choose_spec (hk _)⟩
  · have hl := hother l hlk
    unfold IsInjected
    generalize g.node l = x at hl
    generalize g'.node l = y at hl
    cases hl <;> exact Iff.rfl

/-- The key is force-dirtied at `v` for the first time, or nobody depends on it. -/
def FirstDirty (v : Nat) (g : VersionedGraph K V) (k : K) : Prop :=
  (historyOf (g.node k)).versions.getLast? ≠ some v ∨ rdepsAt g k = []

instance (v : Nat) (g : VersionedGraph K V) (k : K) : Decidable (FirstDirty v g k) :=
  inferInstanceAs (Decidable (_ ∨ _))

theorem invalidate_firstDirty (hl : FirstDirty v g l)
    (h : g.invalidate k v .forceDirty p = some (g', changed)) : FirstDirty v g' l := by
  have hsub : rdepsAt g l = [] → rdepsAt g' l = [] := fun hnil =>
    eq_nil_iff_forall_not_mem.mpr fun r hr => by
      have := (invalidate_rdeps h hr).1
      rw [hnil] at this
      cases this
  rcases hl with hl | hl
  · by_cases hlk : l = k
    · -- the first time the reverse dependencies are drained
      subst hlk
      obtain ⟨-, n', d, htouch, rfl, -⟩ := invalidate_aged h
      have hd : d.isSome := by
        generalize g.node l = x at htouch hl
        cases htouch with
        | freshVacant p | dirty hl' hcut hh hr | dirtyVacant hl' hh => rfl
        | redirty hl' hcut hr | redirtyVacant hl' => exact absurd hl' hl
      refine .inr (eq_nil_iff_forall_not_mem.mpr fun r hr => ?_)
      have := (invalidate_rdeps h hr).2 rfl
      rw [hd] at this
      cases this
    · exact .inl (((invalidate_aged h).1 l hlk).history ▸ hl)
  · exact .inr (hsub hl)

end VersionedGraph

namespace CoreState

open VersionedGraph

variable {v : Nat} {keys : List K} {cache cache' : SharedCache K V} {g g' : VersionedGraph K V}
  (h : rewindKeys v cache g keys = some (cache', g'))

include h in
/-- A key that is not rewound only ages, and so does an injected key. -/
theorem rewindKeys_aged (hl : l ∈ keys → ∃ o, g.node l = some (.injected o)) :
    Aged (g.node l) (g'.node l) := by
  refine rewindKeys_induction (P := fun g1 => Aged (g.node l) (g1.node l))
    (fun g1 g2 k changed hk hage hinj hinv => ?_) h (.refl _)
  refine hage.trans ((invalidate_aged hinv).1 l fun hlk => ?_)
  subst hlk
  obtain ⟨o, ho⟩ := hl hk
  rw [ho] at hage
  generalize hy : g1.node l = y at hage
  cases hage with
  | injected hv => exact hinj _ hy

include h in
theorem rewindKeys_dirtied (hl : l ∈ keys) (hinj : ∀ o, g.node l ≠ some (.injected o)) :
    Dirtied v (g.node l) (g'.node l) := by
  induction keys generalizing g cache with
  | nil => cases hl
  | cons k keys ih =>
    unfold rewindKeys at h
    by_cases hlk : l = k
    · subst hlk
      split at h
      · next o ho => exact absurd ho (hinj o)
      · obtain ⟨⟨g1, changed⟩, hinv, hrest⟩ := bind_eq_some_iff.mp h
        obtain ⟨-, n', d, htouch, -, hage⟩ := invalidate_aged hinv
        refine rewindKeys_induction (P := fun g2 => Dirtied v (g.node l) (g2.node l))
          (fun g2 g3 j changed _ hd _ hinv' => ?_) hrest (htouch.dirtied.aged hage)
        obtain ⟨hother, n2, d2, htouch2, -, hage2⟩ := invalidate_aged hinv'
        by_cases hlj : l = j
        · subst hlj
          exact hd.trans (htouch2.dirtied.aged hage2)
        · exact hd.aged (hother l hlj)
    · have hl' : l ∈ keys := (mem_cons.mp hl).resolve_left hlk
      split at h
      · exact ih h hl' hinj
      · obtain ⟨⟨g1, changed⟩, hinv, hrest⟩ := bind_eq_some_iff.mp h
        have hage := (invalidate_aged hinv).1 l hlk
        refine hage.dirtied (ih hrest hl' fun o ho => ?_)
        rw [ho] at hage
        generalize hx : g.node l = x at hage
        cases hage with
        | injected hv => exact hinj _ hx

include h in
theorem rewindKeys_rdeps {r : K} (hr : r ∈ rdepsAt g' l) : r ∈ rdepsAt g l :=
  rewindKeys_induction (P := fun g1 => ∀ r, r ∈ rdepsAt g1 l → r ∈ rdepsAt g l)
    (fun _ _ _ _ _ hsub _ hinv r hr => hsub r (invalidate_rdeps hinv hr).1) h (fun _ hr => hr) r hr

theorem rewindKeys_rdepComplete (hrd : RdepComplete g) (hfirst : ∀ k ∈ keys, FirstDirty v g k)
    (h : rewindKeys v cache g keys = some (cache', g')) : RdepComplete g' := by
  refine (rewindKeys_induction (P := fun g1 => RdepComplete g1 ∧ ∀ k ∈ keys, FirstDirty v g1 k)
    (fun g1 g2 k changed hk hg _ hinv => ⟨?_, fun l hl => ?_⟩) h ⟨hrd, hfirst⟩).1
  · by_cases hlast : (historyOf (g1.node k)).versions.getLast? = some v
    · have hnil := (hg.2 k hk).resolve_left fun hne => hne hlast
      exact invalidate_rdepComplete_of_nil hg.1 (by simp [hnil]) hinv hlast
    · exact invalidate_rdepComplete hg.1 (fun _ => hlast) hinv
  · exact invalidate_firstDirty (hg.2 l hl) hinv

include h in
/-- A key without readers is not reached by the rewinds of other keys. -/
theorem rewindKeys_spared (hl : l ∉ keys) (hspared : SparedBy (fun _ => False) g l) :
    g'.node l = g.node l := by
  refine (rewindKeys_induction
    (P := fun g1 => SparedBy (fun _ => False) g1 l ∧ g1.node l = g.node l)
    (fun g1 g2 k changed hk hg _ hinv => ⟨invalidate_sparedBy hinv hg.1, ?_⟩) h
    ⟨hspared, rfl⟩).2
  refine Eq.trans ?_ hg.2
  exact (invalidate_spared hinv (fun _ _ _ hF => hF) False.elim hg.1).1 fun heq => hl (heq ▸ hk)

include h in
/-- The cache after the loop: the keys that are not injected were rewound in it. -/
theorem rewindKeys_cache :
    cache' = (keys.filter fun k => decide ¬ g.IsInjected k).foldl SharedCache.rewind cache := by
  induction keys generalizing g cache with
  | nil => cases h; rfl
  | cons k keys ih =>
    unfold rewindKeys at h
    split at h
    · next o ho =>
      have hinj : g.IsInjected k := by simp [IsInjected, ho]
      rw [filter_cons_of_neg (by simpa using hinj)]
      exact ih h
    · next hinj =>
      obtain ⟨⟨g1, changed⟩, hinv, hrest⟩ := bind_eq_some_iff.mp h
      have hnot : ¬ g.IsInjected k := fun hi => hinj _ hi.node.choose_spec
      have hsame := invalidate_isInjected (fun o => hinj o) hinv
      rw [filter_cons_of_pos (by simpa using hnot), foldl_cons]
      rw [ih hrest]
      simp only [hsame]

end CoreState

end Bz.Dice
