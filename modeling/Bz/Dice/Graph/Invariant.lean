import Bz.Dice.Graph.Storage

/-!
# Invariants of the versioned graph

Two invariants that every operation of the graph keeps.  `GraphOk c` says that nothing in the graph
lies behind the current version `c`: force-dirtied and injected versions are at most `c`, and
verified ranges do not distinguish versions after `c`.  `RdepComplete` says that a node whose last
verified range is open is recorded as a reverse dependency of all of its deps, which are open
themselves; it is what makes `invalidate` reach every node that it has to.

Principal results: `invalidate_graphOk`, `update_graphOk`, `invalidate_rdepComplete`, and
`update_rdepComplete`, which needs `NoLaterOpenRange`.
-/

namespace Bz.Dice

open VersionRanges OccupiedGraphNode List Option

variable {K V : Type} {valid : VersionRanges} {h : ForceDirtyHistory}
  {c' w u : Nat} {r : VersionRanges}

/-- The set does not distinguish versions after `c`: with one of them it contains all versions from
`c` on. -/
def VersionRanges.Settled (c : Nat) (s : VersionRanges) : Prop :=
  ∀ u, c < u → u ∈ s → ∀ w, c ≤ w → w ∈ s

namespace VersionRanges

variable {c : Nat} {s : VersionRanges} {t : VersionRanges}

theorem Settled.mono (h : s.Settled c) (hle : c ≤ c') : s.Settled c' :=
  fun u hu hmem w hw => h u (by omega) hmem w (by omega)

theorem Settled.unbounded (h : s.Settled c) (hu : c < u) (hmem : u ∈ s) : s.Unbounded := by
  rw [unbounded_iff_cofinal]
  exact fun n => ⟨max n c, le_max_left _ _, h u hu hmem _ (le_max_right _ _)⟩

theorem Settled.of_unbounded (h : s.Settled c) (hu : s.Unbounded) : ∀ w, c ≤ w → w ∈ s := by
  obtain ⟨u, hle, hmem⟩ := unbounded_iff_cofinal.mp hu (c + 1)
  exact h u (by omega) hmem

theorem settled_beginsWith {b : Nat} (h : b ≤ c) : (ofRange (.beginsWith b)).Settled c := by
  intro u _ _ w hw
  simp
  omega

theorem Settled.and (hs : s.Settled c) (ht : t.Settled c)
    (hr : ∀ u, u ∈ r ↔ u ∈ s ∧ u ∈ t) : r.Settled c := by
  intro u hu hmem w hw
  obtain ⟨h1, h2⟩ := (hr u).mp hmem
  exact (hr w).mpr ⟨hs u hu h1 w hw, ht u hu h2 w hw⟩

theorem Settled.or (hs : s.Settled c) (ht : t.Settled c)
    (hr : ∀ u, u ∈ r ↔ u ∈ s ∨ u ∈ t) : r.Settled c := by
  intro u hu hmem w hw
  rcases (hr u).mp hmem with h | h
  · exact (hr w).mpr (.inl (hs u hu h w hw))
  · exact (hr w).mpr (.inr (ht u hu h w hw))

end VersionRanges

namespace VersionedGraph

/-! ## Nothing lies behind the current version -/

/-- The versions stored in a node are at most `c`. -/
def NodeOk (c : Nat) : VersionedGraphNode K V → Prop
  | .occupied n => n.verifiedRanges.Settled c ∧ ∀ d ∈ n.dirtiedHistory.versions, d ≤ c
  | .injected n => InjectedGraphNode.ValuesOk n.values ∧ ∀ e ∈ n.values, e.1 ≤ c
  | .vacant n => ∀ d ∈ n.dirtiedHistory.versions, d ≤ c

/-- All nodes are in order. -/
def GraphOk [DecidableEq K] (c : Nat) (g : VersionedGraph K V) : Prop :=
  ∀ k n, g.node k = some n → NodeOk c n

variable {c v : Nat} {n n' : VersionedGraphNode K V} {kind : InvalidateKind V}
  {x : Option (VersionedGraphNode K V)} {popped : K → Prop} {g g' g1 : VersionedGraph K V}
  {k l d : K} {deps : List K} {r : ValueReusable} {ret : DiceComputedValue V}
  {y : Option (VersionedGraphNode K V)} {changed : Bool} {p : InvalidationSourcePriority}
  {st : StorageType} {o : OccupiedGraphNode K V}

theorem NodeOk.mono (h : NodeOk c n) (hle : c ≤ c') : NodeOk c' n := by
  cases n with
  | occupied n => exact ⟨h.1.mono hle, fun d hd => (h.2 d hd).trans hle⟩
  | injected n => exact ⟨h.1, fun e he => (h.2 e he).trans hle⟩
  | vacant n => exact fun d hd => (h d hd).trans hle

theorem NodeOk.cut {n n' : OccupiedGraphNode K V} (h : NodeOk c (.occupied n)) (hv : v ≤ c + 1)
    (hcut : n.Cut v n') : NodeOk c (.occupied n') := by
  refine ⟨fun u hlt hu => ?_, ?_⟩
  · have := ((hcut.ranges u).mp hu).2
    omega
  · rw [hcut.history]; exact h.2

theorem onInjected_ok [DiceValue V] {n n' : InjectedGraphNode K V} {x : V} {r : Option (List K)}
    (hok : InjectedGraphNode.ValuesOk n.values) (h : n.onInjected v x = some (n', .changed r)) :
    InjectedGraphNode.ValuesOk n'.values ∧
      (∀ e ∈ n'.values, e.1 = v ∨ ∃ e0 ∈ n.values, e.1 = e0.1) ∧
      (∀ e ∈ n.values, e.1 < v) ∧
      ∀ u, (n'.dataAt u).map InjectedNodeData.value =
        if v ≤ u then some x else (n.dataAt u).map InjectedNodeData.value := by
  unfold InjectedGraphNode.onInjected at h
  split at h
  · next w latest hlast =>
    split at h
    · cases h
    · split at h
      · next hlt =>
        cases h
        obtain ⟨h1, h2, -, h4⟩ := InjectedGraphNode.sortedInsert_spec hok hlast hlt x
        refine ⟨h1, h2, fun e he => ?_, h4⟩
        have hw : latest.firstValidVersion = w := (hok.last_first hlast).1
        exact (InjectedGraphNode.ValuesOk.le_last hok hlast e he).trans_lt (hw ▸ hlt)
      · cases h
  · next hlast =>
    rw [getLast?_eq_none_iff.mp hlast] at hok
    exact hok.elim

theorem touch_nodeOk [DiceValue V] {d : Option (List K)} (hv : v ≤ c)
    (hx : ∀ n, x = some n → NodeOk c n) (h : Touch v kind x n' d) : NodeOk c n' := by
  have hhist : ∀ {hs hs' : List Nat}, (∀ d ∈ hs, d ≤ c) → hs' = hs ++ [v] → ∀ d ∈ hs', d ≤ c := by
    intro hs hs' hle heq d hd
    rw [heq, mem_append, mem_singleton] at hd
    rcases hd with hd | rfl
    · exact hle d hd
    · exact hv
  cases h with
  | freshVacant p => exact fun d hd => by rw [mem_singleton.mp hd]; exact hv
  | freshInjected x => exact ⟨⟨rfl, rfl⟩, fun e he => by rw [mem_singleton.mp he]; exact hv⟩
  | freshOccupied x =>
    exact ⟨settled_beginsWith hv, fun d hd => absurd hd not_mem_nil⟩
  | dirty hlast hcut hh hr =>
    have hn := hx _ rfl
    exact ⟨(hn.cut (by omega) hcut).1, hhist hn.2 hh⟩
  | redirty hlast hcut hr => exact (hx _ rfl).cut (by omega) hcut
  | dirtyVacant hlast hh => exact hhist (hx _ rfl) hh
  | redirtyVacant hlast | sameOccupied hy he | sameInjected h => exact hx _ rfl
  | pushOccupied => exact ⟨settled_beginsWith hv, (hx _ rfl).2⟩
  | pushVacant => exact ⟨settled_beginsWith hv, hx _ rfl⟩
  | inject h hr =>
    have hn := hx _ rfl
    obtain ⟨h1, h2, -, -⟩ := onInjected_ok hn.1 h
    refine ⟨h1, fun e he => ?_⟩
    rcases h2 e he with rfl | ⟨e0, he0, heq⟩
    · exact hv
    · rw [heq]; exact hn.2 e0 he0

theorem Popped.nodeOk (h : Popped v popped x y) (hv : v ≤ c) (hx : ∀ n, x = some n → NodeOk c n) :
    ∀ n, y = some n → NodeOk c n := by
  cases h with
  | absent | invalid h => exact hx
  | cut h he hr =>
    rintro n hn
    cases hn
    exact (hx _ rfl).cut (by omega) h

variable [DecidableEq K]

/-- **`invalidate` at `v` keeps the versions at most `c`**, for any `c` not below `v`. -/
theorem invalidate_graphOk [DiceValue V] (hok : GraphOk c g) (hv : v ≤ c)
    (h : g.invalidate k v kind p = some (g', changed)) : GraphOk c g' := by
  obtain ⟨n', d, htouch, -, popped, -, -, hstay, hpop, -⟩ := invalidate_spec h
  have hset : GraphOk c (g.setNode k n') := by
    intro l n hn
    rw [node_setNode] at hn
    split at hn
    · cases hn; exact touch_nodeOk hv (fun n hn => hok k n hn) htouch
    · exact hok l n hn
  intro l n hn
  by_cases hl : popped l
  · exact (hpop l hl).nodeOk hv (hset l) n hn
  · rw [hstay l hl] at hn
    exact hset l n hn

omit [DecidableEq K] in
theorem nodeOk_eraseRdeps : NodeOk c (eraseRdeps n) ↔ NodeOk c n := by
  cases n <;> exact Iff.rfl

/-- After the loop over the deps a node differs from the old one in its reverse dependencies only.
-/
theorem RdepsAdded.node_of (h : RdepsAdded g k v deps g1) {n1 : VersionedGraphNode K V}
    (hn : g1.node l = some n1) : ∃ n, g.node l = some n ∧ eraseRdeps n1 = eraseRdeps n := by
  have hl := h.nodes l
  rw [hn, map_some] at hl
  obtain ⟨n, hn', he⟩ := map_eq_some_iff.mp hl.symm
  exact ⟨n, hn', he.symm⟩

theorem RdepsAdded.eq_of_erase (h : RdepsAdded g k v deps g1) {β : Type}
    {f : Option (VersionedGraphNode K V) → β} (hf : ∀ n, f (some (eraseRdeps n)) = f (some n)) :
    f (g1.node l) = f (g.node l) := by
  have hmap (x : Option (VersionedGraphNode K V)) : f (x.map eraseRdeps) = f x := by
    cases x with
    | none => rfl
    | some n => exact hf n
  rw [← hmap, h.nodes, hmap]

omit [DecidableEq K] in
theorem occupied_of_erase (h : x.map eraseRdeps = y.map eraseRdeps) (hx : x = some (.occupied o)) :
    ∃ o', y = some (.occupied o') ∧ o.res = o'.res ∧ o.deps = o'.deps ∧
      o.verifiedRanges = o'.verifiedRanges ∧ o.dirtiedHistory = o'.dirtiedHistory := by
  rw [hx, map_some] at h
  obtain ⟨n, rfl, he⟩ := map_eq_some_iff.mp h.symm
  cases n with
  | occupied o' =>
    simp only [eraseRdeps, VersionedGraphNode.occupied.injEq, OccupiedGraphNode.mk.injEq] at he
    exact ⟨o', rfl, he.1.symm, he.2.1.symm, he.2.2.2.1.symm, he.2.2.2.2.symm⟩
  | injected o' | vacant o' => cases he

theorem RdepsAdded.occupied_of (h : RdepsAdded g k v deps g1) {o1 : OccupiedGraphNode K V}
    (ho : g1.node l = some (.occupied o1)) :
    ∃ o, g.node l = some (.occupied o) ∧ o1.res = o.res ∧ o1.deps = o.deps ∧
      o1.verifiedRanges = o.verifiedRanges ∧ o1.dirtiedHistory = o.dirtiedHistory :=
  occupied_of_erase (h.nodes l) ho

theorem RdepsAdded.occupied_to (h : RdepsAdded g k v deps g1) (ho : g.node l = some (.occupied o)) :
    ∃ o1, g1.node l = some (.occupied o1) ∧ o.res = o1.res ∧ o.deps = o1.deps ∧
      o.verifiedRanges = o1.verifiedRanges ∧ o.dirtiedHistory = o1.dirtiedHistory :=
  occupied_of_erase (h.nodes l).symm ho

omit [DecidableEq K] in
/-- From the last injected version on, the last value is answered. -/
theorem dataAt_of_le {n : InjectedGraphNode K V} (h : ∀ e ∈ n.values, e.1 ≤ c)
    (hw : c ≤ w) : n.dataAt w = n.values.getLast?.map Prod.snd := by
  have hall : (n.values.filter fun e => decide (e.1 ≤ w)) = n.values := by
    rw [filter_eq_self]
    intro e he
    have := h e he
    simp only [decide_eq_true_eq]
    omega
  show ((n.values.filter fun e => decide (e.1 ≤ w)).getLast?).map Prod.snd = _
  rw [hall]

omit [DecidableEq K] in
theorem NodeOk.validAt_settled (h : NodeOk c n) : (validAt v n).Settled c := by
  cases n with
  | occupied o =>
    simp only [validAt]
    split
    · exact h.1
    · exact fun u _ hu => absurd hu not_mem_empty
  | vacant o => exact fun u _ hu => absurd hu not_mem_empty
  | injected o =>
    simp only [validAt]
    cases hd : o.dataAt v with
    | none => exact fun u _ hu => absurd hu not_mem_empty
    | some data =>
      intro u hu hmem w hw
      have hdu := (InjectedGraphNode.dataIn_spec h.1 hd).2 hmem
      have hdw : o.dataAt w = some data := by
        rw [dataAt_of_le h.2 hw, ← dataAt_of_le h.2 hu.le]
        exact hdu
      exact (InjectedGraphNode.dataIn_spec (u := w) h.1 hdw).1

omit [DecidableEq K] in
theorem historyOf_le (hx : ∀ n, x = some n → NodeOk c n) : ∀ d ∈ (historyOf x).versions, d ≤ c := by
  match x with
  | none => exact fun d hd => absurd hd not_mem_nil
  | some (.occupied n) => exact (hx _ rfl).2
  | some (.vacant n) => exact hx _ rfl
  | some (.injected n) => exact fun d hd => absurd hd not_mem_nil

/-- **`update` at `v ≤ c` keeps the versions at most `c`**, in the graph and in its answer. -/
theorem update_graphOk [DiceValue V] {x : V} {deps : SeriesParallelDeps K} (hok : GraphOk c g)
    (hv : v ≤ c)
    (h : g.update k v x r deps st = some (g', ret)) : GraphOk c g' ∧ ret.versions.Settled c := by
  obtain ⟨g1, valid, n', hadd, hvalid, hcomp, rfl⟩ := update_spec h
  have hok1 : GraphOk c g1 := by
    intro l n1 hn1
    obtain ⟨n, hn, he⟩ := hadd.node_of hn1
    rw [← nodeOk_eraseRdeps, he, nodeOk_eraseRdeps]
    exact hok l n hn
  have hsettled : valid.Settled c := by
    intro u hu hmem w hw
    rw [hvalid] at hmem ⊢
    intro d hd n hn
    exact (hok d n hn).validAt_settled u hu (hmem d hd n hn) w hw
  have hadded : (addedRanges (historyOf (g1.node k)) v valid).Settled c := by
    intro u hu hmem w hw
    rw [mem_addedRanges] at hmem ⊢
    rcases hmem with ⟨h1, h2⟩ | h1
    · refine .inl ⟨hsettled u hu h1 w hw,
        (ForceDirtyHistory.restrictedRange_begin_le _ v).trans (hv.trans hw), fun e he => ?_⟩
      have hend := historyOf_le (fun n hn => hok1 k n hn) e
        (ForceDirtyHistory.restrictedRange_end_mem he)
      have hlt := h2.2 e he
      omega
    · omega
  have hn' : NodeOk c n' ∧ ret.versions.Settled c := by
    cases hprev : g1.node k with
    | none =>
      rw [hprev] at hcomp hadded
      cases hcomp with
      | store hinj hlater hr =>
        have hs := hadded.and hadded fun u => (hr u).trans (and_self_iff).symm
        exact ⟨⟨hs, fun d hd => absurd hd not_mem_nil⟩, hs⟩
    | some n =>
      have hn := hok1 k n hprev
      rw [hprev] at hcomp hadded
      cases hcomp with
      | reuse hr hy =>
        have hs := hn.1.or hadded fun u => mem_markUnchanged
        refine ⟨⟨hs, ?_⟩, hs⟩
        rw [(markUnchanged_fields _ _).2.2.2]
        exact hn.2
      | skip hr hlater => exact ⟨hn, hadded⟩
      | store hinj hlater hr =>
        have hs := hadded.and hadded fun u => (hr u).trans (and_self_iff).symm
        exact ⟨⟨hs, historyOf_le fun m hm => hok1 k m (hprev.trans hm)⟩, hs⟩
  refine ⟨fun l n hn => ?_, hn'.2⟩
  rw [node_setNode] at hn
  split at hn
  · cases hn; exact hn'.1
  · exact hok1 l n hn

/-! ## Reverse dependencies are complete -/

/-- The node stays valid from some version on. -/
def Open : VersionedGraphNode K V → Prop
  | .occupied n => n.verifiedRanges.Unbounded
  | .injected n => ∃ w d, n.values.getLast? = some (w, d) ∧ d.validVersions.Unbounded
  | .vacant _ => False

/-- The dep `d` is open and knows its dependent `k`. -/
def Supports (g : VersionedGraph K V) (d k : K) : Prop :=
  ∃ n, g.node d = some n ∧ Open n ∧ k ∈ rdepsOf n

/-- A node with an open last range is a reverse dependency of each of its deps. -/
def RdepComplete (g : VersionedGraph K V) : Prop :=
  ∀ k o, g.node k = some (.occupied o) → o.verifiedRanges.Unbounded →
    ∀ d ∈ o.deps.iterKeys, Supports g d k

theorem unbounded_beginsWith (b : Nat) : (VersionRanges.ofRange (.beginsWith b)).Unbounded :=
  unbounded_iff_cofinal.mpr fun N => ⟨max N b, le_max_left _ _, by simp⟩

omit [DecidableEq K] in
theorem open_injected {n : InjectedGraphNode K V} (h : InjectedGraphNode.ValuesOk n.values) :
    Open (.injected n) := by
  cases hl : n.values.getLast? with
  | none =>
    rw [getLast?_eq_none_iff.mp hl] at h
    exact h.elim
  | some e => exact ⟨e.1, e.2, hl, (h.last_first hl).2 ▸ unbounded_beginsWith e.1⟩

theorem not_unbounded_of_lt {s : VersionRanges} (h : ∀ u ∈ s, u < v) : ¬ s.Unbounded := by
  rw [unbounded_iff_cofinal]
  intro hc
  obtain ⟨u, hu, hmem⟩ := hc v
  have := h u hmem
  omega

omit [DecidableEq K] in
theorem Popped.not_unbounded
    (h : Popped v popped x (some (.occupied o))) : ¬ o.verifiedRanges.Unbounded := by
  cases h with
  | invalid h => exact not_unbounded_of_lt h
  | cut h he hr => exact not_unbounded_of_lt fun u hu => ((h.ranges u).mp hu).2

omit [DecidableEq K] in
/-- A touched node drains its dependents or keeps them and stays as it is. -/
theorem Touch.drains [DiceValue V] {d : Option (List K)} (h : Touch v kind (some n) n' d)
    (hlast : kind = .forceDirty → (historyOf (some n)).versions.getLast? ≠ some v) :
    d = some (rdepsOf n) ∨ d = none ∧ n' = n := by
  cases h with
  | dirty hl hcut hh hr | dirtyVacant hl hh | pushOccupied | pushVacant => exact .inl rfl
  | redirty hl hcut hr | redirtyVacant hl => exact absurd hl (hlast rfl)
  | sameOccupied hy he | sameInjected h => exact .inr ⟨rfl, rfl⟩
  | inject h hr => exact .inl rfl

omit [DecidableEq K] in
/-- A touched node that changed has no deps or no open range. -/
theorem Touch.closed [DiceValue V] {o' : OccupiedGraphNode K V} {l : List K}
    (h : Touch v kind x (.occupied o') (some l)) :
    o'.deps.iterKeys = [] ∨ ¬ o'.verifiedRanges.Unbounded := by
  cases h with
  | freshOccupied x | pushOccupied | pushVacant => exact .inl rfl
  | dirty hl hcut hh hr => exact .inr (not_unbounded_of_lt fun u hu => ((hcut.ranges u).mp hu).2)

/-- **`invalidate` keeps reverse dependencies complete**, unless it force-dirties a node a second
time at its last force-dirtied version. -/
theorem invalidate_rdepComplete [DiceValue V] (hrd : RdepComplete g)
    (hlast : kind = .forceDirty → (historyOf (g.node k)).versions.getLast? ≠ some v)
    (h : g.invalidate k v kind p = some (g', changed)) : RdepComplete g' := by
  obtain ⟨n', d, htouch, -, popped, hdrain, hnone, hstay, hpop, -⟩ := invalidate_spec h
  intro top o' htop hopen dep hdep
  have hnp : ¬ popped top := by
    intro hp
    have hptop := hpop top hp
    rw [htop] at hptop
    exact hptop.not_unbounded hopen
  -- the dependent was open before, with the same deps
  have hsup : Supports g dep top := by
    rw [hstay top hnp, node_setNode] at htop
    split at htop
    · next hk =>
      subst hk
      cases htop
      cases d with
      | some l =>
        rcases htouch.closed with hnil | hcl
        · rw [hnil] at hdep; cases hdep
        · exact absurd hopen hcl
      | none =>
        cases hg : g.node top with
        | none => rw [hg] at htouch; cases htouch
        | some n =>
          rw [hg] at htouch hlast
          rcases htouch.drains hlast with hd | ⟨-, rfl⟩
          · cases hd
          · exact hrd top o' hg hopen dep hdep
    · exact hrd top o' htop hopen dep hdep
  -- its dep was not touched, or else the dependent would have been popped
  obtain ⟨n, hn, hnopen, hmem⟩ := hsup
  have hset : (g.setNode k n').node dep = some n := by
    rw [node_setNode]
    split
    · next hk =>
      subst hk
      rw [hn] at htouch hlast
      rcases htouch.drains hlast with rfl | ⟨-, rfl⟩
      · exact absurd (hdrain top hmem) hnp
      · rfl
    · exact hn
  refine ⟨n, ?_, hnopen, hmem⟩
  by_cases hdp : popped dep
  · have hpdep := hpop dep hdp
    rw [hset] at hpdep
    generalize g'.node dep = y at hpdep
    -- a dep that loses an open range takes its dependents with it
    cases hpdep with
    | invalid h => exact absurd hnopen (not_unbounded_of_lt h)
    | cut h he hr => exact absurd (hr _ hmem) hnp
  · rw [hstay dep hdp, hset]

/-- The open range of the node, if it has one and is verified at `v`, begins at most at `v`. -/
def OpenRangeBefore (v : Nat) : Option (VersionedGraphNode K V) → Prop
  | some (.occupied o) => v ∈ o.verifiedRanges →
      ∀ last ∈ o.verifiedRanges.last, last.endAt = none → last.begin ≤ v
  | _ => True

instance (v : Nat) : ∀ x : Option (VersionedGraphNode K V), Decidable (OpenRangeBefore v x)
  | some (.occupied o) => inferInstanceAs (Decidable (_ ∈ o.verifiedRanges → _))
  | some (.injected _) => isTrue trivial
  | some (.vacant _) => isTrue trivial
  | none => isTrue trivial

/-- No dep that is verified at `v` was dirtied and verified again after `v`. -/
def NoLaterOpenRange (g : VersionedGraph K V) (v : Nat) (deps : List K) : Prop :=
  ∀ d ∈ deps, OpenRangeBefore v (g.node d)

instance (g : VersionedGraph K V) (v : Nat) (deps : List K) :
    Decidable (NoLaterOpenRange g v deps) :=
  inferInstanceAs (Decidable (∀ d ∈ deps, OpenRangeBefore v (g.node d)))

/-- A checked result is stored with no more deps than were checked. -/
def ChecksStoredDeps (deps : List K) : ValueReusable → Option (VersionedGraphNode K V) → Prop
  | .versionBased p, some (.occupied o) =>
    p ∈ o.verifiedRanges → ∀ d ∈ o.deps.iterKeys, d ∈ deps
  | _, _ => True

instance (deps : List K) : ∀ (r : ValueReusable) (x : Option (VersionedGraphNode K V)),
    Decidable (ChecksStoredDeps deps r x)
  | .versionBased _, some (.occupied o) => inferInstanceAs (Decidable (_ ∈ o.verifiedRanges → _))
  | .versionBased _, some (.injected _) => isTrue trivial
  | .versionBased _, some (.vacant _) => isTrue trivial
  | .versionBased _, none => isTrue trivial
  | .equalityBased, _ => isTrue trivial

omit [DecidableEq K] in
theorem open_eraseRdeps : Open (eraseRdeps n) ↔ Open n := by
  cases n <;> exact Iff.rfl

theorem mem_rdepsAt {x : K} (h : g.node l = some n) : x ∈ rdepsAt g l ↔ x ∈ rdepsOf n := by
  simp [rdepsAt, h]

theorem RdepsAdded.supports (h : RdepsAdded g k v deps g1) (hs : Supports g d l) :
    Supports g1 d l := by
  obtain ⟨n, hn, hopen, hmem⟩ := hs
  have hd := h.nodes d
  rw [hn, map_some] at hd
  obtain ⟨n1, hn1, he⟩ := map_eq_some_iff.mp hd
  refine ⟨n1, hn1, open_eraseRdeps.mp (he ▸ open_eraseRdeps.mpr hopen), ?_⟩
  rw [← mem_rdepsAt hn1, h.rdeps]
  exact .inl ((mem_rdepsAt hn).mpr hmem)

/-- A dep whose valid versions at `v` are cofinal is open, and records the dependent if its open
range does not begin after `v`. -/
theorem RdepsAdded.supports_dep (h : RdepsAdded g k v deps g1) (hok : GraphOk c g)
    (hlater : NoLaterOpenRange g v deps) (hd : d ∈ deps)
    (hcof : ∀ N, ∃ u, N ≤ u ∧ ∀ n, g.node d = some n → u ∈ validAt v n) : Supports g1 d k := by
  obtain ⟨n, hn⟩ := h.exist d hd
  have hunb : (validAt v n).Unbounded := unbounded_iff_cofinal.mpr fun N => by
    obtain ⟨u, hu, hall⟩ := hcof N
    exact ⟨u, hu, hall n hn⟩
  have hrec : Open n ∧ recordsRdep v n = true := by
    cases n with
    | occupied o =>
      simp only [validAt] at hunb
      split at hunb
      · next hv =>
        obtain ⟨last, hl, he⟩ := hunb
        have hrange := hlater d hd
        rw [hn] at hrange
        refine ⟨⟨last, hl, he⟩, show o.shouldAddRdepAt _ = true from ?_⟩
        simp [OccupiedGraphNode.shouldAddRdepAt, hl, he, Nat.not_lt.mpr (hrange hv last hl he)]
      · exact absurd hunb (not_unbounded_of_lt (v := 0) fun u hu =>
          absurd hu not_mem_empty)
    | injected o => exact ⟨open_injected (hok d _ hn).1, rfl⟩
    | vacant o =>
      exact absurd hunb (not_unbounded_of_lt (v := 0) fun u hu =>
        absurd hu not_mem_empty)
  have hd' := h.nodes d
  rw [hn, map_some] at hd'
  obtain ⟨n1, hn1, he⟩ := map_eq_some_iff.mp hd'
  refine ⟨n1, hn1, open_eraseRdeps.mp (he ▸ open_eraseRdeps.mpr hrec.1), ?_⟩
  rw [← mem_rdepsAt hn1, h.rdeps]
  exact .inr ⟨rfl, hd, by simp [hn, hrec.2]⟩

/-- The dependents of an open node survive the update of its value. -/
theorem Computed.supports [DiceValue V] {x : V} {deps : SeriesParallelDeps K}
    (h : Computed v x valid r deps (g1.node k) n' ret) (hs : Supports g1 d l) :
    Supports (g1.setNode k n') d l := by
  obtain ⟨n, hn, hopen, hmem⟩ := hs
  by_cases hdk : d = k
  · subst hdk
    rw [hn] at h
    refine ⟨n', node_setNode_self _ _ _, ?_⟩
    cases h with
    | reuse hr hy =>
      refine ⟨?_, ?_⟩
      · refine unbounded_iff_cofinal.mpr fun N => ?_
        obtain ⟨u, hu, hmem⟩ := unbounded_iff_cofinal.mp hopen N
        exact ⟨u, hu, mem_markUnchanged.mpr (.inl hmem)⟩
      · show l ∈ (OccupiedGraphNode.markUnchanged _ _ _).rdeps.data
        rw [(markUnchanged_fields _ _).2.2.1]
        exact hmem
    | skip hr hlater => exact ⟨hopen, hmem⟩
    | store hinj hlater hr =>
      -- an open node is valid after every version, so its value is never replaced
      cases n with
      | occupied o =>
        have h1 := hlater o rfl
        rw [everValidAfter_of_unbounded hopen] at h1
        cases h1
      | injected o => exact absurd rfl (hinj o)
      | vacant o => exact hopen.elim
  · exact ⟨n, by rw [node_setNode_ne _ _ hdk, hn], hopen, hmem⟩

/-- **`update` keeps reverse dependencies complete**, if no dep was verified again after `v` and a
result checked against its deps is stored with the deps that were checked. -/
theorem update_rdepComplete [DiceValue V] {x : V} {deps : SeriesParallelDeps K} (hok : GraphOk c g)
    (hrd : RdepComplete g) (hlater : NoLaterOpenRange g v deps.iterKeys)
    (hstored : ChecksStoredDeps deps.iterKeys r (g.node k))
    (h : g.update k v x r deps st = some (g', ret)) : RdepComplete g' := by
  obtain ⟨g1, valid, n', hadd, hvalid, hcomp, rfl⟩ := update_spec h
  -- open nodes of the old graph and their deps
  have hold : ∀ top o, g1.node top = some (.occupied o) → o.verifiedRanges.Unbounded →
      ∀ dep ∈ o.deps.iterKeys, Supports (g1.setNode k n') dep top := by
    intro top o htop hopen dep hdep
    obtain ⟨o0, hn, -, hdeps, hranges, -⟩ := hadd.occupied_of htop
    exact hcomp.supports (hadd.supports (hrd top o0 hn (hranges ▸ hopen) dep (hdeps ▸ hdep)))
  -- a range that the new result leaves open is open in every dep
  have hnew : ∀ h : ForceDirtyHistory, (∀ N, ∃ u, N ≤ u ∧
      u ∈ OccupiedGraphNode.addedRanges h v valid) → ∀ dep ∈ deps.iterKeys,
      Supports (g1.setNode k n') dep k := by
    intro h hcof dep hdep
    refine hcomp.supports (hadd.supports_dep hok hlater hdep fun N => ?_)
    obtain ⟨u, hu, hmem⟩ := hcof (max N (v + 1))
    have hNv := (max_le_iff.mp hu)
    refine ⟨u, hNv.1, fun n hn => ?_⟩
    rcases mem_addedRanges.mp hmem with ⟨h1, -⟩ | rfl
    · exact (hvalid u).mp h1 dep hdep n hn
    · omega
  intro top o' htop hopen dep hdep
  rw [node_setNode] at htop
  split at htop
  · next hk =>
    subst hk
    cases htop
    cases hprev : g1.node top with
    | none =>
      rw [hprev] at hcomp
      cases hcomp with
      | store hinj hl hr =>
        refine hnew (historyOf (none : Option (VersionedGraphNode K V))) (fun N => ?_) dep hdep
        obtain ⟨u, hu, hmem⟩ := unbounded_iff_cofinal.mp hopen N
        exact ⟨u, hu, (hr u).mp hmem⟩
    | some n =>
      rw [hprev] at hcomp
      cases hcomp with
      | store hinj hl hr =>
        refine hnew (historyOf (some n)) (fun N => ?_) dep hdep
        obtain ⟨u, hu, hmem⟩ := unbounded_iff_cofinal.mp hopen N
        exact ⟨u, hu, (hr u).mp hmem⟩
      | skip hr hl => exact hold top _ hprev hopen dep hdep
      | @reuse o y hr hy =>
        rw [(o.markUnchanged_fields valid).2.1] at hdep
        by_cases ho : o.verifiedRanges.Unbounded
        · exact hold top o hprev ho dep hdep
        · refine hnew o.dirtiedHistory (fun N => ?_) dep ?_
          · rw [unbounded_iff_cofinal] at ho
            push Not at ho
            obtain ⟨M, hM⟩ := ho
            obtain ⟨u, hu, hmem⟩ := unbounded_iff_cofinal.mp hopen (max N M)
            have hNM := max_le_iff.mp hu
            exact ⟨u, hNM.1, (mem_markUnchanged.mp hmem).resolve_left (hM u hNM.2)⟩
          · cases r with
            | equalityBased =>
              simp only [ValueReusable.isReusable, Bool.and_eq_true, decide_eq_true_eq] at hr
              rw [hr.1]
              exact hdep
            | versionBased q =>
              obtain ⟨o0, hn0, -, hdeps, hranges, -⟩ := hadd.occupied_of hprev
              rw [hn0] at hstored
              refine hstored ?_ dep (hdeps ▸ hdep)
              rw [← hranges]
              exact contains_eq_true.mp hr
  · exact hold top o' htop hopen dep hdep

end VersionedGraph

end Bz.Dice
