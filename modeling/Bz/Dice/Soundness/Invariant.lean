import Bz.Task
import Bz.Dice.Evolution

/-!
# The soundness invariant

The joint invariant of verified ranges, force-dirty histories, reverse dependencies and stored
values, for keys that are given by rules: `Sound R F P c inputs g` relates the graph at the current
version `c` to the inputs and external cells of every version up to `c`.  `F` is a set of keys that
never change, `P` a set of keys to which values may be pushed; both are empty where nothing is
pushed.

Principal result: `Sound.frontier`, which transactions and rewinds keep the invariant.
-/

namespace Bz.Dice

open VersionedGraph ForceDirtyHistory Function

variable {K V C : Type} [DecidableEq K]

/-! ## Justified values -/

section Justified

variable (R : Rules K V C) (F : K → Prop) (I : Inputs K V C) (k : K) (x : V)

/-- The value is what the key computes from exactly the recorded deps. -/
def Recorded (deps : List K) : Prop :=
  ∃ reads, (R.task k (I.cell k)).replay reads = some x ∧ (∀ r ∈ reads, R.Eval I r.1 r.2) ∧
    ∀ d, d ∈ deps ↔ ∃ r ∈ reads, r.1 = d

/-- The value is what the key computes from keys that never change. -/
def Fixed : Prop :=
  ∃ reads, (R.task k (I.cell k)).replay reads = some x ∧
    ∀ r ∈ reads, F r.1 ∧ R.EvalIn F I r.1 r.2

end Justified

variable {R : Rules K V C} {F P : K → Prop} {I I' : Inputs K V C} {k : K} {x : V}

theorem Recorded.eval {deps : List K} (hk : R.isInput k = false) (h : Recorded R I k x deps) :
    R.Eval I k x := by
  obtain ⟨reads, hx, hreads, -⟩ := h
  exact .of_replay hk hx hreads

theorem Fixed.eval (hk : R.isInput k = false) (h : Fixed R F I k x) : R.Eval I k x := by
  obtain ⟨reads, hx, hreads⟩ := h
  exact .of_replay hk hx fun r hr => (hreads r hr).2.eval

theorem Fixed.congr (hcell : I'.cell k = I.cell k) (hF : ∀ l, F l → Rules.Agree I I' l)
    (h : Fixed R F I k x) : Fixed R F I' k x := by
  obtain ⟨reads, hx, hreads⟩ := h
  refine ⟨reads, by rw [hcell]; exact hx, fun r hr => ?_⟩
  obtain ⟨hFr, he⟩ := hreads r hr
  exact ⟨hFr, he.congr hF hFr⟩

/-! ## The invariant -/

/-- The value of an injected node. -/
def valueAt : Option (VersionedGraphNode K V) → Nat → Option V
  | some (.injected o), u => (o.dataAt u).map InjectedNodeData.value
  | _, _ => none

/-- In the current segment of the key's history its cell is constant and its stored value was
computed from the recorded deps. -/
structure Calm (R : Rules K V C) (c : Nat) (inputs : Nat → Inputs K V C)
    (n : Option (VersionedGraphNode K V)) (k : K) : Prop where
  cell : ∀ u ≤ c, u ∈ (historyOf n).restrictedRange c → (inputs u).cell k = (inputs c).cell k
  recorded : ∀ o x, n = some (.occupied o) → o.res.asHydrated = some x →
    ∀ p ∈ o.verifiedRanges, p ≤ c → p ∈ (historyOf n).restrictedRange c →
      Recorded R (inputs p) k x o.deps.iterKeys

/-- A pushed value that is valid from now on, and that no change can reach. -/
def PushedLive (R : Rules K V C) (F P : K → Prop) (I : Inputs K V C) (g : VersionedGraph K V)
    (k : K) : Prop :=
  P k ∧ SparedBy F g k ∧ ∃ o x, g.node k = some (.occupied o) ∧ o.res.asHydrated = some x ∧
    o.verifiedRanges.Unbounded ∧ Fixed R F I k x

/-- The soundness invariant. -/
structure Sound (R : Rules K V C) (F P : K → Prop) (c : Nat) (inputs : Nat → Inputs K V C)
    (g : VersionedGraph K V) : Prop where
  ok : GraphOk c g
  rdeps : RdepComplete g
  live : VerifiedOpen c g
  frozen : FrozenRdeps F g
  kind : ∀ k n, g.node k = some n → (R.isInput k = true ↔ ∃ o, n = .injected o)
  hydrated : ∀ k o, g.node k = some (.occupied o) → ∃ x, o.res.asHydrated = some x
  value : ∀ k, R.isInput k = true → ∀ u ≤ c, (inputs u).value k = valueAt (g.node k) u
  just : ∀ k o x, g.node k = some (.occupied o) → o.res.asHydrated = some x →
    ∀ u ∈ o.verifiedRanges, u ≤ c →
      Recorded R (inputs u) k x o.deps.iterKeys ∨ Fixed R F (inputs u) k x
  segment : ∀ k, R.isInput k = false →
    Calm R c inputs (g.node k) k ∨ PushedLive R F P (inputs c) g k

namespace Sound

variable {c : Nat} {inputs : Nat → Inputs K V C} {g : VersionedGraph K V}
  {o : OccupiedGraphNode K V} (h : Sound R F P c inputs g)

include h

theorem not_input (ho : g.node k = some (.occupied o)) : R.isInput k = false := by
  by_contra hk
  obtain ⟨o', ho'⟩ := (h.kind k _ ho).mp (by simpa using hk)
  cases ho'

theorem eval_occupied {u : Nat} (ho : g.node k = some (.occupied o))
    (hx : o.res.asHydrated = some x) (hu : u ∈ o.verifiedRanges) (huc : u ≤ c) :
    R.Eval (inputs u) k x := by
  rcases h.just k o x ho hx u hu huc with hr | hf
  · exact hr.eval (h.not_input ho)
  · exact hf.eval (h.not_input ho)

/-- What the graph answers is the value of the key from scratch. -/
theorem eval_of_matched {u : Nat} {r : DiceComputedValue V} (hu : u ≤ c)
    (hr : g.get k u = .matched r) : R.Eval (inputs u) k r.value := by
  rcases get_matched hr with ⟨o, ho, hv, hx, -⟩ | ⟨o, data, ho, hdata, rfl⟩
  · exact h.eval_occupied ho hx hv hu
  · have hin : R.isInput k := (h.kind k _ ho).mpr ⟨o, rfl⟩
    refine .input hin ?_
    rw [h.value k hin u hu, ho]
    simp [valueAt, hdata]

end Sound

/-! ## Transactions and rewinds -/

/-- What may happen to the node and the inputs of a key at version `w`. -/
inductive Outcome (R : Rules K V C) (F P : K → Prop) (c w : Nat) (I I' : Inputs K V C)
    (g g' : VersionedGraph K V) (l : K) : Prop where
  | aged (h : Aged (g.node l) (g'.node l))
      (hspared : R.isInput l = false → SparedBy F g l → g'.node l = g.node l)
        (hvalue : I'.value l = I.value l)
      (hcell : I'.cell l = I.cell l)
  | injected {o : InjectedGraphNode K V} (hin : R.isInput l = true)
      (h : g'.node l = some (.injected o)) (hnone : ∀ r, r ∉ rdepsAt g' l)
      (hvalue : ∀ u ≤ w, valueAt (g'.node l) u =
        if u = w then I'.value l else valueAt (g.node l) u)
  | dirtied (hin : R.isInput l = false) (hinj : ∀ o, g'.node l ≠ some (.injected o))
      (hlast : (historyOf (g'.node l)).versions.getLast? = some w)
      (hocc : ∀ o', g'.node l = some (.occupied o') → ∃ o, g.node l = some (.occupied o) ∧
        o'.res = o.res ∧ o'.deps = o.deps ∧ ∀ u ∈ o'.verifiedRanges, u ∈ o.verifiedRanges ∧ u < w)
  | pushed {x : V} {hist : ForceDirtyHistory} (hin : R.isInput l = false) (hP : P l)
      (hspared : SparedBy F g l) (hfix : Fixed R F I' l x)
      (h : g'.node l = some (.occupied (.new x .none (.ofRange (.beginsWith w)) hist)))
  | samePushed {o : OccupiedGraphNode K V} {x : V} (hP : P l) (hspared : SparedBy F g l)
      (hg : g.node l = some (.occupied o)) (h : g'.node l = some (.occupied o))
      (hx : o.res.asHydrated = some x) (hc : c ∈ o.verifiedRanges) (hfix : Fixed R F I' l x)

namespace Sound

variable {c w : Nat} {inputs : Nat → Inputs K V C} {g g' : VersionedGraph K V}

/-- The hypotheses on a transaction or a rewind that leads from `g` at `c` to `g'` at `w`. -/
structure Frontier (R : Rules K V C) (F P : K → Prop) (c w : Nat) (I I' : Inputs K V C)
    (g g' : VersionedGraph K V) : Prop where
  le : c ≤ w
  le_succ : w ≤ c + 1
  ok : GraphOk w g'
  rdeps : RdepComplete g'
  live : VerifiedOpen w g'
  shrink : ∀ l r, r ∈ rdepsAt g' l → r ∈ rdepsAt g l
  agree : ∀ l, F l → Rules.Agree I I' l
  outcome : ∀ l, Outcome R F P c w I I' g g' l

/-- The inputs of every version after the frontier moved. -/
abbrev inputsAt (inputs : Nat → Inputs K V C) (w : Nat) (I' : Inputs K V C) :
    Nat → Inputs K V C := update inputs w I'

variable (h : Sound R F P c inputs g) (hf : Frontier R F P c w (inputs c) I' g g')

include h

/-- A version that is still verified at the frontier was verified at the old one. -/
theorem verified_before (hcw : c ≤ w) {l : K} {o : OccupiedGraphNode K V}
    (ho : g.node l = some (.occupied o)) (hw : w ∈ o.verifiedRanges) : c ∈ o.verifiedRanges := by
  rcases Nat.lt_or_ge c w with hlt | hge
  · exact (h.ok l _ ho).1 w hlt hw c le_rfl
  · rwa [Nat.le_antisymm hcw hge]

include hf

theorem eval_of_supports {l : K} {y : V} (hl : ∃ k, Supports g' l k)
    (hy : R.Eval (inputs c) l y) : R.Eval I' l y := by
  refine Rules.Eval.transport (S := fun l => ∃ k, Supports g' l k) ?_ hl hy
  rintro l y ⟨k, n', hn', hopen, hk⟩ hy
  cases hf.outcome l with
  | injected hin h hnone hvalue => exact absurd ((mem_rdepsAt hn').mpr hk) (hnone k)
  | pushed hin hP hsp hfix hnode =>
    rw [hnode] at hn'
    cases hn'
    cases hk
  | samePushed hP hsp hg hg' hx hc hfix =>
    left
    have hin := h.not_input hg
    rw [hy.unique (h.eval_occupied hg hx hc le_rfl)]
    exact hfix.eval hin
  | dirtied hin hinj hlast hocc =>
    cases n' with
    | injected o => exact absurd hn' (hinj o)
    | vacant o => exact hopen.elim
    | occupied o =>
      obtain ⟨o0, -, -, -, hlt⟩ := hocc o hn'
      exact absurd hopen (not_unbounded_of_lt fun u hu => (hlt u hu).2)
  | aged hage hspared hvalue hcell =>
    refine .inr ⟨⟨fun x hx => hvalue.trans hx, hcell⟩, fun hin reads hreads hevals r hr => ?_⟩
    rw [hn'] at hage
    generalize hx : g.node l = x at hage
    cases hage with
    | injected hv =>
      rw [(h.kind l _ hx).mpr ⟨_, rfl⟩] at hin
      cases hin
    | vacant => exact hopen.elim
    | @occupied o o' hres hdeps hhist hsub =>
      obtain ⟨z, hz⟩ := h.hydrated l o hx
      have hw := (hf.ok l _ hn').1.of_unbounded hopen w le_rfl
      have hc := h.verified_before hf.le hx (hsub w hw)
      rcases h.just l o z hx hz c hc le_rfl with ⟨reads0, h1, h2, h3⟩ | ⟨reads0, h1, h2⟩
      · obtain ⟨rfl, -⟩ := Rules.replay_reads_unique hreads h1 hevals h2
        refine .inl ⟨l, hf.rdeps l o' hn' hopen r.1 ?_⟩
        rw [hdeps]
        exact (h3 r.1).mpr ⟨r, hr, rfl⟩
      · obtain ⟨rfl, -⟩ := Rules.replay_reads_unique hreads h1 hevals fun r hr => (h2 r hr).2.eval
        obtain ⟨hFr, he⟩ := h2 r hr
        exact .inr (he.congr hf.agree hFr).eval

theorem frontier_kind (k : K) (n : VersionedGraphNode K V) (hn : g'.node k = some n) :
    R.isInput k ↔ ∃ o, n = .injected o := by
  cases hf.outcome k with
  | aged hage hspared hvalue hcell =>
    rw [hn] at hage
    generalize hx : g.node k = x at hage
    cases hage with
    | vacant | occupied h1 h2 h3 h4 => exact (h.kind k _ hx).trans (by simp)
    | injected hv => exact ⟨fun _ => ⟨_, rfl⟩, fun _ => (h.kind k _ hx).mpr ⟨_, rfl⟩⟩
  | injected hin hnode hnone hvalue =>
    rw [hnode] at hn
    cases hn
    exact ⟨fun _ => ⟨_, rfl⟩, fun _ => hin⟩
  | dirtied hin hinj hlast hocc =>
    rw [hin]
    constructor
    · intro hfalse
      cases hfalse
    · rintro ⟨o, rfl⟩
      exact absurd hn (hinj o)
  | pushed hin hP hsp hfix hnode =>
    rw [hnode] at hn
    cases hn
    simp [hin]
  | samePushed hP hsp hg hg' hx hc hfix =>
    rw [hg'] at hn
    cases hn
    exact h.kind k _ hg

theorem frontier_hydrated (k : K) (o' : OccupiedGraphNode K V)
    (hn : g'.node k = some (.occupied o')) : ∃ x, o'.res.asHydrated = some x := by
  cases hf.outcome k with
  | aged hage hspared hvalue hcell =>
    rw [hn] at hage
    generalize hx : g.node k = x at hage
    cases hage with
    | occupied h1 h2 h3 h4 => rw [h1]; exact h.hydrated k _ hx
  | injected hin hnode hnone hvalue => rw [hnode] at hn; cases hn
  | dirtied hin hinj hlast hocc =>
    obtain ⟨o, ho, hres, -⟩ := hocc o' hn
    rw [hres]
    exact h.hydrated k o ho
  | pushed hin hP hsp hfix hnode =>
    rw [hnode] at hn
    cases hn
    exact ⟨_, rfl⟩
  | samePushed hP hsp hg hg' hx hc hfix =>
    rw [hg'] at hn
    cases hn
    exact ⟨_, hx⟩

theorem frontier_value (k : K) (hk : R.isInput k) (u : Nat) (hu : u ≤ w) :
    (inputsAt inputs w I' u).value k = valueAt (g'.node k) u := by
  have hcase : ∀ y, (u ≠ w → y = (inputs u).value k) → (u = w → y = I'.value k) →
      (inputsAt inputs w I' u).value k = y := by
    intro y h1 h2
    rcases eq_or_ne u w with rfl | hne
    · rw [inputsAt, update_self, h2 rfl]
    · rw [inputsAt, update_of_ne hne, h1 hne]
  have hle := hf.le_succ
  cases hf.outcome k with
  | aged hage hspared hvalue hcell =>
    have hsame : valueAt (g'.node k) u = valueAt (g.node k) u := by
      generalize hx : g.node k = x at hage
      generalize hy : g'.node k = y at hage
      cases hage with
      | absent | vacant | occupied h1 h2 h3 h4 => rfl
      | injected hv => simp only [valueAt, InjectedGraphNode.dataAt, hv]
    rw [hsame]
    refine hcase _ (fun hne => (h.value k hk u (by omega)).symm) ?_
    rintro rfl
    rw [hvalue, h.value k hk c le_rfl]
    -- no value was injected after `c`
    cases hn : g.node k with
    | none => rfl
    | some n =>
      obtain ⟨o, rfl⟩ := (h.kind k n hn).mp hk
      have hok := h.ok k _ hn
      simp only [valueAt]
      rw [dataAt_of_le hok.2 hf.le, dataAt_of_le hok.2 le_rfl]
  | injected hin hnode hnone hvalue =>
    rw [hvalue u hu]
    refine hcase _ (fun hne => ?_) fun he => if_pos he
    rw [if_neg hne]
    exact (h.value k hk u (by omega)).symm
  | dirtied hin hinj hlast hocc | pushed hin hP hsp hfix hnode => rw [hin] at hk; cases hk
  | samePushed hP hsp hg hg' hx hc hfix => rw [h.not_input hg] at hk; cases hk

/-- The deps of a node that is verified at the frontier keep their values. -/
theorem frontier_recorded {o' : OccupiedGraphNode K V}
    (hn : g'.node k = some (.occupied o')) (hw : w ∈ o'.verifiedRanges)
    (hcell : I'.cell k = (inputs c).cell k) (hrec : Recorded R (inputs c) k x o'.deps.iterKeys) :
    Recorded R I' k x o'.deps.iterKeys := by
  obtain ⟨reads, hx, hreads, hset⟩ := hrec
  refine ⟨reads, by rw [hcell]; exact hx, fun r hr => ?_, hset⟩
  have hdep := (hset r.1).mpr ⟨r, hr, rfl⟩
  exact h.eval_of_supports hf ⟨k, hf.rdeps k o' hn (hf.live k o' hn hw) r.1 hdep⟩ (hreads r hr)

theorem frontier_just (k : K) (o' : OccupiedGraphNode K V) (x : V)
    (hn : g'.node k = some (.occupied o'))
    (hx : o'.res.asHydrated = some x) (u : Nat) (hu : u ∈ o'.verifiedRanges) (huw : u ≤ w) :
    Recorded R (inputsAt inputs w I' u) k x o'.deps.iterKeys ∨
      Fixed R F (inputsAt inputs w I' u) k x := by
  have hle := hf.le_succ
  -- a version before the frontier was justified before
  have hold : ∀ o, g.node k = some (.occupied o) → o'.res = o.res → o'.deps = o.deps →
      u ∈ o.verifiedRanges → u ≠ w → Recorded R (inputsAt inputs w I' u) k x o'.deps.iterKeys ∨
        Fixed R F (inputsAt inputs w I' u) k x := by
    intro o ho hres hdeps hmem hne
    rw [inputsAt, update_of_ne hne, hdeps]
    exact h.just k o x ho (hres ▸ hx) u hmem (by omega)
  cases hf.outcome k with
  | aged hage hspared hvalue hcell =>
    rw [hn] at hage
    generalize hg : g.node k = y at hage
    cases hage with
    | @occupied o _ hres hdeps hhist hsub =>
      rcases eq_or_ne u w with rfl | hne
      · rw [inputsAt, update_self]
        have hc := h.verified_before hf.le hg (hsub u hu)
        rcases h.just k o x hg (hres ▸ hx) c hc le_rfl with hrec | hfix
        · exact .inl (h.frontier_recorded hf hn hu hcell (hdeps ▸ hrec))
        · exact .inr (hfix.congr hcell hf.agree)
      · exact hold o hg hres hdeps (hsub u hu) hne
  | injected hin hnode hnone hvalue => rw [hnode] at hn; cases hn
  | dirtied hin hinj hlast hocc =>
    obtain ⟨o, ho, hres, hdeps, hlt⟩ := hocc o' hn
    obtain ⟨hmem, hlt⟩ := hlt u hu
    exact hold o ho hres hdeps hmem (by omega)
  | pushed hin hP hsp hfix hnode =>
    rw [hnode] at hn
    cases hn
    simp only [OccupiedGraphNode.new, VersionRanges.mem_ofRange, VersionRange.mem_beginsWith] at hu
    obtain rfl : u = w := by omega
    rw [inputsAt, update_self]
    simp only [OccupiedGraphNode.new, PagableNodeValue.asHydrated_hydrated, Option.some.injEq] at hx
    subst hx
    exact .inr hfix
  | @samePushed o y hP hsp hg hg' hy hc hfix =>
    rw [hg'] at hn
    cases hn
    rcases eq_or_ne u w with rfl | hne
    · rw [inputsAt, update_self]
      rw [hx] at hy
      cases hy
      exact .inr hfix
    · exact hold o' hg rfl rfl hu hne

theorem frontier_calm (hage : Aged (g.node k) (g'.node k))
    (hcell : I'.cell k = (inputs c).cell k) (hcalm : Calm R c inputs (g.node k) k) :
    Calm R w (inputsAt inputs w I') (g'.node k) k := by
  have hle := hf.le_succ
  have hrange : (historyOf (g'.node k)).restrictedRange w =
      (historyOf (g.node k)).restrictedRange c := by
    have hbounds : boundsRev w none (historyOf (g.node k)).versions.reverse =
        boundsRev c none (historyOf (g.node k)).versions.reverse := by
      have hle : ∀ d ∈ (historyOf (g.node k)).versions.reverse, d ≤ c := fun d hd =>
        historyOf_le (fun n hn => h.ok k n hn) d (List.mem_reverse.mp hd)
      cases hds : (historyOf (g.node k)).versions.reverse with
      | nil => rfl
      | cons d ds =>
        have hd := hle d (hds ▸ List.mem_cons_self)
        simp [boundsRev, hd, hd.trans hf.le]
    rw [hage.history]
    simp only [ForceDirtyHistory.restrictedRange, hbounds]
  constructor
  · intro u hu hmem
    rw [hrange] at hmem
    rcases eq_or_ne u w with rfl | hne
    · rfl
    · rw [inputsAt, update_of_ne hne, update_self, hcell]
      exact hcalm.cell u (by omega) hmem
  · intro o' x hn hx p hp hpw hmem
    rw [hrange] at hmem
    rw [hn] at hage
    generalize hg : g.node k = y at hage
    cases hage with
    | @occupied o _ hres hdeps hhist hsub =>
      rw [hg] at hcalm hmem
      rcases eq_or_ne p w with rfl | hne
      · rw [inputsAt, update_self]
        have hc := h.verified_before hf.le hg (hsub p hp)
        refine h.frontier_recorded hf hn hp hcell (hdeps ▸ ?_)
        exact hcalm.recorded o x rfl (hres ▸ hx) c hc le_rfl (mem_restrictedRange_self _ c)
      · rw [inputsAt, update_of_ne hne, hdeps]
        exact hcalm.recorded o x rfl (hres ▸ hx) p (hsub p hp) (by omega) hmem

theorem frontier_segment (k : K) (hk : R.isInput k = false) :
    Calm R w (inputsAt inputs w I') (g'.node k) k ∨
      PushedLive R F P (inputsAt inputs w I' w) g' k := by
  have hspare : SparedBy F g k → SparedBy F g' k := fun hs d hd => hs d (hf.shrink d k hd)
  cases hf.outcome k with
  | aged hage hspared hvalue hcell =>
    rcases h.segment k hk with hcalm | ⟨hP, hs, o, x, ho, hx, hopen, hfix⟩
    · exact .inl (h.frontier_calm hf hage hcell hcalm)
    · refine .inr ⟨hP, hspare hs, o, x, (hspared hk hs).trans ho, hx, hopen, ?_⟩
      rw [inputsAt, update_self]
      exact hfix.congr hcell hf.agree
  | injected hin hnode hnone hvalue => rw [hin] at hk; cases hk
  | dirtied hin hinj hlast hocc =>
    left
    constructor
    · intro u hu hmem
      rw [Nat.le_antisymm hu (begin_of_last hlast hmem)]
    · intro o' x hn hx p hp _ hmem
      obtain ⟨o, -, -, -, hlt⟩ := hocc o' hn
      have h1 := (hlt p hp).2
      have h2 := begin_of_last hlast hmem
      omega
  | pushed hin hP hsp hfix hnode =>
    refine .inr ⟨hP, hspare hsp, _, _, hnode, rfl, unbounded_beginsWith w, ?_⟩
    rw [inputsAt, update_self]
    exact hfix
  | samePushed hP hsp hg hg' hx hc hfix =>
    refine .inr ⟨hP, hspare hsp, _, _, hg', hx, h.live k _ hg hc, ?_⟩
    rw [inputsAt, update_self]
    exact hfix

/-- **The invariant survives a transaction or a rewind** in which the nodes of all keys evolve as
described. -/
theorem frontier : Sound R F P w (inputsAt inputs w I') g' where
  ok := hf.ok
  rdeps := hf.rdeps
  live := hf.live
  frozen := fun d x hx => h.frozen d x (hf.shrink d x hx)
  kind := h.frontier_kind hf
  hydrated := h.frontier_hydrated hf
  value := h.frontier_value hf
  just := h.frontier_just hf
  segment := h.frontier_segment hf

end Sound

end Bz.Dice
