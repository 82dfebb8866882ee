import Bz.Dice.Soundness.World

/-!
# Transactions keep the soundness invariant

Principal results: `Sound.frontier_of_advance` and `Sound.frontier_of_keep`: what a transaction does
to the nodes and to the inputs is covered by `Sound.frontier`, whether it advances the current
version or not.
-/

namespace Bz.Dice

open VersionedGraph Changes CoreState InjectedGraphNode List

variable {K V C : Type} {p : InvalidationSourcePriority}

namespace Changes

variable {changes : Changes K V C} {k : K} {c : Change V C}

theorem find_of_mem [DecidableEq K] (hnd : changes.keys.Nodup)
    (h : (k, c, p) ∈ changes) : changes.find k = some c := by
  unfold find
  induction changes with
  | nil => cases h
  | cons e changes ih =>
    obtain ⟨he, hnd'⟩ := nodup_cons.mp hnd
    rcases mem_cons.mp h with rfl | h
    · simp
    · have hne : e.1 ≠ k := fun heq => he (mem_map.mpr ⟨_, h, heq.symm⟩)
      rw [find?_cons_of_neg (by simpa using hne)]
      exact ih hnd' h

theorem find_of_not_mem [DecidableEq K] (h : k ∉ changes.keys) : changes.find k = none := by
  unfold find
  rw [Option.map_eq_none_iff, find?_eq_none]
  intro e he hk
  exact h (mem_map.mpr ⟨e, he, by simpa using hk⟩)

theorem keys_updates (changes : Changes K V C) : changes.updates.map Prod.fst = changes.keys := by
  simp [updates, keys, Function.comp_def]

theorem nodup_updates (h : changes.keys.Nodup) : (changes.updates.map Prod.fst).Nodup := by
  rw [keys_updates]
  exact h

theorem mem_updates (h : (k, c, p) ∈ changes) : (k, c.type, p) ∈ changes.updates :=
  mem_map.mpr ⟨(k, c, p), h, rfl⟩

theorem exists_of_mem_keys (h : k ∈ changes.keys) : ∃ c p, (k, c, p) ∈ changes := by
  obtain ⟨⟨l, c, p⟩, hm, rfl⟩ := mem_map.mp h
  exact ⟨c, p, hm⟩

end Changes

variable [DecidableEq K]

/-- The inputs with another cell for one key. -/
def setCell (I : Inputs K V C) (k : K) (e : C) : Inputs K V C :=
  { I with cell := Function.update I.cell k e }

variable [DiceValue V]

/-- A value may be pushed to `k`: it is what `k` computes from keys that never change, no other key
knows `k` as a reverse dependency, and a stored value is verified. -/
structure PushOk (R : Rules K V C) (F P : K → Prop) (c : Nat) (I : Inputs K V C)
    (g : VersionedGraph K V) (k : K) (x : V) (e : C) : Prop where
  pushable : P k
  fixed : Fixed R F (setCell I k e) k x
  spared : SparedBy F g k
  verified : ∀ o y, g.node k = some (.occupied o) → o.res.asHydrated = some y →
    DiceValue.equality y x = true → c ∈ o.verifiedRanges

/-- The changes of a transaction leave frozen keys alone, and push as is allowed. -/
structure ChangesOk (R : Rules K V C) (F P : K → Prop) (c : Nat) (I : Inputs K V C)
    (g : VersionedGraph K V) (changes : Changes K V C) : Prop where
  frozen : ∀ e ∈ changes, F e.1 → (∃ x, e.2.1 = .inject x) ∧ g.node e.1 = none
  push : ∀ e ∈ changes, ∀ x cell, e.2.1 = .push x cell → PushOk R F P c I g e.1 x cell

variable {R : Rules K V C} {F P : K → Prop} {c : Nat} {inputs : Nat → Inputs K V C}
  {g g' : VersionedGraph K V} {changes : Changes K V C}

omit [DecidableEq K] [DiceValue V] in
theorem fits_of_mem (h : changes.fits R) {e : K × Change V C × InvalidationSourcePriority}
    (he : e ∈ changes) : R.isInput e.1 ↔ ∃ x, e.2.1 = .inject x := by
  have := all_eq_true.mp h e he
  cases hc : e.2.1 <;> simp_all

namespace Sound

variable {e : C} {k : K} {x : V} {b : Bool} (h : Sound R F P c inputs g)

include h

theorem value_of_sameInjected {o : InjectedGraphNode K V} {v : Nat}
    (ho : valueAt (g.node k) c = valueAt (some (.injected o)) c) (hk : R.isInput k)
    (hle : ∀ e ∈ o.values, e.1 ≤ c) (hsame : o.onInjected v x = some (o, .noChange)) :
    (inputs c).value k = some x := by
  rw [h.value k hk c le_rfl, ho]
  simp only [valueAt]
  rw [dataAt_of_le hle le_rfl]
  unfold onInjected at hsame
  split at hsame
  · next w latest hlast =>
    split at hsame
    · next heq =>
      rw [hlast]
      simp [DiceValue.eq_of_equality heq]
    · split at hsame <;> simp at hsame
  · simp at hsame

omit [DiceValue V] in
/-- The node of an injected key is injected or absent, and so is what it ages to. -/
theorem aged_input {x : Option (VersionedGraphNode K V)} (hk : R.isInput k)
    (hage : Aged (g.node k) x) :
    (g.node k = none ∧ x = none) ∨ ∃ o o', g.node k = some (.injected o) ∧
      x = some (.injected o') ∧ o'.values = o.values := by
  generalize hg : g.node k = y at hage
  cases hage with
  | absent => exact .inl ⟨rfl, rfl⟩
  | injected hv => exact .inr ⟨_, _, rfl, rfl, hv⟩
  | vacant | occupied h1 h2 h3 h4 =>
    obtain ⟨o, ho⟩ := (h.kind k _ hg).mp hk
    cases ho

variable (hnd : changes.keys.Nodup)

include hnd

section Outcomes

variable (happ : CoreState.applyUpdates (c + 1) g false changes.updates = some (g', b))

include happ

theorem outcome_inject (hm : (k, .inject x, p) ∈ changes) (hk : R.isInput k) :
    Outcome R F P c (c + 1) (inputs c) (changeInputs (inputs c) changes) g g' k ∧
      (b = false → (inputs c).value k = some x) := by
  have hfind := find_of_mem hnd hm
  have hvalue : (changeInputs (inputs c) changes).value k = some x := by
    simp [changeInputs, hfind]
  have hcell : (changeInputs (inputs c) changes).cell k = (inputs c).cell k := by
    simp [changeInputs, hfind]
  obtain ⟨y, n', d, hage, htouch, hage', hchanged⟩ := applyUpdates_touched
    (nodup_updates hnd) happ (mem_updates hm)
  rcases h.aged_input hk hage with ⟨hg, rfl⟩ | ⟨o, o', hg, rfl, hv⟩
  · -- the key is new
    cases htouch with
    | freshInjected x =>
      generalize hg' : g'.node k = z at hage'
      cases hage' with
      | @injected _ o' hv =>
        obtain ⟨hb, hnone⟩ := hchanged rfl
        refine ⟨.injected hk hg' hnone fun u hu => ?_, fun hf => absurd (hb.symm.trans hf)
          (by simp)⟩
        have hdata : o'.dataAt u = dataIn [(c + 1, newNodeData x (c + 1))] u := by
          simp only [dataAt, hv]
          rfl
        rw [hg', hg, hvalue]
        simp only [valueAt, hdata, dataIn_singleton]
        by_cases heq : u = c + 1
        · simp [heq, newNodeData]
        · rw [if_neg (by omega), if_neg heq]
          rfl
  · have hok := h.ok k _ hg
    cases htouch with
    | sameInjected hsame =>
      have hval : (inputs c).value k = some x := by
        refine h.value_of_sameInjected (o := o') ?_ hk (by rw [hv]; exact hok.2) hsame
        simp only [hg, valueAt, dataAt, hv]
      refine ⟨.aged (hage.trans hage') (fun hf => ?_) (hvalue.trans hval.symm) hcell, fun _ => hval⟩
      rw [hk] at hf
      cases hf
    | @inject _ _ _ o'' hinj hrdeps =>
      obtain ⟨hb, hnone⟩ := hchanged rfl
      obtain ⟨-, -, -, hdata⟩ := onInjected_ok (by rw [hv]; exact hok.1) hinj
      generalize hg' : g'.node k = z at hage'
      cases hage' with
      | @injected _ o3 hv' =>
        refine ⟨.injected hk hg' hnone fun u hu => ?_, fun hf => absurd (hb.symm.trans hf)
          (by simp)⟩
        have hd : o3.dataAt u = o''.dataAt u := by simp only [dataAt, hv']
        have hd' : o'.dataAt u = o.dataAt u := by simp only [dataAt, hv]
        rw [hg', hg, hvalue]
        simp only [valueAt, hd, hdata u, hd']
        by_cases heq : u = c + 1
        · simp [heq]
        · rw [if_neg (by omega), if_neg heq]

theorem outcome_dirty (hm : (k, .dirty e, p) ∈ changes) (hk : R.isInput k = false) :
    Outcome R F P c (c + 1) (inputs c) (changeInputs (inputs c) changes) g g' k ∧ b := by
  obtain ⟨hd, hb⟩ := applyUpdates_dirtied (nodup_updates hnd) h.ok
    (Nat.lt_succ_self c) happ (mem_updates hm)
  exact ⟨.dirtied hk hd.notInjected hd.last hd.occupied, hb⟩
end Outcomes

variable (hfits : changes.fits R = true) (hok : ChangesOk R F P c (inputs c) g changes)

include hfits hok

theorem agree_of_changes {l : K} (hl : F l) :
    Rules.Agree (inputs c) (changeInputs (inputs c) changes) l := by
  by_cases hmem : l ∈ changes.keys
  · obtain ⟨ch, p, hm⟩ := exists_of_mem_keys hmem
    obtain ⟨⟨x, hx⟩, hnone⟩ := hok.frozen _ hm hl
    subst hx
    have hfind := find_of_mem hnd hm
    have hin : R.isInput l := (fits_of_mem hfits hm).mpr ⟨x, rfl⟩
    constructor
    · intro y hy
      rw [h.value l hin c le_rfl, hnone] at hy
      cases hy
    · simp [changeInputs, hfind]
  · have hfind := find_of_not_mem hmem
    exact ⟨fun y hy => by simp [changeInputs, hfind, hy], by simp [changeInputs, hfind]⟩

/-- The evaluation that gave a pushed value is still right after all changes. -/
theorem fixed_of_push (hm : (k, .push x e, p) ∈ changes) :
    Fixed R F (changeInputs (inputs c) changes) k x := by
  have hfind := find_of_mem hnd hm
  refine (hok.push _ hm x e rfl).fixed.congr ?_ fun l hl => ?_
  · simp [changeInputs, setCell, hfind]
  · have hlk : l ≠ k := by
      rintro rfl
      obtain ⟨⟨y, hy⟩, -⟩ := hok.frozen _ hm hl
      cases hy
    have hagree := h.agree_of_changes hnd hfits hok hl
    refine ⟨hagree.value, ?_⟩
    rw [hagree.cell]
    simp [setCell, hlk]

omit h hnd hfits in
theorem changes_frozen_absent : ∀ k ∈ changes.updates.map Prod.fst, F k → g.node k = none := by
  intro k hk hF
  rw [keys_updates] at hk
  obtain ⟨ch, p, hm⟩ := exists_of_mem_keys hk
  exact (hok.frozen _ hm hF).2

omit hfits in
/-- What becomes of the node of a key that is pushed to. -/
theorem node_of_push (happ : CoreState.applyUpdates (c + 1) g false changes.updates = some (g', b))
    (hm : (k, .push x e, p) ∈ changes) (hk : R.isInput k = false) :
    (∃ o, g.node k = some (.occupied o) ∧ g'.node k = some (.occupied o) ∧
      o.res.asHydrated = some x ∧ c ∈ o.verifiedRanges) ∨ (b ∧ ∃ hist, g'.node k =
      some (.occupied (.new x .none (.ofRange (.beginsWith (c + 1))) hist))) := by
  have hpush := hok.push _ hm x e rfl
  obtain ⟨n', d, htouch, hb, hn'⟩ := (applyUpdates_spared
    (nodup_updates hnd) happ h.frozen (changes_frozen_absent hok)
    hpush.spared).2 _ _ (mem_updates hm)
  generalize hg : g.node k = y at htouch
  cases htouch with
  | freshOccupied x | pushOccupied | pushVacant => exact .inr ⟨hb rfl, _, hn'⟩
  | sameOccupied hy he =>
    refine .inl ⟨_, rfl, hn', ?_, hpush.verified _ _ hg hy he⟩
    rw [hy, DiceValue.eq_of_equality he]
  | sameInjected hs | inject hs hr =>
    rw [(h.kind k _ hg).mpr ⟨_, rfl⟩] at hk
    cases hk

omit hfits in
theorem outcome_other {w : Nat}
    (happ : CoreState.applyUpdates (c + 1) g false changes.updates = some (g', b)) {l : K}
    (hl : l ∉ changes.keys) :
    Outcome R F P c w (inputs c) (changeInputs (inputs c) changes) g g' l := by
  have hl' : l ∉ changes.updates.map Prod.fst := by rw [keys_updates]; exact hl
  have hfind := find_of_not_mem hl
  refine .aged (applyUpdates_aged happ hl') (fun _ hs => ?_) ?_ ?_
  · exact (applyUpdates_spared (nodup_updates hnd) happ h.frozen
      (changes_frozen_absent hok) hs).1 hl'
  · simp [changeInputs, hfind]
  · simp [changeInputs, hfind]

/-- **A transaction that records a change** moves the frontier to the next version. -/
theorem frontier_of_advance
    (happ : CoreState.applyUpdates (c + 1) g false changes.updates = some (g', true)) :
    Frontier R F P c (c + 1) (inputs c) (changeInputs (inputs c) changes) g g' := by
  refine ⟨Nat.le_succ c, le_rfl, ?_, ?_, ?_, fun l r => applyUpdates_rdeps happ,
    fun l => h.agree_of_changes hnd hfits hok, fun l => ?_⟩
  · refine applyUpdates_induction (fun g g' k kind p changed _ hg hinv => ?_) happ
      fun k n hn => (h.ok k n hn).mono (Nat.le_succ c)
    exact invalidate_graphOk hg le_rfl hinv
  · refine applyUpdates_rdepComplete h.rdeps (fun k _ => ?_) (nodup_updates hnd) happ
    exact last_ne_of_lt (historyOf_le fun n hn => h.ok k n hn) (Nat.lt_succ_self c)
  · refine applyUpdates_induction (fun g g' k kind p changed _ hg hinv => ?_) happ
      fun k o ho hmem => (h.ok k _ ho).1.unbounded (Nat.lt_succ_self c) hmem
    exact invalidate_verifiedOpen hg hinv
  · by_cases hl : l ∈ changes.keys
    · obtain ⟨ch, p, hm⟩ := exists_of_mem_keys hl
      have hfit := fits_of_mem hfits hm
      cases ch with
      | inject x => exact (h.outcome_inject hnd happ hm (hfit.mpr ⟨x, rfl⟩)).1
      | dirty e => exact (h.outcome_dirty hnd happ hm (by simpa using hfit)).1
      | push x e =>
        have hin : R.isInput l = false := by simpa using hfit
        have hpush := hok.push _ hm x e rfl
        have hfix := h.fixed_of_push hnd hfits hok hm
        rcases h.node_of_push hnd hok happ hm hin with ⟨o, hg, hg', hx, hc⟩ | ⟨-, hist, hg'⟩
        · exact .samePushed hpush.pushable hpush.spared hg hg' hx hc hfix
        · exact .pushed hin hpush.pushable hpush.spared hfix hg'
    · exact h.outcome_other hnd hok happ hl

/-- **A transaction that records no change** leaves the nodes as they are. -/
theorem frontier_of_keep
    (happ : CoreState.applyUpdates (c + 1) g false changes.updates = some (g', false)) :
    Frontier R F P c c (inputs c) (changeInputs (inputs c) changes) g g' := by
  have hsame := applyUpdates_false h.ok (Nat.lt_succ_self c) happ
  refine ⟨le_rfl, Nat.le_succ c, fun k n hn => h.ok k n (hsame k ▸ hn), ?_,
    fun k o ho => h.live k o (hsame k ▸ ho), fun l r => applyUpdates_rdeps happ,
    fun l => h.agree_of_changes hnd hfits hok, fun l => ?_⟩
  · intro k o ho hopen d hd
    obtain ⟨n, hn, hr⟩ := h.rdeps k o (hsame k ▸ ho) hopen d hd
    exact ⟨n, (hsame d).trans hn, hr⟩
  · by_cases hl : l ∈ changes.keys
    · obtain ⟨ch, p, hm⟩ := exists_of_mem_keys hl
      have hfit := fits_of_mem hfits hm
      have hfind := find_of_mem hnd hm
      cases ch with
      | inject x =>
        have hval := (h.outcome_inject hnd happ hm (hfit.mpr ⟨x, rfl⟩)).2 rfl
        refine .aged (hsame l ▸ .refl _) (fun _ _ => hsame l) ?_ ?_
        · simp [changeInputs, hfind, hval]
        · simp [changeInputs, hfind]
      | dirty e => cases (h.outcome_dirty hnd happ hm (by simpa using hfit)).2
      | push x e =>
        have hpush := hok.push _ hm x e rfl
        have hfix := h.fixed_of_push hnd hfits hok hm
        rcases h.node_of_push hnd hok happ hm (by simpa using hfit) with
          ⟨o, hg, hg', hx, hc⟩ | ⟨hf, -⟩
        · exact .samePushed hpush.pushable hpush.spared hg hg' hx hc hfix
        · cases hf
    · exact h.outcome_other hnd hok happ hl

end Sound

end Bz.Dice
