import Mathlib.Algebra.Ring.Nat
import Bz.HostSharing.Broker
import Mathlib.Algebra.Order.BigOperators.Group.List
import Mathlib.Data.List.Perm.Basic
import Mathlib.Data.Set.Finite.Lemmas
import Mathlib.Data.String.Basic

/-!
# What guards exclude, and progress

Permits are counted: what is free and what guards hold adds up to the permits of the machine, and
for each named semaphore to one.  As long as no semaphore of a name is replaced, two calls that hold
a name hold the same semaphore, so that one of them waits.

Principal results: `permits_le`; `guards_exclude_and_progress`, for orderly runs; `guards_collide`,
for others.
-/

namespace Bz.HostSharing

open Bz.Machine Call List

/-! ## Sums over lists -/

section Sums

variable {α : Type} (g : α → Nat) {l : List α} {i j : Nat} {a b : α}

theorem sum_map_eraseIdx (h : l[i]? = some a) :
    (l.map g).sum = g a + ((l.eraseIdx i).map g).sum := by
  obtain ⟨hlt, rfl⟩ := List.getElem?_eq_some_iff.mp h
  exact ((getElem_cons_eraseIdx_perm hlt).map g).sum_eq.symm

theorem sum_map_set (h : l[i]? = some a) : ((l.set i b).map g).sum + g a = (l.map g).sum + g b := by
  obtain ⟨hlt, -⟩ := List.getElem?_eq_some_iff.mp h
  have hset := ((set_perm_cons_eraseIdx hlt b).map g).sum_eq
  rw [sum_map_eraseIdx g h, hset, map_cons, sum_cons]
  omega

theorem add_le_sum_map (hne : i ≠ j) (hi : l[i]? = some a) (hj : l[j]? = some b) :
    g a + g b ≤ (l.map g).sum := by
  have hmem : b ∈ l.eraseIdx i := mem_eraseIdx_iff_getElem?.mpr ⟨j, hne.symm, hj⟩
  have hle := single_le_sum (fun _ _ => Nat.zero_le _) _ (mem_map_of_mem (f := g) hmem)
  rw [sum_map_eraseIdx g hi]
  omega

end Sums

theorem getElem?_release (semaphores released : List Nat) (k : Nat) :
    (release semaphores released)[k]? = semaphores[k]?.map (· + released.count k) := by
  induction released generalizing semaphores with
  | nil => simp [release]
  | cons k' released ih =>
    refine (ih _).trans ?_
    rw [getElem?_modify, count_cons]
    by_cases heq : k' = k
    · subst heq
      cases semaphores[k']? <;> simp
      omega
    · simp [heq]

section Invariant

variable {N : Type} [LinearOrder N] {n : Nat} {s s' : State N} {c : Call N} {i : Nat}
  {c' : Call N} {permits : Nat}
  {buckets : List (N × Nat)} {k : Nat} {name : N} {d : Call N} {l : Label N}

/-! ## The permits of the machine -/

/-- What is free and what live guards hold. -/
def Balanced (n : Nat) (s : State N) : Prop := s.permits + (s.calls.map (held n)).sum = n

theorem held_of_ne (h : c.stage ≠ .held) : c.held n = 0 := if_neg h

theorem Balanced.set (h : Balanced n s) (hc : s.calls[i]? = some c)
    (hsame : permits + c'.held n = s.permits + c.held n) :
    permits + ((s.calls.set i c').map (held n)).sum = n := by
  have hsum := sum_map_set (held n) (b := c') hc
  unfold Balanced at h
  omega

theorem Balanced.advance (h : Balanced n s) (hc : s.calls[i]? = some c)
    (hstep : advance n s i c = some s') : Balanced n s' := by
  unfold HostSharing.advance at hstep
  split at hstep
  · next hstage _ =>
    cases hstep
    refine h.set hc ?_
    rw [held_of_ne (c := c) (by simp [hstage]), held_of_ne]
    cases s.buckets.lookup _ <;> simp
  · next hstage _ =>
    cases hstep
    exact h.set hc (by simp [held, hstage])
  · next hstage _ =>
    split at hstep
    · cases hstep
      exact h.set hc (by simp [held, hstage])
    · cases hstep
  · next hstage _ =>
    split at hstep
    · next hle =>
      cases hstep
      refine h.set hc ?_
      simp [held, hstage]
      omega
    · cases hstep
  · cases hstep

theorem Balanced.step (h : Balanced n s) (hstep : step n s l = some s') : Balanced n s' := by
  cases l with
  | acquire requirements =>
    cases hstep
    simpa [Balanced, held] using h
  | advance i =>
    obtain ⟨c, hc, hstep⟩ := Option.bind_eq_some_iff.mp hstep
    exact h.advance hc hstep
  | drop i =>
    dsimp only [HostSharing.step] at hstep
    split at hstep
    · cases hstep
    next c hc =>
    split at hstep
    · next hstage =>
      cases hstep
      refine h.set hc ?_
      simp [held, hstage]
    · cases hstep

/-! ## The named semaphores -/

/-- Where a call is in its list of names. -/
structure Placed (n : Nat) (buckets : List (N × Nat)) (c : Call N) : Prop where
  tokens : c.nameGuards.map Prod.fst ++ c.remaining = c.requirements.identifiers
  distinct : c.requirements.identifiers.Nodup
  weight : 1 ≤ c.requirements.permits n
  named : ∀ x ∈ c.nameGuards, buckets.lookup x.1 = some x.2
  insert : c.stage = .insert → c.remaining ≠ []
  wait : ∀ k, c.stage = .wait k → ∃ name ∈ c.remaining.head?, buckets.lookup name = some k
  held : c.stage = .held → c.remaining = []

/-- The invariant of all runs. -/
structure Sound (n : Nat) (s : State N) : Prop where
  balanced : Balanced n s
  semaphores : ∀ k free, s.semaphores[k]? = some free →
    free + (s.calls.map (holds k)).sum = 1
  bounded : ∀ name k, s.buckets.lookup name = some k → k < s.semaphores.length
  injective : ∀ name name' k, s.buckets.lookup name = some k → s.buckets.lookup name' = some k →
    name = name'
  placed : ∀ c ∈ s.calls, Placed n s.buckets c

theorem Placed.mono {buckets' : List (N × Nat)} (h : Placed n buckets c)
    (hle : ∀ name k, buckets.lookup name = some k → buckets'.lookup name = some k) :
    Placed n buckets' c := by
  refine { h with named := ?_, wait := ?_ }
  · intro x hx
    exact hle _ _ (h.named x hx)
  · intro k hk
    obtain ⟨name, hname, hlookup⟩ := h.wait k hk
    exact ⟨name, hname, hle _ _ hlookup⟩

theorem Sound.set (h : Sound n s) {semaphores : List Nat} (hc : s.calls[i]? = some c)
    (hbalanced : permits + ((s.calls.set i c').map (held n)).sum = n)
    (hlength : semaphores.length = s.semaphores.length)
    (hfree : ∀ k free, semaphores[k]? = some free → ∃ free', s.semaphores[k]? = some free' ∧
      free + c'.holds k = free' + c.holds k) (hplaced : Placed n s.buckets c') :
    Sound n { s with permits, semaphores, calls := s.calls.set i c' } := by
  refine ⟨hbalanced, ?_, ?_, h.injective, ?_⟩
  · intro k free hk
    obtain ⟨free', hfree', hsame⟩ := hfree k free hk
    have hsum := sum_map_set (holds k) (b := c') hc
    have hone := h.semaphores k free' hfree'
    dsimp only
    omega
  · intro name k hlookup
    rw [hlength]
    exact h.bounded name k hlookup
  · intro d hd
    rcases mem_or_eq_of_mem_set hd with hd | rfl
    · exact h.placed d hd
    · exact hplaced

theorem holds_append (hc : c.stage ≠ .dropped) (hc' : c'.stage ≠ .dropped)
    (hguards : c'.nameGuards = c.nameGuards ++ [(name, k)]) (k' : Nat) :
    c'.holds k' = c.holds k' + if k' = k then 1 else 0 := by
  unfold holds
  rw [if_neg hc, if_neg hc', hguards, map_append, count_append]
  by_cases heq : k' = k
  · simp [heq]
  · simp [heq, Ne.symm heq]

theorem Sound.restage (h : Sound n s) (hc : s.calls[i]? = some c) (hlive : c.stage ≠ .dropped)
    {stage : Stage} (hstage : stage ≠ .dropped)
    (hbalanced : permits + ((s.calls.set i { c with stage }).map (held n)).sum = n)
    (hplaced : Placed n s.buckets { c with stage }) :
    Sound n { s with permits, calls := s.calls.set i { c with stage } } := by
  refine h.set hc hbalanced rfl (fun k free hk => ⟨free, hk, ?_⟩) hplaced
  simp [holds, hlive, hstage]

theorem Sound.insert (h : Sound n s) {rest : List N} (hc : s.calls[i]? = some c)
    (hstage : c.stage = .insert) (hremaining : c.remaining = name :: rest)
    (hnew : s.buckets.lookup name = none) : Sound n { s with
      buckets := (name, s.semaphores.length) :: s.buckets
      semaphores := s.semaphores ++ [1]
      calls := s.calls.set i { c with stage := .wait s.semaphores.length } } := by
  have hlookup (name' : N) : List.lookup name' ((name, s.semaphores.length) :: s.buckets) =
      if name' = name then some s.semaphores.length else s.buckets.lookup name' := by
    by_cases heq : name' = name
    · simp [heq]
    · simp [lookup_cons, beq_false_of_ne heq, heq]
  have hmono (name' : N) (k : Nat) (hk : s.buckets.lookup name' = some k) :
      List.lookup name' ((name, s.semaphores.length) :: s.buckets) = some k := by
    rw [hlookup, if_neg, hk]
    rintro rfl
    simp [hnew] at hk
  have hplaced := h.placed c (mem_of_getElem? hc)
  refine ⟨?_, ?_, ?_, ?_, ?_⟩
  · exact h.balanced.set hc (by simp [held, hstage])
  · intro k free hk
    have hsame : holds k { c with stage := .wait s.semaphores.length } = c.holds k := by
      simp [holds, hstage]
    have hsum := sum_map_set (holds k) (b := { c with stage := .wait s.semaphores.length }) hc
    dsimp only at hk ⊢
    rw [getElem?_append] at hk
    split at hk
    · have hone := h.semaphores k free hk
      omega
    · -- the new semaphore: nobody holds it
      next hlt =>
      have hzero : (s.calls.map (holds k)).sum = 0 := by
        rw [sum_eq_zero_iff]
        intro x hx
        obtain ⟨d, hd, rfl⟩ := mem_map.mp hx
        unfold holds
        split
        · rfl
        · rw [count_eq_zero]
          intro hmem
          obtain ⟨y, hy, rfl⟩ := mem_map.mp hmem
          exact hlt (h.bounded _ _ ((h.placed d hd).named y hy))
      have hfree : free = 1 := by
        have hidx : k - s.semaphores.length = 0 := by
          have := (List.getElem?_eq_some_iff.mp hk).1
          simpa using this
        simpa [hidx] using hk.symm
      omega
  · intro name' k hk
    rw [hlookup] at hk
    rw [length_append, length_singleton]
    split at hk
    · cases hk
      omega
    · exact Nat.lt_succ_of_lt (h.bounded name' k hk)
  · intro name1 name2 k h1 h2
    rw [hlookup] at h1 h2
    split at h1 <;> split at h2
    · next heq1 heq2 => rw [heq1, heq2]
    · cases h1
      exact absurd (h.bounded _ _ h2) (Nat.lt_irrefl _)
    · cases h2
      exact absurd (h.bounded _ _ h1) (Nat.lt_irrefl _)
    · exact h.injective name1 name2 k h1 h2
  · intro d hd
    rcases mem_or_eq_of_mem_set hd with hd | rfl
    · exact (h.placed d hd).mono hmono
    · refine { hplaced.mono hmono with insert := nofun, wait := ?_, held := nofun }
      intro k hk
      cases hk
      exact ⟨name, by simp [hremaining], by rw [hlookup, if_pos rfl]⟩

theorem Sound.advance (h : Sound n s) (hc : s.calls[i]? = some c)
    (hinsert : ∀ name rest, c.stage = .insert → c.remaining = name :: rest →
      s.buckets.lookup name = none) (hstep : advance n s i c = some s') : Sound n s' := by
  have hbalanced := h.balanced.advance hc hstep
  have hplaced := h.placed c (mem_of_getElem? hc)
  unfold HostSharing.advance at hstep
  split at hstep
  · next name rest hstage hremaining =>
    cases hstep
    refine h.restage hc (by simp [hstage]) ?_ hbalanced ?_
    · cases s.buckets.lookup name <;> simp
    · cases hlookup : s.buckets.lookup name with
      | none => exact { hplaced with insert := by simp [hremaining], wait := nofun, held := nofun }
      | some semaphore =>
        refine { hplaced with insert := nofun, wait := ?_, held := nofun }
        intro k hk
        cases hk
        exact ⟨name, by simp [hremaining], hlookup⟩
  · next name rest hstage hremaining =>
    cases hstep
    exact h.insert hc hstage hremaining (hinsert name rest hstage hremaining)
  · next semaphore name rest hstage hremaining =>
    obtain ⟨name', hname', hlookup⟩ := hplaced.wait semaphore hstage
    obtain rfl : name = name' := by simpa [hremaining] using hname'
    split at hstep
    · next free hfree =>
      cases hstep
      refine h.set hc hbalanced (length_set ..) (fun k free' hk => ?_) ?_
      · rw [holds_append (c := c) (by simp [hstage]) (by simp) rfl]
        rw [getElem?_set] at hk
        split at hk
        · next heq =>
          subst heq
          split at hk
          · cases hk
            refine ⟨free + 1, hfree, ?_⟩
            rw [if_pos rfl]
            omega
          · cases hk
        · next hne => exact ⟨free', hk, by rw [if_neg (Ne.symm hne)]; rfl⟩
      · refine { hplaced with tokens := ?_, named := ?_, insert := nofun, wait := nofun, held :=
        nofun }
        · have htokens := hplaced.tokens
          rw [hremaining] at htokens
          simpa using htokens
        · intro x hx
          rcases mem_append.mp hx with hx | hx
          · exact hplaced.named x hx
          · rw [mem_singleton.mp hx]
            exact hlookup
    · cases hstep
  · next hstage hremaining =>
    split at hstep
    · cases hstep
      refine h.restage hc (by simp [hstage]) (by simp) hbalanced ?_
      exact { hplaced with insert := nofun, wait := nofun, held := fun _ => hremaining }
    · cases hstep
  · cases hstep

/-- **Every orderly step keeps the invariant.** -/
theorem Sound.step (h : Sound n s) (hl : orderly n s l)
    (hstep : step n s l = some s') : Sound n s' := by
  have hbalanced := h.balanced.step hstep
  cases l with
  | acquire requirements =>
    cases hstep
    simp only [orderly, Bool.and_eq_true, decide_eq_true_eq] at hl
    refine ⟨hbalanced, ?_, h.bounded, h.injective, ?_⟩
    · intro k free hk
      simpa [holds] using h.semaphores k free hk
    · intro c hc
      rcases mem_append.mp hc with hc | hc
      · exact h.placed c hc
      · rw [mem_singleton.mp hc]
        exact ⟨rfl, hl.1, hl.2, nofun, nofun, nofun, nofun⟩
  | advance i =>
    obtain ⟨c, hc, hstep⟩ := Option.bind_eq_some_iff.mp hstep
    refine h.advance hc (fun name rest hstage hremaining => ?_) hstep
    obtain ⟨requirements, nameGuards, remaining, stage⟩ := c
    subst hstage hremaining
    simpa [orderly, hc] using hl
  | drop i =>
    dsimp only [HostSharing.step] at hstep
    split at hstep
    · cases hstep
    next c hc =>
    split at hstep
    · next hstage =>
      cases hstep
      have hplaced := h.placed c (mem_of_getElem? hc)
      refine h.set hc hbalanced ?_ (fun k free hk => ?_) ?_
      · rw [release]
        generalize c.nameGuards.map Prod.snd = ks
        generalize s.semaphores = semaphores
        induction ks generalizing semaphores with
        | nil => rfl
        | cons k ks ih => simpa using ih (semaphores.modify k (· + 1))
      · rw [getElem?_release] at hk
        obtain ⟨free', hfree', rfl⟩ := Option.map_eq_some_iff.mp hk
        exact ⟨free', hfree', by simp [holds, hstage]⟩
      · exact { hplaced with insert := nofun, wait := nofun, held := nofun }
    · cases hstep

theorem Sound.new : Sound n (State.new n : State N) :=
  ⟨by simp [Balanced, State.new], nofun, nofun, nofun, nofun⟩

/-! ## What guards exclude -/

theorem Sound.tokens_disjoint (h : Sound n s) {j : Nat} (hne : i ≠ j) (hc : s.calls[i]? = some c)
    (hd : s.calls[j]? = some d) (hheld : c.stage = .held) (hheld' : d.stage = .held) :
    ∀ name ∈ c.requirements.identifiers, name ∉ d.requirements.identifiers := by
  have hnamed {c : Call N} {i : Nat} (hc : s.calls[i]? = some c) (hheld : c.stage = .held)
      {name : N} (hname : name ∈ c.requirements.identifiers) :
      ∃ k, s.buckets.lookup name = some k ∧ 1 ≤ c.holds k := by
    have hplaced := h.placed c (mem_of_getElem? hc)
    rw [← hplaced.tokens, hplaced.held hheld, append_nil] at hname
    obtain ⟨x, hx, rfl⟩ := mem_map.mp hname
    refine ⟨x.2, hplaced.named x hx, ?_⟩
    simp only [holds, hheld, reduceCtorEq, if_false]
    exact one_le_count_iff.mpr (mem_map_of_mem hx)
  intro name hname hname'
  obtain ⟨k, hk, hone⟩ := hnamed hc hheld hname
  obtain ⟨k', hk', hone'⟩ := hnamed hd hheld' hname'
  cases hk.symm.trans hk'
  have hsum := add_le_sum_map (holds k) hne hc hd
  have hle := h.semaphores k _ (getElem?_eq_getElem (h.bounded name k hk))
  omega

/-! ## Progress -/

theorem permits_requirements_le (r : HostSharingRequirements N) : r.permits n ≤ n := by
  cases r with
  | exclusiveAccess => exact Nat.le_refl n
  | onePerToken | onePerTokens | shared => exact Nat.min_le_right _ _

/-- A pending call that can take no step waits for a name that another call has. -/
theorem Sound.blocked (h : Sound n s) (hlive : ∀ c ∈ s.calls, c.stage ≠ .held)
    (hc : s.calls[i]? = some c) (hpending : c.Pending)
    (hblocked : HostSharing.advance n s i c = none) :
    ∃ name rest d, c.remaining = name :: rest ∧ d ∈ s.calls ∧ d.stage ≠ .dropped ∧
      name ∈ d.nameGuards.map Prod.fst := by
  have hplaced := h.placed c (mem_of_getElem? hc)
  unfold HostSharing.advance at hblocked
  split at hblocked
  · cases hblocked
  · cases hblocked
  · next semaphore name rest hstage hremaining =>
    obtain ⟨name', hname', hlookup⟩ := hplaced.wait semaphore hstage
    obtain rfl : name = name' := by simpa [hremaining] using hname'
    have hlt := h.bounded name semaphore hlookup
    rw [getElem?_eq_getElem hlt] at hblocked
    have hzero : s.semaphores[semaphore] = 0 := by
      cases hfree : s.semaphores[semaphore] with
      | zero => rfl
      | succ free => simp [hfree] at hblocked
    -- the permit that is not free is held by a call
    have hsum := h.semaphores semaphore _ (getElem?_eq_getElem hlt)
    have hne : (s.calls.map (holds semaphore)).sum ≠ 0 := by omega
    simp only [ne_eq, sum_eq_zero_iff, mem_map, not_forall] at hne
    obtain ⟨-, ⟨d, hd, rfl⟩, hholds⟩ := hne
    unfold holds at hholds
    split at hholds
    · exact absurd rfl hholds
    next hdropped =>
    rw [count_eq_zero, not_not] at hholds
    obtain ⟨x, hx, rfl⟩ := mem_map.mp hholds
    have hsame := h.injective _ _ _ ((h.placed d hd).named x hx) hlookup
    exact ⟨name, rest, d, hremaining, hd, hdropped, hsame ▸ mem_map_of_mem hx⟩
  · next hstage hremaining =>
    -- no guard is live, so all permits of the machine are free
    have hnone : (s.calls.map (held n)).sum = 0 := by
      rw [sum_eq_zero_iff]
      intro x hx
      obtain ⟨d, hd, rfl⟩ := mem_map.mp hx
      exact held_of_ne (hlive d hd)
    have hbalanced := h.balanced
    have hle := permits_requirements_le (n := n) c.requirements
    unfold Balanced at hbalanced
    rw [if_pos (by omega)] at hblocked
    cases hblocked
  · next hlookup hinsert hwait hnil =>
    cases hstage : c.stage with
    | lookup =>
      cases hremaining : c.remaining with
      | nil => exact absurd hremaining (hnil hstage)
      | cons name rest => exact absurd hremaining (hlookup name rest hstage)
    | insert =>
      obtain ⟨name, rest, hremaining⟩ := exists_cons_of_ne_nil (hplaced.insert hstage)
      exact absurd hremaining (hinsert name rest hstage)
    | wait semaphore =>
      obtain ⟨name, hname, -⟩ := hplaced.wait semaphore hstage
      obtain ⟨rest, hremaining⟩ := head?_eq_some_iff.mp hname
      exact absurd hremaining (hwait semaphore name rest hstage)
    | held => exact absurd hstage hpending.1
    | dropped => exact absurd hstage hpending.2

/-- **Calls never wait for each other only**: of the names that blocked calls wait for, the call
that has the largest one waits for a larger one. -/
theorem Sound.progress (h : Sound n s) (hlive : ∀ c ∈ s.calls, c.stage ≠ .held)
    (hpending : ∃ c ∈ s.calls, c.Pending) : ∃ i, (HostSharing.step n s (.advance i)).isSome := by
  by_contra hstuck
  have hblocked (c : Call N) (hc : c ∈ s.calls) (hp : c.Pending) : ∃ name rest d,
      c.remaining = name :: rest ∧ d ∈ s.calls ∧ d.Pending ∧ name ∈ d.nameGuards.map Prod.fst := by
    obtain ⟨i, hi⟩ := getElem?_of_mem hc
    have hnone : HostSharing.advance n s i c = none := by
      by_contra hsome
      refine hstuck ⟨i, ?_⟩
      simpa [HostSharing.step, hi] using Option.ne_none_iff_isSome.mp hsome
    obtain ⟨name, rest, d, hremaining, hd, hdropped, hname⟩ := h.blocked hlive hi hp hnone
    exact ⟨name, rest, d, hremaining, hd, ⟨hlive d hd, hdropped⟩, hname⟩
  obtain ⟨c, hc, hp⟩ := hpending
  obtain ⟨name0, rest0, -, hremaining0, -⟩ := hblocked c hc hp
  let awaited : Set N := {name | ∃ c ∈ s.calls, c.Pending ∧ name ∈ c.remaining.head?}
  have hfinite : awaited.Finite := by
    refine (finite_toSet (s.calls.filterMap fun c => c.remaining.head?)).subset ?_
    rintro name ⟨c, hc, -, hname⟩
    exact mem_filterMap.mpr ⟨c, hc, hname⟩
  obtain ⟨name, ⟨c, hc, hp, hname⟩, hmax⟩ :=
    Set.exists_max_image awaited id hfinite ⟨name0, c, hc, hp, by simp [hremaining0]⟩
  obtain ⟨name', rest, d, hremaining, hd, hpd, hmem⟩ := hblocked c hc hp
  obtain rfl : name' = name := by simpa [hremaining] using hname
  obtain ⟨next, rest', -, hremaining', -⟩ := hblocked d hd hpd
  have hle : next ≤ name' := hmax next ⟨d, hd, hpd, by simp [hremaining']⟩
  have hlt : name' < next := by
    have hplaced := h.placed d hd
    have hsorted : d.requirements.identifiers.Pairwise (· ≤ ·) := by
      cases d.requirements with
      | exclusiveAccess | shared => exact .nil
      | onePerToken => exact pairwise_singleton _ _
      | onePerTokens identifiers _ => exact identifiers.sorted
    have hlt := (hsorted.and hplaced.distinct).imp fun hle => lt_of_le_of_ne hle.1 hle.2
    rw [← hplaced.tokens, pairwise_append] at hlt
    exact hlt.2.2 name' hmem next (by simp [hremaining'])
  exact absurd hle (not_le.mpr hlt)

end Invariant

/-! ## Runs -/

section Runs

variable {N : Type} [LinearOrder N]

/-- Guards never hold more permits than the machine has, in any run. -/
theorem permits_le {n : Nat} {s : State N} (h : Reach (step n) (fun _ _ => True) (.new n) s) :
    (s.calls.map (held n)).sum ≤ n := by
  have hbalanced : Balanced n s :=
    h.invariant (fun _ _ _ hs _ hstep => hs.step hstep) Sound.new.balanced
  unfold Balanced at hbalanced
  omega

/-- **Host sharing keeps its promises in orderly runs.** Live guards have at most the permits of the
machine and share no token, an exclusive one is the only one, and when a call is pending and no
guard is live, some pending call can take a step. -/
theorem guards_exclude_and_progress {n : Nat} {s : State N}
    (h : Reach (step n) (fun s l => orderly n s l = true) (.new n) s) :
    (s.calls.map (held n)).sum ≤ n ∧
    (∀ (i j : Nat) (c d : Call N), i ≠ j → s.calls[i]? = some c → s.calls[j]? = some d → c.stage =
      .held →
      d.stage = .held → (∀ name ∈ c.requirements.identifiers, name ∉ d.requirements.identifiers) ∧
        c.requirements ≠ .exclusiveAccess) ∧
    ((∃ c ∈ s.calls, c.Pending) → (∀ c ∈ s.calls, c.stage ≠ .held) →
      ∃ i c, s.calls[i]? = some c ∧ c.Pending ∧ (step n s (.advance i)).isSome) := by
  have hsound : Sound n s := h.invariant (fun _ _ _ hs hl hstep => hs.step hl hstep) .new
  refine ⟨permits_le (h.mono fun _ _ _ => trivial), ?_, ?_⟩
  · intro i j c d hne hc hd hheld hheld'
    refine ⟨hsound.tokens_disjoint hne hc hd hheld hheld', fun hexclusive => ?_⟩
    have hsum := add_le_sum_map (held n) hne hc hd
    have hweight := (hsound.placed d (mem_of_getElem? hd)).weight
    have hbalanced := hsound.balanced
    have hall : c.held n = n := by simp [held, hheld, hexclusive, HostSharingRequirements.permits]
    have hsome : d.held n = d.requirements.permits n := if_pos hheld'
    unfold Balanced at hbalanced
    omega
  · intro hpending hlive
    obtain ⟨i, hi⟩ := hsound.progress hlive hpending
    obtain ⟨s', hs'⟩ := Option.isSome_iff_exists.mp hi
    obtain ⟨c, hc, hstep⟩ := Option.bind_eq_some_iff.mp hs'
    refine ⟨i, c, hc, ⟨hlive c (mem_of_getElem? hc), ?_⟩, hi⟩
    intro hdropped
    simp [advance, hdropped] at hstep

end Runs

/-- A call waits for the token of a live guard. -/
theorem guards_exclude_and_progress_token : ∃ s : State String,
    Reach (step 2) (fun s l => orderly 2 s l = true) (.new 2) s ∧ s.permits = 1 ∧
    s.calls.map stage = [.held, .wait 0] ∧ (s.calls.map (held 2)).sum ≤ 2 := by
  have hrun : Reach (step 2) (fun s l => orderly 2 s l = true) (.new 2 : State String) _ :=
    reach_of_run [.acquire (.onePerToken "token" (.permits 1)), .advance 0, .advance 0, .advance 0,
      .advance 0, .acquire (.onePerToken "token" (.permits 1)), .advance 1] rfl
  exact ⟨_, hrun, rfl, rfl, (guards_exclude_and_progress hrun).1⟩

/-- Two calls that both fail to find a new name get a semaphore each; a guard without permits goes
with an exclusive one; a call waits for the token it has itself. -/
theorem guards_collide :
    (∃ (s : State String) (c d : Call String), Reach (step 2) (fun _ _ => True) (.new 2) s ∧
      s.calls = [c, d] ∧ c.stage = .held ∧ d.stage = .held ∧
      "token" ∈ c.requirements.identifiers ∧ "token" ∈ d.requirements.identifiers) ∧
    (∃ (s : State String) (c d : Call String), Reach (step 2) (fun _ _ => True) (.new 2) s ∧
      s.calls = [c, d] ∧ c.stage = .held ∧ d.stage = .held ∧
      c.requirements = .exclusiveAccess) ∧
    ∃ (s : State String) (c : Call String), Reach (step 2) (fun _ _ => True) (.new 2) s ∧
      s.calls = [c] ∧ c.Pending ∧ ∀ i, step 2 s (.advance i) = none := by
  refine ⟨?_, ?_, ?_⟩
  · exact ⟨_, _, _, reach_of_run [.acquire (.onePerToken "token" (.permits 1)),
      .acquire (.onePerToken "token" (.permits 1)), .advance 0, .advance 1, .advance 0, .advance 1,
      .advance 0, .advance 0, .advance 1, .advance 1] rfl, rfl, rfl, rfl, by decide, by decide⟩
  · exact ⟨_, _, _, reach_of_run [.acquire .exclusiveAccess, .advance 0,
      .acquire (.shared (.permits 0)), .advance 1] rfl, rfl, rfl, rfl, rfl⟩
  · refine ⟨_, _, reach_of_run [.acquire (.onePerTokens ⟨["token", "token"], by simp⟩ (.permits 1)),
      .advance 0, .advance 0, .advance 0, .advance 0] rfl, rfl, ⟨nofun, nofun⟩, ?_⟩
    intro i
    cases i with
    | zero | succ i => rfl

end Bz.HostSharing
