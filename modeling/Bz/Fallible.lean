import Mathlib.Logic.Basic

/-!
# Computations that can fail

Taking apart a computation that has succeeded, and invariants of loops that stop at the first error.
-/

namespace Bz.Fallible

open List

variable {ε α β σ : Type} {x : Except ε α} {f : σ → α → Except ε σ} {l : List α} {P : σ → Prop}

theorem ok_bind (a : α) (f : α → Except ε β) : (Except.ok a >>= f) = f a := rfl

theorem bind_eq_ok {f : α → Except ε β} {b : β} :
    x >>= f = .ok b ↔ ∃ a, x = .ok a ∧ f a = .ok b := by
  cases x with
  | error e => exact ⟨nofun, fun ⟨_, h, _⟩ => nomatch h⟩
  | ok a => exact ⟨fun h => ⟨a, rfl, h⟩, fun ⟨_, ha, h⟩ => by cases ha; exact h⟩

theorem map_eq_ok {f : α → β} {b : β} : x.map f = .ok b ↔ ∃ a, x = .ok a ∧ f a = b := by
  cases x with
  | error e => exact ⟨nofun, fun ⟨_, h, _⟩ => nomatch h⟩
  | ok a => exact ⟨fun h => ⟨a, rfl, Except.ok.inj h⟩, fun ⟨_, ha, h⟩ => by cases ha; rw [← h]; rfl⟩

/-- A computation ends well, or with an error of which something is known. -/
inductive Ends (good : α → Prop) (bad : ε → Prop) : Except ε α → Prop where
  | ok {a : α} (h : good a) : Ends good bad (.ok a)
  | error {e : ε} (h : bad e) : Ends good bad (.error e)

theorem Ends.imp {good good' : α → Prop} {bad bad' : ε → Prop}
    (h : Ends good bad x) (hgood : ∀ a, good a → good' a) (hbad : ∀ e, bad e → bad' e) :
    Ends good' bad' x := by
  cases h with
  | ok h => exact .ok (hgood _ h)
  | error h => exact .error (hbad _ h)

theorem Ends.bind {good : α → Prop} {good' : β → Prop} {bad : ε → Prop}
    {f : α → Except ε β} (h : Ends good bad x) (hf : ∀ a, good a → Ends good' bad (f a)) :
    Ends good' bad (x >>= f) := by
  cases h with
  | ok h => exact hf _ h
  | error h => exact .error h

theorem mapM_eq_some {f : α → Option β} {g : α → β}
    (h : ∀ a ∈ l, f a = some (g a)) : l.mapM f = some (l.map g) := by
  induction l with
  | nil => rfl
  | cons a l ih =>
    rw [mapM_cons, h a mem_cons_self, ih fun b hb => h b (mem_cons_of_mem _ hb)]
    rfl

/-- What every round of a loop keeps holds at its end. -/
theorem foldlM_invariant
    (hstep : ∀ a ∈ l, ∀ s s', P s → f s a = .ok s' → P s') {s s' : σ} (hs : P s)
    (h : l.foldlM f s = .ok s') : P s' := by
  induction l generalizing s with
  | nil =>
    cases h
    exact hs
  | cons a l ih =>
    obtain ⟨s1, h1, h⟩ := bind_eq_ok.mp h
    exact ih (fun b hb => hstep b (mem_cons_of_mem _ hb)) (hstep a mem_cons_self s s1 hs h1) h

/-- A loop passes through every round, and what the rounds before and after it do adds up. -/
theorem foldlM_through {R : σ → σ → Prop} (hrefl : ∀ s, R s s)
    (htrans : ∀ {a b c}, R a b → R b c → R a c)
    (hstep : ∀ a ∈ l, ∀ s s', f s a = .ok s' → R s s') {s s' : σ}
    (h : l.foldlM f s = .ok s') : R s s' ∧ ∀ a ∈ l, ∃ s1 s2, f s1 a = .ok s2 ∧ R s2 s' := by
  induction l generalizing s with
  | nil =>
    cases h
    exact ⟨hrefl _, nofun⟩
  | cons a l ih =>
    obtain ⟨s1, h1, h⟩ := bind_eq_ok.mp h
    obtain ⟨hrest, hthrough⟩ := ih (fun b hb => hstep b (mem_cons_of_mem _ hb)) h
    refine ⟨htrans (hstep a mem_cons_self s s1 h1) hrest, fun b hb => ?_⟩
    rcases mem_cons.mp hb with rfl | hb
    · exact ⟨s, s1, h1, hrest⟩
    · exact hthrough b hb

theorem foldl_through {f : σ → α → σ} {R : σ → σ → Prop} (hrefl : ∀ s, R s s)
    (htrans : ∀ {a b c}, R a b → R b c → R a c) (hstep : ∀ a ∈ l, ∀ s, R s (f s a)) (s : σ) :
    R s (l.foldl f s) ∧ ∀ a ∈ l, ∃ s1, R (f s1 a) (l.foldl f s) := by
  induction l generalizing s with
  | nil => exact ⟨hrefl s, nofun⟩
  | cons a l ih =>
    obtain ⟨hrest, hthrough⟩ := ih (fun b hb => hstep b (mem_cons_of_mem _ hb)) (f s a)
    refine ⟨htrans (hstep a mem_cons_self s) hrest, fun b hb => ?_⟩
    rcases mem_cons.mp hb with rfl | hb
    · exact ⟨s, hrest⟩
    · exact hthrough b hb

/-- A loop succeeds if every round does: it keeps the invariant, and what a round has done stays
done. -/
theorem foldlM_succeeds {ι : Type} {key : α → ι} {done : ι → σ → Prop}
    (hstep : ∀ a ∈ l, ∀ s, P s → ∃ s', f s a = .ok s' ∧ P s' ∧ done (key a) s' ∧
      ∀ i, done i s → done i s') {s : σ} (hs : P s) :
    ∃ s', l.foldlM f s = .ok s' ∧ P s' ∧ (∀ a ∈ l, done (key a) s') ∧
      ∀ i, done i s → done i s' := by
  induction l generalizing s with
  | nil => exact ⟨s, rfl, hs, nofun, fun _ h => h⟩
  | cons a l ih =>
    obtain ⟨s1, h1, hs1, hdone1, hkeep1⟩ := hstep a mem_cons_self s hs
    obtain ⟨s', h', hs', hdone, hkeep⟩ :=
      ih (fun b hb => hstep b (mem_cons_of_mem _ hb)) hs1
    refine ⟨s', by rw [foldlM_cons, h1]; exact h', hs', fun b hb => ?_,
      fun b hb => hkeep b (hkeep1 b hb)⟩
    rcases mem_cons.mp hb with rfl | hb
    · exact hkeep _ hdone1
    · exact hdone b hb

end Bz.Fallible
