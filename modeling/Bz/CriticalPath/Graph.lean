import Mathlib.Data.Fintype.Card
import Mathlib.Data.List.Chain
import Bz.Fallible

/-!
# Topological order

`Graph::topo_sort` of `bz_critical_path/src/graph.rs`: a depth-first search with a stack of vertices
that are still to be entered (`Push`) and of vertices that have been entered and are still to be
left (`Pop`).  The order is written from its end, one vertex each time a vertex is left.

Principal result: `topoSort_spec`: the search returns a topological order or a cycle.
-/

namespace Bz.CriticalPath

open List

/-- The slice of a vertex's edges. -/
structure GraphVertex where
  edgesIdx : Nat
  edgesCount : Nat

/-- `Graph`; the edges of a vertex are a slice of all edges. -/
structure Graph where
  vertices : List GraphVertex
  edges : List (Fin vertices.length)
  inRange : ∀ v ∈ vertices, v.edgesIdx + v.edgesCount ≤ edges.length

namespace Graph

abbrev VertexId (g : Graph) := Fin g.vertices.length

def iterVertices (g : Graph) : List g.VertexId := List.finRange g.vertices.length

def iterEdges (g : Graph) (idx : g.VertexId) : List g.VertexId :=
  (g.edges.drop (g.vertices.get idx).edgesIdx).take (g.vertices.get idx).edgesCount

/-- An item of the queue. -/
inductive Work where
  | push
  | pop

/-- The variables of `topo_sort`; the end of `queue` comes first. -/
structure TopoSort (g : Graph) where
  topoOrder : List Nat
  marked : Finset g.VertexId
  visited : Finset g.VertexId
  currentTopoOrderIndex : Nat
  queue : List (g.VertexId × Work)

/-- The cycle that was found. -/
inductive TopoSortError (g : Graph) where
  | cycle (vertices : List g.VertexId)

variable {g : Graph}

/-- The vertices that have been entered and not left, the last one first. -/
def opened (queue : List (g.VertexId × Work)) : List g.VertexId :=
  queue.filterMap fun x => match x with
    | (v, .pop) => some v
    | (_, .push) => none

/-- The vertices up to and with the given one. -/
def upTo (j : g.VertexId) : List g.VertexId → List g.VertexId
  | [] => []
  | v :: vs => if v = j then [v] else v :: upTo j vs

/-- The `while` loop of `topo_sort`. -/
def topoSortLoop (st : TopoSort g) : Except (TopoSortError g) (TopoSort g) :=
  match _hqueue : st.queue with
  | [] => .ok st
  | (j, .push) :: queue =>
    if j ∈ st.visited then topoSortLoop { st with queue }
    else if _hmarked : j ∈ st.marked then .error (.cycle (j :: upTo j (opened queue)).reverse)
    else topoSortLoop { st with
      marked := insert j st.marked
      queue := (g.iterEdges j).reverse.map (·, .push) ++ (j, .pop) :: queue }
  | (j, .pop) :: queue => topoSortLoop { st with
      visited := insert j st.visited
      topoOrder := st.topoOrder.set st.currentTopoOrderIndex j
      currentTopoOrderIndex := st.currentTopoOrderIndex - 1
      queue }
termination_by (st.markedᶜ.card, st.queue.length)
decreasing_by
  · exact .right _ (by simp [_hqueue])
  · refine .left _ _ (Finset.card_lt_card ?_)
    rw [Finset.compl_insert]
    exact Finset.erase_ssubset (by simpa using _hmarked)
  · exact .right _ (by simp [_hqueue])

/-- `Graph::topo_sort`. -/
def topoSort (g : Graph) : Except (TopoSortError g) (List Nat) := do
  let n := g.vertices.length
  let st ← g.iterVertices.foldlM
    (fun st i => topoSortLoop { st with queue := (i, .push) :: st.queue })
    (⟨List.replicate n 0, ∅, ∅, n - 1, []⟩ : TopoSort g)
  return st.topoOrder

/-! ## The stack -/

variable {st : TopoSort g} {marked visited : Finset g.VertexId}
  {queue : List (g.VertexId × Work)} {j : g.VertexId}

@[simp] theorem opened_push (v : g.VertexId) : opened ((v, .push) :: queue) = opened queue := rfl

@[simp] theorem opened_pop (v : g.VertexId) : opened ((v, .pop) :: queue) = v :: opened queue := rfl

@[simp] theorem opened_pushes (ks : List g.VertexId) :
    opened (ks.map (·, .push) ++ queue) = opened queue := by
  induction ks with
  | nil => rfl
  | cons k ks ih => exact ih

/-- What every round of the loop keeps. -/
structure Stacked (marked visited : Finset g.VertexId) (queue : List (g.VertexId × Work)) :
    Prop where
  /-- A vertex was put on the stack for an edge from the last vertex entered below it. -/
  linked : ∀ above v w below, queue = above ++ (v, w) :: below →
    (v :: opened below).IsChain fun a b => a ∈ g.iterEdges b
  /-- The edges of a vertex that has been entered are done or above it on the stack. -/
  pending : ∀ above v below, queue = above ++ (v, .pop) :: below →
    ∀ k ∈ g.iterEdges v, k ∈ visited ∨ k ∈ above.map Prod.fst
  nodup : (opened queue).Nodup
  opened : ∀ v, v ∈ opened queue ↔ v ∈ marked ∧ v ∉ visited

theorem split_pushes {ks : List g.VertexId} {above below : List (g.VertexId × Work)}
    {v : g.VertexId} {w : Work} (h : ks.map (·, .push) ++ queue = above ++ (v, w) :: below) :
    (v ∈ ks ∧ w = .push ∧ opened below = opened queue) ∨
      ∃ above', above = ks.map (·, .push) ++ above' ∧ queue = above' ++ (v, w) :: below := by
  induction ks generalizing above with
  | nil => exact .inr ⟨above, rfl, h⟩
  | cons k ks ih =>
    rcases cons_eq_append_iff.mp h with ⟨rfl, heq⟩ | ⟨above, rfl, htail⟩
    · cases heq
      exact .inl ⟨mem_cons_self, rfl, opened_pushes ks⟩
    · rcases ih htail with ⟨hv, hpush⟩ | ⟨above', rfl, hqueue⟩
      · exact .inl ⟨mem_cons_of_mem _ hv, hpush⟩
      · exact .inr ⟨above', rfl, hqueue⟩

/-- A vertex that has been left already is not entered again. -/
theorem Stacked.skip (h : Stacked marked visited ((j, .push) :: queue)) (hj : j ∈ visited) :
    Stacked marked visited queue where
  linked above v w below heq := h.linked ((j, .push) :: above) v w below (congrArg _ heq)
  pending above v below heq k hk := by
    rcases h.pending ((j, .push) :: above) v below (congrArg _ heq) k hk with hk | hk
    · exact .inl hk
    · rcases mem_cons.mp hk with rfl | hk
      · exact .inl hj
      · exact .inr hk
  nodup := h.nodup
  opened := h.opened

theorem Stacked.enter (h : Stacked marked visited ((j, .push) :: queue)) (hvisited : j ∉ visited)
    (hmarked : j ∉ marked) : Stacked (insert j marked) visited
      ((g.iterEdges j).reverse.map (·, .push) ++ (j, .pop) :: queue) where
  linked above v w below heq := by
    have hj := h.linked [] j .push queue rfl
    rcases split_pushes heq with ⟨hv, -, hopened⟩ | ⟨above, -, heq⟩
    · rw [hopened]
      exact .cons_cons (mem_reverse.mp hv) hj
    · rcases cons_eq_append_iff.mp heq with ⟨-, heq⟩ | ⟨above, -, heq⟩
      · cases heq
        exact hj
      · exact h.linked ((j, .push) :: above) v w below (congrArg _ heq)
  pending above v below heq k hk := by
    rcases split_pushes heq with ⟨-, hw, -⟩ | ⟨above', rfl, htail⟩
    · cases hw
    · rcases cons_eq_append_iff.mp htail with ⟨rfl, hhead⟩ | ⟨above', rfl, hqueue⟩
      · cases hhead
        exact .inr (by simpa using hk)
      · rcases h.pending ((j, .push) :: above') v below (congrArg _ hqueue) k hk with hk | hk
        · exact .inl hk
        · rw [map_append]
          exact .inr (mem_append_right _ hk)
  nodup := by
    rw [opened_pushes, opened_pop, nodup_cons]
    exact ⟨fun hj => hmarked ((h.opened j).mp hj).1, h.nodup⟩
  opened v := by
    have hv := h.opened v
    rw [opened_push] at hv
    rw [opened_pushes, opened_pop, mem_cons, hv]
    by_cases heq : v = j
    · simp [heq, hvisited]
    · simp [heq]

theorem Stacked.leave (h : Stacked marked visited ((j, .pop) :: queue)) :
    Stacked marked (insert j visited) queue where
  linked above v w below heq := h.linked ((j, .pop) :: above) v w below (congrArg _ heq)
  pending above v below heq k hk := by
    have := h.pending ((j, .pop) :: above) v below (congrArg _ heq) k hk
    simpa [or_assoc, or_left_comm] using this
  nodup := (nodup_cons.mp h.nodup).2
  opened v := by
    have hv := h.opened v
    by_cases heq : v = j
    · have hleft : v ∉ Graph.opened queue := heq ▸ (nodup_cons.mp h.nodup).1
      simp [heq] at hleft ⊢
      exact hleft
    · simpa [heq] using hv

/-! ## The order -/

variable {topoOrder : List Nat} {index : Nat} {done : List g.VertexId}

/-- The vertices that have been left, from the start of the order. -/
structure Written (visited : Finset g.VertexId) (topoOrder : List Nat) (index : Nat)
    (done : List g.VertexId) : Prop where
  nodup : done.Nodup
  mem : ∀ v, v ∈ done ↔ v ∈ visited
  topoOrder : topoOrder = List.replicate (g.vertices.length - done.length) 0 ++ done.map Fin.val
  index : index = g.vertices.length - 1 - done.length
  edges : ∀ before v after, done = before ++ v :: after → ∀ k ∈ g.iterEdges v, k ∈ after

theorem Written.leave (h : Written visited topoOrder index done) (hj : j ∉ visited)
    (hedges : ∀ k ∈ g.iterEdges j, k ∈ visited) :
    Written (insert j visited) (topoOrder.set index j) (index - 1) (j :: done) := by
  have hnodup : (j :: done).Nodup := nodup_cons.mpr ⟨mt (h.mem j).mp hj, h.nodup⟩
  have hlen : done.length < g.vertices.length := by
    have := hnodup.length_le_card
    rwa [Fintype.card_fin] at this
  refine ⟨hnodup, fun v => by simp [h.mem], ?_, ?_, fun before v after heq k hk => ?_⟩
  · have hlast : g.vertices.length - done.length = g.vertices.length - 1 - done.length + 1 :=
    by omega
    rw [h.topoOrder, h.index, hlast, replicate_succ', append_assoc, set_append_right _ _ (by simp)]
    simp [Nat.sub_sub, Nat.add_comm]
  · rw [h.index, length_cons]
    omega
  · rcases cons_eq_append_iff.mp heq with ⟨-, heq⟩ | ⟨before, -, heq⟩
    · cases heq
      exact (h.mem k).mpr (hedges k hk)
    · exact h.edges before v after heq k hk

/-- Along the edges, one gets to later vertices only. -/
theorem Written.after_of_transGen (h : Written visited topoOrder index done) {v w : g.VertexId}
    (hw : Relation.TransGen (fun a b => b ∈ g.iterEdges a) v w) {before after : List g.VertexId}
    (hdone : done = before ++ v :: after) : w ∈ after := by
  induction hw using Relation.TransGen.head_induction_on generalizing before after with
  | single hvw => exact h.edges before _ after hdone _ hvw
  | @head v u hvu _ ih =>
    obtain ⟨between, after', rfl⟩ := append_of_mem (h.edges before v after hdone u hvu)
    have hsplit : done = (before ++ v :: between) ++ u :: after' := by
      rw [hdone, append_assoc]
      rfl
    exact mem_append_right _ (mem_cons_of_mem _ (ih hsplit))

/-! ## The search -/

/-- The stack and the order between two rounds. -/
structure Inv (st : TopoSort g) : Prop where
  stacked : Stacked st.marked st.visited st.queue
  written : ∃ done, Written st.visited st.topoOrder st.currentTopoOrderIndex done

/-- A path along edges back to its start. -/
def IsCycle (c : List g.VertexId) : Prop :=
  c.head? = c.getLast? ∧ 2 ≤ c.length ∧ c.IsChain fun a b => b ∈ g.iterEdges a

theorem upTo_spec {vs : List g.VertexId} (h : j ∈ vs) :
    upTo j vs <+: vs ∧ ∃ before, upTo j vs = before ++ [j] := by
  fun_induction upTo j vs with
  | case1 => cases h
  | case2 vs => exact ⟨⟨vs, rfl⟩, [], rfl⟩
  | case3 v vs hne ih =>
    obtain ⟨hpre, before, heq⟩ := ih ((mem_cons.mp h).resolve_left (Ne.symm hne))
    exact ⟨cons_prefix_cons.mpr ⟨rfl, hpre⟩, v :: before, by rw [heq]; rfl⟩

theorem IsCycle.transGen {c : List g.VertexId} (h : IsCycle c) :
    ∃ v, Relation.TransGen (fun a b => b ∈ g.iterEdges a) v v := by
  obtain ⟨hends, hlen, hchain⟩ := h
  match c with
  | v :: w :: c =>
    obtain ⟨hvw, hchain⟩ := isChain_cons_cons.mp hchain
    have hlast : (w :: c).getLast (cons_ne_nil _ _) = v := by
      simpa [getLast?_eq_some_getLast] using hends.symm
    have hback := relationReflTransGen_of_exists_isChain_cons c hchain hlast
    exact ⟨v, .head' hvw hback⟩

/-- **The loop** empties the stack and leaves every vertex on it, or has met a cycle. -/
theorem topoSortLoop_ends (h : Inv st) : Fallible.Ends (fun st' => Inv st' ∧ st'.queue = [] ∧
      ∀ v, v ∈ st.visited ∨ v ∈ st.queue.map Prod.fst → v ∈ st'.visited)
    (fun e => ∃ c, e = .cycle c ∧ IsCycle c) (topoSortLoop st) := by
  have hstacked := h.stacked
  fun_induction topoSortLoop st with
  | case1 st hqueue => exact .ok ⟨h, hqueue, by simp [hqueue]⟩
  | case2 st j queue hqueue hvisited ih =>
    rw [hqueue] at hstacked
    have hnext := hstacked.skip hvisited
    refine (ih ⟨hnext, h.written⟩ hnext).imp ?_ fun _ => id
    rintro st' ⟨hinv, hempty, hdone⟩
    refine ⟨hinv, hempty, fun v hv => hdone v ?_⟩
    rw [hqueue, map_cons, mem_cons] at hv
    rcases hv with hv | rfl | hv
    · exact .inl hv
    · exact .inl hvisited
    · exact .inr hv
  | case3 st j queue hqueue hvisited hmarked =>
    rw [hqueue] at hstacked
    -- the reported cycle is one
    have hopen : j ∈ Graph.opened queue := (hstacked.opened j).mpr ⟨hmarked, hvisited⟩
    obtain ⟨hpre, before, heq⟩ := upTo_spec hopen
    have hchain := List.IsChain.prefix (hstacked.linked [] j .push queue rfl)
      (cons_prefix_cons.mpr ⟨rfl, hpre⟩)
    refine .error ⟨_, rfl, ?_⟩
    rw [heq] at hchain ⊢
    exact ⟨by simp [getLast?_cons], by simp, isChain_reverse.mpr hchain⟩
  | case4 st j queue hqueue hvisited hmarked ih =>
    rw [hqueue] at hstacked
    have hnext := hstacked.enter hvisited hmarked
    refine (ih ⟨hnext, h.written⟩ hnext).imp ?_ fun _ => id
    rintro st' ⟨hinv, hempty, hdone⟩
    refine ⟨hinv, hempty, fun v hv => hdone v (hv.imp_right fun hv => ?_)⟩
    rw [hqueue] at hv
    rw [map_append]
    exact mem_append_right _ hv
  | case5 st j queue hqueue ih =>
    rw [hqueue] at hstacked
    have hnext := hstacked.leave
    obtain ⟨done, hdone⟩ := h.written
    have hj := (hstacked.opened j).mp mem_cons_self
    have hwritten := hdone.leave hj.2 fun k hk => by
      simpa using hstacked.pending [] j queue rfl k hk
    refine (ih ⟨hnext, _, hwritten⟩ hnext).imp ?_ fun _ => id
    rintro st' ⟨hinv, hempty, hdone⟩
    refine ⟨hinv, hempty, fun v hv => hdone v ?_⟩
    simpa [hqueue, or_assoc, or_left_comm] using hv

theorem foldlM_topoSortLoop_ends {l : List g.VertexId} (h : Inv st) (hempty : st.queue = []) :
    Fallible.Ends (fun st' => Inv st' ∧ st'.queue = [] ∧
        ∀ v, v ∈ st.visited ∨ v ∈ l → v ∈ st'.visited) (fun e => ∃ c, e = .cycle c ∧ IsCycle c)
      (l.foldlM (fun st i => topoSortLoop { st with queue := (i, .push) :: st.queue }) st) := by
  induction l generalizing st with
  | nil => exact .ok ⟨h, hempty, by simp⟩
  | cons i l ih =>
    have hpushed : Inv { st with queue := (i, .push) :: st.queue } := by
      refine ⟨⟨fun above v w below heq => ?_, fun above v below heq => ?_, ?_, ?_⟩, h.written⟩
      · rw [hempty] at heq
        rcases cons_eq_append_iff.mp heq with ⟨-, heq⟩ | ⟨_, -, heq⟩
        · cases heq
          exact .singleton i
        · simp at heq
      · rw [hempty] at heq
        rcases cons_eq_append_iff.mp heq with ⟨-, heq⟩ | ⟨_, -, heq⟩
        · cases heq
        · simp at heq
      · exact h.stacked.nodup
      · exact h.stacked.opened
    refine (topoSortLoop_ends hpushed).bind ?_
    rintro st1 ⟨hinv, hempty1, hleft⟩
    refine (ih hinv hempty1).imp ?_ fun _ => id
    rintro st' ⟨hinv', hempty', hleft'⟩
    refine ⟨hinv', hempty', fun v hv => hleft' v ?_⟩
    rcases hv with hv | hv
    · exact .inl (hleft v (.inl hv))
    · exact (mem_cons.mp hv).imp_left fun heq => hleft v (.inr (by simp [heq]))

theorem inv_init : Inv (⟨List.replicate g.vertices.length 0, ∅, ∅, g.vertices.length - 1, []⟩ :
    TopoSort g) where
  stacked := ⟨by simp, by simp, nodup_nil, by simp [opened]⟩
  written := ⟨[], nodup_nil, by simp, by simp, rfl, by simp⟩

theorem topoSort_ends (g : Graph) :
    Fallible.Ends (fun order => ∃ index, ∃ done : List g.VertexId, Written .univ order index done)
      (fun e => ∃ c, e = .cycle c ∧ IsCycle c) (topoSort g) := by
  refine (foldlM_topoSortLoop_ends inv_init rfl).bind ?_
  rintro st ⟨hinv, -, hleft⟩
  have huniv : st.visited = .univ :=
    Finset.eq_univ_iff_forall.mpr fun v => hleft v (.inr (mem_finRange v))
  obtain ⟨done, hdone⟩ := hinv.written
  exact .ok ⟨_, done, huniv ▸ hdone⟩

theorem Written.perm (h : Written .univ topoOrder index done) : done.Perm g.iterVertices :=
  (perm_ext_iff_of_nodup h.nodup (nodup_finRange _)).mpr fun v => by
    simp [h.mem]

/-- **`topo_sort`** returns an order of all vertices along the edges exactly when no vertex can be
reached from itself, and otherwise a cycle. -/
theorem topoSort_spec (g : Graph) :
    ((∃ order, topoSort g = .ok order) ↔
      ¬ ∃ v, Relation.TransGen (fun a b => b ∈ g.iterEdges a) v v) ∧
    (∀ order, topoSort g = .ok order → order.Perm (List.range g.vertices.length) ∧
      ∀ v, ∀ w ∈ g.iterEdges v, ∃ before after, order = before ++ v.val :: after ∧ w.val ∈ after) ∧
    ∀ e, topoSort g = .error e → ∃ c, e = .cycle c ∧ IsCycle c := by
  generalize hsort : topoSort g = result
  cases hsort ▸ topoSort_ends g with
  | error hcycle =>
    obtain ⟨c, rfl, hc⟩ := hcycle
    refine ⟨⟨nofun, fun hacyclic => absurd hc.transGen hacyclic⟩, nofun, fun e he => ?_⟩
    cases he
    exact ⟨c, rfl, hc⟩
  | ok hdone =>
    obtain ⟨index, done, hdone⟩ := hdone
    refine ⟨⟨fun _ => ?_, fun _ => ⟨_, rfl⟩⟩, fun order horder => ?_, nofun⟩
    · rintro ⟨v, hv⟩
      obtain ⟨before, after, hsplit⟩ := append_of_mem ((hdone.mem v).mpr (Finset.mem_univ v))
      have hnodup := hsplit ▸ hdone.nodup
      have hafter : v ∉ after := (nodup_cons.mp (nodup_append.mp hnodup).2.1).1
      exact hafter (hdone.after_of_transGen hv hsplit)
    · cases horder
      have hlen : done.length = g.vertices.length := by
        rw [hdone.perm.length_eq, iterVertices, length_finRange]
      rw [hdone.topoOrder, hlen, Nat.sub_self, replicate_zero, nil_append]
      refine ⟨?_, fun v w hw => ?_⟩
      · have := hdone.perm.map Fin.val
        rwa [iterVertices, map_coe_finRange_eq_range] at this
      · obtain ⟨before, after, hsplit⟩ := append_of_mem ((hdone.mem v).mpr (Finset.mem_univ v))
        refine ⟨before.map Fin.val, after.map Fin.val, by simp [hsplit], ?_⟩
        exact mem_map_of_mem (hdone.edges before v after hsplit w hw)

end Graph

end Bz.CriticalPath
