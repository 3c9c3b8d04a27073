import DocTree.Store.Traversal
import DocTree.Proofs.LocalEdits

/-!
Walks through a tree that is edited meanwhile. Whoever walks may change what stands below the node yielded
last. Then the nodes yielded so far are always the first ones of the tree as it stands, and those that the
walk has put aside are the roots of what comes behind the tree below the node yielded last. So a walk that
ends has yielded the tree as it stands then.
-/
namespace DocTree

open OrderedTree

/-- The nodes under which everything stands that is still to be yielded. -/
def Walk.upcoming (s : Store) (w : Walk) : List NodeId := w.current.elim [] s.children ++ w.pending

theorem Walk.advance_eq (s : Store) (w : Walk) : w.advance s = match w.upcoming s with
    | [] => none
    | n :: rest => some (n, ⟨some n, rest⟩) := rfl

/-- The nodes of a tree are its root and those below the children of the root. -/
theorem Store.WellFormed.nodes_tree {s : Store} (h : s.WellFormed) {n : NodeId}
    (hn : n.index < s.size) :
    (s.tree n).nodes = n :: (s.children n).flatMap fun c => (s.tree c).nodes := by
  rw [h.realizes.tree_eq_node (Nat.zero_le _) hn, nodes_node, List.flatMap_map,
    h.realizes.children_eq (Nat.zero_le _)]

/-- What has been yielded and what is still to be yielded make up the tree. -/
structure Walk.InOrder (r : NodeId) (s : Store) (done : List NodeId) (w : Walk) : Prop where
  wellFormed : s.WellFormed
  root_lt : r.index < s.size
  nodes_eq : (s.tree r).nodes = done ++ (w.upcoming s).flatMap fun n => (s.tree n).nodes

namespace Walk.InOrder

variable {r v : NodeId} {s s' : Store} {done : List NodeId} {w w' : Walk}

theorem start (h : s.WellFormed) (hr : r.index < s.size) : InOrder r s [] (.start r) :=
  ⟨h, hr, by simp [Walk.start, upcoming]⟩

theorem eq_nodes (h : InOrder r s done w) (hadvance : w.advance s = none) :
    done = (s.tree r).nodes := by
  rw [advance_eq] at hadvance
  split at hadvance
  · rename_i hnil
    rw [h.nodes_eq, hnil, List.flatMap_nil, List.append_nil]
  · exact absurd hadvance (by simp)

theorem nodup (h : InOrder r s done w) : done.Nodup := by
  have hnodup := (h.wellFormed.realizes.spans_tree (Nat.zero_le _) h.root_lt).nodup
  rw [h.nodes_eq] at hnodup
  exact (List.nodup_append'.mp hnodup).1

/-- The node yielded next stands behind those yielded before. -/
theorem advance (h : InOrder r s done w) (hadvance : w.advance s = some (v, w')) :
    w'.current = some v ∧ InOrder r s (done ++ [v]) w' := by
  rw [advance_eq] at hadvance
  split at hadvance
  · exact absurd hadvance (by simp)
  rename_i n rest hnext
  obtain ⟨rfl, rfl⟩ := Prod.mk.inj (Option.some.inj hadvance)
  have hnodes := h.nodes_eq
  rw [hnext, List.flatMap_cons] at hnodes
  have hmem : n ∈ (s.tree r).nodes := by
    have hroot := (s.tree n).root_mem_nodes
    rw [Store.root_tree] at hroot
    rw [hnodes]
    exact List.mem_append_right done (List.mem_append_left _ hroot)
  have hlt := h.wellFormed.realizes.index_lt_of_mem_tree (Nat.zero_le _) h.root_lt hmem
  refine ⟨rfl, h.wellFormed, h.root_lt, ?_⟩
  rw [hnodes, h.wellFormed.nodes_tree hlt]
  simp [upcoming]

/-- Edits below the node yielded last change neither what was yielded nor what was put aside. -/
theorem edit (h : InOrder r s (done ++ [v]) w) (hcurrent : w.current = some v)
    (hedit : EditsBelow r v s s') : InOrder r s' (done ++ [v]) w := by
  have hs := h.wellFormed
  have hnodes := h.nodes_eq
  have hv : v ∈ (s.tree r).nodes := by simp [hnodes]
  have hlt := hs.realizes.index_lt_of_mem_tree (Nat.zero_le _) h.root_lt hv
  have hnodup := (hs.realizes.spans_tree (Nat.zero_le _) h.root_lt).nodup
  have htree : (s.tree r).nodes =
      done ++ ((s.tree v).nodes ++ w.pending.flatMap fun n => (s.tree n).nodes) := by
    rw [hnodes, hs.nodes_tree hlt]
    simp [upcoming, hcurrent]
  obtain ⟨left, right, hsplit, hsplit'⟩ := hedit.exists_split hs h.root_lt hv
  -- `v` stands in the tree once, so both ways of cutting it there agree
  have hsame : done = left ∧ (w.pending.flatMap fun n => (s.tree n).nodes) = right := by
    rw [htree, hs.nodes_tree hlt, List.cons_append, List.nodup_middle, List.nodup_cons] at hnodup
    rw [htree, hs.nodes_tree hlt, List.cons_append, List.cons_append] at hsplit
    obtain ⟨hdone, hrest⟩ := not_or.mp (mt List.mem_append.mpr hnodup.1)
    obtain ⟨hleft, -, hright⟩ := (List.append_cons_inj_of_notMem hdone hrest).mp hsplit
    exact ⟨hleft, List.append_cancel_left hright⟩
  obtain ⟨rfl, rfl⟩ := hsame
  have hkept : ∀ n ∈ w.pending, s'.tree n = s.tree n := by
    intro n hn
    refine hedit.tree_eq hs h.root_lt fun m hm => ?_
    have hpending : m ∈ w.pending.flatMap fun n => (s.tree n).nodes := List.mem_flatMap.mpr ⟨n, hn, hm⟩
    rw [htree] at hnodup ⊢
    rw [List.nodup_append', List.nodup_append'] at hnodup
    exact ⟨by simp only [List.mem_append, hpending, or_true], fun hmv => hnodup.2.1.2.2 hmv hpending⟩
  refine ⟨hedit.wellFormed, h.root_lt.trans_le hedit.size_le, ?_⟩
  rw [hsplit', hedit.wellFormed.nodes_tree (hlt.trans_le hedit.size_le),
    ← List.flatMap_congr fun n hn => congrArg nodes (hkept n hn)]
  simp [upcoming, hcurrent]

end Walk.InOrder

/-- Who walks: a state that holds the store, and what is done with it at each stop. -/
structure Consumer (σ : Type) where
  store : σ → Store
  visit : NodeId → StateM σ Unit

namespace Consumer

variable {σ : Type} (c : Consumer σ) (r : NodeId) (st : σ)

/-- A walk from `r` up to the end of its `k`-th stop: the nodes that it yields and the state then. -/
def walk (k : ℕ) : List NodeId × σ :=
  Id.run ((traverse (c.store <$> get) Walk.advance c.visit k (.start r)).run st)

def yielded (k : ℕ) : List NodeId := (c.walk r st k).1

def storeAt (k : ℕ) : Store := c.store (c.walk r st k).2

def nodesAt (k : ℕ) : List NodeId := ((c.storeAt r st k).tree r).nodes

/-- At each stop nothing is changed but what stands below the node yielded there. -/
def EditsBelowStops : Prop := ∀ k v, c.yielded r st (k + 1) = c.yielded r st k ++ [v] →
  EditsBelow r v (c.storeAt r st k) (c.storeAt r st (k + 1))

def Ended (k : ℕ) : Prop := (c.yielded r st k).length < k

instance (k : ℕ) : Decidable (c.Ended r st k) := inferInstanceAs (Decidable (_ < _))

/-- The walk yields the tree as it stands: what it has yielded never changes its place, a walk that has
ended has yielded all, a node outside of the tree is not yielded unless it is put in before, and a node in
the tree is yielded unless it is taken out before. -/
structure YieldsTree : Prop where
  next : ∀ k v, c.yielded r st (k + 1) = c.yielded r st k ++ [v] →
    c.yielded r st (k + 1) <+: c.nodesAt r st k
  initial : ∀ k, c.yielded r st k <+: c.nodesAt r st k
  nodup : ∀ k, (c.yielded r st k).Nodup
  eq_nodes : ∀ k, c.Ended r st k → c.yielded r st k = c.nodesAt r st k
  of_removed : ∀ j k n, j ≤ k → n ∉ c.nodesAt r st j → n ∈ c.yielded r st k →
    ∃ i, j ≤ i ∧ i < k ∧ n ∉ c.nodesAt r st i ∧ n ∈ c.nodesAt r st (i + 1)
  of_added : ∀ j k n, j ≤ k → n ∈ c.nodesAt r st j → c.Ended r st k → n ∉ c.yielded r st k →
    ∃ i, j ≤ i ∧ i < k ∧ n ∈ c.nodesAt r st i ∧ n ∉ c.nodesAt r st (i + 1)

structure Progress (σ : Type) where
  done : List NodeId
  walk : Walk
  state : σ

variable {r st} in
def stop (p : Progress σ) : Progress σ :=
  match p.walk.advance (c.store p.state) with
  | none => p
  | some (n, w) => ⟨p.done ++ [n], w, (Id.run ((c.visit n).run p.state)).2⟩

def progress (k : ℕ) : Progress σ := c.stop^[k] ⟨[], .start r, st⟩

theorem traverse_eq (k : ℕ) (p : Progress σ) :
    ((c.stop^[k] p).done, (c.stop^[k] p).state) =
      let q := Id.run ((traverse (c.store <$> get) Walk.advance c.visit k p.walk).run p.state)
      (p.done ++ q.1, q.2) := by
  induction k generalizing p with
  | zero => simp [traverse]
  | succ k ih =>
    cases hadvance : p.walk.advance (c.store p.state) with
    | none =>
      have hstop : c.stop p = p := by rw [stop, hadvance]
      rw [Function.iterate_fixed hstop]
      simp [traverse, hadvance]
    | some q =>
      have hstop : c.stop p = ⟨p.done ++ [q.1], q.2, (Id.run ((c.visit q.1).run p.state)).2⟩ := by
        rw [stop, hadvance]
      rw [Function.iterate_succ_apply, hstop, ih]
      simp [traverse, hadvance]

theorem stop_cases (p : Progress σ) :
    (p.walk.advance (c.store p.state) = none ∧ c.stop p = p) ∨
      ∃ v, p.walk.advance (c.store p.state) = some (v, (c.stop p).walk) ∧
        (c.stop p).done = p.done ++ [v] ∧
        (c.stop p).state = (Id.run ((c.visit v).run p.state)).2 := by
  unfold stop
  cases hadvance : p.walk.advance (c.store p.state) with
  | none => exact .inl ⟨rfl, rfl⟩
  | some q => exact .inr ⟨q.1, rfl, rfl, rfl⟩

theorem progress_succ (k : ℕ) : c.progress r st (k + 1) = c.stop (c.progress r st k) :=
  Function.iterate_succ_apply' ..

theorem walk_eq (k : ℕ) : c.walk r st k = ((c.progress r st k).done, (c.progress r st k).state) :=
  (c.traverse_eq k ⟨[], .start r, st⟩).symm

theorem yielded_eq (k : ℕ) : c.yielded r st k = (c.progress r st k).done := by
  rw [yielded, walk_eq]

theorem storeAt_eq (k : ℕ) : c.storeAt r st k = c.store (c.progress r st k).state := by
  rw [storeAt, walk_eq]

/-- A walk that has yielded less than a node for each stop has nothing left to yield. -/
theorem advance_eq_none_of_ended {k : ℕ} (h : c.Ended r st k) :
    (c.progress r st k).walk.advance (c.storeAt r st k) = none := by
  have hall : ∀ k, (c.progress r st k).done.length = k ∨
      (c.progress r st k).walk.advance (c.store (c.progress r st k).state) = none := by
    intro k
    induction k with
    | zero => exact .inl rfl
    | succ k ih =>
      rw [progress_succ]
      rcases c.stop_cases (c.progress r st k) with ⟨hend, hstop⟩ | ⟨v, hadvance, hdone, -⟩
      · exact .inr (hstop.symm ▸ hend)
      · rcases ih with hlength | hend
        · exact .inl (by simp [hdone, hlength])
        · exact absurd (hend.symm.trans hadvance) (by simp)
  rw [Ended, yielded_eq] at h
  rw [storeAt_eq]
  exact (hall k).resolve_left h.ne

section EditsBelow

variable {c r st} (h : (c.store st).WellFormed) (hr : r.index < (c.store st).size)
  (hedits : c.EditsBelowStops r st)

include h hr hedits

theorem inOrder (k : ℕ) : (c.progress r st k).walk.InOrder r (c.storeAt r st k) (c.yielded r st k) := by
  induction k with
  | zero => exact .start h hr
  | succ k ih =>
    have hedit := hedits k
    rw [yielded_eq, storeAt_eq] at ih ⊢
    rw [yielded_eq, yielded_eq, storeAt_eq, storeAt_eq] at hedit
    rw [progress_succ] at hedit ⊢
    rcases c.stop_cases (c.progress r st k) with ⟨-, hstop⟩ | ⟨v, hadvance, hdone, -⟩
    · rwa [hstop]
    · obtain ⟨hcurrent, hnext⟩ := ih.advance hadvance
      rw [hdone]
      exact hnext.edit hcurrent (hedit v hdone)

end EditsBelow

/-- A property that is lost is lost at one step. -/
theorem exists_lost {P : ℕ → Prop} {j k : ℕ} (hjk : j ≤ k) (hj : P j) (hk : ¬ P k) :
    ∃ i, j ≤ i ∧ i < k ∧ P i ∧ ¬ P (i + 1) := by
  induction k, hjk using Nat.le_induction with
  | base => exact absurd hj hk
  | succ k hjk ih =>
    by_cases hP : P k
    · exact ⟨k, hjk, Nat.lt_succ_self k, hP, hk⟩
    · obtain ⟨i, hji, hik, hi⟩ := ih hP
      exact ⟨i, hji, Nat.lt_succ_of_lt hik, hi⟩

/-- A walk whose consumer changes at each stop only what stands below the node yielded there yields the
tree as it stands. -/
theorem yieldsTree_of_editsBelow {c : Consumer σ} {r : NodeId} {st : σ}
    (h : (c.store st).WellFormed) (hr : r.index < (c.store st).size)
    (hedits : c.EditsBelowStops r st) : c.YieldsTree r st := by
  have hinitial : ∀ k, c.yielded r st k <+: c.nodesAt r st k := fun k =>
    ⟨_, (inOrder h hr hedits k).nodes_eq.symm⟩
  have hend : ∀ k, c.Ended r st k → c.yielded r st k = c.nodesAt r st k := fun k hk =>
    (inOrder h hr hedits k).eq_nodes (c.advance_eq_none_of_ended r st hk)
  refine ⟨fun k v hv => ?_, hinitial, fun k => ?_, hend, fun j k n hjk hj hk => ?_,
    fun j k n hjk hj hk hout => ?_⟩
  · have horder := inOrder h hr hedits k
    rw [yielded_eq, yielded_eq, progress_succ] at hv
    rw [nodesAt, yielded_eq, storeAt_eq, progress_succ]
    rw [yielded_eq, storeAt_eq] at horder
    rcases c.stop_cases (c.progress r st k) with ⟨-, hstop⟩ | ⟨w, hadvance, hdone, -⟩
    · simp [hstop] at hv
    · exact hdone ▸ ⟨_, (horder.advance hadvance).2.nodes_eq.symm⟩
  · exact (inOrder h hr hedits k).nodup
  · obtain ⟨i, hji, hik, hi, hi'⟩ := exists_lost (P := fun i => n ∉ c.nodesAt r st i) hjk hj
      (not_not_intro ((hinitial k).subset hk))
    exact ⟨i, hji, hik, hi, not_not.mp hi'⟩
  · exact exists_lost (P := fun i => n ∈ c.nodesAt r st i) hjk hj (hend k hk ▸ hout)

def editingAt (v : NodeId) (edit : Store → Store) : Consumer Store where
  store := id
  visit n := modify fun s => if n = v then edit s else s

section EditingAt

variable {r} {v : NodeId} {edit : Store → Store} {s : Store}

variable (r v edit s) in
structure OnceEdited (p : Progress Store) : Prop where
  inOrder : p.walk.InOrder r p.state p.done
  state_eq : p.state = if v ∈ p.done then edit s else s

/-- Each stop is an edit below the node yielded there: the store changes when `v` is yielded, which
happens once, and at no other stop. -/
theorem OnceEdited.stop (hedit : EditsBelow r v s (edit s)) {p : Progress Store} {n : NodeId}
    (h : OnceEdited r v edit s p) (hdone : ((editingAt v edit).stop p).done = p.done ++ [n]) :
    EditsBelow r n p.state ((editingAt v edit).stop p).state ∧
      OnceEdited r v edit s ((editingAt v edit).stop p) := by
  rcases (editingAt v edit).stop_cases p with ⟨-, hstop⟩ | ⟨w, hadvance, hdone', hvisit⟩
  · simp [hstop] at hdone
  obtain rfl : w = n := by simpa [hdone'] using hdone
  have hvisit : ((editingAt v edit).stop p).state = if w = v then edit p.state else p.state := hvisit
  obtain ⟨hcurrent, hnext⟩ := h.inOrder.advance hadvance
  have hnew : w ∉ p.done := fun hmem =>
    (List.nodup_append'.mp hnext.nodup).2.2 hmem (List.mem_singleton_self w)
  have hstep : EditsBelow r w p.state ((editingAt v edit).stop p).state ∧
      ((editingAt v edit).stop p).state = if v ∈ p.done ++ [w] then edit s else s := by
    have hstate := h.state_eq
    by_cases hwv : w = v
    · subst hwv
      rw [if_neg hnew] at hstate
      rw [hvisit, if_pos rfl, if_pos (by simp), hstate]
      exact ⟨hedit, rfl⟩
    · rw [hvisit, if_neg hwv]
      exact ⟨.refl h.inOrder.wellFormed, by simpa [Ne.symm hwv] using hstate⟩
  refine ⟨hstep.1, ?_, ?_⟩
  · exact hdone ▸ hnext.edit hcurrent hstep.1
  · exact hdone ▸ hstep.2

/-- A consumer that edits at one node, and below it, edits below the node yielded at every stop. -/
theorem editsBelowStops_editingAt (h : s.WellFormed) (hr : r.index < s.size)
    (hedit : EditsBelow r v s (edit s)) : (editingAt v edit).EditsBelowStops r s := by
  have hall : ∀ k, OnceEdited r v edit s ((editingAt v edit).progress r s k) := by
    intro k
    induction k with
    | zero => exact ⟨.start h hr, rfl⟩
    | succ k ih =>
      rw [progress_succ]
      rcases (editingAt v edit).stop_cases ((editingAt v edit).progress r s k) with
        ⟨-, hstop⟩ | ⟨n, -, hdone, -⟩
      · exact hstop.symm ▸ ih
      · exact (ih.stop hedit hdone).2
  intro k n hn
  rw [yielded_eq, yielded_eq, progress_succ] at hn
  rw [storeAt_eq, storeAt_eq, progress_succ]
  exact ((hall k).stop hedit hn).1

end EditingAt

/-- A root over two nodes, the first of them over a third one, and a free node. -/
def beforeSwap : Store :=
  (((((((Store.empty.push .node).push .node).push .node).push .node).push .node).append
    ⟨0⟩ ⟨1⟩).append ⟨1⟩ ⟨2⟩).append ⟨0⟩ ⟨3⟩

theorem beforeSwap_wellFormed : beforeSwap.WellFormed := by
  have hnew := ((((((Store.Realizes.empty .empty).push .node).push .node).push .node).push
    .node).push .node).wellFormed
  have hfirst := Move.wellFormed_apply (m := .append ⟨0⟩ ⟨1⟩) hnew
    ⟨by decide, by decide, rfl, by decide⟩ rfl
  have hsecond := Move.wellFormed_apply (m := .append ⟨1⟩ ⟨2⟩) hfirst
    ⟨by decide, by decide, rfl, by decide⟩ rfl
  exact Move.wellFormed_apply (m := .append ⟨0⟩ ⟨3⟩) hsecond
    ⟨by decide, by decide, rfl, by decide⟩ rfl

theorem editsBelow_swap :
    EditsBelow ⟨0⟩ ⟨1⟩ beforeSwap ((beforeSwap.remove ⟨2⟩).append ⟨1⟩ ⟨4⟩) := by
  have hremove : EditsBelow ⟨0⟩ ⟨1⟩ beforeSwap (beforeSwap.remove ⟨2⟩) :=
    .of_move (m := .remove ⟨2⟩) beforeSwap_wellFormed (by decide) (by decide) (by decide : 2 < 5) rfl
      (.inr ⟨by decide, by decide⟩)
  refine hremove.trans beforeSwap_wellFormed (by decide) (by decide) ?_
  exact .of_move (m := .append ⟨1⟩ ⟨4⟩) hremove.wellFormed (by decide) (by decide)
    ⟨by decide, by decide, rfl, by decide⟩ rfl (.inr ⟨by decide, by decide⟩)

/-- At the first child of the root the free node takes the place of the node below. -/
theorem swap_yieldsTree :
    let c := editingAt ⟨1⟩ fun s => (s.remove ⟨2⟩).append ⟨1⟩ ⟨4⟩
    beforeSwap.WellFormed ∧ c.EditsBelowStops ⟨0⟩ beforeSwap ∧ c.YieldsTree ⟨0⟩ beforeSwap ∧
      c.Ended ⟨0⟩ beforeSwap 5 ∧ c.yielded ⟨0⟩ beforeSwap 5 = [⟨0⟩, ⟨1⟩, ⟨4⟩, ⟨3⟩] := by
  intro c
  have hedits : c.EditsBelowStops ⟨0⟩ beforeSwap :=
    editsBelowStops_editingAt beforeSwap_wellFormed (by decide) editsBelow_swap
  exact ⟨beforeSwap_wellFormed, hedits,
    yieldsTree_of_editsBelow beforeSwap_wellFormed (by decide) hedits, by decide +kernel,
    by decide +kernel⟩

end Consumer

end DocTree
