import DocTree.Proofs.IndependentMoves

/-!
Edits below a node. Surgery that leaves the store in order, and the children of every node of a tree that
is not in the tree of `v`, gives `v` another tree and changes nothing else: what stands in front of `v` and
behind its tree in document order stays. Making nodes is such surgery, and so are moves below `v` or outside
of the tree; one after the other they are such surgery again.
-/
namespace DocTree

open OrderedTree

inductive Surgery where
  | create (label : Label Value)
  | move (m : Move)
  | replaceAt (place : Position) (n : NodeId)

def Surgery.apply (s : Store) : Surgery → Except OwnAncestor Store
  | create label => .ok (s.push label)
  | move m => m.apply s
  | replaceAt place n => .ok (s.replaceAt place n)

/-- Surgery that leaves the store in order and changes, of the tree of `r`, only what stands below `v`. In
between the store need not be in order. -/
structure EditsBelow (r v : NodeId) (s s' : Store) : Prop where
  exists_calls : ∃ calls : List Surgery, calls.foldlM Surgery.apply s = .ok s'
  wellFormed : s'.WellFormed
  children_eq : ∀ n ∈ (s.tree r).nodes, n ∉ (s.tree v).nodes → s'.children n = s.children n

def Move.Spares (r v : NodeId) (s : Store) (m : Move) : Prop :=
  m.target ∉ (s.tree r).nodes ∨ m.target ∈ (s.tree v).nodes ∧ (m.isAppend ∨ m.target ≠ v)

namespace Forest

variable {f g : Forest}

/-- The tree of a child does not meet those of the other children. -/
theorem Spans.disjoint_others {n : NodeId} {v w : OrderedTree NodeId}
    {front behind : List (OrderedTree NodeId)}
    (hroots : f.children n = (front ++ v :: behind).map root)
    (hts : ∀ t ∈ front ++ v :: behind, f.Spans t) (hw : w ∈ front ++ behind) :
    w ∈ front ++ v :: behind ∧ w.nodes.Disjoint v.nodes := by
  have hchild : ∀ {x}, x ∈ front ++ v :: behind → x.root ∈ f.children n := fun hx =>
    hroots ▸ List.mem_map_of_mem hx
  rw [List.map_append, List.map_cons] at hroots
  obtain ⟨hfront, hbehind⟩ := notMem_of_children_eq hroots
  have hne : w.root ≠ v.root := by
    intro he
    rcases List.mem_append.mp hw with hw | hw
    · exact hfront (he ▸ List.mem_map_of_mem hw)
    · exact hbehind (he ▸ List.mem_map_of_mem hw)
  have hv : v ∈ front ++ v :: behind := by simp
  have hwt : w ∈ front ++ v :: behind := by
    rw [List.mem_append] at hw ⊢
    exact hw.imp_right (List.mem_cons_of_mem v)
  exact ⟨hwt, (hts w hwt).disjoint (hts v hv) (hchild hwt) (hchild hv) hne⟩

/-- A tree that is changed at and below one place keeps the nodes in front of that place and behind it. -/
theorem Spans.exists_changed {t u u' : OrderedTree NodeId} (ht : f.Spans t)
    (hu : u ∈ t.subtrees) (hu' : g.Spans u') (hroot : u'.root = u.root)
    (hg : ∀ n ∈ t.nodes, n ∉ u.nodes → g.children n = f.children n) :
    ∃ t' left right, g.Spans t' ∧ t'.root = t.root ∧
      t.nodes = left ++ (u.nodes ++ right) ∧ t'.nodes = left ++ (u'.nodes ++ right) := by
  induction ht with
  | @node n ts hroots hts ih =>
    rw [subtrees_node, List.mem_cons, List.mem_flatMap] at hu
    rcases hu with rfl | ⟨v, hv, huv⟩
    · exact ⟨u', [], [], hu', hroot, by simp, by simp⟩
    have hin : ∀ {w}, w ∈ ts → ∀ m ∈ w.nodes, m ∈ (OrderedTree.node n ts).nodes := fun hw m hm => by
      simpa using .inr ⟨_, hw, hm⟩
    have hbelow : u.nodes ⊆ v.nodes := (nodes_infix_of_mem_subtrees huv).subset
    obtain ⟨v', left, right, hv', hroot', hnodes, hnodes'⟩ := ih v hv huv fun m hm => hg m (hin hv m hm)
    have hn : g.children n = f.children n := hg n (by simp) fun hnu =>
      (hts v hv).parent_notMem (hroots ▸ List.mem_map_of_mem hv) (hbelow hnu)
    obtain ⟨front, behind, rfl⟩ := List.append_of_mem hv
    have hkept : ∀ w ∈ front ++ behind, g.Spans w := by
      intro w hw
      obtain ⟨hwt, hapart⟩ := Spans.disjoint_others hroots hts hw
      exact (hts w hwt).congr fun m hm => hg m (hin hwt m hm) fun hmu => hapart hm (hbelow hmu)
    refine ⟨.node n (front ++ v' :: behind), n :: front.flatMap nodes ++ left,
      right ++ behind.flatMap nodes, .node ?_ fun w hw => ?_, rfl, ?_, ?_⟩
    · rw [hn, hroots, List.map_append, List.map_append, List.map_cons, List.map_cons, hroot']
    · rw [List.mem_append, List.mem_cons] at hw
      rcases hw with hw | rfl | hw
      · exact hkept w (List.mem_append_left behind hw)
      · exact hv'
      · exact hkept w (List.mem_append_right front hw)
    · simp [hnodes]
    · simp [hnodes']

end Forest

namespace Store

/-! No call gives cells back. -/

theorem size_le_setLink (s : Store) (l : Link) (n : NodeId) (target : Option NodeId) :
    s.size ≤ (s.setLink l n target).size :=
  (size_setLink s l n target).symm ▸ Nat.le_max_left ..

theorem size_le_append (s : Store) (p c : NodeId) : s.size ≤ (s.append p c).size := by
  unfold append
  simp only []
  split <;> simp only [size_setLink] <;> omega

theorem size_le_linkForward (s : Store) (place : Position) (target : Option NodeId) :
    s.size ≤ (s.linkForward place target).size := by
  unfold linkForward
  split
  · exact size_le_setLink ..
  · exact size_le_setLink ..
  · exact Nat.le_refl _

theorem size_le_linkBackward (s : Store) (place : Position) (target : Option NodeId) :
    s.size ≤ (s.linkBackward place target).size := by
  unfold linkBackward
  split
  · exact size_le_setLink ..
  · exact size_le_setLink ..
  · exact Nat.le_refl _

theorem size_le_setPosition (s : Store) (n : NodeId) (place : Position) :
    s.size ≤ (s.setPosition n place).size := by
  simp only [setPosition, size_setLink]
  omega

theorem size_le_replaceAt (s : Store) (place : Position) (new : NodeId) :
    s.size ≤ (s.replaceAt place new).size :=
  (size_le_setPosition s new place).trans
    ((size_le_linkForward ..).trans (size_le_linkBackward ..))

theorem size_le_replace {s s' : Store} {old new : NodeId} (hs' : s.replace old new = .ok s') :
    s.size ≤ s'.size := by
  unfold replace at hs'
  split at hs'
  · rw [Except.ok.inj hs']
  split at hs'
  · exact absurd hs' (by simp)
  rw [← Except.ok.inj hs']
  have hsplice := size_le_replaceAt s (s.position old) new
  split
  · exact hsplice.trans (size_le_setPosition ..)
  · exact hsplice

theorem size_le_remove (s : Store) (n : NodeId) : s.size ≤ (s.remove n).size := by
  unfold remove
  simp only []
  split
  · exact Nat.le_refl _
  · exact (size_le_linkForward ..).trans ((size_le_linkBackward ..).trans (size_le_setPosition ..))

/-- The trees below the nodes of a tree stand at its places. -/
theorem Realizes.tree_mem_subtrees {s : Store} {f : Forest} (h : s.Realizes 0 f) {r v : NodeId}
    (hr : r.index < s.size) (hv : v ∈ (s.tree r).nodes) : s.tree v ∈ (s.tree r).subtrees := by
  have hvs := h.index_lt_of_mem_tree (Nat.zero_le _) hr hv
  rw [← map_root_subtrees] at hv
  obtain ⟨u, hu, rfl⟩ := List.mem_map.mp hv
  have hspans : ∀ x ∈ (s.tree r).subtrees, f.Spans x :=
    forall_subtrees (fun _ hx _ hy => hx.child hy) (h.spans_tree (Nat.zero_le _) hr)
  rwa [h.tree_eq (hspans u hu) (Nat.zero_le _) hvs]

end Store

theorem Surgery.size_le {s s' : Store} {call : Surgery} (h : call.apply s = .ok s') :
    s.size ≤ s'.size := by
  cases call with
  | create label =>
    obtain rfl := Except.ok.inj h
    exact (Store.size_push s label).symm ▸ Nat.le_succ _
  | move m =>
    cases m with
    | append p c =>
      obtain rfl := Except.ok.inj h
      exact s.size_le_append p c
    | replace old new => exact Store.size_le_replace h
    | remove n =>
      obtain rfl := Except.ok.inj h
      exact s.size_le_remove n
  | replaceAt place n =>
    obtain rfl := Except.ok.inj h
    exact s.size_le_replaceAt place n

theorem Surgery.size_le_foldlM {s s' : Store} {calls : List Surgery}
    (h : calls.foldlM apply s = .ok s') : s.size ≤ s'.size := by
  induction calls generalizing s with
  | nil => rw [Except.ok.inj h]
  | cons call calls ih =>
    rw [List.foldlM_cons] at h
    cases hcall : call.apply s with
    | error e =>
      rw [hcall] at h
      exact absurd h (by simp [bind, Except.bind])
    | ok t =>
      rw [hcall] at h
      exact (size_le hcall).trans (ih h)

theorem Move.children_apply {s s' : Store} {m : Move} (h : s.WellFormed) (hallowed : m.Allowed s)
    (hm : m.apply s = .ok s') (n : NodeId) : s'.children n = m.rewrite n (s.children n) := by
  have hs := h.realizes
  have hcase : m.Fits h.forest ∨ s' = s ∧ m.rewrite n (s.children n) = s.children n := by
    cases m with
    | append p c =>
      refine .inl fun d hd => ?_
      obtain ⟨-, hc, hfree, hout⟩ := hallowed
      obtain rfl := Option.some.inj hd
      rw [hs.mem_nodes_tree (Nat.zero_le _) hc] at hout
      exact ⟨hfree, hout⟩
    | replace old new =>
      rcases hs.replace_cases hallowed.2.2 hm with ⟨rfl, rfl⟩ | ⟨habove, -⟩
      · refine .inr ⟨rfl, (List.map_congr_left fun c _ => ?_).trans (List.map_id _)⟩
        by_cases hc : c = old
        · rw [hc, Forest.exchange_old, id]
        · rw [Forest.exchange_of_ne hc, id]
      · refine .inl fun d hd => ?_
        obtain rfl := Option.some.inj hd
        exact ⟨hallowed.2.2, habove⟩
    | remove v => exact .inl fun d hd => absurd hd (by simp [inserted?])
  rcases hcase with hfits | ⟨rfl, hkept⟩
  · obtain ⟨t, g, hrewrites⟩ := exists_rewrites hs hfits hallowed.target_lt fun c hc =>
      (hallowed.of_inserted hc).1
    obtain rfl := Except.ok.inj (hm.symm.trans hrewrites.apply_eq)
    rw [hrewrites.realizes.children_eq (Nat.zero_le _), hrewrites.children_eq,
      hs.children_eq (Nat.zero_le _)]
  · exact hkept.symm

namespace EditsBelow

variable {r v n : NodeId} {s s' s'' : Store}

theorem size_le (h : EditsBelow r v s s') : s.size ≤ s'.size :=
  h.exists_calls.elim fun _ => Surgery.size_le_foldlM

theorem refl (h : s.WellFormed) : EditsBelow r v s s :=
  ⟨⟨[], rfl⟩, h, fun _ _ _ => rfl⟩

section Tree

variable (hs : s.WellFormed) (hr : r.index < s.size) (hv : v ∈ (s.tree r).nodes)

include hs hr hv

theorem exists_split (h : EditsBelow r v s s') : ∃ left right,
    (s.tree r).nodes = left ++ ((s.tree v).nodes ++ right) ∧
      (s'.tree r).nodes = left ++ ((s'.tree v).nodes ++ right) := by
  have hf := hs.realizes
  have hg := h.wellFormed.realizes
  have hvs := hf.index_lt_of_mem_tree (Nat.zero_le _) hr hv
  have hsize := h.size_le
  have hspans := hf.spans_tree (Nat.zero_le _) hr
  have hspans' : h.wellFormed.forest.Spans (s'.tree v) :=
    hg.spans_tree (Nat.zero_le _) (hvs.trans_le hsize)
  obtain ⟨t', left, right, ht', hroot', hnodes, hnodes'⟩ :=
    hspans.exists_changed (hf.tree_mem_subtrees hr hv) hspans' (by simp) h.children_eq
  rw [Store.root_tree] at hroot'
  have hafter : s'.tree r = t' := by
    rw [← hroot']
    exact hg.tree_eq ht' (Nat.zero_le _) (hroot' ▸ hr.trans_le hsize)
  exact ⟨left, right, hnodes, hafter ▸ hnodes'⟩

omit hv in
/-- A tree outside of that below `v` stays. -/
theorem tree_eq (h : EditsBelow r v s s')
    (hout : ∀ m ∈ (s.tree n).nodes, m ∈ (s.tree r).nodes ∧ m ∉ (s.tree v).nodes) :
    s'.tree n = s.tree n := by
  have hf := hs.realizes
  have hself : n ∈ (s.tree n).nodes := by simpa using (s.tree n).root_mem_nodes
  have hn := hf.index_lt_of_mem_tree (Nat.zero_le _) hr (hout n hself).1
  have hspans := (hf.spans_tree (Nat.zero_le _) hn).congr (g := h.wellFormed.forest) fun m hm =>
    h.children_eq m (hout m hm).1 (hout m hm).2
  have htree := h.wellFormed.realizes.tree_eq hspans (Nat.zero_le _)
  rw [Store.root_tree] at htree
  exact htree (hn.trans_le h.size_le)

theorem trans (h : EditsBelow r v s s') (h' : EditsBelow r v s' s'') : EditsBelow r v s s'' where
  exists_calls := by
    obtain ⟨calls, hcalls⟩ := h.exists_calls
    obtain ⟨calls', hcalls'⟩ := h'.exists_calls
    refine ⟨calls ++ calls', ?_⟩
    rw [List.foldlM_append, hcalls]
    exact hcalls'
  wellFormed := h'.wellFormed
  children_eq n hn hout := by
    obtain ⟨left, right, hnodes, hnodes'⟩ := h.exists_split hs hr hv
    have hnodup := (h.wellFormed.realizes.spans_tree (Nat.zero_le _) (hr.trans_le h.size_le)).nodup
    have hside : n ∈ left ∨ n ∈ right := by
      rw [hnodes] at hn
      simpa [hout] using hn
    have hn' : n ∈ (s'.tree r).nodes := by
      rw [hnodes']
      simp only [List.mem_append]
      exact hside.imp_right .inr
    have hout' : n ∉ (s'.tree v).nodes := by
      rw [hnodes', List.nodup_append', List.nodup_append'] at hnodup
      obtain ⟨-, ⟨-, -, hright⟩, hleft⟩ := hnodup
      intro hin
      rcases hside with hn | hn
      · exact hleft hn (List.mem_append_left right hin)
      · exact hright hin hn
    exact (h'.children_eq n hn' hout').trans (h.children_eq n hn hout)

omit hr hv in
theorem of_create (label : Label Value) : EditsBelow r v s (s.push label) where
  exists_calls := ⟨[.create label], rfl⟩
  wellFormed := (hs.realizes.push label).wellFormed
  children_eq n _ _ := by
    rw [(hs.realizes.push label).children_eq (Nat.zero_le _), hs.realizes.children_eq (Nat.zero_le _)]

theorem of_move {m : Move} (hallowed : m.Allowed s) (hm : m.apply s = .ok s')
    (hspares : m.Spares r v s) : EditsBelow r v s s' where
  exists_calls := ⟨[.move m], by simp [Surgery.apply, hm]⟩
  wellFormed := Move.wellFormed_apply hs hallowed hm
  children_eq n hn hout := by
    have hf := hs.realizes
    have hvs := hf.index_lt_of_mem_tree (Nat.zero_le _) hr hv
    have hne : n ≠ m.target := by
      rintro rfl
      rcases hspares with htarget | ⟨htarget, -⟩
      · exact htarget hn
      · exact hout htarget
    have hin : m.isAppend = false → m.target ∉ s.children n := by
      intro hnot hc
      rcases hspares with htarget | ⟨htarget, hcase⟩
      · exact htarget ((hf.mem_nodes_tree (Nat.zero_le _) hr).mpr
          (((hf.mem_nodes_tree (Nat.zero_le _) hr).mp hn).trans (Forest.above_of_mem_children hc)))
      rcases hf.eq_or_parent_mem_tree (Nat.zero_le _) hvs hc htarget with he | hparent
      · exact hcase.elim (fun happend => by simp [hnot] at happend) fun hne => hne he
      · exact hout hparent
    rw [Move.children_apply hs hallowed hm]
    cases m with
    | append p c => exact if_neg hne
    | replace old new => exact Move.rewrite_eq_self hne (hin rfl)
    | remove c => exact Move.rewrite_eq_self hne (hin rfl)

end Tree

end EditsBelow

end DocTree
