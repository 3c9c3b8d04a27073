import DocTree.Proofs.Normalization
import Mathlib.Data.List.DropRight

/-!
The loop of a pass that wraps items. At its head stand the child that is next, read before the one in
front of it was touched, and the list that is open, made some turns ago. Both outlive the pass below
each child and the splices at the same chain: the chain is rewritten in front of the child only, and what
is below a child never reaches its place.
-/
namespace DocTree.Store

open OrderedTree

/-- The items at the end of a list of nodes. -/
def itemRun (s : Store) (ns : List NodeId) : List NodeId := ns.rtakeWhile (s.kind · = .item)

theorem itemRun_concat_item {s : Store} {ns : List NodeId} {c : NodeId} (hc : s.kind c = .item) :
    s.itemRun (ns ++ [c]) = s.itemRun ns ++ [c] :=
  List.rtakeWhile_concat_pos _ _ _ (by simpa using hc)

theorem itemRun_concat_of_ne {s : Store} {ns : List NodeId} {c : NodeId} (hc : s.kind c ≠ .item) :
    s.itemRun (ns ++ [c]) = [] :=
  List.rtakeWhile_concat_neg _ _ _ (by simpa using hc)

def below (s : Store) (ns : List NodeId) : List NodeId := ns.flatMap fun c => (s.tree c).nodes

/-! How long a pass may go on does not matter once it comes to its end. -/

section Bound

variable {merge : Bool} {bound bound' made made' : ℕ} {owner : NodeId}
  {child joinable : Option NodeId} {s s₁ s₂ : Store}

theorem wrapFrom_none : wrapFrom merge bound s owner none joinable = some (s, 0) := by
  cases bound <;> rfl

theorem wrapFrom_mono (h : wrapFrom merge bound s owner child joinable = some (s₁, made))
    (hle : bound ≤ bound') :
    wrapFrom merge bound' s owner child joinable = some (s₁, made) := by
  induction bound generalizing s owner child joinable s₁ made bound' with
  | zero =>
    cases child with
    | none => rwa [wrapFrom_none] at h ⊢
    | some c => simp [wrapFrom] at h
  | succ bound ih =>
    cases child with
    | none => rwa [wrapFrom_none] at h ⊢
    | some c =>
      obtain ⟨k, rfl⟩ := Nat.exists_eq_add_of_le' (Nat.one_le_of_lt hle)
      obtain ⟨s₂, below, after, hbelow, hafter, rfl⟩ := exists_of_wrapFrom_succ h
      exact wrapFrom_succ rfl (ih hbelow (by omega)) rfl (ih hafter (by omega))

theorem wrapFrom_unique (h : wrapFrom merge bound s owner child joinable = some (s₁, made))
    (h' : wrapFrom merge bound' s owner child joinable = some (s₂, made')) :
    s₁ = s₂ ∧ made = made' := by
  have hmax := wrapFrom_mono h (Nat.le_max_left bound bound')
  have hmax' := wrapFrom_mono h' (Nat.le_max_right bound bound')
  exact Prod.mk.inj (Option.some.inj (hmax.symm.trans hmax'))

end Bound

/-- The head of the loop along the children of a node: the children settled so far, the child that is
next, and the list that is open. -/
structure Head where
  done : List NodeId
  store : Store
  child : Option NodeId
  joinable : Option NodeId

namespace Head

def start (s : Store) (n : NodeId) : Head := ⟨[], s, s.link .firstChild n, none⟩

/-- The head after one turn, in which the pass below the child has led to `s`. The next sibling was read
before. -/
def following (merge : Bool) (n : NodeId) (h : Head) (c : NodeId) (s : Store) : Head where
  done := h.done ++ [c]
  store := (s.settle merge n c h.joinable).store
  child := h.store.link .next c
  joinable := (s.settle merge n c h.joinable).joinable

/-- One turn of the loop: everything below the child is done, then the child is settled. -/
inductive Turn (merge : Bool) (n : NodeId) : Head → Head → Prop
  | turn {h : Head} {c : NodeId} {s : Store} {made : ℕ} (hchild : h.child = some c)
      (hbelow : h.store.wrapItems c merge = some (s, made)) :
      Turn merge n h (h.following merge n c s)

def Reached (merge : Bool) (s : Store) (n : NodeId) (h : Head) : Prop :=
  Relation.ReflTransGen (Turn merge n) (start s n) h

def rest (s : Store) (n : NodeId) (h : Head) : List NodeId := (s.children n).drop h.done.length

structure Opened (merge : Bool) (s : Store) (n : NodeId) (h : Head) (list : NodeId) : Prop where
  merges : merge = true
  owner_kind : s.kind n ≠ .list
  isNew : s.size ≤ list.index
  label_eq : h.store.label list = .list
  parent_eq : h.store.link .parent list = some n
  next_eq : h.store.link .next list = h.child
  before_eq : h.child.elim (h.store.link .lastChild n) (h.store.link .previous) = some list
  children_eq : h.store.children list = s.itemRun h.done

/-- The loop along the children of `n` started in `s` and has come to the head `h`. -/
structure InOrder (merge : Bool) (s : Store) (n : NodeId) (h : Head) : Prop where
  wellFormed : h.store.WellFormed
  done_rest : h.done ++ h.rest s n = s.children n
  nodup : (s.children n).Nodup
  child_eq : h.child = (h.rest s n).head?
  parent_eq : ∀ c ∈ h.child, h.store.link .parent c = some n
  path : h.store.Path .next h.child (h.rest s n)
  last_eq : h.child ≠ none → h.store.link .lastChild n = (h.rest s n).getLast?
  suffix : h.rest s n <:+ h.store.children n
  tree_eq : ∀ c ∈ h.rest s n, h.store.tree c = s.tree c
  link_eq : ∀ c ∈ h.rest s n, ∀ m ∈ (s.tree c).nodes, m ≠ c → ∀ l, h.store.link l m = s.link l m
  label_eq : ∀ m, m.index < s.size → h.store.label m = s.label m
  opened : ∀ list ∈ h.joinable, Opened merge s n h list
  closed : h.joinable = none → merge = true → s.kind n ≠ .list → s.itemRun h.done = []

end Head

/-- The loop as the forests see it, that at the start and that at the head: only nodes below the
children settled are moved, and the rest of the children comes behind what has become of them. -/
structure Standing (merge : Bool) (s₀ : Store) (f₀ : Forest) (n : NodeId) (h : Head) (f : Forest)
    (front rest : List NodeId) : Prop where
  children_start : f₀.children n = h.done ++ rest
  children_eq : f.children n = front ++ rest
  child_eq : h.child = rest.head?
  alters : Alters 0 (n :: s₀.below h.done) (s₀.below h.done) s₀ f₀ h.store f
  opened : ∀ list ∈ h.joinable, merge = true ∧ s₀.kind n ≠ .list ∧ s₀.size ≤ list.index ∧
    list.index < h.store.size ∧ h.store.label list = .list ∧ front.getLast? = some list ∧
    f.children list = s₀.itemRun h.done
  closed : h.joinable = none → merge = true → s₀.kind n ≠ .list → s₀.itemRun h.done = []

namespace Standing

variable {merge : Bool} {made : ℕ} {n c : NodeId} {s₀ s₁ : Store} {f₀ f f₁ : Forest} {h : Head}
  {front rest : List NodeId}

theorem start (hs₀ : s₀.Realizes 0 f₀) :
    Standing merge s₀ f₀ n (.start s₀ n) f₀ [] (f₀.children n) where
  children_start := rfl
  children_eq := rfl
  child_eq := hs₀.firstChild_eq (Nat.zero_le _)
  alters := (Alters.refl hs₀).mono (by simp) (by simp)
  opened := by simp [Head.start]
  closed _ _ _ := rfl

section Rest

variable (hs₀ : s₀.Realizes 0 f₀) (h' : Standing merge s₀ f₀ n h f front rest)

include hs₀ h'

theorem index_lt (hc : c ∈ rest) : c.index < s₀.size ∧ n.index < s₀.size :=
  hs₀.index_lt (h'.children_start ▸ List.mem_append_right _ hc)

theorem spans_start (hc : c ∈ rest) : f₀.Spans (s₀.tree c) :=
  hs₀.spans_tree (Nat.zero_le _) (h'.index_lt hs₀ hc).1

theorem notMem_below (hc : c ∈ rest) {m : NodeId} (hm : m ∈ (s₀.tree c).nodes) :
    m ≠ n ∧ m ∉ s₀.below h.done := by
  have hcn : c ∈ f₀.children n := h'.children_start ▸ List.mem_append_right _ hc
  have hspans := h'.spans_start hs₀ hc
  constructor
  · rintro rfl
    exact hspans.parent_notMem (by rwa [root_tree]) hm
  · intro hbelow
    obtain ⟨d, hd, hmd⟩ := List.mem_flatMap.mp hbelow
    have hdn : d ∈ f₀.children n := h'.children_start ▸ List.mem_append_left _ hd
    have hnodup := List.nodup_append.mp (h'.children_start ▸ f₀.nodup_children n)
    have hdspans := hs₀.spans_tree (Nat.zero_le _) (hs₀.index_lt hdn).1
    refine hdspans.disjoint hspans (p := n) ?_ ?_ ?_ hmd hm
    · rwa [root_tree]
    · rwa [root_tree]
    · simpa using hnodup.2.2 d hd c hc

theorem lt_of_mem_tree (hc : c ∈ rest) {m : NodeId} (hm : m ∈ (s₀.tree c).nodes) :
    m.index < s₀.size :=
  hs₀.index_lt_of_mem_tree (Nat.zero_le _) (h'.index_lt hs₀ hc).1 hm

theorem spans (hc : c ∈ rest) : f.Spans (s₀.tree c) := by
  refine h'.alters.spans (h'.spans_start hs₀ hc) (fun m hm => h'.lt_of_mem_tree hs₀ hc hm) ?_
  intro m hm
  obtain ⟨hne, hout⟩ := h'.notMem_below hs₀ hc hm
  simp [hne, hout]

end Rest

structure Descended (s₀ : Store) (f₀ : Forest) (n c : NodeId) (h : Head) (f : Forest)
    (front rest : List NodeId) (s₁ : Store) (f₁ : Forest) : Prop where
  alters : Alters 0 (n :: s₀.below (h.done ++ [c])) (s₀.below (h.done ++ [c])) s₀ f₀ s₁ f₁
  size_le : h.store.size ≤ s₁.size
  label_eq : ∀ m, m.index < h.store.size → s₁.label m = h.store.label m
  children_eq : f₁.children n = front ++ c :: rest
  children_front : ∀ w ∈ front, f₁.children w = f.children w
  position_eq : s₁.position c = h.store.position c

/-- The child may be moved then, and of the nodes from the start its parent touched. -/
theorem Descended.alters_step {s₂ : Store} {f₂ : Forest} {touched : List NodeId}
    (hd : Descended s₀ f₀ n c h f front rest s₁ f₁) (hstep : Alters 0 touched [c] s₁ f₁ s₂ f₂)
    (htouched : ∀ m ∈ touched, m = n ∨ s₀.size ≤ m.index) :
    Alters 0 (n :: s₀.below (h.done ++ [c])) (s₀.below (h.done ++ [c])) s₀ f₀ s₂ f₂ := by
  have hroot : c ∈ (s₀.tree c).nodes := by simpa using (s₀.tree c).root_mem_nodes
  have hcbelow : c ∈ s₀.below (h.done ++ [c]) := by simp [below, hroot]
  refine (hd.alters.trans hstep).mono (fun m hm hold => ?_) fun m hm _ => ?_
  · rcases List.mem_append.mp hm with hm | hm
    · exact hm
    · rcases htouched m hm with rfl | hnew
      · exact List.mem_cons_self ..
      · omega
  · rw [List.mem_append, List.mem_singleton] at hm
    rcases hm with hm | rfl
    · exact hm
    · exact hcbelow

/-- Below the child the pass goes through, and it leaves the place of the child alone. -/
theorem exists_descended (hs₀ : s₀.Realizes 0 f₀)
    (h' : Standing merge s₀ f₀ n h f front (c :: rest)) :
    ∃ s₁ made f₁, h.store.wrapItems c merge = some (s₁, made) ∧
      Descended s₀ f₀ n c h f front rest s₁ f₁ := by
  have hs := h'.alters.realizes
  have hroots : ((c :: rest).map s₀.tree).map root = c :: rest := by
    simp [Function.comp_def]
  have hp : f.children n = front ++ (s₀.tree c :: rest.map s₀.tree).map root := by
    rw [← List.map_cons, hroots, h'.children_eq]
  have hts : ∀ u ∈ s₀.tree c :: rest.map s₀.tree, f.Spans u := by
    rw [← List.map_cons]
    intro u hu
    obtain ⟨d, hd, rfl⟩ := List.mem_map.mp hu
    exact h'.spans hs₀ hd
  have hcn : c ∈ f.children n := by simp [h'.children_eq]
  have hspans := hts _ (List.mem_cons_self ..)
  have hroot : c ∈ (s₀.tree c).nodes := by simpa using (s₀.tree c).root_mem_nodes
  obtain ⟨s₁, made, f₁, t', hrun, hrebuilds, -⟩ :=
    hs.wrapItems hspans (Nat.zero_le _) (by simpa using (hs.index_lt hcn).1) merge
  rw [root_tree] at hrun
  refine ⟨s₁, made, f₁, hrun, ?_, hrebuilds.alters.size_le, hrebuilds.alters.label_eq, ?_, ?_, ?_⟩
  · have hbelow : s₀.below (h.done ++ [c]) = s₀.below h.done ++ (s₀.tree c).nodes := by
      simp [below]
    rw [hbelow]
    refine (h'.alters.trans hrebuilds.alters).mono (fun m hm _ => by simpa using hm) fun m hm _ => ?_
    rw [nodes_eq_cons]
    rw [List.mem_append, List.mem_cons] at *
    tauto
  · simpa [hrebuilds.root_eq, Function.comp_def] using hrebuilds.children_owner hs hp hts
  · exact fun w hw => hrebuilds.children_front hs hp hts hw
  · refine hrebuilds.alters.position_eq hs (Nat.zero_le _) (hs.index_lt hcn).1 ?_ fun q hq => ?_
    · have hnodup := hspans.nodup
      rw [nodes_eq_cons, List.nodup_cons, root_tree] at hnodup
      exact hnodup.1
    · rw [Forest.parent_unique (f.parent_eq_some_iff.mp hq) hcn]
      exact hspans.parent_notMem (by rwa [root_tree])

/-! One turn, by what becomes of the child. -/

section Turn

variable (hs₀ : s₀.Realizes 0 f₀) (h' : Standing merge s₀ f₀ n h f front (c :: rest))
  (hd : Descended s₀ f₀ n c h f front rest s₁ f₁)

include h'

theorem next_eq : h.store.link .next c = rest.head? :=
  (h'.alters.realizes.siblings_eq h'.children_eq).2

theorem done_concat : f₀.children n = (h.done ++ [c]) ++ rest := by
  simp [h'.children_start]

include hs₀ hd

theorem kind_eq : s₁.kind c = s₀.kind c ∧ s₁.kind n = s₀.kind n := by
  have hlt := h'.index_lt hs₀ (List.mem_cons_self ..)
  exact ⟨hd.alters.kind_eq hlt.1, hd.alters.kind_eq hlt.2⟩

/-- What is no item stays and closes the list that was open. -/
theorem keep (hother : s₁.kind c ≠ .item ∨ s₁.kind n = .list) :
    Standing merge s₀ f₀ n (h.following merge n c s₁) f₁ (front ++ [c]) rest := by
  have hsettle : s₁.settle merge n c h.joinable = ⟨s₁, none, 0⟩ := if_pos hother
  obtain ⟨hkind, howner⟩ := h'.kind_eq hs₀ hd
  refine ⟨h'.done_concat, ?_, h'.next_eq, ?_, ?_, fun _ _ hn => ?_⟩
  · simp [hd.children_eq]
  · simpa only [Head.following, hsettle] using hd.alters
  · simp [Head.following, hsettle]
  · rw [hkind, howner] at hother
    exact itemRun_concat_of_ne (hother.resolve_right hn)

/-- An item joins the list that is open. -/
theorem join {list : NodeId} (hitem : ¬ (s₁.kind c ≠ .item ∨ s₁.kind n = .list))
    (hlist : h.joinable = some list) :
    ∃ f₂, Standing merge s₀ f₀ n (h.following merge n c s₁) f₂ front rest := by
  obtain ⟨hmerge, howner, hnew, hlt, hlabel, hlast, hchildren⟩ := h'.opened list hlist
  have hfront : list ∈ front := List.mem_of_getLast? hlast
  have hsettle : s₁.settle merge n c h.joinable =
      ⟨(s₁.remove c).append list c, some list, 0⟩ := by
    rw [hlist]
    exact if_neg hitem
  have hkind : s₀.kind c = .item := by
    rw [(h'.kind_eq hs₀ hd).1] at hitem
    tauto
  obtain ⟨f₂, hstep, hadds, hn₂, hlist₂⟩ := hd.alters.realizes.join hd.children_eq hfront
  refine ⟨f₂, h'.done_concat, hn₂, h'.next_eq, ?_, ?_, ?_⟩
  · simp only [Head.following, hsettle]
    exact hd.alters_step hstep (by simpa using Or.inr hnew)
  · intro w hw
    simp only [Head.following, hsettle, Option.mem_def, Option.some.injEq] at hw ⊢
    subst hw
    have hlt₁ := hlt.trans_le hd.size_le
    refine ⟨hmerge, howner, hnew, ?_, ?_, hlast, ?_⟩
    · rw [hadds.size_eq]
      omega
    · rw [hadds.label_eq list hlt₁, hd.label_eq list hlt, hlabel]
    · rw [hlist₂, hd.children_front list hfront, hchildren, itemRun_concat_item hkind]
  · simp [Head.following, hsettle]

/-- An item gets a new list, which is open afterwards if runs are merged. -/
theorem wrap (hitem : ¬ (s₁.kind c ≠ .item ∨ s₁.kind n = .list)) (hnone : h.joinable = none) :
    ∃ f₂, Standing merge s₀ f₀ n (h.following merge n c s₁) f₂ (front ++ [s₁.fresh]) rest := by
  have hsettle : s₁.settle merge n c h.joinable =
      ⟨s₁.wrap c, if merge then some s₁.fresh else none, 1⟩ := by
    rw [hnone]
    exact if_neg hitem
  obtain ⟨hkind, howner⟩ := h'.kind_eq hs₀ hd
  rw [hkind, howner, not_or, not_not] at hitem
  obtain ⟨f₂, hstep, hadds, hn₂, hfresh₂⟩ := hd.alters.realizes.wrap hd.children_eq
  refine ⟨f₂, h'.done_concat, by simpa using hn₂, h'.next_eq, ?_, ?_, ?_⟩
  · simp only [Head.following, hsettle]
    exact hd.alters_step hstep (by simp)
  · intro w hw
    simp only [Head.following, hsettle, Option.mem_def, Option.ite_none_right_eq_some,
      Option.some.injEq] at hw ⊢
    obtain ⟨hmerge, rfl⟩ := hw
    have hsize := hd.alters.size_le
    have hlt : s₁.fresh.index < (s₁.wrap c).size := by
      rw [hadds.size_eq]
      exact Nat.lt_succ_self _
    refine ⟨hmerge, hitem.2, hsize, hlt, hadds.label_new _ (Nat.le_refl _) hlt, by simp, ?_⟩
    -- no list was open, so that the run begins with this item
    rw [hfresh₂, itemRun_concat_item hitem.1, h'.closed hnone hmerge hitem.2, List.nil_append]
  · intro hclosed hmerge
    simp only [Head.following, hsettle] at hclosed
    simp [hmerge] at hclosed

theorem turn : ∃ f₂ front₂, Standing merge s₀ f₀ n (h.following merge n c s₁) f₂ front₂ rest := by
  by_cases hitem : s₁.kind c ≠ .item ∨ s₁.kind n = .list
  · exact ⟨f₁, _, h'.keep hs₀ hd hitem⟩
  · cases hj : h.joinable with
    | none =>
      obtain ⟨f₂, h₂⟩ := h'.wrap hs₀ hd hitem hj
      exact ⟨f₂, _, h₂⟩
    | some list =>
      obtain ⟨f₂, h₂⟩ := h'.join hs₀ hd hitem hj
      exact ⟨f₂, _, h₂⟩

end Turn

section InOrder

variable (hs₀ : s₀.Realizes 0 f₀) (h' : Standing merge s₀ f₀ n h f front rest)

include hs₀ h'

theorem rest_eq : h.rest s₀ n = rest := by
  rw [Head.rest, hs₀.children_eq (Nat.zero_le _), h'.children_start, List.drop_left]

/-- Strictly below a child to come no link is written. -/
theorem link_eq {m : NodeId} (hc : c ∈ rest) (hm : m ∈ (s₀.tree c).nodes) (hne : m ≠ c) (l : Link) :
    h.store.link l m = s₀.link l m := by
  have hlt := h'.lt_of_mem_tree hs₀ hc hm
  obtain ⟨hn, hout⟩ := h'.notMem_below hs₀ hc hm
  refine h'.alters.link_eq hs₀ (Nat.zero_le _) hlt hout (fun p hp => ?_) (by simp [hn, hout]) l
  have hcm := f₀.parent_eq_some_iff.mp hp
  have hp' := (hs₀.eq_or_parent_mem_tree (Nat.zero_le _) (h'.index_lt hs₀ hc).1 hcm hm).resolve_left hne
  obtain ⟨hpn, hpout⟩ := h'.notMem_below hs₀ hc hp'
  simp [hpn, hpout]

omit hs₀ in
theorem opened_list {list : NodeId} (hlist : h.joinable = some list) :
    Head.Opened merge s₀ n h list := by
  obtain ⟨hmerge, howner, hnew, -, hlabel, hlast, hchildren⟩ := h'.opened list hlist
  have hs := h'.alters.realizes
  obtain ⟨left, hleft⟩ := List.getLast?_eq_some_iff.mp hlast
  have hp : f.children n = left ++ list :: rest := by
    rw [h'.children_eq, hleft, List.append_assoc]
    rfl
  refine ⟨hmerge, howner, hnew, hlabel, ?_, ?_, ?_, ?_⟩
  · rw [hs.parent_eq (Nat.zero_le _)]
    exact f.parent_eq_some_iff.mpr (by simp [hp])
  · rw [(hs.siblings_eq hp).2, h'.child_eq]
  · rw [h'.child_eq]
    cases rest with
    | nil => simp [hs.lastChild_eq (Nat.zero_le _), hp]
    | cons c rest => exact (hs.siblings_eq h'.children_eq).1.trans hlast
  · rw [hs.children_eq (Nat.zero_le _), hchildren]

theorem inOrder : h.InOrder merge s₀ n := by
  have hs := h'.alters.realizes
  have hrest := h'.rest_eq hs₀
  have hmem : ∀ c ∈ rest, c ∈ f.children n := fun c hc => h'.children_eq ▸ List.mem_append_right _ hc
  exact {
    wellFormed := hs.wellFormed
    done_rest := by rw [hrest, hs₀.children_eq (Nat.zero_le _), h'.children_start]
    nodup := by
      rw [hs₀.children_eq (Nat.zero_le _)]
      exact f₀.nodup_children n
    child_eq := by rw [hrest, h'.child_eq]
    parent_eq := by
      intro c hc
      rw [h'.child_eq] at hc
      rw [hs.parent_eq (Nat.zero_le _)]
      exact f.parent_eq_some_iff.mpr (hmem c (List.mem_of_mem_head? hc))
    path := by
      rw [hrest, h'.child_eq]
      exact hs.path_next h'.children_eq
    last_eq := by
      intro hchild
      rw [hrest, hs.lastChild_eq (Nat.zero_le _), h'.children_eq]
      cases rest with
      | nil => exact absurd h'.child_eq hchild
      | cons c rest => simp [List.getLast?_append, List.getLast?_cons]
    suffix := by
      rw [hrest, hs.children_eq (Nat.zero_le _), h'.children_eq]
      exact List.suffix_append front rest
    tree_eq := by
      intro c hc
      rw [hrest] at hc
      have htree := hs.tree_eq (h'.spans hs₀ hc) (Nat.zero_le _)
      rw [root_tree] at htree
      exact htree (hs.index_lt (hmem c hc)).1
    link_eq := fun c hc m hm hne l => h'.link_eq hs₀ (hrest ▸ hc) hm hne l
    label_eq := h'.alters.label_eq
    opened := fun list hlist => h'.opened_list hlist
    closed := h'.closed }

end InOrder

end Standing

variable {merge : Bool} {n : NodeId} {s s' : Store} {h : Head}

/-- Turn by turn the loop stays in order. -/
theorem Head.Reached.exists_standing (hs : s.WellFormed) (hh : Head.Reached merge s n h) :
    ∃ f front rest, Standing merge s hs.forest n h f front rest := by
  induction hh with
  | refl => exact ⟨_, _, _, .start hs.realizes⟩
  | tail _ hturn ih =>
    obtain ⟨f, front, rest, h'⟩ := ih
    cases hturn with
    | turn hchild hbelow =>
      obtain ⟨rest, rfl⟩ := List.head?_eq_some_iff.mp (h'.child_eq ▸ hchild)
      obtain ⟨s₁, made, f₁, hrun, hd⟩ := h'.exists_descended hs.realizes
      obtain ⟨rfl, -⟩ := Prod.mk.inj (Option.some.inj (hrun.symm.trans hbelow))
      obtain ⟨f₂, front₂, h₂⟩ := h'.turn hs.realizes hd
      exact ⟨f₂, front₂, rest, h₂⟩

/-- The pass from a head on goes by the turns of the loop. -/
theorem Standing.exists_last {f₀ f : Forest} {front rest : List NodeId} {bound made : ℕ}
    (hs : s.Realizes 0 f₀) (h' : Standing merge s f₀ n h f front rest)
    (hrun : wrapFrom merge bound h.store n h.child h.joinable = some (s', made)) :
    ∃ last, Relation.ReflTransGen (Head.Turn merge n) h last ∧ last.child = none ∧
      last.store = s' := by
  induction bound generalizing h f front rest made with
  | zero =>
    cases hchild : h.child with
    | none =>
      rw [hchild, wrapFrom_none] at hrun
      exact ⟨h, .refl, hchild, (Prod.mk.inj (Option.some.inj hrun)).1⟩
    | some c => simp [hchild, wrapFrom] at hrun
  | succ bound ih =>
    cases hchild : h.child with
    | none =>
      rw [hchild, wrapFrom_none] at hrun
      exact ⟨h, .refl, hchild, (Prod.mk.inj (Option.some.inj hrun)).1⟩
    | some c =>
      obtain ⟨rest, rfl⟩ := List.head?_eq_some_iff.mp (h'.child_eq ▸ hchild)
      obtain ⟨s₁, below, f₁, hbelow, hd⟩ := h'.exists_descended hs
      rw [hchild] at hrun
      obtain ⟨s₂, below', after, hbelow', hafter, -⟩ := exists_of_wrapFrom_succ hrun
      -- a turn starts the pass below the child with a bound of its own
      obtain ⟨rfl, -⟩ := wrapFrom_unique hbelow hbelow'
      obtain ⟨f₂, front₂, h₂⟩ := h'.turn hs hd
      obtain ⟨last, hturns, hlast⟩ := ih h₂ hafter
      exact ⟨last, .head (.turn hchild hbelow) hturns, hlast⟩

theorem Head.Turn.unique {a b : Head} (ha : Head.Turn merge n h a) (hb : Head.Turn merge n h b) :
    a = b := by
  cases ha with
  | turn hchild hbelow =>
    cases hb with
    | turn hchild' hbelow' =>
      obtain rfl := Option.some.inj (hchild.symm.trans hchild')
      obtain ⟨rfl, -⟩ := Prod.mk.inj (Option.some.inj (hbelow.symm.trans hbelow'))
      rfl

/-- From every head that the loop comes by it goes on to the end. -/
theorem Head.Reached.exists_last (hs : s.WellFormed) (hn : n.index < s.size)
    (hh : Head.Reached merge s n h) :
    ∃ s' made last, s.wrapItems n merge = some (s', made) ∧
      Relation.ReflTransGen (Head.Turn merge n) h last ∧ last.child = none ∧ last.store = s' := by
  have hspans := hs.realizes.spans_tree (Nat.zero_le _) hn
  obtain ⟨s', made, -, -, hrun, -⟩ :=
    hs.realizes.wrapItems hspans (Nat.zero_le _) (by rwa [root_tree]) merge
  rw [root_tree] at hrun
  obtain ⟨last, hlast, hchild, hstore⟩ := (Standing.start hs.realizes).exists_last hs.realizes hrun
  refine ⟨s', made, last, hrun, ?_, hchild, hstore⟩
  -- there is one way to take the turns, and nothing comes after the last head
  have hunique : Relator.RightUnique (Head.Turn merge n) := fun _ _ _ => Head.Turn.unique
  rcases Relation.ReflTransGen.total_of_right_unique hunique hh hlast with hon | hback
  · exact hon
  · rcases Relation.ReflTransGen.cases_head hback with rfl | ⟨a, hturn, -⟩
    · exact .refl
    · cases hturn with
      | turn hsome _ => exact absurd (hsome.symm.trans hchild) (by simp)

/-- At each head the loop is in order, the pass below the child that is next leaves the place of the
child alone, and the turns lead to what the pass gives. -/
theorem wrapItems_heads (hs : s.WellFormed) (hn : n.index < s.size)
    (hh : Head.Reached merge s n h) :
    h.InOrder merge s n ∧
    (∀ c ∈ h.child, ∃ s₁ made, h.store.wrapItems c merge = some (s₁, made) ∧ s₁.WellFormed ∧
      s₁.position c = h.store.position c) ∧
    ∃ s' made last, s.wrapItems n merge = some (s', made) ∧
      Relation.ReflTransGen (Head.Turn merge n) h last ∧ last.child = none ∧ last.store = s' := by
  obtain ⟨f, front, rest, h'⟩ := hh.exists_standing hs
  refine ⟨h'.inOrder hs.realizes, fun c hc => ?_, hh.exists_last hs hn⟩
  obtain ⟨rest, rfl⟩ := List.head?_eq_some_iff.mp (h'.child_eq ▸ hc)
  obtain ⟨s₁, made, f₁, hrun, hd⟩ := h'.exists_descended hs.realizes
  exact ⟨s₁, made, hrun, hd.alters.realizes.wellFormed, hd.position_eq⟩

/-- The first item has got a list, which is open for the second one. -/
def oneWrapped : Head := (Head.start twoItems ⟨0⟩).following true ⟨0⟩ ⟨1⟩ twoItems

theorem twoItems_heads : twoItems.WellFormed ∧ (⟨0⟩ : NodeId).index < twoItems.size ∧
    Head.Reached true twoItems ⟨0⟩ oneWrapped ∧ oneWrapped.child = some ⟨2⟩ ∧
    oneWrapped.joinable = some ⟨3⟩ ∧ oneWrapped.InOrder true twoItems ⟨0⟩ ∧
    (∀ c ∈ oneWrapped.child, ∃ s₁ made, oneWrapped.store.wrapItems c true = some (s₁, made) ∧
      s₁.WellFormed ∧ s₁.position c = oneWrapped.store.position c) ∧
    ∃ s' made last, twoItems.wrapItems ⟨0⟩ true = some (s', made) ∧
      Relation.ReflTransGen (Head.Turn true ⟨0⟩) oneWrapped last ∧ last.child = none ∧
      last.store = s' := by
  have hreached : Head.Reached true twoItems ⟨0⟩ oneWrapped := .single (.turn rfl rfl)
  exact ⟨twoItems_wellFormed, by decide, hreached, rfl, rfl,
    wrapItems_heads twoItems_wellFormed (by decide) hreached⟩

end DocTree.Store
