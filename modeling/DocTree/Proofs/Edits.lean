import DocTree.Request
import DocTree.Proofs.Build
import DocTree.Proofs.Normalization

/-!
Edits one after the other. A client makes nodes, appends, replaces, removes, wraps and converts, in any
order, and goes on after a request that has failed. Nodes have to exist, a node that is moved has to be
free, and it must not hold the place it is moved to. In every state that comes about in this way the
store is in order and passes its checks, and each edit acts on the lists of children as it should.
-/
namespace DocTree

open OrderedTree Workspace

/-- The nodes with these labels, numbered in order and without links. -/
def Store.ofLabels (labels : List (Label Value)) : Store := labels.foldl Store.push .empty

inductive Edit where
  | create (label : Label Value)
  | append (parent : NodeId) (child : Option NodeId)
  | replace (old new : NodeId)
  | remove (n : NodeId)
  | wrapRoot (root : NodeId)
  | wrapItems (n : NodeId) (merge : Bool)
  | convertChildren (digits : Option ℕ) (levels : ℕ) (n : NodeId) (source : Value)

namespace Edit

def request : Edit → Request Unit
  | create label => do let _ ← newNode label
  | append parent child => Request.append (some parent) child
  | replace old new => Request.replace (some old) (some new)
  | remove n => Request.remove (some n)
  | wrapRoot root => do let _ ← Request.wrapRoot (some root)
  | wrapItems n merge => do let _ ← Request.wrapItems (some n) merge
  | convertChildren digits levels n source => do
    let _ ← Request.convertChildren digits levels (some n) source

/-- The state after a request, whether it has failed or not. -/
def after (e : Edit) (w : Workspace) : Workspace :=
  match e.request w with
  | .ok _ w' => w'
  | .error _ w' => w'

/-- The edits that make sense: nodes exist, and a node that is moved is free. An appended tree does not
hold its new parent; a replacement may hold what it replaces. -/
def Allowed (s : Store) : Edit → Prop
  | create _ => True
  | append parent none => parent.index < s.size
  | append parent (some child) => parent.index < s.size ∧ child.index < s.size ∧
      s.link .parent child = none ∧ parent ∉ (s.tree child).nodes
  | replace old new => old.index < s.size ∧ new.index < s.size ∧ s.link .parent new = none
  | remove n => n.index < s.size
  | wrapRoot root => root.index < s.size ∧ s.link .parent root = none
  | wrapItems n _ => n.index < s.size
  | convertChildren _ _ n _ => n.index < s.size

def Effect (w : Workspace) : Edit → Prop
  | create label => ∃ w', (create label).request w = .ok () w' ∧
      w'.store.size = w.store.size + 1 ∧ w'.store.label w.store.fresh = label ∧
      (∀ l, w'.store.link l w.store.fresh = none) ∧
      ∀ n, w'.store.children n = w.store.children n
  | append parent none => (append parent none).request w = .ok () w
  | append parent (some child) => ∃ w', (append parent (some child)).request w = .ok () w' ∧
      ∀ n, w'.store.children n =
        if n = parent then w.store.children parent ++ [child] else w.store.children n
  | replace old new =>
    if old = new then (replace old new).request w = .ok () w
    else if old ∈ (w.store.tree new).nodes then
      (replace old new).request w = .error (.ownAncestor ⟨old, new⟩) w
    else ∃ w', (replace old new).request w = .ok () w' ∧
      ∀ n, w'.store.children n = (w.store.children n).map (Forest.exchange old new)
  | remove v => ∃ w', (remove v).request w = .ok () w' ∧
      ∀ n, w'.store.children n = (w.store.children n).erase v
  | wrapRoot root => ∃ w', (wrapRoot root).request w = .ok () w' ∧
      if w.store.kind root = .item then
        w'.store.label w.store.fresh = .list ∧
        ∀ n, w'.store.children n = if n = w.store.fresh then [root] else w.store.children n
      else w'.store = w.store
  | wrapItems n merge => ∃ w' made, (wrapItems n merge).request w = .ok () w' ∧
      w.store.Normalizes merge n made w'.store
  | convertChildren digits levels target source => ∃ ns : List NodeId,
      let s' := ((convertChildren digits levels target source).after w).store
      (∀ n, n.index < w.store.size →
        s'.children n = w.store.children n ++ if n = target then ns else []) ∧
      (∀ n ∈ ns.flatMap fun n => (s'.tree n).nodes, w.store.size ≤ n.index) ∧
      match (convertChildren digits levels target source).request w with
      | .ok _ _ => ns.map (fun n => (s'.tree n).map s'.label) = source.heldContents.branches
      | .error e _ => (∃ c, e = .build (.conversion c)) ∧
          ns.map (fun n => (s'.tree n).map s'.label) <+: source.heldContents.branches

inductive Reachable : Workspace → Prop
  | start (labels : List (Label Value)) : Reachable ⟨.ofLabels labels, #[]⟩
  | step {w : Workspace} {e : Edit} (h : Reachable w) (hallowed : e.Allowed w.store) :
      Reachable (e.after w)

end Edit

/-- A store in order, with every tree in it passing its check. -/
structure Store.Sound (s : Store) : Prop where
  wellFormed : s.WellFormed
  check_eq_ok : ∀ r, s.link .parent r = none → s.check r = .ok ()

namespace Store

variable {s : Store} {f : Forest}

variable (h : s.Realizes 0 f)

include h

theorem Realizes.children_eq_zero (n : NodeId) : s.children n = f.children n :=
  h.children_eq (Nat.zero_le _)

theorem Realizes.sound : s.Sound where
  wellFormed := h.wellFormed
  check_eq_ok r hr := by
    rw [h.parent_eq (Nat.zero_le _)] at hr
    obtain ⟨t, ht, hspans⟩ := f.exists_spans r
    subst ht
    exact (h.isTree hspans (Nat.zero_le _) hr).check_eq_ok

end Store

theorem Store.realizes_ofLabels (labels : List (Label Value)) :
    (Store.ofLabels labels).Realizes 0 .empty := by
  have hfold : ∀ s : Store, s.Realizes 0 .empty → (labels.foldl Store.push s).Realizes 0 .empty := by
    induction labels with
    | nil => exact fun _ hs => hs
    | cons label labels ih => exact fun s hs => ih (s.push label) (hs.push label)
  exact hfold .empty (.empty _)

namespace Request

theorem ofBuilding_apply {α : Type} (b : Building α) (w : Workspace) :
    ofBuilding b w = match b w with
      | .ok a w' => .ok a w'
      | .error e w' => .error (.build e) w' := by
  unfold ofBuilding EStateM.adaptExcept
  cases b w <;> rfl

theorem replace_apply {old new : NodeId} (hne : old ≠ new) (w : Workspace) :
    Request.replace (some old) (some new) w = match w.store.replace old new with
      | .ok s => .ok () { w with store := s }
      | .error e => .error (.ownAncestor e) w := by
  have hsome : some old ≠ some new := fun he => hne (Option.some.inj he)
  have hget : (get : Request Workspace) w = .ok w w := rfl
  unfold Request.replace
  rw [if_neg hsome]
  simp only [given, pure_bind]
  rw [bind_eq, hget]
  cases hreplace : w.store.replace old new <;> simp only [hreplace] <;> rfl

theorem convertChildren_apply (digits : Option ℕ) (levels : ℕ) (target : NodeId) (source : Value)
    (w : Workspace) :
    Request.convertChildren digits levels (some target) source w =
      match DocTree.convertChildren digits levels target source w with
      | .ok _ w' => .ok (some target) w'
      | .error e w' => .error (.build (.conversion e)) w' := by
  unfold Request.convertChildren
  simp only
  rw [bind_eq, ofBuilding_apply, Building.ofConversion_apply]
  cases DocTree.convertChildren digits levels target source w <;> rfl

end Request

namespace Edit

/-- An edit keeps a forest in the store and what was there, and has its effect. -/
structure Refines (w : Workspace) (e : Edit) : Prop where
  realizes : ∃ f, (e.after w).store.Realizes 0 f
  size_le : w.store.size ≤ (e.after w).store.size
  label_eq : ∀ n, n.index < w.store.size → (e.after w).store.label n = w.store.label n
  effect : e.Effect w

section Refines

variable {w : Workspace} {e : Edit} {s' : Store} {trace : Array Event} {f : Forest}
  (hf : s'.Realizes 0 f) (hsize : w.store.size ≤ s'.size)
  (hlabel : ∀ n, n.index < w.store.size → s'.label n = w.store.label n) (heffect : e.Effect w)

include hf hsize hlabel heffect

theorem Refines.of_ok (hrun : e.request w = .ok () ⟨s', trace⟩) : e.Refines w := by
  have hafter : e.after w = ⟨s', trace⟩ := by
    unfold after
    rw [hrun]
  exact ⟨⟨f, by rw [hafter]; exact hf⟩, by rw [hafter]; exact hsize, by rw [hafter]; exact hlabel,
    heffect⟩

theorem Refines.of_error {error : RequestError} (hrun : e.request w = .error error ⟨s', trace⟩) :
    e.Refines w := by
  have hafter : e.after w = ⟨s', trace⟩ := by
    unfold after
    rw [hrun]
  exact ⟨⟨f, by rw [hafter]; exact hf⟩, by rw [hafter]; exact hsize, by rw [hafter]; exact hlabel,
    heffect⟩

end Refines

section Steps

variable {w : Workspace} {f : Forest} (hs : w.store.Realizes 0 f)

include hs

theorem refines_create (label : Label Value) : (create label).Refines w := by
  have hrun : (create label).request w = .ok () { w with store := w.store.push label } := rfl
  have hsize := w.store.size_push label
  have hpush := hs.push label
  refine .of_ok hpush (by simp) (fun n hn => ?_)
    ⟨_, hrun, hsize, by simp, fun l => ?_, fun n => ?_⟩ hrun
  · simp [Store.ne_fresh hn]
  · rw [Store.link_push]
    exact Store.link_eq_none_of_size_le w.store l (Nat.le_refl _)
  · rw [hpush.children_eq_zero, hs.children_eq_zero]

theorem refines_append {parent : NodeId} {child : Option NodeId}
    (h : (append parent child).Allowed w.store) : (append parent child).Refines w := by
  cases child with
  | none =>
    have hrun : (append parent none).request w = .ok () w := rfl
    exact .of_ok hs (Nat.le_refl _) (fun _ _ => rfl) hrun hrun
  | some child =>
    obtain ⟨hparent, hchild, hfree, hout⟩ := h
    rw [hs.parent_eq (Nat.zero_le _)] at hfree
    rw [hs.mem_nodes_tree (Nat.zero_le _) hchild] at hout
    have happend := hs.append (Nat.zero_le _) (Nat.zero_le _) hfree hout
    have hsize := hs.size_append (Nat.zero_le _) hparent hchild
    have hrun : (append parent (some child)).request w =
        .ok () { w with store := w.store.append parent child } := rfl
    refine .of_ok happend hsize.symm.le (fun n _ => Store.label_append ..)
      ⟨_, hrun, fun n => ?_⟩ hrun
    rw [happend.children_eq_zero, hs.children_eq_zero, hs.children_eq_zero]
    exact Forest.children_append f parent child hfree hout n

theorem refines_replace {old new : NodeId} (h : (replace old new).Allowed w.store) :
    (replace old new).Refines w := by
  obtain ⟨hold, hnew, hfree⟩ := h
  rw [hs.parent_eq (Nat.zero_le _)] at hfree
  by_cases hne : old = new
  · subst hne
    have hrun : (replace old old).request w = .ok () w := by
      unfold request
      simp only [Request.replace, if_true]
      rfl
    refine .of_ok hs (Nat.le_refl _) (fun _ _ => rfl) ?_ hrun
    rw [Effect, if_pos rfl]
    exact hrun
  · have happly := Request.replace_apply hne w
    have hmem := hs.mem_nodes_tree (m := old) (Nat.zero_le _) hnew
    by_cases habove : f.Above new old
    · have hrefused : w.store.replace old new = .error ⟨old, new⟩ := by
        unfold Store.replace
        rw [if_neg hne, if_pos ((hs.mem_ancestors_iff_above (Nat.zero_le _) hne).mpr habove)]
      rw [hrefused] at happly
      have hrun : (replace old new).request w = .error (.ownAncestor ⟨old, new⟩) w := happly
      refine .of_error hs (Nat.le_refl _) (fun _ _ => rfl) ?_ hrun
      rw [Effect, if_neg hne, if_pos (hmem.mpr habove)]
      exact hrun
    · obtain ⟨s', hs', hrealizes⟩ := hs.replace (Nat.zero_le _) (Nat.zero_le _) hfree habove
      have hsize := hs.size_replace (Nat.zero_le _) hold hnew hs'
      have hlabel := Store.label_replace hs'
      rw [hs'] at happly
      have hrun : (replace old new).request w = .ok () { w with store := s' } := happly
      refine .of_ok hrealizes hsize.symm.le (fun n _ => hlabel n) ?_ hrun
      rw [Effect, if_neg hne, if_neg fun hm => habove (hmem.mp hm)]
      refine ⟨_, hrun, fun n => ?_⟩
      rw [hrealizes.children_eq_zero, hs.children_eq_zero]
      exact Forest.children_substitute f old new hfree habove n

theorem refines_remove {v : NodeId} (h : (remove v).Allowed w.store) : (remove v).Refines w := by
  have hrun : (remove v).request w = .ok () { w with store := w.store.remove v } := rfl
  have hremove := hs.remove (v := v) (Nat.zero_le _)
  have hsize := hs.size_remove (Nat.zero_le _) h
  refine .of_ok hremove hsize.symm.le (fun n _ => Store.label_remove ..)
    ⟨_, hrun, fun n => ?_⟩ hrun
  rw [hremove.children_eq_zero, hs.children_eq_zero]
  exact Forest.children_cut v n

theorem refines_wrapRoot {root : NodeId} (h : (wrapRoot root).Allowed w.store) :
    (wrapRoot root).Refines w := by
  obtain ⟨hlt, hfree⟩ := h
  rw [hs.parent_eq (Nat.zero_le _)] at hfree
  obtain ⟨trace, hroot⟩ := Building.wrapRoot_apply root w
  have hrun : (wrapRoot root).request w = .ok () ⟨(w.store.wrapRoot root).1, trace⟩ := by
    rw [request, Request.wrapRoot, map_eq_pure_bind, bind_assoc, bind_eq,
      Request.ofBuilding_apply, hroot]
    rfl
  by_cases hitem : w.store.kind root = .item
  · obtain ⟨habove, happend, hsize, -, hnone⟩ := hs.push_append (Nat.zero_le _) hlt hfree .list
    have hwrapped : (w.store.wrapRoot root).1 = (w.store.push .list).append w.store.fresh root := by
      unfold Store.wrapRoot
      rw [if_pos hitem]
    rw [hwrapped] at hrun
    refine .of_ok happend (by omega) (fun n hn => ?_) ⟨_, hrun, ?_⟩ hrun
    · simp [Store.ne_fresh hn]
    · rw [if_pos hitem]
      refine ⟨by simp, fun n => ?_⟩
      rw [happend.children_eq_zero, hs.children_eq_zero, Forest.children_append, hnone]
      rfl
  · have hkept : (w.store.wrapRoot root).1 = w.store := by
      unfold Store.wrapRoot
      rw [if_neg hitem]
    rw [hkept] at hrun
    refine .of_ok hs (Nat.le_refl _) (fun _ _ => rfl) ⟨_, hrun, ?_⟩ hrun
    rw [if_neg hitem]

theorem refines_wrapItems {n : NodeId} {merge : Bool} (h : (wrapItems n merge).Allowed w.store) :
    (wrapItems n merge).Refines w := by
  obtain ⟨s', made, hitems, hnormalizes⟩ := hs.normalizes h merge
  have hrun : (wrapItems n merge).request w = .ok () ⟨s', w.trace⟩ := by
    rw [request, bind_eq]
    simp only [Request.wrapItems, Request.given, pure_bind]
    rw [Request.ofBuilding_apply, Building.wrapItems_apply hitems]
    rfl
  have hsize := hnormalizes.size_eq
  exact .of_ok hnormalizes.wellFormed.realizes (by omega) hnormalizes.label_eq
    ⟨_, made, hrun, hnormalizes⟩ hrun

/-- What appending trees does to the lists of children and to the trees below. -/
theorem lists_of_gains {target : NodeId} {us : List (OrderedTree NodeId)} {s' : Store} {f' : Forest}
    (h : Conversion.Gains 0 target us w.store f s' f') :
    (∀ n, n.index < w.store.size →
      s'.children n = w.store.children n ++ if n = target then us.map root else []) ∧
    (∀ n ∈ (us.map root).flatMap fun n => (s'.tree n).nodes,
      w.store.size ≤ n.index ∧ n.index < s'.size) ∧
    (us.map root).map (fun n => (s'.tree n).map s'.label) =
      us.map (OrderedTree.map s'.label) := by
  have htree : ∀ u ∈ us, s'.tree u.root = u := by
    intro u hu
    have hroot := h.isNew u.root (List.mem_flatMap.mpr ⟨u, hu, u.root_mem_nodes⟩)
    exact h.alters.realizes.tree_eq (h.spans u hu) (Nat.zero_le _) hroot.2
  refine ⟨fun n hn => ?_, fun n hn => ?_, ?_⟩
  · rw [h.alters.realizes.children_eq_zero, hs.children_eq_zero]
    by_cases hne : n = target
    · rw [if_pos hne, hne, h.children_eq]
    · rw [if_neg hne, List.append_nil, h.alters.children_eq n hn (by simpa using hne)]
  · rw [List.flatMap_map] at hn
    obtain ⟨u, hu, hnu⟩ := List.mem_flatMap.mp hn
    rw [htree u hu] at hnu
    exact h.isNew n (List.mem_flatMap.mpr ⟨u, hu, hnu⟩)
  · rw [List.map_map]
    apply List.map_congr_left
    intro u hu
    rw [Function.comp_apply, htree u hu]

theorem refines_convertChildren {digits : Option ℕ} {levels : ℕ} {target : NodeId} {source : Value}
    (h : (convertChildren digits levels target source).Allowed w.store) :
    (convertChildren digits levels target source).Refines w := by
  have happends :=
    Conversion.appends_convertChildren digits levels target source w 0 f hs (Nat.zero_le _) h
  have hrun := Request.convertChildren_apply digits levels target source w
  cases hconvert : DocTree.convertChildren digits levels target source w with
  | ok a w' =>
    have happly : (convertChildren digits levels target source).request w = .ok () w' := by
      rw [request, bind_eq, hrun, hconvert]
      rfl
    rw [hconvert] at happends
    obtain ⟨f', us, hgains, hlabels⟩ := happends
    obtain ⟨hchildren, hnew, htrees⟩ := lists_of_gains hs hgains
    have hafter : (convertChildren digits levels target source).after w = w' := by rw [after, happly]
    refine .of_ok hgains.alters.realizes hgains.alters.size_le hgains.alters.label_eq
      ⟨us.map root, ?_⟩ happly
    rw [hafter, happly]
    exact ⟨hchildren, fun n hn => (hnew n hn).1, htrees.trans hlabels⟩
  | error e w' =>
    have happly : (convertChildren digits levels target source).request w =
        .error (.build (.conversion e)) w' := by
      rw [request, bind_eq, hrun, hconvert]
    rw [hconvert] at happends
    obtain ⟨f', us, hgains, hlabels⟩ := happends
    obtain ⟨hchildren, hnew, htrees⟩ := lists_of_gains hs hgains
    have hafter : (convertChildren digits levels target source).after w = w' := by rw [after, happly]
    refine .of_error hgains.alters.realizes hgains.alters.size_le hgains.alters.label_eq
      ⟨us.map root, ?_⟩ happly
    rw [hafter, happly]
    exact ⟨hchildren, fun n hn => (hnew n hn).1, ⟨e, rfl⟩, htrees.symm ▸ hlabels⟩

theorem refines {e : Edit} (h : e.Allowed w.store) : e.Refines w := by
  cases e with
  | create label => exact refines_create hs label
  | append parent child => exact refines_append hs h
  | replace old new => exact refines_replace hs h
  | remove n => exact refines_remove hs h
  | wrapRoot root => exact refines_wrapRoot hs h
  | wrapItems n merge => exact refines_wrapItems hs h
  | convertChildren digits levels n source => exact refines_convertChildren hs h

end Steps

theorem Reachable.exists_realizes {w : Workspace} (h : Reachable w) :
    ∃ f, w.store.Realizes 0 f := by
  induction h with
  | start labels => exact ⟨_, Store.realizes_ofLabels labels⟩
  | step _ hallowed ih =>
    obtain ⟨f, hs⟩ := ih
    exact (refines hs hallowed).realizes

/-- In every state that edits lead to the store is sound, and each further edit keeps what is there and
has its effect, whether its request fails or not. -/
theorem reachable_refines {w : Workspace} (h : Reachable w) :
    w.store.Sound ∧ ∀ e : Edit, e.Allowed w.store → e.Refines w := by
  obtain ⟨f, hs⟩ := h.exists_realizes
  exact ⟨hs.sound, fun e he => refines hs he⟩

/-- A document to which an item has been appended. -/
def itemAppended : Workspace :=
  (append ⟨0⟩ (some ⟨1⟩)).after ⟨.ofLabels [.document, .item (.int 1)], #[]⟩

theorem reachable_itemAppended : Reachable itemAppended := by
  exact .step (.start _) ⟨by decide, by decide, by decide, by decide⟩

theorem itemAppended_refines : Reachable itemAppended ∧
    itemAppended.store.Sound ∧ ∀ e : Edit, e.Allowed itemAppended.store → e.Refines itemAppended :=
  ⟨reachable_itemAppended, reachable_refines reachable_itemAppended⟩

end Edit

end DocTree
