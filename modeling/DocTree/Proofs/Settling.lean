import DocTree.Proofs.Grouping
import DocTree.Proofs.Wrapping

/-!
Wrapping of items refines the grouping of trees. The pass edits the chain of children it goes along:
what is done stands in front, followed by the children to come, and a list made just before may be open
for the items that follow. What has come of a child is a tree of old nodes and new lists, told apart by
their names.
-/
namespace DocTree.Store

open OrderedTree

/-- An old node is known by its name, a new one is not. -/
def origin (size : ℕ) (n : NodeId) : Option NodeId := if n.index < size then some n else none

/-- Kinds by origin: what is new is a list. -/
def originKind (kind : NodeId → NodeKind) (o : Option NodeId) : NodeKind := o.elim .list kind

def normalized (kind : NodeId → NodeKind) (merge : Bool) (t : OrderedTree NodeId) :
    OrderedTree (Option NodeId) :=
  normalize (originKind kind) none merge (t.map some)

theorem normalized_node (kind : NodeId → NodeKind) (merge : Bool) (n : NodeId)
    (ts : List (OrderedTree NodeId)) :
    normalized kind merge (.node n ts) =
      .node (some n) (regroup (wrappable (originKind kind) (some n)) none merge
        (ts.map (normalized kind merge))) := by
  have hmap : (ts.map (OrderedTree.map some)).map (normalize (originKind kind) none merge) =
      ts.map (normalized kind merge) := by
    rw [List.map_map]
    rfl
  rw [normalized, map_node, normalize_node, hmap]

/-- An old root over what has to come of its children is the tree that has to come of it. -/
theorem map_origin_node {kind : NodeId → NodeKind} {merge : Bool} {size : ℕ}
    {t : OrderedTree NodeId} {us : List (OrderedTree NodeId)} (hroot : t.root.index < size)
    (hus : us.map (OrderedTree.map (origin size)) =
      remaining (wrappable (originKind kind) (some t.root)) none merge false
        (t.children.map (normalized kind merge))) :
    (OrderedTree.node t.root us).map (origin size) = normalized kind merge t := by
  have horigin : origin size t.root = some t.root := if_pos hroot
  rw [map_node, hus, horigin]
  cases t with
  | node n ts => exact (normalized_node kind merge n ts).symm

@[simp] theorem root_normalized (kind : NodeId → NodeKind) (merge : Bool)
    (t : OrderedTree NodeId) : (normalized kind merge t).root = some t.root := by
  rw [normalized, root_normalize, root_map]

/-- From `s` to `s'` the tree `t` has become `t'`, with so many new lists in it. -/
structure Rebuilds (base : ℕ) (t t' : OrderedTree NodeId) (made : ℕ) (s : Store) (f : Forest)
    (s' : Store) (f' : Forest) : Prop where
  alters : Alters base t.nodes (t.children.flatMap nodes) s f s' f'
  adds : AddsLists made s s'
  root_eq : t'.root = t.root
  spans : f'.Spans t'
  covers : ∀ n, s.size ≤ n.index → n.index < s'.size → n ∈ t'.nodes

/-- From `s` to `s'` the children `cs` of `p`, behind those in `done`, have been settled: `js` have
joined the list that was open, and `rs` have come in the place of the others. -/
structure Settles (base : ℕ) (p : NodeId) (done : List NodeId) (cs : List (OrderedTree NodeId))
    (joinable : Option NodeId) (made : ℕ) (s : Store) (f : Forest) (s' : Store) (f' : Forest)
    (js rs : List (OrderedTree NodeId)) : Prop where
  alters : Alters base (p :: (joinable.toList ++ cs.flatMap nodes)) (cs.flatMap nodes) s f s' f'
  adds : AddsLists made s s'
  children_owner : f'.children p = done ++ rs.map root
  children_open : ∀ w, joinable = some w → f'.children w = f.children w ++ js.map root
  closed : joinable = none → js = []
  spans : ∀ t ∈ js ++ rs, f'.Spans t
  covers : ∀ n, s.size ≤ n.index → n.index < s'.size → n ∈ (js ++ rs).flatMap nodes

variable {base made : ℕ} {p : NodeId} {done : List NodeId} {t t' : OrderedTree NodeId}
  {ts js rs : List (OrderedTree NodeId)} {joinable : Option NodeId} {s s₁ s₂ s' : Store}
  {f f₁ f₂ f' : Forest}

/-! Going through the children. -/

theorem Settles.nil (h : s.Realizes base f) (hp : f.children p = done) :
    Settles base p done [] joinable 0 s f s f [] [] where
  alters := (Alters.refl h).mono (by simp) (by simp)
  adds := .refl s
  children_owner := by simpa using hp
  children_open := by simp
  closed _ := rfl
  spans := by simp
  covers n hle hlt := by omega

/-- When all children of a root are settled its tree is rebuilt. -/
theorem Settles.rebuilds (h : Settles base t.root [] t.children none made s f s' f' js rs) :
    Rebuilds base t (.node t.root rs) made s f s' f' where
  alters := by simpa [nodes_eq_cons t] using h.alters
  adds := h.adds
  root_eq := rfl
  spans := .node h.children_owner fun u hu => h.spans u (List.mem_append_right js hu)
  covers n hle hlt := by
    have hn := h.covers n hle hlt
    rw [h.closed rfl, List.nil_append] at hn
    exact nodes_node t.root rs ▸ List.mem_cons_of_mem _ hn

/-- A new node has come with the child, with the step that settles it or with the children after it. -/
theorem Rebuilds.covers_cons {done' : List NodeId} {joinable' : Option NodeId} {after : ℕ}
    (hbelow : Rebuilds base t t' made s f s₁ f₁)
    (hrest : Settles base p done' ts joinable' after s₂ f₂ s' f' js rs) {n : NodeId}
    (hle : s.size ≤ n.index) (hlt : n.index < s'.size) :
    n ∈ t'.nodes ∨ s₁.size ≤ n.index ∧ n.index < s₂.size ∨ n ∈ (js ++ rs).flatMap nodes := by
  by_cases hn : n.index < s₁.size
  · exact Or.inl (hbelow.covers n hle hn)
  by_cases hn₂ : n.index < s₂.size
  · exact Or.inr (Or.inl ⟨Nat.le_of_not_lt hn, hn₂⟩)
  · exact Or.inr (Or.inr (hrest.covers n (Nat.le_of_not_lt hn₂) hlt))

section Child

variable (hs : s.Realizes base f) (hp : f.children p = done ++ (t :: ts).map root)
  (hts : ∀ u ∈ t :: ts, f.Spans u) (hbelow : Rebuilds base t t' made s f s₁ f₁)

include hs hp hts hbelow

theorem Rebuilds.children_owner : f₁.children p = done ++ (t' :: ts).map root := by
  have hmem : t.root ∈ f.children p := by simp [hp]
  have hout := (hts t (List.mem_cons_self ..)).parent_notMem hmem
  rw [hbelow.alters.children_eq p (hs.index_lt hmem).2 hout, hp, List.map_cons, List.map_cons,
    hbelow.root_eq]

theorem Rebuilds.spans_rest {u : OrderedTree NodeId} (hu : u ∈ t' :: ts) : f₁.Spans u := by
  rcases List.mem_cons.mp hu with rfl | hu
  · exact hbelow.spans
  · have hmem : u.root ∈ f.children p := by
      rw [hp]
      exact List.mem_append_right done (List.mem_map_of_mem (List.mem_cons_of_mem t hu))
    have hspans := hts u (List.mem_cons_of_mem t hu)
    exact hbelow.alters.spans hspans (hs.nodes_lt hspans (hs.index_lt hmem).1)
      fun n hn ht => Forest.Spans.disjoint_rest hp hts hu ht hn

/-- No node of the rebuilt tree is the owner, in front of the child or in a tree behind it. -/
theorem Rebuilds.apart {n : NodeId} (hn : n ∈ t'.nodes) :
    n.index < s₁.size ∧ n ≠ p ∧ n ∉ done ∧ n ∉ ts.flatMap nodes := by
  have hp₁ := hbelow.children_owner hs hp hts
  have hmem : t'.root ∈ f₁.children p := by simp [hp₁]
  have hlt := hbelow.alters.realizes.index_lt hmem
  refine ⟨hbelow.alters.realizes.nodes_lt hbelow.spans hlt.1 n hn, ?_, ?_, ?_⟩
  · intro he
    subst he
    exact hbelow.spans.parent_notMem hmem hn
  · intro hdone
    have hnodup := List.nodup_append.mp (hp₁ ▸ f₁.nodup_children p)
    have hne : n ≠ t'.root := hnodup.2.2 n hdone t'.root (by simp)
    exact hbelow.spans.sibling_notMem hmem (hp₁ ▸ List.mem_append_left _ hdone) hne hn
  · intro hrest
    obtain ⟨u, hu, hnu⟩ := List.mem_flatMap.mp hrest
    exact Forest.Spans.disjoint_rest hp₁ (fun v hv => hbelow.spans_rest hs hp hts hv) hu hn hnu

/-! A step puts the child in its place, and then the children after it are settled. -/

section Step

variable {done' : List NodeId} {joinable' : Option NodeId} {lists after : ℕ}
  (hdone : ∀ w, joinable = some w → w ∈ done)
  (hstep : Alters base (p :: joinable.toList) [t.root] s₁ f₁ s₂ f₂)
  (hopen : ∀ w, joinable' = some w → joinable = some w ∨ s₁.size ≤ w.index)
  (hrest : Settles base p done' ts joinable' after s₂ f₂ s' f' js rs)

include hdone hstep hopen hrest

omit hs hp hts hdone in
theorem Rebuilds.alters_cons :
    Alters base (p :: (joinable.toList ++ (t :: ts).flatMap nodes)) ((t :: ts).flatMap nodes)
      s f s' f' := by
  have hsize := hbelow.alters.size_le
  refine ((hbelow.alters.trans hstep).trans hrest.alters).mono (fun n hn hlt => ?_)
    fun n hn _ => ?_
  · simp only [List.mem_append, List.mem_cons, List.flatMap_cons, Option.mem_toList] at hn ⊢
    have hnew : joinable' = some n → joinable = some n := fun h =>
      (hopen n h).resolve_right (by omega)
    tauto
  · simp only [List.mem_append, List.mem_cons, List.flatMap_cons, List.not_mem_nil, or_false,
      nodes_eq_cons t] at hn ⊢
    tauto

theorem Rebuilds.spans_cons : f'.Spans t' := by
  have hapart := fun n hn => hbelow.apart hs hp hts (n := n) hn
  refine (hstep.trans hrest.alters).spans hbelow.spans (fun n hn => (hapart n hn).1) fun n hn => ?_
  obtain ⟨hlt, hnp, hndone, hnts⟩ := hapart n hn
  have hold : joinable ≠ some n := fun h => hndone (hdone n h)
  have hnew : joinable' ≠ some n := fun h => by
    rcases hopen n h with h | hle
    · exact hold h
    · omega
  simp [hnp, hold, hnew, hnts]

end Step

/-- A node in front of the child keeps its children while the tree of the child is rebuilt. -/
theorem Rebuilds.children_front {w : NodeId} (hw : w ∈ done) : f₁.children w = f.children w := by
  have hlt := (hs.index_lt (p := p) (c := w) (by simp [hp, hw])).1
  have hout := (Forest.Spans.notMem_of_mem_front hp hts hw).2
  exact hbelow.alters.children_eq w hlt fun hm => hout (by simp [hm])

/-- What is no item stays in its place, and no list is open behind it. -/
theorem Settles.keep {after : ℕ} (hdone : ∀ w, joinable = some w → w ∈ done)
    (hrest : Settles base p (done ++ [t.root]) ts none after s₁ f₁ s' f' js rs) :
    Settles base p done (t :: ts) joinable (made + 0 + after) s f s' f' [] (t' :: rs) := by
  have hp₁ := hbelow.children_owner hs hp hts
  have hstep : Alters base (p :: joinable.toList) [t.root] s₁ f₁ s₁ f₁ :=
    (Alters.refl hbelow.alters.realizes).mono (by simp) (by simp)
  have hopen : ∀ w, none = some w → joinable = some w ∨ s₁.size ≤ w.index := by simp
  have hspans := hbelow.spans_cons hs hp hts hdone hstep hopen hrest
  obtain rfl := hrest.closed rfl
  exact {
    alters := hbelow.alters_cons hstep hopen hrest
    adds := (hbelow.adds.trans (.refl s₁)).trans hrest.adds
    children_owner := by simp [hrest.children_owner, hbelow.root_eq]
    children_open := by
      intro w hw
      have hwp : w ∈ f₁.children p := by simp [hp₁, hdone w hw]
      have hout := Forest.Spans.notMem_of_mem_front hp₁
        (fun u hu => hbelow.spans_rest hs hp hts hu) (hdone w hw)
      rw [List.flatMap_cons, List.mem_append, not_or] at hout
      have hkept := hrest.alters.children_eq w (hbelow.alters.realizes.index_lt hwp).1
        (by simpa [hout.1] using hout.2.2)
      simpa [hkept] using hbelow.children_front hs hp hts (hdone w hw)
    closed := fun _ => rfl
    spans := by simpa using ⟨hspans, hrest.spans⟩
    covers := by
      intro n hle hlt
      rw [List.nil_append, List.flatMap_cons, List.mem_append]
      rcases hbelow.covers_cons hrest hle hlt with hn | ⟨hn, hn₂⟩ | hn
      · exact Or.inl hn
      · omega
      · exact Or.inr hn }

/-- An item joins the open list. -/
theorem Settles.join {after : ℕ} {w : NodeId} (hw : w ∈ done)
    (hstep : Alters base [p, w] [t.root] s₁ f₁ s₂ f₂) (hadds : AddsLists 0 s₁ s₂)
    (hopened : f₂.children w = f₁.children w ++ [t.root])
    (hrest : Settles base p done ts (some w) after s₂ f₂ s' f' js rs) :
    Settles base p done (t :: ts) (some w) (made + 0 + after) s f s' f' (t' :: js) rs := by
  have hdone : ∀ v, some w = some v → v ∈ done := fun v hv => Option.some.inj hv ▸ hw
  have hopen : ∀ v, some w = some v → some w = some v ∨ s₁.size ≤ v.index := fun v hv => Or.inl hv
  have hspans := hbelow.spans_cons hs hp hts hdone hstep hopen hrest
  have hsize := hadds.size_eq
  exact {
    alters := hbelow.alters_cons hstep hopen hrest
    adds := (hbelow.adds.trans hadds).trans hrest.adds
    children_owner := hrest.children_owner
    children_open := by
      intro v hv
      obtain rfl := Option.some.inj hv
      rw [hrest.children_open w rfl, hopened, hbelow.children_front hs hp hts hw]
      simp [hbelow.root_eq]
    closed := by simp
    spans := by simpa using ⟨hspans, fun u hu => hrest.spans u (List.mem_append.mpr hu)⟩
    covers := by
      intro n hle hlt
      rw [List.cons_append, List.flatMap_cons, List.mem_append]
      rcases hbelow.covers_cons hrest hle hlt with hn | ⟨hn, hn₂⟩ | hn
      · exact Or.inl hn
      · omega
      · exact Or.inr hn }

/-- A new list gets the child and what has joined it. -/
theorem Settles.children_fresh {after : ℕ} {joinable' : Option NodeId}
    (hadds : AddsLists 1 s₁ s₂) (hnew : f₂.children s₁.fresh = [t.root])
    (hfresh : ∀ v, joinable' = some v → v = s₁.fresh)
    (hrest : Settles base p (done ++ [s₁.fresh]) ts joinable' after s₂ f₂ s' f' js rs) :
    f'.children s₁.fresh = (t' :: js).map root := by
  have hsize := hadds.size_eq
  cases hj : joinable' with
  | some v =>
    obtain rfl := hfresh v hj
    simp [hrest.children_open s₁.fresh hj, hnew, hbelow.root_eq]
  | none =>
    have hs₁ := hbelow.alters.realizes
    have hp₁ : f₁.children p = (done ++ [t'.root]) ++ ts.map root := by
      simpa using hbelow.children_owner hs hp hts
    have hmem : t'.root ∈ f₁.children p := by simp [hp₁]
    have hne : s₁.fresh ≠ p := Ne.symm (ne_fresh (hs₁.index_lt hmem).2)
    have hout : s₁.fresh ∉ ts.flatMap nodes := by
      intro hm
      have hlt := hs₁.nodes_lt_of_children hp₁
        (fun u hu => hbelow.spans_rest hs hp hts (List.mem_cons_of_mem _ hu)) _ hm
      exact ne_fresh hlt rfl
    have hkept := hrest.alters.children_eq s₁.fresh (by simp only [fresh]; omega)
      (by simpa [hj, hne] using hout)
    simp [hkept, hnew, hrest.closed hj, hbelow.root_eq]

/-- An item gets a new list, which may be open for the items behind it. -/
theorem Settles.wrap {after : ℕ} {joinable' : Option NodeId}
    (hstep : Alters base [p] [t.root] s₁ f₁ s₂ f₂) (hadds : AddsLists 1 s₁ s₂)
    (hnew : f₂.children s₁.fresh = [t.root]) (hfresh : ∀ v, joinable' = some v → v = s₁.fresh)
    (hrest : Settles base p (done ++ [s₁.fresh]) ts joinable' after s₂ f₂ s' f' js rs) :
    Settles base p done (t :: ts) none (made + 1 + after) s f s' f' []
      (.node s₁.fresh (t' :: js) :: rs) := by
  have hopen : ∀ v, joinable' = some v → none = some v ∨ s₁.size ≤ v.index := by
    intro v hv
    rw [hfresh v hv]
    exact Or.inr (Nat.le_refl _)
  have hdone : ∀ w, none = some w → w ∈ done := by simp
  have hspans := hbelow.spans_cons hs hp hts hdone hstep hopen hrest
  have hchildren := Settles.children_fresh hs hp hts hbelow hadds hnew hfresh hrest
  have hlist : f'.Spans (.node s₁.fresh (t' :: js)) := by
    refine .node hchildren fun u hu => ?_
    rcases List.mem_cons.mp hu with rfl | hu
    · exact hspans
    · exact hrest.spans u (List.mem_append_left rs hu)
  have hsize := hadds.size_eq
  exact {
    alters := hbelow.alters_cons hstep hopen hrest
    adds := (hbelow.adds.trans hadds).trans hrest.adds
    children_owner := by simp [hrest.children_owner]
    children_open := by simp
    closed := fun _ => rfl
    spans := by simpa using ⟨hlist, fun u hu => hrest.spans u (List.mem_append_right js hu)⟩
    covers := by
      intro n hle hlt
      simp only [List.nil_append, List.flatMap_cons, nodes_node, List.mem_append, List.mem_cons]
      rcases hbelow.covers_cons hrest hle hlt with hn | ⟨hn, hn₂⟩ | hn
      · exact Or.inl (Or.inr (Or.inl hn))
      · exact Or.inl (Or.inl (NodeId.ext (by simp only [fresh]; omega)))
      · rw [List.flatMap_append, List.mem_append] at hn
        tauto }

end Child

/-! The pass as it runs. -/

/-- The pass over the children `cs` of `p` comes to its end and has put the items into lists as the
grouping of trees says. -/
def Groups (merge : Bool) (kind : NodeId → NodeKind) (size bound base : ℕ) (s : Store) (f : Forest)
    (p : NodeId) (done : List NodeId) (cs : List (OrderedTree NodeId)) (joinable : Option NodeId) :
    Prop :=
  ∃ s' made f' js rs,
    wrapFrom merge bound s p (cs.map root).head? joinable = some (s', made) ∧
    Settles base p done cs joinable made s f s' f' js rs ∧
    js.map (OrderedTree.map (origin size)) =
      joined (wrappable (originKind kind) (some p)) joinable.isSome
        (cs.map (normalized kind merge)) ∧
    rs.map (OrderedTree.map (origin size)) =
      remaining (wrappable (originKind kind) (some p)) none merge joinable.isSome
        (cs.map (normalized kind merge))

variable {merge : Bool} {kind : NodeId → NodeKind} {size bound : ℕ}

theorem wrapFrom_succ {c : NodeId} {following joinable' : Option NodeId}
    {below lists after : ℕ} (hnext : s.link .next c = following)
    (hbelow : wrapFrom merge bound s c (s.link .firstChild c) none = some (s₁, below))
    (hsettle : s₁.settle merge p c joinable = ⟨s₂, joinable', lists⟩)
    (hafter : wrapFrom merge bound s₂ p following joinable' = some (s', after)) :
    wrapFrom merge (bound + 1) s p (some c) joinable = some (s', below + lists + after) := by
  simp [wrapFrom, hnext, hbelow, hsettle, hafter]

/-- A pass that comes to its end has settled the child and then the siblings after it. -/
theorem exists_of_wrapFrom_succ {c : NodeId}
    (hrun : wrapFrom merge (bound + 1) s p (some c) joinable = some (s', made)) :
    ∃ s₁ below after, wrapFrom merge bound s c (s.link .firstChild c) none = some (s₁, below) ∧
      wrapFrom merge bound (s₁.settle merge p c joinable).store p (s.link .next c)
        (s₁.settle merge p c joinable).joinable = some (s', after) ∧
      made = below + (s₁.settle merge p c joinable).made + after := by
  simp only [wrapFrom, Option.bind_eq_bind, Option.bind_eq_some_iff, Option.pure_def,
    Option.some.injEq, Prod.mk.injEq] at hrun
  obtain ⟨⟨s₁, below⟩, hbelow, ⟨s₂, after⟩, hafter, rfl, rfl⟩ := hrun
  exact ⟨s₁, below, after, hbelow, hafter, rfl⟩

theorem wrappable_normalized (kind : NodeId → NodeKind) (merge : Bool) (p : NodeId)
    (t : OrderedTree NodeId) :
    wrappable (originKind kind) (some p) (normalized kind merge t) = true ↔
      ¬ (kind t.root ≠ .item ∨ kind p = .list) := by
  simp only [wrappable, root_normalized, originKind, Option.elim_some, decide_eq_true_eq]
  tauto

section Child

variable (hs : s.Realizes base f) (hp : f.children p = done ++ (t :: ts).map root)
  (hts : ∀ u ∈ t :: ts, f.Spans u) (hbelow : Rebuilds base t t' made s f s₁ f₁)
  (hrun : wrapFrom merge bound s t.root (s.link .firstChild t.root) none = some (s₁, made))
  (hshape : t'.map (origin size) = normalized kind merge t)

include hs hp hts hbelow hrun hshape

theorem Groups.keep (hother : s₁.kind t.root ≠ .item ∨ s₁.kind p = .list)
    (hnot : wrappable (originKind kind) (some p) (normalized kind merge t) = false)
    (hdone : ∀ w, joinable = some w → w ∈ done)
    (hrest : Groups merge kind size bound base s₁ f₁ p (done ++ [t.root]) ts none) :
    Groups merge kind size (bound + 1) base s f p done (t :: ts) joinable := by
  obtain ⟨s', after, f', js, rs, hafter, hsettles, hjs, hrs⟩ := hrest
  have hsettle : s₁.settle merge p t.root joinable = ⟨s₁, none, 0⟩ := if_pos hother
  refine ⟨s', _, f', [], _, wrapFrom_succ (hs.siblings_eq hp).2 hrun hsettle hafter,
    hsettles.keep hs hp hts hbelow hdone, ?_, ?_⟩
  · rw [List.map_cons, joined_cons_of_not hnot, List.map_nil]
  · rw [List.map_cons, hshape, hrs, List.map_cons, remaining_cons_of_not hnot, Option.isSome_none]

theorem Groups.join {w : NodeId} (hw : w ∈ done)
    (hitem : ¬ (s₁.kind t.root ≠ .item ∨ s₁.kind p = .list))
    (hyes : wrappable (originKind kind) (some p) (normalized kind merge t) = true)
    (hrest : ∀ s₂ f₂, Alters base [p, w] [t.root] s₁ f₁ s₂ f₂ →
      f₂.children p = done ++ ts.map root →
      Groups merge kind size bound base s₂ f₂ p done ts (some w)) :
    Groups merge kind size (bound + 1) base s f p done (t :: ts) (some w) := by
  have hp₁ := hbelow.children_owner hs hp hts
  obtain ⟨f₂, hstep, hadds, hchildren, hopened⟩ := hbelow.alters.realizes.join
    (by simpa [hbelow.root_eq] using hp₁) hw
  have hsettle : s₁.settle merge p t.root (some w) =
      ⟨(s₁.remove t.root).append w t.root, some w, 0⟩ := if_neg hitem
  obtain ⟨s', after, f', js, rs, hafter, hsettles, hjs, hrs⟩ := hrest _ f₂ hstep hchildren
  refine ⟨s', _, f', _, rs, wrapFrom_succ (hs.siblings_eq hp).2 hrun hsettle hafter,
    hsettles.join hs hp hts hbelow hw hstep hadds hopened, ?_, ?_⟩
  · rw [List.map_cons, hshape, hjs, List.map_cons]
    exact (joined_cons hyes _).symm
  · rw [hrs, List.map_cons]
    exact (remaining_cons_of_opened hyes merge _).symm

theorem Groups.wrap (hsize : size ≤ s.size)
    (hitem : ¬ (s₁.kind t.root ≠ .item ∨ s₁.kind p = .list))
    (hyes : wrappable (originKind kind) (some p) (normalized kind merge t) = true)
    (hrest : ∀ s₂ f₂, Alters base [p] [t.root] s₁ f₁ s₂ f₂ →
      f₂.children p = done ++ s₁.fresh :: ts.map root →
      Groups merge kind size bound base s₂ f₂ p (done ++ [s₁.fresh]) ts
        (if merge then some s₁.fresh else none)) :
    Groups merge kind size (bound + 1) base s f p done (t :: ts) none := by
  have hp₁ := hbelow.children_owner hs hp hts
  obtain ⟨f₂, hstep, hadds, hchildren, hnew⟩ := hbelow.alters.realizes.wrap
    (by simpa [hbelow.root_eq] using hp₁)
  have hsettle : s₁.settle merge p t.root none =
      ⟨s₁.wrap t.root, if merge then some s₁.fresh else none, 1⟩ := if_neg hitem
  have hisSome : (if merge then some s₁.fresh else none).isSome = merge := by
    cases merge <;> rfl
  have hsize₁ := hbelow.alters.size_le
  have horigin : origin size s₁.fresh = none := if_neg (by simp only [fresh]; omega)
  obtain ⟨s', after, f', js, rs, hafter, hsettles, hjs, hrs⟩ := hrest _ f₂ hstep hchildren
  rw [hisSome] at hjs hrs
  refine ⟨s', _, f', [], _, wrapFrom_succ (hs.siblings_eq hp).2 hrun hsettle hafter,
    hsettles.wrap hs hp hts hbelow hstep hadds hnew (by cases merge <;> simp), rfl, ?_⟩
  rw [List.map_cons, map_node, List.map_cons, hshape, hjs, hrs, List.map_cons, horigin]
  exact (remaining_cons hyes merge _).symm

end Child

/-- Going through the children groups them. Beneath each child the same is done before. -/
theorem wrapFrom_groups {cs : List (OrderedTree NodeId)} (hs : s.Realizes base f)
    (hp : f.children p = done ++ cs.map root) (hcs : ∀ t ∈ cs, f.Spans t) (hsize : size ≤ s.size)
    (hpsize : p.index < size) (hold : ∀ n ∈ cs.flatMap nodes, n.index < size)
    (hkind : ∀ n, n.index < size → s.kind n = kind n)
    (hbound : (cs.flatMap nodes).length ≤ bound) (hdone : ∀ w, joinable = some w → w ∈ done) :
    Groups merge kind size bound base s f p done cs joinable := by
  induction bound generalizing s f p done cs joinable with
  | zero =>
    cases cs with
    | nil => exact ⟨s, 0, f, [], [], rfl, .nil hs (by simpa using hp), by cases joinable <;> rfl,
        (remaining_nil ..).symm⟩
    | cons t ts =>
      have hpos := t.length_nodes_pos
      simp only [List.flatMap_cons, List.length_append] at hbound
      omega
  | succ bound ih =>
    cases cs with
    | nil => exact ⟨s, 0, f, [], [], rfl, .nil hs (by simpa using hp), by cases joinable <;> rfl,
        (remaining_nil ..).symm⟩
    | cons t ts =>
      have hmem : t.root ∈ f.children p := by simp [hp]
      have ht := hcs t (List.mem_cons_self ..)
      have htold : ∀ n ∈ t.nodes, n.index < size := fun n hn => hold n (by simp [hn])
      have hrestold : ∀ n ∈ ts.flatMap nodes, n.index < size := fun n hn =>
        hold n (by rw [List.flatMap_cons]; exact List.mem_append_right _ hn)
      rw [List.flatMap_cons, List.length_append, nodes_eq_cons t, List.length_cons] at hbound
      have hfirst : s.link .firstChild t.root = (t.children.map root).head? := by
        rw [hs.firstChild_eq (hs.base_le hmem).1, ht.children_root]
      -- everything below the child
      have hchildren : f.children t.root = [] ++ t.children.map root := ht.children_root
      have hnone : ∀ w : NodeId, none = some w → w ∈ [] := by simp
      obtain ⟨s₁, below, f₁, js₁, us, hrun, hsettles, -, hus⟩ := ih hs hchildren
        (fun u hu => ht.child hu) hsize (htold _ t.root_mem_nodes)
        (fun n hn => htold n (by rw [nodes_eq_cons]; exact List.mem_cons_of_mem _ hn)) hkind
        (by omega) hnone
      rw [← hfirst] at hrun
      have hbelow := hsettles.rebuilds
      have hshape := map_origin_node (htold _ t.root_mem_nodes) hus
      have hsize₁ := hbelow.alters.size_le
      have hkind₁ : ∀ n, n.index < size → s₁.kind n = kind n := fun n hn =>
        (hbelow.alters.kind_eq (by omega)).trans (hkind n hn)
      -- the child itself, and then its siblings
      have hs₁ := hbelow.alters.realizes
      have hp₁ : f₁.children p = (done ++ [t.root]) ++ ts.map root := by
        simpa [hbelow.root_eq] using hbelow.children_owner hs hp hcs
      have hspans₁ : ∀ u ∈ ts, f₁.Spans u := fun u hu =>
        hbelow.spans_rest hs hp hcs (List.mem_cons_of_mem _ hu)
      have hwrappable := wrappable_normalized kind merge p t
      rw [← hkind₁ _ (htold _ t.root_mem_nodes), ← hkind₁ _ hpsize] at hwrappable
      by_cases hitem : s₁.kind t.root ≠ .item ∨ s₁.kind p = .list
      · refine Groups.keep hs hp hcs hbelow hrun hshape hitem
          (Bool.eq_false_iff.mpr fun h => hwrappable.mp h hitem) hdone ?_
        exact ih hs₁ hp₁ hspans₁ (by omega) hpsize hrestold hkind₁ (by omega) (by simp)
      · have hyes := hwrappable.mpr hitem
        cases joinable with
        | some w =>
          have hw := hdone w rfl
          refine Groups.join hs hp hcs hbelow hrun hshape hw hitem hyes fun s₂ f₂ hstep hp₂ => ?_
          have hsize₂ := hstep.size_le
          have hspans₂ : ∀ u ∈ ts, f₂.Spans u := fun u hu =>
            hstep.spans_back hs₁ hp₁ hspans₁ (by simp [hw]) hu
          exact ih hstep.realizes hp₂ hspans₂ (by omega) hpsize hrestold
            (fun n hn => (hstep.kind_eq (by omega)).trans (hkind₁ n hn)) (by omega) hdone
        | none =>
          refine Groups.wrap hs hp hcs hbelow hrun hshape hsize hitem hyes
            fun s₂ f₂ hstep hp₂ => ?_
          have hsize₂ := hstep.size_le
          have hspans₂ : ∀ u ∈ ts, f₂.Spans u := fun u hu =>
            hstep.spans_back hs₁ hp₁ hspans₁ (by simp) hu
          exact ih hstep.realizes (by simpa using hp₂) hspans₂ (by omega) hpsize hrestold
            (fun n hn => (hstep.kind_eq (by omega)).trans (hkind₁ n hn)) (by omega)
            (by cases merge <;> simp)

/-- Wrapping the items below a node ends and makes the normalized tree. -/
theorem Realizes.wrapItems (hs : s.Realizes base f) (ht : f.Spans t) (hbase : base ≤ t.root.index)
    (hlt : t.root.index < s.size) (merge : Bool) :
    ∃ s' made f' t', s.wrapItems t.root merge = some (s', made) ∧
      Rebuilds base t t' made s f s' f' ∧
      t'.map (origin s.size) = normalized s.kind merge t := by
  have hold := hs.nodes_lt ht hlt
  have hlength := hs.length_nodes_le ht hlt
  rw [nodes_eq_cons t, List.length_cons] at hlength
  rw [nodes_eq_cons t] at hold
  have hgroups : Groups merge s.kind s.size (4 * (s.size + 1)) base s f t.root [] t.children none :=
    wrapFrom_groups hs ht.children_root (fun u hu => ht.child hu) (Nat.le_refl _) hlt
      (fun n hn => hold n (List.mem_cons_of_mem _ hn)) (fun _ _ => rfl) (by omega) (by simp)
  obtain ⟨s', made, f', js, us, hrun, hsettles, -, hus⟩ := hgroups
  refine ⟨s', made, f', _, ?_, hsettles.rebuilds, map_origin_node hlt hus⟩
  unfold Store.wrapItems
  rw [hs.firstChild_eq hbase, ht.children_root]
  exact hrun

/-- The labels of a rebuilt tree are those of the normalized tree of labels. -/
theorem Rebuilds.map_label {merge : Bool} (h : Rebuilds base t t' made s f s' f')
    (hlt : ∀ n ∈ t'.nodes, n.index < s'.size)
    (hshape : t'.map (origin s.size) = normalized s.kind merge t) :
    t'.map s'.label = normalize Label.kind .list merge (t.map s.label) := by
  have hkind : ∀ o : Option NodeId, (o.elim .list s.label).kind = originKind s.kind o := by
    intro o
    cases o <;> rfl
  have horigin : t'.map s'.label =
      (t'.map (origin s.size)).map fun o => o.elim .list s.label := by
    rw [OrderedTree.map_map]
    apply OrderedTree.map_congr
    intro n hn
    by_cases hold : n.index < s.size
    · simp [origin, hold, h.alters.label_eq n hold]
    · simp [origin, hold, h.adds.label_new n (Nat.le_of_not_lt hold) (hlt n hn)]
  rw [horigin, hshape, normalized, map_normalize (originKind s.kind) none hkind,
    OrderedTree.map_map]
  rfl

end DocTree.Store
