import DocTree.Conversion
import DocTree.Proofs.Alteration

/-!
What steps of conversion do to a forest. A step is quiet if it leaves the store alone; it makes a tree if
it gives the root of a new tree that nothing is linked to, all else being left alone; and it appends
trees to a node if that node gets them as further children. A step that fails has appended a part of
the trees, from the front. Each of the three goes with the structure of the steps.
-/
namespace DocTree

/-- A step after another goes on from its result and state, unless that one has failed. -/
theorem Workspace.bind_eq {ε α β : Type} (x : EStateM ε Workspace α)
    (k : α → EStateM ε Workspace β) (w : Workspace) :
    (x >>= k) w = match x w with
      | .ok a w' => k a w'
      | .error e w' => .error e w' := by
  simp only [bind, EStateM.bind]
  cases x w <;> rfl

namespace Conversion

open OrderedTree Store Workspace

/-- From `s` to `s'` the trees `us` of new nodes have become further children of `target`. -/
structure Gains (base : ℕ) (target : NodeId) (us : List (OrderedTree NodeId)) (s : Store)
    (f : Forest) (s' : Store) (f' : Forest) : Prop where
  alters : Alters base [target] [] s f s' f'
  children_eq : f'.children target = f.children target ++ us.map root
  spans : ∀ u ∈ us, f'.Spans u
  isNew : ∀ n ∈ us.flatMap nodes, s.size ≤ n.index ∧ n.index < s'.size

/-- Whatever comes of the step, the store is as before, and a result has the property. -/
def Quiet {α : Type} (x : Conversion α) (P : α → Prop) : Prop :=
  ∀ w, match x w with
    | .ok a w' => w'.store = w.store ∧ P a
    | .error _ w' => w'.store = w.store

def Makes (x : Conversion NodeId) (t : OrderedTree (Label Value)) : Prop :=
  ∀ (w : Workspace) (base : ℕ) (f : Forest), w.store.Realizes base f → base ≤ w.store.size →
    match x w with
    | .ok n w' => ∃ f' u, Alters base [] [] w.store f w'.store f' ∧ f'.Spans u ∧ u.root = n ∧
        f'.parent n = none ∧ (∀ m ∈ u.nodes, w.store.size ≤ m.index ∧ m.index < w'.store.size) ∧
        u.map w'.store.label = t
    | .error _ w' => ∃ f', Alters base [] [] w.store f w'.store f'

def Appends (x : Conversion Unit) (target : NodeId) (ts : List (OrderedTree (Label Value))) : Prop :=
  ∀ (w : Workspace) (base : ℕ) (f : Forest), w.store.Realizes base f → base ≤ target.index →
    target.index < w.store.size →
    match x w with
    | .ok _ w' => ∃ f' us, Gains base target us w.store f w'.store f' ∧
        us.map (OrderedTree.map w'.store.label) = ts
    | .error _ w' => ∃ f' us, Gains base target us w.store f w'.store f' ∧
        us.map (OrderedTree.map w'.store.label) <+: ts

section Gains

variable {base : ℕ} {target : NodeId} {us vs : List (OrderedTree NodeId)} {s s' s'' : Store}
  {f f' f'' : Forest}

theorem Gains.nil (h : s.Realizes base f) : Gains base target [] s f s f where
  alters := (Alters.refl h).mono (by simp) (by simp)
  children_eq := by simp
  spans := by simp
  isNew := by simp

theorem Gains.trans (h : Gains base target us s f s' f') (htarget : target.index < s.size)
    (h' : Gains base target vs s' f' s'' f'') : Gains base target (us ++ vs) s f s'' f'' where
  alters := (h.alters.trans h'.alters).mono (by simp) (by simp)
  children_eq := by simp [h'.children_eq, h.children_eq]
  spans u hu := by
    rcases List.mem_append.mp hu with hu | hu
    · have hnew : ∀ n ∈ u.nodes, s.size ≤ n.index ∧ n.index < s'.size := fun n hn =>
        h.isNew n (List.mem_flatMap.mpr ⟨u, hu, hn⟩)
      refine h'.alters.spans (h.spans u hu) (fun n hn => (hnew n hn).2) fun n hn hmem => ?_
      rw [List.mem_singleton.mp hmem] at hn
      exact absurd htarget (Nat.not_lt_of_le (hnew target hn).1)
    · exact h'.spans u hu
  isNew n hn := by
    have hle := h.alters.size_le
    have hle' := h'.alters.size_le
    rw [List.flatMap_append, List.mem_append] at hn
    rcases hn with hn | hn
    · have := h.isNew n hn
      omega
    · have := h'.isNew n hn
      omega

theorem Gains.of_alters (h : Alters base [] [] s f s' f') (htarget : target.index < s.size) :
    Gains base target [] s f s' f' where
  alters := h.mono (by simp) (by simp)
  children_eq := by simpa using h.children_eq target htarget (by simp)
  spans := by simp
  isNew := by simp

theorem Gains.append {u : OrderedTree NodeId} (h : Alters base [] [] s f s' f') (hu : f'.Spans u)
    (hfree : f'.parent u.root = none) (hnew : ∀ m ∈ u.nodes, s.size ≤ m.index ∧ m.index < s'.size)
    (hbase : base ≤ target.index) (htarget : target.index < s.size) :
    ∃ f'', Gains base target [u] s f (s'.append target u.root) f'' := by
  have hsize := h.size_le
  have hroot := hnew u.root u.root_mem_nodes
  have hout : target ∉ u.nodes := fun hm => absurd htarget (Nat.not_lt_of_le (hnew target hm).1)
  have habove : ¬ f'.Above u.root target := fun ha => hout ((hu.mem_nodes_iff target).mpr ha)
  have happend := h.realizes.append hbase (by omega) hfree habove
  have hsize' := h.realizes.size_append (c := u.root) hbase (by omega) hroot.2
  refine ⟨f'.append target u.root hfree habove,
    ⟨happend, by omega, fun m hm => ?_, fun m hm hm' => ?_, fun m hm _ => ?_⟩, ?_, ?_, ?_⟩
  · rw [label_append]
    exact h.label_eq m hm
  · rw [Forest.children_append, if_neg (by simpa using hm')]
    exact h.children_eq m hm (by simp)
  · have hne : m ≠ u.root := by
      intro he
      rw [he] at hm
      omega
    rw [Forest.parent_append, if_neg hne]
    exact h.parent_eq m hm (by simp)
  · rw [Forest.children_append, if_pos rfl, h.children_eq target htarget (by simp)]
    rfl
  · simp only [List.mem_singleton, forall_eq]
    apply hu.congr
    intro m hm
    have hne : m ≠ target := fun he => hout (he ▸ hm)
    rw [Forest.children_append, if_neg hne]
  · intro m hm
    rw [List.flatMap_singleton] at hm
    rw [hsize']
    exact hnew m hm

theorem Gains.of_push {label : Label Value}
    (h : Gains base s.fresh us (s.push label) f s' f') : Alters base [] [] s f s' f' := by
  have hsize : (s.push label).size = s.size + 1 := s.size_push label
  have hle := h.alters.size_le
  refine ⟨h.alters.realizes, by omega, fun m hm => ?_, fun m hm _ => ?_, fun m hm _ => ?_⟩
  · rw [h.alters.label_eq m (by omega), label_push, if_neg (ne_fresh hm)]
  · exact h.alters.children_eq m (by omega) (by simpa using ne_fresh hm)
  · exact h.alters.parent_eq m (by omega) (by simp)

/-- A new node and what it gains are a new tree that stands free. -/
theorem Gains.spans_fresh {label : Label Value} (hs : s.Realizes base f)
    (h : Gains base s.fresh us (s.push label) f s' f') :
    f'.Spans (.node s.fresh us) ∧ f'.parent s.fresh = none ∧ s'.label s.fresh = label ∧
      ∀ m ∈ (OrderedTree.node s.fresh us).nodes, s.size ≤ m.index ∧ m.index < s'.size := by
  have hsize : (s.push label).size = s.size + 1 := s.size_push label
  have hfresh : s.fresh.index = s.size := rfl
  have hle := h.alters.size_le
  obtain ⟨hfree, hnone⟩ := hs.free_of_size_le (n := s.fresh) (Nat.le_refl _)
  refine ⟨.node ?_ h.spans, ?_, ?_, ?_⟩
  · rw [h.children_eq, hnone, List.nil_append]
  · rw [h.alters.parent_eq _ (by omega) (by simp), hfree]
  · rw [h.alters.label_eq s.fresh (by omega), label_push, if_pos rfl]
  · intro m hm
    rw [nodes_node, List.mem_cons] at hm
    rcases hm with rfl | hm
    · omega
    · have hmem := h.isNew m hm
      omega

theorem Gains.map_label (h : Gains base target us s f s' f') (hle : ∀ n, n.index < s'.size →
    s''.label n = s'.label n) :
    us.map (OrderedTree.map s''.label) = us.map (OrderedTree.map s'.label) :=
  List.map_congr_left fun u hu => map_congr fun n hn =>
    hle n (h.isNew n (List.mem_flatMap.mpr ⟨u, hu, hn⟩)).2

end Gains

theorem Appends.pure {target : NodeId} : Appends (pure ()) target [] := fun _ _ f hs _ _ =>
  ⟨f, [], .nil hs, rfl⟩

section Quiet

variable {α β : Type} {P : α → Prop} {Q : β → Prop} {target : NodeId}
  {t : OrderedTree (Label Value)} {ts us : List (OrderedTree (Label Value))}

theorem Quiet.pure {a : α} (h : P a) : Quiet (pure a) P := fun _ => ⟨rfl, h⟩

theorem Quiet.throw (e : ConversionError) : Quiet (throw e) P := fun _ => rfl

theorem Quiet.bind {x : Conversion α} {k : α → Conversion β} (hx : Quiet x P)
    (hk : ∀ a, P a → Quiet (k a) Q) : Quiet (x >>= k) Q := by
  intro w
  have hxw := hx w
  rw [bind_eq]
  cases h : x w with
  | error e w' =>
    rw [h] at hxw
    exact hxw
  | ok a w' =>
    rw [h] at hxw
    have hkw := hk a hxw.2 w'
    simp only
    cases h' : k a w' with
    | error e w'' =>
      rw [h'] at hkw
      exact hkw.trans hxw.1
    | ok b w'' =>
      rw [h'] at hkw
      exact ⟨hkw.1.trans hxw.1, hkw.2⟩

theorem Quiet.record (event : Event) : Quiet (Workspace.record event) fun _ => True :=
  fun _ => ⟨rfl, trivial⟩

theorem Quiet.onlyIf {x : Conversion Unit} (hx : Quiet x fun _ => True) (condition : Bool) :
    Quiet (Workspace.onlyIf condition x) fun _ => True := by
  cases condition with
  | false => exact .pure trivial
  | true => exact hx

theorem Makes.throw (e : ConversionError) : Makes (throw e) t := fun _ _ f hs _ => ⟨f, .refl hs⟩

theorem Makes.after_quiet {x : Conversion α} {k : α → Conversion NodeId} (hx : Quiet x P)
    (hk : ∀ a, P a → Makes (k a) t) : Makes (x >>= k) t := by
  intro w base f hs hbase
  have hxw := hx w
  rw [bind_eq]
  cases h : x w with
  | error e w' =>
    rw [h] at hxw
    exact ⟨f, by rw [hxw]; exact .refl hs⟩
  | ok a w' =>
    rw [h] at hxw
    have hkw := hk a hxw.2 w' base f (hxw.1 ▸ hs) (hxw.1 ▸ hbase)
    rwa [hxw.1] at hkw

theorem Appends.after_quiet {x : Conversion α} {k : α → Conversion Unit} (hx : Quiet x P)
    (hk : ∀ a, P a → Appends (k a) target ts) : Appends (x >>= k) target ts := by
  intro w base f hs hbase hlt
  have hxw := hx w
  rw [bind_eq]
  cases h : x w with
  | error e w' =>
    rw [h] at hxw
    exact ⟨f, [], by rw [hxw]; exact .nil hs, List.nil_prefix⟩
  | ok a w' =>
    rw [h] at hxw
    have hkw := hk a hxw.2 w' base f (hxw.1 ▸ hs) hbase (hxw.1 ▸ hlt)
    rwa [hxw.1] at hkw

theorem Quiet.appends {x : Conversion Unit} (hx : Quiet x fun _ => True) : Appends x target [] := by
  have hpure : Appends (x >>= fun _ => Pure.pure ()) target [] :=
    Appends.after_quiet hx fun _ _ => Appends.pure
  rwa [bind_pure_unit] at hpure

theorem Makes.then_quiet {x : Conversion NodeId} {k : NodeId → Conversion Unit} (hx : Makes x t)
    (hk : ∀ n, Quiet (k n) fun _ => True) :
    Makes (do let n ← x; k n; return n) t := by
  intro w base f hs hbase
  have hxw := hx w base f hs hbase
  rw [bind_eq]
  cases h : x w with
  | error e w' =>
    rw [h] at hxw
    exact hxw
  | ok n w' =>
    rw [h] at hxw
    have hkw := hk n w'
    simp only
    rw [bind_eq]
    cases h' : k n w' with
    | error e w'' =>
      rw [h'] at hkw
      obtain ⟨f', u, halters, -⟩ := hxw
      exact ⟨f', hkw ▸ halters⟩
    | ok _ w'' =>
      rw [h'] at hkw
      simp only [Pure.pure, EStateM.pure]
      rwa [hkw.1]

end Quiet

section Appends

variable {target : NodeId} {x y : Conversion Unit} {t : OrderedTree (Label Value)}
  {ts us : List (OrderedTree (Label Value))}

theorem Appends.bind (hx : Appends x target ts) (hy : Appends y target us) :
    Appends (do x; y) target (ts ++ us) := by
  intro w base f hs hbase hlt
  have hxw := hx w base f hs hbase hlt
  rw [bind_eq]
  cases h : x w with
  | error e w' =>
    rw [h] at hxw
    obtain ⟨f', vs, hgains, hvs⟩ := hxw
    exact ⟨f', vs, hgains, hvs.trans (List.prefix_append ts us)⟩
  | ok _ w' =>
    rw [h] at hxw
    obtain ⟨f', vs, hgains, hvs⟩ := hxw
    have hyw := hy w' base f' hgains.alters.realizes hbase
      (Nat.lt_of_lt_of_le hlt hgains.alters.size_le)
    simp only
    cases h' : y w' with
    | error e w'' =>
      rw [h'] at hyw
      obtain ⟨f'', vs', hgains', hvs'⟩ := hyw
      refine ⟨f'', vs ++ vs', hgains.trans hlt hgains', ?_⟩
      rw [List.map_append, hgains.map_label hgains'.alters.label_eq, hvs]
      exact (List.prefix_append_right_inj ts).mpr hvs'
    | ok _ w'' =>
      rw [h'] at hyw
      obtain ⟨f'', vs', hgains', hvs'⟩ := hyw
      refine ⟨f'', vs ++ vs', hgains.trans hlt hgains', ?_⟩
      rw [List.map_append, hgains.map_label hgains'.alters.label_eq, hvs, hvs']

theorem Appends.onlyIf (hx : Appends x target ts) (condition : Bool) :
    Appends (onlyIf condition x) target (if condition then ts else []) := by
  cases condition with
  | false => exact Appends.pure
  | true => exact hx

theorem Makes.appendTo {x : Conversion NodeId} (hx : Makes x t) (target : NodeId) :
    Appends (x >>= appendTo target) target [t] := by
  intro w base f hs hbase hlt
  have hxw := hx w base f hs (by omega)
  rw [bind_eq]
  cases h : x w with
  | error e w' =>
    rw [h] at hxw
    obtain ⟨f', halters⟩ := hxw
    exact ⟨f', [], .of_alters halters hlt, List.nil_prefix⟩
  | ok n w' =>
    rw [h] at hxw
    obtain ⟨f', u, halters, hu, rfl, hfree, hnew, hlabel⟩ := hxw
    obtain ⟨f'', hgains⟩ := Gains.append halters hu hfree hnew hbase hlt
    have hrun : Conversion.appendTo target u.root w' =
        .ok () { w' with store := w'.store.append target u.root } := rfl
    simp only [hrun]
    refine ⟨f'', [u], hgains, ?_⟩
    rw [List.map_singleton, ← hlabel]
    exact congrArg (fun v => [v]) (map_congr fun m _ => label_append ..)

/-- A new node with the trees appended to it is a tree. -/
theorem Makes.over {label : Label Value} {x : NodeId → Conversion Unit}
    (hx : ∀ n, Appends (x n) n ts) :
    Makes (do let n ← newNode label; x n; return n) (.node label ts) := by
  intro w base f hs hbase
  have hpush := hs.push label
  have hsize : (w.store.push label).size = w.store.size + 1 := w.store.size_push label
  have hfresh : w.store.fresh.index = w.store.size := rfl
  have hxw := hx w.store.fresh { w with store := w.store.push label } base f hpush (by omega)
    (by simp only; omega)
  rw [bind_eq]
  simp only [newNode]
  rw [bind_eq]
  cases h : x w.store.fresh { w with store := w.store.push label } with
  | error e w' =>
    rw [h] at hxw
    obtain ⟨f', us, hgains, -⟩ := hxw
    exact ⟨f', hgains.of_push⟩
  | ok _ w' =>
    rw [h] at hxw
    obtain ⟨f', us, hgains, hus⟩ := hxw
    obtain ⟨hspans, hfree, hlabel, hnew⟩ := hgains.spans_fresh hs
    refine ⟨f', .node w.store.fresh us, hgains.of_push, hspans, rfl, hfree, hnew, ?_⟩
    rw [map_node, hus, hlabel]

theorem Makes.newNode (label : Label Value) : Makes (Workspace.newNode label) (.leaf label) := by
  have hover : Makes _ (.leaf label) := Makes.over fun _ => Appends.pure
  simpa only [pure_bind, bind_pure] using hover

end Appends

end Conversion

end DocTree
