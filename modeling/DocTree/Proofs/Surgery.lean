import DocTree.ListWrapping
import DocTree.Proofs.Forest.Links
import DocTree.Proofs.Realization

/-!
Surgery on stores refines surgery on forests. When a store realizes a forest, then after a node was
appended, removed, replaced or wrapped it realizes the forest that results. Wrapping goes through a
state in which the old neighbours of the wrapped node still name it; the table of links that comes out
at the end is that of the wrapped forest all the same.
-/
namespace DocTree.Store.Realizes

variable {s : Store} {base : ℕ} {f : Forest}

/-- A store realizes a forest as soon as its links are those of another table that agrees. -/
theorem of_link {s' : Store} {f' : Forest} {g : Links} (hs : s'.link = g)
    (hg : ∀ n, base ≤ n.index → ∀ l, g l n = f'.link l n)
    (hin : ∀ c p, f'.parent c = some p → base ≤ c.index ∧ base ≤ p.index) :
    s'.Realizes base f' :=
  ⟨fun n hn l => by rw [hs, hg n hn l], hin⟩

/-- A store realizes the forest without edges beyond its last cell, whatever its links are. -/
theorem empty (s : Store) : s.Realizes s.size .empty where
  link_eq n hn l := by
    rw [link_eq_none_of_size_le s l hn]
    cases l <;> simp [Forest.link, Forest.empty]
  inside c p h := absurd h (by simp [Forest.empty])

variable (h : s.Realizes base f)

include h

/-- A new node stands alone. -/
theorem push (label : Label Value) : (s.push label).Realizes base f where
  link_eq n hn l := by rw [link_push, h.link_eq n hn l]
  inside := h.inside

/-- What is not below the last cell has neither parent nor children. -/
theorem free_of_size_le {n : NodeId} (hn : s.size ≤ n.index) :
    f.parent n = none ∧ f.children n = [] := by
  constructor
  · cases hp : f.parent n with
    | none => rfl
    | some p =>
      have hlt := (h.index_lt (f.parent_eq_some_iff.mp hp)).1
      omega
  · by_contra hne
    obtain ⟨c, hc⟩ := List.exists_mem_of_ne_nil _ hne
    have hlt := (h.index_lt hc).2
    omega

theorem append {p c : NodeId} (hp : base ≤ p.index) (hc : base ≤ c.index)
    (hfree : f.parent c = none) (habove : ¬ f.Above c p) :
    (s.append p c).Realizes base (f.append p c hfree habove) := by
  refine of_link (link_append s p c) (fun n hn l => ?_) (fun x q hx => ?_)
  · rw [Forest.link_append]
    cases l <;> simp only [Links.append, h.link_eq n hn, h.link_eq p hp]
  · rw [Forest.parent_append] at hx
    by_cases hxc : x = c
    · rw [if_pos hxc, Option.some.injEq] at hx
      exact ⟨hxc ▸ hc, hx ▸ hp⟩
    · rw [if_neg hxc] at hx
      exact h.inside x q hx

theorem remove {v : NodeId} (hv : base ≤ v.index) : (s.remove v).Realizes base (f.cut v) := by
  by_cases hp : f.parent v = none
  · have hstore : s.remove v = s := by simp [Store.remove, position, h.parent_eq hv, hp]
    have hforest : f.cut v = f := Forest.ext_children fun n =>
      List.erase_of_not_mem (Forest.not_mem_children_of_free hp n)
    rw [hstore, hforest]
    exact h
  · have hlink : s.link .parent v ≠ none := by rwa [h.parent_eq hv]
    refine of_link (link_remove s hlink) (fun n hn l => ?_) (fun x q hx => ?_)
    · rw [Forest.link_cut f hp]
      cases l <;> simp only [Links.remove, h.link_eq n hn, h.link_eq v hv]
    · rw [Forest.parent_cut] at hx
      split at hx
      · exact absurd hx (by simp)
      · exact h.inside x q hx

/-- A node is refused as a replacement just when it stands above the node to be replaced. -/
theorem mem_ancestors_iff_above {old new : NodeId} (hold : base ≤ old.index) (hne : old ≠ new) :
    new ∈ s.ancestors old ↔ f.Above new old := by
  rw [h.mem_ancestors hold, Forest.above_iff (a := new) (n := old)]
  simp [Ne.symm hne]

theorem replace {old new : NodeId} (hold : base ≤ old.index) (hnew : base ≤ new.index)
    (hfree : f.parent new = none) (habove : ¬ f.Above new old) :
    ∃ s', s.replace old new = .ok s' ∧
      s'.Realizes base (f.substitute old new hfree habove) := by
  have hne : old ≠ new := fun he => habove (he ▸ Forest.above_refl old)
  obtain ⟨s', hs', hlink⟩ :=
    link_replace s hne (by rwa [h.mem_ancestors_iff_above hold hne])
  refine ⟨s', hs', of_link hlink (fun n hn l => ?_) (fun x q hx => ?_)⟩
  · rw [Forest.link_substitute]
    cases l <;> simp only [Links.replace, Links.detach, Links.replaceAt, h.link_eq n hn,
      h.link_eq old hold]
  · rw [Forest.parent_substitute] at hx
    by_cases hxo : x = old
    · simp [hxo] at hx
    by_cases hxn : x = new
    · rw [if_neg hxo, if_pos hxn] at hx
      exact ⟨hxn ▸ hnew, (h.inside old q hx).2⟩
    · rw [if_neg hxo, if_neg hxn] at hx
      exact h.inside x q hx

/-- The wrapper may have children of its own. -/
theorem append_replaceAt {v w : NodeId} (hv : base ≤ v.index) (hw : base ≤ w.index)
    (hfree : f.parent w = none) (habove : ¬ f.Above w v) :
    ((s.append w v).replaceAt (s.position v) w).Realizes base (f.wrap v w hfree habove) := by
  refine of_link (link_replaceAt _ _ _) (fun n hn l => ?_) (fun x q hx => ?_)
  · rw [Forest.link_wrap, link_append]
    cases l <;> simp only [Links.replaceAt, Links.append, position, h.link_eq n hn, h.link_eq w hw,
      h.link_eq v hv]
  · rw [Forest.wrap, Forest.parent_append, Forest.parent_substitute] at hx
    by_cases hxv : x = v
    · rw [if_pos hxv, Option.some.injEq] at hx
      exact ⟨hxv ▸ hv, hx ▸ hw⟩
    by_cases hxw : x = w
    · rw [if_neg hxv, if_neg hxv, if_pos hxw] at hx
      exact ⟨hxw ▸ hw, (h.inside v q hx).2⟩
    · rw [if_neg hxv, if_neg hxv, if_neg hxw] at hx
      exact h.inside x q hx

/-! No operation on nodes that exist adds cells. -/

theorem link_lt {n m : NodeId} (hn : base ≤ n.index) {l : Link} (hm : s.link l n = some m) :
    m.index < s.size := by
  rw [h.link_eq n hn] at hm
  cases l with
  | parent => exact (h.index_lt (f.parent_eq_some_iff.mp hm)).2
  | firstChild => exact (h.index_lt (List.mem_of_mem_head? hm)).1
  | lastChild => exact (h.index_lt (List.mem_of_getLast? hm)).1
  | previous =>
    obtain ⟨p, -, hp⟩ := Option.bind_eq_some_iff.mp hm
    have hafter := (Siblings.before?_eq_some_iff_after? (f.nodup_children p)).mp hp
    exact (h.index_lt (f.parent_eq_some_iff.mp (Forest.exists_parent_of_after? hafter).1)).1
  | next =>
    obtain ⟨p, -, hp⟩ := Option.bind_eq_some_iff.mp hm
    exact (h.index_lt (f.parent_eq_some_iff.mp (Forest.exists_parent_of_after? hp).2)).1

theorem size_append {p c : NodeId} (hp : base ≤ p.index) (hps : p.index < s.size)
    (hcs : c.index < s.size) : (s.append p c).size = s.size := by
  have hlast := fun m => h.link_lt hp (l := .lastChild) (m := m)
  simp only [Store.append, link_setLink, reduceCtorEq, false_and, if_false]
  cases hl : s.link .lastChild p with
  | none =>
    simp only [size_setLink]
    omega
  | some tail =>
    have htail := hlast tail hl
    simp only [size_setLink]
    omega

theorem size_linkForward {n : NodeId} (hn : base ≤ n.index) {s' : Store} (hs' : s'.size = s.size)
    (target : Option NodeId) : (s'.linkForward (s.position n) target).size = s'.size := by
  have hprevious := fun m => h.link_lt hn (l := .previous) (m := m)
  have hparent := fun m => h.link_lt hn (l := .parent) (m := m)
  simp only [Store.linkForward, position]
  cases hl : s.link .previous n with
  | some left =>
    have hleft := hprevious left hl
    simp only [size_setLink]
    omega
  | none =>
    cases hp : s.link .parent n with
    | some p =>
      have hlt := hparent p hp
      simp only [size_setLink]
      omega
    | none => rfl

theorem size_linkBackward {n : NodeId} (hn : base ≤ n.index) {s' : Store} (hs' : s'.size = s.size)
    (target : Option NodeId) : (s'.linkBackward (s.position n) target).size = s'.size := by
  have hnext := fun m => h.link_lt hn (l := .next) (m := m)
  have hparent := fun m => h.link_lt hn (l := .parent) (m := m)
  simp only [Store.linkBackward, position]
  cases hl : s.link .next n with
  | some right =>
    have hright := hnext right hl
    simp only [size_setLink]
    omega
  | none =>
    cases hp : s.link .parent n with
    | some p =>
      have hlt := hparent p hp
      simp only [size_setLink]
      omega
    | none => rfl

theorem size_remove {v : NodeId} (hv : base ≤ v.index) (hvs : v.index < s.size) :
    (s.remove v).size = s.size := by
  have hforward := h.size_linkForward hv rfl (s.position v).next
  have hbackward := h.size_linkBackward hv hforward (s.position v).previous
  simp only [Store.remove]
  split
  · rfl
  · simp only [detach, setPosition, size_setLink]
    omega

theorem size_replaceAt {n new : NodeId} (hn : base ≤ n.index) (hnew : new.index < s.size)
    {s' : Store} (hs' : s'.size = s.size) : (s'.replaceAt (s.position n) new).size = s.size := by
  have hset : (s'.setPosition new (s.position n)).size = s.size := by
    simp only [setPosition, size_setLink]
    omega
  have hforward := h.size_linkForward hn hset (some new)
  have hbackward := h.size_linkBackward hn (hforward.trans hset) (some new)
  unfold replaceAt
  rw [hbackward, hforward, hset]

theorem size_replace {old new : NodeId} (hold : base ≤ old.index) (holds : old.index < s.size)
    (hnews : new.index < s.size) {s' : Store} (hs' : s.replace old new = .ok s') :
    s'.size = s.size := by
  have hsplice := h.size_replaceAt (s := s) hold hnews rfl
  unfold Store.replace at hs'
  split at hs'
  · exact congrArg Store.size (Except.ok.inj hs').symm
  split at hs'
  · exact absurd hs' (by simp)
  rw [← Except.ok.inj hs']
  split
  · simp only [detach, setPosition, size_setLink]
    omega
  · exact hsplice

end DocTree.Store.Realizes
