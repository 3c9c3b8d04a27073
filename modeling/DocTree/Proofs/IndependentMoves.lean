import DocTree.Proofs.Undoing

/-!
Moves that do not get in each other's way. Each move rewrites every list of children in a way that
depends on its own nodes only. Of two moves with different targets, neither of which lies in a tree that
is put somewhere, each leaves what the other moves as it is, and the two ways of rewriting commute. So
the order of the moves does not matter, also where both write the links of one node.
-/
namespace DocTree

namespace Forest

variable {ns : List NodeId}

theorem exchange_comm {old new old' new' : NodeId} (h : old ≠ old') (hnew : new ≠ old')
    (hnew' : new' ≠ old) (c : NodeId) : exchange old new (exchange old' new' c) =
      exchange old' new' (exchange old new c) := by
  by_cases hc : c = old
  · rw [hc, exchange_of_ne h, exchange_old, exchange_of_ne hnew]
  rw [exchange_of_ne hc]
  by_cases hc' : c = old'
  · rw [hc', exchange_old, exchange_of_ne hnew']
  · rw [exchange_of_ne hc', exchange_of_ne hc]

theorem map_exchange_erase {old new v : NodeId} (hold : old ≠ v) (hnew : new ≠ v) :
    (ns.erase v).map (exchange old new) = (ns.map (exchange old new)).erase v := by
  induction ns with
  | nil => rfl
  | cons c cs ih =>
    by_cases hc : c = v
    · rw [hc, List.map_cons, exchange_of_ne hold.symm, List.erase_cons_head,
        List.erase_cons_head]
    · have hkeep : exchange old new c ≠ v := by
        by_cases hco : c = old
        · rwa [hco, exchange_old]
        · rwa [exchange_of_ne hco]
      rw [List.erase_cons_tail (by simpa using hc), List.map_cons, List.map_cons,
        List.erase_cons_tail (by simpa using hkeep), ih]

end Forest

namespace Move

/-- The node that gets a child, is replaced or is taken out. -/
def target : Move → NodeId
  | append parent _ => parent
  | replace old _ => old
  | remove n => n

def inserted? : Move → Option NodeId
  | append _ child => some child
  | replace _ new => some new
  | remove _ => none

def isAppend : Move → Bool
  | append _ _ => true
  | replace _ _ => false
  | remove _ => false

/-- Two appends have different parents, two other moves different targets. The moves put
different nodes somewhere, and neither target lies in a tree that is put somewhere. -/
structure Independent (s : Store) (x y : Move) : Prop where
  target_ne : x.isAppend = y.isAppend → x.target ≠ y.target
  inserted_ne : ∀ c ∈ x.inserted?, c ∉ y.inserted?
  apart : ∀ c, c ∈ x.inserted? ∨ c ∈ y.inserted? →
    x.target ∉ (s.tree c).nodes ∧ y.target ∉ (s.tree c).nodes

def rewrite (n : NodeId) (ns : List NodeId) : Move → List NodeId
  | append parent child => if n = parent then ns ++ [child] else ns
  | replace old new => ns.map (Forest.exchange old new)
  | remove v => ns.erase v

/-- The node that is put somewhere is free and does not stand above the target. -/
def Fits (f : Forest) (m : Move) : Prop := ∀ c ∈ m.inserted?, f.parent c = none ∧ ¬ f.Above c m.target

/-- A move succeeds, rewrites the lists of children and changes nothing else. -/
structure Rewrites (m : Move) (s s' : Store) (f f' : Forest) : Prop where
  apply_eq : m.apply s = .ok s'
  realizes : s'.Realizes 0 f'
  children_eq : ∀ n, f'.children n = m.rewrite n (f.children n)
  size_eq : s'.size = s.size
  label_eq : ∀ n, s'.label n = s.label n

section Rewrite

variable {x y : Move} {n p q c d old new v : NodeId} {ns : List NodeId}

theorem append_append_comm (h : p ≠ q) : (append p c).rewrite n ((append q d).rewrite n ns) =
    (append q d).rewrite n ((append p c).rewrite n ns) := by
  simp only [rewrite]
  split
  · rename_i hn
    rw [if_neg (hn ▸ h), if_neg (hn ▸ h)]
  · rfl

theorem append_replace_comm (h : c ≠ old) :
    (append p c).rewrite n ((replace old new).rewrite n ns) =
      (replace old new).rewrite n ((append p c).rewrite n ns) := by
  simp only [rewrite]
  split
  · rw [List.map_append, List.map_singleton, Forest.exchange_of_ne h]
  · rfl

theorem append_remove_comm (h : c ≠ v) : (append p c).rewrite n ((remove v).rewrite n ns) =
    (remove v).rewrite n ((append p c).rewrite n ns) := by
  simp only [rewrite]
  split
  · by_cases hv : v ∈ ns
    · rw [List.erase_append_left [c] hv]
    · rw [List.erase_append_right [c] hv, List.erase_of_not_mem hv,
        List.erase_of_not_mem (by simpa using h.symm)]
  · rfl

/-- Moves of which none moves the target of the other rewrite the children in either order. -/
theorem rewrite_comm (hne : x.isAppend = y.isAppend → x.target ≠ y.target)
    (hx : x.target ∉ y.inserted?) (hy : y.target ∉ x.inserted?) :
    x.rewrite n (y.rewrite n ns) = y.rewrite n (x.rewrite n ns) := by
  cases x with
  | append p c =>
    cases y with
    | append q d => exact append_append_comm (hne rfl)
    | replace old new => exact append_replace_comm fun he => hy (congrArg some he)
    | remove v => exact append_remove_comm fun he => hy (congrArg some he)
  | replace old new =>
    have hnew : ∀ {z}, z ∉ (replace old new).inserted? → new ≠ z := fun hz he =>
      hz (congrArg some he)
    cases y with
    | append q d => exact (append_replace_comm fun he => hx (congrArg some he)).symm
    | replace old' new' =>
      simp only [rewrite, List.map_map]
      exact List.map_congr_left fun c _ =>
        Forest.exchange_comm (hne rfl) (hnew hy) (fun he => hx (congrArg some he)) c
    | remove v => exact Forest.map_exchange_erase (hne rfl) (hnew hy)
  | remove v =>
    cases y with
    | append q d => exact (append_remove_comm fun he => hx (congrArg some he)).symm
    | replace old new =>
      exact (Forest.map_exchange_erase (hne rfl).symm fun he => hx (congrArg some he)).symm
    | remove v' => exact List.erase_comm v' v

/-- Where no child is added or moved the children stay. -/
theorem rewrite_eq_self (hn : n ≠ x.target) (hx : x.target ∉ ns) : x.rewrite n ns = ns := by
  cases x with
  | append p c => exact if_neg hn
  | replace old new => exact Forest.map_exchange_of_notMem hx
  | remove v => exact List.erase_of_not_mem hx

theorem mem_or_inserted_of_mem_rewrite {c : NodeId} (hc : c ∈ x.rewrite n ns) :
    c ∈ ns ∨ c ∈ x.inserted? := by
  cases x with
  | append p d =>
    simp only [rewrite] at hc
    split at hc
    · simpa [inserted?, eq_comm] using hc
    · exact .inl hc
  | replace old new =>
    obtain ⟨d, hd, rfl⟩ := List.mem_map.mp hc
    by_cases hdo : d = old
    · exact .inr (by simp [hdo, Forest.exchange_old, inserted?])
    · exact .inl (by rwa [Forest.exchange_of_ne hdo])
  | remove v => exact .inl (List.mem_of_mem_erase hc)

end Rewrite

section Step

variable {s : Store} {f : Forest} {m x y : Move}

theorem exists_rewrites (hs : s.Realizes 0 f) (hfits : m.Fits f) (htarget : m.target.index < s.size)
    (hinserted : ∀ c ∈ m.inserted?, c.index < s.size) : ∃ s' f', m.Rewrites s s' f f' := by
  cases m with
  | append p c =>
    obtain ⟨hfree, habove⟩ := hfits c rfl
    refine ⟨_, _, rfl, hs.append (Nat.zero_le _) (Nat.zero_le _) hfree habove, fun n => ?_,
      hs.size_append (Nat.zero_le _) htarget (hinserted c rfl), Store.label_append s p c⟩
    have hchildren := Forest.children_append f p c hfree habove n
    exact hchildren.trans (ite_congr rfl (fun hn => hn ▸ rfl) fun _ => rfl)
  | replace old new =>
    obtain ⟨hfree, habove⟩ := hfits new rfl
    obtain ⟨s', hs', hrealizes⟩ := hs.replace (Nat.zero_le _) (Nat.zero_le _) hfree habove
    exact ⟨s', _, hs', hrealizes, Forest.children_substitute f old new hfree habove,
      hs.size_replace (Nat.zero_le _) htarget (hinserted new rfl) hs', Store.label_replace hs'⟩
  | remove v =>
    exact ⟨_, _, rfl, hs.remove (Nat.zero_le _), Forest.children_cut v,
      hs.size_remove (Nat.zero_le _) htarget, Store.label_remove s v⟩

/-- A move outside of the trees that another one puts somewhere leaves them free and whole. -/
theorem Fits.of_rewrite {f' : Forest} (hy : y.Fits f) (hx : ∀ d ∈ y.inserted?, ¬ f.Above d x.target)
    (hne : ∀ d ∈ y.inserted?, d ∉ x.inserted?)
    (hf' : ∀ n, f'.children n = x.rewrite n (f.children n)) : y.Fits f' := by
  intro d hd
  obtain ⟨hfree, habove⟩ := hy d hd
  constructor
  · refine Option.eq_none_iff_forall_ne_some.mpr fun p hp => ?_
    rw [f'.parent_eq_some_iff, hf'] at hp
    rcases mem_or_inserted_of_mem_rewrite hp with hmem | hinserted
    · exact Forest.not_mem_children_of_free hfree p hmem
    · exact hne d hd hinserted
  · obtain ⟨t, rfl, ht⟩ := f.exists_spans d
    have hout : x.target ∉ t.nodes := fun hm => hx t.root hd ((ht.mem_nodes_iff _).mp hm)
    have hkept : f'.Spans t := ht.congr fun n hn => by
      have habove_n := (ht.mem_nodes_iff n).mp hn
      refine (hf' n).trans (rewrite_eq_self (fun he => hout (he ▸ hn)) fun hc => ?_)
      exact hx t.root hd (habove_n.trans (Forest.above_of_mem_children hc))
    rwa [← hkept.mem_nodes_iff, ht.mem_nodes_iff]

end Step

variable {s : Store} {m x y : Move}

theorem Allowed.target_lt (h : m.Allowed s) : m.target.index < s.size := by
  cases m with
  | append p c => exact h.1
  | replace old new => exact h.1
  | remove v => exact h

theorem Allowed.of_inserted (h : m.Allowed s) {c : NodeId} (hc : c ∈ m.inserted?) :
    c.index < s.size ∧ s.link .parent c = none := by
  cases m with
  | append p d =>
    obtain rfl := Option.some.inj hc
    exact ⟨h.2.1, h.2.2.1⟩
  | replace old new =>
    obtain rfl := Option.some.inj hc
    exact h.2
  | remove v => simp [inserted?] at hc

theorem Independent.symm (h : Independent s x y) : Independent s y x where
  target_ne he := (h.target_ne he.symm).symm
  inserted_ne c hy hx := h.inserted_ne c hx hy
  apart c hc := (h.apart c hc.symm).symm

/-- One of two independent moves and then the other. -/
theorem exists_apply_apply {f : Forest} (hs : s.Realizes 0 f) (hx : x.Allowed s) (hy : y.Allowed s)
    (hxy : Independent s x y) :
    ∃ t g, (x.apply s >>= fun s' => y.apply s') = .ok t ∧ t.Realizes 0 g ∧ t.size = s.size ∧
      (∀ n, t.label n = s.label n) ∧
      ∀ n, g.children n = y.rewrite n (x.rewrite n (f.children n)) := by
  have habove : ∀ {m : Move} {c n : NodeId}, m.Allowed s → c ∈ m.inserted? →
      n ∉ (s.tree c).nodes → ¬ f.Above c n := fun hm hc hn =>
    mt (hs.mem_nodes_tree (Nat.zero_le _) (hm.of_inserted hc).1).mpr hn
  have hfree : ∀ {m : Move} {c : NodeId}, m.Allowed s → c ∈ m.inserted? → f.parent c = none :=
    fun hm hc => (hs.parent_eq (Nat.zero_le _)).symm.trans (hm.of_inserted hc).2
  have hfitsx : x.Fits f := fun c hc =>
    ⟨hfree hx hc, habove hx hc (hxy.apart c (.inl hc)).1⟩
  have hfitsy : y.Fits f := fun d hd =>
    ⟨hfree hy hd, habove hy hd (hxy.apart d (.inr hd)).2⟩
  obtain ⟨s', f', hfirst⟩ := exists_rewrites hs hfitsx hx.target_lt fun c hc => (hx.of_inserted hc).1
  have hkept : y.Fits f' := hfitsy.of_rewrite
    (fun d hd => habove hy hd (hxy.apart d (.inr hd)).1) hxy.symm.inserted_ne hfirst.children_eq
  obtain ⟨t, g, hsecond⟩ := exists_rewrites hfirst.realizes hkept
    (hfirst.size_eq ▸ hy.target_lt) fun d hd => hfirst.size_eq ▸ (hy.of_inserted hd).1
  refine ⟨t, g, ?_, hsecond.realizes, hsecond.size_eq.trans hfirst.size_eq,
    fun n => (hsecond.label_eq n).trans (hfirst.label_eq n), fun n => ?_⟩
  · rw [hfirst.apply_eq]
    exact hsecond.apply_eq
  · rw [hsecond.children_eq, hfirst.children_eq]

/-- Independent moves both succeed, and in either order they lead to the same store. -/
theorem apply_comm (h : s.WellFormed) (hx : x.Allowed s) (hy : y.Allowed s)
    (hxy : Independent s x y) :
    ∃ t, (x.apply s >>= fun s' => y.apply s') = .ok t ∧
      (y.apply s >>= fun s' => x.apply s') = .ok t := by
  obtain ⟨t, g, ht, hg, hsize, hlabel, hchildren⟩ := exists_apply_apply h.realizes hx hy hxy
  obtain ⟨t', g', ht', hg', hsize', hlabel', hchildren'⟩ :=
    exists_apply_apply h.realizes hy hx hxy.symm
  have hroot : ∀ (c : NodeId), c ∈ (s.tree c).nodes := fun c => by
    simpa using (s.tree c).root_mem_nodes
  have htx : x.target ∉ y.inserted? := fun hc => (hxy.apart x.target (.inr hc)).1 (hroot _)
  have hty : y.target ∉ x.inserted? := fun hc => (hxy.apart y.target (.inl hc)).2 (hroot _)
  have hforest : g = g' := Forest.ext_children fun n => by
    rw [hchildren, hchildren', rewrite_comm hxy.target_ne htx hty]
  have hstore : t' = t := hg'.eq (hforest ▸ hg) (hsize'.trans hsize.symm) fun n _ =>
    (hlabel' n).trans (hlabel n).symm
  exact ⟨t, ht, hstore ▸ ht'⟩

/-- A node over two others, and a free node. -/
def twoChildren : Store := ((threeNodes.push .node).append ⟨0⟩ ⟨1⟩).append ⟨0⟩ ⟨2⟩

theorem twoChildren_wellFormed : twoChildren.WellFormed := by
  have hnew := (threeNodes_wellFormed.realizes.push .node).wellFormed
  have hfirst := wellFormed_apply (m := .append ⟨0⟩ ⟨1⟩) hnew
    ⟨by decide, by decide, rfl, by decide⟩ rfl
  exact wellFormed_apply (m := .append ⟨0⟩ ⟨2⟩) hfirst ⟨by decide, by decide, rfl, by decide⟩ rfl

/-- The only two children: one is replaced and the other one taken out. -/
theorem twoChildren_apply_comm : twoChildren.WellFormed ∧
    Independent twoChildren (.replace ⟨1⟩ ⟨3⟩) (.remove ⟨2⟩) ∧
    ∃ t, (apply twoChildren (.replace ⟨1⟩ ⟨3⟩) >>= fun s' => apply s' (.remove ⟨2⟩)) = .ok t ∧
      (apply twoChildren (.remove ⟨2⟩) >>= fun s' => apply s' (.replace ⟨1⟩ ⟨3⟩)) = .ok t := by
  have hindependent : Independent twoChildren (.replace ⟨1⟩ ⟨3⟩) (.remove ⟨2⟩) :=
    ⟨by decide, by decide, fun c hc => by
      rcases hc with hc | hc
      · obtain rfl := Option.some.inj hc
        decide
      · exact absurd hc (by simp [inserted?])⟩
  exact ⟨twoChildren_wellFormed, hindependent, apply_comm twoChildren_wellFormed
    ⟨by decide, by decide, rfl⟩ (by decide : 2 < 4) hindependent⟩

end Move

end DocTree
