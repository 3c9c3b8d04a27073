import DocTree.Proofs.Forest
import Mathlib.Logic.Function.Basic

/-!
Surgery on forests. A free node is put behind the children of another, a node is taken out with its
tree, a node is exchanged for a free one, or a free node is put in its place and takes it as a child.
What is free and what would close a circle is said in the hypotheses; each operation gives a forest.
-/
namespace DocTree.Forest

variable {f : Forest}

section Append

variable (f) (p c : NodeId) (hfree : f.parent c = none) (habove : ¬ f.Above c p)

def append : Forest where
  children := Function.update f.children p (f.children p ++ [c])
  parent := Function.update f.parent c (some p)
  parent_eq_some_iff := by
    intro x q
    have hc := not_mem_children_of_free hfree
    have hx := f.parent_eq_some_iff (c := x) (p := q)
    by_cases hxc : x = c <;> by_cases hqp : q = p
    · subst hxc hqp
      simp
    · subst hxc
      simpa [hqp, hc q] using Ne.symm hqp
    · subst hqp
      simp [hxc, hx]
    · simp [hxc, hqp, hx]
  nodup_children q := by
    by_cases hqp : q = p
    · subst hqp
      have hc := not_mem_children_of_free hfree q
      rw [Function.update_self]
      refine List.nodup_append.mpr ⟨f.nodup_children q, List.nodup_singleton c, ?_⟩
      rintro a ha b hb rfl
      exact hc (List.mem_singleton.mp hb ▸ ha)
    · simpa [hqp] using f.nodup_children q
  ranked := by
    apply f.ranked.add_edge habove
    intro x y hxy
    by_cases hxc : x = c
    · subst hxc
      simp only [Function.update_self, Option.some.injEq] at hxy
      exact Or.inr ⟨rfl, hxy.symm⟩
    · exact Or.inl (by simpa [hxc] using hxy)

theorem children_append (n : NodeId) : (f.append p c hfree habove).children n =
    if n = p then f.children p ++ [c] else f.children n := by
  simp [append, Function.update_apply]

theorem parent_append (n : NodeId) :
    (f.append p c hfree habove).parent n = if n = c then some p else f.parent n := by
  simp [append, Function.update_apply]

end Append

/-- Takes a node, with its tree, out of its parent's children. -/
def cut (f : Forest) (v : NodeId) : Forest where
  children n := (f.children n).erase v
  parent := Function.update f.parent v none
  parent_eq_some_iff := by
    intro c p
    by_cases hcv : c = v
    · subst hcv
      simpa using (f.nodup_children p).not_mem_erase
    · simp [hcv, List.mem_erase_of_ne hcv, f.parent_eq_some_iff]
  nodup_children p := (f.nodup_children p).erase v
  ranked := by
    obtain ⟨rank, bound, hrank⟩ := f.ranked
    refine ⟨rank, bound, fun c p hcp => hrank c p ?_⟩
    by_cases hcv : c = v
    · subst hcv
      simp at hcp
    · simpa [hcv] using hcp

theorem children_cut (v n : NodeId) : (f.cut v).children n = (f.children n).erase v := rfl

theorem parent_cut (v n : NodeId) :
    (f.cut v).parent n = if n = v then none else f.parent n := by
  simp [cut, Function.update_apply]

theorem Above.of_cut {v a n : NodeId} (h : (f.cut v).Above a n) : f.Above a n := by
  refine Relation.ReflTransGen.mono (fun x y hxy => ?_) _ _ h
  rw [parent_cut] at hxy
  split at hxy
  · exact absurd hxy (by simp)
  · exact hxy

def exchange (old new n : NodeId) : NodeId := if n = old then new else n

theorem exchange_old (old new : NodeId) : exchange old new old = new := if_pos rfl

theorem exchange_of_ne {old new n : NodeId} (h : n ≠ old) : exchange old new n = n := if_neg h

theorem map_exchange_of_notMem {old new : NodeId} {ns : List NodeId} (h : old ∉ ns) :
    ns.map (exchange old new) = ns := by
  have hkeep : ∀ n ∈ ns, exchange old new n = n := by
    rintro n hn
    exact exchange_of_ne fun he => h (he ▸ hn)
  exact (List.map_congr_left hkeep).trans (List.map_id ns)

section Substitute

variable (f) (old new : NodeId) (hfree : f.parent new = none) (habove : ¬ f.Above new old)

/-- Puts a free node in the place of another, which becomes free. -/
def substitute : Forest where
  children n := (f.children n).map (exchange old new)
  parent := Function.update (Function.update f.parent new (f.parent old)) old none
  parent_eq_some_iff := by
    intro c p
    have hne : old ≠ new := fun he => habove (he ▸ above_refl old)
    have hnew := not_mem_children_of_free hfree p
    by_cases hold : c = old
    · subst hold
      simp only [Function.update_self, List.mem_map, exchange]
      constructor
      · simp
      · rintro ⟨x, _, hx⟩
        by_cases hxc : x = c <;> simp_all
    · by_cases hcn : c = new
      · subst hcn
        simp only [Function.update_of_ne hold, Function.update_self, f.parent_eq_some_iff,
          List.mem_map, exchange]
        constructor
        · exact fun h => ⟨old, h, by simp⟩
        · rintro ⟨x, hx, hxc⟩
          by_cases hxo : x = old
          · exact hxo ▸ hx
          · rw [if_neg hxo] at hxc
            exact absurd (hxc ▸ hx) hnew
      · simp only [Function.update_of_ne hold, Function.update_of_ne hcn, f.parent_eq_some_iff,
          List.mem_map, exchange]
        constructor
        · exact fun h => ⟨c, h, by simp [hold]⟩
        · rintro ⟨x, hx, hxc⟩
          by_cases hxo : x = old
          · rw [if_pos hxo] at hxc
            exact absurd hxc.symm hcn
          · rw [if_neg hxo] at hxc
            exact hxc ▸ hx
  nodup_children p := by
    have hnew := not_mem_children_of_free hfree p
    refine List.Nodup.map_on (fun x hx y hy hxy => ?_) (f.nodup_children p)
    unfold exchange at hxy
    split at hxy <;> split at hxy <;> simp_all
  ranked := by
    rcases hq : f.parent old with _ | q
    · obtain ⟨rank, bound, hrank⟩ := f.ranked
      refine ⟨rank, bound, fun c p hcp => hrank c p ?_⟩
      grind [Function.update_apply]
    · have hqa : ¬ f.Above new q := fun h => habove (above_iff.mpr (Or.inr ⟨q, hq, h⟩))
      apply f.ranked.add_edge hqa
      intro x y hxy
      grind [Function.update_apply]

theorem children_substitute (n : NodeId) : (f.substitute old new hfree habove).children n =
    (f.children n).map (exchange old new) := rfl

theorem parent_substitute (n : NodeId) : (f.substitute old new hfree habove).parent n =
    if n = old then none else if n = new then f.parent old else f.parent n := by
  simp [substitute, Function.update_apply]

end Substitute

section Wrap

variable (f) (v w : NodeId) (hfree : f.parent w = none) (habove : ¬ f.Above w v)

include hfree habove in
theorem not_above_substitute : ¬ (f.substitute v w hfree habove).Above v w := by
  have hne : v ≠ w := fun he => habove (he ▸ above_refl v)
  intro h
  -- upwards from `w` no node is met that stood in the tree of `v`
  have hup : ∀ a, (f.substitute v w hfree habove).Above a w → ¬ f.Above v a := by
    intro a ha
    induction ha with
    | refl =>
      rw [above_iff]
      simp [hne, hfree]
    | @tail b c _ hstep ih =>
      rw [parent_substitute] at hstep
      by_cases hbv : b = v
      · simp [hbv] at hstep
      by_cases hbw : b = w
      · rw [if_neg hbv, if_pos hbw] at hstep
        exact not_above_parent hstep
      · rw [if_neg hbv, if_neg hbw] at hstep
        exact fun hv => ih (hv.trans (Relation.ReflTransGen.single hstep))
  exact hup v h (above_refl v)

theorem parent_substitute_self : (f.substitute v w hfree habove).parent v = none := by
  simp [parent_substitute]

def wrap : Forest :=
  (f.substitute v w hfree habove).append w v (parent_substitute_self f v w hfree habove)
    (not_above_substitute f v w hfree habove)

end Wrap

end DocTree.Forest
