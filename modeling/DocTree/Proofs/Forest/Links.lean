import DocTree.Proofs.Forest.Surgery
import DocTree.Proofs.LinkTable

/-!
The links after surgery on a forest. Each operation on forests rewrites the table of links by the rule
of the operation on tables. Wrapping has two rules that give the same table: replace the node and
append it afterwards, or append it first and splice the wrapper into the place captured before.
-/
namespace DocTree.Forest

open Siblings

variable {f : Forest}

theorem link_append (f : Forest) (p c : NodeId) (hfree : f.parent c = none)
    (habove : ¬ f.Above c p) : (f.append p c hfree habove).link = Links.append f.link p c := by
  have hmem := not_mem_children_of_free hfree
  have hnodup := (f.append p c hfree habove).nodup_children p
  rw [children_append, if_pos rfl] at hnodup
  have hlast : ∀ m, (f.children p).getLast? = some m → f.parent m = some p := fun m hm =>
    f.parent_eq_some_iff.mpr (List.mem_of_getLast? hm)
  funext l n
  cases l with
  | parent => simp only [link, Links.append, parent_append, eq_comm]
  | firstChild =>
    simp only [link, Links.append, children_append]
    by_cases hnp : n = p
    · subst hnp
      simp only [if_true, and_true]
      cases f.children n <;> simp
    · simp [hnp, Ne.symm hnp]
  | lastChild =>
    simp only [link, Links.append, children_append]
    by_cases hnp : n = p
    · subst hnp
      simp
    · simp [hnp, Ne.symm hnp]
  | previous =>
    by_cases hnc : c = n
    · subst hnc
      simp [link, Links.append, parent_append, children_append, before?_concat]
    · simp only [link, Links.append, parent_append, Ne.symm hnc, hnc, if_false]
      cases hq : f.parent n with
      | none => rfl
      | some q =>
        by_cases hqp : q = p
        · subst hqp
          simp [children_append, before?_concat, hnc]
        · simp [children_append, hqp]
  | next =>
    by_cases hnc : c = n
    · subst hnc
      have hne : (f.children p).getLast? ≠ some c := fun he => hmem p (List.mem_of_getLast? he)
      simp [link, Links.append, parent_append, children_append, after?_concat hnodup, hne,
        after?_eq_none_of_notMem (hmem p)]
    · simp only [link, Links.append, parent_append, Ne.symm hnc, hnc, if_false]
      cases hq : f.parent n with
      | none =>
        have hne : (f.children p).getLast? ≠ some n := fun he => by simp [hlast n he] at hq
        simp [hne]
      | some q =>
        by_cases hqp : q = p
        · subst hqp
          simp [children_append, after?_concat hnodup]
        · have hne : (f.children p).getLast? ≠ some n := fun he => by
            rw [hlast n he, Option.some.injEq] at hq
            exact hqp hq.symm
          simp [children_append, hqp, hne]

theorem link_cut (f : Forest) {v : NodeId} (hv : f.parent v ≠ none) :
    (f.cut v).link = Links.remove f.link v := by
  obtain ⟨p, hp⟩ := Option.ne_none_iff_exists'.mp hv
  have hmem := f.parent_eq_some_iff.mp hp
  have hnodup := f.nodup_children p
  -- every other list of children stays as it is
  have helse : ∀ q, q ≠ p → (f.children q).erase v = f.children q := fun q hq =>
    List.erase_of_not_mem fun hm => hq (parent_unique hm hmem)
  have hprev := link_previous hmem
  have hnext := link_next hmem
  funext l n
  cases l with
  | parent => simp only [link, Links.remove, parent_cut, eq_comm]
  | firstChild =>
    have hhead := before?_eq_none_iff hmem hnodup
    simp only [Links.remove, hprev, hnext, hhead]
    simp only [link, children_cut, hp, Option.some.injEq]
    by_cases hnp : p = n
    · subst hnp
      simp [head?_erase]
    · simp [hnp, helse n (Ne.symm hnp)]
  | lastChild =>
    have hlast := after?_eq_none_iff hmem hnodup
    simp only [Links.remove, hprev, hnext, hlast]
    simp only [link, children_cut, hp, Option.some.injEq]
    by_cases hnp : p = n
    · subst hnp
      simp [getLast?_erase hnodup]
    · simp [hnp, helse n (Ne.symm hnp)]
  | previous =>
    by_cases hvn : v = n
    · simp [link, Links.remove, parent_cut, hvn]
    · simp only [Links.remove, hvn, if_false, ← link_previous_eq_some_iff]
      simp only [link, parent_cut, Ne.symm hvn, if_false, hp, Option.bind_some]
      cases hq : f.parent n with
      | none => simp
      | some q =>
        by_cases hqp : q = p
        · subst hqp
          simp [children_cut, before?_erase hnodup (Ne.symm hvn)]
        · have hne : before? n (f.children q) ≠ some v := fun he => by
            have hafter := (before?_eq_some_iff_after? (f.nodup_children q)).mp he
            rw [(exists_parent_of_after? hafter).1, Option.some.injEq] at hp
            exact hqp hp
          simp [children_cut, helse q hqp, hne]
  | next =>
    by_cases hvn : v = n
    · simp [link, Links.remove, parent_cut, hvn]
    · simp only [Links.remove, hvn, if_false, link_previous_eq_some_iff]
      simp only [link, parent_cut, Ne.symm hvn, if_false, hp, Option.bind_some]
      cases hq : f.parent n with
      | none => simp
      | some q =>
        by_cases hqp : q = p
        · subst hqp
          simp [children_cut, after?_erase hnodup (Ne.symm hvn)]
        · have hne : after? n (f.children q) ≠ some v := fun he => by
            rw [(exists_parent_of_after? he).2, Option.some.injEq] at hp
            exact hqp hp
          simp [children_cut, helse q hqp, hne]

theorem map_exchange (old new : NodeId) (o : Option NodeId) :
    o.map (exchange old new) = if o = some old then some new else o := by
  cases o with
  | none => simp
  | some n => by_cases hn : n = old <;> simp [exchange, hn]

section Exchange

variable (old : NodeId) {new n : NodeId} {ns : List NodeId} (hnew : new ∉ ns) (hn : n ≠ new)

include hnew hn

/-- No two nodes of a list without the new one are exchanged for the same node. -/
theorem eq_of_exchange_eq : ∀ m ∈ ns, exchange old new m = exchange old new n → m = n := by
  intro m hm he
  have hne : m ≠ new := fun h => hnew (h ▸ hm)
  unfold exchange at he
  split at he <;> split at he <;> simp_all

theorem before?_map_exchange : before? (exchange old new n) (ns.map (exchange old new)) =
    if before? n ns = some old then some new else before? n ns := by
  rw [before?_map (eq_of_exchange_eq old hnew hn), map_exchange]

theorem after?_map_exchange : after? (exchange old new n) (ns.map (exchange old new)) =
    if after? n ns = some old then some new else after? n ns := by
  rw [after?_map (eq_of_exchange_eq old hnew hn), map_exchange]

end Exchange

theorem link_substitute (f : Forest) (old new : NodeId) (hfree : f.parent new = none)
    (habove : ¬ f.Above new old) :
    (f.substitute old new hfree habove).link = Links.replace f.link old new := by
  have hne : old ≠ new := fun he => habove (he ▸ above_refl old)
  have hnew := not_mem_children_of_free hfree
  have hold : ∀ {q}, old ∈ f.children q → f.parent old = some q := fun hm =>
    f.parent_eq_some_iff.mpr hm
  funext l n
  cases l with
  | parent =>
    simp only [link, Links.replace, Links.detach, Links.replaceAt, parent_substitute, eq_comm]
  | firstChild =>
    simp only [Links.replace, Links.detach, Links.replaceAt]
    simp only [link, children_substitute, List.head?_map, map_exchange]
    by_cases hq : f.parent old = some n
    · have hmem := f.parent_eq_some_iff.mp hq
      simp [hq, before?_eq_none_iff hmem (f.nodup_children n)]
    · have hhead : (f.children n).head? ≠ some old := fun he => hq (hold (List.mem_of_head? he))
      simp [hq, hhead]
  | lastChild =>
    simp only [Links.replace, Links.detach, Links.replaceAt]
    simp only [link, children_substitute, List.getLast?_map, map_exchange]
    by_cases hq : f.parent old = some n
    · have hmem := f.parent_eq_some_iff.mp hq
      simp [hq, after?_eq_none_iff hmem (f.nodup_children n)]
    · have hlast : (f.children n).getLast? ≠ some old := fun he =>
        hq (hold (List.mem_of_getLast? he))
      simp [hq, hlast]
  | previous =>
    simp only [Links.replace, Links.detach, Links.replaceAt, ← link_previous_eq_some_iff]
    simp only [link, parent_substitute]
    by_cases hno : n = old
    · simp [hno]
    by_cases hnn : n = new
    · subst hnn
      simp only [hno, Ne.symm hno, hfree, if_true, if_false, Option.bind_none, reduceCtorEq]
      cases hq : f.parent old with
      | none => rfl
      | some q =>
        have hmap := before?_map_exchange old (hnew q) hne
        rw [exchange_old] at hmap
        simp [children_substitute, hmap, before?_ne_self (f.nodup_children q) old]
    · simp only [hno, hnn, Ne.symm hno, Ne.symm hnn, if_false]
      cases hq : f.parent n with
      | none => simp
      | some q =>
        have hmap := before?_map_exchange old (hnew q) hnn
        rw [exchange_of_ne hno] at hmap
        simp [children_substitute, hmap]
  | next =>
    simp only [Links.replace, Links.detach, Links.replaceAt, link_previous_eq_some_iff]
    simp only [link, parent_substitute]
    by_cases hno : n = old
    · simp [hno]
    by_cases hnn : n = new
    · subst hnn
      simp only [hno, Ne.symm hno, hfree, if_true, if_false, Option.bind_none, reduceCtorEq]
      cases hq : f.parent old with
      | none => rfl
      | some q =>
        have hmap := after?_map_exchange old (hnew q) hne
        rw [exchange_old] at hmap
        simp [children_substitute, hmap, after?_ne_self (f.nodup_children q) old]
    · simp only [hno, hnn, Ne.symm hno, Ne.symm hnn, if_false]
      cases hq : f.parent n with
      | none => simp
      | some q =>
        have hmap := after?_map_exchange old (hnew q) hnn
        rw [exchange_of_ne hno] at hmap
        simp [children_substitute, hmap]

/-- Appending first and splicing into the place captured before gives the same links. -/
theorem link_wrap (f : Forest) (v w : NodeId) (hfree : f.parent w = none) (habove : ¬ f.Above w v) :
    (f.wrap v w hfree habove).link = Links.replaceAt (Links.append f.link w v)
      ⟨f.link .parent v, f.link .previous v, f.link .next v⟩ w := by
  have hne : v ≠ w := fun he => habove (he ▸ above_refl v)
  have hparent : f.link .parent v ≠ some w := fun he =>
    habove (Relation.ReflTransGen.single he)
  have hself : f.link .next v ≠ some v := fun he => by
    obtain ⟨p, -, hv⟩ := Option.bind_eq_some_iff.mp he
    exact after?_ne_self (f.nodup_children p) v hv
  have hself' : f.link .previous v ≠ some v := by rwa [Ne, link_previous_eq_some_iff]
  -- the old last child of `w` is neither of the two, and no neighbour of `v`
  have hlast : ∀ n, f.link .lastChild w = some n → n ≠ w ∧ f.link .previous v ≠ some n := by
    intro n hn
    have hn : f.parent n = some w := f.parent_eq_some_iff.mpr (List.mem_of_getLast? hn)
    constructor
    · rintro rfl
      rw [hfree] at hn
      exact absurd hn (by simp)
    · intro he
      rw [parent_eq_of_next (link_previous_eq_some_iff.mp he)] at hn
      exact hparent hn
  rw [wrap, link_append, link_substitute]
  funext l n
  cases l <;> simp only [Links.append, Links.replace, Links.detach, Links.replaceAt] <;> grind

end DocTree.Forest
