import DocTree.Store.Traversal
import DocTree.Proofs.CapturedPlace
import DocTree.Proofs.LocalEdits

/-!
Passes over children that are moved on the way. A pass depends on the next link of the child it has
yielded, which it reads beforehand. Among the children still to come that link is safe as long as no
last child elsewhere and no node in front is one of them: then neither an append nor a splice can write
it, however the links behind the pass have come out of order.
-/
namespace DocTree

open Workspace

namespace Store

theorem mem_of_mem_follow {s : Store} {l : Link} {k : ℕ} {start : Option NodeId} {ns : List NodeId}
    (h : s.Path l start ns) {m : NodeId} (hm : m ∈ s.follow l k start) : m ∈ ns := by
  induction h generalizing k with
  | nil => cases k <;> exact absurd hm (by simp [follow])
  | cons _ ih =>
    cases k with
    | zero => exact absurd hm (by simp [follow])
    | succ k => exact List.mem_cons.mpr ((List.mem_cons.mp hm).imp_right ih)

/-- The node is none of the children to come, and neither their parent nor above it. -/
structure Aside (above rest : List NodeId) (n : NodeId) : Prop where
  notMem_rest : n ∉ rest
  notMem_above : n ∉ above

/-- The children `rest` of `p` are still to come, with the nodes `above` from `p` upwards. Each leads to
the next one; what is in front of one of them does not come after it, and no other node has one of
them as its last child. -/
structure Awaits (size : ℕ) (p : NodeId) (above rest : List NodeId) (s : Store) : Prop where
  size_le : size ≤ s.size
  nodup : rest.Nodup
  notMem_above : ∀ c ∈ rest, c ∉ above
  next_eq : ∀ left c right, rest = left ++ c :: right → s.link .next c = right.head?
  previous_notMem : ∀ left c right, rest = left ++ c :: right →
    ∀ b ∈ s.link .previous c, b ∉ right
  parent_eq : ∀ c ∈ rest, s.link .parent c = some p
  lastChild_notMem : ∀ t, t ≠ p → ∀ x ∈ s.link .lastChild t, x ∉ rest
  path_up : s.Path .parent (some p) above

theorem Aside.ne {above rest : List NodeId} {n d : NodeId} (h : Aside above rest n)
    (hd : d ∈ rest ∨ d ∈ above) : n ≠ d := by
  rintro rfl
  exact hd.elim h.notMem_rest h.notMem_above

/-- The node from which a link leads to `p` or to a node above `p` has a child. -/
theorem WellFormed.exists_child_of_above {s : Store} (h : s.WellFormed) {a p : NodeId}
    (ha : h.forest.Above a p) (hne : a ≠ p) : s.link .firstChild a ≠ none := by
  rcases Relation.ReflTransGen.cases_tail ha with he | ⟨c, -, hc⟩
  · exact absurd he hne
  · have hmem : c ∈ h.forest.children a := h.forest.parent_eq_some_iff.mp hc
    rw [h.realizes.firstChild_eq (Nat.zero_le _), Ne, List.head?_eq_none_iff]
    exact List.ne_nil_of_mem hmem

namespace Awaits

variable {size : ℕ} {p t c w : NodeId} {above rest : List NodeId} {s s' : Store} {place : Position}

/-- A pass begins in order, and every node above `p` has a child then. -/
theorem of_wellFormed (h : s.WellFormed) (p : NodeId) :
    ∃ above, Awaits s.size p above (s.children p) s ∧
      ∀ a ∈ above, a = p ∨ s.link .firstChild a ≠ none := by
  have hchildren := h.childChain p
  obtain ⟨ns, hpath, -, hmem⟩ := h.realizes.exists_path_up (Nat.zero_le p.index)
  have habove : ∀ a ∈ p :: ns, h.forest.Above a p := by
    intro a ha
    exact Forest.above_iff.mpr ((List.mem_cons.mp ha).imp_right (hmem a).mp)
  refine ⟨p :: ns, ⟨Nat.le_refl _, hchildren.nodup, ?_, ?_, ?_, ?_, ?_, .cons hpath⟩, ?_⟩
  · intro c hc hup
    exact Forest.not_above_parent ((hchildren.owned c).mp hc) (habove c hup)
  · intro left c right hsplit
    have hchain := hchildren.chain
    rw [hsplit] at hchain
    exact hchain.next_eq
  · intro left c right hsplit b hb hright
    have hchain := hchildren.chain
    have hnodup := hchildren.nodup
    rw [hsplit] at hchain hnodup
    rw [hchain.previous_eq, Option.or_none] at hb
    exact (List.nodup_append.mp hnodup).2.2 b (List.mem_of_getLast? hb) b
      (List.mem_cons_of_mem c hright) rfl
  · exact fun c hc => (hchildren.owned c).mp hc
  · intro t ht x hx hxp
    rw [(h.childChain t).last] at hx
    have hparent := ((h.childChain t).owned x).mp (List.mem_of_getLast? hx)
    rw [(hchildren.owned x).mp hxp] at hparent
    exact ht (Option.some.inj hparent).symm
  · intro a ha
    by_cases hne : a = p
    · exact .inl hne
    · exact .inr (h.exists_child_of_above (habove a ha) hne)

variable (h : Awaits size p above rest s)

include h

/-- The children to come stay so if their next links and the parent links stay, and no back link and no
last child elsewhere is made one of them. -/
theorem congr (hsize : s.size ≤ s'.size) (hnext : ∀ d ∈ rest, s'.link .next d = s.link .next d)
    (hparent : ∀ d, d ∈ rest ∨ d ∈ above → s'.link .parent d = s.link .parent d)
    (hprevious : ∀ d ∈ rest, ∀ b ∈ s'.link .previous d, b ∈ s.link .previous d ∨ b ∉ rest)
    (hlast : ∀ t, t ≠ p → ∀ x ∈ s'.link .lastChild t, x ∈ s.link .lastChild t ∨ x ∉ rest) :
    Awaits size p above rest s' where
  size_le := h.size_le.trans hsize
  nodup := h.nodup
  notMem_above := h.notMem_above
  next_eq left d right hsplit := by
    rw [hnext d (by simp [hsplit])]
    exact h.next_eq left d right hsplit
  previous_notMem left d right hsplit b hb := by
    rcases hprevious d (by simp [hsplit]) b hb with hold | hout
    · exact h.previous_notMem left d right hsplit b hold
    · exact fun hright => hout (by simp [hsplit, hright])
  parent_eq d hd := (hparent d (.inl hd)).trans (h.parent_eq d hd)
  lastChild_notMem u hu x hx := by
    rcases hlast u hu x hx with hold | hout
    · exact h.lastChild_notMem u hu x hold
    · exact hout
  path_up := h.path_up.congr fun n hn => hparent n (.inr hn)

theorem mem_above : p ∈ above := by
  cases h.path_up
  exact List.mem_cons_self ..

theorem push (label : Label Value) : Awaits size p above rest (s.push label) :=
  h.congr (by simp) (by simp) (by simp) (by simp +contextual) (by simp +contextual)

/-- A node that is not to come may be appended anywhere but to `p`, without being removed before. -/
theorem append (ht : t ≠ p) (hc : Aside above rest c) :
    Awaits size p above rest (s.append t c) := by
  refine h.congr (size_le_append s t c) (fun d hd => ?_) (fun d hd => ?_) (fun d hd b hb => ?_)
    fun u hu x hx => ?_
  · have hlast : s.link .lastChild t ≠ some d := fun hx => h.lastChild_notMem t ht d hx hd
    simp [link_append, Links.append, hlast, hc.ne (.inl hd)]
  · simp [link_append, Links.append, hc.ne hd]
  · rw [link_append, Links.append, if_neg (hc.ne (.inl hd))] at hb
    exact .inl hb
  · rw [link_append, Links.append] at hx
    split at hx
    · obtain rfl := Option.some.inj hx
      exact .inr hc.notMem_rest
    · exact .inl hx

/-- A child of `p` with nothing to come in front of it may be removed. -/
theorem remove (hparent : s.link .parent c = some p) (hfront : ∀ b ∈ s.link .previous c, b ∉ rest)
    (hc : Aside above rest c) : Awaits size p above rest (s.remove c) := by
  have hlink := link_remove s (v := c) (by simp [hparent])
  refine h.congr (size_le_remove s c) (fun d hd => ?_) (fun d hd => ?_) (fun d hd b hb => ?_)
    fun u hu x hx => ?_
  · have hprevious : s.link .previous c ≠ some d := fun hb => hfront d hb hd
    simp [hlink, Links.remove, hprevious, hc.ne (.inl hd)]
  · simp [hlink, Links.remove, hc.ne hd]
  · rw [hlink, Links.remove, if_neg (hc.ne (.inl hd))] at hb
    split at hb
    · exact .inr (hfront b hb)
    · exact .inl hb
  · have hne : s.link .parent c ≠ some u := fun he => hu (Option.some.inj (he.symm.trans hparent))
    rw [hlink, Links.remove, if_neg (fun he => hne he.2)] at hx
    exact .inl hx

/-- A node that is not to come may be spliced into a place below `p` with nothing to come in front. -/
theorem replaceAt (hparent : place.parent = some p) (hfront : ∀ b ∈ place.previous, b ∉ rest)
    (hw : Aside above rest w) : Awaits size p above rest (s.replaceAt place w) := by
  refine h.congr (size_le_replaceAt s place w) (fun d hd => ?_) (fun d hd => ?_)
    (fun d hd b hb => ?_) fun u hu x hx => ?_
  · have hprevious : place.previous ≠ some d := fun hb => hfront d hb hd
    simp [link_replaceAt, Links.replaceAt, hprevious, hw.ne (.inl hd)]
  · simp [link_replaceAt, Links.replaceAt, hw.ne hd]
  · rw [link_replaceAt, Links.replaceAt, if_neg (hw.ne (.inl hd))] at hb
    split at hb
    · obtain rfl := Option.some.inj hb
      exact .inr hw.notMem_rest
    · exact .inl hb
  · have hne : place.parent ≠ some u := fun he => hu (Option.some.inj (he.symm.trans hparent))
    rw [link_replaceAt, Links.replaceAt, if_neg (fun he => hne he.2)] at hx
    exact .inl hx

theorem detach (hc : Aside above rest c) : Awaits size p above rest (s.detach c) := by
  refine h.congr (size_le_setPosition s c _) (fun d hd => ?_) (fun d hd => ?_) (fun d hd b hb => ?_)
    fun u hu x hx => ?_
  · simp [link_detach, Links.detach, hc.ne (.inl hd)]
  · simp [link_detach, Links.detach, hc.ne hd]
  · rw [link_detach, Links.detach, if_neg (hc.ne (.inl hd))] at hb
    exact .inl hb
  · rw [link_detach, Links.detach] at hx
    exact .inl hx

/-- A child of `p` may be replaced: nothing above it is the replacement. -/
theorem replace (hparent : s.link .parent c = some p) (hfront : ∀ b ∈ s.link .previous c, b ∉ rest)
    (hc : Aside above rest c) (hw : Aside above rest w) :
    ∃ s', s.replace c w = .ok s' ∧ Awaits size p above rest s' := by
  have hout : w ∉ s.ancestors c := by
    intro hm
    rw [ancestors, hparent] at hm
    exact hw.notMem_above (mem_of_mem_follow h.path_up hm)
  have hspliced : Awaits size p above rest (s.replaceAt (s.position c) w) :=
    h.replaceAt hparent hfront hw
  unfold Store.replace
  by_cases hsame : c = w
  · rw [if_pos hsame]
    exact ⟨s, rfl, h⟩
  · rw [if_neg hsame, if_neg hout]
    refine ⟨_, rfl, ?_⟩
    split
    · exact hspliced.detach hc
    · exact hspliced

/-- A child of `p` may be put under a wrapper that takes its place. -/
theorem wrap (hparent : s.link .parent c = some p)
    (hfront : ∀ b ∈ s.link .previous c, b ∉ rest) (hc : Aside above rest c)
    (hw : Aside above rest w) :
    Awaits size p above rest ((s.append w c).replaceAt (s.position c) w) :=
  (h.append (hw.ne (.inr h.mem_above)) hc).replaceAt hparent hfront hw

end Awaits

theorem Awaits.of_cons {size : ℕ} {p c : NodeId} {above rest : List NodeId} {s : Store}
    (h : Awaits size p above (c :: rest) s) :
    Awaits size p above rest s ∧ Aside above rest c ∧ s.link .next c = rest.head? ∧
      s.link .parent c = some p ∧ ∀ b ∈ s.link .previous c, b ∉ rest := by
  have hnodup := List.nodup_cons.mp h.nodup
  have hbehind : ∀ left d right, rest = left ++ d :: right → c :: rest = (c :: left) ++ d :: right :=
    fun left d right hsplit => by rw [hsplit, List.cons_append]
  refine ⟨⟨h.size_le, hnodup.2, fun d hd => h.notMem_above d (List.mem_cons_of_mem c hd), ?_, ?_,
    fun d hd => h.parent_eq d (List.mem_cons_of_mem c hd), ?_, h.path_up⟩,
    ⟨hnodup.1, h.notMem_above c (List.mem_cons_self ..)⟩, h.next_eq [] c rest rfl,
    h.parent_eq c (List.mem_cons_self ..), h.previous_notMem [] c rest rfl⟩
  · exact fun left d right hsplit => h.next_eq _ d right (hbehind left d right hsplit)
  · exact fun left d right hsplit => h.previous_notMem _ d right (hbehind left d right hsplit)
  · exact fun t ht x hx hmem => h.lastChild_notMem t ht x hx (List.mem_cons_of_mem c hmem)

end Store

open Store

inductive Treatment where
  | leave
  /-- It is appended elsewhere, its old place being left as it is. -/
  | append (target : NodeId)
  | remove
  /-- It is removed and appended then. -/
  | move (target : NodeId)
  | replace (new : NodeId)
  /-- It goes under a wrapper that takes its place. -/
  | wrap (wrapper : NodeId)

namespace Treatment

def request (v : NodeId) : Treatment → Request Unit
  | leave => pure ()
  | append t => Request.append (some t) (some v)
  | remove => Request.remove (some v)
  | move t => do
    Request.remove (some v)
    Request.append (some t) (some v)
  | replace w => Request.replace (some v) (some w)
  | wrap w => Request.wrapAtPlace v w

/-- A child of `p` goes to any node but `p`. What takes its place is a fresh node: when the pass began, in
the store `s`, it had no links or was not there at all. -/
def Allowed (s : Store) (p : NodeId) : Treatment → Prop
  | leave | remove => True
  | append t | move t => t ≠ p
  | replace w | wrap w => w ≠ p ∧ ∀ l, s.link l w = none

end Treatment

structure Visit where
  labels : List (Label Value)
  treatment : Treatment

namespace Visit

def makeAll : List (Label Value) → Request Unit
  | [] => pure ()
  | label :: labels => do
    let _ ← newNode label
    makeAll labels

def request (v : NodeId) (x : Visit) : Request Unit := do
  makeAll x.labels
  x.treatment.request v

end Visit

section Stop

variable {s : Store} {size : ℕ} {p c : NodeId} {above rest : List NodeId} {a : Workspace}

/-- A fresh node is none of the children to come and not above them. -/
theorem aside_of_fresh {all : List NodeId} (hs : Awaits s.size p above all s)
    (habove : ∀ b ∈ above, b = p ∨ s.link .firstChild b ≠ none) (hsub : rest ⊆ all) {w : NodeId}
    (hfresh : w ≠ p ∧ ∀ l, s.link l w = none) : Aside above rest w where
  notMem_rest hw := by
    have hparent := hs.parent_eq w (hsub hw)
    rw [hfresh.2 .parent] at hparent
    exact absurd hparent (by simp)
  notMem_above hw := (habove w hw).elim hfresh.1 fun hfirst => hfirst (hfresh.2 .firstChild)

theorem Visit.makeAll_awaits (labels : List (Label Value)) (h : Awaits size p above rest a.store) :
    ∃ s', Visit.makeAll labels a = .ok () { a with store := s' } ∧ Awaits size p above rest s' := by
  induction labels generalizing a with
  | nil => exact ⟨a.store, rfl, h⟩
  | cons label labels ih => exact ih (h.push label)

theorem remove_apply (v : NodeId) (a : Workspace) :
    Request.remove (some v) a = .ok () { a with store := a.store.remove v } := rfl

/-- No treatment fails, and the children after the one treated are still to come. -/
theorem Treatment.request_awaits (x : Treatment) (hx : x.Allowed s p)
    (hfresh : ∀ w, (w ≠ p ∧ ∀ l, s.link l w = none) → Aside above rest w)
    (h : Awaits size p above (c :: rest) a.store) :
    ∃ s', x.request c a = .ok () { a with store := s' } ∧ Awaits size p above rest s' := by
  obtain ⟨hrest, hc, -, hparent, hfront⟩ := h.of_cons
  cases x with
  | leave => exact ⟨a.store, rfl, hrest⟩
  | append t => exact ⟨_, Request.append_apply t c a, hrest.append hx hc⟩
  | remove => exact ⟨_, remove_apply c a, hrest.remove hparent hfront hc⟩
  | move t =>
    refine ⟨_, ?_, (hrest.remove hparent hfront hc).append hx hc⟩
    rw [request, bind_eq, remove_apply]
    exact Request.append_apply t c _
  | replace w =>
    obtain ⟨s', hs', hafter⟩ := hrest.replace hparent hfront hc (hfresh w hx)
    refine ⟨s', ?_, hafter⟩
    by_cases hsame : c = w
    · subst hsame
      obtain rfl : a.store = s' := by simpa [Store.replace] using hs'
      rw [request, Request.replace, if_pos rfl]
      rfl
    · rw [request, Request.replace_apply hsame, hs']
  | wrap w =>
    exact ⟨_, Request.wrapAtPlace_apply c w a, hrest.wrap hparent hfront hc (hfresh w hx)⟩

end Stop

/-- A pass over the children of a node, for at most so many stops. What is done at a stop may depend on
all that has come about before. -/
def childPass (visit : NodeId → Workspace → Visit) (limit : ℕ) (pass : ChildPass) :
    Request (List NodeId) :=
  traverse (Workspace.store <$> get) ChildPass.advance
    (fun v => do
      let a ← get
      (visit v a).request v) limit pass

section Pass

variable {visit : NodeId → Workspace → Visit} {limit : ℕ} {a a' : Workspace}

theorem childPass_nil : childPass visit limit ⟨none⟩ a = .ok [] a := by
  cases limit <;> rfl

theorem childPass_cons {c : NodeId} {ns : List NodeId} {a'' : Workspace}
    (hvisit : (visit c a).request c a = .ok () a')
    (hrest : childPass visit limit ⟨a.store.link .next c⟩ a' = .ok ns a'') :
    childPass visit (limit + 1) ⟨some c⟩ a = .ok (c :: ns) a'' := by
  unfold childPass at hrest ⊢
  have hstore : (Workspace.store <$> get : Request Store) a = .ok a.store a := rfl
  have hget : (get : Request Workspace) a = .ok a a := rfl
  rw [traverse, bind_eq, hstore]
  simp only [ChildPass.advance, Option.map_some, bind_eq, hget, hvisit, hrest]
  rfl

/-- Stop by stop the children still to come are yielded in order. -/
theorem childPass_awaits {s : Store} {p : NodeId} {above rest : List NodeId}
    (hs : Awaits s.size p above (s.children p) s)
    (habove : ∀ b ∈ above, b = p ∨ s.link .firstChild b ≠ none)
    (hvisit : ∀ c ∈ s.children p, ∀ b : Workspace, s.size ≤ b.store.size →
      (visit c b).treatment.Allowed s p)
    (hsub : rest ⊆ s.children p) (h : Awaits s.size p above rest a.store) :
    ∃ s', childPass visit limit ⟨rest.head?⟩ a = .ok (rest.take limit) { a with store := s' } ∧
      Awaits s.size p above (rest.drop limit) s' := by
  induction limit generalizing rest a with
  | zero => exact ⟨a.store, rfl, h⟩
  | succ limit ih =>
    cases rest with
    | nil => exact ⟨a.store, childPass_nil, h⟩
    | cons c rest =>
      rw [List.cons_subset] at hsub
      obtain ⟨s₁, hmake, hmade⟩ := Visit.makeAll_awaits (visit c a).labels h
      obtain ⟨s₂, htreat, hafter⟩ := (visit c a).treatment.request_awaits
        (hvisit c hsub.1 a h.size_le) (fun w => aside_of_fresh hs habove hsub.2)
        (a := { a with store := s₁ }) hmade
      have hstop : (visit c a).request c a = .ok () { a with store := s₂ } := by
        rw [Visit.request, bind_eq, hmake]
        exact htreat
      obtain ⟨s₃, hrun, hend⟩ := ih hsub.2 (a := { a with store := s₂ }) hafter
      refine ⟨s₃, childPass_cons hstop ?_, hend⟩
      -- the next link has been read in the state before the stop
      rw [h.of_cons.2.2.1]
      exact hrun

end Pass

/-- Whatever is done with each child that is yielded, the pass yields just the children that there were,
in order, each of them once, and then it ends. -/
theorem childPass_yields_children {w : Workspace} (hw : w.store.WellFormed) (p : NodeId)
    (visit : NodeId → Workspace → Visit)
    (hvisit : ∀ c ∈ w.store.children p, ∀ a : Workspace, w.store.size ≤ a.store.size →
      (visit c a).treatment.Allowed w.store p) (limit : ℕ) :
    (w.store.children p).Nodup ∧
      ∃ s', childPass visit limit (.start w.store p) w =
        .ok ((w.store.children p).take limit) { w with store := s' } := by
  obtain ⟨above, hs, habove⟩ := Awaits.of_wellFormed hw p
  obtain ⟨s', hrun, -⟩ := childPass_awaits hs habove hvisit (List.Subset.refl _) hs
  refine ⟨hs.nodup, s', ?_⟩
  rw [ChildPass.start, (hw.childChain p).chain.start_eq]
  exact hrun

/-- The first item is appended to the second one as it stands, every other node goes under a new list. -/
def appendsThenWraps (v : NodeId) (a : Workspace) : Visit :=
  if v = ⟨1⟩ then ⟨[], .append ⟨2⟩⟩ else ⟨[.list], .wrap a.store.fresh⟩

theorem appendsThenWraps_allowed (v : NodeId) {a : Workspace} (ha : twoItems.size ≤ a.store.size) :
    (appendsThenWraps v a).treatment.Allowed twoItems ⟨0⟩ := by
  unfold appendsThenWraps
  split
  · exact fun he => absurd he (by decide)
  · refine ⟨fun he => ?_, fun l => link_eq_none_of_size_le _ l ha⟩
    have hpos : 0 < twoItems.size := by decide
    have hzero := congrArg NodeId.index he
    simp only [fresh] at hzero
    omega

theorem twoItems_childPass : twoItems.WellFormed ∧ twoItems.children ⟨0⟩ = [⟨1⟩, ⟨2⟩] ∧
    (∀ v a, twoItems.size ≤ a.store.size →
      (appendsThenWraps v a).treatment.Allowed twoItems ⟨0⟩) ∧
    ∃ s', childPass appendsThenWraps 5 (.start twoItems ⟨0⟩) ⟨twoItems, #[]⟩ =
      .ok [⟨1⟩, ⟨2⟩] ⟨s', #[]⟩ := by
  obtain ⟨-, s', hrun⟩ := childPass_yields_children (w := ⟨twoItems, #[]⟩) twoItems_wellFormed ⟨0⟩
    appendsThenWraps (fun v _ _ ha => appendsThenWraps_allowed v ha) 5
  exact ⟨twoItems_wellFormed, by decide, fun v _ ha => appendsThenWraps_allowed v ha, s', hrun⟩

end DocTree
