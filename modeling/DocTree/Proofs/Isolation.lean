import DocTree.Proofs.FinishedTree
import DocTree.Proofs.Frame

/-!
Calls one after the other. From any state, whatever its links, some calls convert and build, and each of
them succeeds or fails. No call touches a node that was there before it, the tree it gives consists of
new nodes, and no later call touches that tree. A node that a source holds as a payload is there before
the call, so that nothing is ever linked to it.
-/
namespace DocTree

open OrderedTree Workspace

namespace Store

variable {base : ℕ} {s s' : Store} {t u : OrderedTree NodeId}

/-- No node stands in both trees, and no link leads from one to the other. -/
def Unlinked (s : Store) (t u : OrderedTree NodeId) : Prop :=
  t.nodes.Disjoint u.nodes ∧
    ∀ n ∈ t.nodes, ∀ m ∈ u.nodes, ∀ l, s.link l n ≠ some m ∧ s.link l m ≠ some n

/-- Trees of their own with no node in common are not linked. -/
theorem IsTree.unlinked (ht : s.IsTree t) (hu : s.IsTree u) (hdisjoint : t.nodes.Disjoint u.nodes) :
    s.Unlinked t u :=
  ⟨hdisjoint, fun n hn m hm l =>
    ⟨fun hl => hdisjoint (ht.closed n hn l m hl) hm, fun hl => hdisjoint hn (hu.closed m hm l n hl)⟩⟩

theorem Path.base_le {start : Option NodeId} {ns : List NodeId} (h : s.Path .next start ns)
    (hapart : s.Apart base) (hstart : ∀ m ∈ start, base ≤ m.index) : ∀ n ∈ ns, base ≤ n.index := by
  induction h with
  | nil => simp
  | @cons n ns _ ih =>
    have hn : base ≤ n.index := hstart n rfl
    exact List.forall_mem_cons.mpr ⟨hn, ih (hapart .next n hn)⟩

theorem Linked.base_le (h : s.Linked t) (hapart : s.Apart base) (hroot : base ≤ t.root.index) :
    ∀ n ∈ t.nodes, base ≤ n.index := by
  induction h with
  | @node n ts hchain _ _ _ ih =>
    rw [root_node] at hroot
    have hroots := hchain.path.base_le hapart (hapart .firstChild n hroot)
    rw [nodes_node, List.forall_mem_cons]
    refine ⟨hroot, fun m hm => ?_⟩
    obtain ⟨t, ht, hm⟩ := List.mem_flatMap.mp hm
    exact ih t ht (hroots t.root (List.mem_map_of_mem ht)) m hm

/-- What is represented stays so as long as nothing is written to its nodes. -/
theorem Represents.congr {root : NodeId} {t : OrderedTree (Label Value)} (h : s.Represents root t)
    (hlt : ∀ n ∈ (s.tree root).nodes, n.index < s'.size)
    (hlabel : ∀ n ∈ (s.tree root).nodes, s'.label n = s.label n)
    (hlink : ∀ n ∈ (s.tree root).nodes, ∀ l, s'.link l n = s.link l n) :
    s'.tree root = s.tree root ∧ s'.Represents root t := by
  have hisTree := h.isTree.congr hlink
  have htree := hisTree.linked.tree_eq h.isTree.nodup hlt
  rw [root_tree] at htree
  refine ⟨htree, ?_⟩
  constructor
  · rwa [htree]
  · rw [htree, map_congr hlabel, h.map_label]

end Store

inductive Call where
  | convert (digits : Option ℕ) (levels : ℕ) (source : Value)
  | build (digits : Option ℕ) (levels : ℕ) (source : Value) (options : BuildOptions)

namespace Call

def run : Call → Building NodeId
  | convert digits levels source => Building.ofConversion (DocTree.convert digits levels source)
  | build digits levels source options => DocTree.build digits levels source options

def tree : Call → OrderedTree (Label Value)
  | convert _ _ source => source.outline
  | build _ _ source options => source.finished options.mergeAdjacentItems

def root? (c : Call) (w : Workspace) : Option NodeId :=
  match c.run w with
  | .ok root _ => some root
  | .error _ _ => none

def after (c : Call) (w : Workspace) : Workspace :=
  match c.run w with
  | .ok _ w' => w'
  | .error _ w' => w'

def afterAll (calls : List Call) (w : Workspace) : Workspace :=
  calls.foldl (fun w c => c.after w) w

variable {base : ℕ} {w : Workspace} {root : NodeId}

theorem stays_run (c : Call) : Stays base c.run (base ≤ ·.index) := by
  cases c with
  | convert digits levels source =>
    exact Building.stays_ofConversion (Conversion.stays_convert digits levels source)
  | build digits levels source options => exact stays_build digits levels source options

theorem run_eq_ok {c : Call} (h : c.root? w = some root) : c.run w = .ok root (c.after w) := by
  unfold root? at h
  unfold after
  cases hrun : c.run w with
  | ok n w' =>
    rw [hrun] at h
    obtain rfl := Option.some.inj h
    rfl
  | error e w' =>
    rw [hrun] at h
    exact absurd h (by simp)

theorem writesFrom_after (c : Call) (hs : w.store.Apart base) (hbase : base ≤ w.store.size) :
    w.store.WritesFrom base (c.after w).store := by
  have hstays := c.stays_run w hs hbase
  unfold after
  cases h : c.run w with
  | ok n w' =>
    rw [h] at hstays
    exact hstays.1
  | error e w' =>
    rw [h] at hstays
    exact hstays

/-- However many calls follow, the nodes made before are left alone. -/
theorem writesFrom_afterAll (calls : List Call) (hs : w.store.Apart base)
    (hbase : base ≤ w.store.size) : w.store.WritesFrom base (afterAll calls w).store := by
  induction calls generalizing w with
  | nil => exact .refl hs
  | cons c calls ih =>
    have hstep := c.writesFrom_after hs hbase
    exact hstep.trans (ih hstep.apart (hbase.trans hstep.size_le))

/-- A call that succeeds gives its tree, and all nodes of that are new. -/
theorem represents_after {c : Call} (h : c.root? w = some root) :
    (c.after w).store.Represents root c.tree ∧
      ∀ n ∈ ((c.after w).store.tree root).nodes,
        w.store.size ≤ n.index ∧ n.index < (c.after w).store.size := by
  have hrun := run_eq_ok h
  have hmade : (c.after w).store.Represents root c.tree ∧ root.index < (c.after w).store.size := by
    cases c with
    | convert digits levels source =>
      rw [run, Building.ofConversion_apply] at hrun
      cases hconvert : DocTree.convert digits levels source w with
      | error e w' => simp [hconvert] at hrun
      | ok n w' =>
        simp only [hconvert] at hrun
        obtain ⟨rfl, hafter⟩ := EStateM.Result.ok.inj hrun
        obtain ⟨hrepresents, hnew⟩ := convert_represents hconvert
        rw [← hafter]
        refine ⟨hrepresents, (hnew n ?_).2⟩
        simpa using (w'.store.tree n).root_mem_nodes
    | build digits levels source options =>
      obtain ⟨n, w', hbuild, hlt, hrepresents⟩ :=
        builds_finished (fault?_eq_none_of_build hrun) options w
      obtain ⟨rfl, hafter⟩ := EStateM.Result.ok.inj (hrun.symm.trans hbuild)
      rw [hafter]
      exact ⟨hrepresents, hlt⟩
  have hstays := c.stays_run w w.store.apart_size (Nat.le_refl _)
  rw [hrun] at hstays
  refine ⟨hmade.1, fun n hn => ⟨?_, ?_⟩⟩
  · refine hmade.1.isTree.linked.base_le hstays.1.apart ?_ n hn
    rw [Store.root_tree]
    exact hstays.2
  · rw [nodes_eq_cons, List.mem_cons, Store.root_tree] at hn
    rcases hn with rfl | hn
    · exact hmade.2
    · exact hmade.1.isTree.linked.index_lt n hn

/-- From the state `a` the call `c` has led to `b` and given `root`; later, in the state `z`, the tree is
still there as it was made. -/
structure Kept (c : Call) (a b z : Store) (root : NodeId) : Prop where
  represents : b.Represents root c.tree
  isNew : ∀ n ∈ (b.tree root).nodes, a.size ≤ n.index ∧ n.index < b.size
  target_isNew : ∀ n ∈ (b.tree root).nodes, ∀ l, ∀ m ∈ b.link l n, a.size ≤ m.index
  tree_eq : z.tree root = b.tree root
  represents_later : z.Represents root c.tree
  label_eq : ∀ n ∈ (b.tree root).nodes, z.label n = b.label n
  link_eq : ∀ n ∈ (b.tree root).nodes, ∀ l, z.link l n = b.link l n

theorem kept_afterAll {c : Call} (h : c.root? w = some root) (later : List Call) :
    Kept c w.store (c.after w).store (afterAll later (c.after w)).store root := by
  obtain ⟨hrepresents, hnew⟩ := represents_after h
  have hlater := writesFrom_afterAll later (c.after w).store.apart_size (Nat.le_refl _)
  have hlabel : ∀ n ∈ ((c.after w).store.tree root).nodes, _ := fun n hn =>
    hlater.label_eq n (hnew n hn).2
  have hlink : ∀ n ∈ ((c.after w).store.tree root).nodes, _ := fun n hn =>
    hlater.link_eq n (hnew n hn).2
  obtain ⟨htree, hstays⟩ := hrepresents.congr
    (fun n hn => (hnew n hn).2.trans_le hlater.size_le) hlabel hlink
  refine ⟨hrepresents, hnew, fun n hn l m hm => ?_, htree, hstays, hlabel, hlink⟩
  exact (hnew m (hrepresents.isTree.closed n hn l m hm)).1

/-- The trees of two calls have no node in common and stay without links between them. -/
theorem unlinked_afterAll {c d : Call} {n : NodeId} (between later : List Call)
    (hc : c.root? w = some root) (hd : d.root? (afterAll between (c.after w)) = some n) :
    (afterAll (between ++ d :: later) (c.after w)).store.Unlinked
      ((c.after w).store.tree root)
      ((afterAll (between ++ d :: later) (c.after w)).store.tree n) := by
  have hfirst := kept_afterAll hc (between ++ d :: later)
  have hsecond := kept_afterAll hd later
  have hbetween := writesFrom_afterAll between (c.after w).store.apart_size (Nat.le_refl _)
  have hsplit : afterAll (between ++ d :: later) (c.after w) =
      afterAll later (d.after (afterAll between (c.after w))) := by
    simp only [afterAll, List.foldl_append, List.foldl_cons]
  rw [hsplit] at hfirst ⊢
  rw [← hfirst.tree_eq]
  refine hfirst.represents_later.isTree.unlinked hsecond.represents_later.isTree fun m hm hm' => ?_
  rw [hfirst.tree_eq] at hm
  rw [hsecond.tree_eq] at hm'
  have hold := (hfirst.isNew m hm).2
  have hnew := (hsecond.isNew m hm').1
  have hsize := hbetween.size_le
  omega

end Call

open Call

/-- Calls are isolated from each other and from what was there before. -/
theorem calls_isolated (w : Workspace) (front later : List Call) (c : Call) :
    let a := afterAll front w
    let b := c.after a
    let z := afterAll later b
    (∀ n, n.index < a.store.size →
      b.store.label n = a.store.label n ∧ ∀ l, b.store.link l n = a.store.link l n) ∧
    ∀ root, c.root? a = some root →
      Kept c a.store b.store z.store root ∧
      ∀ between d rest, later = between ++ d :: rest →
        ∀ n, d.root? (afterAll between b) = some n →
          z.store.Unlinked (b.store.tree root) (z.store.tree n) := by
  intro a b z
  have hcall := c.writesFrom_after a.store.apart_size (Nat.le_refl _)
  refine ⟨fun n hn => ⟨hcall.label_eq n hn, hcall.link_eq n hn⟩, fun root hroot => ?_⟩
  refine ⟨kept_afterAll hroot later, ?_⟩
  rintro between d rest hlater n hn
  have hunlinked := unlinked_afterAll between rest hroot hn
  rwa [← hlater] at hunlinked

/-- Two nodes that are each other's parent, the first one next to itself. -/
def tangled : Workspace :=
  ⟨((((Store.empty.push .paragraph).push .list).setLink .parent ⟨0⟩ (some ⟨1⟩)).setLink .parent ⟨1⟩
    (some ⟨0⟩)).setLink .next ⟨0⟩ (some ⟨0⟩), #[]⟩

/-- A section named by a node, over an item with a node as its level and an entity that holds a node. -/
def holdsNodes : Call :=
  .build (some 4300) 3 (.markup (.named
    (.list [.markup (.item (.list [.markup (.formatting (.str "E") (.node ⟨0⟩ .paragraph) .null)])
      .null (.node ⟨1⟩ .list))]) .null (.node ⟨0⟩ .paragraph))) ⟨true, false⟩

/-- A paragraph that is refused at its second element. -/
def halfRefused : Call :=
  .build (some 4300) 1 (.markup (.para (.list [.str "left", .null]) .null)) ⟨true, true⟩

theorem holdsNodes_isolated :
    holdsNodes.root? (afterAll [.convert none 0 .null] tangled) = some ⟨2⟩ ∧
    (Call.convert none 0 (.str "text")).root?
      (afterAll [halfRefused] (holdsNodes.after (afterAll [.convert none 0 .null] tangled))) = some ⟨8⟩ ∧
    Kept holdsNodes (afterAll [.convert none 0 .null] tangled).store
      (holdsNodes.after (afterAll [.convert none 0 .null] tangled)).store
      (afterAll [halfRefused, .convert none 0 (.str "text")]
        (holdsNodes.after (afterAll [.convert none 0 .null] tangled))).store ⟨2⟩ ∧
    (afterAll [halfRefused, .convert none 0 (.str "text")]
      (holdsNodes.after (afterAll [.convert none 0 .null] tangled))).store.Unlinked
      ((holdsNodes.after (afterAll [.convert none 0 .null] tangled)).store.tree ⟨2⟩)
      ((afterAll [halfRefused, .convert none 0 (.str "text")]
        (holdsNodes.after (afterAll [.convert none 0 .null] tangled))).store.tree ⟨8⟩) := by
  obtain ⟨-, h⟩ :=
    calls_isolated tangled [.convert none 0 .null] [halfRefused, .convert none 0 (.str "text")]
      holdsNodes
  obtain ⟨hkept, hunlinked⟩ := h ⟨2⟩ rfl
  exact ⟨rfl, rfl, hkept, hunlinked [halfRefused] _ [] rfl ⟨8⟩ rfl⟩

end DocTree
