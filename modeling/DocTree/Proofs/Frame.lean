import DocTree.Proofs.Build

/-!
What conversion and building leave alone, on any links whatever. Of the cells that are there beforehand
neither the label nor a link is written, and the cells made since hold no link back to them. As every node
that is moved, every neighbour and every parent is found by following links from a new node, no write
goes astray, whether a step succeeds or fails.
-/
namespace DocTree

open Workspace

/-- A place with no neighbour and no parent before `base`. -/
structure Position.From (base : ℕ) (place : Position) : Prop where
  parent_le : ∀ m ∈ place.parent, base ≤ m.index
  previous_le : ∀ m ∈ place.previous, base ≤ m.index
  next_le : ∀ m ∈ place.next, base ≤ m.index

namespace Store

/-- From the cell `base` on, no link leads to a cell before it. -/
def Apart (base : ℕ) (s : Store) : Prop :=
  ∀ l n, base ≤ n.index → ∀ m ∈ s.link l n, base ≤ m.index

/-- From `s` to `s'` the links of the cells before `base` stay, and those from there on do not lead back.
Labels are given once and for all. -/
structure WritesFrom (base : ℕ) (s s' : Store) : Prop where
  size_le : s.size ≤ s'.size
  label_eq : ∀ n, n.index < s.size → s'.label n = s.label n
  link_eq : ∀ n, n.index < base → ∀ l, s'.link l n = s.link l n
  apart : s'.Apart base

/-- The cells to come are apart from those that there are. -/
theorem apart_size (s : Store) : s.Apart s.size := by
  intro l n hn m hm
  rw [link_eq_none_of_size_le s l hn] at hm
  exact absurd hm (by simp)

variable {base : ℕ} {s s' s'' : Store}

theorem Apart.position_from (h : s.Apart base) {n : NodeId} (hn : base ≤ n.index) :
    (s.position n).From base :=
  ⟨h .parent n hn, h .previous n hn, h .next n hn⟩

namespace WritesFrom

theorem refl (h : s.Apart base) : WritesFrom base s s :=
  ⟨Nat.le_refl _, fun _ _ => rfl, fun _ _ _ => rfl, h⟩

theorem trans (h : WritesFrom base s s') (h' : WritesFrom base s' s'') : WritesFrom base s s'' where
  size_le := h.size_le.trans h'.size_le
  label_eq n hn := (h'.label_eq n (hn.trans_le h.size_le)).trans (h.label_eq n hn)
  link_eq n hn l := (h'.link_eq n hn l).trans (h.link_eq n hn l)
  apart := h'.apart

variable (h : WritesFrom base s s') {l : Link} {n p c : NodeId} {target : Option NodeId}
  {place : Position}

include h

theorem push (label : Label Value) : WritesFrom base s (s'.push label) where
  size_le := by
    rw [size_push]
    exact h.size_le.trans (Nat.le_succ _)
  label_eq n hn := by
    rw [label_push, if_neg (ne_fresh (hn.trans_le h.size_le)), h.label_eq n hn]
  link_eq n hn l := by rw [link_push, h.link_eq n hn l]
  apart l n hn := by
    rw [link_push]
    exact h.apart l n hn

theorem setLink (hn : base ≤ n.index) (htarget : ∀ m ∈ target, base ≤ m.index) :
    WritesFrom base s (s'.setLink l n target) where
  size_le := by
    rw [size_setLink]
    exact h.size_le.trans (Nat.le_max_left _ _)
  label_eq n hn := by rw [label_setLink, h.label_eq n hn]
  link_eq m hm k := by
    have hne : ¬ (l = k ∧ n = m) := fun he => absurd (he.2 ▸ hn) (Nat.not_le.mpr hm)
    rw [link_setLink, if_neg hne, h.link_eq m hm k]
  apart k m hm := by
    rw [link_setLink]
    split
    · exact htarget
    · exact h.apart k m hm

theorem append (hp : base ≤ p.index) (hc : base ≤ c.index) :
    WritesFrom base s (s'.append p c) := by
  have hplaced : WritesFrom base s ((s'.setLink .parent c (some p)).setLink .next c none) :=
    (h.setLink hc (by simpa)).setLink hc (by simp)
  unfold Store.append
  simp only
  split
  · rename_i tail htail
    have ht : base ≤ tail.index := hplaced.apart .lastChild p hp tail htail
    exact ((hplaced.setLink ht (by simpa)).setLink hc (by simpa)).setLink hp (by simpa)
  · exact ((hplaced.setLink hc (by simp)).setLink hp (by simpa)).setLink hp (by simpa)

theorem linkForward (hplace : place.From base) (htarget : ∀ m ∈ target, base ≤ m.index) :
    WritesFrom base s (s'.linkForward place target) := by
  unfold Store.linkForward
  split
  · rename_i left hleft
    exact h.setLink (hplace.previous_le left hleft) htarget
  · rename_i parent _ hparent
    exact h.setLink (hplace.parent_le parent hparent) htarget
  · exact h

theorem linkBackward (hplace : place.From base) (htarget : ∀ m ∈ target, base ≤ m.index) :
    WritesFrom base s (s'.linkBackward place target) := by
  unfold Store.linkBackward
  split
  · rename_i right hright
    exact h.setLink (hplace.next_le right hright) htarget
  · rename_i parent _ hparent
    exact h.setLink (hplace.parent_le parent hparent) htarget
  · exact h

theorem setPosition (hn : base ≤ n.index) (hplace : place.From base) :
    WritesFrom base s (s'.setPosition n place) :=
  ((h.setLink hn hplace.parent_le).setLink hn hplace.previous_le).setLink hn hplace.next_le

theorem replaceAt (hplace : place.From base) (hn : base ≤ n.index) :
    WritesFrom base s (s'.replaceAt place n) :=
  ((h.setPosition hn hplace).linkForward hplace (by simpa)).linkBackward hplace (by simpa)

theorem remove (hn : base ≤ n.index) : WritesFrom base s (s'.remove n) := by
  have hplace := h.apart.position_from hn
  unfold Store.remove
  simp only
  split
  · exact h
  · exact ((h.linkForward hplace hplace.next_le).linkBackward hplace hplace.previous_le).setPosition hn
      ⟨by simp, by simp, by simp⟩

end WritesFrom

/-! Wrapping follows links from the root and from the nodes it makes. -/

variable {n : NodeId}

theorem WritesFrom.wrap (h : WritesFrom base s s') (hbase : base ≤ s'.size) (hn : base ≤ n.index) :
    WritesFrom base s (s'.wrap n) :=
  ((h.push .list).append hbase hn).replaceAt (h.apart.position_from hn) hbase

theorem WritesFrom.settle (h : WritesFrom base s s') (hbase : base ≤ s'.size) (merge : Bool)
    (owner : NodeId) {child : NodeId} {joinable : Option NodeId} (hchild : base ≤ child.index)
    (hjoinable : ∀ m ∈ joinable, base ≤ m.index) :
    WritesFrom base s (s'.settle merge owner child joinable).store ∧
      ∀ m ∈ (s'.settle merge owner child joinable).joinable, base ≤ m.index := by
  unfold Store.settle
  split
  · simpa using h
  · cases joinable with
    | some list =>
      have hlist : base ≤ list.index := hjoinable list rfl
      have hjoin := (h.remove hchild).append hlist hchild
      simpa using ⟨hjoin, hlist⟩
    | none =>
      have hwrap := h.wrap hbase hchild
      have hfresh : base ≤ s'.fresh.index := hbase
      cases merge with
      | false => simpa using hwrap
      | true => simpa using ⟨hwrap, hfresh⟩

/-- The links that a pass follows never lead out of the new cells. -/
theorem Apart.wrapFrom (h : s.Apart base) (hbase : base ≤ s.size) {merge : Bool} {bound made : ℕ}
    {owner : NodeId} {child joinable : Option NodeId} (hchild : ∀ m ∈ child, base ≤ m.index)
    (hjoinable : ∀ m ∈ joinable, base ≤ m.index)
    (hrun : wrapFrom merge bound s owner child joinable = some (s', made)) :
    WritesFrom base s s' := by
  induction bound generalizing s owner child joinable s' made with
  | zero =>
    cases child with
    | none =>
      simp only [Store.wrapFrom, Option.some.injEq, Prod.mk.injEq] at hrun
      exact hrun.1 ▸ .refl h
    | some c => simp [Store.wrapFrom] at hrun
  | succ bound ih =>
    cases child with
    | none =>
      simp only [Store.wrapFrom, Option.some.injEq, Prod.mk.injEq] at hrun
      exact hrun.1 ▸ .refl h
    | some c =>
      have hc : base ≤ c.index := hchild c rfl
      obtain ⟨s₁, below, after, hbelow, hafter, -⟩ := exists_of_wrapFrom_succ hrun
      have hstep := ih h hbase (h .firstChild c hc) (by simp) hbelow
      have hbase₁ := hbase.trans hstep.size_le
      obtain ⟨hsettle, hopen⟩ := hstep.settle hbase₁ merge owner hc hjoinable
      -- the next sibling was read before anything was written, and is apart as well
      exact hsettle.trans
        (ih hsettle.apart (hbase.trans hsettle.size_le) (h .next c hc) hopen hafter)

theorem Apart.wrapItems (h : s.Apart base) (hbase : base ≤ s.size) {root : NodeId} {merge : Bool}
    {made : ℕ} (hroot : base ≤ root.index) (hrun : s.wrapItems root merge = some (s', made)) :
    WritesFrom base s s' :=
  h.wrapFrom hbase (h .firstChild root hroot) (by simp) hrun

theorem Apart.wrapRoot (h : s.Apart base) (hbase : base ≤ s.size) {root : NodeId}
    (hroot : base ≤ root.index) :
    WritesFrom base s (s.wrapRoot root).1 ∧ base ≤ (s.wrapRoot root).2.index := by
  have hfresh : base ≤ s.fresh.index := hbase
  have hwrap := ((WritesFrom.refl h).push .list).append hfresh hroot
  unfold Store.wrapRoot
  split
  · simp only
    exact ⟨hwrap, hfresh⟩
  · exact ⟨.refl h, hroot⟩

end Store

open Store

/-- Whatever comes of the step, it writes from `base` on only, and a result has the property. -/
def Stays {ε α : Type} (base : ℕ) (x : EStateM ε Workspace α) (P : α → Prop) : Prop :=
  ∀ w, w.store.Apart base → base ≤ w.store.size →
    match x w with
    | .ok a w' => w.store.WritesFrom base w'.store ∧ P a
    | .error _ w' => w.store.WritesFrom base w'.store

namespace Stays

variable {ε α β : Type} {base : ℕ} {P : α → Prop} {Q : β → Prop}

theorem pure {a : α} (h : P a) : Stays base (pure a : EStateM ε Workspace α) P :=
  fun _ hs _ => ⟨.refl hs, h⟩

theorem throw (e : ε) : Stays base (throw e : EStateM ε Workspace α) P := fun _ hs _ => .refl hs

theorem bind {x : EStateM ε Workspace α} {k : α → EStateM ε Workspace β} (hx : Stays base x P)
    (hk : ∀ a, P a → Stays base (k a) Q) : Stays base (x >>= k) Q := by
  intro w hs hbase
  have hxw := hx w hs hbase
  rw [bind_eq]
  cases h : x w with
  | error e w' =>
    rw [h] at hxw
    exact hxw
  | ok a w' =>
    rw [h] at hxw
    obtain ⟨hwrites, ha⟩ := hxw
    have hkw := hk a ha w' hwrites.apart (hbase.trans hwrites.size_le)
    simp only
    cases h' : k a w' with
    | error e w'' =>
      rw [h'] at hkw
      exact hwrites.trans hkw
    | ok b w'' =>
      rw [h'] at hkw
      exact ⟨hwrites.trans hkw.1, hkw.2⟩

theorem newNode (label : Label Value) :
    Stays base (newNode label : EStateM ε Workspace NodeId) (base ≤ ·.index) :=
  fun _ hs hbase => ⟨(WritesFrom.refl hs).push label, hbase⟩

theorem record (event : Event) :
    Stays base (record event : EStateM ε Workspace Unit) fun _ => True :=
  fun _ hs _ => ⟨.refl hs, trivial⟩

theorem onlyIf {x : EStateM ε Workspace Unit} (hx : Stays base x fun _ => True)
    (condition : Bool) : Stays base (onlyIf condition x) fun _ => True := by
  cases condition with
  | false => exact .pure trivial
  | true => exact hx

end Stays

/-! Every rule of conversion makes its nodes itself. -/

namespace Conversion

variable {base : ℕ}

theorem Quiet.stays {α : Type} {x : Conversion α} {P : α → Prop} (h : Quiet x P) :
    Stays base x P := by
  intro w hs _
  have hw := h w
  cases hx : x w with
  | error e w' =>
    rw [hx] at hw
    simpa only [hw] using WritesFrom.refl hs
  | ok a w' =>
    rw [hx] at hw
    simpa only [hw.1] using And.intro (WritesFrom.refl hs) hw.2

theorem stays_appendTo {parent child : NodeId} (hparent : base ≤ parent.index)
    (hchild : base ≤ child.index) : Stays base (appendTo parent child) fun _ => True := by
  intro w hs _
  have hwrites := (WritesFrom.refl hs).append hparent hchild
  have hrun : appendTo parent child w =
      .ok () { w with store := w.store.append parent child } := rfl
  simp only [hrun]
  exact ⟨hwrites, trivial⟩

section Rules

variable {inner : Value → Conversion NodeId}
  (hinner : ∀ v, Stays base (inner v) (base ≤ ·.index))

include hinner

theorem stays_appendEach {parent : NodeId} (hparent : base ≤ parent.index) (vs : List Value) :
    Stays base (appendEach inner parent vs) fun _ => True := by
  induction vs with
  | nil => exact .pure trivial
  | cons v vs ih =>
    exact (hinner v).bind fun child hchild => (stays_appendTo hparent hchild).bind fun _ _ => ih

theorem stays_branch (label : Label Value) (contents : Value) :
    Stays base (branch inner label contents) (base ≤ ·.index) :=
  (Stays.newNode label).bind fun _ htarget => (quiet_elements contents).stays.bind fun parts _ =>
    (stays_appendEach hinner htarget parts).bind fun _ _ => .pure htarget

theorem stays_cell (v : Value) : Stays base (cell inner v) (base ≤ ·.index) :=
  (Stays.newNode .tableData).bind fun _ hdata => (hinner v).bind fun _ hchild =>
    (stays_appendTo hdata hchild).bind fun _ _ => .pure hdata

theorem stays_row (label : Label Value) (v : Value) :
    Stays base (row inner label v) (base ≤ ·.index) :=
  stays_branch (stays_cell hinner) label v

theorem stays_table (headers rows : Value) :
    Stays base (table inner headers rows) (base ≤ ·.index) := by
  refine (Stays.newNode .table).bind fun target htarget => ?_
  have hheader : Stays base (row inner .tableHeader headers >>= appendTo target) fun _ => True :=
    (stays_row hinner .tableHeader headers).bind fun _ hrow => stays_appendTo htarget hrow
  have hbody : Stays base (branch (row inner .tableBodyRow) .tableBody rows >>= appendTo target)
      fun _ => True :=
    (stays_branch (stays_row hinner .tableBodyRow) .tableBody rows).bind fun _ hrow =>
      stays_appendTo htarget hrow
  exact (hheader.onlyIf _).bind fun _ _ => (hbody.onlyIf _).bind fun _ _ =>
    (quiet_length headers).stays.bind fun _ _ => (quiet_length rows).stays.bind fun _ _ =>
      (Stays.record _).bind fun _ _ => .pure htarget

theorem stays_formatting (digits : Option ℕ) (levels : ℕ) (code contents extra : Value) :
    Stays base (formatting digits levels inner code contents extra) (base ≤ ·.index) := by
  unfold formatting
  split
  · exact stays_branch hinner .bold contents
  · exact stays_branch hinner .code contents
  · exact .newNode _
  · exact (quiet_linkTarget digits levels contents extra).stays.bind fun _ _ => stays_branch hinner _ _
  · exact stays_branch hinner .reference contents
  · exact (quiet_display digits levels code).stays.bind fun _ _ => (Stays.record _).bind fun _ _ =>
      stays_branch hinner _ contents

theorem stays_rule (digits : Option ℕ) (levels : ℕ) (m : Markup Value) :
    Stays base (rule digits levels inner m) (base ≤ ·.index) := by
  cases m with
  | block => exact .throw _
  | table contents config headers caption => exact stays_table hinner headers contents
  | formatting code contents extra => exact stays_formatting hinner digits levels code contents extra
  | named contents | para contents | code contents | comment contents | heading contents
  | item contents => exact stays_branch hinner _ contents

end Rules

theorem stays_convert (digits : Option ℕ) (levels : ℕ) (v : Value) :
    Stays base (convert digits levels v) (base ≤ ·.index) := by
  induction levels generalizing v with
  | zero =>
    cases v with
    | str s => exact .newNode _
    | _ => exact .throw _
  | succ levels ih =>
    cases v with
    | str s => exact .newNode _
    | markup m =>
      exact (stays_rule ih digits (levels + 1) m).bind fun _ htarget =>
        (quiet_recordConverted m.markupClass _).stays.bind fun _ _ => .pure htarget
    | _ => exact .throw _

end Conversion

/-! Wrapping and checking come after the conversion, on what that has made. -/

namespace Building

variable {base : ℕ}

theorem stays_ofConversion {α : Type} {c : Conversion α} {P : α → Prop} (hc : Stays base c P) :
    Stays base (ofConversion c) P := by
  intro w hs hbase
  have hcw := hc w hs hbase
  rw [ofConversion_apply]
  cases h : c w <;> simpa only [h] using hcw

theorem stays_wrapRoot {root : NodeId} (hroot : base ≤ root.index) :
    Stays base (wrapRoot root) (base ≤ ·.index) := by
  intro w hs hbase
  obtain ⟨trace, hrun⟩ := wrapRoot_apply root w
  rw [hrun]
  exact hs.wrapRoot hbase hroot

theorem stays_wrapItems {root : NodeId} (hroot : base ≤ root.index) (merge : Bool) :
    Stays base (wrapItems root merge) fun _ => True := by
  intro w hs hbase
  cases h : w.store.wrapItems root merge with
  | none =>
    have hrun : wrapItems root merge w = .error .circular w := by
      rw [wrapItems, bind_eq, get_apply]
      simp only [h]
      rfl
    rw [hrun]
    exact .refl hs
  | some result =>
    rw [wrapItems_apply h]
    exact ⟨hs.wrapItems hbase hroot h, trivial⟩

theorem stays_check (root : NodeId) : Stays base (check root) fun _ => True := by
  intro w hs _
  cases h : w.store.check root with
  | ok =>
    rw [check_apply h]
    exact ⟨.refl hs, trivial⟩
  | error v =>
    have hrun : check root w = .error (.inconsistent v) w := by
      rw [check, bind_eq, get_apply]
      simp only [h]
      rfl
    rw [hrun]
    exact .refl hs

end Building

variable {base : ℕ}

/-- A build writes to new cells only, and its root is new. -/
theorem stays_build (digits : Option ℕ) (levels : ℕ) (source : Value) (options : BuildOptions) :
    Stays base (build digits levels source options) (base ≤ ·.index) :=
  (Building.stays_ofConversion (Conversion.stays_convert digits levels source)).bind fun _ hconverted =>
    (Building.stays_wrapRoot hconverted).bind fun root hroot =>
      (Building.stays_wrapItems hroot _).bind fun _ _ => (Stays.record _).bind fun _ _ =>
        ((Building.stays_check root).onlyIf _).bind fun _ _ => (Stays.record _).bind fun _ _ =>
          .pure hroot

end DocTree
