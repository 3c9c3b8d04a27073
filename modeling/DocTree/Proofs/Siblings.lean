import Mathlib.Data.List.Nodup

/-!
Neighbours in a list without repetitions. The element behind and the element in front of a given one
are read off the list, and it is said how they change when an element is put at the end, taken out or
exchanged for another. Lists of children change in these three ways only.
-/
namespace DocTree.Siblings

variable {α β : Type} [DecidableEq α] [DecidableEq β]

def after? (x : α) : List α → Option α
  | [] => none
  | y :: ys => if y = x then ys.head? else after? x ys

def before? (x : α) (xs : List α) : Option α := after? x xs.reverse

omit [DecidableEq α] in
/-- The last of a list with something in front of it. -/
theorem getLast?_cons_or (x : α) (xs : List α) (before : Option α) :
    (x :: xs).getLast?.or before = xs.getLast?.or (some x) := by
  rw [List.getLast?_cons]
  cases xs.getLast? <;> rfl

theorem after?_append_cons {x : α} {xs : List α} (ys : List α) (h : x ∉ xs) :
    after? x (xs ++ x :: ys) = ys.head? := by
  induction xs with
  | nil => simp [after?]
  | cons z zs ih =>
    have hz : z ≠ x := fun he => h (he ▸ List.mem_cons_self ..)
    simpa [after?, hz] using ih fun hm => h (List.mem_cons_of_mem _ hm)

theorem before?_append_cons {x : α} {ys : List α} (xs : List α) (h : x ∉ ys) :
    before? x (xs ++ x :: ys) = xs.getLast? := by
  have hrev : (xs ++ x :: ys).reverse = ys.reverse ++ x :: xs.reverse := by simp
  rw [before?, hrev, after?_append_cons _ (by simpa using h), List.head?_reverse]

theorem after?_eq_none_of_notMem {x : α} {xs : List α} (h : x ∉ xs) : after? x xs = none := by
  induction xs with
  | nil => rfl
  | cons y ys ih =>
    have hy : y ≠ x := fun he => h (he ▸ List.mem_cons_self ..)
    simpa [after?, hy] using ih fun hm => h (List.mem_cons_of_mem _ hm)

omit [DecidableEq α] in
/-- An element of a list without repetitions parts the list in two. -/
theorem exists_split {x : α} {xs : List α} (hx : x ∈ xs) (h : xs.Nodup) :
    ∃ left right, xs = left ++ x :: right ∧ x ∉ left ∧ x ∉ right := by
  obtain ⟨left, right, rfl⟩ := List.append_of_mem hx
  have hsplit := List.nodup_append.mp h
  refine ⟨left, right, rfl, ?_, (List.nodup_cons.mp hsplit.2.1).1⟩
  exact fun hm => hsplit.2.2 x hm x (List.mem_cons_self ..) rfl

theorem after?_eq_some_iff {x y : α} {xs : List α} (h : xs.Nodup) :
    after? x xs = some y ↔ ∃ left right, xs = left ++ x :: y :: right := by
  constructor
  · intro hy
    have hx : x ∈ xs := by
      by_contra hx
      simp [after?_eq_none_of_notMem hx] at hy
    obtain ⟨left, right, rfl, hleft, -⟩ := exists_split hx h
    rw [after?_append_cons right hleft] at hy
    obtain ⟨tail, rfl⟩ := List.head?_eq_some_iff.mp hy
    exact ⟨left, tail, rfl⟩
  · rintro ⟨left, right, rfl⟩
    refine after?_append_cons _ fun hm => ?_
    exact (List.nodup_append.mp h).2.2 x hm x (List.mem_cons_self ..) rfl

theorem before?_eq_some_iff {x y : α} {xs : List α} (h : xs.Nodup) :
    before? y xs = some x ↔ ∃ left right, xs = left ++ x :: y :: right := by
  rw [before?, after?_eq_some_iff (List.nodup_reverse.mpr h)]
  constructor
  · rintro ⟨left, right, he⟩
    exact ⟨right.reverse, left.reverse, by simpa using congrArg List.reverse he⟩
  · rintro ⟨left, right, rfl⟩
    exact ⟨right.reverse, left.reverse, by simp⟩

/-- Neighbours are neighbours of each other. -/
theorem before?_eq_some_iff_after? {x y : α} {xs : List α} (h : xs.Nodup) :
    before? y xs = some x ↔ after? x xs = some y := by
  rw [before?_eq_some_iff h, after?_eq_some_iff h]

theorem after?_ne_self {xs : List α} (h : xs.Nodup) (x : α) : after? x xs ≠ some x := by
  intro he
  obtain ⟨left, right, rfl⟩ := (after?_eq_some_iff h).mp he
  simp [List.nodup_append] at h

theorem before?_ne_self {xs : List α} (h : xs.Nodup) (x : α) : before? x xs ≠ some x := by
  rw [Ne, before?_eq_some_iff_after? h]
  exact after?_ne_self h x

theorem after?_eq_none_iff {x : α} {xs : List α} (hx : x ∈ xs) (h : xs.Nodup) :
    after? x xs = none ↔ xs.getLast? = some x := by
  obtain ⟨left, right, rfl, hleft, hright⟩ := exists_split hx h
  rw [after?_append_cons right hleft, List.getLast?_append_cons]
  cases right with
  | nil => simp
  | cons y ys =>
    have hne : (x :: y :: ys).getLast? ≠ some x := by
      intro he
      rw [List.getLast?_cons_cons] at he
      exact hright (List.mem_of_getLast? he)
    simpa using hne

theorem before?_eq_none_iff {x : α} {xs : List α} (hx : x ∈ xs) (h : xs.Nodup) :
    before? x xs = none ↔ xs.head? = some x := by
  rw [before?, after?_eq_none_iff (List.mem_reverse.mpr hx) (List.nodup_reverse.mpr h),
    List.getLast?_reverse]

/-! Putting an element at the end. -/

theorem after?_concat {xs : List α} {c : α} (h : (xs ++ [c]).Nodup) (x : α) :
    after? x (xs ++ [c]) = if xs.getLast? = some x then some c else after? x xs := by
  have hxs : xs.Nodup := (List.nodup_append.mp h).1
  have hc : c ∉ xs := fun hm => (List.nodup_append.mp h).2.2 c hm c (by simp) rfl
  by_cases hx : x ∈ xs
  · have hlast := after?_eq_none_iff hx hxs
    obtain ⟨left, right, rfl, hleft, -⟩ := exists_split hx hxs
    rw [after?_append_cons right hleft] at hlast
    rw [List.append_assoc, List.cons_append, after?_append_cons _ hleft,
      after?_append_cons right hleft]
    simp only [← hlast]
    cases right <;> simp
  · have hlast : xs.getLast? ≠ some x := fun he => hx (List.mem_of_getLast? he)
    rw [if_neg hlast, after?_eq_none_of_notMem hx]
    by_cases hxc : x = c
    · subst hxc
      rw [after?_append_cons [] hc]
      rfl
    · exact after?_eq_none_of_notMem (by simp [hx, hxc])

theorem before?_concat (xs : List α) (c x : α) :
    before? x (xs ++ [c]) = if c = x then xs.getLast? else before? x xs := by
  simp [before?, after?]

/-! Taking an element out. -/

theorem after?_erase {xs : List α} (h : xs.Nodup) {v x : α} (hx : x ≠ v) :
    after? x (xs.erase v) = if after? x xs = some v then after? v xs else after? x xs := by
  induction xs with
  | nil => simp [after?]
  | cons y ys ih =>
    have hy : y ∉ ys := (List.nodup_cons.mp h).1
    have hys : ys.Nodup := (List.nodup_cons.mp h).2
    by_cases hyv : y = v
    · subst hyv
      have hne : after? x ys ≠ some y := by
        intro he
        obtain ⟨left, right, rfl⟩ := (after?_eq_some_iff hys).mp he
        simp at hy
      simp [after?, hne, hx.symm]
    · rw [List.erase_cons_tail (by simpa using hyv)]
      by_cases hyx : y = x
      · subst hyx
        cases ys with
        | nil => simp [after?]
        | cons z zs =>
          by_cases hzv : z = v
          · subst hzv
            simp [after?, hyv]
          · simp [after?, List.erase_cons_tail, hzv]
      · simp only [after?, hyx, hyv, if_false]
        exact ih hys

theorem before?_erase {xs : List α} (h : xs.Nodup) {v x : α} (hx : x ≠ v) :
    before? x (xs.erase v) = if before? x xs = some v then before? v xs else before? x xs := by
  have hrev : (xs.erase v).reverse = xs.reverse.erase v := by
    rw [h.erase_eq_filter, (List.nodup_reverse.mpr h).erase_eq_filter, List.filter_reverse]
  rw [before?, hrev]
  exact after?_erase (List.nodup_reverse.mpr h) hx

theorem head?_erase {xs : List α} (v : α) :
    (xs.erase v).head? = if xs.head? = some v then after? v xs else xs.head? := by
  cases xs with
  | nil => simp
  | cons y ys =>
    by_cases hyv : y = v
    · subst hyv
      simp [after?]
    · simp [List.erase_cons_tail, hyv]

theorem getLast?_erase {xs : List α} (h : xs.Nodup) (v : α) :
    (xs.erase v).getLast? = if xs.getLast? = some v then before? v xs else xs.getLast? := by
  have hrev : (xs.erase v).reverse = xs.reverse.erase v := by
    rw [h.erase_eq_filter, (List.nodup_reverse.mpr h).erase_eq_filter, List.filter_reverse]
  rw [← List.head?_reverse, hrev, head?_erase, List.head?_reverse]
  rfl

/-! Exchanging elements. -/

theorem after?_map {σ : α → β} {x : α} {xs : List α} (h : ∀ y ∈ xs, σ y = σ x → y = x) :
    after? (σ x) (xs.map σ) = (after? x xs).map σ := by
  induction xs with
  | nil => rfl
  | cons y ys ih =>
    have htail : ∀ z ∈ ys, σ z = σ x → z = x := fun z hz => h z (List.mem_cons_of_mem _ hz)
    by_cases hyx : y = x
    · subst hyx
      simp [after?]
    · have hσ : σ y ≠ σ x := fun he => hyx (h y (List.mem_cons_self ..) he)
      simpa [after?, hyx, hσ] using ih htail

theorem before?_map {σ : α → β} {x : α} {xs : List α} (h : ∀ y ∈ xs, σ y = σ x → y = x) :
    before? (σ x) (xs.map σ) = (before? x xs).map σ := by
  rw [before?, ← List.map_reverse]
  exact after?_map fun y hy => h y (List.mem_reverse.mp hy)

end DocTree.Siblings
