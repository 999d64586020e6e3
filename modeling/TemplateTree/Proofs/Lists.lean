import TemplateTree.Token

/-!
# Lists and arrays that grow at their end

Facts about sequences to which something is appended and of which one place is
rewritten later, in the forms in which journals and tables of records use them,
about the middle of one and the front of what is left of one, about the place where a
list is parted, and about lists that are translated element by element.
-/

namespace TemplateTree

/-- Rewriting the place right behind an array rewrites the first element that
was appended to it. -/
theorem modify_append_cons {α : Type} (xs : Array α) (y : α) (ys : List α) (f : α → α) :
    (xs ++ (y :: ys).toArray).modify xs.size f = xs ++ (f y :: ys).toArray := by
  apply Array.toList_inj.mp
  rw [Array.toList_modify, List.modify_eq_take_cons_drop (by simp)]
  simp [List.drop_append]

theorem push_append_toArray {α : Type} (xs : Array α) (y : α) (ys : List α) :
    xs.push y ++ ys.toArray = xs ++ (y :: ys).toArray := by
  apply Array.toList_inj.mp
  simp

theorem drop_length_append {α : Type} (xs ys : List α) : (xs ++ ys).drop xs.length = ys := by
  rw [List.drop_append_of_le_length (Nat.le_refl _), List.drop_length, List.nil_append]

/-- What stands in the middle is found behind what stands before it. -/
theorem getElem?_middle {α : Type} {xs : List α} {j : Nat} {x : α} (before after : List α)
    (h : xs[j]? = some x) : (before ++ xs ++ after)[before.length + j]? = some x := by
  have hlt : j < xs.length := (List.getElem?_eq_some_iff.mp h).1
  rw [List.append_assoc, List.getElem?_append_right (Nat.le_add_right _ _),
    Nat.add_sub_cancel_left, List.getElem?_append_left hlt, h]

/-- What is in front is not the default. -/
theorem exists_eq_cons_of_headD {α : Type} {xs : List α} {d x : α} (h : xs.headD d = x)
    (hx : x ≠ d) : ∃ ys, xs = x :: ys := by
  cases xs with
  | nil => exact absurd h.symm hx
  | cons y ys => exact ⟨ys, congrArg (· :: ys) h⟩

theorem takeWhile_append_eq {α : Type} {p : α → Bool} {xs ys : List α} (hxs : ∀ x ∈ xs, p x = true)
    (hys : ∀ y, ys.head? = some y → p y = false) : (xs ++ ys).takeWhile p = xs := by
  rw [List.takeWhile_append_of_pos hxs]
  cases ys with
  | nil => simp
  | cons y ys => simp [hys y rfl]

/-- A list has one place where a condition first fails. -/
theorem append_inj_of_forall {α : Type} (p : α → Bool) {xs xs' ys ys' : List α}
    (hxs : ∀ x ∈ xs, p x = true) (hys : ∀ y, ys.head? = some y → p y = false)
    (hxs' : ∀ x ∈ xs', p x = true) (hys' : ∀ y, ys'.head? = some y → p y = false)
    (h : xs ++ ys = xs' ++ ys') : xs = xs' ∧ ys = ys' := by
  have hfront : xs = xs' := by
    rw [← takeWhile_append_eq hxs hys, h, takeWhile_append_eq hxs' hys']
  subst hfront
  exact ⟨rfl, List.append_cancel_left h⟩

theorem decide_ne_of_notMem {α : Type} [DecidableEq α] {a : α} {xs : List α} (h : a ∉ xs) :
    ∀ x ∈ xs, decide (x ≠ a) = true :=
  fun _ hx => decide_eq_true fun he => h (he ▸ hx)

/-- A list has one place where an element first stands. -/
theorem append_cons_inj_of_notMem {α : Type} [DecidableEq α] {a : α} {xs xs' ys ys' : List α}
    (hxs : a ∉ xs) (hxs' : a ∉ xs') (h : xs ++ a :: ys = xs' ++ a :: ys') :
    xs = xs' ∧ ys = ys' := by
  obtain ⟨rfl, htail⟩ := append_inj_of_forall (fun x => decide (x ≠ a))
    (decide_ne_of_notMem hxs) (by simp) (decide_ne_of_notMem hxs') (by simp) h
  exact ⟨rfl, (List.cons.inj htail).2⟩

theorem eq_of_map_eq_map {α β : Type} {f : α → β} {xs ys : List α}
    (hf : ∀ x ∈ xs, ∀ y ∈ ys, f x = f y → x = y) (h : xs.map f = ys.map f) : xs = ys := by
  induction xs generalizing ys with
  | nil => exact (List.map_eq_nil_iff.mp h.symm).symm
  | cons x xs ih =>
    obtain ⟨y, ys, rfl, hxy, htail⟩ := List.map_eq_cons_iff.mp h.symm
    rw [hf x List.mem_cons_self y List.mem_cons_self hxy.symm]
    rw [ih (fun x' hx y' hy => hf x' (List.mem_cons_of_mem _ hx) y' (List.mem_cons_of_mem _ hy))
      htail.symm]

/-- A list is translated if each of its elements is. -/
theorem isSome_mapM {α β : Type} {f : α → Option β} {xs : List α} (h : ∀ x ∈ xs, (f x).isSome) :
    (xs.mapM f).isSome := by
  induction xs with
  | nil => rfl
  | cons x xs ih =>
    rw [List.forall_mem_cons] at h
    obtain ⟨y, hy⟩ := Option.isSome_iff_exists.mp h.1
    obtain ⟨ys, hys⟩ := Option.isSome_iff_exists.mp (ih h.2)
    simp [List.mapM_cons, hy, hys]

theorem mapM_eq_some_map {α β : Type} {f : α → Option β} {g : α → β} {xs : List α}
    (h : ∀ x ∈ xs, f x = some (g x)) : xs.mapM f = some (xs.map g) := by
  induction xs with
  | nil => rfl
  | cons x xs ih =>
    rw [List.forall_mem_cons] at h
    simp [List.mapM_cons, h.1, ih h.2]

end TemplateTree
