/-!
# Totals

A quantity summed up over the elements of a list, such as the bytes or the
columns of a run of characters.
-/

namespace TemplateTree

variable {α : Type} (measure : α → Nat)

/-- What the elements of a list measure together. -/
def total : List α → Nat
  | [] => 0
  | a :: as => measure a + total as

@[simp] theorem total_nil : total measure [] = 0 := rfl

@[simp] theorem total_cons (a : α) (as : List α) :
    total measure (a :: as) = measure a + total measure as := rfl

@[simp] theorem total_append (as bs : List α) :
    total measure (as ++ bs) = total measure as + total measure bs := by
  induction as with
  | nil => rw [List.nil_append, total_nil, Nat.zero_add]
  | cons a as ih => rw [List.cons_append, total_cons, total_cons, ih, Nat.add_assoc]

end TemplateTree
