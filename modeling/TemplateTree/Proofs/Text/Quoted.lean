import TemplateTree.Proofs.Lists
import TemplateTree.Text.Quoted

/-!
# What a quoted text tells

Every character is written in one of three ways, and each of these can be told from what
comes first, so the written forms of characters laid end to end can be taken apart again.
A text can therefore be read back from its quoted form, which keeps to one line.
-/

namespace TemplateTree.Text

section Digits

theorem toDigits_hex (n : Nat) :
    Nat.toDigits 16 n =
      (if n < 16 then [] else Nat.toDigits 16 (n / 16)) ++ [Nat.digitChar (n % 16)] := by
  rw [Nat.toDigits_eq_if (by decide)]
  split
  · rename_i hlt
    rw [Nat.mod_eq_of_lt hlt, List.nil_append]
  · rfl

theorem digitChar_injective : ∀ m < 16, ∀ n < 16, Nat.digitChar m = Nat.digitChar n → m = n := by
  decide

/-- A number can be read back from its hexadecimal digits. -/
theorem toDigits_hex_injective {m n : Nat} (h : Nat.toDigits 16 m = Nat.toDigits 16 n) :
    m = n := by
  induction m using Nat.strongRecOn generalizing n with
  | ind m ih =>
    rw [toDigits_hex m, toDigits_hex n] at h
    obtain ⟨hfront, hlast⟩ := List.append_inj' h rfl
    have hmod : m % 16 = n % 16 :=
      digitChar_injective _ (Nat.mod_lt _ (by decide)) _ (Nat.mod_lt _ (by decide))
        (List.singleton_inj.mp hlast)
    have hdiv : m / 16 = n / 16 := by
      -- A number of one digit has nothing in front of it, a greater one has some digits there.
      by_cases hm : m < 16 <;> by_cases hn : n < 16
      · omega
      · rw [if_pos hm, if_neg hn] at hfront
        exact absurd hfront.symm Nat.toDigits_ne_nil
      · rw [if_neg hm, if_pos hn] at hfront
        exact absurd hfront Nat.toDigits_ne_nil
      · rw [if_neg hm, if_neg hn] at hfront
        exact ih _ (by omega) hfront
    omega

theorem exists_digitChar_of_mem {n : Nat} {c : Char} (h : c ∈ Nat.toDigits 16 n) :
    ∃ d < 16, c = Nat.digitChar d := by
  induction n using Nat.strongRecOn with
  | ind n ih =>
    rw [toDigits_hex, List.mem_append, List.mem_singleton] at h
    rcases h with h | rfl
    · split at h
      · cases h
      · exact ih _ (by omega) h
    · exact ⟨_, Nat.mod_lt _ (by decide), rfl⟩

theorem digitChar_ne : ∀ d < 16, Nat.digitChar d ≠ '\x7d' ∧ Nat.digitChar d ≠ '\n' := by
  decide

end Digits

/-- The characters that are written as a backslash and a character, which is the second one. -/
def letters : List (Char × Char) :=
  [('\x00', '0'), ('\t', 't'), ('\n', 'n'), ('\r', 'r'), ('"', '"'), ('\\', '\\')]

theorem letters_injective : ∀ p ∈ letters, ∀ q ∈ letters, p.2 = q.2 → p.1 = q.1 := by
  decide

theorem letter_ne_u : ∀ p ∈ letters, p.2 ≠ 'u' := by
  decide

/-- The three ways to write a character. -/
inductive Written : Char → List Char → Prop
  | letter {c l : Char} : (c, l) ∈ letters → Written c ['\\', l]
  | itself {c : Char} : c ∉ letters.map (·.1) → Written c [c]
  | code {c : Char} : Written c ('\\' :: 'u' :: '\x7b' :: (Nat.toDigits 16 c.toNat ++ ['\x7d']))

theorem written_escape (c : Char) : Written c (escape c) := by
  unfold escape
  split
  · exact .letter (by decide)
  · exact .letter (by decide)
  · exact .letter (by decide)
  · exact .letter (by decide)
  · exact .letter (by decide)
  · exact .letter (by decide)
  · rename_i h₀ ht hn hr hq hb
    split
    · exact .itself (by simpa [letters] using ⟨h₀, ht, hn, hr, hq, hb⟩)
    · exact .code

namespace Written

variable {c c' : Char} {w w' xs ys : List Char}

theorem ne_nil (h : Written c w) : w ≠ [] := by
  cases h <;> simp

theorem lineFeed_not_mem (h : Written c w) : '\n' ∉ w := by
  cases h with
  | letter hc =>
    have hletter : ∀ p ∈ letters, '\n' ∉ ['\\', p.2] := by decide
    exact hletter _ hc
  | itself hc =>
    rintro hmem
    rw [← List.mem_singleton.mp hmem] at hc
    exact hc (by decide)
  | code =>
    intro hmem
    simp only [List.mem_cons, List.mem_append, List.not_mem_nil, or_false, Char.reduceEq,
      false_or] at hmem
    obtain ⟨d, hd, hdigit⟩ := exists_digitChar_of_mem hmem
    exact (digitChar_ne d hd).2 hdigit.symm

theorem not_backslash (h : c ∉ letters.map (·.1)) : c ≠ '\\' := by
  rintro rfl
  exact h (by decide)

/-- What is written and what comes behind it are seen from both together. -/
theorem append_inj (h : Written c w) (h' : Written c' w') (he : w ++ xs = w' ++ ys) :
    c = c' ∧ xs = ys := by
  cases h with
  | letter hc =>
    cases h' with
    | letter hc' =>
      simp only [List.cons_append, List.nil_append, List.cons.injEq, true_and] at he
      exact ⟨letters_injective _ hc _ hc' he.1, he.2⟩
    | itself hc' => exact absurd (List.cons.inj he).1.symm (not_backslash hc')
    | code => exact absurd (List.cons.inj (List.cons.inj he).2).1 (letter_ne_u _ hc)
  | itself hc =>
    cases h' with
    | letter hc' => exact absurd (List.cons.inj he).1 (not_backslash hc)
    | itself hc' => exact List.cons.inj he
    | code => exact absurd (List.cons.inj he).1 (not_backslash hc)
  | code =>
    cases h' with
    | letter hc' => exact absurd (List.cons.inj (List.cons.inj he).2).1.symm (letter_ne_u _ hc')
    | itself hc' => exact absurd (List.cons.inj he).1.symm (not_backslash hc')
    | code =>
      simp only [List.cons_append, List.append_assoc, List.nil_append, List.cons.injEq,
        true_and] at he
      have hbrace : ∀ {n : Nat}, '\x7d' ∉ Nat.toDigits 16 n := by
        intro n hmem
        obtain ⟨d, hd, hdigit⟩ := exists_digitChar_of_mem hmem
        exact (digitChar_ne d hd).1 hdigit.symm
      obtain ⟨hdigits, htail⟩ := append_cons_inj_of_notMem hbrace hbrace he
      exact ⟨Char.toNat_inj.mp (toDigits_hex_injective hdigits), htail⟩

end Written

theorem flatMap_escape_injective {xs ys : List Char} (h : xs.flatMap escape = ys.flatMap escape) :
    xs = ys := by
  induction xs generalizing ys with
  | nil =>
    cases ys with
    | nil => rfl
    | cons d ds => exact absurd (List.append_eq_nil_iff.mp h.symm).1 (written_escape d).ne_nil
  | cons c cs ih =>
    cases ys with
    | nil => exact absurd (List.append_eq_nil_iff.mp h).1 (written_escape c).ne_nil
    | cons d ds =>
      rw [List.flatMap_cons, List.flatMap_cons] at h
      obtain ⟨rfl, htail⟩ := (written_escape c).append_inj (written_escape d) h
      rw [ih htail]

/-- A text can be read back from its quoted form. -/
theorem quoted_injective {s s' : String} (h : quoted s = quoted s') : s = s' := by
  have hchars := (List.cons.inj (String.ofList_injective h)).2
  exact String.toList_injective (flatMap_escape_injective (List.append_cancel_right hchars))

/-- A quoted text keeps to one line. -/
theorem lineFeed_not_mem_quoted (s : String) : '\n' ∉ (quoted s).toList := by
  intro hmem
  simp only [quoted, String.toList_ofList, List.mem_cons, List.mem_append, List.mem_flatMap,
    List.not_mem_nil, or_false, Char.reduceEq, false_or] at hmem
  obtain ⟨c, -, hmem⟩ := hmem
  exact (written_escape c).lineFeed_not_mem hmem

end TemplateTree.Text
