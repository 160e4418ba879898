import KeyBindings.Pattern.Token

/-!
# Flat bindings, where the plus sign may be a key

With logical names `+` may itself be the name of a key. In the flat form a single `+` separates
names and a doubled `++` NAMES the plus key; there is no arrow, so `>` is an ordinary character.
Plus signs are paired from the left: `+++` is the plus key followed by a separator.
-/

namespace KeyBindings

namespace Escaped

/-- The name of the plus key. -/
def plusKey : Input := "+"

/-- The names of a text, where `word` is what has been read of the current name, backwards. -/
def namesFrom (word : List Char) : List Char → List Input
  | [] => (nameIn word.reverse).toList
  | '+' :: '+' :: cs => (nameIn word.reverse).toList ++ plusKey :: namesFrom [] cs
  | '+' :: cs => (nameIn word.reverse).toList ++ namesFrom [] cs
  | c :: cs => namesFrom (c :: word) cs

/-- The names of a flat binding, in order. -/
def names (binding : String) : List Input := namesFrom [] binding.toList

/-- A stretch without plus signs joins the current name. -/
theorem namesFrom_append {stretch : List Char} (h : ∀ c ∈ stretch, c ≠ '+') (word cs : List Char) :
    namesFrom word (stretch ++ cs) = namesFrom (stretch.reverse ++ word) cs := by
  induction stretch generalizing word with
  | nil => rfl
  | cons c stretch ih =>
    have hc : c ≠ '+' := h c List.mem_cons_self
    rw [List.cons_append, namesFrom, ih fun x hx => h x (List.mem_cons_of_mem c hx)]
    · simp
    · rintro cs' rfl
      exact absurd rfl hc
    · exact hc

end Escaped

end KeyBindings
