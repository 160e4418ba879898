/-!
# Association lists

Entries of a key and a value; the first entry of a key counts. `value?` looks a key up, `without`
takes all entries of a key out, `replace` gives a key a new value. **`value?_without`** and
**`value?_replace`** say what each change does to each key.
-/

namespace KeyBindings.Association

variable {κ ν : Type} [DecidableEq κ]

/-- The value of a key. -/
def value? (entries : List (κ × ν)) (key : κ) : Option ν :=
  (entries.find? (·.1 = key)).map (·.2)

/-- The entries of all other keys. -/
def without (entries : List (κ × ν)) (key : κ) : List (κ × ν) := entries.filter (·.1 ≠ key)

/-- The entries with a key given a value. -/
def replace (entries : List (κ × ν)) (key : κ) (value : ν) : List (κ × ν) :=
  (key, value) :: without entries key

@[simp] theorem value?_nil (key : κ) : value? ([] : List (κ × ν)) key = none := rfl

theorem value?_cons (entry : κ × ν) (entries : List (κ × ν)) (key : κ) :
    value? (entry :: entries) key = if entry.1 = key then some entry.2 else value? entries key := by
  by_cases h : entry.1 = key <;> simp [value?, h]

/-- **A key taken out has no value, and no other key is touched.** -/
theorem value?_without (entries : List (κ × ν)) (key other : κ) :
    value? (without entries key) other = if other = key then none else value? entries other := by
  induction entries with
  | nil => simp [without]
  | cons entry entries ih =>
    rw [without] at ih ⊢
    by_cases h : entry.1 = key
    · rw [List.filter_cons_of_neg (by simpa using h), ih, value?_cons]
      by_cases ho : other = key
      · simp [ho]
      · have : entry.1 ≠ other := fun e => ho (e ▸ h)
        simp [this]
    · rw [List.filter_cons_of_pos (by simpa using h), value?_cons, value?_cons, ih]
      by_cases ho : other = key
      · have : entry.1 ≠ other := fun e => h (e.trans ho)
        simp [ho, h]
      · simp [ho]

/-- **A key given a value has it, and no other key is touched.** -/
theorem value?_replace (entries : List (κ × ν)) (key other : κ) (value : ν) :
    value? (replace entries key value) other =
      if other = key then some value else value? entries other := by
  rw [replace, value?_cons, value?_without]
  by_cases h : other = key
  · simp [h]
  · have h' : key ≠ other := fun e => h e.symm
    simp [h, h']

end KeyBindings.Association
