/-!
# Keyed lists

Values under keys, in the order in which the keys came. Where a key stands more than once, the
first value counts.
-/

namespace SymbolIndex

abbrev KeyedList (β : Type) := List (String × β)

namespace KeyedList

variable {β : Type}

/-- The value under a key. -/
def value? (entries : KeyedList β) (key : String) : Option β :=
  entries.lookup key

/-- Puts a value in the place of the one under its key, or at the end. -/
def put (key : String) (value : β) : KeyedList β → KeyedList β
  | [] => [(key, value)]
  | entry :: rest => if entry.1 = key then (key, value) :: rest else entry :: put key value rest

/-- Takes all values of a key away. -/
def remove (entries : KeyedList β) (key : String) : KeyedList β :=
  entries.filter fun entry => entry.1 != key

@[simp]
theorem value?_nil (key : String) : value? ([] : KeyedList β) key = none := rfl

theorem value?_cons (entry : String × β) (rest : KeyedList β) (key : String) :
    value? (entry :: rest) key = if entry.1 = key then some entry.2 else value? rest key := by
  rw [value?, List.lookup_cons]
  by_cases heq : entry.1 = key
  · simp [heq]
  · have hne : (key == entry.1) = false := by simpa using fun h => heq h.symm
    simp [value?, heq, hne]

@[simp]
theorem value?_put_self (entries : KeyedList β) (key : String) (value : β) :
    value? (put key value entries) key = some value := by
  induction entries with
  | nil => simp [put, value?_cons]
  | cons entry rest ih =>
    by_cases heq : entry.1 = key <;> simp [put, heq, value?_cons, ih]

theorem value?_put_of_ne (entries : KeyedList β) {key other : String} (value : β)
    (hne : other ≠ key) : value? (put key value entries) other = value? entries other := by
  induction entries with
  | nil => simp [put, value?_cons, hne.symm]
  | cons entry rest ih =>
    by_cases heq : entry.1 = key
    · simp [put, heq, value?_cons, hne.symm]
    · simp [put, heq, value?_cons, ih]

@[simp]
theorem value?_remove_self (entries : KeyedList β) (key : String) :
    value? (remove entries key) key = none := by
  induction entries with
  | nil => rfl
  | cons entry rest ih =>
    by_cases heq : entry.1 = key
    · simpa [remove, heq] using ih
    · simpa [remove, heq, value?_cons] using ih

theorem value?_remove_of_ne (entries : KeyedList β) {key other : String} (hne : other ≠ key) :
    value? (remove entries key) other = value? entries other := by
  induction entries with
  | nil => rfl
  | cons entry rest ih =>
    by_cases heq : entry.1 = key
    · simpa [remove, heq, value?_cons, hne.symm] using ih
    · have hkeep : remove (entry :: rest) key = entry :: remove rest key := by
        simp [remove, heq]
      simp [hkeep, value?_cons, ih]

end KeyedList

end SymbolIndex
