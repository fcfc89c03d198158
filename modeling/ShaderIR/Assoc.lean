/-! Finite maps as lists of pairs, each key at most once, in the order in which the keys came. -/
namespace ShaderIR

/-- A finite map. -/
abbrev Assoc (α β : Type) := List (α × β)

namespace Assoc

variable {α β : Type} [DecidableEq α]

def find? : Assoc α β → α → Option β
  | [], _ => none
  | (k, v) :: rest, key => if k = key then some v else find? rest key

/-- Gives a key a value, in place of the one it had. -/
def insert : Assoc α β → α → β → Assoc α β
  | [], key, value => [(key, value)]
  | (k, v) :: rest, key, value =>
      if k = key then (key, value) :: rest else (k, v) :: insert rest key value

@[simp] theorem find?_nil (key : α) : find? ([] : Assoc α β) key = none := rfl

theorem find?_insert (m : Assoc α β) (key other : α) (value : β) :
    (m.insert key value).find? other = if key = other then some value else m.find? other := by
  induction m with
  | nil => rfl
  | cons entry rest ih =>
      obtain ⟨k, v⟩ := entry
      by_cases hk : k = key
      · subst hk
        by_cases ho : k = other <;> simp [insert, find?, ho]
      · by_cases ho : k = other
        · subst ho
          simp [insert, find?, hk, Ne.symm hk]
        · simp [insert, find?, hk, ho, ih]

@[simp] theorem find?_insert_self (m : Assoc α β) (key : α) (value : β) :
    (m.insert key value).find? key = some value := by
  simp [find?_insert]

theorem find?_insert_of_ne (m : Assoc α β) {key other : α} (value : β) (h : key ≠ other) :
    (m.insert key value).find? other = m.find? other := by
  simp [find?_insert, h]

end Assoc

end ShaderIR
