/-! Tables from names to entries. An entry put under a new name goes to the end, one put
under a name that is present takes that name's place. -/
namespace LoxLang

/-- Names with their entries, in the order in which the names were first put. -/
structure Table (α : Type) where
  entries : List (String × α)

namespace Table
variable {α : Type}

def empty : Table α := ⟨[]⟩

instance : Inhabited (Table α) := ⟨empty⟩

/-- The entry of a name, if the table has one. -/
def find? (t : Table α) (x : String) : Option α := t.entries.lookup x

/-- The list with the entry of `x` replaced in place, or added at the end. -/
def putEntry (x : String) (a : α) : List (String × α) → List (String × α)
  | [] => [(x, a)]
  | (y, b) :: rest => if y = x then (x, a) :: rest else (y, b) :: putEntry x a rest

def put (t : Table α) (x : String) (a : α) : Table α := ⟨putEntry x a t.entries⟩

def names (t : Table α) : List String := t.entries.map Prod.fst

def contains (t : Table α) (x : String) : Bool := (t.find? x).isSome

@[simp] theorem find?_empty (x : String) : (empty : Table α).find? x = none := rfl

theorem lookup_putEntry (x y : String) (a : α) (es : List (String × α)) :
    (putEntry x a es).lookup y = if y = x then some a else es.lookup y := by
  induction es with
  | nil =>
    by_cases h : y = x
    · simp [putEntry, h]
    · simp [putEntry, List.lookup_cons, h, beq_false_of_ne h]
  | cons e es ih =>
    obtain ⟨z, b⟩ := e
    by_cases hz : z = x
    · subst hz
      by_cases h : y = z
      · simp [putEntry, h]
      · simp [putEntry, List.lookup_cons, h, beq_false_of_ne h]
    · by_cases h : y = z
      · subst h
        simp [putEntry, hz]
      · simp [putEntry, List.lookup_cons, hz, beq_false_of_ne h, ih]

/-- A table reads back what was put last under a name and keeps every other entry. -/
@[simp] theorem find?_put (t : Table α) (x y : String) (a : α) :
    (t.put x a).find? y = if y = x then some a else t.find? y :=
  lookup_putEntry x y a t.entries

/-- What is put last under a name stays, in the place of what was put first. -/
theorem put_put (t : Table α) (x : String) (a b : α) : (t.put x a).put x b = t.put x b := by
  suffices twice : ∀ es, putEntry x b (putEntry x a es) = putEntry x b es from
    congrArg Table.mk (twice t.entries)
  intro es
  induction es with
  | nil => simp [putEntry]
  | cons e es ih =>
    by_cases named : e.1 = x
    · simp [putEntry, named]
    · simp [putEntry, named, ih]

end Table
end LoxLang
