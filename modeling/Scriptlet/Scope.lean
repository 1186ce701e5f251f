import Scriptlet.Value

/-!
Names and their values. A scope has bindings of its own and looks further out for all other names.
-/

namespace Scriptlet

/-- Finitely many names, each bound to one value, in the order of the names. -/
structure Bindings where
  entries : List (String × Value)
  ascending : entries.Pairwise fun a b => a.1 < b.1

namespace Bindings

instance : EmptyCollection Bindings := ⟨⟨[], .nil⟩⟩

def size (b : Bindings) : Nat := b.entries.length

def get? (b : Bindings) (name : String) : Option Value := b.entries.lookup name

def contains (b : Bindings) (name : String) : Bool := (b.get? name).isSome

/-- Bind a name in a list of entries, in place of an old entry for it. -/
def putEntry (name : String) (value : Value) : List (String × Value) → List (String × Value)
  | [] => [(name, value)]
  | e :: rest =>
    if name < e.1 then (name, value) :: e :: rest
    else if name = e.1 then (name, value) :: rest
    else e :: putEntry name value rest

theorem mem_putEntry {name : String} {value : Value} {entries : List (String × Value)}
    {e : String × Value} (h : e ∈ putEntry name value entries) :
    e = (name, value) ∨ e ∈ entries := by
  induction entries with
  | nil => simpa [putEntry] using h
  | cons d rest ih =>
    simp only [putEntry] at h
    split at h
    · simpa using h
    · split at h <;> simp only [List.mem_cons] at h ⊢ <;> grind

theorem pairwise_putEntry (name : String) (value : Value) {entries : List (String × Value)}
    (h : entries.Pairwise fun a b => a.1 < b.1) :
    (putEntry name value entries).Pairwise fun a b => a.1 < b.1 := by
  induction entries with
  | nil => simp [putEntry]
  | cons d rest ih =>
    have ⟨hd, hr⟩ := List.pairwise_cons.1 h
    simp only [putEntry]
    split
    next hlt =>
      refine List.pairwise_cons.2 ⟨fun e he => ?_, h⟩
      rcases List.mem_cons.1 he with rfl | he
      · exact hlt
      · exact String.lt_trans hlt (hd e he)
    next hnlt =>
      split
      next heq => exact List.pairwise_cons.2 ⟨fun e he => heq ▸ hd e he, hr⟩
      next hne =>
        refine List.pairwise_cons.2 ⟨fun e he => ?_, ih hr⟩
        rcases mem_putEntry he with rfl | he
        · exact Std.lt_of_le_of_ne (String.not_lt.1 hnlt) (Ne.symm hne)
        · exact hd e he

def put (b : Bindings) (name : String) (value : Value) : Bindings :=
  ⟨putEntry name value b.entries, pairwise_putEntry name value b.ascending⟩

@[simp] theorem get?_empty (name : String) : (∅ : Bindings).get? name = none := rfl

theorem lookup_entry_cons (key other : String) (value : Value) (rest : List (String × Value)) :
    ((key, value) :: rest).lookup other = if other = key then some value else rest.lookup other := by
  rw [List.lookup_cons]
  by_cases h : other = key
  · simp [h]
  · simp [h, beq_eq_false_iff_ne.2 h]

theorem lookup_putEntry (name other : String) (value : Value) (entries : List (String × Value)) :
    (putEntry name value entries).lookup other =
      if other = name then some value else entries.lookup other := by
  induction entries with
  | nil => exact lookup_entry_cons name other value []
  | cons e rest ih =>
    obtain ⟨key, old⟩ := e
    simp only [putEntry]
    split
    · exact lookup_entry_cons name other value _
    · split
      next heq => by_cases h : other = name <;> simp [lookup_entry_cons, ← heq, h]
      next hne => by_cases h : other = key <;> simp [lookup_entry_cons, ih, h, Ne.symm hne]

theorem get?_put (b : Bindings) (name other : String) (value : Value) :
    (b.put name value).get? other = if other = name then some value else b.get? other :=
  lookup_putEntry name other value b.entries

def describe (b : Bindings) : String := "Scope(" ++ toString b.size ++ " names)"

def natives : Bindings := (∅ : Bindings).put "print" (.native .print)

end Bindings

/-- Bindings inside others, the nearest ones first. -/
structure Scope where
  own : Bindings
  outer : List Bindings

namespace Scope

def inside (outer : Bindings) : Scope := ⟨∅, [outer]⟩

def find? (s : Scope) (name : String) : Option Value :=
  (s.own :: s.outer).findSome? fun b => b.get? name

/-- The value of a name; a name without one reads as `nothing`. -/
def lookup (s : Scope) (name : String) : Value := (s.find? name).getD .nothing

def contains (s : Scope) (name : String) : Bool := (s.find? name).isSome

/-- Bind a name in the scope itself, never further out. -/
def assign (s : Scope) (name : String) (value : Value) : Scope :=
  { s with own := s.own.put name value }

/-- In a new scope inside the native functions only their names have values. -/
theorem lookup_inside_natives (name : String) :
    (inside .natives).lookup name = if name = "print" then .native .print else .nothing := by
  simp only [lookup, find?, inside, Bindings.natives, List.findSome?_cons, Bindings.get?_put,
    Bindings.get?_empty]
  by_cases h : name = "print" <;> simp [h]

theorem lookup_assign (s : Scope) (name other : String) (value : Value) :
    (s.assign name value).lookup other = if other = name then value else s.lookup other := by
  simp only [lookup, find?, assign, List.findSome?_cons, Bindings.get?_put]
  by_cases h : other = name <;> simp [h]

end Scope

end Scriptlet
