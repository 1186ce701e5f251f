import Mathlib.Data.Finset.Card
import Scriptlet.Scope.Forest

/-!
Scopes inside each other after any history of settings. A name reads as what it has last been set to
on the nearest scope that ever had it; a further setting is seen from that scope and from all scopes
inside it that no nearer one hides it from.
-/

namespace Scriptlet

namespace Bindings

/-- The names that are bound, each one once. -/
def names (b : Bindings) : List String := b.entries.map Prod.fst

theorem nodup_names (b : Bindings) : b.names.Nodup :=
  List.pairwise_map.2 (b.ascending.imp fun h => String.ne_of_lt h)

theorem mem_names_iff {b : Bindings} {name : String} : name ∈ b.names ↔ b.get? name ≠ none := by
  have hkeys : b.get? name = none ↔ ∀ e ∈ b.entries, name ≠ e.1 := by
    simp only [get?, List.lookup_eq_none_iff, bne_iff_ne]
  rw [Ne, hkeys, names, List.mem_map]
  grind

theorem size_eq_card (b : Bindings) : b.size = b.names.toFinset.card := by
  rw [List.toFinset_card_of_nodup b.nodup_names, names, List.length_map, size]

end Bindings

namespace Forest

/-- A name set to a value on one of the scopes. -/
structure Setting where
  scope : Nat
  name : String
  value : Value

def obey (f : Forest) (s : Setting) : Forest := f.assign s.scope s.name s.value

def replay (f : Forest) (history : List Setting) : Forest := history.foldl obey f

/-- Each scope is made after the one around it. -/
def Ordered (parents : List (Option Nat)) : Prop :=
  ∀ i p : Nat, parents[i]? = some (some p) → p < i

section history

variable (history : List Setting)

def EverSet (i : Nat) (name : String) : Prop := ∃ s ∈ history, s.scope = i ∧ s.name = name

/-- The last setting of the name on the scope gives it this value. -/
def LastSet (i : Nat) (name : String) (value : Value) : Prop :=
  ∃ before behind, history = before ++ ⟨i, name, value⟩ :: behind ∧ ¬ EverSet behind i name

/-- From scope `i` outward scope `j` is reached, and no scope in front of it has ever had the
name. -/
inductive Sees (parents : List (Option Nat)) (name : String) : Nat → Nat → Prop
  | self (i : Nat) : Sees parents name i i
  | outward {i p j : Nat} (hp : parents[i]? = some (some p)) (hi : ¬ EverSet history i name)
      (hs : Sees parents name p j) : Sees parents name i j

/-- The first scope from `i` outward on which the name has ever been set. -/
def Nearest (parents : List (Option Nat)) (name : String) (i j : Nat) : Prop :=
  Sees history parents name i j ∧ EverSet history j name

def namesSet (i : Nat) : Finset String :=
  ((history.filter fun s => s.scope = i).map Setting.name).toFinset

end history

variable {parents : List (Option Nat)} {history : List Setting} {s : Setting} {f : Forest}
  {i j p : Nat} {name other : String} {value : Value}

theorem replay_append (f : Forest) (before behind : List Setting) :
    f.replay (before ++ behind) = (f.replay before).replay behind := List.foldl_append

theorem everSet_cons : EverSet (s :: history) i name ↔
    s.scope = i ∧ s.name = name ∨ EverSet history i name := by
  simp [EverSet]

theorem mem_namesSet_iff : name ∈ namesSet history i ↔ EverSet history i name := by
  simp only [namesSet, EverSet, List.mem_toFinset, List.mem_map, List.mem_filter, decide_eq_true_eq,
    and_assoc]

theorem exists_lastSet (h : EverSet history i name) : ∃ value, LastSet history i name value := by
  induction history with
  | nil => simp [EverSet] at h
  | cons s history ih =>
    by_cases hlater : EverSet history i name
    · obtain ⟨value, before, behind, rfl, hlast⟩ := ih hlater
      exact ⟨value, s :: before, behind, rfl, hlast⟩
    · obtain ⟨rfl, rfl⟩ := (everSet_cons.1 h).resolve_right hlater
      exact ⟨s.value, [], history, rfl, hlater⟩

/-- The scope around scope `i`. -/
def outer? (f : Forest) (i : Nat) : Option Nat := f.nodes[i]?.bind Prod.fst

@[simp] theorem length_nodes_obey (f : Forest) (s : Setting) :
    (f.obey s).nodes.length = f.nodes.length := by
  simp [obey, assign]

@[simp] theorem outer?_obey (f : Forest) (s : Setting) (i : Nat) :
    (f.obey s).outer? i = f.outer? i := by
  simp only [outer?, obey, assign, List.getElem?_modify]
  cases f.nodes[i]? with
  | none => simp
  | some node => by_cases h : s.scope = i <;> simp [h]

theorem get?_own_obey (hi : i < f.nodes.length) (s : Setting) (name : String) :
    ((f.obey s).own i).get? name =
      if s.scope = i ∧ s.name = name then some s.value else (f.own i).get? name := by
  simp only [own, obey, assign, List.getElem?_modify, List.getElem?_eq_getElem hi]
  by_cases h : s.scope = i
  · simp [h, Bindings.get?_put, eq_comm]
  · simp [h]

theorem length_nodes_replay (f : Forest) (history : List Setting) :
    (f.replay history).nodes.length = f.nodes.length := by
  induction history generalizing f with
  | nil => rfl
  | cons s history ih => exact (ih (f.obey s)).trans (length_nodes_obey f s)

theorem outer?_replay (f : Forest) (history : List Setting) (i : Nat) :
    (f.replay history).outer? i = f.outer? i := by
  induction history generalizing f with
  | nil => rfl
  | cons s history ih => exact (ih (f.obey s)).trans (outer?_obey f s i)

/-- What is never set stays as it is. -/
theorem get?_own_replay_of_not_everSet (hi : i < f.nodes.length) (h : ¬ EverSet history i name) :
    ((f.replay history).own i).get? name = (f.own i).get? name := by
  induction history generalizing f with
  | nil => rfl
  | cons s history ih =>
    obtain ⟨hs, hlater⟩ := not_or.1 (mt everSet_cons.2 h)
    have hi' : i < (f.obey s).nodes.length := by simpa using hi
    exact (ih hi' hlater).trans ((get?_own_obey hi s name).trans (if_neg hs))

/-- Of several settings the last one counts. -/
theorem get?_own_replay_of_lastSet (hi : i < f.nodes.length) (h : LastSet history i name value) :
    ((f.replay history).own i).get? name = some value := by
  obtain ⟨before, behind, rfl, hlast⟩ := h
  have hi' : i < (f.replay before).nodes.length := by rwa [length_nodes_replay]
  rw [replay_append]
  change ((((f.replay before).obey _).replay behind).own i).get? name = some value
  rw [get?_own_replay_of_not_everSet (by simpa using hi') hlast, get?_own_obey hi',
    if_pos ⟨rfl, rfl⟩]

theorem find?_scope_of_outer (hp : f.outer? i = some p) (hlt : p < i) (name : String) :
    (f.scope i).find? name = ((f.own i).get? name).or ((f.scope p).find? name) := by
  rw [outer?] at hp
  have haround : f.around i = f.own p :: f.around p := by
    rw [around, hp]
    exact dif_pos hlt
  simp only [Scope.find?, scope, haround, List.findSome?_cons]
  cases (f.own i).get? name <;> rfl

theorem find?_scope_of_outermost (hp : f.outer? i = none) (name : String) :
    (f.scope i).find? name = (f.own i).get? name := by
  rw [outer?] at hp
  have haround : f.around i = [] := by rw [around, hp]
  simp only [Scope.find?, scope, haround, List.findSome?_cons, List.findSome?_nil]
  cases (f.own i).get? name <;> rfl

/-- The scopes made with these parents after a history of settings. -/
def grown (parents : List (Option Nat)) (history : List Setting) : Forest :=
  (ofParents parents).replay history

theorem length_nodes_grown (parents : List (Option Nat)) (history : List Setting) :
    (grown parents history).nodes.length = parents.length := by
  rw [grown, length_nodes_replay, ofParents, List.length_map]

theorem outer?_grown (parents : List (Option Nat)) (history : List Setting) (i : Nat) :
    (grown parents history).outer? i = parents[i]?.join := by
  rw [grown, outer?_replay, outer?, ofParents, List.getElem?_map]
  cases parents[i]? <;> rfl

theorem outer?_grown_of_parent (hp : parents[i]? = some (some p)) :
    (grown parents history).outer? i = some p := by
  rw [outer?_grown, hp]
  rfl

theorem get?_own_grown_of_not_everSet (hi : i < parents.length) (h : ¬ EverSet history i name) :
    ((grown parents history).own i).get? name = none := by
  have hi' : i < (ofParents parents).nodes.length := by simpa [ofParents] using hi
  rw [grown, get?_own_replay_of_not_everSet hi' h]
  simp [own, ofParents, hi]

theorem get?_own_grown_of_lastSet (hi : i < parents.length) (h : LastSet history i name value) :
    ((grown parents history).own i).get? name = some value :=
  get?_own_replay_of_lastSet (by simpa [ofParents] using hi) h

theorem get?_own_grown_ne_none_iff (hi : i < parents.length) :
    ((grown parents history).own i).get? name ≠ none ↔ EverSet history i name := by
  constructor
  · exact fun h => not_not.1 (mt (get?_own_grown_of_not_everSet hi) h)
  · intro h
    obtain ⟨value, hlast⟩ := exists_lastSet h
    rw [get?_own_grown_of_lastSet hi hlast]
    exact Option.some_ne_none value

theorem names_own_grown (hi : i < parents.length) :
    ((grown parents history).own i).names.toFinset = namesSet history i := by
  ext name
  rw [List.mem_toFinset, Bindings.mem_names_iff, get?_own_grown_ne_none_iff hi, mem_namesSet_iff]

section ordered

variable (ho : Ordered parents) (hi : i < parents.length)

include ho hi

theorem Sees.lt_length (h : Sees history parents name i j) : j < parents.length := by
  induction h with
  | self => exact hi
  | outward hp _ _ ih => exact ih ((ho _ _ hp).trans hi)

/-- All scopes on the way outward read the name alike. -/
theorem find?_of_sees (h : Sees history parents name i j) :
    ((grown parents history).scope i).find? name =
      ((grown parents history).scope j).find? name := by
  induction h with
  | self => rfl
  | @outward i p j hp hset _ ih =>
    rw [find?_scope_of_outer (outer?_grown_of_parent hp) (ho _ _ hp),
      get?_own_grown_of_not_everSet hi hset, Option.none_or, ih ((ho _ _ hp).trans hi)]

theorem find?_of_nearest (h : Nearest history parents name i j)
    (hv : LastSet history j name value) :
    ((grown parents history).scope i).find? name = some value := by
  rw [find?_of_sees ho hi h.1]
  have hown := get?_own_grown_of_lastSet (h.1.lt_length ho hi) hv
  simp only [Scope.find?, scope, List.findSome?_cons, hown]

theorem find?_of_not_nearest (h : ¬ ∃ j, Nearest history parents name i j) :
    ((grown parents history).scope i).find? name = none := by
  induction i using Nat.strongRecOn with
  | ind i ih =>
    have hset : ¬ EverSet history i name := fun hset => h ⟨i, .self i, hset⟩
    have hown := get?_own_grown_of_not_everSet hi hset
    cases hp : parents[i]?.join with
    | none => rw [find?_scope_of_outermost (by rw [outer?_grown, hp]), hown]
    | some p =>
      have hp' : parents[i]? = some (some p) := Option.join_eq_some_iff.1 hp
      have hlt := ho i p hp'
      rw [find?_scope_of_outer (outer?_grown_of_parent hp') hlt, hown, Option.none_or]
      exact ih p hlt (hlt.trans hi) fun ⟨j, hs, hj⟩ => h ⟨j, .outward hp' hset hs, hj⟩

/-- A further setting is read wherever its scope is seen. -/
theorem find?_obey_of_sees (h : Sees history parents s.name i s.scope) :
    (((grown parents history).obey s).scope i).find? s.name = some s.value := by
  have hown {k : Nat} (hk : k < parents.length) :
      (((grown parents history).obey s).own k).get? s.name =
        if s.scope = k ∧ s.name = s.name then some s.value
        else ((grown parents history).own k).get? s.name :=
    get?_own_obey (by rwa [length_nodes_grown]) s s.name
  generalize hj : s.scope = j at h
  induction h with
  | self k =>
    simp only [Scope.find?, scope, List.findSome?_cons, hown hi, hj, and_self, if_true]
  | @outward k p j hp hset _ ih =>
    have houter : ((grown parents history).obey s).outer? k = some p :=
      (outer?_obey _ s k).trans (outer?_grown_of_parent hp)
    rw [find?_scope_of_outer houter (ho _ _ hp), hown hi, get?_own_grown_of_not_everSet hi hset,
      ih ((ho _ _ hp).trans hi) hj]
    split <;> rfl

/-- Nothing else is changed by it. -/
theorem find?_obey_of_not_sees (h : ¬ (name = s.name ∧ Sees history parents s.name i s.scope)) :
    (((grown parents history).obey s).scope i).find? name =
      ((grown parents history).scope i).find? name := by
  induction i using Nat.strongRecOn with
  | ind i ih =>
    have hown : (((grown parents history).obey s).own i).get? name =
        ((grown parents history).own i).get? name := by
      rw [get?_own_obey (by rwa [length_nodes_grown]), if_neg]
      intro hs
      exact h ⟨hs.2.symm, hs.1 ▸ .self _⟩
    cases hp : parents[i]?.join with
    | none =>
      rw [find?_scope_of_outermost (by rw [outer?_obey, outer?_grown, hp]), hown,
        find?_scope_of_outermost (by rw [outer?_grown, hp])]
    | some p =>
      have hp' : parents[i]? = some (some p) := Option.join_eq_some_iff.1 hp
      have hlt := ho i p hp'
      have houter : (grown parents history).outer? i = some p := outer?_grown_of_parent hp'
      rw [find?_scope_of_outer ((outer?_obey _ s i).trans houter) hlt, hown,
        find?_scope_of_outer houter hlt]
      -- a scope that has the name itself does not look further out
      by_cases hset : EverSet history i name
      · obtain ⟨value, hlast⟩ := exists_lastSet hset
        simp only [get?_own_grown_of_lastSet hi hlast, Option.some_or]
      · rw [ih p hlt (hlt.trans hi)]
        rintro ⟨rfl, hs⟩
        exact h ⟨rfl, .outward hp' hset hs⟩

end ordered

/-- Whatever has been set on which scope of a forest in which order: a name reads as what the
nearest scope that ever had it was last set to, and as `nothing` if there is no such scope; it has a
value if there is one, be the value `nothing` or not; and a scope counts each name once. One more
setting is read where no nearer scope hides it and changes nothing else. -/
theorem scope_recalls_history (ho : Ordered parents) (hi : i < parents.length)
    (history : List Setting) (name : String) :
    let f := grown parents history
    (∀ j, Nearest history parents name i j →
      ∃ value, LastSet history j name value ∧ (f.scope i).lookup name = value) ∧
    ((¬ ∃ j, Nearest history parents name i j) → (f.scope i).lookup name = .nothing) ∧
    ((f.scope i).contains name = true ↔ ∃ j, Nearest history parents name i j) ∧
    (f.own i).describe = "Scope(" ++ toString (namesSet history i).card ++ " names)" ∧
    ∀ s : Setting,
      (name = s.name → Sees history parents name i s.scope →
        ((f.obey s).scope i).lookup name = s.value ∧ ((f.obey s).scope i).contains name = true) ∧
      (¬ (name = s.name ∧ Sees history parents name i s.scope) →
        ((f.obey s).scope i).lookup name = (f.scope i).lookup name ∧
          ((f.obey s).scope i).contains name = (f.scope i).contains name) := by
  intro f
  refine ⟨fun j hj => ?_, fun hnone => ?_, ⟨fun hc => ?_, fun hj => ?_⟩, ?_,
    fun s => ⟨fun hs hsees => ?_, fun hs => ?_⟩⟩
  · obtain ⟨value, hv⟩ := exists_lastSet hj.2
    exact ⟨value, hv, by rw [Scope.lookup, find?_of_nearest ho hi hj hv, Option.getD_some]⟩
  · rw [Scope.lookup, find?_of_not_nearest ho hi hnone, Option.getD_none]
  · by_contra hnone
    rw [Scope.contains, find?_of_not_nearest ho hi hnone] at hc
    cases hc
  · obtain ⟨j, hj⟩ := hj
    obtain ⟨value, hv⟩ := exists_lastSet hj.2
    rw [Scope.contains, find?_of_nearest ho hi hj hv, Option.isSome_some]
  · rw [Bindings.describe, Bindings.size_eq_card, names_own_grown hi]
  · subst hs
    rw [Scope.lookup, Scope.contains, find?_obey_of_sees ho hi hsees]
    exact ⟨rfl, rfl⟩
  · have hfind : ((f.obey s).scope i).find? name = (f.scope i).find? name :=
      find?_obey_of_not_sees ho hi fun h => hs ⟨h.1, h.1 ▸ h.2⟩
    rw [Scope.lookup, Scope.contains, hfind]
    exact ⟨rfl, rfl⟩

/-- A name set to `nothing` hides the one further out; the scope next to it still reads that one,
also after it has been set anew. -/
theorem scope_recalls_history_hidden :
    let parents := [none, some 0, some 1, some 0]
    let history : List Setting :=
      [⟨0, "x", .boolean true⟩, ⟨1, "x", .boolean true⟩, ⟨1, "x", .nothing⟩]
    let f := grown parents history
    let g := f.obey ⟨0, "x", .boolean false⟩
    Ordered parents ∧ (f.scope 2).contains "x" = true ∧
      (g.scope 2).lookup "x" = (f.scope 2).lookup "x" ∧
      (g.scope 3).lookup "x" = .boolean false ∧ (f.own 1).describe = "Scope(1 names)" := by
  intro parents history f g
  have ho : Ordered parents := by
    intro i p h
    match i with
    | 0 => simp [parents] at h
    | 1 | 2 | 3 => simp [parents] at h; omega
    | i + 4 => simp [parents] at h
  have hset : EverSet history 1 "x" := ⟨⟨1, "x", .nothing⟩, by simp [history], rfl, rfl⟩
  have hunset (i : Nat) (hi : 1 < i) : ¬ EverSet history i "x" := by
    simp [EverSet, history]
    omega
  have hsees : Sees history parents "x" 2 1 := .outward rfl (hunset 2 (by decide)) (.self 1)
  have hhidden : ¬ Sees history parents "x" 2 0 := by
    rintro (_ | ⟨hp, -, hs⟩)
    cases hp
    cases hs with
    | outward _ h => exact h hset
  obtain ⟨-, -, hhas, -, hlater⟩ := scope_recalls_history ho (i := 2) (by decide) history "x"
  obtain ⟨-, -, -, -, hbeside⟩ := scope_recalls_history ho (i := 3) (by decide) history "x"
  obtain ⟨-, -, -, hcount, -⟩ := scope_recalls_history ho (i := 1) (by decide) history "x"
  have hone : (namesSet history 1).card = 1 := by decide
  rw [hone] at hcount
  refine ⟨ho, hhas.2 ⟨1, hsees, hset⟩, ?_, ?_, hcount.trans (by decide)⟩
  · exact ((hlater ⟨0, "x", .boolean false⟩).2 fun h => hhidden h.2).1
  · exact ((hbeside ⟨0, "x", .boolean false⟩).1 rfl
      (.outward rfl (hunset 3 (by decide)) (.self 0))).1

end Forest

end Scriptlet
