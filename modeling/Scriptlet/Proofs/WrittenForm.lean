import Scriptlet.Expr.Parser

/-!
The written form of a tree: which tokens it is made of, and which trees a text can mean. Brackets
group nothing but arguments, so most shapes of trees have no text; `Canonical` names those that do.
-/

namespace Scriptlet

/-- The kinds that an operand begins with. -/
def Token.Kind.beginsOperand : Token.Kind → Bool
  | identifier | number | trueWord | falseWord => true
  | _ => false

theorem Token.Kind.ne_of_operator? {k l : Token.Kind} {op : Operator} (hk : k.operator? = some op)
    (hl : l.operator? = none) : k ≠ l := by
  intro h
  subst h
  simp [hl] at hk

namespace Expr

mutual

/-- `Written e ts`: the tokens `ts` spell `e`, and every node stands where the first token of its
own part stands. -/
inductive Written : Expr → List Token → Prop
  | var {t : Token} (ht : t.kind = .identifier) : Written (var t.text t.position) [t]
  | trueWord {t : Token} (ht : t.kind = .trueWord) :
      Written (literal (.boolean true) t.position) [t]
  | falseWord {t : Token} (ht : t.kind = .falseWord) :
      Written (literal (.boolean false) t.position) [t]
  | number {t : Token} {x : Float} (ht : t.kind = .number) (hx : Numeral.read? t.text = some x) :
      Written (literal (.number x) t.position) [t]
  | assign {name mark : Token} {value : Expr} {ts : List Token} (hn : name.kind = .identifier)
      (hm : mark.kind = .assign) (hv : Written value ts) :
      Written (assign name.text value name.position) (name :: mark :: ts)
  | call {name paren close : Token} {args : List Expr} {ts : List Token}
      (hn : name.kind = .identifier) (hp : paren.kind = .leftParen) (ha : WrittenArgs args ts)
      (hc : close.kind = .rightParen) :
      Written (call name.text args name.position) (name :: paren :: ts ++ [close])
  | binary {op : Operator} {lhs rhs : Expr} {first mark : Token} {ts us : List Token}
      (hl : Written lhs (first :: ts)) (hm : mark.kind.operator? = some op) (hr : Written rhs us) :
      Written (binary op lhs rhs first.position) (first :: ts ++ mark :: us)

/-- Arguments with a comma between neighbours. -/
inductive WrittenArgs : List Expr → List Token → Prop
  | none : WrittenArgs [] []
  | last {e : Expr} {ts : List Token} (he : Written e ts) : WrittenArgs [e] ts
  | more {e : Expr} {es : List Expr} {comma : Token} {ts us : List Token} (he : Written e ts)
      (hc : comma.kind = .comma) (hs : WrittenArgs es us) (hne : es ≠ []) :
      WrittenArgs (e :: es) (ts ++ comma :: us)

end

/-- What may stand to the left of an operator: the text of an assignment or of an operator would
go on over it. -/
def isTerm : Expr → Bool
  | assign .. | binary .. => false
  | _ => true

def isBinary : Expr → Bool
  | binary .. => true
  | _ => false

/-- The trees that a text can mean. -/
inductive Canonical : Expr → Prop
  | var {x : String} {p : Position} : Canonical (var x p)
  | literal {v : Value} {p : Position} : Canonical (literal v p)
  | assign {x : String} {e : Expr} {p : Position} (he : Canonical e) : Canonical (assign x e p)
  | call {f : String} {args : List Expr} {p : Position} (ha : ∀ a ∈ args, Canonical a) :
      Canonical (call f args p)
  | binary {op : Operator} {lhs rhs : Expr} {p : Position} (ht : lhs.isTerm) (hl : Canonical lhs)
      (hr : Canonical rhs) : Canonical (binary op lhs rhs p)

mutual

/-- How many calls and assignments lie inside each other in a tree. Operators count for nothing. -/
def nesting : Expr → Nat
  | literal .. | var .. => 0
  | call _ args _ => nestingAll args + 1
  | assign _ e _ => nesting e + 1
  | binary _ lhs rhs _ => max (nesting lhs) (nesting rhs)
  | block ss _ => nestingAll ss

def nestingAll : List Expr → Nat
  | [] => 0
  | e :: es => max (nesting e) (nestingAll es)

end

theorem nestingAll_le {es : List Expr} {n : Nat} :
    nestingAll es ≤ n ↔ ∀ e ∈ es, e.nesting ≤ n := by
  induction es with
  | nil => simp [nestingAll]
  | cons e es ih => rw [nestingAll, Nat.max_le, ih, List.forall_mem_cons]

/-- The trees that a text can mean and that are read in a given room. -/
def Fits (room : Nat) (e : Expr) : Prop := e.Canonical ∧ e.nesting ≤ room

section fits
variable {room : Nat} {x : String} {p : Position} {e : Expr} {args : List Expr}

@[simp] theorem fits_var : (var x p).Fits room := ⟨.var, by simp [nesting]⟩

@[simp] theorem fits_literal {v : Value} : (literal v p).Fits room := ⟨.literal, by simp [nesting]⟩

@[simp] theorem fits_assign : (assign x e p).Fits (room + 1) ↔ e.Fits room := by
  constructor
  · intro h
    obtain ⟨h, hn⟩ := h
    cases h with
    | assign he => exact ⟨he, by simpa [nesting] using hn⟩
  · intro h
    obtain ⟨he, hn⟩ := h
    exact ⟨.assign he, by simpa [nesting] using hn⟩

@[simp] theorem fits_call : (call x args p).Fits (room + 1) ↔ ∀ a ∈ args, a.Fits room := by
  constructor
  · intro h a ha
    obtain ⟨h, hn⟩ := h
    have hn : nestingAll args ≤ room := by simpa [nesting] using hn
    cases h with
    | call hs => exact ⟨hs a ha, nestingAll_le.1 hn a ha⟩
  · intro h
    refine ⟨.call fun a ha => (h a ha).1, ?_⟩
    have hn : nestingAll args ≤ room := nestingAll_le.2 fun a ha => (h a ha).2
    simpa [nesting] using hn

@[simp] theorem fits_binary {op : Operator} {lhs rhs : Expr} :
    (binary op lhs rhs p).Fits room ↔ lhs.isTerm ∧ lhs.Fits room ∧ rhs.Fits room := by
  constructor
  · intro h
    obtain ⟨h, hn⟩ := h
    have hn : lhs.nesting ≤ room ∧ rhs.nesting ≤ room := Nat.max_le.1 hn
    cases h with
    | binary ht hl hr => exact ⟨ht, ⟨hl, hn.1⟩, hr, hn.2⟩
  · intro h
    obtain ⟨ht, ⟨hl, hnl⟩, hr, hnr⟩ := h
    exact ⟨.binary ht hl hr, Nat.max_le.2 ⟨hnl, hnr⟩⟩

theorem not_fits_assign_zero : ¬ (assign x e p).Fits 0 := fun h => Nat.not_succ_le_zero _ h.2

theorem not_fits_call_zero : ¬ (call x args p).Fits 0 := fun h => Nat.not_succ_le_zero _ h.2

end fits

/-- A written tree begins with a token that begins an operand, and stands where that token does. -/
theorem Written.head {e : Expr} {ts : List Token} :
    Written e ts → ∃ t us, ts = t :: us ∧ t.position = e.start ∧ t.kind.beginsOperand
  | .var ht | .trueWord ht | .falseWord ht | .number ht _ => ⟨_, _, rfl, rfl, by rw [ht]; rfl⟩
  | .assign hn _ _ | .call hn _ _ _ => ⟨_, _, rfl, rfl, by rw [hn]; rfl⟩
  | .binary hl _ _ => by
    obtain ⟨t, us, he, -, hk⟩ := hl.head
    cases he
    exact ⟨_, _, rfl, rfl, hk⟩

theorem WrittenArgs.head {e : Expr} {es : List Expr} {ts : List Token}
    (h : WrittenArgs (e :: es) ts) : ∃ t us, ts = t :: us ∧ t.kind.beginsOperand := by
  cases h with
  | last he =>
    obtain ⟨t, us, rfl, -, hk⟩ := he.head
    exact ⟨t, us, rfl, hk⟩
  | more he _ _ _ =>
    obtain ⟨t, us, rfl, -, hk⟩ := he.head
    exact ⟨t, _, rfl, hk⟩

theorem Written.ne_nil {e : Expr} {ts : List Token} (h : Written e ts) : ts ≠ [] := by
  obtain ⟨t, us, rfl, -⟩ := h.head
  simp

mutual

theorem Written.kind_ne_finish {e : Expr} {ts : List Token} :
    Written e ts → ∀ t ∈ ts, t.kind ≠ .finish
  | .var ht | .trueWord ht | .falseWord ht | .number ht _ => by simp [ht]
  | .assign hn hm hv => by simpa [hn, hm] using hv.kind_ne_finish
  | .call hn hp ha hc => by
    have := ha.kind_ne_finish
    grind
  | .binary hl hm hr => by
    have := hl.kind_ne_finish
    have := hr.kind_ne_finish
    have := Token.Kind.ne_of_operator? hm (rfl : Token.Kind.finish.operator? = none)
    grind

theorem WrittenArgs.kind_ne_finish {es : List Expr} {ts : List Token} :
    WrittenArgs es ts → ∀ t ∈ ts, t.kind ≠ .finish
  | .none => by simp
  | .last he => he.kind_ne_finish
  | .more he hc hs _ => by
    have := he.kind_ne_finish
    have := hs.kind_ne_finish
    grind

end

mutual

/-- A tree has more tokens than calls and assignments inside each other. -/
theorem Written.nesting_lt_length {e : Expr} {ts : List Token} :
    Written e ts → e.nesting < ts.length
  | .var _ | .trueWord _ | .falseWord _ | .number _ _ => by simp [nesting]
  | .assign _ _ hv => by
    have := hv.nesting_lt_length
    simp only [nesting, List.length_cons]
    omega
  | .call _ _ ha _ => by
    have := ha.nestingAll_le_length
    simp only [nesting, List.length_cons, List.length_append]
    omega
  | .binary hl _ hr => by
    have := hl.nesting_lt_length
    have := hr.nesting_lt_length
    simp only [nesting, List.length_cons, List.length_append] at *
    omega

theorem WrittenArgs.nestingAll_le_length {es : List Expr} {ts : List Token} :
    WrittenArgs es ts → nestingAll es ≤ ts.length
  | .none => by simp [nestingAll]
  | .last he => by simpa [nestingAll] using Nat.le_of_lt he.nesting_lt_length
  | .more he _ hs _ => by
    have := he.nesting_lt_length
    have := hs.nestingAll_le_length
    simp only [nestingAll, List.length_cons, List.length_append]
    omega

end

end Expr

end Scriptlet
