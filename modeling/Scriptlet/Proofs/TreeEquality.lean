import Scriptlet.Proofs.DistinctValues
import Scriptlet.Proofs.ProgramLiterals

/-!
Equality of trees. It goes through two trees side by side down to their literals, so it inherits the
laws of equality of values. In a tree that is read no literal has a sign or is no number, so there
equality is nothing less than being one tree.
-/

namespace Scriptlet

namespace Expr

mutual

/-- How two trees come to be equal. -/
inductive Agrees : Expr → Expr → Prop
  | block {ss ts : List Expr} {p : Position} (h : AgreesAll ss ts) : Agrees (block ss p) (block ts p)
  | call {f : String} {as bs : List Expr} {p : Position} (h : AgreesAll as bs) :
      Agrees (call f as p) (call f bs p)
  | literal {v w : Value} {p : Position} (h : v.Equal w) : Agrees (literal v p) (literal w p)
  | assign {x : String} {d e : Expr} {p : Position} (h : Agrees d e) :
      Agrees (assign x d p) (assign x e p)
  | var {x : String} {p : Position} : Agrees (var x p) (var x p)
  | binary {op : Operator} {a b a' b' : Expr} {p : Position} (hl : Agrees a a') (hr : Agrees b b') :
      Agrees (binary op a b p) (binary op a' b' p)

inductive AgreesAll : List Expr → List Expr → Prop
  | nil : AgreesAll [] []
  | cons {d e : Expr} {ds es : List Expr} (h : Agrees d e) (hs : AgreesAll ds es) :
      AgreesAll (d :: ds) (e :: es)

end

mutual

theorem agrees_of_same : ∀ {a b : Expr}, same a b = true → Agrees a b
  | block ss p, b, h => by
    cases b with
    | block ts q =>
      simp only [same, Bool.and_eq_true, decide_eq_true_eq] at h
      obtain ⟨hs, rfl⟩ := h
      exact .block (agreesAll_of_sameAll hs)
    | call | literal | assign | var | binary => cases h
  | call f as p, b, h => by
    cases b with
    | call g bs q =>
      simp only [same, Bool.and_eq_true, decide_eq_true_eq, beq_iff_eq] at h
      obtain ⟨⟨rfl, hs⟩, rfl⟩ := h
      exact .call (agreesAll_of_sameAll hs)
    | block | literal | assign | var | binary => cases h
  | literal v p, b, h => by
    cases b with
    | literal w q =>
      simp only [same, Bool.and_eq_true, decide_eq_true_eq] at h
      obtain ⟨hv, rfl⟩ := h
      exact .literal (Value.beq_iff_equal.1 hv)
    | block | call | assign | var | binary => cases h
  | assign x d p, b, h => by
    cases b with
    | assign y e q =>
      simp only [same, Bool.and_eq_true, decide_eq_true_eq, beq_iff_eq] at h
      obtain ⟨⟨rfl, hd⟩, rfl⟩ := h
      exact .assign (agrees_of_same hd)
    | block | call | literal | var | binary => cases h
  | var x p, b, h => by
    cases b with
    | var y q =>
      simp only [same, Bool.and_eq_true, decide_eq_true_eq, beq_iff_eq] at h
      obtain ⟨rfl, rfl⟩ := h
      exact .var
    | block | call | literal | assign | binary => cases h
  | binary op a a' p, b, h => by
    cases b with
    | binary op' c c' q =>
      simp only [same, Bool.and_eq_true, decide_eq_true_eq, beq_iff_eq] at h
      obtain ⟨⟨⟨rfl, hl⟩, hr⟩, rfl⟩ := h
      exact .binary (agrees_of_same hl) (agrees_of_same hr)
    | block | call | literal | assign | var => cases h

theorem agreesAll_of_sameAll : ∀ {as bs : List Expr}, sameAll as bs = true → AgreesAll as bs
  | [], bs, h => by
    cases bs with
    | nil => exact .nil
    | cons => cases h
  | a :: as, bs, h => by
    cases bs with
    | nil => cases h
    | cons b bs =>
      simp only [sameAll, Bool.and_eq_true] at h
      exact .cons (agrees_of_same h.1) (agreesAll_of_sameAll h.2)

end

mutual

theorem Agrees.same : ∀ {a b : Expr}, Agrees a b → Expr.same a b = true
  | _, _, .block h => by simp [Expr.same, h.sameAll]
  | _, _, .call h => by simp [Expr.same, h.sameAll]
  | _, _, .literal h => by simp [Expr.same, Value.beq_iff_equal.2 h]
  | _, _, .assign h => by simp [Expr.same, h.same]
  | _, _, .var => by simp [Expr.same]
  | _, _, .binary hl hr => by simp [Expr.same, hl.same, hr.same]

theorem AgreesAll.sameAll : ∀ {as bs : List Expr}, AgreesAll as bs → Expr.sameAll as bs = true
  | _, _, .nil => rfl
  | _, _, .cons h hs => by simp [Expr.sameAll, h.same, hs.sameAll]

end

theorem beq_iff_agrees {a b : Expr} : (a == b) = true ↔ Agrees a b :=
  ⟨agrees_of_same, Agrees.same⟩

mutual

theorem Agrees.symm : ∀ {a b : Expr}, Agrees a b → Agrees b a
  | _, _, .block h => .block h.symm
  | _, _, .call h => .call h.symm
  | _, _, .literal h => .literal h.symm
  | _, _, .assign h => .assign h.symm
  | _, _, .var => .var
  | _, _, .binary hl hr => .binary hl.symm hr.symm

theorem AgreesAll.symm : ∀ {as bs : List Expr}, AgreesAll as bs → AgreesAll bs as
  | _, _, .nil => .nil
  | _, _, .cons h hs => .cons h.symm hs.symm

end

mutual

theorem Agrees.trans : ∀ {a b c : Expr}, Agrees a b → Agrees b c → Agrees a c
  | _, _, _, .block h, .block h' => .block (h.trans h')
  | _, _, _, .call h, .call h' => .call (h.trans h')
  | _, _, _, .literal h, .literal h' => .literal (h.trans h')
  | _, _, _, .assign h, .assign h' => .assign (h.trans h')
  | _, _, _, .var, .var => .var
  | _, _, _, .binary hl hr, .binary hl' hr' => .binary (hl.trans hl') (hr.trans hr')

theorem AgreesAll.trans : ∀ {as bs cs : List Expr}, AgreesAll as bs → AgreesAll bs cs → AgreesAll as cs
  | _, _, _, .nil, .nil => .nil
  | _, _, _, .cons h hs, .cons h' hs' => .cons (h.trans h') (hs.trans hs')

end

mutual

/-- Equal trees are one tree if equal literals of theirs are. -/
theorem Agrees.eq : ∀ {a b : Expr}, Agrees a b →
    (∀ v ∈ a.literals, ∀ w ∈ b.literals, Value.Equal v w → v = w) → a = b
  | _, _, .block h, hv => by rw [h.eq hv]
  | _, _, .call h, hv => by rw [h.eq hv]
  | _, _, .literal h, hv => by rw [hv _ (by simp [literals]) _ (by simp [literals]) h]
  | _, _, .assign h, hv => by rw [h.eq hv]
  | _, _, .var, _ => rfl
  | _, _, .binary hl hr, hv => by
    rw [hl.eq fun v hv' w hw => hv v (List.mem_append_left _ hv') w (List.mem_append_left _ hw),
      hr.eq fun v hv' w hw => hv v (List.mem_append_right _ hv') w (List.mem_append_right _ hw)]

theorem AgreesAll.eq : ∀ {as bs : List Expr}, AgreesAll as bs →
    (∀ v ∈ literalsAll as, ∀ w ∈ literalsAll bs, Value.Equal v w → v = w) → as = bs
  | _, _, .nil, _ => rfl
  | _, _, .cons h hs, hv => by
    rw [h.eq fun v hv' w hw => hv v (List.mem_append_left _ hv') w (List.mem_append_left _ hw),
      hs.eq fun v hv' w hw => hv v (List.mem_append_right _ hv') w (List.mem_append_right _ hw)]

end

/-- A sign tells equal numbers apart only if they are zeros, and no literal of a text has one. -/
theorem eq_of_equal_literals {x y : Float} {q r : ℚ} (hx : Double.Rounds false q x)
    (hy : Double.Rounds false r y) (h : (x == y) = true) : x = y := by
  rcases Double.eq_or_zero_of_beq h with h | ⟨s, t, hs, ht⟩
  · exact h
  · have hsign {z : Float} {s : Bool} {q : ℚ} (hz : Double.Rounds false q z)
        (hs : Double.ofFloat z = .finite s 0 Double.leastExponent) : s = false := by
      rcases hz.infinite_or_finite with hd | ⟨m, e, hd⟩
      · cases hs.symm.trans hd
      · cases hs.symm.trans hd
        rfl
    rw [hsign hx hs] at hs
    rw [hsign hy ht] at ht
    exact Double.ofFloat_injective (hs.trans ht.symm)

variable {source text source' text' : String} {a b : Expr}

theorem ReadFrom.eq_of_equal (ha : a.ReadFrom source text) (hb : b.ReadFrom source' text') :
    ∀ v ∈ a.literals, ∀ w ∈ b.literals, Value.Equal v w → v = w := by
  intro v hv w hw h
  cases h with
  | nothing | boolean | native => rfl
  | number h =>
    rcases ha.literals _ hv with ⟨c, hc⟩ | ⟨n, x, hx, hr⟩
    · cases hc
    · rcases hb.literals _ hw with ⟨c, hc⟩ | ⟨k, y, hy, hr'⟩
      · cases hc
      · cases hx
        cases hy
        rw [eq_of_equal_literals hr hr' h]

/-- Trees that are read from texts are equal if they are one tree: in shape, names, operators and
places, and in the bits of their numbers. -/
theorem ReadFrom.beq_iff_eq (ha : a.ReadFrom source text) (hb : b.ReadFrom source' text') :
    (a == b) = true ↔ a = b := by
  constructor
  · intro h
    exact (agrees_of_same h).eq (ha.eq_of_equal hb)
  · intro h
    subst h
    exact ha.beq_self

theorem beq_comm (a b : Expr) : (a == b) = (b == a) :=
  Bool.eq_iff_iff.2 ((beq_iff_agrees.trans ⟨.symm, .symm⟩).trans beq_iff_agrees.symm)

/-- A tree is equal to itself if it has no literal that is no number. -/
theorem beq_self_iff : (a == a) = true ↔ ∀ v ∈ a.literals, v.isNan = false := by
  have h := same_self_iff a
  simp only [Value.beq_iff_equal, Value.equal_self_iff] at h
  exact h

/-- Equality of trees is symmetric and transitive, and holds of a tree and itself unless a literal in
it is a number that is none. Two trees that are read from texts are equal just if they are one tree,
with all places and all bits of numbers; then they run alike. -/
theorem equality_of_trees (a b c : Expr) :
    (a == b) = (b == a) ∧
    ((a == b) = true → (b == c) = true → (a == c) = true) ∧
    (a != b) = !(a == b) ∧
    ((a == a) = true ↔ ∀ v ∈ a.literals, v.isNan = false) ∧
    ∀ source text source' text', a.ReadFrom source text → b.ReadFrom source' text' →
      ((a == b) = true ↔ a = b) ∧ ((a == b) = true → ∀ m : Machine, a.eval m = b.eval m) := by
  refine ⟨beq_comm a b, fun hab hbc => ?_, rfl, beq_self_iff,
    fun _ _ _ _ ha hb => ⟨ha.beq_iff_eq hb, ?_⟩⟩
  · exact beq_iff_agrees.2 ((beq_iff_agrees.1 hab).trans (beq_iff_agrees.1 hbc))
  · intro h m
    rw [(ha.beq_iff_eq hb).1 h]

/-- A number and a semicolon are read as one tree with and without a blank between them, and as another
one from a source of another name. -/
theorem equality_of_trees_respaced : ∃ a b : Expr,
    parseProgram "in" "1;" = .ok a ∧ parseProgram "in" "1 ;" = .ok a ∧
      parseProgram "out" "1;" = .ok b ∧ (a == a) = true ∧ (a == b) = false := by
  have hdigits : Digits "1".toList := List.all_eq_true.1 (by decide)
  obtain ⟨x, hx, -⟩ := Numeral.read?_of_digits hdigits (by decide)
  let tree (source : String) : Expr := block [literal (.number x) (.start source)] (.start source)
  let number (source : String) : Token := ⟨.number, "1", .start source⟩
  let mark (source : String) (n : Int) : Token := ⟨.semicolon, ";", ⟨source, 1, n⟩⟩
  let last (source : String) (n : Int) : Token := ⟨.finish, "", ⟨source, 1, n⟩⟩
  have hmark (source : String) (n : Int) : (mark source n).kind = .semicolon := rfl
  have hparse (source text : String) (n : Int)
      (ht : tokenize source text =
        .ok ⟨[number source, mark source n], last source (n + 1), rfl⟩) :
      parseProgram source text = .ok (tree source) := by
    have hw := WrittenProgram.last (Written.number (t := number source) rfl hx) (hmark source n)
    exact parseProgram_eq_ok_iff.2 ⟨_, _, none, ht, hw, by simp [Canonical.literal], rfl⟩
  have ha := hparse "in" "1;" 2 (by cbv)
  have ha' := hparse "in" "1 ;" 3 (by cbv)
  have hb := hparse "out" "1;" 2 (by cbv)
  obtain ⟨-, -, -, -, hone⟩ := equality_of_trees (tree "in") (tree "in") (tree "in")
  obtain ⟨-, -, -, -, htwo⟩ := equality_of_trees (tree "in") (tree "out") (tree "in")
  refine ⟨_, _, ha, ha', hb, ?_, Bool.eq_false_iff.2 fun h => ?_⟩
  · exact (hone _ _ _ _ (readFrom_of_parseProgram ha) (readFrom_of_parseProgram ha')).1.2 rfl
  · have heq := (htwo _ _ _ _ (readFrom_of_parseProgram ha) (readFrom_of_parseProgram hb)).1.1 h
    have hsource : "in" = "out" := congrArg (fun e => e.start.source) heq
    exact absurd hsource (by decide)

end Expr

end Scriptlet
