import Scriptlet.Evaluation
import Scriptlet.Proofs.ProgramReading
import Scriptlet.Proofs.TokenLayout

/-!
Trees and tokens with all their places changed. Places decide neither what a text is read as nor
what tokens spell nor how a tree runs; they only come back in the report of a failure.
-/

namespace Scriptlet

variable (f : Position → Position)

def Token.relocate (t : Token) : Token := { t with position := f t.position }

/-- A scan that starts at another place reads the same tokens, as far as places are counted on from
there as they are from here. -/
theorem Scan.of_relocate (here : Position) (text : List Char)
    (hf : ∀ front, f (here.afterText front) = (f here).afterText front) : of (f here) text =
      let scan := of here text
      ⟨scan.tokens.map (Token.relocate f), f scan.stop, scan.rest⟩ := by
  fun_induction of here text with
  | case1 here => exact of_nil _
  | case2 here c tail hc ih =>
    have hafter : f (here.after c) = (f here).after c := hf [c]
    rw [of_blank hc, ← hafter]
    exact ih fun front => by rw [hafter]; exact hf (c :: front)
  | case3 here c tail hc hn => exact of_unknown hc hn
  | case4 here c tail hc l rest hn later ih =>
    have hlater := hf l.text
    rw [of_next hc hn, ← hlater, ih fun front => by
      rw [hlater, ← Position.afterText_append, ← Position.afterText_append]
      exact hf (l.text ++ front)]
    rfl

namespace Expr

mutual

def relocate : Expr → Expr
  | block ss p => block (relocateAll ss) (f p)
  | call g args p => call g (relocateAll args) (f p)
  | literal v p => literal v (f p)
  | assign x e p => assign x (relocate e) (f p)
  | var x p => var x (f p)
  | binary op lhs rhs p => binary op (relocate lhs) (relocate rhs) (f p)

def relocateAll : List Expr → List Expr
  | [] => []
  | e :: es => relocate e :: relocateAll es

end

theorem relocateAll_eq_map (es : List Expr) : relocateAll f es = es.map (relocate f) := by
  induction es with
  | nil => rfl
  | cons e es ih => rw [relocateAll, ih, List.map_cons]

@[simp] theorem isTerm_relocate (e : Expr) : (e.relocate f).isTerm = e.isTerm := by
  cases e <;> rfl

theorem Canonical.relocate {e : Expr} (h : e.Canonical) : (e.relocate f).Canonical := by
  induction h with
  | var => exact .var
  | literal => exact .literal
  | assign _ ih => exact .assign ih
  | @call g args p _ ih =>
    rw [Expr.relocate, relocateAll_eq_map]
    refine .call fun a ha => ?_
    obtain ⟨b, hb, rfl⟩ := List.mem_map.1 ha
    exact ih b hb
  | binary ht _ _ ihl ihr => exact .binary (by rwa [isTerm_relocate]) ihl ihr

mutual

theorem Written.relocate {e : Expr} {ts : List Token} :
    Written e ts → Written (e.relocate f) (ts.map (Token.relocate f))
  | @Written.var t ht => @Written.var (t.relocate f) ht
  | @Written.trueWord t ht => @Written.trueWord (t.relocate f) ht
  | @Written.falseWord t ht => @Written.falseWord (t.relocate f) ht
  | @Written.number t _ ht hx => @Written.number (t.relocate f) _ ht hx
  | @Written.assign name mark _ _ hn hm hv =>
    @Written.assign (name.relocate f) (mark.relocate f) _ _ hn hm hv.relocate
  | @Written.call name paren close _ ts hn hp ha hc => by
    have h := @Written.call (name.relocate f) (paren.relocate f) (close.relocate f) _ _ hn hp
      ha.relocate hc
    rw [List.map_append]
    exact h
  | @Written.binary op lhs rhs first mark ts us hl hm hr => by
    have hl : Written (lhs.relocate f) (first.relocate f :: ts.map (Token.relocate f)) :=
      hl.relocate
    have h := @Written.binary op _ _ _ (mark.relocate f) _ _ hl hm hr.relocate
    rw [List.map_append]
    exact h

theorem WrittenArgs.relocate {es : List Expr} {ts : List Token} :
    WrittenArgs es ts → WrittenArgs (relocateAll f es) (ts.map (Token.relocate f))
  | .none => .none
  | .last he => .last he.relocate
  | @WrittenArgs.more e es comma ts us he hc hs hne => by
    have hne : relocateAll f es ≠ [] := by simpa [relocateAll_eq_map] using hne
    have h := @WrittenArgs.more _ _ (comma.relocate f) _ _ he.relocate hc hs.relocate hne
    rw [List.map_append]
    exact h

end

end Expr

theorem WrittenProgram.relocate {es : List Expr} {last : Option Expr} {ts : List Token}
    (h : WrittenProgram es last ts) : WrittenProgram (es.map (Expr.relocate f))
      (last.map (Expr.relocate f)) (ts.map (Token.relocate f)) := by
  induction h with
  | trailing hw => exact .trailing (hw.relocate f)
  | @last e mark ts hw hm =>
    have h := @WrittenProgram.last _ (mark.relocate f) _ (hw.relocate f) hm
    simpa using h
  | @more e es last mark ts us hw hm _ ih =>
    have h := @WrittenProgram.more _ _ _ (mark.relocate f) _ _ (hw.relocate f) hm ih
    simpa using h

def CallFault.relocate (fault : CallFault) : CallFault :=
  { fault with position := f fault.position }

namespace Outcome

variable {α β : Type}

def relocate (o : Outcome α) : Outcome α := ⟨o.result.mapError (CallFault.relocate f), o.machine⟩

theorem relocate_andThen {o : Outcome α} {next : α → Machine → Outcome β} :
    (o.andThen next).relocate f = (o.relocate f).andThen fun a m => (next a m).relocate f := by
  obtain ⟨result, m⟩ := o
  cases result <;> rfl

end Outcome

namespace Expr

mutual

theorem evalChain_relocate (pending : Pending) : ∀ (e : Expr) (m : Machine),
    evalChain pending (e.relocate f) m = (evalChain pending e m).relocate f
  | literal _ _, _ | var _ _, _ => rfl
  | assign _ e _, m => by
    rw [relocate, evalChain, evalChain, Outcome.relocate_andThen, evalChain_relocate [] e m]
    rfl
  | binary op lhs rhs _, m => by
    rw [relocate, evalChain, evalChain, Outcome.relocate_andThen, evalChain_relocate [] lhs m]
    simp only [evalChain_relocate _ rhs]
  | block ss _, m => by
    rw [relocate, evalChain, evalChain, Outcome.relocate_andThen, evalAll_relocate ss m]
    rfl
  | call g args start, m => by
    rw [relocate, evalChain, evalChain]
    cases m.scope.lookup g with
    | native native =>
      simp only
      rw [Outcome.relocate_andThen, evalAll_relocate args m]
      rfl
    | _ => rfl

theorem evalAll_relocate : ∀ (es : List Expr) (m : Machine),
    evalAll (relocateAll f es) m = (evalAll es m).relocate f
  | [], _ => rfl
  | e :: es, m => by
    rw [relocateAll, evalAll, evalAll, Outcome.relocate_andThen, evalChain_relocate [] e m]
    simp only [evalAll_relocate es, Outcome.relocate_andThen]
    rfl

end

theorem eval_relocate (e : Expr) (m : Machine) : (e.relocate f).eval m = (e.eval m).relocate f :=
  evalChain_relocate f [] e m

end Expr

end Scriptlet
