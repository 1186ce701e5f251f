import Mathlib.Data.List.Chain
import Scriptlet.Proofs.CursorWalk
import Scriptlet.Proofs.DeepNesting

/-!
How a cursor goes over its tokens. Reading takes it forward by one token at a time, in whatever room
it is done. It never looks or moves past the end of the list, and it never begins a second operand on
the same token, so that it comes to an end: with a tree, with a fault of syntax, or in front of a
name that opens more than there is room for.
-/

namespace Scriptlet

open Token

namespace Cursor

namespace Event

def before : Event → Nat
  | look i | move i _ | operand i => i

def after : Event → Nat
  | look i | operand i => i
  | move _ j => j

/-- Each event begins where the one in front of it has ended. -/
def Path : Nat → List Event → Nat → Prop
  | i, [], j => i = j
  | i, e :: log, j => e.before = i ∧ Path e.after log j

end Event

/-- `Trail lo c log hi d`: the events lead from `c` to `d`. Looks and moves are made in front of the
last end mark only. The next operand may not begin in front of `lo`; when it has begun, no other one
may begin on the same token, and in the end none in front of `hi`. -/
inductive Trail : Nat → Cursor → List Event → Nat → Cursor → Prop
  | stop {lo : Nat} {c : Cursor} : Trail lo c [] lo c
  | look {lo hi : Nat} {c d : Cursor} {log : List Event} (hc : c.index < c.tokens.body.length)
      (ht : Trail lo c log hi d) : Trail lo c (.look c.index :: log) hi d
  | move {lo hi : Nat} {c d : Cursor} {log : List Event} (hc : c.index < c.tokens.body.length)
      (ht : Trail lo c.next log hi d) : Trail lo c (.move c.index c.next.index :: log) hi d
  | operand {lo hi : Nat} {c d : Cursor} {log : List Event} (hlo : lo ≤ c.index)
      (ht : Trail (c.index + 1) c log hi d) : Trail lo c (.operand c.index :: log) hi d

namespace Trail

variable {lo mid hi : Nat} {b c d : Cursor} {log more : List Event}

theorem append (h : Trail lo b log mid c) (h' : Trail mid c more hi d) :
    Trail lo b (log ++ more) hi d := by
  induction h with
  | stop => exact h'
  | look hc _ ih => exact .look hc (ih h')
  | move hc _ ih => exact .move hc (ih h')
  | operand hlo _ ih => exact .operand hlo (ih h')

theorem path (h : Trail lo c log hi d) : Event.Path c.index log d.index := by
  induction h with
  | stop => rfl
  | look _ _ ih | move _ _ ih | operand _ _ ih => exact ⟨rfl, ih⟩

end Trail

/-- A walk from `c` has left a trail, and what it has read is as `Q` says. -/
inductive Treads {α : Type} (lo : Nat) (c : Cursor) (Q : α → Nat → Cursor → Prop) :
    Reading α × List Event → Prop
  | read {a : α} {hi : Nat} {d : Cursor} {log : List Event} (ht : Trail lo c log hi d)
      (hq : Q a hi d) : Treads lo c Q ((.ok a, d), log)
  | stopped {report : Diagnostic} {hi : Nat} {d : Cursor} {log : List Event}
      (ht : Trail lo c log hi d) : Treads lo c Q ((.error report, d), log)

/-- The cursor is in front of the last end mark, and an operand may begin behind it. -/
def Settled (hi : Nat) (d : Cursor) : Prop := hi ≤ d.index + 1 ∧ d.index < d.tokens.body.length

section settled

variable {lo : Nat} {c : Cursor}

theorem settled_of_kind (hlo : lo ≤ c.index + 1) (hk : c.current.kind ≠ .finish) : Settled lo c :=
  ⟨hlo, index_lt_of_kind hk⟩

theorem Settled.le_index_next (h : Settled lo c) : lo ≤ c.next.index := by
  rw [index_next h.2]
  exact h.1

end settled

namespace Walk

variable {α β : Type} {lo hi mid n : Nat} {c d : Cursor} {log : List Event}
  {Q : α → Nat → Cursor → Prop} {Q' : β → Nat → Cursor → Prop} {w : Walk α} {f : α → Walk β} {a : α}
  {inner : Walk Expr}

theorem treads_pure (hq : Q a lo c) : Treads lo c Q ((pure a : Walk α) c) := .read .stop hq

theorem treads_refuse (wanted : Wanted) : Treads lo c Q ((refuse wanted : Walk α) c) :=
  .stopped .stop

theorem treads_giveUp : Treads lo c Q ((giveUp : Walk α) c) := .stopped .stop

/-- The trail of what follows is put behind the one that is there. -/
theorem treads_step (ht : Trail lo c log mid d) (hw : w c = ((.ok a, d), log))
    (hf : Treads mid d Q' (f a d)) : Treads lo c Q' ((w >>= f) c) := by
  have hbind : (w >>= f) c = ((f a d).1, log ++ (f a d).2) := by simp only [bind, hw]
  rw [hbind]
  generalize f a d = r at hf ⊢
  cases hf with
  | read ht' hq => exact .read (ht.append ht') hq
  | stopped ht' => exact .stopped (ht.append ht')

theorem treads_bind (hw : Treads lo c Q (w c))
    (hf : ∀ {a : α} {mid : Nat} {d : Cursor}, Q a mid d → Treads mid d Q' (f a d)) :
    Treads lo c Q' ((w >>= f) c) := by
  generalize hr : w c = r at hw
  cases hw with
  | read ht hq => exact treads_step ht hr (hf hq)
  | stopped ht =>
    simp only [bind, hr]
    exact .stopped ht

/-- What is made of a reading leaves the cursor where it is. -/
theorem treads_map {P : Nat → Cursor → Prop} (hw : Treads lo c (fun _ => P) (w c)) (g : α → β) :
    Treads lo c (fun _ => P) ((w >>= fun a => pure (g a)) c) :=
  treads_bind hw fun h => treads_pure h

section calls

variable {g : Token → Walk β} {k : Unit → Walk β} {b : Bool → Walk β}

theorem treads_current (h : Treads lo c Q' (g c.current c)) : Treads lo c Q' ((current >>= g) c) :=
  treads_step .stop rfl h

theorem treads_look (hc : c.index < c.tokens.body.length) (h : Treads lo c Q' (g c.peek c)) :
    Treads lo c Q' ((look >>= g) c) :=
  treads_step (.look hc .stop) rfl h

theorem treads_move (hc : c.index < c.tokens.body.length) (h : Treads lo c.next Q' (k () c.next)) :
    Treads lo c Q' ((move >>= k) c) :=
  treads_step (.move hc .stop) rfl h

theorem treads_beginOperand (hlo : lo ≤ c.index) (h : Treads (c.index + 1) c Q' (k () c)) :
    Treads lo c Q' ((beginOperand >>= k) c) :=
  treads_step (.operand hlo .stop) rfl h

theorem treads_accept (kind : Kind) (hc : c.index < c.tokens.body.length)
    (hyes : c.peek.kind = kind → Treads lo c.next Q' (b true c.next))
    (hno : c.peek.kind ≠ kind → Treads lo c Q' (b false c)) :
    Treads lo c Q' ((accept kind >>= b) c) := by
  by_cases hk : c.peek.kind = kind
  · refine treads_step (.look hc (.move hc .stop)) ?_ (hyes hk)
    simp [accept, bind, look, move, pure, hk]
  · refine treads_step (.look hc .stop) ?_ (hno hk)
    simp [accept, bind, look, pure, hk]

end calls

/-- Wherever the floor lets an operand begin, the walk may be made. -/
def Steady (inner : Walk Expr) : Prop :=
  ∀ ⦃lo : Nat⦄ ⦃c : Cursor⦄, lo ≤ c.index → Treads lo c (fun _ => Settled) (inner c)

theorem treads_arguments (hi : inner.Steady) (hc : Settled lo c) :
    Treads lo c (fun _ => Settled) (arguments inner n c) := by
  induction n generalizing lo c with
  | zero => exact treads_giveUp
  | succ n ih =>
    -- the floor is one token ahead of the cursor at most, and each move makes up for that
    refine treads_move hc.2 (treads_bind (hi hc.le_index_next) fun {_ mid d} hd => ?_)
    refine treads_move hd.2 (treads_current ?_)
    have hlo := Nat.le_succ_of_le hd.le_index_next
    split
    next hk => exact treads_pure (settled_of_kind hlo (by simp [hk]))
    next =>
      split
      next hm => exact treads_map (ih (settled_of_kind hlo (by simp [hm]))) _
      next => exact treads_refuse _

theorem treads_named (hi : inner.Steady) (hc : Settled lo c) :
    Treads lo c (fun _ => Settled) (named inner n c) := by
  refine treads_look hc.2 (treads_current ?_)
  have hlo := hc.le_index_next
  rw [← current_next]
  split
  next hp =>
    have hnext : Settled lo c.next := settled_of_kind (Nat.le_succ_of_le hlo) (by simp [hp])
    refine treads_move hc.2 (treads_accept .rightParen hnext.2 (fun hk => ?_) fun _ => ?_)
    · rw [← current_next] at hk
      have hlo' := Nat.le_succ_of_le hnext.le_index_next
      exact treads_pure (settled_of_kind hlo' (by simp [hk]))
    · exact treads_map (treads_arguments hi hnext) _
  next =>
    split
    next hm =>
      have hnext : Settled lo c.next := settled_of_kind (Nat.le_succ_of_le hlo) (by simp [hm])
      exact treads_move hc.2 (treads_move hnext.2 (treads_map (hi hnext.le_index_next) _))
    next => exact treads_pure hc

theorem treads_bare (hc : Settled lo c) : Treads lo c (fun _ => Settled) (bare c) := by
  refine treads_look hc.2 (treads_current ?_)
  split
  next => exact treads_giveUp
  next => exact treads_pure hc

theorem Steady.operand {inner : Option (Walk Expr)} (hi : ∀ w ∈ inner, w.Steady) (n : Nat) :
    (operand inner n).Steady := by
  intro lo c hlo
  refine treads_beginOperand hlo (treads_current ?_)
  have hc (hk : c.current.kind ≠ .finish) : Settled (c.index + 1) c :=
    settled_of_kind (Nat.le_refl _) hk
  cases hk : c.current.kind with
  | identifier =>
    cases inner with
    | some w => exact treads_named (hi w rfl) (hc (by simp [hk]))
    | none => exact treads_bare (hc (by simp [hk]))
  | number =>
    cases Numeral.read? c.current.text with
    | some x => exact treads_pure (hc (by simp [hk]))
    | none => exact treads_refuse _
  | trueWord | falseWord => exact treads_pure (hc (by simp [hk]))
  | _ => exact treads_refuse _

theorem Steady.chain {atom : Walk Expr} (ha : atom.Steady) (n : Nat)
    (links : List (Expr × Operator)) : (chain atom n links).Steady := by
  induction n generalizing links with
  | zero => exact fun _ _ _ => treads_giveUp
  | succ n ih =>
    intro lo c hlo
    refine treads_bind (ha hlo) fun {e mid d} hd => treads_look hd.2 ?_
    rw [← current_next]
    cases hop : d.next.current.kind.operator? with
    | some op =>
      have hnext : Settled mid d.next :=
        settled_of_kind (Nat.le_succ_of_le hd.le_index_next) (Kind.ne_of_operator? hop rfl)
      exact treads_move hd.2 (treads_move hnext.2 (ih _ hnext.le_index_next))
    | none => exact treads_pure hd

end Walk

/-- What a cursor can be told to do. -/
inductive Call where
  | current
  | peek
  | get (i : Nat)
  | next
  | accept (kind : Kind)
  | readExpression (room : Nat)
  | readBlock (room : Nat)

/-- The cursor behind a call. Looking leaves it as it is, a reading that fails leaves it on the
token where it has stopped. -/
def after (c : Cursor) : Call → Cursor
  | .current | .peek | .get _ => c
  | .next => c.next
  | .accept kind => (c.accept kind).2
  | .readExpression room => (c.expression room).2
  | .readBlock room => (c.block room).2

def drive (c : Cursor) (calls : List Call) : Cursor := calls.foldl after c

theorem Event.Path.le {i j : Nat} {log : List Event} (h : Event.Path i log j)
    (ho : (i :: log.map Event.after).Pairwise (· ≤ ·)) : i ≤ j := by
  induction log generalizing i with
  | nil => exact Nat.le_of_eq h
  | cons e log ih =>
    obtain ⟨hfirst, ho⟩ := List.pairwise_cons.1 ho
    exact Nat.le_trans (hfirst _ List.mem_cons_self) (ih h.2 ho)

/-- A name, an equals mark and a word: the word is the second operand. Behind it the end mark is
looked at twice, for what continues the value and for what continues the assignment. -/
example :
    let token (kind : Kind) : Token := ⟨kind, "", .start "in"⟩
    let c := start ⟨[token .identifier, token .assign, token .trueWord], token .finish, rfl⟩
    (Walk.expression c.ampleRoom 1 c).2 =
      [.operand 0, .look 0, .move 0 1, .move 1 2, .operand 2, .look 2, .look 2] := by
  decide

end Cursor

end Scriptlet
