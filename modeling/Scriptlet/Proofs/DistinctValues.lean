import Scriptlet.Proofs.NumberHash
import Scriptlet.Proofs.ValueOrder

/-!
Values in hashed containers. Equality of values is symmetric and transitive, and equal values have
equal hashes; so repeats are found in the buckets of a table as well as among all values. Only a
number that is none differs from itself, and every one of these is kept.
-/

namespace Scriptlet

namespace Value

/-- How two values come to be equal. -/
inductive Equal : Value → Value → Prop
  | nothing : Equal nothing nothing
  | number {x y : Float} (h : (x == y) = true) : Equal (number x) (number y)
  | boolean (b : Bool) : Equal (boolean b) (boolean b)
  | native (f : Native) : Equal (native f) (native f)

section Equality

variable {v w u : Value}

theorem beq_iff_equal : (v == w) = true ↔ Equal v w := by
  constructor
  · intro h
    cases v with
    | nothing => cases w <;> first | exact .nothing | cases h
    | number x => cases w <;> first | exact .number h | cases h
    | boolean b =>
      cases w with
      | boolean c => exact eq_of_beq (a := b) h ▸ .boolean b
      | nothing | number | native => cases h
    | native f =>
      cases w with
      | native g => exact eq_of_beq (a := f) h ▸ .native f
      | nothing | number | boolean => cases h
  · intro h
    cases h with
    | nothing => rfl
    | number h => exact h
    | boolean b => exact beq_self_eq_true b
    | native f => exact beq_self_eq_true f

theorem Equal.kind_eq (h : Equal v w) : v.kind = w.kind := by
  cases h <;> rfl

theorem Equal.symm (h : Equal v w) : Equal w v := by
  cases h with
  | number h => exact .number (Double.beq_symm h)
  | nothing | boolean | native => constructor

theorem Equal.trans (hvw : Equal v w) (hwu : Equal w u) : Equal v u := by
  cases hvw with
  | number h =>
    cases hwu with
    | number h' => exact .number (Double.beq_trans h h')
  | nothing | boolean | native => exact hwu

theorem equal_self_iff : Equal v v ↔ v.isNan = false := by
  cases v with
  | number x =>
    have hx : Equal (number x) (number x) ↔ (x == x) = true := beq_iff_equal.symm
    rw [hx, Double.beq_self_iff, isNan, decide_eq_false_iff_not]
  | nothing | boolean | native => exact iff_of_true (by constructor) rfl

/-- Equal values have equal hashes, in whatever objects they are. -/
theorem Equal.hashCode_eq (host : Hashing) (i j : ℕ) (h : Equal v w) :
    v.hashCode host i = w.hashCode host j := by
  cases h with
  | number h =>
    obtain ⟨p, q, hp, hq, rfl⟩ := Double.beq_iff.1 h
    exact host.number_eq i j hp hq
  | nothing | boolean | native => rfl

theorem beq_comm (v w : Value) : (v == w) = (w == v) :=
  Bool.eq_iff_iff.2 (beq_iff_equal.trans (Iff.trans ⟨.symm, .symm⟩ beq_iff_equal.symm))

end Equality

theorem unseen_concat (seen values : List Value) (v : Value) :
    distinct.unseen seen (values ++ [v]) = distinct.unseen seen values ++
      if (seen ++ distinct.unseen seen values).any (· == v) then [] else [v] := by
  induction values generalizing seen with
  | nil => by_cases h : seen.any (· == v) = true <;> simp [distinct.unseen, h]
  | cons w rest ih =>
    by_cases h : seen.any (· == w) = true
    · simpa only [List.cons_append, distinct.unseen, if_pos h] using ih seen
    · have hany (kept : List Value) :
          (seen ++ w :: kept).any (· == v) = (w :: seen ++ kept).any (· == v) := by
        simp only [List.any_append, List.any_cons, List.cons_append, Bool.or_left_comm]
      simp only [List.cons_append, distinct.unseen, if_neg h, ih (w :: seen), hany]

/-- One value more is dropped if an equal one is kept already, and kept otherwise. -/
theorem distinct_concat (values : List Value) (v : Value) : distinct (values ++ [v]) =
    if (distinct values).any (· == v) then distinct values else distinct values ++ [v] := by
  have h := unseen_concat [] values v
  rw [List.nil_append] at h
  rw [distinct, h, distinct]
  split <;> simp

/-- What is kept of a list is what was kept first if the list goes on. -/
theorem distinct_grows (front back : List Value) : distinct front <+: distinct (front ++ back) := by
  induction back using List.reverseRecOn with
  | nil => rw [List.append_nil]
  | append_singleton back v ih =>
    rw [← List.append_assoc, distinct_concat]
    split
    · exact ih
    · exact ih.trans (List.prefix_append _ _)

theorem distinct_sublist (values : List Value) : (distinct values).Sublist values := by
  induction values using List.reverseRecOn with
  | nil => exact .slnil
  | append_singleton values v ih =>
    rw [distinct_concat]
    split
    · exact ih.trans (List.sublist_append_left _ _)
    · exact ih.append (.refl _)

theorem pairwise_distinct (values : List Value) :
    (distinct values).Pairwise fun v w => (v == w) = false := by
  induction values using List.reverseRecOn with
  | nil => exact .nil
  | append_singleton values v ih =>
    rw [distinct_concat]
    split
    · exact ih
    next h =>
      refine List.pairwise_append.2 ⟨ih, List.pairwise_singleton _ _, fun w hw u hu => ?_⟩
      rw [List.mem_singleton.1 hu]
      exact Bool.eq_false_iff.2 fun heq => h (List.any_eq_true.2 ⟨w, hw, heq⟩)

/-- Nothing is dropped if no two values are equal. -/
theorem distinct_of_pairwise {values : List Value}
    (h : values.Pairwise fun v w => (v == w) = false) : distinct values = values := by
  induction values using List.reverseRecOn with
  | nil => rfl
  | append_singleton values v ih =>
    obtain ⟨hvalues, -, hlast⟩ := List.pairwise_append.1 h
    rw [distinct_concat, ih hvalues, if_neg]
    intro hany
    obtain ⟨w, hw, heq⟩ := List.any_eq_true.1 hany
    exact Bool.eq_false_iff.1 (hlast w hw v (List.mem_singleton_self v)) heq

/-- No value is equal to a number that is none. -/
theorem filter_isNan_distinct (values : List Value) :
    (distinct values).filter isNan = values.filter isNan := by
  induction values using List.reverseRecOn with
  | nil => rfl
  | append_singleton values v ih =>
    rw [distinct_concat, List.filter_append]
    split
    next h =>
      obtain ⟨w, -, heq⟩ := List.any_eq_true.1 h
      have hv : v.isNan = false :=
        equal_self_iff.1 ((beq_iff_equal.1 heq).symm.trans (beq_iff_equal.1 heq))
      rw [ih, List.filter_singleton, hv]
      simp
    next => rw [List.filter_append, ih]

/-- What becomes of one value: it is kept behind what is kept of the values before it, or an equal one
is among these. -/
theorem distinct_split (front back : List Value) (v : Value) :
    distinct front <+: distinct (front ++ v :: back) ∧
      (distinct front ++ [v] <+: distinct (front ++ v :: back) ∧
          (∀ w ∈ distinct front, (w == v) = false) ∨
        distinct (front ++ [v]) = distinct front ∧ ∃ w ∈ distinct front, (w == v) = true) := by
  have hstep := distinct_concat front v
  have hmore := distinct_grows (front ++ [v]) back
  rw [List.append_assoc, List.singleton_append] at hmore
  refine ⟨distinct_grows front _, ?_⟩
  by_cases h : (distinct front).any (· == v) = true
  · rw [if_pos h] at hstep
    exact .inr ⟨hstep, List.any_eq_true.1 h⟩
  · rw [if_neg h] at hstep
    refine .inl ⟨hstep ▸ hmore, fun w hw => Bool.eq_false_iff.2 fun heq => h ?_⟩
    exact List.any_eq_true.2 ⟨w, hw, heq⟩

/-- The values without repeats as a hashed container finds them. A value is compared only with those
in the bucket that its hash leads to, and there only with those of the same hash, which are kept with
their hashes. Each value is in an object of its own. -/
def distinctHashed (host : Hashing) (slot : ℤ → ℕ) (values : List Value) : List Value :=
  enter (fun _ => []) 0 values
where
  enter (buckets : ℕ → List (ℤ × Value)) (object : ℕ) : List Value → List Value
    | [] => []
    | v :: rest =>
      let code := v.hashCode host object
      let bucket := buckets (slot code)
      if bucket.any fun entry => entry.1 == code && entry.2 == v then enter buckets (object + 1) rest
      else v :: enter (Function.update buckets (slot code) ((code, v) :: bucket)) (object + 1) rest

section Buckets

variable (host : Hashing) (slot : ℤ → ℕ)

/-- The entries of a container are values with their hashes. -/
def Hashed (entries : List (ℤ × Value)) : Prop :=
  ∀ entry ∈ entries, ∃ object, entry.1 = entry.2.hashCode host object

variable {host}

/-- The bucket of a value holds all values that are equal to it. -/
theorem any_bucket {entries : List (ℤ × Value)} (h : Hashed host entries) (object : ℕ) (v : Value) :
    ((entries.filter fun entry => slot entry.1 = slot (v.hashCode host object)).any fun entry =>
      entry.1 == v.hashCode host object && entry.2 == v) = (entries.map Prod.snd).any (· == v) := by
  rw [List.any_filter, List.any_map, Bool.eq_iff_iff, List.any_eq_true, List.any_eq_true]
  refine exists_congr fun entry => and_congr_right fun he => ?_
  obtain ⟨i, hi⟩ := h entry he
  by_cases heq : (entry.2 == v) = true
  · have hcode := hi.trans ((beq_iff_equal.1 heq).hashCode_eq host i object)
    simp [heq, hcode]
  · simp [heq]

theorem enter_eq_unseen {entries : List (ℤ × Value)} (h : Hashed host entries) (object : ℕ)
    (values : List Value) :
    distinctHashed.enter host slot (fun i => entries.filter fun entry => slot entry.1 = i) object
      values = distinct.unseen (entries.map Prod.snd) values := by
  induction values generalizing entries object with
  | nil => rfl
  | cons v rest ih =>
    set code := v.hashCode host object with hcode
    have hbuckets : Function.update (fun i => entries.filter fun entry => slot entry.1 = i)
        (slot code) ((code, v) :: entries.filter fun entry => slot entry.1 = slot code) =
          fun i => ((code, v) :: entries).filter fun entry => slot entry.1 = i := by
      funext i
      by_cases hi : slot code = i
      · subst hi
        simp
      · simp [hi, Function.update_of_ne (Ne.symm hi)]
    have hentries : Hashed host ((code, v) :: entries) :=
      List.forall_mem_cons.2 ⟨⟨object, hcode⟩, h⟩
    have hany := any_bucket slot h object v
    rw [← hcode] at hany
    rw [distinctHashed.enter, distinct.unseen]
    simp only [← hcode, hany, hbuckets, ih h, ih hentries, List.map_cons]

end Buckets

theorem distinctHashed_eq_distinct (host : Hashing) (slot : ℤ → ℕ) (values : List Value) :
    distinctHashed host slot values = distinct values := by
  have hnone : Hashed host [] := nofun
  exact enter_eq_unseen slot hnone 0 values

/-- Values can be held in hashed containers. Equality is symmetric and transitive, holds of each value
and itself unless that is a number that is none, and never between values of two kinds; and objects
that hold equal values have equal hashes. So a container keeps the same values of a list however it
spreads their hashes: no two equal ones, each one that equals none kept before it, every number that
is none, and no fewer when they are entered once more. -/
theorem equality_suits_hashing (host : Hashing) (slot : ℤ → ℕ) (values : List Value) :
    (∀ v w : Value, (v == w) = (w == v)) ∧
    (∀ v w u : Value, (v == w) = true → (w == u) = true → (v == u) = true) ∧
    (∀ v : Value, (v == v) = true ↔ v.isNan = false) ∧
    (∀ v w : Value, v.kind ≠ w.kind → (v == w) = false) ∧
    (∀ (v w : Value) (i j : ℕ), (v == w) = true → v.hashCode host i = w.hashCode host j) ∧
    distinctHashed host slot values = distinct values ∧
    (distinct values).Sublist values ∧
    ((distinct values).Pairwise fun v w => (v == w) = false) ∧
    (∀ front v back, values = front ++ v :: back → distinct front <+: distinct values ∧
      (distinct front ++ [v] <+: distinct values ∧ (∀ w ∈ distinct front, (w == v) = false) ∨
        distinct (front ++ [v]) = distinct front ∧ ∃ w ∈ distinct front, (w == v) = true)) ∧
    (distinct values).filter isNan = values.filter isNan ∧
    distinct (distinct values) = distinct values := by
  refine ⟨beq_comm, fun v w u hvw hwu => ?_, fun v => beq_iff_equal.trans equal_self_iff,
    fun v w hk => ?_, fun v w i j h => (beq_iff_equal.1 h).hashCode_eq host i j,
    distinctHashed_eq_distinct host slot values, distinct_sublist values, pairwise_distinct values, ?_,
    filter_isNan_distinct values, distinct_of_pairwise (pairwise_distinct values)⟩
  · exact beq_iff_equal.2 ((beq_iff_equal.1 hvw).trans (beq_iff_equal.1 hwu))
  · exact Bool.eq_false_iff.2 fun h => hk (beq_iff_equal.1 h).kind_eq
  · rintro front v back rfl
    exact distinct_split front back v

/-- Of two zeros the first one is kept, of the numbers that are none both. -/
example :
    let nan : Value := .number (.ofBits 0x7ff8000000000000)
    let minus : Value := .number (.ofBits 0x8000000000000000)
    distinct [.number 0, nan, .boolean true, minus, nan, .boolean true] =
      [.number 0, nan, .boolean true, nan] := by rfl

end Value

end Scriptlet
