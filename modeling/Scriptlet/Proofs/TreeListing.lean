import Scriptlet.Proofs.CorrespondingRuns
import Scriptlet.Proofs.LexemeShape
import Scriptlet.Proofs.NumberRoundTrip
import Scriptlet.Proofs.Relocation

/-!
Listings of trees. A listing shows where it ends, also in front of other text; so the elements of a
list and the operands of an operator are found in it again, and it tells all of a tree but its places.
-/

namespace Scriptlet

/-- A word is found again in front of a mark that is not of its characters. -/
theorem word_append_inj {p : Char → Bool} {mark : Char} (hm : p mark = false) {x y : String}
    (hx : ∀ c ∈ x.toList, p c) (hy : ∀ c ∈ y.toList, p c) {s t : List Char}
    (h : x.toList ++ mark :: s = y.toList ++ mark :: t) : x = y ∧ s = t := by
  have hend (rest : List Char) : ∀ c ∈ (mark :: rest).head?, p c = false := by simp [hm]
  obtain ⟨hword, hrest⟩ := run_unique hx hy (hend s) (hend t) h
  exact ⟨String.toList_inj.1 hword, (List.cons.inj hrest).2⟩

/-- A name that can stand in a program. -/
def Lexeme.IsName (x : String) : Prop := Valid ⟨.identifier, x.toList⟩

instance : DecidablePred Lexeme.IsName := fun _ => inferInstanceAs (Decidable (Lexeme.Valid _))

theorem Lexeme.IsName.isWordChar {x : String} (h : IsName x) : ∀ c ∈ x.toList, isWordChar c := by
  unfold IsName at h
  generalize x.toList = text at h
  cases h with
  | identifier hc hs => exact List.forall_mem_cons.2 ⟨by simp [Scriptlet.isWordChar, hc], hs⟩
  | mark h =>
    unfold punctuation? at h
    split at h <;> cases h

namespace Operator

theorem isWordChar_of_mem_label (op : Operator) : ∀ c ∈ op.label.toList, isWordChar c :=
  List.all_eq_true.1 (by cases op <;> decide)

theorem label_injective {op op' : Operator} (h : op.label = op'.label) : op = op' := by
  cases op <;> cases op' <;> first | rfl | simp [label] at h

end Operator

namespace Value

theorem isNumeralChar_of_mem_render (x : Float) :
    ∀ c ∈ (NumberStyle.listed.render x).toList, Numeral.isNumeralChar c := by
  obtain ⟨n, -, hw⟩ := NumberStyle.written_double NumberStyle.readable_listed x
  rw [NumberStyle.render, String.toList_ofList]
  exact Numeral.isNumeralChar_of_writtenNumeral hw

theorem listing_append_inj {v w : Value} {s t : List Char}
    (h : v.listing.toList ++ ')' :: s = w.listing.toList ++ ')' :: t) : v = w ∧ s = t := by
  -- Only two numbers are not told apart, or found to be one value, by how their listings begin.
  rcases v with _ | x | (_ | _) | ⟨⟩ <;> rcases w with _ | y | (_ | _) | ⟨⟩
  case number.number =>
    simp only [listing, String.toList_append, List.append_assoc, List.append_cancel_left_eq] at h
    obtain ⟨hword, hrest⟩ := word_append_inj (p := Numeral.isNumeralChar) (by decide)
      (isNumeralChar_of_mem_render x) (isNumeralChar_of_mem_render y) h
    rw [render_injective NumberStyle.readable_listed hword]
    exact ⟨rfl, (List.cons.inj hrest).2⟩
  all_goals simp [listing] at h
  all_goals exact ⟨rfl, h⟩

end Value

namespace Expr

/-- The tree without its places. -/
def unplaced (e : Expr) : Expr := e.relocate fun _ => default

def unplacedAll (es : List Expr) : List Expr := relocateAll (fun _ => default) es

/-- What a list still has behind one of its elements. -/
def listedBehind (rest : List Char) : List Expr → List Char
  | [] => ']' :: rest
  | e :: es => ',' :: ' ' :: (e.listing.toList ++ listedBehind rest es)

theorem toList_listed (e : Expr) (es : List Expr) (rest : List Char) :
    (", ".intercalate (listingAll (e :: es))).toList ++ ']' :: rest =
      e.listing.toList ++ listedBehind rest es := by
  induction es generalizing e with
  | nil => simp [listingAll, listedBehind]
  | cons d es ih =>
    have h := ih d
    simp only [listingAll] at h ⊢
    simp only [String.intercalate_cons_cons, String.toList_append, List.append_assoc, h]
    rfl

/-- A listing begins with a letter. -/
theorem listing_ne_bracket (e : Expr) (s t : List Char) : e.listing.toList ++ s ≠ ']' :: t := by
  cases e <;> simp [listing]

theorem listedBehind_eq_of_listed_eq {as bs : List Expr} {s t : List Char}
    (h : (", ".intercalate (listingAll as)).toList ++ ']' :: s =
      (", ".intercalate (listingAll bs)).toList ++ ']' :: t) :
    listedBehind s as = listedBehind t bs := by
  cases as with
  | nil =>
    cases bs with
    | nil => exact h
    | cons b bs =>
      rw [toList_listed] at h
      exact absurd h.symm (listing_ne_bracket b _ _)
  | cons a as =>
    rw [toList_listed] at h
    cases bs with
    | nil => exact absurd h (listing_ne_bracket a _ _)
    | cons b bs =>
      rw [toList_listed] at h
      rw [listedBehind, listedBehind, h]

-- Induction on the first tree. What follows the listings is arbitrary, so that each part is taken off
-- the front and the rest goes on with the next part.
mutual

theorem listing_append_inj : ∀ {a b : Expr} {s t : List Char}, (∀ x ∈ a.names, Lexeme.IsName x) →
    (∀ x ∈ b.names, Lexeme.IsName x) → a.listing.toList ++ s = b.listing.toList ++ t →
    a.unplaced = b.unplaced ∧ s = t
  | block ss p, b, s, t, ha, hb, h => by
    cases b with
    | block ts q =>
      simp only [listing, String.toList_append, List.append_assoc, List.append_cancel_left_eq] at h
      obtain ⟨hes, hrest⟩ := listedBehind_inj ha hb (listedBehind_eq_of_listed_eq h)
      exact ⟨congrArg (block · default) hes, (List.cons.inj hrest).2⟩
    | call | literal | assign | var | binary => simp [listing] at h
  | call f as p, b, s, t, ha, hb, h => by
    cases b with
    | call g bs q =>
      simp only [names, List.forall_mem_cons] at ha hb
      simp only [listing, String.toList_append, List.append_assoc, List.append_cancel_left_eq] at h
      obtain ⟨hname, hrest⟩ := word_append_inj (by decide) ha.1.isWordChar hb.1.isWordChar h
      have hlist := (List.cons.inj (List.cons.inj hrest).2).2
      obtain ⟨hes, hrest⟩ := listedBehind_inj ha.2 hb.2 (listedBehind_eq_of_listed_eq hlist)
      exact ⟨congrArg₂ (call · · default) hname hes, (List.cons.inj hrest).2⟩
    | block | literal | assign | var | binary => simp [listing] at h
  | literal v p, b, s, t, _, _, h => by
    cases b with
    | literal w q =>
      simp only [listing, String.toList_append, List.append_assoc, List.append_cancel_left_eq] at h
      obtain ⟨hv, hrest⟩ := Value.listing_append_inj h
      exact ⟨congrArg (literal · default) hv, hrest⟩
    | block | call | assign | var | binary => simp [listing] at h
  | assign x d p, b, s, t, ha, hb, h => by
    cases b with
    | assign y e q =>
      simp only [names, List.forall_mem_cons] at ha hb
      simp only [listing, String.toList_append, List.append_assoc, List.append_cancel_left_eq] at h
      obtain ⟨hname, hrest⟩ := word_append_inj (by decide) ha.1.isWordChar hb.1.isWordChar h
      obtain ⟨he, hrest⟩ := listing_append_inj ha.2 hb.2 (List.cons.inj hrest).2
      exact ⟨congrArg₂ (assign · · default) hname he, (List.cons.inj hrest).2⟩
    | block | call | literal | var | binary => simp [listing] at h
  | var x p, b, s, t, ha, hb, h => by
    cases b with
    | var y q =>
      simp only [names, List.forall_mem_singleton] at ha hb
      simp only [listing, String.toList_append, List.append_assoc, List.append_cancel_left_eq] at h
      obtain ⟨hname, hrest⟩ := word_append_inj (by decide) ha.isWordChar hb.isWordChar h
      exact ⟨congrArg (var · default) hname, hrest⟩
    | block | call | literal | assign | binary => simp [listing] at h
  | binary op a a' p, b, s, t, ha, hb, h => by
    cases b with
    | binary op' b b' q =>
      simp only [names, List.forall_mem_append] at ha hb
      simp only [listing, String.toList_append, List.append_assoc, List.append_cancel_left_eq] at h
      obtain ⟨hlabel, hrest⟩ :=
        word_append_inj (by decide) op.isWordChar_of_mem_label op'.isWordChar_of_mem_label h
      obtain ⟨hl, hrest⟩ := listing_append_inj ha.1 hb.1 (List.cons.inj hrest).2
      have hright := (List.cons.inj (List.cons.inj hrest).2).2
      obtain ⟨hr, hrest⟩ := listing_append_inj ha.2 hb.2 hright
      obtain rfl := Operator.label_injective hlabel
      exact ⟨congrArg₂ (binary op · · default) hl hr, (List.cons.inj hrest).2⟩
    | block | call | literal | assign | var => simp [listing] at h

theorem listedBehind_inj : ∀ {as bs : List Expr} {s t : List Char},
    (∀ x ∈ namesAll as, Lexeme.IsName x) → (∀ x ∈ namesAll bs, Lexeme.IsName x) →
    listedBehind s as = listedBehind t bs → unplacedAll as = unplacedAll bs ∧ s = t
  | [], bs, s, t, _, _, h => by
    cases bs with
    | nil => simpa [listedBehind] using h
    | cons => simp [listedBehind] at h
  | a :: as, bs, s, t, ha, hb, h => by
    cases bs with
    | nil => simp [listedBehind] at h
    | cons b bs =>
      simp only [namesAll, List.forall_mem_append] at ha hb
      simp only [listedBehind, List.cons.injEq, true_and] at h
      obtain ⟨he, hrest⟩ := listing_append_inj ha.1 hb.1 h
      obtain ⟨hes, hst⟩ := listedBehind_inj ha.2 hb.2 hrest
      exact ⟨congrArg₂ List.cons he hes, hst⟩

end

mutual

theorem listing_relocate (f : Position → Position) : ∀ e : Expr, (e.relocate f).listing = e.listing
  | literal _ _ | var _ _ => rfl
  | assign x e p => by rw [relocate, listing, listing_relocate f e, listing]
  | binary op lhs rhs p => by
    rw [relocate, listing, listing_relocate f lhs, listing_relocate f rhs, listing]
  | block ss p => by rw [relocate, listing, listingAll_relocate f ss, listing]
  | call g args p => by rw [relocate, listing, listingAll_relocate f args, listing]

theorem listingAll_relocate (f : Position → Position) : ∀ es : List Expr,
    listingAll (relocateAll f es) = listingAll es
  | [] => rfl
  | e :: es => by
    rw [relocateAll, listingAll, listing_relocate f e, listingAll_relocate f es, listingAll]

end

/-- Two trees whose names can stand in programs have one listing just if they are one tree up to
places, down to the bits of their numbers. (All words for a number that is none are one number.) -/
theorem listing_identifies_tree {a b : Expr} (ha : ∀ x ∈ a.names, Lexeme.IsName x)
    (hb : ∀ x ∈ b.names, Lexeme.IsName x) : a.listing = b.listing ↔ a.unplaced = b.unplaced := by
  constructor
  · intro h
    exact (listing_append_inj (s := []) (t := []) ha hb (by rw [h])).1
  · intro h
    rw [← listing_relocate (fun _ => default) a, ← listing_relocate (fun _ => default) b]
    exact congrArg listing h

/-- Two calls at different places are listed alike. A variable with the name of a literal is not listed
as that one, nor a list as one of the same elements in other lists, nor a zero as the one of the other
sign. -/
theorem listing_identifies_tree_of_call :
    let p : Position := .start "a"
    let q : Position := .start "b"
    let x : Expr := var "x" p
    let zero : Expr := literal (.number (.ofBits 0)) p
    let minus : Expr := literal (.number (.ofBits 0x8000000000000000)) p
    (call "f" [x, var "True" p] p).listing = (call "f" [x, var "True" q] q).listing ∧
      (call "f" [x, var "True" p] p).listing ≠ (call "f" [x, literal (.boolean true) p] p).listing ∧
      (block [block [x, zero] p] p).listing ≠ (block [block [x] p, zero] p).listing ∧
      zero.listing ≠ minus.listing := by
  intro p q x zero minus
  refine ⟨(listing_identifies_tree (by decide) (by decide)).2 rfl,
    mt (listing_identifies_tree (by decide) (by decide)).1 fun h => ?_,
    mt (listing_identifies_tree (by decide) (by decide)).1 fun h => ?_,
    mt (listing_identifies_tree (by decide) (by decide)).1 fun h => ?_⟩
  · simp [unplaced, relocate, relocateAll] at h
  · simp [unplaced, relocate, relocateAll, x] at h
  · have hbits : (Float.ofBits 0).toBits = (Float.ofBits 0x8000000000000000).toBits := by
      simp only [unplaced, relocate, literal.injEq, Value.number.injEq, zero, minus] at h
      rw [h.1]
    exact absurd hbits (by decide)

end Expr

end Scriptlet
