import Scriptlet.Proofs.LexemeShape

/-!
How tokens lie in their text: blanks in front of each token, its own characters, and its place
counted from the text before it. A text has tokens exactly when it can be laid out so.
-/

namespace Scriptlet

namespace Position

/-- The place behind a text, counted from scratch. -/
def behind (source : String) (before : List Char) : Position :=
  ⟨source, 1 + before.count '\n', 1 + (before.reverse.takeWhile (· ≠ '\n')).length⟩

theorem after_behind (source : String) (before : List Char) (c : Char) :
    (behind source before).after c = behind source (before ++ [c]) := by
  by_cases hc : c = '\n'
  · simp [behind, after, newline, hc, Int.add_assoc]
  · simp [behind, after, advance, hc, Int.add_assoc]

theorem afterText_behind (source : String) (before text : List Char) :
    (behind source before).afterText text = behind source (before ++ text) := by
  induction text generalizing before with
  | nil => simp
  | cons c text ih =>
    rw [afterText_cons, after_behind, ih, List.append_assoc, List.singleton_append]

theorem afterText_start (source : String) (text : List Char) :
    (start source).afterText text = behind source text := afterText_behind source [] text

end Position

namespace Scan

variable {here : Position} {gap text rest : List Char} {l : Lexeme}

theorem of_gap (hg : ∀ c ∈ gap, isBlank c) :
    of here (gap ++ text) = of (here.afterText gap) text := by
  induction gap generalizing here with
  | nil => rfl
  | cons c gap ih =>
    obtain ⟨hc, hg⟩ := List.forall_mem_cons.1 hg
    rw [List.cons_append, of_blank hc, ih hg, Position.afterText_cons]

theorem of_next {c : Char} {tail : List Char} (hc : ¬ isBlank c)
    (hn : Lexeme.next? (c :: tail) = some (l, rest)) :
    of here (c :: tail) =
      let later := of (here.afterText l.text) rest
      ⟨token here l :: later.tokens, later.stop, later.rest⟩ := by
  rw [of, if_neg hc]
  split
  next h => simp [hn] at h
  next h => cases hn.symm.trans h; rfl

theorem of_unknown {c : Char} {tail : List Char} (hc : ¬ isBlank c)
    (hn : Lexeme.next? (c :: tail) = none) : of here (c :: tail) = ⟨[], here, c :: tail⟩ := by
  rw [of, if_neg hc]
  split
  next => rfl
  next h => simp [hn] at h

theorem of_lexeme (hl : l.Valid) (hm : ∀ c ∈ rest.head?, l.kind.goesOn c = false) :
    of here (l.text ++ rest) =
      let later := of (here.afterText l.text) rest
      ⟨token here l :: later.tokens, later.stop, later.rest⟩ := by
  obtain ⟨c, cs, ht, hb⟩ := hl.head
  have hn := Lexeme.next?_of_valid hl hm
  rw [ht, List.cons_append] at hn ⊢
  rw [of_next (by simp [hb]) hn, ht]

/-- A scan does not stop at a blank. -/
theorem not_blank_of_stop (here : Position) (text : List Char) :
    ∀ c ∈ (of here text).rest.head?, isBlank c = false := by
  fun_induction of here text with
  | case1 => simp
  | case2 here c tail hc ih => exact ih
  | case3 here c tail hc => simpa using hc
  | case4 here c tail hc l rest hn later ih => exact ih

/-- A scan stops behind the text that it has read. -/
theorem exists_front (here : Position) (text : List Char) :
    ∃ front, text = front ++ (of here text).rest ∧
      (of here text).stop = here.afterText front := by
  fun_induction of here text with
  | case1 here => exact ⟨[], rfl, rfl⟩
  | case2 here c tail hc ih =>
    obtain ⟨front, ht, hs⟩ := ih
    exact ⟨c :: front, by rw [List.cons_append, ← ht], hs⟩
  | case3 here c tail => exact ⟨[], rfl, rfl⟩
  | case4 here c tail hc l rest hn later ih =>
    obtain ⟨front, ht, hs⟩ := ih
    refine ⟨l.text ++ front, ?_, ?_⟩
    · rw [List.append_assoc, ← ht]
      exact (Lexeme.next?_eq_some hn).1
    · rw [Position.afterText_append]
      exact hs

end Scan

/-- `Laid source before text ts`: behind `before`, the tokens of `text` are `ts`. -/
inductive Laid (source : String) : List Char → List Char → List Token → Prop
  | tail {before gap : List Char} (hg : ∀ c ∈ gap, isBlank c) : Laid source before gap []
  | token {before gap rest : List Char} {l : Lexeme} {ts : List Token}
      (hg : ∀ c ∈ gap, isBlank c) (hl : l.Valid)
      (hm : ∀ c ∈ rest.head?, l.kind.goesOn c = false)
      (hs : Laid source (before ++ gap ++ l.text) rest ts) :
      Laid source before (gap ++ (l.text ++ rest))
        (Scan.token (.behind source (before ++ gap)) l :: ts)

namespace Laid

variable {source : String} {before text : List Char} {ts : List Token}

theorem scan (h : Laid source before text ts) :
    Scan.of (.behind source before) text = ⟨ts, .behind source (before ++ text), []⟩ := by
  induction h with
  | @tail before gap hg =>
    rw [← List.append_nil gap, Scan.of_gap hg, Scan.of_nil, Position.afterText_behind]
    simp
  | token hg hl hm hs ih =>
    rw [Scan.of_gap hg, Scan.of_lexeme hl hm, Position.afterText_behind, Position.afterText_behind,
      ih]
    simp

theorem blank_cons {c : Char} (hc : isBlank c) (h : Laid source (before ++ [c]) text ts) :
    Laid source before (c :: text) ts := by
  cases h with
  | tail hg => exact .tail (List.forall_mem_cons.2 ⟨hc, hg⟩)
  | @token _ gap _ _ _ hg hl hm hs =>
    have hg : ∀ d ∈ c :: gap, isBlank d := List.forall_mem_cons.2 ⟨hc, hg⟩
    rw [← List.append_cons] at hs ⊢
    exact .token hg hl hm hs

theorem of_scan {here : Position} (hh : here = .behind source before)
    (h : (Scan.of here text).rest = []) : Laid source before text (Scan.of here text).tokens := by
  fun_induction Scan.of here text generalizing before with
  | case1 => exact .tail (by simp)
  | case2 here c tail hc ih =>
    exact blank_cons hc (ih (by rw [hh, Position.after_behind]) h)
  | case3 => simp at h
  | case4 here c tail hc l rest hn later =>
    rename_i ih
    obtain ⟨ht, hl, hm⟩ := Lexeme.next?_eq_some_iff.1 hn
    have hp : here.afterText l.text = .behind source (before ++ [] ++ l.text) := by
      rw [hh, Position.afterText_behind, List.append_nil]
    have hc := token (by simp) hl hm (ih hp h)
    rw [ht, hh]
    simpa using hc

end Laid

theorem tokenize_eq_ok_iff_laid {source text : String} {seq : TokenSeq} :
    tokenize source text = .ok seq ↔ Laid source [] text.toList seq.body ∧
      seq.last = Scan.endMark (.behind source text.toList) := by
  have hstart : Position.start source = .behind source [] := rfl
  rw [tokenize, hstart]
  constructor
  · intro h
    split at h
    next => cases h
    next hf =>
      cases h
      have hr : (Scan.of (.behind source []) text.toList).rest = [] := by
        simpa [Scan.fault?] using hf
      have hl := Laid.of_scan rfl hr
      exact ⟨hl, by rw [hl.scan]; rfl⟩
  · intro h
    obtain ⟨hl, he⟩ := h
    obtain ⟨body, last, hk⟩ := seq
    simp only at hl he
    subst he
    rw [hl.scan]
    rfl

/-- Tokens, each with the blanks in front of it. -/
abbrev Layout := List (List Char × Token)

namespace Layout

/-- The text laid out. -/
def text (layout : Layout) : List Char := layout.flatMap fun (gap, t) => gap ++ t.text.toList

@[simp] theorem text_nil : text [] = [] := rfl

@[simp] theorem text_cons (gap : List Char) (t : Token) (layout : Layout) :
    text ((gap, t) :: layout) = gap ++ (t.text.toList ++ layout.text) := by simp [text]

end Layout

def Token.lexeme (t : Token) : Lexeme := ⟨t.kind, t.text.toList⟩

@[simp] theorem Scan.lexeme_token (here : Position) (l : Lexeme) : (token here l).lexeme = l := by
  simp [token, Token.lexeme]

/-- A token of a text, not its end mark: its own text decides its kind, and the text behind it does
not make it longer. -/
structure Token.Whole (t : Token) (after : List Char) : Prop where
  kind_ne_finish : t.kind ≠ .finish
  text_ne_empty : t.text ≠ ""
  valid : t.lexeme.Valid
  decided : ∀ l : Lexeme, l.Valid → l.text = t.text.toList → l.kind = t.kind
  longest : ∀ c ∈ after.head?, t.kind.goesOn c = false

namespace Layout

variable {source : String} {before gap : List Char} {t : Token} {layout : Layout}

/-- Behind `before`, only blanks are left out, every token but the last is whole, and all stand at
the places counted from the text before them. -/
def Exact (source : String) (before : List Char) (layout : Layout) : Prop :=
  ∀ front gap t rest, layout = front ++ (gap, t) :: rest →
    (∀ c ∈ gap, isBlank c) ∧ t.position = .behind source (before ++ text front ++ gap) ∧
      (rest ≠ [] → t.Whole (text rest))

theorem exact_nil : Exact source before [] := fun front gap t rest h => by simp at h

theorem exact_cons : Exact source before ((gap, t) :: layout) ↔
    ((∀ c ∈ gap, isBlank c) ∧ t.position = .behind source (before ++ gap) ∧
      (layout ≠ [] → t.Whole layout.text)) ∧
    Exact source (before ++ gap ++ t.text.toList) layout := by
  constructor
  · intro h
    refine ⟨by simpa using h [] gap t layout rfl, fun front g u rest he => ?_⟩
    simpa using h ((gap, t) :: front) g u rest (by rw [he]; rfl)
  · intro h front g u rest he
    obtain ⟨hh, hs⟩ := h
    cases front with
    | nil =>
      cases he
      simpa using hh
    | cons x front =>
      cases he
      simpa using hs front g u rest rfl

end Layout

theorem Lexeme.Valid.whole {l : Lexeme} (h : l.Valid) {here : Position} {after : List Char}
    (hm : ∀ c ∈ after.head?, l.kind.goesOn c = false) : (Scan.token here l).Whole after where
  kind_ne_finish := h.kind_ne_finish
  text_ne_empty := by
    obtain ⟨c, cs, ht, -⟩ := h.head
    simp [Scan.token, ht]
  valid := by simpa using h
  decided m hm ht := by
    have := hm.eq_of_text h (by simpa [Scan.token] using ht)
    rw [this]
    rfl
  longest := hm

/-- What is laid out token by token has a layout, closed by the end mark. -/
theorem Laid.exists_layout {source : String} {before text : List Char} {ts : List Token}
    (h : Laid source before text ts) : ∃ layout : Layout,
      layout.map Prod.snd = ts ++ [Scan.endMark (.behind source (before ++ text))] ∧
        layout.text = text ∧ layout.Exact source before := by
  induction h with
  | @tail before gap hg =>
    refine ⟨[(gap, Scan.endMark (.behind source (before ++ gap)))], rfl, ?_, ?_⟩
    · simp [Scan.endMark]
    · exact Layout.exact_cons.2 ⟨⟨hg, rfl, by simp⟩, Layout.exact_nil⟩
  | @token before gap rest l ts hg hl hm hs ih =>
    obtain ⟨layout, hmap, htext, he⟩ := ih
    refine ⟨(gap, Scan.token (.behind source (before ++ gap)) l) :: layout, ?_, ?_, ?_⟩
    · simp [hmap]
    · simp [htext, Scan.token]
    · have hs : layout.Exact source (before ++ gap ++ (String.ofList l.text).toList) := by
        simpa using he
      exact Layout.exact_cons.2 ⟨⟨hg, rfl, fun _ => hl.whole (htext ▸ hm)⟩, hs⟩

/-- The layout of a list that its last token closes. -/
theorem Layout.Exact.laid {source : String} {before : List Char} {layout : Layout}
    {ts : List Token} {last : Token} (he : layout.Exact source before)
    (hmap : layout.map Prod.snd = ts ++ [last]) (hlast : last.text = "") :
    Laid source before layout.text ts ∧ last.position = .behind source (before ++ layout.text) := by
  induction layout generalizing before ts with
  | nil => simp at hmap
  | cons x layout ih =>
    obtain ⟨gap, t⟩ := x
    obtain ⟨⟨hg, hp, hw⟩, hs⟩ := exact_cons.1 he
    cases ts with
    | nil =>
      obtain ⟨rfl, rfl⟩ : t = last ∧ layout = [] := by simpa using hmap
      simpa [hlast] using ⟨Laid.tail hg, hp⟩
    | cons u ts =>
      obtain ⟨rfl, hrest⟩ : t = u ∧ layout.map Prod.snd = ts ++ [last] := by simpa using hmap
      have hne : layout ≠ [] := by
        intro h
        subst h
        simp at hrest
      obtain ⟨hl, hpl⟩ := ih hs hrest
      have ht : Scan.token (.behind source (before ++ gap)) t.lexeme = t := by
        rw [← hp]
        simp [Scan.token, Token.lexeme]
      have hcons := Laid.token hg (hw hne).valid (hw hne).longest hl
      rw [ht] at hcons
      rw [Layout.text_cons]
      exact ⟨hcons, by simpa using hpl⟩

/-- A text has just the tokens that it can be laid out by: blanks are all that is left out, the end
mark stands last and nowhere else, every other token is whole, and each one stands at the line and
the column counted from the text before it. -/
theorem tokenize_eq_ok_iff_layout (source text : String) (seq : TokenSeq) :
    tokenize source text = .ok seq ↔ ∃ layout : Layout, layout.map Prod.snd = seq.toList ∧
      layout.text = text.toList ∧ seq.last.text = "" ∧ layout.Exact source [] := by
  rw [tokenize_eq_ok_iff_laid]
  constructor
  · intro h
    obtain ⟨hl, hlast⟩ := h
    obtain ⟨layout, hmap, htext, he⟩ := hl.exists_layout
    refine ⟨layout, ?_, htext, by rw [hlast]; rfl, he⟩
    rw [hmap, TokenSeq.toList, hlast]
    rfl
  · intro h
    obtain ⟨layout, hmap, htext, hlast, he⟩ := h
    obtain ⟨hl, hp⟩ := he.laid hmap hlast
    rw [htext] at hl hp
    rw [List.nil_append] at hp
    exact ⟨hl, by rw [Scan.endMark, ← seq.last_kind, ← hlast, ← hp]⟩

end Scriptlet
