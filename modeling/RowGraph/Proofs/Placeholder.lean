import RowGraph.Query.Template

/-!
# Placeholders and what is bound to them

Binding goes through a text and puts the values in the place of its placeholders (`bindFrom`). A
text is neat if it has a known number of placeholders and ends outside of quotes; neat texts can
be put behind one another, each with its own values (`bindFrom_append`), quoted identifiers are
neat without placeholders (`neat_escape`), and so is a text into which neat texts are spliced
(`neat_splice`, `bind_splice`).
-/

namespace RowGraph.Sql

variable {α : Type}

/-! ## Counting and binding -/

def slots (quote : Option Char) : List Char → Nat
  | [] => 0
  | c :: cs => (if isPlaceholder quote c then 1 else 0) + slots (quoteAfter quote c) cs

/-- The characters of a text, with values in the place of its placeholders as far as there are
values. -/
def bindFrom (quote : Option Char) : List Char → List α → List (Char ⊕ α)
  | [], _ => []
  | c :: cs, [] => .inl c :: bindFrom (quoteAfter quote c) cs []
  | c :: cs, value :: rest =>
      if isPlaceholder quote c then .inr value :: bindFrom (quoteAfter quote c) cs rest
      else .inl c :: bindFrom (quoteAfter quote c) cs (value :: rest)

def bind (text : String) (values : List α) : List (Char ⊕ α) := bindFrom none text.toList values

theorem isPlaceholder_iff {quote : Option Char} {c : Char} :
    isPlaceholder quote c = true ↔ quote = none ∧ c = '?' := by
  simp [isPlaceholder]

theorem bindFrom_cons_of_not {quote : Option Char} {c : Char} (h : ¬ isPlaceholder quote c)
    (cs : List Char) (values : List α) :
    bindFrom quote (c :: cs) values = .inl c :: bindFrom (quoteAfter quote c) cs values := by
  cases values <;> simp [bindFrom, h]

theorem length_positionsFrom (quote : Option Char) (offset : Nat) (cs : List Char) :
    (positionsFrom quote offset cs).length = slots quote cs := by
  induction cs generalizing quote offset with
  | nil => rfl
  | cons c cs ih =>
      simp only [positionsFrom, slots]
      split
      · rw [List.length_cons, ih, Nat.add_comm]
      · rw [ih, Nat.zero_add]

theorem length_positions (text : String) : (positions text).length = slots none text.toList :=
  length_positionsFrom ..

theorem quoteAfterAll_append (quote : Option Char) (front back : List Char) :
    quoteAfterAll quote (front ++ back) = quoteAfterAll (quoteAfterAll quote front) back :=
  List.foldl_append

theorem quoteAfterAll_cons (quote : Option Char) (c : Char) (cs : List Char) :
    quoteAfterAll quote (c :: cs) = quoteAfterAll (quoteAfter quote c) cs := rfl

theorem slots_append (quote : Option Char) (front back : List Char) :
    slots quote (front ++ back) = slots quote front + slots (quoteAfterAll quote front) back := by
  induction front generalizing quote with
  | nil => simp [slots, quoteAfterAll]
  | cons c cs ih =>
      rw [List.cons_append, slots, ih, slots, quoteAfterAll_cons, Nat.add_assoc]

theorem bindFrom_append {quote : Option Char} {front : List Char} {values : List α}
    (h : slots quote front = values.length) (back : List Char) (more : List α) :
    bindFrom quote (front ++ back) (values ++ more) =
      bindFrom quote front values ++ bindFrom (quoteAfterAll quote front) back more := by
  induction front generalizing quote values with
  | nil =>
      obtain rfl : values = [] := List.length_eq_zero_iff.mp h.symm
      simp [bindFrom, quoteAfterAll]
  | cons c cs ih =>
      rw [slots] at h
      rw [List.cons_append, quoteAfterAll_cons]
      by_cases hc : isPlaceholder quote c
      · rw [if_pos hc] at h
        cases values with
        | nil => simp at h
        | cons value rest =>
            rw [List.length_cons, Nat.add_comm, Nat.add_right_cancel_iff] at h
            simp [bindFrom, hc, ih h]
      · rw [if_neg hc, Nat.zero_add] at h
        rw [bindFrom_cons_of_not hc, bindFrom_cons_of_not hc, ih h, List.cons_append]

theorem bindFrom_of_slots_eq_zero {quote : Option Char} {cs : List Char}
    (h : slots quote cs = 0) (values : List α) : bindFrom quote cs values = cs.map .inl := by
  induction cs generalizing quote with
  | nil => simp [bindFrom]
  | cons c cs ih =>
      rw [slots, Nat.add_eq_zero_iff] at h
      have hc : ¬ isPlaceholder quote c := by
        intro hp
        simp [hp] at h
      rw [bindFrom_cons_of_not hc, ih h.2, List.map_cons]

/-! ## Neat texts -/

structure Neat (cs : List Char) (n : Nat) : Prop where
  count : (positionsFrom none 0 cs).length = n
  closed : quoteAfterAll none cs = none

instance (cs : List Char) (n : Nat) : Decidable (Neat cs n) :=
  decidable_of_iff ((positionsFrom none 0 cs).length = n ∧ quoteAfterAll none cs = none)
    ⟨fun h => ⟨h.1, h.2⟩, fun h => ⟨h.1, h.2⟩⟩

theorem Neat.slots {cs : List Char} {n : Nat} (h : Neat cs n) : Sql.slots none cs = n := by
  rw [← length_positionsFrom none 0, h.count]

theorem neat_of_slots {cs : List Char} {n : Nat} (h : slots none cs = n)
    (closed : quoteAfterAll none cs = none) : Neat cs n :=
  ⟨by rw [length_positionsFrom, h], closed⟩

theorem neat_nil : Neat [] 0 := ⟨rfl, rfl⟩

theorem Neat.append {front back : List Char} {m n : Nat} (h : Neat front m) (hb : Neat back n) :
    Neat (front ++ back) (m + n) := by
  apply neat_of_slots
  · rw [slots_append, h.slots, h.closed, hb.slots]
  · rw [quoteAfterAll_append, h.closed, hb.closed]

theorem Neat.bind_append {front back : List Char} {values more : List α}
    (h : Neat front values.length) : bindFrom none (front ++ back) (values ++ more) =
      bindFrom none front values ++ bindFrom none back more := by
  rw [bindFrom_append h.slots, h.closed]

theorem isQuote_quote (style : EscapeStyle) : isQuote style.quote = true := by
  cases style <;> decide

theorem neat_doubled {quote : Char} (h : isQuote quote = true) (name rest : List Char) :
    slots (some quote) (doubled quote name ++ rest) = slots (some quote) rest ∧
      quoteAfterAll (some quote) (doubled quote name ++ rest) =
        quoteAfterAll (some quote) rest := by
  have hne : (quote == '?') = false := by
    cases hq : quote == '?' with
    | false => rfl
    | true =>
        rw [beq_iff_eq.mp hq] at h
        exact absurd h (by decide)
  induction name with
  | nil => exact ⟨rfl, rfl⟩
  | cons c cs ih =>
      by_cases hc : c = quote
      · simp [doubled, hc, slots, quoteAfterAll_cons, quoteAfter, isPlaceholder, h, hne, ih]
      · simp [doubled, hc, slots, quoteAfterAll_cons, quoteAfter, isPlaceholder, ih]

theorem neat_escape (style : EscapeStyle) (name : String) : Neat (style.escape name).toList 0 := by
  have hq := isQuote_quote style
  obtain ⟨hslots, hafter⟩ := neat_doubled hq name.toList [style.quote]
  have hne : (style.quote == '?') = false := by cases style <;> decide
  rw [EscapeStyle.escape, String.toList_ofList, escapeChars]
  apply neat_of_slots
  · simp [slots, quoteAfter, isPlaceholder, hq, hne, hslots]
  · have opened : quoteAfter none style.quote = some style.quote := by simp [quoteAfter, hq]
    rw [List.cons_append, quoteAfterAll_cons, opened, hafter]
    simp [quoteAfterAll, quoteAfter]

/-! ## Numbering -/

def numbering : Char ⊕ Nat → List Char
  | .inl c => [c]
  | .inr k => '$' :: (toString k).toList

theorem numberPieces_cutFrom (quote : Option Char) (cs : List Char) (k : Nat) :
    ∃ piece rest, cutFrom quote cs = piece :: rest ∧ piece ++ numberPieces k rest =
      (bindFrom quote cs (List.range' k (slots quote cs))).flatMap numbering := by
  induction cs generalizing quote k with
  | nil => exact ⟨[], [], rfl, by simp [numberPieces, bindFrom]⟩
  | cons c cs ih =>
      by_cases hc : isPlaceholder quote c
      · obtain ⟨piece, rest, hcut, heq⟩ := ih (quoteAfter quote c) (k + 1)
        refine ⟨[], piece :: rest, by simp [cutFrom, hc, hcut], ?_⟩
        rw [slots, if_pos hc, Nat.add_comm, List.range'_succ]
        simp [numberPieces, bindFrom, hc, ← heq, numbering]
      · obtain ⟨piece, rest, hcut, heq⟩ := ih (quoteAfter quote c) k
        refine ⟨c :: piece, rest, by simp [cutFrom, hc, hcut], ?_⟩
        rw [slots, if_neg hc, Nat.zero_add, bindFrom_cons_of_not hc, List.flatMap_cons, ← heq]
        rfl

theorem toList_numbered (text : String) : (numbered text).toList =
    (bind text (List.range' 1 (positions text).length)).flatMap numbering := by
  obtain ⟨piece, rest, hcut, heq⟩ := numberPieces_cutFrom none text.toList 1
  rw [numbered, hcut, length_positions]
  simpa [bind] using heq

end RowGraph.Sql

/-! ## Splicing -/

namespace RowGraph

open Sql

def Bound.filled (b : Bound) : List (Char ⊕ Value) := bind b.text b.params

def Bound.Neat (b : Bound) : Prop := Sql.Neat b.text.toList b.params.length

theorem Bound.neat_value (v : Value) : (Bound.value v).Neat :=
  show Sql.Neat "?".toList 1 by decide

theorem Bound.neat_statement {statement : Statement}
    (h : Sql.Neat statement.text.toList statement.params.length) :
    (Bound.statement statement).Neat := by
  have := (show Sql.Neat ['('] 0 by decide).append (h.append (show Sql.Neat [')'] 0 by decide))
  simpa [Bound.Neat, Bound.text, Bound.params] using this

theorem toList_splicePieces_cons (c : Char) (piece : List Char) (more : List String)
    (bounds : List Bound) :
    (splicePieces (String.ofList (c :: piece) :: more) bounds).toList =
      c :: (splicePieces (String.ofList piece :: more) bounds).toList := by
  cases more with
  | nil => simp [splicePieces]
  | cons => cases bounds <;> simp [splicePieces]

/-- A text into which neat texts are spliced: it goes on as before, with their placeholders. -/
theorem splicePieces_cutFrom {quote : Option Char} {cs : List Char} {bounds : List Bound}
    (h : slots quote cs = bounds.length) (neat : ∀ b ∈ bounds, b.Neat) :
    let text := (splicePieces ((cutFrom quote cs).map String.ofList) bounds).toList
    slots quote text = (bounds.flatMap Bound.params).length ∧
      quoteAfterAll quote text = quoteAfterAll quote cs ∧
      bindFrom quote text (bounds.flatMap Bound.params) =
        (bindFrom quote cs bounds).flatMap (Sum.elim (fun c => [.inl c]) Bound.filled) := by
  induction cs generalizing quote bounds with
  | nil =>
      obtain rfl : bounds = [] := List.length_eq_zero_iff.mp h.symm
      simp [cutFrom, splicePieces, slots, bindFrom]
  | cons c cs ih =>
      obtain ⟨piece, more, hcut, -⟩ := numberPieces_cutFrom (quoteAfter quote c) cs 0
      by_cases hc : isPlaceholder quote c
      · obtain ⟨rfl, rfl⟩ := isPlaceholder_iff.mp hc
        have after : quoteAfter none '?' = none := by decide
        rw [after] at hcut
        rw [slots, if_pos hc, after, Nat.add_comm] at h
        cases bounds with
        | nil => simp at h
        | cons bound rest =>
            rw [List.forall_mem_cons] at neat
            rw [List.length_cons, Nat.add_right_cancel_iff] at h
            obtain ⟨hslots, hafter, hbind⟩ := ih h neat.2
            have text : (splicePieces ((cutFrom none ('?' :: cs)).map String.ofList)
                (bound :: rest)).toList = bound.text.toList ++
                  (splicePieces ((cutFrom none cs).map String.ofList) rest).toList := by
              simp [cutFrom, hc, after, hcut, splicePieces]
            dsimp only
            rw [text, List.flatMap_cons, slots_append, quoteAfterAll_append, neat.1.closed,
              neat.1.slots, neat.1.bind_append, hslots, hafter, hbind]
            simp [quoteAfterAll_cons, after, bindFrom, hc, Bound.filled, Sql.bind]
      · rw [slots, if_neg hc, Nat.zero_add] at h
        obtain ⟨hslots, hafter, hbind⟩ := ih h neat
        have text : (splicePieces ((cutFrom quote (c :: cs)).map String.ofList) bounds).toList =
            c :: (splicePieces ((cutFrom (quoteAfter quote c) cs).map String.ofList)
              bounds).toList := by
          simp only [cutFrom, hc, hcut, if_false, List.map_cons, Bool.false_eq_true]
          exact toList_splicePieces_cons ..
        dsimp only
        rw [text, slots, if_neg hc, quoteAfterAll_cons, bindFrom_cons_of_not hc,
          bindFrom_cons_of_not hc, hslots, hafter, hbind]
        simp [quoteAfterAll_cons]

theorem neat_splice {text : String} {bounds : List Bound} (h : Sql.Neat text.toList bounds.length)
    (neat : ∀ b ∈ bounds, b.Neat) :
    Sql.Neat (splice text bounds).text.toList (splice text bounds).params.length := by
  obtain ⟨hslots, hafter, -⟩ := splicePieces_cutFrom h.slots neat
  exact neat_of_slots hslots (hafter.trans h.closed)

theorem bind_splice {text : String} {bounds : List Bound}
    (h : Sql.Neat text.toList bounds.length) (neat : ∀ b ∈ bounds, b.Neat) :
    bind (splice text bounds).text (splice text bounds).params =
      (bind text bounds).flatMap (Sum.elim (fun c => [.inl c]) Bound.filled) :=
  (splicePieces_cutFrom h.slots neat).2.2

end RowGraph
