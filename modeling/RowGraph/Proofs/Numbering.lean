import RowGraph.Proofs.Placeholder

/-!
# Numbered placeholders

The placeholders of a text are the question marks behind unquoted text (`mem_positions_iff`).
Numbering them is to edit the text at these places (`edited?_placed`), where each slice that is
copied goes from one character boundary of the text to another. The result has no placeholders,
and to edit it at the places of the numbers gives the text back.
-/

namespace RowGraph.Sql

/-! ## Unquoted text -/

/-- Text that goes into quotes and out of them again: a quote lasts up to the next one of its
kind. -/
inductive Unquoted : List Char → Prop where
  | nil : Unquoted []
  | plain {c : Char} {rest : List Char} (plain : isQuote c = false) (h : Unquoted rest) :
      Unquoted (c :: rest)
  | quoted {q : Char} {body rest : List Char} (quote : isQuote q = true) (inside : q ∉ body)
      (h : Unquoted rest) : Unquoted (q :: (body ++ q :: rest))

theorem quoteAfterAll_of_not_mem {q : Char} {body : List Char} (h : q ∉ body) :
    quoteAfterAll (some q) body = some q := by
  induction body with
  | nil => rfl
  | cons c cs ih =>
      rw [List.mem_cons, not_or] at h
      rw [quoteAfterAll_cons, quoteAfter, if_neg (Ne.symm h.1), ih h.2]

theorem quoteAfterAll_quoted {q : Char} {body : List Char} (quote : isQuote q = true)
    (inside : q ∉ body) (rest : List Char) :
    quoteAfterAll none (q :: (body ++ q :: rest)) = quoteAfterAll none rest := by
  rw [quoteAfterAll_cons, quoteAfter, if_pos quote, quoteAfterAll_append,
    quoteAfterAll_of_not_mem inside, quoteAfterAll_cons, quoteAfter, if_pos rfl]

theorem unquoted_of_closed {cs : List Char} (h : quoteAfterAll none cs = none) : Unquoted cs := by
  match cs with
  | [] => exact .nil
  | c :: cs =>
      cases quote : isQuote c with
      | false =>
          rw [quoteAfterAll_cons, quoteAfter, quote] at h
          exact .plain quote (unquoted_of_closed h)
      | true =>
          have closes : c ∈ cs := by
            refine Decidable.byContradiction fun inside => ?_
            rw [quoteAfterAll_cons, quoteAfter, if_pos quote, quoteAfterAll_of_not_mem inside] at h
            cases h
          obtain ⟨body, rest, rfl, inside⟩ := List.eq_append_cons_of_mem closes
          rw [quoteAfterAll_quoted quote inside] at h
          exact .quoted quote inside (unquoted_of_closed h)
termination_by cs.length

theorem unquoted_iff {cs : List Char} : Unquoted cs ↔ quoteAfterAll none cs = none := by
  refine ⟨fun h => ?_, unquoted_of_closed⟩
  induction h with
  | nil => rfl
  | plain plain _ ih => rwa [quoteAfterAll_cons, quoteAfter, plain]
  | quoted quote inside _ ih => rwa [quoteAfterAll_quoted quote inside]

/-! ## Offsets in bytes -/

def byteSize (cs : List Char) : Nat := (String.ofList cs).utf8ByteSize

theorem byteSize_nil : byteSize [] = 0 := rfl

theorem byteSize_append (front back : List Char) :
    byteSize (front ++ back) = byteSize front + byteSize back := by
  rw [byteSize, String.ofList_append, String.utf8ByteSize_append, byteSize, byteSize]

theorem byteSize_cons (c : Char) (cs : List Char) :
    byteSize (c :: cs) = c.utf8Size + byteSize cs := by
  rw [byteSize, String.ofList_cons, String.utf8ByteSize_append, String.utf8ByteSize_singleton,
    byteSize]

theorem byteSize_toList (text : String) : byteSize text.toList = text.utf8ByteSize := by
  rw [byteSize, String.ofList_toList]

theorem mem_positionsFrom_cons {quote : Option Char} {offset p : Nat} {c : Char} {cs : List Char} :
    p ∈ positionsFrom quote offset (c :: cs) ↔ (isPlaceholder quote c = true ∧ p = offset) ∨
      p ∈ positionsFrom (quoteAfter quote c) (offset + c.utf8Size) cs := by
  simp only [positionsFrom]
  split <;> simp [*]

/-- Placeholders are the question marks behind text that leaves no quote open. -/
theorem mem_positionsFrom_iff {quote : Option Char} {offset p : Nat} {cs : List Char} :
    p ∈ positionsFrom quote offset cs ↔ ∃ front back, cs = front ++ '?' :: back ∧
      quoteAfterAll quote front = none ∧ p = offset + byteSize front := by
  induction cs generalizing quote offset with
  | nil => simp [positionsFrom]
  | cons c cs ih =>
      rw [mem_positionsFrom_cons, ih]
      constructor
      · rintro (⟨mark, rfl⟩ | ⟨front, back, rfl, closed, rfl⟩)
        · obtain ⟨rfl, rfl⟩ := isPlaceholder_iff.mp mark
          exact ⟨[], cs, rfl, rfl, rfl⟩
        · exact ⟨c :: front, back, rfl, closed, by rw [byteSize_cons, Nat.add_assoc]⟩
      · rintro ⟨front, back, split, closed, rfl⟩
        cases front with
        | nil =>
            obtain ⟨rfl, rfl⟩ := List.cons.inj split
            obtain rfl : quote = none := closed
            exact .inl ⟨rfl, rfl⟩
        | cons d front =>
            obtain ⟨rfl, rfl⟩ := List.cons.inj split
            exact .inr ⟨front, back, rfl, closed, by rw [byteSize_cons, Nat.add_assoc]⟩

theorem pairwise_positionsFrom (quote : Option Char) (offset : Nat) (cs : List Char) :
    (positionsFrom quote offset cs).Pairwise (· < ·) := by
  induction cs generalizing quote offset with
  | nil => exact .nil
  | cons c cs ih =>
      simp only [positionsFrom]
      split
      · refine .cons (fun p hp => ?_) (ih ..)
        obtain ⟨front, back, -, -, rfl⟩ := mem_positionsFrom_iff.mp hp
        have size := c.utf8Size_pos
        omega
      · exact ih ..

theorem positionsFrom_add (quote : Option Char) (offset more : Nat) (cs : List Char) :
    positionsFrom quote (offset + more) cs = (positionsFrom quote offset cs).map (· + more) := by
  induction cs generalizing quote offset with
  | nil => rfl
  | cons c cs ih =>
      simp only [positionsFrom]
      rw [Nat.add_right_comm, ih]
      split <;> rfl

theorem positionsFrom_append (quote : Option Char) (offset : Nat) (front back : List Char) :
    positionsFrom quote offset (front ++ back) = positionsFrom quote offset front ++
      positionsFrom (quoteAfterAll quote front) (offset + byteSize front) back := by
  induction front generalizing quote offset with
  | nil => rfl
  | cons c cs ih =>
      simp only [List.cons_append, positionsFrom]
      rw [ih, quoteAfterAll_cons, byteSize_cons, Nat.add_assoc]
      split <;> rfl

theorem mem_positions_iff {text : String} {p : Nat} : p ∈ positions text ↔
    ∃ front back, text = front ++ "?" ++ back ∧ Unquoted front.toList ∧
      p = front.utf8ByteSize := by
  rw [positions, mem_positionsFrom_iff]
  constructor
  · rintro ⟨front, back, split, closed, rfl⟩
    refine ⟨String.ofList front, String.ofList back, ?_, ?_, Nat.zero_add _⟩
    · rw [← String.toList_inj, split]
      simp
    · rwa [String.toList_ofList, unquoted_iff]
  · rintro ⟨front, back, rfl, closed, rfl⟩
    refine ⟨front.toList, back.toList, by simp, unquoted_iff.mp closed, ?_⟩
    rw [byteSize_toList, Nat.zero_add]

theorem isValid_of_mem_positions {text : String} {p : Nat} (h : p ∈ positions text) :
    String.Pos.Raw.IsValid text ⟨p⟩ := by
  obtain ⟨front, back, split, -, rfl⟩ := mem_positions_iff.mp h
  exact String.Pos.Raw.isValid_iff_exists_append.mpr
    ⟨front, "?" ++ back, by rw [split, String.append_assoc], rfl⟩

theorem positions_append {front : String} (h : Unquoted front.toList) (back : String) :
    positions (front ++ back) =
      positions front ++ (positions back).map (· + front.utf8ByteSize) := by
  rw [positions, String.toList_append, positionsFrom_append, unquoted_iff.mp h, positionsFrom_add,
    byteSize_toList]
  rfl

/-! ## Edits -/

/-- What stands between two byte offsets, unless one is out of range or inside a character or they
are in the wrong order. -/
def slice? (text : String) (start stop : Nat) : Option String :=
  if h : String.Pos.Raw.IsValid text ⟨start⟩ ∧ String.Pos.Raw.IsValid text ⟨stop⟩ then
    (text.slice? (text.pos _ h.1) (text.pos _ h.2)).map String.Slice.copy
  else none

theorem slice?_eq {text front piece back : String} (split : text = front ++ piece ++ back) :
    slice? text front.utf8ByteSize (front ++ piece).utf8ByteSize = some piece := by
  have behind : text = front ++ (piece ++ back) := by rw [split, String.append_assoc]
  have start : String.Pos.Raw.IsValid text ⟨front.utf8ByteSize⟩ :=
    String.Pos.Raw.isValid_iff_exists_append.mpr ⟨front, piece ++ back, behind, rfl⟩
  have stop : String.Pos.Raw.IsValid text ⟨(front ++ piece).utf8ByteSize⟩ :=
    String.Pos.Raw.isValid_iff_exists_append.mpr ⟨front ++ piece, back, split, rfl⟩
  have starts : (text.pos _ start).Splits front (piece ++ back) := ⟨behind, String.offset_pos⟩
  have stops : (text.pos _ stop).Splits (front ++ piece) back := ⟨split, String.offset_pos⟩
  obtain ⟨ordered, copied⟩ := String.copy_slice_eq_iff_splits.mpr ⟨front, back, starts, stops⟩
  rw [slice?, dif_pos ⟨start, stop⟩, String.slice?, dif_pos ordered, Option.map_some, copied]

theorem slice?_ofList (front piece back : List Char) :
    slice? (String.ofList (front ++ piece ++ back)) (byteSize front) (byteSize (front ++ piece)) =
      some (String.ofList piece) := by
  have split : String.ofList (front ++ piece ++ back) =
      String.ofList front ++ String.ofList piece ++ String.ofList back := by
    rw [String.ofList_append, String.ofList_append]
  have sliced := slice?_eq split
  rwa [← @String.ofList_append front] at sliced

structure Edit where
  start : Nat
  stop : Nat
  new : String

/-- The text from an offset on with all edits made. Each slice between them is copied. -/
def edited? (text : String) (last : Nat) : List Edit → Option String
  | [] => slice? text last text.utf8ByteSize
  | edit :: rest => do
      let kept ← slice? text last edit.start
      return kept ++ edit.new ++ (← edited? text edit.stop rest)

variable {α : Type}

def spelled (write : α → List Char) (tokens : List (Char ⊕ α)) : List Char :=
  tokens.flatMap (Sum.elim (fun c => [c]) write)

def respellings (old new : α → List Char) (offset : Nat) : List (Char ⊕ α) → List Edit
  | [] => []
  | .inl c :: rest => respellings old new (offset + c.utf8Size) rest
  | .inr a :: rest =>
      ⟨offset, offset + byteSize (old a), String.ofList (new a)⟩ ::
        respellings old new (offset + byteSize (old a)) rest

theorem edited?_respellings (old new : α → List Char) (front piece : List Char)
    (tokens : List (Char ⊕ α)) :
    edited? (String.ofList (front ++ piece ++ spelled old tokens)) (byteSize front)
        (respellings old new (byteSize (front ++ piece)) tokens) =
      some (String.ofList (piece ++ spelled new tokens)) := by
  induction tokens generalizing front piece with
  | nil =>
      have sliced := slice?_ofList front piece []
      rw [List.append_nil] at sliced
      rw [respellings, edited?, spelled, spelled, List.flatMap_nil, List.flatMap_nil,
        List.append_nil, List.append_nil]
      exact sliced
  | cons token rest ih =>
      cases token with
      | inl c =>
          have later := ih front (piece ++ [c])
          have offset : byteSize (front ++ (piece ++ [c])) =
              byteSize (front ++ piece) + c.utf8Size := by
            rw [← List.append_assoc, byteSize_append, byteSize_cons, byteSize_nil, Nat.add_zero]
          rw [offset] at later
          simpa only [spelled, respellings, List.flatMap_cons, Sum.elim_inl, List.append_assoc]
            using later
      | inr a =>
          have kept := slice?_ofList front piece (spelled old (.inr a :: rest))
          have later := ih (front ++ piece ++ old a) []
          rw [List.append_nil, byteSize_append, List.append_assoc, List.nil_append] at later
          have text : front ++ piece ++ spelled old (.inr a :: rest) =
              front ++ piece ++ (old a ++ spelled old rest) := rfl
          rw [respellings, edited?, kept, text, later]
          simp [spelled, String.append_assoc]

/-- The edits that write the placeholders at some positions in another way, numbered on from `next`.
In the text that is edited they are further behind by `grown`, as those before may be longer than
question marks. -/
def placed (old new : Nat → List Char) (grown next : Nat) : List Nat → List Edit
  | [] => []
  | p :: rest =>
      ⟨p + grown, p + grown + byteSize (old next), String.ofList (new next)⟩ ::
        placed old new (grown + byteSize (old next) - 1) (next + 1) rest

theorem respellings_bindFrom {old new : Nat → List Char} (nonempty : ∀ k, byteSize (old k) ≠ 0)
    (quote : Option Char) (offset grown next : Nat) (cs : List Char) :
    respellings old new (offset + grown) (bindFrom quote cs (List.range' next (slots quote cs))) =
      placed old new grown next (positionsFrom quote offset cs) := by
  induction cs generalizing quote offset grown next with
  | nil => rfl
  | cons c cs ih =>
      by_cases hc : isPlaceholder quote c
      · obtain ⟨rfl, rfl⟩ := isPlaceholder_iff.mp hc
        have size := nonempty next
        have one : '?'.utf8Size = 1 := rfl
        have moved : offset + grown + byteSize (old next) =
            offset + '?'.utf8Size + (grown + byteSize (old next) - 1) := by
          rw [one]
          omega
        rw [slots, if_pos hc, Nat.add_comm 1, List.range'_succ, bindFrom, if_pos hc, respellings,
          positionsFrom, if_pos hc, placed, moved, ih]
      · rw [slots, if_neg hc, Nat.zero_add, bindFrom_cons_of_not hc, respellings, positionsFrom,
          if_neg hc, Nat.add_right_comm, ih]

/-! ## Numbered text -/

def asked (_ : Nat) : List Char := ['?']

def counted (k : Nat) : List Char := '$' :: (toString k).toList

theorem spelled_asked {quote : Option Char} {cs : List Char} (values : List Nat) :
    spelled asked (bindFrom quote cs values) = cs := by
  induction cs generalizing quote values with
  | nil => simp [spelled, bindFrom]
  | cons c cs ih =>
      by_cases hc : isPlaceholder quote c
      · obtain ⟨rfl, rfl⟩ := isPlaceholder_iff.mp hc
        cases values with
        | nil => exact congrArg ('?' :: ·) (ih [])
        | cons value rest =>
            rw [bindFrom, if_pos hc]
            exact congrArg ('?' :: ·) (ih rest)
      · rw [bindFrom_cons_of_not hc]
        exact congrArg (c :: ·) (ih values)

def marked (text : String) : List (Char ⊕ Nat) :=
  bind text (List.range' 1 (slots none text.toList))

theorem ofList_asked (text : String) : String.ofList (spelled asked (marked text)) = text := by
  rw [marked, bind, spelled_asked, String.ofList_toList]

theorem ofList_counted (text : String) :
    String.ofList (spelled counted (marked text)) = numbered text := by
  have same : numbering = Sum.elim (fun c => [c]) counted := by
    funext token
    cases token <;> rfl
  rw [← String.toList_inj, String.toList_ofList, toList_numbered, length_positions, same, spelled,
    marked]

theorem neat_of_plain {cs : List Char} (h : ∀ c ∈ cs, isQuote c = false ∧ c ≠ '?') : Neat cs 0 := by
  induction cs with
  | nil => exact neat_nil
  | cons c cs ih =>
      rw [List.forall_mem_cons] at h
      have head : Neat [c] 0 :=
        neat_of_slots (by simp [slots, isPlaceholder, h.1.2])
          (by simp [quoteAfterAll, quoteAfter, h.1.1])
      exact head.append (ih h.2)

theorem neat_counted (k : Nat) : Neat (counted k) 0 := by
  refine neat_of_plain fun c hc => ?_
  rw [counted, List.mem_cons, Nat.toString_eq_ofList_toDigits, String.toList_ofList] at hc
  obtain rfl | hc := hc
  · decide
  · have digit := Nat.isDigit_of_mem_toDigits (by decide) (by decide) hc
    refine ⟨?_, by rintro rfl; exact absurd digit (by decide)⟩
    rw [Bool.eq_false_iff]
    intro quote
    simp only [isQuote, Bool.or_eq_true, beq_iff_eq] at quote
    obtain (rfl | rfl) | rfl := quote <;> exact absurd digit (by decide)

theorem slots_spelled_counted {quote : Option Char} {cs : List Char} {values : List Nat}
    (h : slots quote cs = values.length) :
    slots quote (spelled counted (bindFrom quote cs values)) = 0 := by
  induction cs generalizing quote values with
  | nil => simp [spelled, bindFrom, slots]
  | cons c cs ih =>
      rw [slots] at h
      by_cases hc : isPlaceholder quote c
      · obtain ⟨rfl, rfl⟩ := isPlaceholder_iff.mp hc
        cases values with
        | nil => simp [hc] at h
        | cons value rest =>
            rw [if_pos hc, List.length_cons, Nat.add_comm, Nat.add_right_cancel_iff] at h
            have written : spelled counted (bindFrom none ('?' :: cs) (value :: rest)) =
                counted value ++ spelled counted (bindFrom none cs rest) := by
              rw [bindFrom, if_pos hc]
              rfl
            rw [written, slots_append, (neat_counted value).slots, (neat_counted value).closed]
            exact congrArg (0 + ·) (ih h)
      · rw [if_neg hc, Nat.zero_add] at h
        rw [bindFrom_cons_of_not hc]
        change slots quote (c :: spelled counted (bindFrom (quoteAfter quote c) cs values)) = 0
        rw [slots, if_neg hc, ih h]

theorem positions_numbered (text : String) : positions (numbered text) = [] := by
  rw [← List.length_eq_zero_iff, length_positions, ← ofList_counted, String.toList_ofList]
  exact slots_spelled_counted (by rw [List.length_range'])

theorem numbered_of_positions_eq_nil {text : String} (h : positions text = []) :
    numbered text = text := by
  have none : slots none text.toList = 0 := by rw [← length_positions, h, List.length_nil]
  rw [← ofList_counted, marked, bind, bindFrom_of_slots_eq_zero none]
  simp [spelled, List.flatMap_map]

theorem byteSize_asked (k : Nat) : byteSize (asked k) ≠ 0 := show byteSize ['?'] ≠ 0 by decide

theorem byteSize_counted (k : Nat) : byteSize (counted k) ≠ 0 := by
  have size := '$'.utf8Size_pos
  rw [counted, byteSize_cons]
  omega

theorem edited?_placed {old : Nat → List Char} (nonempty : ∀ k, byteSize (old k) ≠ 0)
    (new : Nat → List Char) (text : String) :
    edited? (String.ofList (spelled old (marked text))) 0 (placed old new 0 1 (positions text)) =
      some (String.ofList (spelled new (marked text))) := by
  have places : respellings old new 0 (marked text) = placed old new 0 1 (positions text) :=
    respellings_bindFrom nonempty none 0 0 1 text.toList
  rw [← places]
  exact edited?_respellings old new [] [] (marked text)

theorem numbered_exact (text : String) :
    (positions text).Pairwise (· < ·) ∧
      (∀ p, p ∈ positions text ↔ ∃ front back, text = front ++ "?" ++ back ∧
        Unquoted front.toList ∧ p = front.utf8ByteSize) ∧
      (∀ p ∈ positions text, String.Pos.Raw.IsValid text ⟨p⟩) ∧
      edited? text 0 (placed asked counted 0 1 (positions text)) = some (numbered text) ∧
      positions (numbered text) = [] ∧
      numbered (numbered text) = numbered text ∧
      edited? (numbered text) 0 (placed counted asked 0 1 (positions text)) = some text ∧
      ∀ back, Unquoted text.toList → positions (text ++ back) =
        positions text ++ (positions back).map (· + text.utf8ByteSize) := by
  have there := edited?_placed byteSize_asked counted text
  have again := edited?_placed byteSize_counted asked text
  rw [ofList_asked, ofList_counted] at there again
  exact ⟨pairwise_positionsFrom .., fun _ => mem_positions_iff, fun _ => isValid_of_mem_positions,
    there, positions_numbered text, numbered_of_positions_eq_nil (positions_numbered text), again,
    fun back closed => positions_append closed back⟩

theorem numbered_exact_accented : Unquoted "'é?' = ?".toList ∧
    positions ("'é?' = ?" ++ " + ?") = [8, 12] ∧
    edited? "'é?' = ?" 0 [⟨8, 9, "$1"⟩] = some "'é?' = $1" ∧
    edited? "'é?' = $1" 0 [⟨8, 10, "?"⟩] = some "'é?' = ?" := by
  have closed : Unquoted "'é?' = ?".toList := unquoted_iff.mpr (by decide)
  obtain ⟨-, -, -, there, -, -, again, appended⟩ := numbered_exact "'é?' = ?"
  exact ⟨closed, appended " + ?" closed, there, again⟩

end RowGraph.Sql
