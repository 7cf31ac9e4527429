import RowGraph.Proofs.Alias
import RowGraph.Proofs.Faults
import RowGraph.Proofs.Levels

/-!
# References in expressions

An expression is read from the left: a reference is a brace, some characters other than the closing
brace, and the closing brace, wherever it comes first, and everything else stands for itself
(`Scans`, `scans_iff`). A reference resolves if its dotted parts lead through bridges to a column
(`Settings.LeadsTo`, `walk_iff`); each that does not is one fault.
-/

namespace RowGraph

/-! ## Reading an expression -/

/-- A reference stands at the front of a text: what is between its braces, and the text behind it. -/
structure Opens (cs field rest : List Char) : Prop where
  named : field ≠ []
  closed : '\x7d' ∉ field
  text : cs = '\x7b' :: (field ++ '\x7d' :: rest)

/-- A text as the leftmost references in it and the characters around them. -/
inductive Scans : List Char → List (Char ⊕ String) → Prop where
  | nil : Scans [] []
  | char {c : Char} {cs : List Char} {marks : List (Char ⊕ String)}
      (plain : ∀ field rest, ¬ Opens (c :: cs) field rest) (next : Scans cs marks) :
      Scans (c :: cs) (.inl c :: marks)
  | reference {cs field rest : List Char} {marks : List (Char ⊕ String)}
      (opens : Opens cs field rest) (next : Scans rest marks) :
      Scans cs (.inr (String.ofList field) :: marks)

theorem Opens.unique {cs field other rest more : List Char} (h : Opens cs field rest)
    (also : Opens cs other more) : field = other ∧ rest = more := by
  have same := (List.cons.inj (h.text.symm.trans also.text)).2
  have cut := Alias.cutOnce_append h.closed rest
  rw [same, Alias.cutOnce_append also.closed, Option.some.injEq, Prod.mk.injEq] at cut
  exact ⟨cut.1.symm, cut.2.symm⟩

theorem Scans.unique {cs : List Char} {marks others : List (Char ⊕ String)} (h : Scans cs marks)
    (also : Scans cs others) : marks = others := by
  induction h generalizing others with
  | nil =>
      cases also with
      | nil => rfl
      | reference opens => cases opens.text
  | char plain _ ih =>
      cases also with
      | char _ next => rw [ih next]
      | reference opens => exact absurd opens (plain _ _)
  | reference opens _ ih =>
      cases also with
      | nil => cases opens.text
      | char plain => exact absurd opens (plain _ _)
      | reference others next =>
          obtain ⟨rfl, rfl⟩ := opens.unique others
          rw [ih next]

theorem Scans.literal {front cs : List Char} {marks : List (Char ⊕ String)} (h : '\x7b' ∉ front)
    (next : Scans cs marks) : Scans (front ++ cs) (front.map .inl ++ marks) := by
  induction front with
  | nil => exact next
  | cons c rest ih =>
      rw [List.mem_cons, not_or] at h
      exact .char (fun _ _ opens => h.1 (List.cons.inj opens.text).1.symm) (ih h.2)

theorem Scans.unclosed {cs : List Char} (h : '\x7d' ∉ cs) : Scans cs (cs.map .inl) := by
  induction cs with
  | nil => exact .nil
  | cons c rest ih =>
      refine .char (fun field back opens => ?_) (ih fun hm => h (List.mem_cons_of_mem _ hm))
      rw [opens.text] at h
      simp at h

def Segment.marks : Segment → List (Char ⊕ String)
  | .literal text => text.toList.map .inl
  | .reference field => [.inr field]

theorem cutOnce_eq_some {separator : Char} {cs front back : List Char}
    (h : Text.cutOnce separator cs = some (front, back)) :
    cs = front ++ separator :: back ∧ separator ∉ front := by
  induction cs generalizing front with
  | nil => cases h
  | cons c rest ih =>
      rw [Text.cutOnce] at h
      split at h
      · next same =>
        cases h
        exact ⟨by rw [same]; rfl, List.not_mem_nil⟩
      · next other =>
        obtain ⟨⟨found, back⟩, cut, pair⟩ := Option.map_eq_some_iff.mp h
        cases pair
        obtain ⟨rfl, plain⟩ := ih cut
        refine ⟨rfl, ?_⟩
        rw [List.mem_cons, not_or]
        exact ⟨Ne.symm other, plain⟩

theorem cutOnce_eq_none {separator : Char} {cs : List Char} (h : Text.cutOnce separator cs = none) :
    separator ∉ cs := by
  induction cs with
  | nil => exact List.not_mem_nil
  | cons c rest ih =>
      rw [Text.cutOnce] at h
      split at h
      · cases h
      · next other =>
        rw [List.mem_cons, not_or]
        exact ⟨Ne.symm other, ih (Option.map_eq_none_iff.mp h)⟩

theorem not_opens_empty (cs : List Char) (field rest : List Char) :
    ¬ Opens ('\x7b' :: '\x7d' :: cs) field rest := by
  rintro ⟨named, closed, text⟩
  cases field with
  | nil => exact named rfl
  | cons c more =>
      obtain ⟨rfl, -⟩ := List.cons.inj (List.cons.inj text).2
      exact closed (List.mem_cons_self ..)

theorem Scans.before {piece cs : List Char} {marks : List (Char ⊕ String)} (closed : '\x7d' ∉ piece)
    (next : Scans cs marks) :
    Scans (piece ++ '\x7d' :: cs) ((segmentsBefore piece).flatMap Segment.marks ++ marks) := by
  have closing : Scans ('\x7d' :: cs) (.inl '\x7d' :: marks) :=
    @Scans.literal ['\x7d'] cs marks (by decide) next
  unfold segmentsBefore
  split
  · next front c field cut =>
    obtain ⟨rfl, bare⟩ := cutOnce_eq_some cut
    have inside : '\x7d' ∉ c :: field := fun hm =>
      closed (List.mem_append_right front (List.mem_cons_of_mem _ hm))
    have opens : Opens ('\x7b' :: ((c :: field) ++ '\x7d' :: cs)) (c :: field) cs :=
      ⟨List.cons_ne_nil c field, inside, rfl⟩
    have scanned := Scans.literal bare (.reference opens next)
    simpa [Segment.marks] using scanned
  · next other =>
    have whole : ((Segment.literal (String.ofList (piece ++ ['\x7d']))).marks) =
        piece.map .inl ++ [.inl '\x7d'] := by simp [Segment.marks]
    rw [List.flatMap_singleton, whole, List.append_assoc]
    cases cut : Text.cutOnce '\x7b' piece with
    | none => exact Scans.literal (cutOnce_eq_none cut) closing
    | some both =>
        obtain ⟨front, field⟩ := both
        cases field with
        | cons c field => exact absurd cut (other front c field)
        | nil =>
            obtain ⟨rfl, bare⟩ := cutOnce_eq_some cut
            have scanned := Scans.literal bare (.char (not_opens_empty cs) closing)
            simpa using scanned

theorem scans_segmentsOf {pieces : List (List Char)} (some : pieces ≠ [])
    (closed : ∀ piece ∈ pieces, '\x7d' ∉ piece) :
    Scans (Text.joinPieces '\x7d' pieces) ((segmentsOf pieces).flatMap Segment.marks) := by
  induction pieces with
  | nil => exact absurd rfl some
  | cons piece rest ih =>
      rw [List.forall_mem_cons] at closed
      cases rest with
      | nil =>
          have last := Scans.unclosed closed.1
          simpa [segmentsOf, Text.joinPieces, Segment.marks] using last
      | cons next rest =>
          rw [segmentsOf, List.flatMap_append]
          · exact Scans.before closed.1 (ih (List.cons_ne_nil _ _) closed.2)
          · exact fun none => nomatch none

/-- An expression is read in one way, as its segments say. -/
theorem scans_iff (expression : String) (marks : List (Char ⊕ String)) :
    Scans expression.toList marks ↔ marks = (segments expression).flatMap Segment.marks := by
  have scanned : Scans expression.toList ((segments expression).flatMap Segment.marks) := by
    have := scans_segmentsOf (Text.pieces_ne_nil '\x7d' expression.toList)
      fun _ => Text.not_mem_of_mem_pieces
    rwa [Text.joinPieces_pieces] at this
  constructor
  · exact fun h => h.unique scanned
  · rintro rfl
    exact scanned

/-! ## Following a reference -/

/-- Dotted parts lead through bridges to a column, named as it is or short of its affix. -/
inductive Settings.LeadsTo (s : Settings) (place : Place) :
    Entity → Path → List String → Reference → Prop where
  | column {e : Entity} {path : Path} {part : String} (star : part ≠ "*")
      (isColumn : e.property? part = some .column) :
      LeadsTo s place e path [part] (.plain path part)
  | affix {e : Entity} {path : Path} {part column : String} (star : part ≠ "*")
      (unknown : e.property? part = none) (affixed : s.affixColumn? e part = some column) :
      LeadsTo s place e path [part]
        { path, column, label := if place = .expression then column else part }
  | bridge {e next : Entity} {path : Path} {part boundKey : String} {rest : List String}
      {ref : Reference} (star : part ≠ "*") (isBridge : s.schema.IsBridge e part boundKey next)
      (below : LeadsTo s place next (path.enter part) rest ref) :
      LeadsTo s place e path (part :: rest) ref

structure Settings.Refers (s : Settings) (base : Entity) (place : Place) (field : String)
    (ref : Reference) : Prop where
  named : Text.trim field ≠ ""
  included : isExclusion field = false
  leads : s.LeadsTo place base .root (fieldPath field) ref

namespace Settings

variable {s : Settings} {base e : Entity} {place : Place} {path : Path} {field : String}
  {ref : Reference}

theorem LeadsTo.ne_nil {parts : List String} (h : s.LeadsTo place e path parts ref) :
    parts ≠ [] := by
  cases h <;> exact List.cons_ne_nil _ _

theorem LeadsTo.walk {parts : List String} (h : s.LeadsTo place e path parts ref) (field : String) :
    ∃ w, s.walk place field e path parts = .ok w ∧ w.goal = .columns [ref] := by
  induction h with
  | column star isColumn => exact ⟨_, walk_column star isColumn, rfl⟩
  | affix star unknown affixed =>
      refine ⟨⟨[], .columns [_]⟩, ?_, rfl⟩
      unfold Settings.walk
      simp only [star, if_false, unknown, affixed]
  | bridge star isBridge below ih =>
      obtain ⟨w, ok, goal⟩ := ih
      rw [walk_bridge star isBridge below.ne_nil, ok]
      exact ⟨_, rfl, goal⟩

theorem leadsTo_of_walk (notSelect : place ≠ .select) {field : String} {parts : List String}
    (some : parts ≠ []) {w : Walk} (ok : s.walk place field e path parts = .ok w) :
    ∃ ref, w.goal = .columns [ref] ∧ s.LeadsTo place e path parts ref := by
  induction parts generalizing e path w with
  | nil => exact absurd rfl some
  | cons part rest ih =>
      simp only [Settings.walk] at ok
      by_cases star : part = "*"
      · rw [if_pos star, if_pos notSelect] at ok
        cases ok
      · rw [if_neg star] at ok
        split at ok
        · next isColumn =>
          split at ok
          · cases ok
          · next last =>
            cases ok
            obtain rfl : rest = [] := not_not.mp last
            exact ⟨_, rfl, .column star isColumn⟩
        · next boundKey target hp =>
          split at ok
          · cases ok
          · next goesOn =>
            split at ok
            · cases ok
            · next found hf =>
              obtain ⟨below, walked, rfl⟩ := map_eq_ok_iff.mp ok
              obtain ⟨ref, goal, leads⟩ := ih goesOn walked
              exact ⟨ref, goal, .bridge star ⟨target, hp, hf⟩ leads⟩
        · rw [if_pos notSelect] at ok
          cases ok
        · next unknown =>
          split at ok
          · next column affixed =>
            cases ok
            exact ⟨_, rfl, .affix star unknown affixed⟩
          · cases ok

theorem Refers.item (h : s.Refers base place field ref) (fields : List String) :
    ∃ i, s.item base place fields field = .ok i ∧ i.references = [ref] := by
  obtain ⟨w, walked, goal⟩ := h.leads.walk (Text.trim field)
  refine ⟨{ excluded := false, walk := w }, ?_, by rw [Item.references, goal]⟩
  unfold Settings.item
  split
  · next empty => exact absurd (String.toList_injective empty) h.named
  · next mark =>
    have included := h.included
    simp [isExclusion, mark] at included
  · rw [String.ofList_toList, walkField]
    exact congrArg (Except.map _) walked

theorem refers_of_item (notSelect : place ≠ .select) {fields : List String} {i : Item}
    (ok : s.item base place fields field = .ok i) :
    ∃ ref, i.references = [ref] ∧ s.Refers base place field ref := by
  obtain ⟨excluded, select, -⟩ := item_ok ok
  have included : isExclusion field = false := by
    rw [← excluded]
    exact Bool.eq_false_iff.mpr fun marked => notSelect (select marked)
  have named : Text.trim field ≠ "" := by
    intro blank
    rw [Settings.item, blank] at ok
    cases ok
  unfold Settings.item at ok
  split at ok
  · cases ok
  · next mark => simp [isExclusion, mark] at included
  · obtain ⟨w, walked, rfl⟩ := map_eq_ok_iff.mp ok
    rw [String.ofList_toList] at walked
    obtain ⟨ref, goal, leads⟩ := leadsTo_of_walk notSelect (fieldParts_ne_nil _) walked
    exact ⟨ref, by rw [Item.references, goal], named, included, leads⟩

theorem items_singleton (notSelect : place ≠ .select) (field : String) :
    (∃ i ref, s.items base place [field] = .ok [i] ∧ i.references = [ref] ∧
        s.Refers base place field ref) ∨
      (∃ fault, s.items base place [field] = .error [fault]) ∧
        ∀ ref, ¬ s.Refers base place field ref := by
  cases found : s.item base place [field] field with
  | ok i =>
      obtain ⟨ref, single, refers⟩ := refers_of_item notSelect found
      refine .inl ⟨i, ref, ?_, single, refers⟩
      rw [items, List.map_singleton, found]
      rfl
  | error fault =>
      refine .inr ⟨⟨fault, ?_⟩, fun ref refers => ?_⟩
      · rw [items, List.map_singleton, found]
        rfl
      · obtain ⟨i, ok, -⟩ := refers.item [field]
        rw [found] at ok
        cases ok

/-! ## Rewriting an expression -/

inductive Becomes (s : Settings) (base : Entity) (aliasOf? : Path → Option Alias) :
    Char ⊕ String → String → Prop where
  | char (c : Char) : Becomes s base aliasOf? (.inl c) (String.singleton c)
  | reference {name : String} {ref : Reference} {a : Alias}
      (refers : s.Refers base .expression (Text.trim name) ref)
      (known : aliasOf? ref.path = some a) :
      Becomes s base aliasOf? (.inr name)
        (s.style.escape a.token ++ "." ++ s.style.escape ref.column)

def Writes (s : Settings) (base : Entity) (aliasOf? : Path → Option Alias)
    (expression text : String) : Prop :=
  ∃ marks texts, Scans expression.toList marks ∧
    List.Forall₂ (s.Becomes base aliasOf?) marks texts ∧ text = String.join texts

def faultOf? (s : Settings) (base : Entity) : Char ⊕ String → Option Fault
  | .inl _ => none
  | .inr name => match s.part base (.reference name) with
    | .ok _ => none
    | .error fault => some fault

theorem part_reference_ok {name : String} {part : TemplatePart}
    (ok : s.part base (.reference name) = .ok part) :
    ∃ i ref, part = .field i ∧ i.references = [ref] ∧
      s.Refers base .expression (Text.trim name) ref := by
  simp only [Settings.part] at ok
  obtain ⟨i, found, rfl⟩ := map_eq_ok_iff.mp ok
  obtain ⟨ref, single, refers⟩ := refers_of_item (by decide) found
  exact ⟨i, ref, rfl, single, refers⟩

theorem faultOf?_eq_none_iff {name : String} : s.faultOf? base (.inr name) = none ↔
    ∃ ref, s.Refers base .expression (Text.trim name) ref := by
  rw [faultOf?]
  constructor
  · intro faultless
    split at faultless
    · next ok =>
      obtain ⟨i, ref, -, -, refers⟩ := part_reference_ok ok
      exact ⟨ref, refers⟩
    · cases faultless
  · rintro ⟨ref, refers⟩
    obtain ⟨i, found, -⟩ := refers.item [Text.trim name]
    simp only [part, found, Except.map]

theorem faults_template (s : Settings) (base : Entity) (expression : String) :
    (s.template base expression).faults =
      ((segments expression).flatMap Segment.marks).filterMap (s.faultOf? base) := by
  have gathered := Checked.faults_all
    ((segments expression).map fun segment => Checked.ofExcept (s.part base segment))
  rw [List.flatMap_map] at gathered
  rw [template, gathered, List.filterMap_flatMap]
  refine List.flatMap_congr fun segment _ => ?_
  cases segment with
  | literal text =>
      simp [Segment.marks, faultOf?, part, Checked.ofExcept, Checked.faults]
  | reference name =>
      rw [Segment.marks, List.filterMap_cons, List.filterMap_nil, faultOf?]
      generalize s.part base (.reference name) = result
      cases result <;> rfl

theorem template_resolves_iff (s : Settings) (base : Entity) {expression : String}
    {marks : List (Char ⊕ String)} (scans : Scans expression.toList marks) :
    (∃ t, s.template base expression = .ok t) ↔
      ∀ name, .inr name ∈ marks → ∃ ref, s.Refers base .expression (Text.trim name) ref := by
  obtain rfl := (scans_iff expression marks).mp scans
  rw [(telling_template expression).ok_iff, faults_template, List.filterMap_eq_nil_iff]
  constructor
  · exact fun faultless name hm => faultOf?_eq_none_iff.mp (faultless _ hm)
  · rintro resolve (c | name) hm
    · rfl
    · exact faultOf?_eq_none_iff.mpr (resolve name hm)

theorem becomes_of_part {segment : Segment} {written : TemplatePart}
    (ok : s.part base segment = .ok written) {aliasOf? : Path → Option Alias}
    {aliasOf : Path → Alias} (known : ∀ i, written.item? = some i → ∀ ref ∈ i.references,
      aliasOf? ref.path = some (aliasOf ref.path)) :
    ∃ texts, List.Forall₂ (s.Becomes base aliasOf?) segment.marks texts ∧
      written.text s.style aliasOf = String.join texts := by
  cases segment with
  | literal text =>
      cases ok
      refine ⟨text.toList.map String.singleton, ?_, ?_⟩
      · rw [Segment.marks, List.forall₂_map_left_iff, List.forall₂_map_right_iff, List.forall₂_same]
        exact fun c _ => .char c
      · apply String.toList_injective
        rw [String.toList_join, List.flatMap_map]
        simp [TemplatePart.text]
  | reference name =>
      obtain ⟨i, ref, rfl, single, refers⟩ := part_reference_ok ok
      have named := known i rfl ref (by rw [single]; exact List.mem_singleton_self ref)
      refine ⟨_, .cons (.reference refers named) .nil, ?_⟩
      rw [TemplatePart.text, single]
      rfl

theorem writes_of_template {expression : String} {t : Template}
    (ok : s.template base expression = .ok t) {aliasOf? : Path → Option Alias}
    {aliasOf : Path → Alias}
    (known : ∀ i ∈ t.items, ∀ ref ∈ i.references, aliasOf? ref.path = some (aliasOf ref.path)) :
    s.Writes base aliasOf? expression (t.fill s.style aliasOf) := by
  have parts := Checked.all_map_eq_ok_iff.mp ok
  have written : ∃ texts,
      List.Forall₂ (s.Becomes base aliasOf?) ((segments expression).flatMap Segment.marks) texts ∧
        t.fill s.style aliasOf = String.join texts := by
    clear ok
    generalize segments expression = all at parts
    induction parts with
    | nil => exact ⟨[], .nil, rfl⟩
    | @cons segment part rest more found _ ih =>
        obtain ⟨first, becomes, text⟩ := becomes_of_part (Checked.ofExcept_eq_ok_iff.mp found)
          fun i hi => known i (List.mem_filterMap.mpr ⟨part, List.mem_cons_self, hi⟩)
        obtain ⟨texts, others, fill⟩ := ih fun i hi => known i (by
          obtain ⟨other, hm, same⟩ := List.mem_filterMap.mp hi
          exact List.mem_filterMap.mpr ⟨other, List.mem_cons_of_mem _ hm, same⟩)
        refine ⟨first ++ texts, List.rel_append becomes others, ?_⟩
        rw [String.join_append, ← text, ← fill, Template.fill, List.map_cons, String.join_cons]
        rfl
  obtain ⟨texts, becomes, fill⟩ := written
  exact ⟨_, texts, (scans_iff expression _).mpr rfl, becomes, fill⟩

end Settings

end RowGraph
