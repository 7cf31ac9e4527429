import Mathlib.Data.List.DropRight
import Mathlib.Data.List.TakeWhile
import RowGraph.Proofs.Walk
import RowGraph.Query.Resolution

/-!
# Dotted fields

A path of plain names, blanks around them allowed, keeps its parts when a field is put behind it:
the parts of `path.rest` are those of the path and those of the rest, in a select list as well
(`splitFields_dotted`). The rest of a field that goes on to a child has the parts that are left
(`pathParts_intercalate`).
-/

namespace RowGraph

namespace Text

/-! ## Trimming -/

def trimBack (cs : List Char) : List Char := (trimFront cs.reverse).reverse

theorem trimFront_append_cons {c : Char} (h : isBlank c = false) (front back : List Char) :
    trimFront (front ++ c :: back) = trimFront front ++ c :: back := by
  have stop : (c :: back).dropWhile isBlank = c :: back := List.dropWhile_cons_of_neg (by simp [h])
  rw [trimFront, trimFront, List.dropWhile_append, stop]
  split
  · next hnil => rw [List.isEmpty_iff.mp hnil, List.nil_append]
  · rfl

theorem trimBack_append_cons {c : Char} (h : isBlank c = false) (front back : List Char) :
    trimBack (front ++ c :: back) = front ++ c :: trimBack back := by
  rw [trimBack, List.reverse_append, List.reverse_cons, List.append_assoc, List.singleton_append,
    trimFront_append_cons h, List.reverse_append, List.reverse_cons, List.reverse_reverse,
    List.append_assoc, List.singleton_append]
  rfl

theorem trimChars_eq (cs : List Char) : trimChars cs = trimBack (trimFront cs) := rfl

theorem trimChars_append_cons {c : Char} (h : isBlank c = false) (front back : List Char) :
    trimChars (front ++ c :: back) = trimFront front ++ c :: trimBack back := by
  rw [← trimBack_append_cons h, ← trimFront_append_cons h]
  rfl

theorem trimFront_trimFront (cs : List Char) : trimFront (trimFront cs) = trimFront cs :=
  List.dropWhile_idempotent isBlank cs

theorem trimBack_trimBack (cs : List Char) : trimBack (trimBack cs) = trimBack cs := by
  rw [trimBack, trimBack, List.reverse_reverse, trimFront_trimFront]

theorem trimFront_eq_nil {cs : List Char} (h : ∀ c ∈ cs, isBlank c = true) : trimFront cs = [] :=
  List.dropWhile_eq_nil_iff.mpr h

theorem trimBack_eq_nil {cs : List Char} (h : ∀ c ∈ cs, isBlank c = true) : trimBack cs = [] := by
  rw [trimBack, trimFront_eq_nil fun c hc => h c (List.mem_reverse.mp hc), List.reverse_nil]

theorem trimChars_trimBack (cs : List Char) : trimChars (trimBack cs) = trimChars cs := by
  by_cases blank : ∀ c ∈ cs, isBlank c = true
  · rw [trimBack_eq_nil blank, trimChars_eq, trimChars_eq, trimFront_eq_nil blank]
    rfl
  · simp only [not_forall, Bool.not_eq_true] at blank
    obtain ⟨c, hc, mark⟩ := blank
    obtain ⟨front, back, rfl⟩ := List.append_of_mem hc
    rw [trimBack_append_cons mark, trimChars_append_cons mark, trimChars_append_cons mark,
      trimBack_trimBack]

theorem trimFront_subset (cs : List Char) : trimFront cs ⊆ cs :=
  (List.dropWhile_sublist isBlank).subset

theorem mem_trimFront {c : Char} {cs : List Char} (hc : c ∈ cs) (h : isBlank c = false) :
    c ∈ trimFront cs := by
  rw [← List.takeWhile_append_dropWhile (p := isBlank) (l := cs), List.mem_append] at hc
  refine hc.resolve_left fun blank => ?_
  rw [List.mem_takeWhile_imp blank] at h
  cases h

theorem mem_trimChars {c : Char} {cs : List Char} (hc : c ∈ cs) (h : isBlank c = false) :
    c ∈ trimChars cs :=
  List.mem_reverse.mpr (mem_trimFront (List.mem_reverse.mpr (mem_trimFront hc h)) h)

theorem trimChars_subset (cs : List Char) : trimChars cs ⊆ cs := fun _ hc =>
  trimFront_subset _ (List.mem_reverse.mp (trimFront_subset _ (List.mem_reverse.mp hc)))

/-! ## Pieces -/

variable {separator : Char}

theorem pieces_append (front back : List Char) :
    pieces separator (front ++ separator :: back) =
      pieces separator front ++ pieces separator back := by
  induction front with
  | nil => simp [pieces]
  | cons c cs ih =>
      simp only [List.cons_append, pieces, ih]
      split
      · rfl
      · cases hp : pieces separator cs with
        | nil => exact absurd hp (pieces_ne_nil separator cs)
        | cons piece rest => rfl

theorem pieces_append_of_not_mem {front : List Char} (h : separator ∉ front) (back : List Char)
    {piece : List Char} {rest : List (List Char)} (hb : pieces separator back = piece :: rest) :
    pieces separator (front ++ back) = (front ++ piece) :: rest := by
  induction front with
  | nil => exact hb
  | cons c cs ih =>
      rw [List.mem_cons, not_or] at h
      rw [List.cons_append, pieces, if_neg (Ne.symm h.1), ih h.2]
      rfl

theorem mem_pieces {c : Char} {cs : List Char} (hc : c ∈ cs) :
    c = separator ∨ ∃ piece ∈ pieces separator cs, c ∈ piece := by
  induction cs with
  | nil => cases hc
  | cons d rest ih =>
      simp only [pieces]
      by_cases hd : d = separator
      · rw [if_pos hd]
        rcases List.mem_cons.mp hc with rfl | hr
        · exact .inl hd
        · refine (ih hr).imp_right ?_
          rintro ⟨piece, hp, hm⟩
          exact ⟨piece, List.mem_cons_of_mem _ hp, hm⟩
      · rw [if_neg hd]
        obtain ⟨first, others, hf⟩ := List.exists_cons_of_ne_nil (pieces_ne_nil separator rest)
        rw [hf] at ih ⊢
        rcases List.mem_cons.mp hc with rfl | hr
        · exact .inr ⟨c :: first, List.mem_cons_self .., List.mem_cons_self ..⟩
        · refine (ih hr).imp_right ?_
          rintro ⟨piece, hp, hm⟩
          rcases List.mem_cons.mp hp with rfl | ho
          · exact ⟨d :: piece, List.mem_cons_self .., List.mem_cons_of_mem _ hm⟩
          · exact ⟨piece, List.mem_cons_of_mem _ ho, hm⟩

theorem not_mem_of_mem_pieces {cs piece : List Char} (h : piece ∈ pieces separator cs) :
    separator ∉ piece := by
  induction cs generalizing piece with
  | nil => rw [List.mem_singleton.mp h]; exact List.not_mem_nil
  | cons d rest ih =>
      rw [pieces] at h
      split at h
      · rcases List.mem_cons.mp h with rfl | h
        · exact List.not_mem_nil
        · exact ih h
      · next other =>
        obtain ⟨first, others, hf⟩ := List.exists_cons_of_ne_nil (pieces_ne_nil separator rest)
        rw [hf] at ih h
        rcases List.mem_cons.mp h with rfl | h
        · rw [List.mem_cons, not_or]
          exact ⟨Ne.symm other, ih (List.mem_cons_self ..)⟩
        · exact ih (List.mem_cons_of_mem _ h)

theorem subset_of_mem_pieces {cs piece : List Char} (h : piece ∈ pieces separator cs) :
    piece ⊆ cs := by
  induction cs generalizing piece with
  | nil => rw [List.mem_singleton.mp h]; exact List.Subset.refl _
  | cons d rest ih =>
      rw [pieces] at h
      split at h
      · rcases List.mem_cons.mp h with rfl | h
        · exact List.nil_subset _
        · exact List.subset_cons_of_subset d (ih h)
      · obtain ⟨first, others, hf⟩ := List.exists_cons_of_ne_nil (pieces_ne_nil separator rest)
        rw [hf] at ih h
        rcases List.mem_cons.mp h with rfl | h
        · exact List.cons_subset_cons d (ih (List.mem_cons_self ..))
        · exact List.subset_cons_of_subset d (ih (List.mem_cons_of_mem _ h))

theorem trimmed_pieces_trimFront (h : isBlank separator = false) (cs : List Char) :
    (pieces separator (trimFront cs)).map trimChars = (pieces separator cs).map trimChars := by
  induction cs with
  | nil => rfl
  | cons c rest ih =>
      cases hc : isBlank c with
      | false => rw [trimFront, List.dropWhile_cons_of_neg (by simp [hc])]
      | true =>
          have other : c ≠ separator := by
            rintro rfl
            rw [h] at hc
            cases hc
          have skip : ∀ cs, trimFront (c :: cs) = trimFront cs :=
            fun cs => List.dropWhile_cons_of_pos hc
          rw [skip, ih, pieces, if_neg other]
          obtain ⟨first, others, hf⟩ := List.exists_cons_of_ne_nil (pieces_ne_nil separator rest)
          rw [hf, List.map_cons, List.map_cons, trimChars, trimChars, skip]

end Text

/-! ## Parts of paths -/

def pathParts (path : String) : List String := (Text.split '.' path).map Text.trim

theorem pathParts_eq (path : String) :
    pathParts path = ((Text.pieces '.' path.toList).map Text.trimChars).map String.ofList := by
  simp [pathParts, Text.split, Text.trim, Function.comp_def]

theorem toList_dotted (front back : String) :
    (front ++ "." ++ back).toList = front.toList ++ '.' :: back.toList := by
  have dot : ".".toList = ['.'] := rfl
  rw [String.toList_append, String.toList_append, dot, List.append_assoc, List.singleton_append]

theorem pathParts_append (front back : String) :
    pathParts (front ++ "." ++ back) = pathParts front ++ pathParts back := by
  rw [pathParts_eq, toList_dotted, Text.pieces_append, List.map_append, List.map_append,
    ← pathParts_eq, ← pathParts_eq]

theorem PlainName.pathParts_eq {name : String} (h : PlainName name) : pathParts name = [name] := by
  have parts := h.fieldPath_eq
  rwa [fieldPath, h.2.2] at parts

theorem pathParts_intercalate {parts : List String} (h : ∀ part ∈ parts, PlainName part)
    (hne : parts ≠ []) : pathParts (String.intercalate "." parts) = parts := by
  induction parts with
  | nil => exact absurd rfl hne
  | cons part rest ih =>
      rw [List.forall_mem_cons] at h
      cases rest with
      | nil => rw [String.intercalate_singleton, h.1.pathParts_eq]
      | cons next more =>
          rw [String.intercalate_cons_of_ne_nil (by simp), pathParts_append, h.1.pathParts_eq,
            ih h.2 (by simp), List.singleton_append]

theorem PlainName.not_mem {name : String} (h : PlainName name) {c : Char}
    (hc : c ∈ ['.', ',', '\x7b', '\x7d', '!', '*']) : c ∉ name.toList :=
  fun hm => h.2.1 c hm hc

theorem not_mem_of_plain {path : String} (plain : ∀ part ∈ pathParts path, PlainName part) {c : Char}
    (hc : c ∈ [',', '!']) : c ∉ path.toList := by
  have special : c ≠ '.' ∧ Text.isBlank c = false := by
    rcases List.mem_pair.mp hc with rfl | rfl <;> decide
  intro hm
  have located : c = '.' ∨ ∃ piece ∈ Text.pieces '.' path.toList, c ∈ piece := Text.mem_pieces hm
  obtain ⟨piece, hp, hm⟩ := located.resolve_left special.1
  have part : String.ofList (Text.trimChars piece) ∈ pathParts path := by
    rw [pathParts_eq]
    exact List.mem_map_of_mem (List.mem_map_of_mem hp)
  refine (plain _ part).not_mem (c := c) ?_ ?_
  · rcases List.mem_pair.mp hc with rfl | rfl <;> simp
  · rw [String.toList_ofList]
    exact Text.mem_trimChars hm special.2

/-! ## Fields of lists -/

theorem trim_dotted (path rest : String) : Text.trim (path ++ "." ++ rest) =
    String.ofList (Text.trimFront path.toList) ++ "." ++
      String.ofList (Text.trimBack rest.toList) := by
  apply String.toList_injective
  rw [toList_dotted, Text.trim, toList_dotted, Text.trimChars_append_cons (by decide),
    String.toList_ofList, String.toList_ofList, String.toList_ofList]

theorem fieldPath_dotted (path rest : String) : fieldPath (Text.trim (path ++ "." ++ rest)) =
    pathParts path ++ pathParts (String.ofList (Text.trimBack rest.toList)) := by
  rw [fieldPath, trim_dotted, trim_dotted, String.toList_ofList, String.toList_ofList,
    Text.trimFront_trimFront, Text.trimBack_trimBack]
  show pathParts _ = _
  rw [pathParts_append, pathParts_eq, String.toList_ofList,
    Text.trimmed_pieces_trimFront (by decide), ← pathParts_eq]

theorem isExclusion_dotted {path : String} (plain : ∀ part ∈ pathParts path, PlainName part)
    (rest : String) : isExclusion (Text.trim (path ++ "." ++ rest)) = false := by
  rw [isExclusion, trim_dotted, trim_dotted, toList_dotted, String.toList_ofList,
    String.toList_ofList, Text.trimFront_trimFront]
  cases hf : Text.trimFront path.toList with
  | nil => rfl
  | cons c cs =>
      have member : c ∈ path.toList := Text.trimFront_subset _ (by simp [hf])
      have other : c ≠ '!' := by
        rintro rfl
        exact not_mem_of_plain plain (by simp) member
      simpa using other

/-- A select list that begins with a path of plain names and a dot: its first field goes along the
path and further. -/
theorem splitFields_dotted {path : String} (plain : ∀ part ∈ pathParts path, PlainName part)
    (rest : String) : ∃ first others more, splitFields (path ++ "." ++ rest) = first :: others ∧
      isExclusion first = false ∧ more ≠ [] ∧ fieldPath first = pathParts path ++ more := by
  obtain ⟨piece, others, hp⟩ := List.exists_cons_of_ne_nil (Text.pieces_ne_nil ',' rest.toList)
  have front : ',' ∉ path.toList ++ ['.'] := by
    rw [List.mem_append, not_or]
    exact ⟨not_mem_of_plain plain (by simp), by decide⟩
  have cut := Text.pieces_append_of_not_mem front rest.toList hp
  rw [List.append_assoc, List.singleton_append, ← toList_dotted] at cut
  have first : String.ofList (path.toList ++ ['.'] ++ piece) = path ++ "." ++ String.ofList piece := by
    apply String.toList_injective
    rw [toList_dotted, String.toList_ofList, String.toList_ofList, List.append_assoc,
      List.singleton_append]
  refine ⟨_, others.map fun cs => Text.trim (String.ofList cs), _, ?_,
    isExclusion_dotted plain (String.ofList piece), fieldParts_ne_nil _, fieldPath_dotted path _⟩
  rw [splitFields, Text.split, cut, List.map_cons, List.map_cons, first, List.map_map]
  rfl

theorem trim_dotted_ne (path rest : String) : Text.trim (path ++ "." ++ rest) ≠ "" := by
  intro h
  have chars := congrArg String.toList h
  rw [trim_dotted, toList_dotted] at chars
  simp at chars

structure Selects (list : String) (path : List String) : Prop where
  nonblank : Text.trim list ≠ ""
  one : ∃ field, splitFields list = [field] ∧ isExclusion field = false ∧ fieldPath field = path

theorem PlainName.selects {name : String} (h : PlainName name) : Selects name [name] := by
  refine ⟨by rw [h.2.2]; exact h.1, name, ?_, h.isExclusion, h.fieldPath_eq⟩
  rw [splitFields, Text.split, Text.pieces_of_not_mem (h.not_mem (by simp)), List.map_singleton,
    String.ofList_toList, List.map_singleton, h.2.2]

theorem selects_dotted {path : String} (plain : ∀ part ∈ pathParts path, PlainName part)
    {name : String} (hc : PlainName name) :
    Selects (path ++ "." ++ name) (pathParts path ++ [name]) := by
  have comma : ',' ∉ (path ++ "." ++ name).toList := by
    rw [toList_dotted, List.mem_append, List.mem_cons]
    rintro (hp | hd | hm)
    · exact not_mem_of_plain plain (by simp) hp
    · cases hd
    · exact hc.not_mem (by simp) hm
  refine ⟨trim_dotted_ne path name, _, ?_, isExclusion_dotted plain name, ?_⟩
  · rw [splitFields, Text.split, Text.pieces_of_not_mem comma, List.map_singleton,
      String.ofList_toList, List.map_singleton]
  · have trimmed : Text.trimChars name.toList = name.toList := by
      simpa [Text.trim] using congrArg String.toList hc.2.2
    have back : String.ofList (Text.trimBack name.toList) = name := by
      rw [← trimmed, Text.trimChars_eq, Text.trimBack_trimBack, ← Text.trimChars_eq, trimmed,
        String.ofList_toList]
    rw [fieldPath_dotted, back, hc.pathParts_eq]

theorem selects_intercalate {parts : List String} {name : String}
    (plain : ∀ part ∈ parts, PlainName part) (hc : PlainName name) :
    Selects (String.intercalate "." (parts ++ [name])) (parts ++ [name]) := by
  cases parts with
  | nil => exact hc.selects
  | cons part rest =>
      have parts := pathParts_intercalate plain (by simp)
      have list : Selects (String.intercalate "." (part :: rest) ++ "." ++ name)
          (pathParts (String.intercalate "." (part :: rest)) ++ [name]) :=
        selects_dotted (by rw [parts]; exact plain) hc
      rwa [parts, ← String.intercalate_singleton (s := ".") (t := name),
        ← String.intercalate_append_of_ne_nil (by simp) (by simp)] at list

end RowGraph
