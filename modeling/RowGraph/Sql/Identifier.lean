/-!
# Quoted identifiers

An identifier stands between quotes, and a quote inside it is written twice. `unescapeChars`
reads what `escapeChars` writes: from any text that does not go on with a quote it takes exactly
the identifier (`unescapeChars_escapeChars`).
-/

namespace RowGraph.Sql

inductive EscapeStyle where
  | doubleQuote
  | backtick
  deriving DecidableEq

def EscapeStyle.quote : EscapeStyle → Char
  | .doubleQuote => '"'
  | .backtick => '\x60'

def doubled (quote : Char) : List Char → List Char
  | [] => []
  | c :: cs => if c = quote then quote :: quote :: doubled quote cs else c :: doubled quote cs

def escapeChars (quote : Char) (name : List Char) : List Char :=
  quote :: doubled quote name ++ [quote]

def undouble (quote : Char) : List Char → Option (List Char × List Char)
  | [] => none
  | [c] => if c = quote then some ([], []) else none
  | c :: d :: cs =>
      if c = quote then
        if d = quote then (undouble quote cs).map fun (name, rest) => (quote :: name, rest)
        else some ([], d :: cs)
      else (undouble quote (d :: cs)).map fun (name, rest) => (c :: name, rest)

def unescapeChars (quote : Char) : List Char → Option (List Char × List Char)
  | [] => none
  | c :: cs => if c = quote then undouble quote cs else none

def EscapeStyle.escape (s : EscapeStyle) (name : String) : String :=
  String.ofList (escapeChars s.quote name.toList)

theorem undouble_doubled (quote : Char) (name rest : List Char) (h : rest.head? ≠ some quote) :
    undouble quote (doubled quote name ++ quote :: rest) = some (name, rest) := by
  induction name with
  | nil => cases rest with
    | nil => simp [doubled, undouble]
    | cons d rest =>
        have hd : d ≠ quote := by simpa using h
        simp [doubled, undouble, hd]
  | cons c cs ih =>
      by_cases hc : c = quote
      · subst hc
        simp [doubled, undouble, ih]
      · simp only [doubled, hc, if_false, List.cons_append]
        cases hd : doubled quote cs ++ quote :: rest with
        | nil => simp at hd
        | cons d ds => rw [hd] at ih; simp [undouble, hc, ih]

theorem unescapeChars_escapeChars (quote : Char) (name rest : List Char)
    (h : rest.head? ≠ some quote) :
    unescapeChars quote (escapeChars quote name ++ rest) = some (name, rest) := by
  simpa [escapeChars, unescapeChars] using undouble_doubled quote name rest h

end RowGraph.Sql
