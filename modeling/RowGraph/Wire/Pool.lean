import RowGraph.Environment
import RowGraph.Failure
import RowGraph.Sql.Identifier

/-!
# Connection pools

A pool is set up from an environment: the address of the database must be there and pass the parser
of addresses, and the number of connections is a natural number if it is given. A pool itself has
no connection to give back or to close.
-/

namespace RowGraph.Wire

structure Pool where
  url : String
  size : Nat

def urlName : String := "PERS_POSTGRES_URL"

def sizeName : String := "PERS_CONNECTION_POOL_SIZE"

def poolSize? (s : String) : Option Nat :=
  let digits := match s.toList with
    | '+' :: cs => cs
    | cs => cs
  if digits.isEmpty || !digits.all Char.isDigit then none
  else
    let n := digits.foldl (fun n c => 10 * n + (c.toNat - 48)) 0
    if n < UInt64.size then some n else none

/-- Accepts the addresses that name the scheme. The parser of the database driver does more: it
takes lists such as `host=localhost` as well, and refuses what is malformed behind the scheme. -/
def schemed (url : String) : Except DatabaseFailure Unit :=
  if url.startsWith "postgres://" || url.startsWith "postgresql://" then .ok ()
  else .error (.raised ("invalid: " ++ url))

namespace Pool

def size? (e : Environment) : Option Nat :=
  match e.get? sizeName with
  | none => some 10
  | some text => poolSize? text

/-- Sets up a pool, given the parser of addresses, which is not part of the library. -/
def ofParser (parse : String → Except DatabaseFailure Unit) (e : Environment) :
    Except DatabaseFailure Pool :=
  match e.get? urlName, size? e with
  | none, _ => .error (.config ("Env " ++ urlName ++ " must be provided"))
  | some _, none =>
      .error (.config ("Env " ++ sizeName ++ " must be a positive number, got '" ++
        e.getD sizeName "" ++ "'"))
  | some url, some size => match parse url with
    | .error f => .error (.within "Failed to parse PostgreSQL URL" f)
    | .ok () => .ok { url, size }

def ofEnvironment (e : Environment) : Except DatabaseFailure Pool := ofParser schemed e

theorem ofParser_eq_ok_iff {parse : String → Except DatabaseFailure Unit} {e : Environment}
    {pool : Pool} : ofParser parse e = .ok pool ↔
      e.get? urlName = some pool.url ∧ size? e = some pool.size ∧ parse pool.url = .ok () := by
  obtain ⟨url, size⟩ := pool
  unfold ofParser
  cases e.get? urlName with
  | none => simp
  | some given =>
      cases size? e with
      | none => simp
      | some asked =>
          simp only [Option.some.injEq]
          cases parsed : parse given with
          | error f =>
              refine ⟨nofun, ?_⟩
              rintro ⟨rfl, -, accepted⟩
              rw [parsed] at accepted
              cases accepted
          | ok u =>
              constructor
              · rintro ⟨⟩
                exact ⟨rfl, rfl, parsed⟩
              · rintro ⟨rfl, rfl, -⟩
                rfl

def style (_ : Pool) : Sql.EscapeStyle := .doubleQuote

def supportsReturning (_ : Pool) : Bool := true

def release (_ : Pool) : Except DatabaseFailure Unit := .ok ()

def destroy (_ : Pool) : Except DatabaseFailure Unit := .ok ()

end Pool
end RowGraph.Wire
