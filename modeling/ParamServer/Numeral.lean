/-!
# Decimal numerals

Numbers as they are typed: a sign may stand in front of at least one digit, and nothing else is
allowed, blanks and separators included.
-/

namespace ParamServer.Numeral

def digit? (c : Char) : Option Nat :=
  if '0' ≤ c ∧ c ≤ '9' then some (c.toNat - '0'.toNat) else none

def ofDigits? : List Char → Option Nat
  | [] => none
  | cs => (cs.mapM digit?).map (List.foldl (fun n d => 10 * n + d) 0)

/-- A number below `limit`; only a plus may stand in front. -/
def natural? (limit : Nat) (cs : List Char) : Option Nat :=
  let digits :=
    match cs with
    | '+' :: rest => rest
    | _ => cs
  (ofDigits? digits).filter (· < limit)

/-- A number below `limit`; a minus may stand in front of zero. -/
def signed? (limit : Nat) (cs : List Char) : Option Nat :=
  match cs with
  | '-' :: rest => (ofDigits? rest).filter (· = 0)
  | _ => natural? limit cs

end ParamServer.Numeral
