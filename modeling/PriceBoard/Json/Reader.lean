import PriceBoard.Json.Numbers
import PriceBoard.Json.Strings

/-!
# Reading JSON values of a known kind

Each reader skips blanks, takes one value from the front of the text and
answers what follows it. A value of another kind is a shape fault, but only
once it has been read far enough to name it.
-/

namespace PriceBoard.Json

def isSpace (c : Char) : Bool := c == ' ' || c == '\n' || c == '\t' || c == '\r'

def skipSpace (cs : List Char) : List Char := cs.dropWhile isSpace

def takeName : (name : List Char) → List Char → Except Fault (List Char)
  | [], cs => .ok cs
  | _ :: _, [] => .error .ended
  | n :: name, c :: cs => if c = n then takeName name cs else .error .grammar

/-- The value at the front of the text, as far as it has to be read to name its kind. -/
def takeFound (cs : List Char) : Except Fault Found :=
  match cs with
  | [] => .error .ended
  | 'n' :: rest => (takeName ['u', 'l', 'l'] rest).map fun _ => .null
  | 't' :: rest => (takeName ['r', 'u', 'e'] rest).map fun _ => .boolean true
  | 'f' :: rest => (takeName ['a', 'l', 's', 'e'] rest).map fun _ => .boolean false
  | '"' :: rest => (decode rest).map fun (s, _) => .string (String.ofList s)
  | '[' :: _ => .ok .sequence
  | '\x7b' :: _ => .ok .object
  | c :: _ =>
    if c = '-' ∨ Decimal.isDigit c then (takeNumber cs).map fun (n, _) => .number n
    else .error .grammar

def wrongKind {α : Type} (expected : String) (cs : List Char) : Except Fault α :=
  match takeFound cs with
  | .ok found => .error (.shape (.wrongKind found expected))
  | .error e => .error e

def takeString (expected : String) (text : List Char) : Except Fault (List Char × List Char) :=
  match skipSpace text with
  | '"' :: rest => decode rest
  | cs => wrongKind expected cs

def takeReal (text : List Char) : Except Fault (Float × List Char) :=
  match skipSpace text with
  | c :: rest =>
    if c = '-' ∨ Decimal.isDigit c then
      (takeNumber (c :: rest)).map fun (n, rest) => (n.toFloat, rest)
    else wrongKind "f64" (c :: rest)
  | [] => .error .ended

def takeBoolean (text : List Char) : Except Fault (Bool × List Char) :=
  match skipSpace text with
  | 't' :: rest => (takeName ['r', 'u', 'e'] rest).map (true, ·)
  | 'f' :: rest => (takeName ['a', 'l', 's', 'e'] rest).map (false, ·)
  | cs => wrongKind "a boolean" cs

/-! ## Structure -/

def takeColon (text : List Char) : Except Fault (List Char) :=
  match skipSpace text with
  | ':' :: rest => .ok rest
  | [] => .error .ended
  | _ => .error .grammar

/-- What follows the comma between two items; the first item has none. -/
def takeComma (first : Bool) (cs : List Char) : Except Fault (List Char) :=
  match cs with
  | ',' :: rest => if first then .ok cs else .ok (skipSpace rest)
  | _ => if first then .ok cs else .error .grammar

/-- The name of an object's next member, or what follows the object's last one,
from its closing brace on. -/
def nextMember (first : Bool) (text : List Char) :
    Except Fault ((List Char × List Char) ⊕ List Char) :=
  match skipSpace text with
  | [] => .error .ended
  | '\x7d' :: rest => .ok (.inr ('\x7d' :: rest))
  | cs => do
    match ← takeComma first cs with
    | [] => .error .ended
    | '"' :: rest => .inl <$> decode rest
    | _ => .error .grammar

/-- The start of an array's next item, or nothing before its closing bracket. -/
def nextItem (first : Bool) (text : List Char) : Except Fault (Option (List Char)) :=
  match skipSpace text with
  | [] => .error .ended
  | ']' :: _ => .ok none
  | cs => do
    match ← takeComma first cs with
    | [] => .error .ended
    | ']' :: _ => .error .grammar
    | cs => .ok (some cs)

/-- The closing mark of an array or object whose items have all been read. -/
def takeClosing (mark : Char) (text : List Char) : Except Fault (List Char) :=
  match skipSpace text with
  | [] => .error .ended
  | c :: rest => if c = mark then .ok rest else .error .grammar

/-! ## Values that nobody asked for -/

/-- An array or object that is being passed over. -/
inductive Bracket
  | array
  | object
deriving DecidableEq

def Bracket.closing : Bracket → Char
  | .array => ']'
  | .object => '\x7d'

/-- A member's name and colon in an object; nothing in an array. -/
def Bracket.skipName (b : Bracket) (text : List Char) : Except Fault (List Char) :=
  match b with
  | .array => .ok text
  | .object =>
    match skipSpace text with
    | '"' :: rest => skipString rest >>= takeColon
    | [] => .error .ended
    | _ => .error .grammar

/-- Passes over the closing marks after a finished value, up to the comma before
the next item of an enclosing bracket. -/
def closeBrackets (text : List Char) : (opened : List Bracket) → Except Fault (List Bracket × List Char)
  | [] => .ok ([], text)
  | b :: opened =>
    match skipSpace text with
    | [] => .error .ended
    | ',' :: rest => (b.skipName rest).map (b :: opened, ·)
    | c :: rest => if c = b.closing then closeBrackets rest opened else .error .grammar

/-- Passes over what is left of a value inside the brackets `opened`. -/
def skipInside : (fuel : Nat) → (opened : List Bracket) → List Char → Except Fault (List Char)
  | 0, _, _ => .error .ended
  | fuel + 1, opened, text => do
    let finish (rest : List Char) : Except Fault (List Char) := do
      match ← closeBrackets rest opened with
      | ([], rest) => .ok rest
      | (opened, rest) => skipInside fuel opened rest
    let start (b : Bracket) (rest : List Char) : Except Fault (List Char) :=
      match skipSpace rest with
      | [] => .error .ended
      | c :: after =>
        if c = b.closing then do
          match ← closeBrackets after opened with
          | ([], rest) => .ok rest
          | (opened, rest) => skipInside fuel opened rest
        else do skipInside fuel (b :: opened) (← b.skipName (c :: after))
    match skipSpace text with
    | [] => .error .ended
    | 'n' :: rest => takeName ['u', 'l', 'l'] rest >>= finish
    | 't' :: rest => takeName ['r', 'u', 'e'] rest >>= finish
    | 'f' :: rest => takeName ['a', 'l', 's', 'e'] rest >>= finish
    | '"' :: rest => skipString rest >>= finish
    | '[' :: rest => start .array rest
    | '\x7b' :: rest => start .object rest
    | c :: rest =>
      if c = '-' ∨ Decimal.isDigit c then skipNumber (c :: rest) >>= finish
      else .error .grammar

def skipValue (text : List Char) : Except Fault (List Char) :=
  skipInside (text.length + 1) [] text

def takeEnd (text : List Char) : Except Fault Unit :=
  if skipSpace text = [] then .ok () else .error .grammar

end PriceBoard.Json
