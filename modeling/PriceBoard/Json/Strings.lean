import PriceBoard.Json.Fault

/-!
# JSON strings

`encode` escapes quotes, backslashes and control characters and nothing else.
`decode` reads a string whose opening quote has been taken, and answers what
follows the closing one.
-/

namespace PriceBoard.Json

/-! ## Writing -/

def hexDigit (n : Nat) : Char := Nat.digitChar (n % 16)

def encodeChar (c : Char) : List Char :=
  if c = '"' then ['\\', '"']
  else if c = '\\' then ['\\', '\\']
  else if c = '\x08' then ['\\', 'b']
  else if c = '\x0c' then ['\\', 'f']
  else if c = '\n' then ['\\', 'n']
  else if c = '\r' then ['\\', 'r']
  else if c = '\t' then ['\\', 't']
  else if c.toNat < 0x20 then ['\\', 'u', '0', '0', hexDigit (c.toNat / 16), hexDigit c.toNat]
  else [c]

def encode (s : List Char) : List Char := '"' :: (s.flatMap encodeChar ++ ['"'])

/-! ## Reading -/

def hexValue? (c : Char) : Option Nat :=
  if '0' ≤ c ∧ c ≤ '9' then some (c.toNat - '0'.toNat)
  else if 'a' ≤ c ∧ c ≤ 'f' then some (c.toNat - 'a'.toNat + 10)
  else if 'A' ≤ c ∧ c ≤ 'F' then some (c.toNat - 'A'.toNat + 10)
  else none

def hexNumber? (a b c d : Char) : Option Nat := do
  some ((((← hexValue? a) * 16 + (← hexValue? b)) * 16 + (← hexValue? c)) * 16 + (← hexValue? d))

/-- The character after a backslash for itself. -/
def shortEscape? (c : Char) : Option Char :=
  if c = '"' ∨ c = '\\' ∨ c = '/' then some c
  else if c = 'b' then some '\x08'
  else if c = 'f' then some '\x0c'
  else if c = 'n' then some '\n'
  else if c = 'r' then some '\r'
  else if c = 't' then some '\t'
  else none

def isLeadingHalf (n : Nat) : Bool := 0xD800 ≤ n && n ≤ 0xDBFF

def isTrailingHalf (n : Nat) : Bool := 0xDC00 ≤ n && n ≤ 0xDFFF

def joinHalves (lead trail : Nat) : Char :=
  Char.ofNat (0x10000 + (lead - 0xD800) * 0x400 + (trail - 0xDC00))

/-- Why four hexadecimal digits cannot be read here: the text ends within four
bytes, or one of them is no digit. -/
def hexFault (rest : List Char) : Fault :=
  if (rest.foldl (fun n c => n + c.utf8Size) 0) < 4 then .ended else .grammar

/-- What is wrong after a leading half that no trailing half follows. -/
def pairFault : List Char → Fault
  | [] => .ended
  | ['\\'] => .ended
  | '\\' :: 'u' :: rest =>
    match rest with
    | a :: b :: c :: d :: _ => if (hexNumber? a b c d).isSome then .grammar else hexFault rest
    | _ => hexFault rest
  | _ => .grammar

/-- The characters up to the closing quote, in front of those read so far. -/
def decodeFrom (read : List Char) : List Char → Except Fault (List Char × List Char)
  | [] => .error .ended
  | '"' :: rest => .ok (read.reverse, rest)
  | '\\' :: 'u' :: a :: b :: c :: d :: rest =>
    match hexNumber? a b c d with
    | none => .error (hexFault (a :: b :: c :: d :: rest))
    | some n =>
      if isTrailingHalf n then .error .grammar
      else if isLeadingHalf n then
        match rest with
        | '\\' :: 'u' :: e :: f :: g :: h :: after =>
          match hexNumber? e f g h with
          | some m =>
            if isTrailingHalf m then decodeFrom (joinHalves n m :: read) after
            else .error .grammar
          | none => .error (pairFault rest)
        | _ => .error (pairFault rest)
      else decodeFrom (Char.ofNat n :: read) rest
  | '\\' :: 'u' :: rest => .error (hexFault rest)
  | ['\\'] => .error .ended
  | '\\' :: c :: rest =>
    match shortEscape? c with
    | some e => decodeFrom (e :: read) rest
    | none => .error .grammar
  | c :: rest => if c.toNat < 0x20 then .error .grammar else decodeFrom (c :: read) rest

def decode (cs : List Char) : Except Fault (List Char × List Char) := decodeFrom [] cs

/-- Passes over a string without looking at the characters its escapes stand for. -/
def skipString : List Char → Except Fault (List Char)
  | [] => .error .ended
  | '"' :: rest => .ok rest
  | '\\' :: 'u' :: a :: b :: c :: d :: rest =>
    if (hexNumber? a b c d).isSome then skipString rest
    else .error (hexFault (a :: b :: c :: d :: rest))
  | '\\' :: 'u' :: rest => .error (hexFault rest)
  | ['\\'] => .error .ended
  | '\\' :: c :: rest => if (shortEscape? c).isSome then skipString rest else .error .grammar
  | c :: rest => if c.toNat < 0x20 then .error .grammar else skipString rest

end PriceBoard.Json
