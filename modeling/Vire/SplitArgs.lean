import Vire.Sds

/-!
# Splitting a line into arguments

`sdssplitargs` reads the lines of the configuration file and the requests of the inline protocol.
-/

namespace Vire

inductive Quote
  | none
  | double
  | single
  deriving DecidableEq

def isHexDigit (b : UInt8) : Bool :=
  isdigit b || (97 ≤ b && b ≤ 102) || (65 ≤ b && b ≤ 70)

def hexDigitToInt (b : UInt8) : UInt8 :=
  if isdigit b then b - 48
  else if 97 ≤ b && b ≤ 102 then b - 87
  else if 65 ≤ b && b ≤ 70 then b - 55
  else 0

/-- The character an escape in double quotes stands for. -/
def unescape (b : UInt8) : UInt8 :=
  if b = 110 then 10
  else if b = 114 then 13
  else if b = 116 then 9
  else if b = 98 then 8
  else if b = 97 then 7
  else b

/-- A closing quote is followed by a space or nothing at all. -/
def closes (s : Sds) : Bool := (s.head?.map isspace).getD true

/-- The loop that reads one token: the token and what follows it, `none` for unbalanced quotes. -/
def splitToken : Quote → Sds → Sds → Option (Sds × Sds)
  | .none, [], cur => some (cur, [])
  | .none, b :: s, cur =>
    if b = 32 ∨ b = 10 ∨ b = 13 ∨ b = 9 then some (cur, s)
    else if b = 34 then splitToken .double s cur
    else if b = 39 then splitToken .single s cur
    else splitToken .none s (cur ++ [b])
  | .double, [], _ => none
  | .double, b :: s, cur =>
    if b = 92 then
      match s with
      | [] => none
      | c :: t =>
        if c = 120 then
          match t with
          | h :: l :: u =>
            if isHexDigit h && isHexDigit l then
              splitToken .double u (cur ++ [hexDigitToInt h * 16 + hexDigitToInt l])
            else splitToken .double (h :: l :: u) (cur ++ [120])
          | [h] => splitToken .double [h] (cur ++ [120])
          | [] => none
        else splitToken .double t (cur ++ [unescape c])
    else if b = 34 then if closes s then some (cur, s) else none
    else splitToken .double s (cur ++ [b])
  | .single, [], _ => none
  | .single, b :: s, cur =>
    if b = 92 then
      match s with
      | [] => none
      | c :: t =>
        if c = 39 then splitToken .single t (cur ++ [39])
        else splitToken .single (c :: t) (cur ++ [92])
    else if b = 39 then if closes s then some (cur, s) else none
    else splitToken .single s (cur ++ [b])

/-- The outer loop: skip blanks, read a token, until the end of the line. -/
def splitLoop : ℕ → Sds → Option (List Sds)
  | 0, _ => some []
  | fuel + 1, s =>
    match s.dropWhile isspace with
    | [] => some []
    | b :: t =>
      match splitToken .none (b :: t) [] with
      | none => none
      | some (tok, rest) => (splitLoop fuel rest).map (tok :: ·)

/-- `sdssplitargs`; every token takes a byte of the line, which bounds the rounds of the loop. -/
def sdssplitargs (line : Sds) : Option (List Sds) := splitLoop line.length (cstr line)

example : sdssplitargs (ascii ['a', ' ', '"', 'b', '\\', 'n', '"', ' ']) =
    some [[97], [98, 10]] := by decide

end Vire
