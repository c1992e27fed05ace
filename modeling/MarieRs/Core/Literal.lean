import MarieRs.Core.Instruction
import MarieRs.Core.Text

namespace MarieRs

/-- The base a literal is written in. -/
inductive Radix where
  | binary | octal | decimal | hexadecimal
  deriving DecidableEq, Repr

namespace Radix

def base : Radix → Nat
  | .binary => 2
  | .octal => 8
  | .decimal => 10
  | .hexadecimal => 16

def allowsSign : Radix → Bool
  | .decimal => true
  | _ => false

end Radix

inductive ParseWordError where
  | empty
  | invalidDigit (radix : Radix)
  | unexpectedSign (radix : Radix)
  | outOfRange
  deriving DecidableEq, Repr

/-- `char::to_digit` -/
def toDigit (base : Nat) (c : Char) : Option Nat :=
  let value :=
    if '0' ≤ c ∧ c ≤ '9' then some (c.toNat - '0'.toNat)
    else if 'a' ≤ c ∧ c ≤ 'z' then some (c.toNat - 'a'.toNat + 10)
    else if 'A' ≤ c ∧ c ≤ 'Z' then some (c.toNat - 'A'.toNat + 10)
    else none
  value.filter (· < base)

/-- The number a string of digits writes, most significant first. -/
def ofDigits (base : Nat) (digits : Str) : Nat :=
  digits.foldl (fun value c => value * base + (toDigit base c).getD 0) 0

/-- `from_str_radix` on an integer type with the given maximum, for strings that
hold digits only: it fails on the empty string and on overflow. -/
def fromStrRadix (max base : Nat) (digits : Str) : Option Nat :=
  if digits = [] ∨ ¬ digits.all (fun c => (toDigit base c).isSome) then none
  else if ofDigits base digits ≤ max then some (ofDigits base digits)
  else none

def trimStart (s : Str) : Str := s.dropWhile isWhitespace

def trimEnd (s : Str) : Str := (s.reverse.dropWhile isWhitespace).reverse

def trim (s : Str) : Str := trimEnd (trimStart s)

/-- Splits an optional leading `-` off a literal; a `+` stays. -/
def splitSign (literal : Str) : Bool × Str :=
  match trim literal with
  | '-' :: rest => (true, trimStart rest)
  | trimmed => (false, trimmed)

/-- Converts a sign and a digit string into a word. -/
def finish (negative : Bool) (digits : Str) (radix : Radix) : Except ParseWordError Word :=
  if digits = [] then .error .empty
  else if ¬ digits.all (fun c => (toDigit radix.base c).isSome) then .error (.invalidDigit radix)
  else
    match fromStrRadix (2 ^ 32 - 1) radix.base digits with
    | none => .error .outOfRange
    | some magnitude =>
      let limit := if negative then 2 ^ 15 else 2 ^ 16 - 1
      if magnitude > limit then .error .outOfRange
      else
        let word := BitVec.ofNat 16 magnitude
        .ok (if negative then -word else word)

def parseWord (literal : Str) (radix : Radix) : Except ParseWordError Word :=
  let (negative, digits) := splitSign literal
  if negative ∧ ¬ radix.allowsSign then .error (.unexpectedSign radix)
  else finish negative digits radix

/-- Splits an optional leading `+` or `-` off a literal, for interactive input. -/
def splitPrefixedSign (literal : Str) : Bool × Str :=
  match trim literal with
  | '-' :: rest => (true, trimStart rest)
  | '+' :: rest => (false, trimStart rest)
  | trimmed => (false, trimmed)

/-- The radix that a `0x`, `0o` or `0b` prefix gives, and what follows it. -/
def prefixedRadix (body : Str) : Radix × Str :=
  let lowered := toAsciiLowercase (body.take 2)
  if lowered = "0x".toList then (.hexadecimal, body.drop 2)
  else if lowered = "0o".toList then (.octal, body.drop 2)
  else if lowered = "0b".toList then (.binary, body.drop 2)
  else (.decimal, body)

/-- A sign is accepted in every radix. -/
def parsePrefixedWord (literal : Str) : Except ParseWordError Word :=
  let (negative, body) := splitPrefixedSign literal
  let (radix, digits) := prefixedRadix body
  finish negative digits radix

/-- What the assembler understands in mnemonic position besides opcodes. -/
inductive Directive where
  | org | dec | oct | hex | adr | clear | end_
  deriving DecidableEq, Repr

namespace Directive

def mnemonic : Directive → String
  | .org => "ORG"
  | .dec => "DEC"
  | .oct => "OCT"
  | .hex => "HEX"
  | .adr => "ADR"
  | .clear => "Clear"
  | .end_ => "END"

def fromMnemonic (mnemonic : Str) : Option Directive :=
  let lowered := toAsciiLowercase mnemonic
  if lowered = "org".toList then some .org
  else if lowered = "dec".toList then some .dec
  else if lowered = "oct".toList then some .oct
  else if lowered = "hex".toList then some .hex
  else if lowered = "adr".toList then some .adr
  else if lowered = "clear".toList then some .clear
  else if lowered = "end".toList then some .end_
  else none

def literalRadix : Directive → Option Radix
  | .dec => some .decimal
  | .oct => some .octal
  | .hex => some .hexadecimal
  | _ => none

def description : Directive → String
  | .org => "Assemble the following code at address X"
  | .dec => "Emit the decimal literal X"
  | .oct => "Emit the octal literal X"
  | .hex => "Emit the hexadecimal literal X"
  | .adr => "Emit the address X as a word"
  | .clear => "Set the AC to zero (an alias for LoadImmi 0)"
  | .end_ => "Stop assembling"

end Directive

end MarieRs
