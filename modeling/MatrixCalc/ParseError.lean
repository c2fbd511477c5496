import MatrixCalc.Token.Basic

/-!
# Errors in a text

An error in a text is a fault at a place. Messages count columns in bytes from one.
-/
namespace MatrixCalc

inductive Fault where
  /-- A token was asked for after the end. -/
  | afterEnd
  /-- A run of digits and points that is no number. -/
  | badNumeral (literal : Text)
  | strayCharacter (c : Char)
  /-- A name that is no function, no variable and no target of an assignment. -/
  | unknownName (name : Text)
  | expected (wanted found : Token)
  /-- A token that begins no operand. -/
  | unexpected (token : Token)
  | trailing (text : Text)
  | nothingAssigned (name : Text)
  | tooDeep
  /-- A variable whose text leads back to it. -/
  | cyclic (name : Text)
  deriving DecidableEq

structure ParseError where
  offset : Nat
  fault : Fault
  deriving DecidableEq

namespace Fault

def message : Fault → String
  | afterEnd => "Unexpected end of expression."
  | badNumeral literal => s!"Bad numeric literal: {String.ofList literal}."
  | strayCharacter c =>
    if c.toNat < 0x20 then s!"Unexpected character (decimal {c.toNat})."
    else s!"Unexpected character: {c}"
  | unknownName name => s!"Unexpected alphanumeric characters: {String.ofList name}"
  | expected wanted found => s!"{wanted.phrase} expected, found {found.phrase}."
  | unexpected token => s!"Unexpected token: {token.phrase}."
  | trailing text => s!"Unexpected text at the end of expression: {String.ofList text}"
  | nothingAssigned name => s!"Nothing assigned to variable '{String.ofList name}'."
  | tooDeep => "Expression is nested too deeply."
  | cyclic name => s!"Variable '{String.ofList name}' refers back to itself."

end Fault

def ParseError.message (e : ParseError) : String :=
  s!"Error at column {e.offset + 1}: {e.fault.message}"

end MatrixCalc
