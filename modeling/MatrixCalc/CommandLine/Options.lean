import MatrixCalc.Text

/-!
# Arguments of the command line

The arguments are read one after the other, and the first that asks for the version or the help
or that cannot be taken decides. Each option has a value, is given at most once, and nothing but
options is taken. A value that is an argument of its own does not begin with a dash, unless the
dash is all of it.
-/
namespace MatrixCalc.CommandLine

inductive Key where
  | expression
  | precision
  deriving DecidableEq

structure Options where
  expression : Option Text
  precision : Option Nat
  deriving DecidableEq

inductive Request where
  /-- The arguments cannot be taken. -/
  | misuse
  | version
  | help
  | run (o : Options)
  deriving DecidableEq

/-- One argument, by its form. -/
inductive Argument where
  /-- No dash in front, or a dash alone. -/
  | plain
  /-- Two dashes alone: only plain arguments may follow. -/
  | dashes
  | option (key : Key) (value : Option Text)
  | version
  | help
  | unknown

/-- The name and the value of a long option, which an equals sign parts. -/
def splitEquals (t : Text) : Text × Option Text :=
  match t.dropWhile (· != '=') with
  | [] => (t, none)
  | _ :: value => (t.takeWhile (· != '='), some value)

def Argument.ofLong (t : Text) : Argument :=
  let (name, value) := splitEquals t
  if name = "expression".toList then .option .expression value
  else if name = "precision".toList then .option .precision value
  else if name = "version".toList ∧ value = none then .version
  else if name = "help".toList ∧ value = none then .help
  else .unknown

/-- The value attached to a short option, with or without an equals sign. -/
def attached : Text → Option Text
  | [] => none
  | '=' :: value => some value
  | value => some value

def Argument.ofText : Text → Argument
  | ['-', '-'] => .dashes
  | '-' :: '-' :: name => .ofLong name
  | '-' :: 'e' :: behind => .option .expression (attached behind)
  | '-' :: 'p' :: behind => .option .precision (attached behind)
  | '-' :: 'V' :: _ => .version
  | '-' :: 'h' :: _ => .help
  | '-' :: _ :: _ => .unknown
  | _ => .plain

/-- A natural number below `2 ^ 64` in decimal digits, with or without a plus. -/
def word? (t : Text) : Option Nat :=
  let digits := if t.head? = some '+' then t.drop 1 else t
  if digits ≠ [] ∧ digits.all Char.isDigit then
    let n := digits.foldl (fun n c => 10 * n + (c.toNat - '0'.toNat)) 0
    if n < Nat.pow 2 64 then some n else none
  else none

/-- The options with one more value, unless it is bad or the option has one already. -/
def Options.set? (o : Options) (key : Key) (value : Text) : Option Options :=
  match key, o.expression, o.precision with
  | .expression, none, _ => some { o with expression := some value }
  | .precision, _, none => (word? value).map fun n => { o with precision := some n }
  | _, _, _ => none

/-- Reads the arguments. `waiting` is the option that the next argument is the value of. -/
def readArguments (o : Options) (waiting : Option Key) : List Text → Request
  | [] => if waiting = none then .run o else .misuse
  | t :: rest =>
    match Argument.ofText t, waiting with
    | .plain, some key =>
      match o.set? key t with
      | some o => readArguments o none rest
      | none => .misuse
    | .dashes, none => if rest = [] then .run o else .misuse
    | .option key none, none => readArguments o (some key) rest
    | .option key (some value), none =>
      match o.set? key value with
      | some o => readArguments o none rest
      | none => .misuse
    | .version, none => .version
    | .help, none => .help
    | _, _ => .misuse

def request (args : List Text) : Request := readArguments ⟨none, none⟩ none args

end MatrixCalc.CommandLine
