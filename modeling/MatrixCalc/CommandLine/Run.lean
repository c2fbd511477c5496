import MatrixCalc.CommandLine.Options
import MatrixCalc.Session
import MatrixCalc.Text.Space
import MatrixCalc.Value.Display

/-!
# What the program prints

With an expression the program prints its value. Without one it asks for line after line until
the input ends or a line is empty. Errors of single lines do not end such a session; a line
that is no text does.
-/
namespace MatrixCalc.CommandLine

/-- What a run has printed, and its exit code. -/
structure Output where
  stdout : Text
  stderr : Text
  code : Nat
  deriving DecidableEq

def prompt : Text := "> ".toList

def versionText : Text := "vecalc 0.1.0\n".toList

def helpText : Text :=
  ("vecalc evaluates expressions over scalars, vectors and matrices\n\n" ++
    "Usage: vecalc [OPTIONS]\n\n" ++
    "Options:\n" ++
    "  -e, --expression <EXPRESSION>  Evaluates a single expression and exits\n" ++
    "  -p, --precision <PRECISION>    Number of decimals shown in results [default: 3]\n" ++
    "  -h, --help                     Print help\n" ++
    "  -V, --version                  Print version\n").toList

def misuseText : Text := "usage: vecalc [-e EXPRESSION] [-p PRECISION]\n".toList

def badInputText : Text :=
  "Failed to read input: stream did not contain valid UTF-8\n".toList

def line (t : Text) : Text := t ++ ['\n']

variable {σ : Type} [RandomSource σ]

def single (precision : Nat) (s : Session σ) (expression : Text) : Output :=
  match (s.evaluate expression).1 with
  | .ok (.value v) => ⟨line (v.display precision), [], 0⟩
  | .ok .assigned => ⟨[], [], 0⟩
  | .error e => ⟨[], line e.message.toList, 1⟩

/-- The answer to a line of a session, or nothing when the line ends the session. -/
def respond (precision : Nat) (s : Session σ) (t : Text) : Option (Text × Session σ) :=
  if t.isEmptyLine then none
  else
    match s.evaluate t with
    | (.ok (.value v), s) => some (line ("Result: ".toList ++ v.display precision), s)
    | (.ok .assigned, s) => some ([], s)
    | (.error e, s) => some (line e.message.toList, s)

/-- A session over the lines of an input, where a line that is no text stands as `none`. -/
def transcript (precision : Nat) (s : Session σ) : List (Option Text) → Output
  | [] => ⟨prompt, [], 0⟩
  | none :: _ => ⟨prompt, badInputText, 1⟩
  | some t :: rest =>
    match respond precision s t with
    | none => ⟨prompt, [], 0⟩
    | some (answer, s) =>
      let output := transcript precision s rest
      { output with stdout := prompt ++ (answer ++ output.stdout) }

/-- The text of some bytes, if they are the UTF-8 form of one. -/
def decode? (bytes : List UInt8) : Option Text :=
  (String.fromUTF8? ⟨bytes.toArray⟩).map String.toList

/-- The text of a line that a line feed has ended; a carriage return in front of it is dropped. -/
def endedLine? (bytes : List UInt8) : Option Text :=
  decode? (if bytes.getLast? = some 13 then bytes.dropLast else bytes)

/-- The lines of an input. Bytes behind the last line feed are a line of their own, which keeps
a carriage return at its end. -/
def lines (bytes : List UInt8) : List (Option Text) :=
  let parts := bytes.splitOn 10
  let ended := parts.dropLast.map endedLine?
  match parts.getLast? with
  | some (b :: behind) => ended ++ [decode? (b :: behind)]
  | _ => ended

/-- The whole run on the arguments and the input. -/
def run (source : σ) (args : List Text) (input : List UInt8) : Output :=
  match request args with
  | .misuse => ⟨[], misuseText, 2⟩
  | .version => ⟨versionText, [], 0⟩
  | .help => ⟨helpText, [], 0⟩
  | .run o =>
    let precision := o.precision.getD Display.defaultPrecision
    match o.expression with
    | some expression => single precision (.start source) expression
    | none => transcript precision (.start source) (lines input)

end MatrixCalc.CommandLine
