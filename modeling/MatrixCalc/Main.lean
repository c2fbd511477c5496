import MatrixCalc.CommandLine.Run

/-!
# The program

The outer layer: arguments, standard input and output, and a seed for the random numbers. All
that is printed comes from the command line's answers.
-/
namespace MatrixCalc.Main

def print (stream : IO.FS.Stream) (t : Text) : IO Unit := do
  stream.putStr (String.ofList t)
  stream.flush

/-- A seed from the random numbers of the system. -/
def seed : IO Nat := do
  let bytes ← IO.getRandomBytes 8
  return bytes.toList.foldl (fun n b => 256 * n + b.toNat) 0

/-- The bytes up to a line feed, and whether there was one before the end of the input. -/
partial def readLine (input : IO.FS.Stream) (taken : List UInt8) : IO (List UInt8 × Bool) := do
  let bytes ← input.read 1
  match bytes.toList with
  | [] => return (taken.reverse, false)
  | b :: _ => if b == 10 then return (taken.reverse, true) else readLine input (b :: taken)

/-- Asks for lines until the session ends, and gives the exit code. -/
partial def converse (precision : Nat) (s : Session Seeded) : IO UInt32 := do
  let output ← IO.getStdout
  print output CommandLine.prompt
  let (bytes, ended) ← readLine (← IO.getStdin) []
  if bytes.isEmpty && !ended then return 0
  match if ended then CommandLine.endedLine? bytes else CommandLine.decode? bytes with
  | none =>
    print (← IO.getStderr) CommandLine.badInputText
    return 1
  | some t =>
    match CommandLine.respond precision s t with
    | none => return 0
    | some (answer, s) =>
      print output answer
      converse precision s

def run (args : List Text) : IO UInt32 := do
  let source := Seeded.ofSeed (← seed)
  match CommandLine.request args with
  | .run ⟨none, precision⟩ =>
    converse (precision.getD Display.defaultPrecision) (.start source)
  | _ =>
    let output := CommandLine.run source args []
    print (← IO.getStdout) output.stdout
    print (← IO.getStderr) output.stderr
    return UInt32.ofNat output.code

end MatrixCalc.Main

def main (args : List String) : IO UInt32 := MatrixCalc.Main.run (args.map String.toList)
