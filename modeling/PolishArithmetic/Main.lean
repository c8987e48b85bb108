import PolishArithmetic.Command.Run

/-!
The command itself, which reads its words and its input and writes what it has to say.
-/
open PolishArithmetic

def main (args : List String) : IO UInt32 := do
  let words := args.map String.toList
  let input ← if Command.readsInput words then
      (← IO.getStdin).readBinToEnd
    else
      pure ByteArray.empty
  let outcome := Command.run words input.toList
  IO.print (String.ofList outcome.output)
  IO.eprint (String.ofList outcome.errors)
  return .ofNat outcome.code
