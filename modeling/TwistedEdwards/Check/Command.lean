import TwistedEdwards.Check.Topic

/-!
# The command line of the property test

The command takes `--quiet` and `--seed` with a number, in any order and number;
the last seed counts.  Anything else is refused with the usage line.

A seed is read as far as it goes: blanks, a sign, and digits in base sixteen after
`0x`, in base eight after `0`, else in base ten.  No digits read as zero, a number
beyond 64 bits as the largest word, and a minus sign negates modulo `2 ^ 64`.

Main statement: `Command.run_of_parse_eq_none`, a refused command line runs nothing.
-/

namespace TwistedEdwards

namespace Command

/-- What a run is told. -/
structure Options where
  quiet : Bool
  seed : UInt64

/-- What a program run leaves behind. -/
structure Exit where
  code : Nat
  out : String
  err : String

/-- The number of a digit in a base up to sixteen. -/
def digit? (base : Nat) (c : Char) : Option Nat :=
  match Hex.digit? c with
  | some d => if d.toNat < base then some d.toNat else none
  | none => none

/-- Reads digits up to the first character that is none. -/
def digits (base : Nat) : (acc : Nat) → List Char → Nat
  | acc, [] => acc
  | acc, c :: rest =>
    match digit? base c with
    | some d => digits base (acc * base + d) rest
    | none => acc

/-- The number after the sign, in the base that its first characters tell. -/
def magnitude : List Char → Nat
  | '0' :: x :: c :: rest =>
    if (x = 'x' ∨ x = 'X') ∧ (digit? 16 c).isSome then digits 16 0 (c :: rest)
    else digits 8 0 (x :: c :: rest)
  | '0' :: rest => digits 8 0 rest
  | cs => digits 10 0 cs

/-- A blank before a number. -/
def isBlank (c : Char) : Bool := c = ' ' || ('\t' ≤ c && c ≤ '\r')

/-- A magnitude with its sign; one that does not fit is the largest word. -/
def signed (negative : Bool) (n : Nat) : UInt64 :=
  if 2 ^ 64 ≤ n then 0xffffffffffffffff
  else if negative then 0 - n.toUInt64 else n.toUInt64

/-- Reads a seed. -/
def seedOfText (s : String) : UInt64 :=
  match s.toList.dropWhile isBlank with
  | '-' :: rest => signed true (magnitude rest)
  | '+' :: rest => signed false (magnitude rest)
  | cs => signed false (magnitude cs)

/-- Reads the arguments on top of the options so far; none if they are refused. -/
def parseFrom (options : Options) : List String → Option Options
  | [] => some options
  | "--quiet" :: rest => parseFrom { options with quiet := true } rest
  | "--seed" :: value :: rest => parseFrom { options with seed := seedOfText value } rest
  | _ :: _ => none

/-- Reads the arguments. -/
def parse (args : List String) : Option Options := parseFrom ⟨false, 0⟩ args

def programName : String := "edwards25519-fuzz"

/-- How a refused command line ends. -/
def refusal : Exit := ⟨1, "", "Usage: " ++ programName ++ " [--quiet] [--seed <N>]\n"⟩

/-- The lines before the sections. -/
def heading (options : Options) : String :=
  "edwards25519 Fuzz Tests\n=======================\nPRNG seed: 0x" ++
    String.ofList (Nat.toDigits 16 options.seed.toNat) ++ "\n"

/-- The lines after the sections. -/
def summary (t : Tally) : String :=
  "\n=======================\nTotal:  " ++ toString t.run ++ "\nPassed: " ++ toString t.passed ++
    "\nFailed: " ++ toString t.failed ++ "\n"

/-- A run of every section. -/
def runAll (options : Options) : Exit :=
  let sections := Topic.all.map (Topic.run · options.seed)
  let tally := sections.foldl (fun t s => t.recordAll s.checks) Tally.empty
  ⟨if tally.failed = 0 then 0 else 1,
    heading options ++ String.join (sections.map (Section.text options.quiet)) ++ summary tally, ""⟩

/-- What the command does with its arguments. -/
def run (args : List String) : Exit :=
  match parse args with
  | some options => runAll options
  | none => refusal

/-- A refused command line runs nothing. -/
theorem run_of_parse_eq_none {args : List String} (h : parse args = none) :
    run args = refusal := by
  rw [run, h]

end Command

end TwistedEdwards
