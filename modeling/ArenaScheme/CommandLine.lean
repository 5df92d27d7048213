import ArenaScheme.FileTree
import ArenaScheme.Session
import ArenaScheme.TypedLine

/-! The command line. A console loads the base library, then runs one script, or answers lines:
each line is evaluated and its value or its fault is printed. -/

namespace ArenaScheme

open Eval

structure Console where
  machine : Machine
  /-- What went to the error stream. -/
  errors : String
  /-- The exit status, once the console has stopped. -/
  status : Option Nat
  deriving Inhabited

namespace Console

/-- The operating system keeps the low eight bits of a status. -/
def statusOf (code : Int) : Nat := (code % 256).toNat

def print (text : String) (console : Console) : Console :=
  { console with
    machine := { console.machine with output := console.machine.output ++ text } }

def stop (status : Nat) (console : Console) : Console := { console with status := some status }

/-- Stops with a fault that nothing can handle. -/
def abort (report : String) (console : Console) : Console :=
  { console with errors := console.errors ++ "Error: " ++ report ++ "\n", status := some 1 }

def run {α : Type} (action : Eval α) (console : Console) : Except Stop α × Console :=
  match action console.machine with
  | .ok a machine => (.ok a, { console with machine })
  | .error stop machine => (.error stop, { console with machine })

/-- A console with the base library. A fault in it is passed over unless it ends the program. -/
def boot (bootstrap : Except FileProblem String) : Console :=
  match Machine.start Machine.defaultCapacity with
  | .error fault => abort fault.report default
  | .ok machine =>
    match run (Session.load bootstrap) { machine, errors := "", status := none } with
    | (.ok _, console) => console
    | (.error (.fault (.exit code)), console) => stop (statusOf code) console
    | (.error (.fault fault), console) =>
      if fault.isFatal then abort fault.report console else console
    | (.error .outOfFuel, console) => abort "OutOfFuel" console

/-- Runs a script and stops. -/
def runScript (script : Except FileProblem String) (console : Console) : Console :=
  match run (Session.load script) console with
  | (.ok _, console) => stop 0 console
  | (.error (.fault (.exit code)), console) => stop (statusOf code) console
  | (.error (.fault fault), console) => abort fault.report console
  | (.error .outOfFuel, console) => abort "OutOfFuel" console

/-- Evaluates a line and prints the outcome. -/
def evalLine (line : String) (console : Console) : Console :=
  match run (Session.evalText line) console with
  | (.ok value, console) =>
    print (console.machine.heap.display value ++ "\n") console
  | (.error (.fault (.exit code)), console) => stop (statusOf code) console
  | (.error (.fault fault), console) =>
    let console := print ("Err: " ++ fault.message ++ "\n") console
    if fault.isFatal then stop 1 console else console
  | (.error .outOfFuel, console) => print "Err: out of fuel\n" console

/-- Answers a line. After blanks and a comma it is a command, and only the one to quit is known. -/
def answer (line : String) (console : Console) : Console :=
  match line.toList.dropWhile Text.isBlank with
  | ',' :: 'q' :: _ => stop 0 console
  | ',' :: _ => console
  | _ => evalLine line console

/-- Answers a line as it was typed. One whose corrections make no sense ends the program. -/
def answerTyped (line : Option String) (console : Console) : Console :=
  match line with
  | some line => answer line console
  | none => stop 101 console

end Console

namespace CommandLine

/-- Where the base library is looked for. -/
def bootstrapFile : String := "init.scm"

/-- The script to run: the first argument, unless it is two dashes. -/
def script? : List String → Option String
  | [] | "--" :: _ => none
  | file :: _ => some file

/-- Answers lines until the console stops. -/
def answerLines : List (Option String) → Console → Console
  | [], console => console
  | line :: lines, console =>
    if console.status.isSome then console else answerLines lines (console.answerTyped line)

/-- A whole run, given the arguments, the files and what comes in on standard input. -/
def run (arguments : List String) (file : String → Except FileProblem String) (input : String) :
    Console :=
  let console := Console.boot (file bootstrapFile)
  if console.status.isSome then console
  else match script? arguments with
    | some script => console.runScript (file script)
    | none => answerLines (TypedLine.lines input) console

end CommandLine

end ArenaScheme
