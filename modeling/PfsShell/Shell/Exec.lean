/-
# The command table

`exec` of `src/shell.c` looks a command up by its name and the number of its arguments, checks
what it requires, and runs it.  `shell` starts with an empty context and `"/"` for a directory.
-/
import PfsShell.Lib.Run
import PfsShell.Shell.Commands

namespace PfsShell.Shell

open PfsShell.Lib

variable {σ : Type}

/-! ## 1. Requirements -/

/-- `enum requirements`: a sum of flags. -/
structure Requirements where
  needDevice : Bool := false
  needNoDevice : Bool := false
  needMount : Bool := false
  needNoMount : Bool := false

/-- `check_requirements`: what it complains about, if anything. -/
def checkRequirements (ctx : Context) (req : Requirements) : Option Message :=
  if req.needDevice ∧ ¬ ctx.setup then some .noDevice
  else if req.needNoDevice ∧ ctx.setup then some .deviceSelected
  else if req.needMount ∧ ¬ ctx.mount then some .noPartition
  else if req.needNoMount ∧ ctx.mount then some .partitionMounted
  else none

/-! ## 2. The table -/

/-- `struct command`. -/
structure Command (σ : Type) where
  name : CStr
  args : ℕ
  req : Requirements
  process : List CStr → Session σ → Outcome σ

section Table

variable (io : IomanX σ) (uninit : IoxDirent) (fuel : ℕ)

/-- `CMD`. -/
def commands : List (Command σ) :=
  [⟨ascii ['l', 'c', 'd'], 0, {}, doLcd io⟩,
   ⟨ascii ['l', 'c', 'd'], 1, {}, doLcd io⟩,
   ⟨ascii ['d', 'e', 'v', 'i', 'c', 'e'], 1, { needNoDevice := true }, doDevice io uninit fuel⟩,
   ⟨ascii ['i', 'n', 'i', 't', 'i', 'a', 'l', 'i', 'z', 'e'], 0,
    { needDevice := true, needNoMount := true }, doInitialize io uninit fuel⟩,
   ⟨ascii ['i', 'n', 'i', 't', 'i', 'a', 'l', 'i', 'z', 'e'], 1,
    { needDevice := true, needNoMount := true }, doInitialize io uninit fuel⟩,
   ⟨ascii ['m', 'k', 'p', 'a', 'r', 't'], 3, { needDevice := true }, doMkpart io fuel⟩,
   ⟨ascii ['m', 'o', 'u', 'n', 't'], 1, { needDevice := true, needNoMount := true },
    doMount io⟩,
   ⟨ascii ['u', 'm', 'o', 'u', 'n', 't'], 0, { needDevice := true, needMount := true },
    fun _ => doUmount io⟩,
   ⟨ascii ['l', 's'], 0, { needDevice := true }, doLs io uninit fuel⟩,
   ⟨ascii ['l', 's'], 1, { needDevice := true }, doLs io uninit fuel⟩,
   ⟨ascii ['m', 'k', 'd', 'i', 'r'], 1, { needDevice := true, needMount := true }, doMkdir io⟩,
   ⟨ascii ['r', 'm', 'd', 'i', 'r'], 1, { needDevice := true, needMount := true }, doRmdir io⟩,
   ⟨ascii ['p', 'w', 'd'], 0, { needDevice := true, needMount := true }, fun _ => doPwd⟩,
   ⟨ascii ['c', 'd'], 1, { needDevice := true, needMount := true }, doCd io⟩,
   ⟨ascii ['g', 'e', 't'], 1, { needDevice := true, needMount := true }, doGet io fuel⟩,
   ⟨ascii ['p', 'u', 't'], 1, { needDevice := true, needMount := true }, doPut io fuel⟩,
   ⟨ascii ['r', 'm'], 1, { needDevice := true, needMount := true }, doRm io⟩,
   ⟨ascii ['r', 'm', 'p', 'a', 'r', 't'], 1, { needDevice := true }, doRmpart io⟩,
   ⟨ascii ['d', 'f'], 0, { needDevice := true }, fun _ => doDf io uninit fuel⟩,
   ⟨ascii ['r', 'e', 'n', 'a', 'm', 'e'], 2, { needDevice := true }, doRename io⟩,
   ⟨ascii ['h', 'e', 'l', 'p'], 0, {}, fun _ => doHelp⟩]

/-- `exec`. -/
def exec (argv : List CStr) (s : Session σ) : Outcome σ :=
  match argv with
  | [] => some (0, s)
  | name :: args =>
    match (commands io uninit fuel).find? fun c => c.name = name ∧ c.args = args.length with
    | some c =>
      match checkRequirements s.ctx c.req with
      | none => c.process argv s
      | some complaint => some (0, s.say complaint)
    | none => some (0, s.say (.unknownCommand name))

/-- The session after a command line. -/
def execStep (argv : List CStr) (s : Session σ) : Option (Session σ) :=
  (exec io uninit fuel argv s).map (·.2)

end Table

/-- `shell` starts here: the context is zeroed, and the directory is `"/"`. -/
def started (world : σ) : Session σ := { world := world }

end PfsShell.Shell
