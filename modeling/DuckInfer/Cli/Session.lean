import DuckInfer.Cli.Invocation
import DuckInfer.Project.Config
import DuckInfer.Project.Workspace
import DuckInfer.Store.Library

/-!
One run of the program: reads the command line, the configuration and the declaration files, and
answers one question. Declaration files of the configuration come before those of the command line.
-/

namespace DuckInfer.Cli

/-- Why there is no answer. -/
inductive Failure where
  /-- the command line cannot be understood -/
  | usage
  | config (e : ConfigFailure)
  | declarations (e : Decl.FileFailure)
  | question (e : QuestionError)

def Failure.message : Failure → String
  | .usage => "expected [--config PATH] [--decl PATH]... QUESTION"
  | .config e => e.message
  | .declarations e => e.message
  | .question (.badType text) => "bad type " ++ text

def Failure.code : Failure → UInt32
  | .usage => 2
  | _ => 1

def exitCode : Except Failure String → UInt32
  | .ok _ => 0
  | .error e => e.code

/-- What a run prints. -/
def output : Except Failure String → String
  | .ok text => text ++ "\n"
  | .error _ => ""

/-- The answer of a store that was not asked anything before. -/
def answer (c : Config) (w : Workspace) (q : Question) : Except Failure String :=
  let analyzer : Analyzer := ⟨w.store, c.budget⟩
  ((Library.ofStore w.store).ask (q.answer analyzer)).1.mapError .question

variable {m : Type → Type} [Monad m]

/-- The configuration of a project, and its declaration files. -/
def settings (disk : Files.Disk m) (path? : Option String) :
    m (Except ConfigFailure (Config × List String)) := do
  let found ← match path? with
    | some path => pure (some path)
    | none => Config.find? disk disk.workingDir
  match found with
  | none => return .ok (.empty, [])
  | some path =>
    let config ← Config.load disk path
    return config.map fun c => (c, c.declarationFiles ((Files.parent? path).getD ""))

/-- Answers what a command line asks for. -/
def Invocation.run (i : Invocation) (disk : Files.Disk m) : m (Except Failure String) := do
  match ← settings disk i.sources.config? with
  | .error e => return .error (.config e)
  | .ok (config, paths) =>
    match ← Workspace.load disk (paths ++ i.sources.declarations) with
    | .error e => return .error (.declarations e)
    | .ok workspace => return answer config workspace i.question

def run (disk : Files.Disk m) (arguments : List String) : m (Except Failure String) :=
  match Invocation.ofArguments? arguments with
  | none => return .error .usage
  | some i => i.run disk

end DuckInfer.Cli
