import LosslessTree.Database
import LosslessTree.Diagnostic.Render
import LosslessTree.Kind.Lookup
import LosslessTree.View.Basic

set_option autoImplicit false

namespace LosslessTree

inductive Request where
  | dump
  | check
  | outline
  | query (kind : String)
  deriving DecidableEq, Repr

structure Command where
  path : String
  request : Request
  deriving DecidableEq, Repr

structure Outcome where
  code : Nat
  out : String
  err : String
  deriving DecidableEq, Repr

namespace Command

def parseQuery (path kind : Option String) : List String → Option Command
  | [] =>
      match path, kind with
      | some path, some kind => some ⟨path, .query kind⟩
      | _, _ => none
  | "--kind" :: value :: rest => if kind.isSome then none else parseQuery path (some value) rest
  | word :: rest =>
      if word.startsWith "--kind=" then
        if kind.isSome then none else parseQuery path (some (word.drop 7).toString) rest
      else if word.startsWith "-" || path.isSome then none
      else parseQuery (some word) kind rest

def ofArguments : List String → Option Command
  | ["dump", path] => some ⟨path, .dump⟩
  | ["check", path] => some ⟨path, .check⟩
  | ["outline", path] => some ⟨path, .outline⟩
  | "query" :: operands => parseQuery none none operands
  | _ => none

def printed (out : String) : Outcome := ⟨0, out, ""⟩

def indented (cause : String) : String := "    " ++ cause.replace "\n" "\n    "

def failed (reason cause : String) : Outcome :=
  ⟨1, "", "Error: " ++ reason ++ "\n\nCaused by:\n" ++ indented cause ++ "\n"⟩

def place (text : Text) (offset : Nat) : String :=
  let p := (text.position? offset).getD .start
  toString (p.line + 1) ++ ":" ++ toString (p.column + 1)

def firstLine (t : Text) : Text :=
  let line := t.takeWhile (· != '\n')
  if line.length < t.length && line.getLast? == some '\r' then line.dropLast else line

def rendering? (f : SourceFile) (d : Diagnostic) : Option String :=
  match d.render .styled f.path f.text with
  | .ok rendering => some (String.ofList rendering ++ "\n")
  | .error _ => none

def runCheck (f : SourceFile) : Outcome :=
  let renderings := f.check.map (rendering? f)
  let code := if renderings.any Option.isNone then 101 else if renderings.isEmpty then 0 else 1
  ⟨code, "", String.join ((renderings.takeWhile Option.isSome).filterMap id)⟩

def outlineLine (text : Text) (e : Outline.Entry) : String :=
  "".pushn ' ' (2 * e.depth) ++ e.keyword ++ " " ++ String.ofList e.name ++ " "
    ++ place text e.span.start ++ "\n"

def queryLine (t : SyntaxTree) (n : Nat) : String :=
  place t.text (t.trimmedSpan n).start ++ " " ++ (t.kind n).displayName ++ " "
    ++ String.ofList (firstLine (t.trimmedText n)) ++ "\n"

def matching (t : SyntaxTree) (kinds : KindSet) : List Nat :=
  (t.descendants 0).filter fun n => kinds.contains (t.kind n)

def runQuery (f : SourceFile) (kind : String) : Outcome :=
  match KindSet.lookUp kind with
  | .error e => failed "invalid `--kind`" e.message
  | .ok kinds =>
      let t := f.parse.tree
      printed (String.join ((matching t kinds).map (queryLine t)))

def run (c : Command) : Except String Text → Outcome
  | .error cause => failed ("failed to read `" ++ c.path ++ "`") cause
  | .ok text =>
      let f : SourceFile := ⟨c.path, text⟩
      match c.request with
      | .dump => printed f.parse.dump
      | .check => runCheck f
      | .outline => printed (String.join (f.outline.map (outlineLine text)))
      | .query kind => runQuery f kind

end Command

end LosslessTree
