import ClientLoom.Module.Merge

/-! # Source files

A source file is a named list of modules with attributes of its own.  `SourceFile.add` keeps
the names of its modules distinct and `SourceFile.merge` builds one from partial modules. -/

namespace ClientLoom

/-- A named list of modules. -/
structure SourceFile where
  name : String
  attrs : List Attr := []
  modules : List Module := []

namespace SourceFile

/-- The module called `name`. -/
def module? (f : SourceFile) (name : Ident) : Option Module := f.modules.find? (·.name == name)

/-- Appends a module whose name is new. -/
def add (f : SourceFile) (m : Module) : Except Failure SourceFile :=
  if (f.module? m.name).isSome then
    .error (.invalid (f.name ++ ": duplicate module " ++ inMessage m.name))
  else .ok { f with modules := f.modules ++ [m] }

/-- The number of declarations of all modules. -/
def size (f : SourceFile) : Nat := f.modules.foldl (fun n m => n + m.decls.length) 0

/-- The distinct names of modules in increasing order. -/
def names (parts : List Module) : List Ident :=
  (parts.map Module.name).eraseDups.mergeSort fun a b => decide (Text.rank a ≤ Text.rank b)

/-- Merges the parts of every name; the modules are in increasing order of their names. -/
def merge (name : String) (parts : List Module) : Except Failure SourceFile :=
  ((names parts).mapM fun n => Module.merge (parts.filter (·.name == n))).map
    fun modules => { name := name, modules := modules }

end SourceFile
end ClientLoom
