import HeaderApi.Amalgam.Collection
import HeaderApi.File.Directory

/-!
# Parts from a directory
-/

namespace HeaderApi.Collection

open Text

/-- The resolver of the files below a folder. -/
def directoryResolver (d : Directory) (base : Path) : Resolver := fun name =>
  (d.read (base.join (.ofText name))).map fun text => lines text.toList

/-- A bound on the number of headers that can be named: each is the root or is named on a line of
its own. -/
def nameBound (d : Directory) : Nat :=
  (d.files.flatMap fun file => lines file.2.toList).length + 1

/-- The parts of a root and of everything that it includes, from the files below a folder. -/
def ofDirectory (d : Directory) (base : Path) (options : AmalgamOptions) (root : String) :
    Logged AmalgamError Collection :=
  collect (directoryResolver d base) options (nameBound d) root

end HeaderApi.Collection
