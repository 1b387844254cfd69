import Dice.Datum
import Dice.Package.Task
import Dice.Release

/-!
# Dice.Package.Declaration

What the package declares about itself.

* `Keeping` : what is settled outside of it;
* `declaration` : its name, its needs, its commands and the like;
* `rootOf` : the folder of the package, from the path of the file with its declaration.
-/

namespace Dice.Package

def texts (items : List String) : Datum :=
  .list (items.map .text)

def programName : String := "diceLang"

def summary : String := "Dice notation parser and roller, i.e. 3d6kh2!=6+1d4-3"

/-- Who keeps the package and where to reach them, and its licence with the classifier for it. -/
structure Keeping where
  keeper : String
  address : String
  licence : String
  classifier : String

def classifiers (k : Keeping) : List String := [
  "Development Status :: 2 - Pre-Alpha",
  "Environment :: Console",
  "Intended Audience :: Developers",
  "Intended Audience :: End Users/Desktop",
  k.classifier,
  "Operating System :: POSIX :: Linux",
  "Programming Language :: Python",
  "Programming Language :: Python :: 3",
  "Programming Language :: Python :: 3.6",
  "Programming Language :: Python :: 3.10"]

def taskEntry (t : Task) : String × Datum :=
  (t.name, .list [.text t.title,
    .list (t.options.map fun option => .list [.text option.1, .null, .text option.2])])

def declaration (k : Keeping) : Datum :=
  .map [
    ("name", .text programName),
    ("version", .text Release.version),
    ("description", .text summary),
    ("long_description", .text summary),
    ("author", .text k.keeper),
    ("author_email", .text k.address),
    ("maintainer", .text k.keeper),
    ("maintainer_email", .text k.address),
    ("license", .text k.licence),
    ("platforms", texts ["any"]),
    ("classifiers", texts (classifiers k)),
    ("keywords", .text "dice notation parser"),
    ("packages", texts ["dicelang"]),
    ("package_data", .map [("dicelang", texts ["data/*.yml"])]),
    ("install_requires", texts runtimeNeeds),
    ("tests_require", texts testNeeds),
    ("extras_require", .map [("test", texts testNeeds)]),
    ("entry_points", .map [("console_scripts", texts [programName ++ " = dicelang.cli:main"])]),
    ("cmdclass", .map (Task.all.map taskEntry))]

def rootOf (here file : String) : String :=
  Path.absolute here (Path.parent file)

end Dice.Package
