import Puremake.Ide.Lines

/-!
# Files in the projects of CodeLite and Code::Blocks

CodeLite projects have the source tree, from its root on; Code::Blocks projects list the files
and say for some of them how they are compiled.
-/

namespace Puremake

namespace Ide

namespace Codelite

/-- The callbacks in `codelite.files`. -/
def printer : Tree.Printer Project.SourceData Line where
  branchenter node depth := node.name.map fun name =>
    [.text depth (quoted "<VirtualDirectory Name=" name ">")]
  branchexit _ depth := some [.text depth "</VirtualDirectory>".toList]
  leaf node depth := node.data.cfg.map fun fcfg =>
    [.file depth "<File Name=".toList fcfg.name "/>".toList]

def files (fuel : ℕ) (ord : PairsOrder) (prj : Ide.Project) : Option (List Line) := do
  let tr ← (Project.buildsourcetree ord prj.name prj.root).toOption
  (Tree.traverse printer.callbacks fuel 0 true 1 (tr, [])).map Prod.snd

end Codelite

namespace Codeblocks

/-- What `codeblocks.files` writes for a file. -/
def unit (prj : Ide.Project) (pchheader : Option Str) (file : Project.SourceFile) : List Line :=
  let fname := file.fcfg.name
  .file 2 "<Unit filename=".toList (Xml.escText fname) ">".toList ::
    (if fname ≠ file.vpath then
      [.text 3 (quoted "<Option virtualFolder=" (Path.getdirectory file.vpath) " />")] else []) ++
    (if Path.isresourcefile fname then
      [.text 3 (quoted "<Option compilerVar=" "WINDRES".toList " />")]
    else if Path.iscfile fname ∧ prj.root.fields .language = some "C++".toList then
      [.text 3 (quoted "<Option compilerVar=" "CC".toList " />")] else []) ++
    (if ¬ hasFlag prj.root "NoPCH" ∧ some fname = pchheader then
      [.text 3 (quoted "<Option compilerVar="
          (if iscproject prj then "CC" else "CPP").toList " />"),
        .text 3 (quoted "<Option compile=" "1".toList " />"),
        .text 3 (quoted "<Option weight=" "0".toList " />"),
        .text 3 (quoted "<Add option=" "-x c++-header".toList " />")] else []) ++
    [.text 2 "</Unit>".toList]

/-- `codeblocks.files`; `cwd` is the current directory. -/
def files (cwd : Str) (ord : PairsOrder) (prj : Ide.Project) : Option (List Line) := do
  let pchheader := (prj.root.fields .pchheader).map
    (Path.getrelative cwd ((prj.root.fields .location).getD []))
  let fcfgs ← (Project.eachfile ord prj.root).toOption
  return fcfgs.flatMap (unit prj pchheader)

end Codeblocks

end Ide

end Puremake
