import DocTree.Build
import DocTree.Report

/-!
What the library declares about itself: its version, its public names, its node kinds and its
options.
-/
namespace DocTree.Manifest

def version : String := "1.0.0"

def functions : List String :=
  ["append_child", "build_tree", "capture_position", "check_invariants", "convert", "fixup_root",
    "normalize_lists", "remove_child", "replace_at", "replace_node", "walk"]

def types : List String :=
  ["BuildOptions", "MarkupConverter", "NODE_KINDS", "Position", "__version__"]

def publicNames : List String :=
  (functions ++ types ++ ReportClass.all.map ReportClass.name
    ++ (NodeKind.node :: NodeKind.concrete).map NodeKind.className).mergeSort

def nodeKinds : List (String × String) :=
  (NodeKind.concrete.map fun kind => (kind.tag, kind.className)).mergeSort (fun a b => a.1 ≤ b.1)

inductive Importance where
  | core
  | advanced
  deriving DecidableEq, Repr

def Importance.name : Importance → String
  | core => "core"
  | advanced => "advanced"

def options : List ((String × Value) × Importance) :=
  (BuildOptions.signature default).defaults.zip [.core, .advanced]

end DocTree.Manifest
